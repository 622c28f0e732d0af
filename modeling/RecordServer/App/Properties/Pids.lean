import RecordServer.App.Properties.StoreUnique

/-!
# process と pid

fork は使われたことのない pid を返すので、終わった process の pid は二度と生き返らない。
manager の状態に現れる pid はどれも使われたことのあるもので、
再起動のために引かれる pid の process はすでに終わっている（`PidsKnown`）。
-/

namespace RecordServer.App

open Infra

/-! ## process の状態 -/

/-- stream `sid` を録画する process `p` が動いている。 -/
def Running (s : State) (p : Nat) (sid : CString) : Prop :=
  ∃ pr, s.procs p = some pr ∧ pr.stream = some sid ∧ pr.state = .running

instance (s : State) (p : Nat) (sid : CString) : Decidable (Running s p sid) :=
  decidable_of_iff (∃ pr ∈ s.procs p, pr.stream = some sid ∧ pr.state = .running) (by
    simp [Running])

/-- pid `p` の process はもう終わっている。 -/
def Ended (s : State) (p : Nat) : Prop := ∃ pr, s.procs p = some pr ∧ pr.state ≠ .running

/-- pid `p` は使われたことがある。 -/
def Known (s : State) (p : Nat) : Prop := s.procs p ≠ none

theorem Ended.known {s : State} {p : Nat} (h : Ended s p) : Known s p := by
  obtain ⟨pr, hp, _⟩ := h
  simp [Known, hp]

theorem Ended.not_running {s : State} {p : Nat} {sid : CString} (h : Ended s p) :
    ¬ Running s p sid := by
  rintro ⟨pr, hp, _, hrun⟩
  obtain ⟨pr', hp', hne⟩ := h
  rw [hp] at hp'
  cases hp'
  exact hne hrun

/-- 使われた pid は、fork が別の pid に書いても使われたままである。 -/
theorem known_forkProc {procs : Procs} {p q : Nat} {sid : CString} (h : procs q ≠ none) :
    forkProc procs p sid q ≠ none := by
  unfold forkProc
  by_cases hq : q = p
  · simp [hq]
  · simpa [Function.update_of_ne hq] using h

theorem ended_forkProc {s : State} {p q : Nat} {sid : CString} (hfresh : s.procs p = none)
    (h : Ended s q) : ∃ pr, forkProc s.procs p sid q = some pr ∧ pr.state ≠ .running := by
  obtain ⟨pr, hq, hne⟩ := h
  have hqp : q ≠ p := by
    rintro rfl
    simp [hfresh] at hq
  exact ⟨pr, by simpa [forkProc, Function.update_of_ne hqp] using hq, hne⟩

theorem known_step {s s' : State} {a : Act} (h : step s a = some s') {q : Nat} (hq : Known s q) :
    Known s' q := by
  cases step_cases h with
  | queueFork | sigFork | monFork => exact known_forkProc hq
  | die p pr hp =>
    by_cases hqp : q = p
    · simp [Known, hqp]
    · simpa [Known, Function.update_of_ne hqp] using hq
  | sigReap p pr spc hp =>
    by_cases hqp : q = p
    · simp [Known, hqp]
    · simpa [Known, Function.update_of_ne hqp] using hq
  | _ => exact hq

/-- 終わった process は生き返らない。 -/
theorem ended_step {s s' : State} {a : Act} (h : step s a = some s') {q : Nat} (hq : Ended s q) :
    Ended s' q := by
  cases step_cases h with
  | queueFork e f p qpc hfresh => exact ended_forkProc hfresh hq
  | sigFork i p spc hfresh => exact ended_forkProc hfresh hq
  | monFork i rest p mpc hfresh => exact ended_forkProc hfresh hq
  | die p pr hp hrun =>
    by_cases hqp : q = p
    · refine ⟨endProc pr, by simp [hqp], ?_⟩
      unfold endProc
      cases pr.child <;> simp
    · obtain ⟨pr', hq', hne⟩ := hq
      exact ⟨pr', by simpa [Function.update_of_ne hqp] using hq', hne⟩
  | sigReap p pr spc hp =>
    by_cases hqp : q = p
    · exact ⟨_, by simp [hqp]; rfl, by simp⟩
    · obtain ⟨pr', hq', hne⟩ := hq
      exact ⟨pr', by simpa [Function.update_of_ne hqp] using hq', hne⟩
  | _ => exact hq

/-- `kill(pid, 0)` が失敗した、使われたことのある pid の process は終わっている。 -/
theorem ended_of_check {s : State} {p : Nat} (hk : Known s p)
    (h : checkSystemProcessExist s.procs p = false) : Ended s p := by
  unfold checkSystemProcessExist at h
  split at h
  · next hp => exact absurd hp hk
  · next pr hp => exact ⟨pr, hp, by rintro hrun; simp [hrun] at h⟩

/-! ## pid についての不変量 -/

/-- 記録を引き終えて fork しようとしている再起動。 -/
def Forking (s : State) (i : ProcessInfo) : Prop := s.spc = .fork i ∨ ∃ rest, s.mpc = .fork i rest

/-- fork を終えて記録を書こうとしている再起動。`i.pid` は新しい pid である。 -/
def Updating (s : State) (i : ProcessInfo) : Prop :=
  s.spc = .update i ∨ ∃ rest, s.mpc = .update i rest

/-- monitor がこれから調べる記録。 -/
def MonPc.rest : MonPc → List ProcessInfo
  | .idle => []
  | .check rest => rest
  | .lookup _ rest => rest
  | .fork _ rest => rest
  | .update _ rest => rest

/-- 状態に現れる pid は使われたもので、これから引く pid の process は終わっている。 -/
structure PidsKnown (s : State) : Prop where
  store : ∀ d ∈ s.store, Known s d.pid
  orphan : ∀ i ∈ s.mpc.rest, Known s i.pid
  inserting : ∀ e, s.qpc = .insert e → Known s e.pid
  updating : ∀ i, Updating s i → Known s i.pid
  sigLookup : ∀ p, s.spc = .lookup p → Ended s p
  monLookup : ∀ p rest, s.mpc = .lookup p rest → Ended s p

theorem mem_updateProcessInfo {c : Store} (hnd : c.sids.Nodup) {i e : ProcessInfo} :
    e ∈ updateProcessInfo c i ↔
      (e ∈ c ∧ e.sid ≠ i.sid) ∨ ∃ d ∈ c, d.sid = i.sid ∧ e = { d with pid := i.pid } := by
  unfold updateProcessInfo
  exact mem_update_byStream hnd

theorem mem_findOrphanProcess {self : Nat} {c : Store} {i : ProcessInfo}
    (h : i ∈ findOrphanProcess self c) : i ∈ c :=
  List.mem_of_mem_filter (List.mem_of_mem_filter h)

theorem known_forkProc_self (procs : Procs) (p : Nat) (sid : CString) :
    forkProc procs p sid p ≠ none := by simp [forkProc]

theorem known_updateProcessInfo {s : State} (hnd : s.store.sids.Nodup)
    (hk : ∀ d ∈ s.store, Known s d.pid) {i : ProcessInfo} (hi : Known s i.pid) :
    ∀ d ∈ updateProcessInfo s.store i, Known s d.pid := by
  intro d hd
  rcases (mem_updateProcessInfo hnd).mp hd with ⟨h, _⟩ | ⟨d₀, _, _, rfl⟩
  · exact hk d h
  · exact hi

theorem PidsKnown.step {s s' : State} {a : Act} (h : App.step s a = some s') (hu : UniqueStore s)
    (hi : PidsKnown s) : PidsKnown s' := by
  have hk : ∀ {q}, Known s q → Known s' q := fun hq => known_step h hq
  have he : ∀ {q}, Ended s q → Ended s' q := fun hq => ended_step h hq
  obtain ⟨hstore, horphan, hins, hupd, hsig, hmon⟩ := hi
  constructor
  · cases step_cases h with
    | killRemove p hpc => exact fun d hd => hk (hstore d (mem_of_mem_remove hd))
    | queueInsert e qpc =>
      intro d hd
      simp only [addProcessToCache, MongoAdaptor.insert, List.mem_append, List.mem_singleton] at hd
      rcases hd with hd | rfl
      · exact hk (hstore d hd)
      · exact hk (hins e qpc)
    | sigUpdate i spc => exact known_updateProcessInfo hu.nodup hstore (hupd i (.inl spc))
    | monUpdate i rest mpc =>
      exact known_updateProcessInfo hu.nodup hstore (hupd i (.inr ⟨rest, mpc⟩))
    | _ => exact fun d hd => hk (hstore d hd)
  · cases step_cases h with
    | monScan mpc => exact fun i hi => hk (hstore i (mem_findOrphanProcess hi))
    | monDone mpc => simp [MonPc.rest]
    | monAlive i rest mpc | monDead i rest mpc =>
      exact fun j hj => hk (horphan j (by rw [mpc]; exact List.mem_cons_of_mem _ hj))
    | monLookupNone p rest mpc | monLookupSome p rest i mpc | monForkFail i rest mpc
    | monFork i rest p mpc | monUpdate i rest mpc =>
      exact fun j hj => hk (horphan j (by rw [mpc]; exact hj))
    | _ => exact fun i hi => hk (horphan i hi)
  · cases step_cases h with
    | queueFork e f p qpc hfresh =>
      intro e' he'
      cases he'
      exact known_forkProc_self s.procs p e.sid
    | queueTake | queueExist | queueAbsent | queueCreateFail | queueCreate | queueForkFail
    | queueInsert => simp
    | _ => exact fun e he => hk (hins e he)
  · intro j hj
    cases step_cases h with
    | sigFork i p spc hfresh =>
      rcases hj with hj | hj
      · cases hj
        exact known_forkProc_self s.procs p i.sid
      · exact hk (hupd j (.inr hj))
    | monFork i rest p mpc hfresh =>
      rcases hj with hj | ⟨r, hj⟩
      · exact hk (hupd j (.inl hj))
      · cases hj
        exact known_forkProc_self s.procs p i.sid
    | sigReap | sigLookupNone | sigLookupSome | sigForkFail | sigUpdate =>
      rcases hj with hj | hj
      · simp at hj
      · exact hk (hupd j (.inr hj))
    | monScan | monDone | monAlive | monDead | monLookupNone | monLookupSome | monForkFail
    | monUpdate =>
      rcases hj with hj | ⟨r, hj⟩
      · exact hk (hupd j (.inl hj))
      · simp at hj
    | _ => exact hk (hupd j hj)
  · intro q hq
    cases step_cases h with
    | sigReap p pr spc hp hchild hz =>
      cases hq
      exact he ⟨pr, hp, by simp [hz]⟩
    | sigLookupNone | sigLookupSome | sigForkFail | sigFork | sigUpdate => simp at hq
    | _ => exact he (hsig q hq)
  · intro q r hq
    cases step_cases h with
    | monDead i rest mpc hex =>
      cases hq
      exact he (ended_of_check (horphan i (by rw [mpc]; exact List.mem_cons_self)) hex)
    | monScan | monDone | monAlive | monLookupNone | monLookupSome | monForkFail | monFork
    | monUpdate => simp at hq
    | _ => exact he (hmon q r hq)

end RecordServer.App
