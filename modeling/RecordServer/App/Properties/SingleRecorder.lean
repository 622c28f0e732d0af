import RecordServer.App.Properties.Pids

/-!
# 一つの stream を録画する process は一つ

`spawn_process` は記録のある stream を二度起動しないが、再起動（handler と monitor の
`process_reload`）と停止（`kill_process`）は、記録を読んでから書くまでの間に何の排他もしない。
同じ stream についてこの区間が重なると、

* handler と monitor が同じ死亡に二度応えて、二つの process が録画する
* 停止した stream の process が作られ、記録から辿れなくなる

前者は `two_recorders_by_double_restart` が実際の run で示す。
重ならなければ（`Separate`）、どの割り込みの順序でも録画は一つである（`at_most_one_recorder`）。

証明は、動いている録画 process の持ち主を数える。持ち主は記録・`spawn_process`・再起動の
どれかであり（`Owned`）、同じ stream の持ち主が二つあれば区間が重なっている。
-/

namespace RecordServer.App

open Infra

/-! ## 記録を読んでから書くまでの区間 -/

/-- handler が再起動の途中で持っている stream。 -/
def SigPc.held : SigPc → Option CString
  | .fork i => some i.sid
  | .update i => some i.sid
  | _ => none

/-- monitor が再起動の途中で持っている stream。 -/
def MonPc.held : MonPc → Option CString
  | .fork i _ => some i.sid
  | .update i _ => some i.sid
  | _ => none

/-- `kill_process` が記録を読んでから消すまでの stream。 -/
def HttpPc.held : HttpPc → Option CString
  | .remove p => some p.sid
  | _ => none

/-- 死んだ pid で引いたときに当たる記録の stream。 -/
def foundSid (c : Store) (pid : Nat) : Option CString := (isProcessExistPid c pid).map ProcessInfo.sid

def SigPc.finds (c : Store) : SigPc → Option CString
  | .lookup p => foundSid c p
  | _ => none

def MonPc.finds (c : Store) : MonPc → Option CString
  | .lookup p _ => foundSid c p
  | _ => none

/--
三つの活動の区間が重ならない：記録を引く一歩は、その stream を他の活動が持っていないときに起こる。
-/
def Separate (s : State) : Act → Prop
  | .stop sid => s.spc.held ≠ some sid ∧ s.mpc.held ≠ some sid
  | .sigLookup => ∀ sid ∈ s.spc.finds s.store, s.hpc.held ≠ some sid ∧ s.mpc.held ≠ some sid
  | .monLookup => ∀ sid ∈ s.mpc.finds s.store, s.hpc.held ≠ some sid ∧ s.spc.held ≠ some sid
  | _ => True

instance (s : State) : (a : Act) → Decidable (Separate s a)
  | .stop _ => inferInstanceAs (Decidable (_ ∧ _))
  | .sigLookup => inferInstanceAs (Decidable (∀ _ ∈ _, _))
  | .monLookup => inferInstanceAs (Decidable (∀ _ ∈ _, _))
  | .start _ | .killRemove | .killSignal | .queueTake | .queueCheck | .queueCreate _
  | .queueFork _ | .queueInsert | .die _ | .sigReap _ | .sigFork _ | .sigUpdate | .monScan
  | .monCheck | .monFork _ | .monUpdate => inferInstanceAs (Decidable True)

/-! ## 区間の不変量 -/

/-- 三つの活動は同じ stream を持たない。 -/
structure Apart (s : State) : Prop where
  sigMon : ∀ sid, s.spc.held = some sid → s.mpc.held ≠ some sid
  httpSig : ∀ sid, s.hpc.held = some sid → s.spc.held ≠ some sid
  httpMon : ∀ sid, s.hpc.held = some sid → s.mpc.held ≠ some sid

theorem getProcessInfo_sid {c : Store} {sid : CString} {p : ProcessInfo}
    (h : getProcessInfo c sid = some p) : p ∈ c ∧ p.sid = sid := by
  obtain ⟨hm, hq⟩ := findOne_some h
  exact ⟨hm, byStream_iff.mp hq⟩

theorem isProcessExistPid_pid {c : Store} {pid : Nat} {i : ProcessInfo}
    (h : isProcessExistPid c pid = some i) : i ∈ c ∧ i.pid = pid := by
  obtain ⟨hm, hq⟩ := findOne_some h
  exact ⟨hm, byPid_iff.mp hq⟩

theorem SigPc.finds_of_lookup {c : Store} {p : Nat} {i : ProcessInfo}
    (h : isProcessExistPid c p = some i) : i.sid ∈ (SigPc.lookup p).finds c := by
  simp [SigPc.finds, foundSid, h]

theorem MonPc.finds_of_lookup {c : Store} {p : Nat} {rest : List ProcessInfo} {i : ProcessInfo}
    (h : isProcessExistPid c p = some i) : i.sid ∈ (MonPc.lookup p rest).finds c := by
  simp [MonPc.finds, foundSid, h]

theorem Apart.step {s s' : State} {a : Act} (hsep : Separate s a) (h : App.step s a = some s')
    (ha : Apart s) : Apart s' := by
  obtain ⟨hsm, hhs, hhm⟩ := ha
  cases step_cases h with
  | stopSome sid p hpc hget =>
    obtain ⟨_, rfl⟩ := getProcessInfo_sid hget
    exact ⟨hsm, fun x hx => by cases hx; exact hsep.1, fun x hx => by cases hx; exact hsep.2⟩
  | killRemove | killSignal => exact ⟨hsm, by simp [HttpPc.held], by simp [HttpPc.held]⟩
  | sigLookupSome p i spc hget =>
    obtain ⟨h1, h2⟩ := hsep i.sid (by rw [spc]; exact SigPc.finds_of_lookup hget)
    exact ⟨fun x hx => by cases hx; exact h2, fun x hx hy => by cases hy; exact h1 hx, hhm⟩
  | monLookupSome p rest i mpc hget =>
    obtain ⟨h1, h2⟩ := hsep i.sid (by rw [mpc]; exact MonPc.finds_of_lookup hget)
    exact ⟨fun x hx hy => by cases hy; exact h2 hx, hhs, fun x hx hy => by cases hy; exact h1 hx⟩
  | sigFork i p spc hfresh =>
    rw [spc] at hsm hhs
    exact ⟨hsm, hhs, hhm⟩
  | monFork i rest p mpc hfresh =>
    rw [mpc] at hsm hhm
    exact ⟨hsm, hhs, hhm⟩
  | sigReap | sigLookupNone | sigForkFail | sigUpdate =>
    exact ⟨by simp [SigPc.held], by simp [SigPc.held], hhm⟩
  | monScan | monDone | monAlive | monDead | monLookupNone | monForkFail | monUpdate =>
    exact ⟨by simp [MonPc.held], hhs, by simp [MonPc.held]⟩
  | _ => exact ⟨hsm, hhs, hhm⟩

/-- 区間の途中で、手元の記録が collection のものと合っている。 -/
structure Current (s : State) : Prop where
  forking : ∀ i, Forking s i → i ∈ s.store ∧ Ended s i.pid
  updating : ∀ i, Updating s i → ∃ d ∈ s.store, d.sid = i.sid ∧ Ended s d.pid
  removing : ∀ p, s.hpc = .remove p → p ∈ s.store ∧ p.pid ∈ s.killed

theorem Forking.held {s : State} {i : ProcessInfo} (h : Forking s i) :
    s.spc.held = some i.sid ∨ s.mpc.held = some i.sid := by
  rcases h with h | ⟨rest, h⟩
  · exact .inl (by rw [h]; rfl)
  · exact .inr (by rw [h]; rfl)

theorem Updating.held {s : State} {i : ProcessInfo} (h : Updating s i) :
    s.spc.held = some i.sid ∨ s.mpc.held = some i.sid := by
  rcases h with h | ⟨rest, h⟩
  · exact .inl (by rw [h]; rfl)
  · exact .inr (by rw [h]; rfl)

/-- 停止が持っている stream は、どの再起動も持っていない。 -/
theorem Apart.ne_of_http {s : State} (ha : Apart s) {p : ProcessInfo} (hpc : s.hpc = .remove p)
    {sid : CString} (hh : s.spc.held = some sid ∨ s.mpc.held = some sid) : sid ≠ p.sid := by
  rintro rfl
  have hp : s.hpc.held = some p.sid := by rw [hpc]; rfl
  rcases hh with hh | hh
  · exact ha.httpSig _ hp hh
  · exact ha.httpMon _ hp hh

/-- 別の stream の記録は、書き換えの後にも残る。 -/
theorem mem_updateProcessInfo_of_ne {c : Store} (hnd : c.sids.Nodup) {i d : ProcessInfo}
    (hd : d ∈ c) (hne : d.sid ≠ i.sid) : d ∈ updateProcessInfo c i :=
  (mem_updateProcessInfo hnd).mpr (.inl ⟨hd, hne⟩)

theorem mem_addProcessToCache {self : Nat} {c : Store} {i d : ProcessInfo} (hd : d ∈ c) :
    d ∈ addProcessToCache self c i := List.mem_append_left _ hd

/-- 一つ目の活動が書き終えても、二つ目の活動の記録は残る。 -/
theorem Apart.sig_ne_mon {s : State} (ha : Apart s) {i j : CString} (hi : s.spc.held = some i)
    (hj : s.mpc.held = some j) : j ≠ i := by
  rintro rfl
  exact ha.sigMon _ hi hj

theorem Current.forking_step {s s' : State} {a : Act} (h : App.step s a = some s')
    (hu : UniqueStore s) (hk : PidsKnown s) (ha : Apart s) (hc : Current s) (i : ProcessInfo)
    (hi : Forking s' i) : i ∈ s'.store ∧ Ended s' i.pid := by
  have he : ∀ {q}, Ended s q → Ended s' q := fun hq => ended_step h hq
  have keep : Forking s i → i ∈ s.store ∧ Ended s' i.pid := fun hf =>
    ⟨(hc.forking i hf).1, he (hc.forking i hf).2⟩
  cases step_cases h with
  | killRemove p hpc =>
    have hf : Forking s i := hi
    exact ⟨mem_remove_of_ne (keep hf).1 (ha.ne_of_http hpc hf.held), (keep hf).2⟩
  | queueInsert e qpc => exact ⟨mem_addProcessToCache (keep hi).1, (keep hi).2⟩
  | sigUpdate j spc =>
    rcases hi with hi | ⟨rest, hi⟩
    · simp at hi
    · have hf := keep (.inr ⟨rest, hi⟩)
      have hne := ha.sig_ne_mon (by rw [spc]; rfl) (by rw [show s.mpc = _ from hi]; rfl)
      exact ⟨mem_updateProcessInfo_of_ne hu.nodup hf.1 hne, hf.2⟩
  | monUpdate j rest mpc =>
    rcases hi with hi | ⟨rest, hi⟩
    · have hf := keep (.inl hi)
      have hne := ha.sig_ne_mon (by rw [show s.spc = _ from hi]; rfl) (by rw [mpc]; rfl)
      exact ⟨mem_updateProcessInfo_of_ne hu.nodup hf.1 hne.symm, hf.2⟩
    · simp at hi
  | sigLookupSome p j spc hget =>
    rcases hi with hi | hi
    · cases hi
      obtain ⟨hm, hpid⟩ := isProcessExistPid_pid hget
      exact ⟨hm, he (hpid ▸ hk.sigLookup p spc)⟩
    · exact keep (.inr hi)
  | monLookupSome p rest j mpc hget =>
    rcases hi with hi | ⟨r, hi⟩
    · exact keep (.inl hi)
    · cases hi
      obtain ⟨hm, hpid⟩ := isProcessExistPid_pid hget
      exact ⟨hm, he (hpid ▸ hk.monLookup p rest mpc)⟩
  | sigReap | sigLookupNone | sigForkFail | sigFork =>
    rcases hi with hi | hi
    · simp at hi
    · exact keep (.inr hi)
  | monScan | monDone | monAlive | monDead | monLookupNone | monForkFail | monFork =>
    rcases hi with hi | ⟨r, hi⟩
    · exact keep (.inl hi)
    · simp at hi
  | _ => exact keep hi

theorem Current.updating_step {s s' : State} {a : Act} (h : App.step s a = some s')
    (hu : UniqueStore s) (ha : Apart s) (hc : Current s) (i : ProcessInfo)
    (hi : Updating s' i) : ∃ d ∈ s'.store, d.sid = i.sid ∧ Ended s' d.pid := by
  have he : ∀ {q}, Ended s q → Ended s' q := fun hq => ended_step h hq
  have keep : Updating s i → ∃ d ∈ s.store, d.sid = i.sid ∧ Ended s' d.pid := fun hf => by
    obtain ⟨d, hd, hs, hdead⟩ := hc.updating i hf
    exact ⟨d, hd, hs, he hdead⟩
  cases step_cases h with
  | killRemove p hpc =>
    have hf : Updating s i := hi
    obtain ⟨d, hd, hs, hdead⟩ := keep hf
    exact ⟨d, mem_remove_of_ne hd (hs ▸ ha.ne_of_http hpc hf.held), hs, hdead⟩
  | queueInsert e qpc =>
    obtain ⟨d, hd, hs, hdead⟩ := keep hi
    exact ⟨d, mem_addProcessToCache hd, hs, hdead⟩
  | sigUpdate j spc =>
    rcases hi with hi | ⟨rest, hi⟩
    · simp at hi
    · obtain ⟨d, hd, hs, hdead⟩ := keep (.inr ⟨rest, hi⟩)
      have hne := ha.sig_ne_mon (by rw [spc]; rfl) (by rw [show s.mpc = _ from hi]; rfl)
      exact ⟨d, mem_updateProcessInfo_of_ne hu.nodup hd (hs ▸ hne), hs, hdead⟩
  | monUpdate j rest mpc =>
    rcases hi with hi | ⟨rest, hi⟩
    · obtain ⟨d, hd, hs, hdead⟩ := keep (.inl hi)
      have hne := ha.sig_ne_mon (by rw [show s.spc = _ from hi]; rfl) (by rw [mpc]; rfl)
      exact ⟨d, mem_updateProcessInfo_of_ne hu.nodup hd (hs ▸ hne.symm), hs, hdead⟩
    · simp at hi
  | sigFork j p spc hfresh =>
    rcases hi with hi | hi
    · cases hi
      obtain ⟨hm, hdead⟩ := hc.forking j (.inl spc)
      exact ⟨j, hm, rfl, he hdead⟩
    · exact keep (.inr hi)
  | monFork j rest p mpc hfresh =>
    rcases hi with hi | ⟨r, hi⟩
    · exact keep (.inl hi)
    · cases hi
      obtain ⟨hm, hdead⟩ := hc.forking j (.inr ⟨rest, mpc⟩)
      exact ⟨j, hm, rfl, he hdead⟩
  | sigReap | sigLookupNone | sigLookupSome | sigForkFail =>
    rcases hi with hi | hi
    · simp at hi
    · exact keep (.inr hi)
  | monScan | monDone | monAlive | monDead | monLookupNone | monLookupSome | monForkFail =>
    rcases hi with hi | ⟨r, hi⟩
    · exact keep (.inl hi)
    · simp at hi
  | _ => exact keep hi

theorem Current.removing_step {s s' : State} {a : Act} (h : App.step s a = some s')
    (hu : UniqueStore s) (ha : Apart s) (hc : Current s) (p : ProcessInfo)
    (hp : s'.hpc = .remove p) : p ∈ s'.store ∧ p.pid ∈ s'.killed := by
  cases step_cases h with
  | stopSome sid q hpc hget =>
    cases hp
    exact ⟨(getProcessInfo_sid hget).1, List.mem_cons_self⟩
  | killRemove | killSignal => simp at hp
  | queueInsert e qpc =>
    obtain ⟨hm, hkill⟩ := hc.removing p hp
    exact ⟨mem_addProcessToCache hm, hkill⟩
  | sigUpdate j spc =>
    obtain ⟨hm, hkill⟩ := hc.removing p hp
    have hne := ha.ne_of_http hp (.inl (by rw [spc]; rfl))
    exact ⟨mem_updateProcessInfo_of_ne hu.nodup hm hne.symm, hkill⟩
  | monUpdate j rest mpc =>
    obtain ⟨hm, hkill⟩ := hc.removing p hp
    have hne := ha.ne_of_http hp (.inr (by rw [mpc]; rfl))
    exact ⟨mem_updateProcessInfo_of_ne hu.nodup hm hne.symm, hkill⟩
  | _ => exact hc.removing p hp

/-! ## 録画 process の持ち主 -/

/-- stream `sid` の process `p` を、記録・`spawn_process`・再起動のどれかが把握している。 -/
def Owned (s : State) (p : Nat) (sid : CString) : Prop :=
  (∃ d ∈ s.store, d.sid = sid ∧ d.pid = p) ∨
    (∃ e, s.qpc = .insert e ∧ e.sid = sid ∧ e.pid = p) ∨
    ∃ i, Updating s i ∧ i.sid = sid ∧ i.pid = p

/-- 動いている録画 process は、`kill_process` に読まれたか、把握されている。 -/
def RunningOwned (s : State) : Prop :=
  ∀ p sid, Running s p sid → p ∈ s.killed ∨ Owned s p sid

theorem running_forkProc {s : State} {p q : Nat} {sid x : CString}
    (h : ∃ pr, forkProc s.procs q x p = some pr ∧ pr.stream = some sid ∧ pr.state = .running) :
    (p = q ∧ x = sid) ∨ Running s p sid := by
  obtain ⟨pr, hp, hs, hr⟩ := h
  by_cases hpq : p = q
  · subst hpq
    simp only [forkProc, Function.update_self, Option.some.injEq] at hp
    subst hp
    exact .inl ⟨rfl, Option.some.inj hs⟩
  · exact .inr ⟨pr, by simpa [forkProc, Function.update_of_ne hpq] using hp, hs, hr⟩

theorem running_update_dead {s : State} {p q : Nat} {sid : CString} {pr₀ : Proc}
    (hdead : pr₀.state ≠ .running)
    (h : ∃ pr, Function.update s.procs q (some pr₀) p = some pr ∧ pr.stream = some sid ∧
      pr.state = .running) : Running s p sid := by
  obtain ⟨pr, hp, hs, hr⟩ := h
  by_cases hpq : p = q
  · subst hpq
    simp only [Function.update_self, Option.some.injEq] at hp
    subst hp
    exact absurd hr hdead
  · exact ⟨pr, by simpa [Function.update_of_ne hpq] using hp, hs, hr⟩

theorem endProc_not_running (pr : Proc) : (endProc pr).state ≠ .running := by
  unfold endProc
  cases pr.child <;> simp

/-- 再起動が記録を書き終えると、新しい process は記録に把握される。 -/
theorem owned_updateProcessInfo {s : State} (hu : UniqueStore s) (hc : Current s)
    {i : ProcessInfo} (hi : Updating s i) {p : Nat} {sid : CString} (hr : Running s p sid)
    (h : (∃ d ∈ s.store, d.sid = sid ∧ d.pid = p) ∨ i.sid = sid ∧ i.pid = p) :
    ∃ d ∈ updateProcessInfo s.store i, d.sid = sid ∧ d.pid = p := by
  obtain ⟨d₀, hd₀, hs₀, hdead⟩ := hc.updating i hi
  rcases h with ⟨d, hd, rfl, rfl⟩ | ⟨rfl, rfl⟩
  · refine ⟨d, mem_updateProcessInfo_of_ne hu.nodup hd fun hs => ?_, rfl, rfl⟩
    -- 書き換えられる記録の process は終わっているので、動いている `d.pid` ではない
    rw [← eq_of_sid_eq hu.nodup hd hd₀ (hs.trans hs₀.symm)] at hdead
    exact hdead.not_running hr
  · exact ⟨{ d₀ with pid := i.pid }, (mem_updateProcessInfo hu.nodup).mpr
      (.inr ⟨d₀, hd₀, hs₀, rfl⟩), hs₀, rfl⟩

/-- handler が記録を書く前でなければ、handler が進んでも再起動は失われない。 -/
theorem Updating.of_spc {s s' : State} (hpc : ∀ i, s.spc ≠ .update i) (hm : s'.mpc = s.mpc)
    {i : ProcessInfo} (h : Updating s i) : Updating s' i := by
  rcases h with hi | ⟨rest, hi⟩
  · exact absurd hi (hpc i)
  · exact .inr ⟨rest, hm.trans hi⟩

/-- monitor が記録を書く前でなければ、monitor が進んでも再起動は失われない。 -/
theorem Updating.of_mpc {s s' : State} (hpc : ∀ i rest, s.mpc ≠ .update i rest)
    (hs : s'.spc = s.spc) {i : ProcessInfo} (h : Updating s i) : Updating s' i := by
  rcases h with hi | ⟨rest, hi⟩
  · exact .inl (hs.trans hi)
  · exact absurd hi (hpc i rest)

/-- 記録・`spawn_process`・再起動のどれも失わない一歩は、把握されている process を失わない。 -/
theorem owned_mono {s s' : State} {p : Nat} {sid : CString} (h : p ∈ s.killed ∨ Owned s p sid)
    (hk : s'.killed = s.killed) (hst : s'.store = s.store)
    (hq : ∀ e, s.qpc = .insert e → s'.qpc = .insert e)
    (hup : ∀ i, Updating s i → Updating s' i) : p ∈ s'.killed ∨ Owned s' p sid := by
  rcases h with h | ⟨d, hd, hx⟩ | ⟨e, he, hx⟩ | ⟨i, hi, hx⟩
  · exact .inl (hk ▸ h)
  · exact .inr (.inl ⟨d, hst ▸ hd, hx⟩)
  · exact .inr (.inr (.inl ⟨e, hq e he, hx⟩))
  · exact .inr (.inr (.inr ⟨i, hup i hi, hx⟩))

/-- 記録を消すとき、その process は `kill_process` に読まれている。 -/
theorem owned_killRemove {s : State} (hu : UniqueStore s) (hc : Current s) {q : ProcessInfo}
    (hpc : s.hpc = .remove q) {p : Nat} {sid : CString} (h : p ∈ s.killed ∨ Owned s p sid) :
    p ∈ s.killed ∨
      Owned { s with store := removeProcessByStream s.store q.sid, hpc := .kill q } p sid := by
  rcases h with hk | ⟨d, hd, hs, hp⟩ | hown
  · exact .inl hk
  · obtain ⟨hq, hkill⟩ := hc.removing q hpc
    by_cases hsq : d.sid = q.sid
    · rw [eq_of_sid_eq hu.nodup hd hq hsq] at hp
      exact .inl (hp ▸ hkill)
    · exact .inr (.inl ⟨d, mem_remove_of_ne hd hsq, hs, hp⟩)
  · exact .inr (.inr hown)

/-- `spawn_process` が把握していた process は、足した記録に把握される。 -/
theorem owned_queueInsert {s : State} {e : ProcessInfo} (qpc : s.qpc = .insert e) {p : Nat}
    {sid : CString} (h : p ∈ s.killed ∨ Owned s p sid) :
    p ∈ s.killed ∨ Owned { s with
      store := addProcessToCache s.self s.store e
      queue := s.queue.tail
      qpc := .idle } p sid := by
  rcases h with hk | ⟨d, hd, hs, hp⟩ | ⟨e', he', hs, hp⟩ | hown
  · exact .inl hk
  · exact .inr (.inl ⟨d, mem_addProcessToCache hd, hs, hp⟩)
  · rw [qpc] at he'
    cases he'
    exact .inr (.inl ⟨_, List.mem_append_right _ (List.mem_singleton_self _), hs, hp⟩)
  · exact .inr (.inr (.inr hown))

/-- 再起動 `j` が記録を書き終えても、把握されている process は失われない。 -/
theorem owned_updated {s s' : State} (hu : UniqueStore s) (hc : Current s) {j : ProcessInfo}
    (hj : Updating s j) {p : Nat} {sid : CString} (hr : Running s p sid)
    (h : p ∈ s.killed ∨ Owned s p sid) (hk : s'.killed = s.killed)
    (hst : s'.store = updateProcessInfo s.store j) (hq : s'.qpc = s.qpc)
    (hup : ∀ i, Updating s i → i = j ∨ Updating s' i) : p ∈ s'.killed ∨ Owned s' p sid := by
  have hwritten := owned_updateProcessInfo hu hc hj hr
  rw [← hst] at hwritten
  rcases h with h | hown | ⟨e, he, hx⟩ | ⟨i, hi, hx⟩
  · exact .inl (hk ▸ h)
  · exact .inr (.inl (hwritten (.inl hown)))
  · exact .inr (.inr (.inl ⟨e, hq.trans he, hx⟩))
  · rcases hup i hi with rfl | hi
    · exact .inr (.inl (hwritten (.inr hx)))
    · exact .inr (.inr (.inr ⟨i, hi, hx⟩))

theorem RunningOwned.step {s s' : State} {a : Act} (h : App.step s a = some s')
    (hu : UniqueStore s) (hc : Current s) (ho : RunningOwned s) : RunningOwned s' := by
  intro p sid hr
  cases step_cases h with
  | stopSome x q hpc hget => exact (ho p sid hr).imp (List.mem_cons_of_mem _) id
  | killRemove q hpc => exact owned_killRemove hu hc hpc (ho p sid hr)
  | queueTake e q qpc | queueExist e qpc | queueAbsent e qpc | queueCreateFail e qpc
  | queueCreate e f qpc | queueForkFail e f qpc =>
    exact owned_mono (ho p sid hr) rfl rfl (by simp [qpc]) fun _ hi => hi
  | queueFork e f q qpc hfresh =>
    rcases running_forkProc hr with ⟨rfl, rfl⟩ | hr
    · exact .inr (.inr (.inl ⟨_, rfl, rfl, rfl⟩))
    · exact owned_mono (ho p sid hr) rfl rfl (by simp [qpc]) fun _ hi => hi
  | queueInsert e qpc => exact owned_queueInsert qpc (ho p sid hr)
  | die q pr hq hrun => exact ho p sid (running_update_dead (endProc_not_running pr) hr)
  | sigReap q pr spc hq hchild hz =>
    exact owned_mono (ho p sid (running_update_dead (by simp) hr)) rfl rfl (fun _ he => he)
      fun _ hi => hi.of_spc (by simp [spc]) (by rfl)
  | sigLookupNone q spc | sigLookupSome q j spc | sigForkFail j spc =>
    exact owned_mono (ho p sid hr) rfl rfl (fun _ he => he) fun _ hi => hi.of_spc (by simp [spc]) (by rfl)
  | sigFork j q spc hfresh =>
    rcases running_forkProc hr with ⟨rfl, rfl⟩ | hr
    · exact .inr (.inr (.inr ⟨_, .inl rfl, rfl, rfl⟩))
    · exact owned_mono (ho p sid hr) rfl rfl (fun _ he => he) fun _ hi => hi.of_spc (by simp [spc]) (by rfl)
  | sigUpdate j spc =>
    refine owned_updated hu hc (.inl spc) hr (ho p sid hr) rfl rfl rfl fun i hi => ?_
    rcases hi with hi | hi
    · exact .inl (SigPc.update.inj (hi.symm.trans spc))
    · exact .inr (.inr hi)
  | monScan mpc | monDone mpc | monAlive j rest mpc | monDead j rest mpc
  | monLookupNone q rest mpc | monLookupSome q rest j mpc | monForkFail j rest mpc =>
    exact owned_mono (ho p sid hr) rfl rfl (fun _ he => he) fun _ hi => hi.of_mpc (by simp [mpc]) (by rfl)
  | monFork j rest q mpc hfresh =>
    rcases running_forkProc hr with ⟨rfl, rfl⟩ | hr
    · exact .inr (.inr (.inr ⟨_, .inr ⟨rest, rfl⟩, rfl, rfl⟩))
    · exact owned_mono (ho p sid hr) rfl rfl (fun _ he => he) fun _ hi => hi.of_mpc (by simp [mpc]) (by rfl)
  | monUpdate j rest mpc =>
    refine owned_updated hu hc (.inr ⟨rest, mpc⟩) hr (ho p sid hr) rfl rfl rfl fun i hi => ?_
    rcases hi with hi | ⟨r, hi⟩
    · exact .inr (.inl hi)
    · exact .inl (MonPc.update.inj (hi.symm.trans mpc)).1
  | _ => exact ho p sid hr

/-! ## run 全体 -/

/--
起動したばかりの manager。記録は stream ごとに一つで、前の manager の残したものでもよい。

記録の pid の process は生きていても死んでいてもよい。動いている録画 process は、
その stream の記録が pid を持っているものに限る。
-/
structure Init (s : State) : Prop where
  boot : s = .boot s.self s.store s.procs
  nodup : s.store.sids.Nodup
  known : ∀ d ∈ s.store, Known s d.pid
  recorded : ∀ p sid, Running s p sid → ∃ d ∈ s.store, d.sid = sid ∧ d.pid = p

/-- 区間が重ならない run の不変量。 -/
structure Tracked (s : State) : Prop where
  unique : UniqueStore s
  pids : PidsKnown s
  apart : Apart s
  current : Current s
  owned : RunningOwned s

theorem Init.tracked {s : State} (h : Init s) : Tracked s where
  unique := .of_idle h.nodup (by rw [h.boot]; rfl)
  pids := by
    have hb := h.boot
    refine ⟨h.known, ?_, ?_, ?_, ?_, ?_⟩ <;>
      (rw [hb]; simp [State.boot, MonPc.rest, Updating])
  apart := by rw [h.boot]; exact ⟨by simp [State.boot, SigPc.held], by simp [State.boot, HttpPc.held],
    by simp [State.boot, HttpPc.held]⟩
  current := by
    rw [h.boot]
    exact ⟨by simp [State.boot, Forking], by simp [State.boot, Updating], by simp [State.boot]⟩
  owned := fun p sid hr => .inr (.inl (h.recorded p sid hr))

theorem Tracked.step {s s' : State} {a : Act} (hsep : Separate s a)
    (h : App.step s a = some s') (ht : Tracked s) : Tracked s' where
  unique := ht.unique.step h
  pids := ht.pids.step h ht.unique
  apart := ht.apart.step hsep h
  current := ⟨ht.current.forking_step h ht.unique ht.pids ht.apart,
    ht.current.updating_step h ht.unique ht.apart, ht.current.removing_step h ht.unique ht.apart⟩
  owned := ht.owned.step h ht.unique ht.current

theorem Tracked.run {s s' : State} {as : List Act} (hsep : Along App.step Separate s as)
    (h : Infra.run App.step s as = some s') (ht : Tracked s) : Tracked s' :=
  run_invariant (fun _ _ _ hP hstep hI => hI.step hP hstep) hsep h ht

/-- 把握されている process は、stream ごとに一つである。 -/
theorem Tracked.owned_unique {s : State} (ht : Tracked s) {p q : Nat} {sid : CString}
    (hp : Running s p sid) (hq : Running s q sid) (hop : Owned s p sid) (hoq : Owned s q sid) :
    p = q := by
  have hnd := ht.unique.nodup
  -- 起動の途中の stream には記録が無い
  have hno : ∀ e, s.qpc = .insert e → e.sid = sid → ∀ d ∈ s.store, d.sid ≠ sid := by
    intro e he hs d hd hds
    exact ht.unique.spawning e (by rw [he]; rfl) (Store.mem_sids.mpr ⟨d, hd, hds.trans hs.symm⟩)
  -- 再起動の途中の stream の記録は、終わった process を指す
  have hdead : ∀ i, Updating s i → i.sid = sid → ∃ d ∈ s.store, d.sid = sid ∧ Ended s d.pid := by
    intro i hi hs
    obtain ⟨d, hd, hds, he⟩ := ht.current.updating i hi
    exact ⟨d, hd, hds.trans hs, he⟩
  have hstore : ∀ {r}, Running s r sid → (∃ d ∈ s.store, d.sid = sid ∧ d.pid = r) →
      ∀ i, Updating s i → i.sid ≠ sid := by
    rintro r hr ⟨d, hd, hds, rfl⟩ i hi hs
    obtain ⟨d', hd', hds', he⟩ := hdead i hi hs
    rw [← eq_of_sid_eq hnd hd hd' (hds.trans hds'.symm)] at he
    exact he.not_running hr
  rcases hop with ⟨d, hd, hds, rfl⟩ | ⟨e, he, hes, rfl⟩ | ⟨i, hi, his, rfl⟩
  · rcases hoq with ⟨d', hd', hds', rfl⟩ | ⟨e', he', hes', rfl⟩ | ⟨i', hi', his', rfl⟩
    · rw [eq_of_sid_eq hnd hd hd' (hds.trans hds'.symm)]
    · exact absurd hds (hno e' he' hes' d hd)
    · exact absurd his' (hstore hp ⟨d, hd, hds, rfl⟩ i' hi')
  · rcases hoq with ⟨d', hd', hds', rfl⟩ | ⟨e', he', hes', rfl⟩ | ⟨i', hi', his', rfl⟩
    · exact absurd hds' (hno e he hes d' hd')
    · rw [he] at he'
      cases he'
      rfl
    · obtain ⟨d', hd', hds', _⟩ := hdead i' hi' his'
      exact absurd hds' (hno e he hes d' hd')
  · rcases hoq with ⟨d', hd', hds', rfl⟩ | ⟨e', he', hes', rfl⟩ | ⟨i', hi', his', rfl⟩
    · exact absurd his (hstore hq ⟨d', hd', hds', rfl⟩ i hi)
    · obtain ⟨d', hd', hds', _⟩ := hdead i hi his
      exact absurd hds' (hno e' he' hes' d' hd')
    · rcases hi with hi | ⟨r, hi⟩ <;> rcases hi' with hi' | ⟨r', hi'⟩
      · rw [hi] at hi'
        cases hi'
        rfl
      · exact absurd (his'.trans his.symm)
          (ht.apart.sig_ne_mon (by rw [hi]; rfl) (by rw [hi']; rfl))
      · exact absurd (his.trans his'.symm)
          (ht.apart.sig_ne_mon (by rw [hi']; rfl) (by rw [hi]; rfl))
      · rw [hi] at hi'
        cases hi'
        rfl

/-- `kill_process` に pid を読まれていない、stream `sid` の動いている録画 process。 -/
def Counted (s : State) (p : Nat) (sid : CString) : Prop := Running s p sid ∧ p ∉ s.killed

/--
**区間が重ならなければ、録画 process は stream ごとに高々一つである。**

起動・停止・死亡・再起動・孤児の巡回がどう割り込んでも、`kill_process` に読まれていない
録画 process は stream ごとに一つしかない。
-/
theorem at_most_one_recorder (s₀ : State) (as : List Act) (s : State) (hinit : Init s₀)
    (hsep : Along step Separate s₀ as) (hrun : Infra.run step s₀ as = some s) :
    ∀ p q sid, Counted s p sid → Counted s q sid → p = q := by
  have ht := hinit.tracked.run hsep hrun
  intro p q sid hp hq
  have hop := (ht.owned p sid hp.1).resolve_left hp.2
  have hoq := (ht.owned q sid hq.1).resolve_left hq.2
  exact ht.owned_unique hp.1 hq.1 hop hoq

/-- SIGCHLD handler が `old` の死亡に応えて `new` を fork し、記録を書き終えるまでの run。 -/
def restartRun (old new : Nat) : List Act :=
  [.sigReap old, .sigLookup, .sigFork (some new), .sigUpdate]

theorem Init.empty (self : Nat) : Init (.boot self [] fun _ => none) where
  boot := rfl
  nodup := List.nodup_nil
  known := by simp [State.boot]
  recorded := by
    rintro p sid ⟨pr, hp, _⟩
    simp [State.boot] at hp

/-- 録画を pid 100 で始め、その死亡に handler が pid 101 で応える run。 -/
def crashRun : List Act := spawnRun (sampleInfo 97 0 0) 100 ++ .die 100 :: restartRun 100 101

theorem at_most_one_recorder_after_restart :
    ∃ s, Infra.run step (.boot 1 [] fun _ => none) crashRun = some s ∧
      Counted s 101 (.ofBytes [97]) ∧
      ∀ q, Counted s q (.ofBytes [97]) → q = 101 := by
  have hcount : ∀ s, Infra.run step (.boot 1 [] fun _ => none) crashRun = some s →
      Counted s 101 (.ofBytes [97]) := by
    rintro s hs
    cases hs
    exact ⟨⟨_, rfl, rfl, rfl⟩, by decide⟩
  refine ⟨_, rfl, hcount _ rfl, fun q hq => ?_⟩
  exact at_most_one_recorder (.boot 1 [] fun _ => none) crashRun _ (Init.empty 1) (by decide) rfl
    q 101 (.ofBytes [97]) hq (hcount _ rfl)

/-- 前の manager（pid 9）が残した、録画 process（pid 50）の死んでいる記録。 -/
def orphanState : State :=
  .boot 1 [sampleInfo 97 50 9] fun p =>
    if p = 50 then some ⟨some (.ofBytes [97]), false, .gone⟩ else none

theorem orphanState_init : Init orphanState where
  boot := rfl
  nodup := by decide
  known := by
    intro d hd
    simp only [orphanState, State.boot, List.mem_singleton] at hd
    subst hd
    simp [Known, orphanState, State.boot, sampleInfo]
  recorded := by
    rintro p sid ⟨pr, hp, _, hr⟩
    simp only [orphanState, State.boot] at hp
    split at hp
    · cases hp
      simp at hr
    · simp at hp

/--
monitor が孤児を pid 60 で再起動するが、`update_process_info` は `ppid` を書かない。
60 が死ぬと、次の巡回と handler の両方がその記録を再起動する。
-/
def doubleRestartRun : List Act :=
  [.monScan, .monCheck, .monLookup, .monFork (some 60), .monUpdate, .monCheck, .die 60, .monScan,
    .sigReap 60, .monCheck, .sigLookup, .monLookup, .sigFork (some 61), .monFork (some 62)]

/-- **handler と monitor が同じ stream の録画を二つ始める run がある。** -/
theorem two_recorders_by_double_restart :
    ¬ ∀ (s₀ : State) (as : List Act) (s : State), Init s₀ → Infra.run step s₀ as = some s →
      ∀ p q sid, Counted s p sid → Counted s q sid → p = q := by
  intro h
  have h₂ := h orphanState doubleRestartRun _ orphanState_init rfl 61 62 (.ofBytes [97])
    ⟨⟨_, rfl, rfl, rfl⟩, by decide⟩ ⟨⟨_, rfl, rfl, rfl⟩, by decide⟩
  exact absurd h₂ (by decide)

end RecordServer.App
