import RecordServer.App.Properties.SingleRecorder

/-!
# 録画の死亡は見落とされない

再起動は、死んだ pid を記録から引いて決める。ところが記録に pid が書かれるのは fork の後なので、
書かれる前に死んだ process は引いても見つからず、死んだ pid の記録が残る
（`crash_lost_before_insert`）。自分の記録は monitor も調べないので、誰も気付かない。

引くより先に書かれていれば（`Written`）、静かになった状態の自分の記録はどれも、
その stream のために fork した生きている子を指す（`no_crash_lost`）。
-/

namespace RecordServer.App

open Infra

/-! ## 子の process -/

/-- `p` は stream `sid` のために自分が fork した process である。 -/
def Child (s : State) (p : Nat) (sid : CString) : Prop :=
  ∃ pr, s.procs p = some pr ∧ pr.stream = some sid ∧ pr.child = true

/-- 終わって、親に待たれ終えた process。 -/
def Gone (s : State) (p : Nat) : Prop := ∃ pr, s.procs p = some pr ∧ pr.state = .gone

theorem Child.known {s : State} {p : Nat} {sid : CString} (h : Child s p sid) : Known s p := by
  obtain ⟨pr, hp, _⟩ := h
  simp [Known, hp]

theorem Child.stream_unique {s : State} {p : Nat} {sid sid' : CString} (h : Child s p sid)
    (h' : Child s p sid') : sid = sid' := by
  obtain ⟨pr, hp, hs, _⟩ := h
  obtain ⟨pr', hp', hs', _⟩ := h'
  rw [hp] at hp'
  cases hp'
  rw [hs] at hs'
  exact Option.some.inj hs'

theorem child_forkProc (procs : Procs) (p : Nat) (sid : CString) :
    ∃ pr, forkProc procs p sid p = some pr ∧ pr.stream = some sid ∧ pr.child = true :=
  ⟨_, by simp [forkProc]; rfl, rfl, rfl⟩

theorem not_gone_forkProc (procs : Procs) (p : Nat) (sid : CString) :
    ¬ ∃ pr, forkProc procs p sid p = some pr ∧ pr.state = .gone := by
  simp [forkProc]

/-- fork は、使われたことのある pid の行を変えない。 -/
theorem forkProc_of_known {s : State} {p q : Nat} {sid : CString} (hfresh : s.procs p = none)
    (hq : Known s q) : forkProc s.procs p sid q = s.procs q := by
  have hqp : q ≠ p := by
    rintro rfl
    exact hq hfresh
  simp [forkProc, Function.update_of_ne hqp]

/-- 一歩は、使われたことのある pid の stream と親子関係を変えない。 -/
theorem child_step_iff {s s' : State} {a : Act} (h : step s a = some s') {p : Nat} {sid : CString}
    (hk : Known s p) : Child s' p sid ↔ Child s p sid := by
  unfold Child
  cases step_cases h with
  | queueFork e f q qpc hfresh => simp only [forkProc_of_known hfresh hk]
  | sigFork i q spc hfresh => simp only [forkProc_of_known hfresh hk]
  | monFork i rest q mpc hfresh => simp only [forkProc_of_known hfresh hk]
  | die q pr hq hrun =>
    by_cases hpq : p = q
    · subst hpq
      simp [hq, endProc]
    · simp [Function.update_of_ne hpq]
  | sigReap q pr spc hq =>
    by_cases hpq : p = q
    · subst hpq
      simp [hq]
    · simp [Function.update_of_ne hpq]
  | _ => rfl

/-- 待たれていない子は、待たれていないままか、handler が引こうとしている pid になる。 -/
theorem unreaped_step {s s' : State} {a : Act} (h : step s a = some s') {p : Nat} {sid : CString}
    (hc : Child s p sid) (hg : ¬ Gone s p) : ¬ Gone s' p ∨ s'.spc = .lookup p := by
  unfold Gone at hg ⊢
  cases step_cases h with
  | queueFork e f q qpc hfresh =>
    exact .inl (by simpa only [forkProc_of_known hfresh hc.known] using hg)
  | sigFork i q spc hfresh =>
    exact .inl (by simpa only [forkProc_of_known hfresh hc.known] using hg)
  | monFork i rest q mpc hfresh =>
    exact .inl (by simpa only [forkProc_of_known hfresh hc.known] using hg)
  | die q pr hq hrun =>
    refine .inl ?_
    by_cases hpq : p = q
    · subst hpq
      obtain ⟨pr', hp', _, hchild⟩ := hc
      rw [hq] at hp'
      cases hp'
      simp [endProc, hchild]
    · simpa [Function.update_of_ne hpq] using hg
  | sigReap q pr spc hq =>
    by_cases hpq : p = q
    · exact .inr (by rw [hpq])
    · exact .inl (by simpa [Function.update_of_ne hpq] using hg)
  | _ => exact .inl hg

/-! ## 引くより先に書く -/

/-- fork したがまだ記録に書いていない pid。 -/
def QueuePc.unwritten : QueuePc → Option Nat
  | .insert e => some e.pid
  | _ => none

def MonPc.unwritten : MonPc → Option Nat
  | .update i _ => some i.pid
  | _ => none

/-- handler が次に引く pid。 -/
def SigPc.reaped : SigPc → Option Nat
  | .lookup p => some p
  | _ => none

/-- handler が引く pid は、fork した活動がもう記録に書いている。 -/
def Written (s : State) : Act → Prop
  | .sigLookup => ∀ p ∈ s.spc.reaped, s.qpc.unwritten ≠ some p ∧ s.mpc.unwritten ≠ some p
  | _ => True

/-- fork は成功する。 -/
def ForkSucceeds (_ : State) (a : Act) : Prop :=
  a ≠ .queueFork none ∧ a ≠ .sigFork none ∧ a ≠ .monFork none

instance (s : State) : (a : Act) → Decidable (Written s a)
  | .sigLookup => inferInstanceAs (Decidable (∀ _ ∈ _, _))
  | .stop _ | .start _ | .killRemove | .killSignal | .queueTake | .queueCheck | .queueCreate _
  | .queueFork _ | .queueInsert | .die _ | .sigReap _ | .sigFork _ | .sigUpdate | .monScan
  | .monCheck | .monLookup | .monFork _ | .monUpdate => inferInstanceAs (Decidable True)

instance (s : State) (a : Act) : Decidable (ForkSucceeds s a) := inferInstanceAs (Decidable (_ ∧ _))

/-! ## 不変量 -/

/-- 書かれる前の pid は、待たれていないか、これから引かれる。 -/
def Pending (s : State) (i : ProcessInfo) : Prop :=
  Child s i.pid i.sid ∧ (¬ Gone s i.pid ∨ s.spc = .lookup i.pid)

/-- 自分の記録の process は、待たれていないか、これから引かれるか、再起動の途中である。 -/
structure Answered (s : State) : Prop where
  stream : ∀ d ∈ s.store, ∀ sid, Child s d.pid sid → sid = d.sid
  own : ∀ d ∈ s.store, d.ppid = s.self →
    Child s d.pid d.sid ∧
      (¬ Gone s d.pid ∨ s.spc = .lookup d.pid ∨ s.spc.held = some d.sid)
  inserting : ∀ e, s.qpc = .insert e → Pending s e
  monUpdating : ∀ i rest, s.mpc = .update i rest → Pending s i
  sigUpdating : ∀ i, s.spc = .update i → Child s i.pid i.sid ∧ ¬ Gone s i.pid

theorem Answered.stream_step {s s' : State} {a : Act} (h : App.step s a = some s')
    (hu : UniqueStore s) (hk : PidsKnown s) (ha : Answered s) :
    ∀ d ∈ s'.store, ∀ sid, Child s' d.pid sid → sid = d.sid := by
  intro d hd sid hc
  have keep : d ∈ s.store → sid = d.sid := fun hm =>
    ha.stream d hm sid ((child_step_iff h (hk.store d hm)).mp hc)
  have update : ∀ i, Child s i.pid i.sid → d ∈ updateProcessInfo s.store i → sid = d.sid := by
    intro i hi hm
    rcases (mem_updateProcessInfo hu.nodup).mp hm with ⟨hm, _⟩ | ⟨d₀, _, hs, rfl⟩
    · exact keep hm
    · rw [hc.stream_unique ((child_step_iff h hi.known).mpr hi)]
      exact hs.symm
  cases step_cases h with
  | killRemove p hpc => exact keep (mem_of_mem_remove hd)
  | queueInsert e qpc =>
    rcases List.mem_append.mp hd with hd | hd
    · exact keep hd
    · rw [List.mem_singleton.mp hd] at hc ⊢
      have he := (ha.inserting e qpc).1
      exact hc.stream_unique ((child_step_iff h he.known).mpr he)
  | sigUpdate i spc => exact update i (ha.sigUpdating i spc).1 hd
  | monUpdate i rest mpc => exact update i (ha.monUpdating i rest mpc).1 hd
  | _ => exact keep hd

/-- 一歩の後の、記録に書かれる前の pid。 -/
theorem pending_step {s s' : State} {a : Act} (h : step s a = some s')
    (hspc : s'.spc = s.spc ∨ ∀ p, s.spc ≠ .lookup p) {i : ProcessInfo} (hp : Pending s i) :
    Pending s' i := by
  obtain ⟨hc, hw⟩ := hp
  refine ⟨(child_step_iff h hc.known).mpr hc, ?_⟩
  rcases hw with hg | hl
  · exact unreaped_step h hc hg
  · rcases hspc with hspc | hspc
    · exact .inr (hspc.trans hl)
    · exact absurd hl (hspc _)

/-- 引く一歩の後も、まだ書かれていない pid は待たれていない。 -/
theorem pending_lookup {s s' : State} (h : step s .sigLookup = some s') {i : ProcessInfo}
    (hne : s.spc ≠ .lookup i.pid) (hp : Pending s i) : Pending s' i := by
  obtain ⟨hc, hw⟩ := hp
  exact ⟨(child_step_iff h hc.known).mpr hc, unreaped_step h hc (hw.resolve_right hne)⟩

theorem Written.insert_ne {s : State} (hw : Written s .sigLookup) {e : ProcessInfo}
    (he : s.qpc = .insert e) : s.spc ≠ .lookup e.pid := by
  intro hs
  exact (hw e.pid (by rw [hs]; rfl)).1 (by rw [he]; rfl)

theorem Written.update_ne {s : State} (hw : Written s .sigLookup) {i : ProcessInfo}
    {rest : List ProcessInfo} (hi : s.mpc = .update i rest) : s.spc ≠ .lookup i.pid := by
  intro hs
  exact (hw i.pid (by rw [hs]; rfl)).2 (by rw [hi]; rfl)

theorem Answered.inserting_step {s s' : State} {a : Act} (hw : Written s a)
    (h : App.step s a = some s') (ha : Answered s) : ∀ e, s'.qpc = .insert e → Pending s' e := by
  intro e he
  have keep : (s'.spc = s.spc ∨ ∀ p, s.spc ≠ .lookup p) → s.qpc = .insert e → Pending s' e :=
    fun hspc hq => pending_step h hspc (ha.inserting e hq)
  cases step_cases h with
  | queueFork e₀ f p qpc hfresh =>
    cases he
    exact ⟨child_forkProc _ _ _, .inl (not_gone_forkProc _ _ _)⟩
  | sigLookupNone p spc | sigLookupSome p i spc =>
    exact pending_lookup h (hw.insert_ne he) (ha.inserting e he)
  | sigReap p pr spc | sigForkFail i spc | sigFork i p spc | sigUpdate i spc =>
    exact keep (.inr (by simp [spc])) he
  | queueTake | queueExist | queueAbsent | queueCreateFail | queueCreate | queueForkFail
  | queueInsert => simp at he
  | _ => exact keep (.inl rfl) he

theorem Answered.monUpdating_step {s s' : State} {a : Act} (hw : Written s a)
    (h : App.step s a = some s') (ha : Answered s) :
    ∀ i rest, s'.mpc = .update i rest → Pending s' i := by
  intro i rest hi
  have keep : (s'.spc = s.spc ∨ ∀ p, s.spc ≠ .lookup p) → s.mpc = .update i rest → Pending s' i :=
    fun hspc hm => pending_step h hspc (ha.monUpdating i rest hm)
  cases step_cases h with
  | monFork i₀ r p mpc hfresh =>
    cases hi
    exact ⟨child_forkProc _ _ _, .inl (not_gone_forkProc _ _ _)⟩
  | sigLookupNone p spc | sigLookupSome p j spc =>
    exact pending_lookup h (hw.update_ne hi) (ha.monUpdating i rest hi)
  | sigReap p pr spc | sigForkFail j spc | sigFork j p spc | sigUpdate j spc =>
    exact keep (.inr (by simp [spc])) hi
  | monScan | monDone | monAlive | monDead | monLookupNone | monLookupSome | monForkFail
  | monUpdate => simp at hi
  | _ => exact keep (.inl rfl) hi

/-- handler が書こうとしている pid は、handler のほかに待つ者がいない。 -/
theorem Answered.sigUpdating_step {s s' : State} {a : Act} (h : App.step s a = some s')
    (ha : Answered s) : ∀ i, s'.spc = .update i → Child s' i.pid i.sid ∧ ¬ Gone s' i.pid := by
  intro i hi
  have keep : s.spc = .update i → Child s' i.pid i.sid ∧ ¬ Gone s' i.pid := by
    intro hs
    obtain ⟨hc, hg⟩ := ha.sigUpdating i hs
    refine ⟨(child_step_iff h hc.known).mpr hc, (unreaped_step h hc hg).resolve_right ?_⟩
    simp [hi]
  cases step_cases h with
  | sigFork i₀ p spc hfresh =>
    cases hi
    exact ⟨child_forkProc _ _ _, not_gone_forkProc _ _ _⟩
  | sigReap | sigLookupNone | sigLookupSome | sigForkFail | sigUpdate => simp at hi
  | _ => exact keep hi

/-- 自分の記録についての不変量の後件。 -/
def OwnOk (s : State) (d : ProcessInfo) : Prop :=
  Child s d.pid d.sid ∧ (¬ Gone s d.pid ∨ s.spc = .lookup d.pid ∨ s.spc.held = some d.sid)

theorem Pending.ownOk {s : State} {i : ProcessInfo} (h : Pending s i) : OwnOk s i :=
  ⟨h.1, h.2.imp_right .inl⟩

/-- handler が動かない一歩、または引く一歩でも書く一歩でもない一歩の後。 -/
theorem ownOk_step {s s' : State} {a : Act} (h : step s a = some s')
    (hlookup : s'.spc = s.spc ∨ ∀ p, s.spc ≠ .lookup p)
    (hheld : s'.spc.held = s.spc.held ∨ s.spc.held = none) {d : ProcessInfo} (ho : OwnOk s d) :
    OwnOk s' d := by
  obtain ⟨hc, hw⟩ := ho
  refine ⟨(child_step_iff h hc.known).mpr hc, ?_⟩
  rcases hw with hg | hl | hh
  · exact (unreaped_step h hc hg).imp_right .inl
  · rcases hlookup with hspc | hspc
    · exact .inr (.inl (hspc.trans hl))
    · exact absurd hl (hspc _)
  · rcases hheld with hheld | hheld
    · exact .inr (.inr (hheld.trans hh))
    · rw [hheld] at hh
      simp at hh

/--
handler が引いた後。引いた pid の記録は、その pid を fork した stream の記録なので、
当たれば再起動の途中になる。
-/
theorem ownOk_lookup {s s' : State} {p : Nat} (h : step s .sigLookup = some s')
    (spc : s.spc = .lookup p) (ha : Answered s) {d : ProcessInfo} (hd : d ∈ s.store)
    (ho : OwnOk s d) : OwnOk s' d := by
  obtain ⟨hc, hw⟩ := ho
  refine ⟨(child_step_iff h hc.known).mpr hc, ?_⟩
  rcases hw with hg | hl | hh
  · exact (unreaped_step h hc hg).imp_right .inl
  · rw [spc] at hl
    cases hl
    cases step_cases h with
    | sigLookupNone q spc' hget =>
      rw [spc] at spc'
      cases spc'
      exact absurd (byPid_iff.mpr rfl) (findOne_none hget d hd)
    | sigLookupSome q i spc' hget =>
      rw [spc] at spc'
      cases spc'
      obtain ⟨hi, hpid⟩ := isProcessExistPid_pid hget
      have hsid : d.sid = i.sid := ha.stream i hi d.sid (by rw [hpid]; exact hc)
      exact .inr (.inr (by rw [hsid]; rfl))
  · rw [spc] at hh
    simp [SigPc.held] at hh

theorem updateProcessInfo_ownOk {s' : State} {c : Store} (hnd : c.sids.Nodup) {self : Nat}
    {i : ProcessInfo} (hkeep : ∀ d ∈ c, d.ppid = self → d.sid ≠ i.sid → OwnOk s' d)
    (hnew : OwnOk s' i) : ∀ d ∈ updateProcessInfo c i, d.ppid = self → OwnOk s' d := by
  intro d hd hpp
  rcases (mem_updateProcessInfo hnd).mp hd with ⟨hm, hne⟩ | ⟨d₀, _, hs, rfl⟩
  · exact hkeep d hm hpp hne
  · unfold OwnOk at hnew ⊢
    simpa [hs] using hnew

theorem Answered.own_step {s s' : State} {a : Act} (hfork : ForkSucceeds s a)
    (h : App.step s a = some s') (hu : UniqueStore s) (ha : Answered s) :
    ∀ d ∈ s'.store, d.ppid = s'.self → OwnOk s' d := by
  have keep : (s'.spc = s.spc ∨ ∀ p, s.spc ≠ .lookup p) →
      (s'.spc.held = s.spc.held ∨ s.spc.held = none) →
      ∀ d ∈ s.store, d.ppid = s.self → OwnOk s' d :=
    fun hl hh d hd hpp => ownOk_step h hl hh (ha.own d hd hpp)
  cases step_cases h with
  | killRemove p hpc =>
    exact fun d hd => keep (.inl rfl) (.inl rfl) d (mem_of_mem_remove hd)
  | queueInsert e qpc =>
    intro d hd hpp
    rcases List.mem_append.mp hd with hd | hd
    · exact keep (.inl rfl) (.inl rfl) d hd hpp
    · rw [List.mem_singleton.mp hd]
      exact (pending_step h (.inl rfl) (ha.inserting e qpc)).ownOk
  | sigReap p pr spc => exact keep (.inr (by simp [spc])) (.inr (by simp [spc, SigPc.held]))
  | sigLookupNone p spc hget => exact fun d hd hpp => ownOk_lookup h spc ha hd (ha.own d hd hpp)
  | sigLookupSome p i spc hget => exact fun d hd hpp => ownOk_lookup h spc ha hd (ha.own d hd hpp)
  | sigForkFail => exact absurd rfl hfork.2.1
  | sigFork i p spc => exact keep (.inr (by simp [spc])) (.inl (by rw [spc]; rfl))
  | sigUpdate i spc =>
    obtain ⟨hc, hg⟩ := ha.sigUpdating i spc
    have hc' := (child_step_iff h hc.known).mpr hc
    refine updateProcessInfo_ownOk hu.nodup (fun d hd hpp hne => ?_)
      ⟨hc', (unreaped_step h hc hg).imp_right .inl⟩
    -- 別の stream の記録は、handler に持たれていない
    obtain ⟨hdc, hw⟩ := ha.own d hd hpp
    refine ⟨(child_step_iff h hdc.known).mpr hdc, ?_⟩
    rcases hw with hgd | hl | hh
    · exact (unreaped_step h hdc hgd).imp_right .inl
    · rw [spc] at hl
      simp at hl
    · rw [spc] at hh
      exact absurd (Option.some.inj hh).symm hne
  | monUpdate i rest mpc =>
    exact updateProcessInfo_ownOk hu.nodup
      (fun d hd hpp _ => keep (.inl rfl) (.inl rfl) d hd hpp)
      (pending_step h (.inl rfl) (ha.monUpdating i rest mpc)).ownOk
  | _ => exact keep (.inl rfl) (.inl rfl)

/-! ## run 全体 -/

/-- 起動したばかりで、自分の子も自分の記録もまだ無い manager。 -/
structure FreshInit (s : State) : Prop extends Init s where
  foreign : ∀ p pr, s.procs p = some pr → pr.child = false
  ppid : ∀ d ∈ s.store, d.ppid ≠ s.self

theorem FreshInit.answered {s : State} (h : FreshInit s) : Answered s where
  stream := by
    rintro d _ sid ⟨pr, hp, _, hc⟩
    rw [h.foreign d.pid pr hp] at hc
    simp at hc
  own := fun d hd hpp => absurd hpp (h.ppid d hd)
  inserting := by rw [h.boot]; simp [State.boot]
  monUpdating := by rw [h.boot]; simp [State.boot]
  sigUpdating := by rw [h.boot]; simp [State.boot]

theorem Answered.run {s₀ s : State} {as : List Act} (hinit : FreshInit s₀)
    (hfork : Along App.step ForkSucceeds s₀ as) (hw : Along App.step Written s₀ as)
    (hrun : Infra.run App.step s₀ as = some s) : Answered s := by
  have h : UniqueStore s ∧ PidsKnown s ∧ Answered s :=
    run_invariant (I := fun s => UniqueStore s ∧ PidsKnown s ∧ Answered s)
      (fun s a s' ⟨hf, hwr⟩ hstep ⟨hu, hk, ha⟩ => ⟨hu.step hstep, hk.step hstep hu,
        ⟨ha.stream_step hstep hu hk, ha.own_step hf hstep hu, ha.inserting_step hwr hstep,
          ha.monUpdating_step hwr hstep, ha.sigUpdating_step hstep⟩⟩)
      (hfork.and hw) hrun ⟨hinit.tracked.unique, hinit.tracked.pids, hinit.answered⟩
  exact h.2.2

/-- 依頼も handler も monitor も動いておらず、死んだ子はすべて待たれた。 -/
structure Quiescent (s : State) : Prop where
  queue : s.queue = []
  qpc : s.qpc = .idle
  hpc : s.hpc = .idle
  spc : s.spc = .idle
  mpc : s.mpc = .idle
  reaped : ∀ p pr, s.procs p = some pr → pr.child = true → pr.state ≠ .zombie

/-- `p` は stream `sid` を録画する、生きている子である。 -/
def LiveChild (s : State) (p : Nat) (sid : CString) : Prop :=
  ∃ pr, s.procs p = some pr ∧ pr.stream = some sid ∧ pr.child = true ∧ pr.state = .running

/--
**引くより先に書かれていれば、録画の死亡は見落とされない。**

fork が成功し、どの割り込みの順序でも、静かになった状態の自分の記録はどれも、
その stream のために fork した生きている子を指している。
-/
theorem no_crash_lost (s₀ : State) (as : List Act) (s : State) (hinit : FreshInit s₀)
    (hfork : Along step ForkSucceeds s₀ as) (hw : Along step Written s₀ as)
    (hrun : Infra.run step s₀ as = some s) (hq : Quiescent s) :
    ∀ d ∈ s.store, d.ppid = s.self → LiveChild s d.pid d.sid := by
  intro d hd hpp
  obtain ⟨⟨pr, hp, hs, hc⟩, hw⟩ := (Answered.run hinit hfork hw hrun).own d hd hpp
  refine ⟨pr, hp, hs, hc, ?_⟩
  have hg : ¬ Gone s d.pid := by
    rcases hw with hg | hl | hh
    · exact hg
    · rw [hq.spc] at hl
      simp at hl
    · rw [hq.spc] at hh
      simp [SigPc.held] at hh
  cases hst : pr.state with
  | running => rfl
  | zombie => exact absurd hst (hq.reaped d.pid pr hp hc)
  | gone => exact absurd ⟨pr, hp, hst⟩ hg

theorem FreshInit.empty (self : Nat) : FreshInit (.boot self [] fun _ => none) where
  toInit := .empty self
  foreign := by simp [State.boot]
  ppid := by simp [State.boot]

theorem no_crash_lost_after_restart :
    ∃ s, Infra.run step (.boot 1 [] fun _ => none) crashRun = some s ∧ s.store ≠ [] ∧
      ∀ d ∈ s.store, d.ppid = s.self → LiveChild s d.pid d.sid := by
  refine ⟨_, rfl, by simp [addProcessToCache, updateProcessInfo, MongoAdaptor.insert,
    MongoAdaptor.update, State.boot], ?_⟩
  refine no_crash_lost (.boot 1 [] fun _ => none) crashRun _ (FreshInit.empty 1) (by decide)
    (by decide) rfl ⟨rfl, rfl, rfl, rfl, rfl, fun p pr hp hc => ?_⟩
  by_cases h100 : p = 100
  · subst h100
    cases hp
    decide
  · by_cases h101 : p = 101
    · subst h101
      cases hp
      decide
    · simp [forkProc, Function.update, State.boot, State.pop, h100, h101] at hp

/-- 録画 process（pid 100）が、`add_process_to_cache` の前に死んで待たれる run。 -/
def earlyCrashRun : List Act :=
  [.start (sampleInfo 97 0 0), .queueTake, .queueCheck, .queueCreate (some (.ofBytes [])),
    .queueFork (some 100), .die 100, .sigReap 100, .sigLookup, .queueInsert]

/-- **記録に書かれる前の死亡は見落とされ、死んだ pid の記録が残る。** -/
theorem crash_lost_before_insert :
    ¬ ∀ (s₀ : State) (as : List Act) (s : State), FreshInit s₀ → Along step ForkSucceeds s₀ as →
      Infra.run step s₀ as = some s → Quiescent s →
      ∀ d ∈ s.store, d.ppid = s.self → LiveChild s d.pid d.sid := by
  intro h
  have h₂ := h (.boot 1 [] fun _ => none) earlyCrashRun _ (FreshInit.empty 1) (by decide) rfl
    ⟨rfl, rfl, rfl, rfl, rfl, fun p pr hp hc => ?_⟩
    { sampleInfo 97 100 1 with status := .ofBytes (ascii "active") } (by decide) rfl
  · obtain ⟨pr, hp, _, _, hrun⟩ := h₂
    cases hp
    simp at hrun
  · by_cases h100 : p = 100
    · subst h100
      cases hp
      decide
    · simp [forkProc, Function.update, State.boot, State.pop, h100] at hp

end RecordServer.App
