import RecordServer.App.Properties.SingleRecorder

/-!
# 停止は最終的である

`kill_process` は「記録を読む・記録を消す・読んだ pid に SIGINT を送る」の三歩である。
その間に再起動が割り込むと、記録から辿れない録画 process が残る（`recorder_survives_stop`）。

割り込みが無く、記録を読むときにその stream の起動の依頼も待っていなければ（`StopSafe`）、
`kill_process` が戻った後にその stream の process は作られず、記録も戻らない（`stop_is_final`）。
-/

namespace RecordServer.App

open Infra

/--
stream `sid` を止める `kill_process` が、ここで記録を読んでよい。その stream の起動の依頼が待っておらず、
前に停止された process が残っていない（残っていれば、今の記録が指すものに限る）。
-/
def StopSafe (s : State) (sid : CString) : Prop :=
  (∀ e ∈ s.queue, e.sid ≠ sid) ∧
    ∀ q ∈ s.killed, Running s q sid → ∃ d ∈ s.store, d.sid = sid ∧ d.pid = q

instance (s : State) (sid : CString) : Decidable (StopSafe s sid) :=
  inferInstanceAs (Decidable (_ ∧ _))

/-- run `as` の最後の停止は stream `sid` のもので、状態 `s` で記録を読む。 -/
def LastRead (s₀ : State) (as : List Act) (sid : CString) (s : State) : Prop :=
  ∃ before after, as = before ++ .stop sid :: after ∧ (∀ sid', .stop sid' ∉ after) ∧
    Infra.run step s₀ before = some s

/-! ## 停止した stream -/

/-- stream `sid` の process を作る活動が無く、動いているのは高々 `pid` だけである。 -/
structure Quiet (s : State) (sid : CString) (pid : Nat) : Prop where
  queue : ∀ e ∈ s.queue, e.sid ≠ sid
  sig : s.spc.held ≠ some sid
  mon : s.mpc.held ≠ some sid
  running : ∀ q, Running s q sid → q = pid

/-- 再起動が新しく stream を持つのは、その stream の記録を引いたときだけである。 -/
def NotFound (s : State) (sid : CString) : Act → Prop
  | .sigLookup => sid ∉ s.spc.finds s.store
  | .monLookup => sid ∉ s.mpc.finds s.store
  | .start e => e.sid ≠ sid
  | _ => True

theorem Quiet.step {s s' : State} {a : Act} {sid : CString} {pid : Nat}
    (hq : Quiet s sid pid) (hhead : QueueHead s) (hnf : NotFound s sid a)
    (h : App.step s a = some s') : Quiet s' sid pid := by
  obtain ⟨hqueue, hsig, hmon, hrun⟩ := hq
  have htail : ∀ e ∈ s.queue.tail, e.sid ≠ sid := fun e he => hqueue e (List.mem_of_mem_tail he)
  have hfork : ∀ {p x}, x ≠ sid → ∀ q,
      (∃ pr, forkProc s.procs p x q = some pr ∧ pr.stream = some sid ∧ pr.state = .running) →
      q = pid := fun hx q hr => (running_forkProc hr).elim (fun hc => absurd hc.2 hx) (hrun q)
  cases step_cases h with
  | start e hpc =>
    refine ⟨fun e' he' => ?_, hsig, hmon, hrun⟩
    rcases List.mem_append.mp he' with he' | he'
    · exact hqueue e' he'
    · rw [List.mem_singleton.mp he']
      exact hnf
  | queueExist | queueCreateFail | queueForkFail | queueInsert => exact ⟨htail, hsig, hmon, hrun⟩
  | queueFork e f p qpc hfresh =>
    exact ⟨hqueue, hsig, hmon, hfork (hhead.ne_of_forall hqueue (by rw [qpc]; rfl))⟩
  | die p pr hp hr =>
    exact ⟨hqueue, hsig, hmon, fun q hq => hrun q (running_update_dead (endProc_not_running pr) hq)⟩
  | sigReap p pr spc =>
    exact ⟨hqueue, by simp [SigPc.held], hmon, fun q hq => hrun q (running_update_dead (by simp) hq)⟩
  | sigLookupSome p i spc hget =>
    refine ⟨hqueue, fun hi => hnf ?_, hmon, hrun⟩
    cases hi
    rw [spc]
    exact SigPc.finds_of_lookup hget
  | monLookupSome p rest i mpc hget =>
    refine ⟨hqueue, hsig, fun hi => hnf ?_, hrun⟩
    cases hi
    rw [mpc]
    exact MonPc.finds_of_lookup hget
  | sigFork i p spc hfresh =>
    rw [spc] at hsig
    exact ⟨hqueue, hsig, hmon, hfork fun hx => hsig (by rw [← hx]; rfl)⟩
  | monFork i rest p mpc hfresh =>
    rw [mpc] at hmon
    exact ⟨hqueue, hsig, hmon, hfork fun hx => hmon (by rw [← hx]; rfl)⟩
  | sigLookupNone | sigForkFail | sigUpdate => exact ⟨hqueue, by simp [SigPc.held], hmon, hrun⟩
  | monScan | monDone | monAlive | monDead | monLookupNone | monForkFail | monUpdate =>
    exact ⟨hqueue, hsig, by simp [MonPc.held], hrun⟩
  | _ => exact ⟨hqueue, hsig, hmon, hrun⟩

theorem foundSid_mem {c : Store} {p : Nat} {sid : CString} (h : sid ∈ foundSid c p) :
    sid ∈ c.sids := by
  obtain ⟨i, hi, rfl⟩ := Option.map_eq_some_iff.mp h
  exact Store.mem_sids.mpr ⟨i, (isProcessExistPid_pid hi).1, rfl⟩

theorem SigPc.finds_mem {c : Store} {pc : SigPc} {sid : CString} (h : sid ∈ pc.finds c) :
    sid ∈ c.sids := by
  cases pc with
  | lookup p => exact foundSid_mem h
  | idle | fork | update => simp [SigPc.finds] at h

theorem MonPc.finds_mem {c : Store} {pc : MonPc} {sid : CString} (h : sid ∈ pc.finds c) :
    sid ∈ c.sids := by
  cases pc with
  | lookup p => exact foundSid_mem h
  | idle | check | fork | update => simp [MonPc.finds] at h

/-- 記録の無い stream は、どの再起動にも引かれない。 -/
theorem notFound_of_absent {s : State} {sid : CString} (h : sid ∉ s.store.sids) {a : Act}
    (hstart : ∀ e, a = .start e → e.sid ≠ sid) : NotFound s sid a := by
  cases a with
  | sigLookup => exact fun hf => h (SigPc.finds_mem hf)
  | monLookup => exact fun hf => h (MonPc.finds_mem hf)
  | start e => exact hstart e rfl
  | _ => trivial

/-- 停止の途中の stream は、重ならない再起動には引かれない。 -/
theorem notFound_of_separate {s : State} {p : ProcessInfo} (hpc : s.hpc = .remove p) {a : Act}
    (hsep : Separate s a) (hstart : ∀ e, a = .start e → e.sid ≠ p.sid) : NotFound s p.sid a := by
  cases a with
  | sigLookup => exact fun hf => (hsep p.sid hf).1 (by rw [hpc]; rfl)
  | monLookup => exact fun hf => (hsep p.sid hf).1 (by rw [hpc]; rfl)
  | start e => exact hstart e rfl
  | _ => trivial

/-- 停止が済んだ stream。記録も無い。 -/
structure Stopped (s : State) (sid : CString) (pid : Nat) : Prop where
  quiet : Quiet s sid pid
  absent : sid ∉ s.store.sids

/-- その stream の起動を頼まれなければ、停止は破れない。 -/
theorem Stopped.step {s s' : State} {a : Act} {sid : CString} {pid : Nat} (hs : Stopped s sid pid)
    (hhead : QueueHead s) (hstart : ∀ e, a = .start e → e.sid ≠ sid)
    (h : App.step s a = some s') : Stopped s' sid pid := by
  refine ⟨hs.quiet.step hhead (notFound_of_absent hs.absent hstart) h, ?_⟩
  cases step_cases h with
  | killRemove p hpc =>
    rw [sids_removeProcessByStream]
    exact fun hm => hs.absent (List.mem_of_mem_erase hm)
  | queueInsert e qpc =>
    have hne : e.sid ≠ sid := hhead.ne_of_forall hs.quiet.queue (by rw [qpc]; rfl)
    simpa [hne.symm] using hs.absent
  | sigUpdate | monUpdate => simpa using hs.absent
  | _ => exact hs.absent

/-! ## `kill_process` の途中 -/

/-- 停止の途中と直後の stream は静かである。 -/
structure Stopping (s : State) : Prop where
  removing : ∀ p, s.hpc = .remove p → Quiet s p.sid p.pid
  killing : ∀ p, s.hpc = .kill p → Stopped s p.sid p.pid

/-- 何も止めていなければ、途中の stream は無い。 -/
theorem Stopping.of_idle {s : State} (h : s.hpc = .idle) : Stopping s :=
  ⟨by simp [h], by simp [h]⟩

/-- 割り込まれない停止が記録を読んだとき、その stream は静かである。 -/
theorem quiet_of_stop {s : State} {p : ProcessInfo} (ht : Tracked s) (hhead : QueueHead s)
    (hsep : Separate s (.stop p.sid)) (hsafe : StopSafe s p.sid) (hp : p ∈ s.store) :
    Quiet s p.sid p.pid := by
  obtain ⟨hsig, hmon⟩ := hsep
  obtain ⟨hqueue, hkilled⟩ := hsafe
  refine ⟨hqueue, hsig, hmon, fun q hq => ?_⟩
  have hrec : (∃ d ∈ s.store, d.sid = p.sid ∧ d.pid = q) → q = p.pid := by
    rintro ⟨d, hd, hs, rfl⟩
    rw [eq_of_sid_eq ht.unique.nodup hd hp hs]
  rcases ht.owned q p.sid hq with hk | hown | ⟨e, he, hs, _⟩ | ⟨i, hi, hs, _⟩
  · exact hrec (hkilled q hk hq)
  · exact hrec hown
  · exact absurd hs (hhead.ne_of_forall hqueue (by rw [he]; rfl))
  · rcases hi.held with hi | hi
    · exact absurd (hs ▸ hi) hsig
    · exact absurd (hs ▸ hi) hmon

theorem Stopping.step {s s' : State} {a : Act} (ht : Tracked s) (hhead : QueueHead s)
    (hsep : Separate s a) (hsafe : ∀ sid, a = .stop sid → StopSafe s sid)
    (h : App.step s a = some s') (hst : Stopping s) : Stopping s' := by
  -- HTTP thread が動かない一歩では、`Quiet` と `Stopped` がそのまま保たれる
  have keep : s'.hpc = s.hpc → (∀ e, a = .start e → s.hpc = .idle) → Stopping s' := by
    intro hpc hidle
    refine ⟨fun p hp => ?_, fun p hp => ?_⟩
    · rw [hpc] at hp
      refine (hst.removing p hp).step hhead (notFound_of_separate hp hsep ?_) h
      intro e he
      rw [hidle e he] at hp
      simp at hp
    · rw [hpc] at hp
      refine (hst.killing p hp).step hhead ?_ h
      intro e he
      rw [hidle e he] at hp
      simp at hp
  cases step_cases h with
  | start e hpc => exact keep rfl fun _ _ => hpc
  | stopNone sid hpc => exact keep rfl (by simp)
  | stopSome sid p hpc hget =>
    obtain ⟨hm, rfl⟩ := getProcessInfo_sid hget
    refine ⟨fun q hq => ?_, fun q hq => by simp at hq⟩
    cases hq
    have hnf : NotFound s p.sid (.stop p.sid) := True.intro
    exact (quiet_of_stop ht hhead hsep (hsafe _ rfl) hm).step hhead hnf h
  | killRemove p hpc =>
    refine ⟨fun q hq => by simp at hq, fun q hq => ?_⟩
    cases hq
    have hnf : NotFound s p.sid .killRemove := True.intro
    exact ⟨(hst.removing p hpc).step hhead hnf h, sid_notMem_remove ht.unique.nodup⟩
  | killSignal => exact ⟨by simp, by simp⟩
  | _ => exact keep rfl (by simp)

/-! ## run 全体 -/

theorem Init.queueHead {s : State} (h : Init s) : QueueHead s := by
  rw [h.boot]
  simp [QueueHead, State.boot, QueuePc.current]

/-- 最後の停止の後の run。 -/
theorem Stopping.run {s t : State} {as : List Act} (ht : Tracked s) (hhead : QueueHead s)
    (hst : Stopping s) (hsep : Along App.step Separate s as) (hlast : ∀ sid, .stop sid ∉ as)
    (hrun : Infra.run App.step s as = some t) : QueueHead t ∧ Stopping t := by
  induction as generalizing s with
  | nil =>
    rw [run_nil] at hrun
    cases hrun
    exact ⟨hhead, hst⟩
  | cons a as ih =>
    obtain ⟨s', hstep, hrest⟩ := (run_cons_eq_some App.step).mp hrun
    have hnot : ∀ sid, a = .stop sid → StopSafe s sid := by
      rintro sid rfl
      exact absurd List.mem_cons_self (hlast sid)
    exact ih (ht.step hsep.1 hstep) (hhead.step hstep) (hst.step ht hhead hsep.1 hnot hstep)
      (hsep.2 s' hstep) (fun sid hm => hlast sid (List.mem_cons_of_mem _ hm)) hrest

/-- 記録を読むところで割り込まれない停止は、終わるまで静かである。 -/
theorem stopping_run {s₀ s₁ s : State} {as : List Act} {sid : CString} (hinit : Init s₀)
    (hsep : Along step Separate s₀ as) (hread : LastRead s₀ as sid s) (hsafe : StopSafe s sid)
    (hrun : Infra.run step s₀ as = some s₁) : QueueHead s₁ ∧ Stopping s₁ := by
  obtain ⟨before, after, rfl, hlast, hbefore⟩ := hread
  obtain ⟨u, hu, hrest⟩ := (run_append_eq_some step).mp hrun
  obtain rfl := Option.some.inj (hu.symm.trans hbefore)
  obtain ⟨hsep₀, hsep₁⟩ := Along.append.mp hsep
  obtain ⟨ht, hhead⟩ : Tracked u ∧ QueueHead u :=
    run_invariant (I := fun s => Tracked s ∧ QueueHead s)
      (fun _ _ _ hP hstep ⟨ht, hq⟩ => ⟨ht.step hP hstep, hq.step hstep⟩)
      hsep₀ hu ⟨hinit.tracked, hinit.queueHead⟩
  obtain ⟨u', hstop, hafter⟩ := (run_cons_eq_some App.step).mp hrest
  obtain ⟨hnow, hlater⟩ := hsep₁ u hu
  have hidle : u.hpc = .idle := by
    cases step_cases hstop with
    | stopNone _ hpc => exact hpc
    | stopSome _ _ hpc => exact hpc
  have hst : Stopping u' := by
    refine (Stopping.of_idle hidle).step ht hhead hnow ?_ hstop
    rintro _ ⟨⟩
    exact hsafe
  exact hst.run (ht.step hnow hstop) (hhead.step hstop) (hlater u' hstop) hlast hafter

/-- `s₂` から後に作られた process のどれも stream `sid` のものではない。 -/
def NoForkSince (s₂ : State) (sid : CString) (s : State) : Prop :=
  ∀ q pr, s.procs q = some pr → pr.stream = some sid → Known s₂ q

theorem noFork_forkProc {s₂ s : State} {sid x : CString} {p : Nat} (hx : x ≠ sid)
    (hf : NoForkSince s₂ sid s) :
    ∀ q pr, forkProc s.procs p x q = some pr → pr.stream = some sid → Known s₂ q := by
  intro q pr hq hs
  by_cases hqp : q = p
  · subst hqp
    simp only [forkProc, Function.update_self, Option.some.injEq] at hq
    subst hq
    exact absurd (Option.some.inj hs) hx
  · exact hf q pr (by simpa [forkProc, Function.update_of_ne hqp] using hq) hs

theorem noFork_update {s₂ s : State} {sid : CString} {p : Nat} {pr₀ pr₁ : Proc}
    (hp : s.procs p = some pr₀) (hstream : pr₁.stream = pr₀.stream) (hf : NoForkSince s₂ sid s) :
    ∀ q pr, Function.update s.procs p (some pr₁) q = some pr → pr.stream = some sid →
      Known s₂ q := by
  intro q pr hq hs
  by_cases hqp : q = p
  · subst hqp
    simp only [Function.update_self, Option.some.injEq] at hq
    subst hq
    exact hf q pr₀ hp (hstream ▸ hs)
  · exact hf q pr (by simpa [Function.update_of_ne hqp] using hq) hs

theorem NoForkSince.step {s₂ s s' : State} {a : Act} {sid : CString} {pid : Nat}
    (hs : Stopped s sid pid) (hhead : QueueHead s) (h : App.step s a = some s')
    (hf : NoForkSince s₂ sid s) : NoForkSince s₂ sid s' := by
  cases step_cases h with
  | queueFork e f p qpc hfresh =>
    exact noFork_forkProc (hhead.ne_of_forall hs.quiet.queue (by rw [qpc]; rfl)) hf
  | sigFork i p spc hfresh =>
    exact noFork_forkProc (fun hx => hs.quiet.sig (by rw [spc, ← hx]; rfl)) hf
  | monFork i rest p mpc hfresh =>
    exact noFork_forkProc (fun hx => hs.quiet.mon (by rw [mpc, ← hx]; rfl)) hf
  | die p pr hp hrun => exact noFork_update hp rfl hf
  | sigReap p pr spc hp => exact noFork_update hp rfl hf
  | _ => exact hf

/-- 名札の列に、その stream の起動の依頼が現れない。 -/
def NoStart (sid : CString) (as : List Act) : Prop := ∀ e, .start e ∈ as → e.sid ≠ sid

/-- 停止が済んだ後の run。 -/
theorem Stopped.run {s₂ s₃ : State} {as : List Act} {sid : CString} {pid : Nat}
    (hhead : QueueHead s₂) (hs : Stopped s₂ sid pid) (hno : NoStart sid as)
    (hrun : Infra.run App.step s₂ as = some s₃) :
    Stopped s₃ sid pid ∧ NoForkSince s₂ sid s₃ := by
  have hinv : ∀ (as : List Act) (s : State), QueueHead s → Stopped s sid pid →
      NoForkSince s₂ sid s → NoStart sid as → Infra.run App.step s as = some s₃ →
      Stopped s₃ sid pid ∧ NoForkSince s₂ sid s₃ := by
    intro as
    induction as with
    | nil =>
      intro s _ hst hf _ hr
      rw [run_nil] at hr
      cases hr
      exact ⟨hst, hf⟩
    | cons a as ih =>
      intro s hq hst hf hn hr
      obtain ⟨s', hstep, hr'⟩ := (run_cons_eq_some App.step).mp hr
      have hstart : ∀ e, a = .start e → e.sid ≠ sid := fun e he => hn e (by simp [he])
      exact ih s' (hq.step hstep) (hst.step hq hstart hstep) (hf.step hst hq hstep)
        (fun e he => hn e (List.mem_cons_of_mem _ he)) hr'
  exact hinv as s₂ hhead hs (fun q pr hq _ => by simp [Known, hq]) hno hrun

/--
**割り込まれない停止は最終的である。**

戻るまでに再起動と重ならず、その `kill_process` が `StopSafe` な状態 `s` で記録を読んだとする。
`REC_ERROR_OK` を返して `s₂` になった後、その stream の起動の依頼が無ければ、記録は戻らず、その stream の
process は作られず、SIGINT を送った process が終われば、その stream を録画している process は無い。
-/
theorem stop_is_final (s₀ : State) (as₁ : List Act) (s₁ : State) (p : ProcessInfo) (s₂ : State)
    (as₂ : List Act) (s₃ : State) (hinit : Init s₀) (h₁ : Infra.run step s₀ as₁ = some s₁)
    (hpc : s₁.hpc = .kill p) (hret : step s₁ .killSignal = some s₂)
    (h₂ : Infra.run step s₂ as₂ = some s₃)
    (hsep : Along step Separate s₀ as₁) (s : State) (hread : LastRead s₀ as₁ p.sid s)
    (hsafe : StopSafe s p.sid) (hlater : NoStart p.sid as₂) :
    p.sid ∉ s₃.store.sids ∧ NoForkSince s₂ p.sid s₃ ∧
      (Ended s₃ p.pid → ∀ q, ¬ Running s₃ q p.sid) := by
  obtain ⟨hhead, hst⟩ := stopping_run hinit hsep hread hsafe h₁
  have hstop : Stopped s₂ p.sid p.pid := (hst.killing p hpc).step hhead (by simp) hret
  obtain ⟨hfin, hfork⟩ := hstop.run (hhead.step hret) hlater h₂
  refine ⟨hfin.absent, hfork, fun hend q hq => ?_⟩
  rw [hfin.quiet.running q hq] at hq
  exact hend.not_running hq

/-- `streamcode` の録画を止める run。 -/
def stopRun (streamcode : Bytes) : List Act := [.stopRecord streamcode, .killRemove, .killSignal]

/-- 止める `streamcode` は、NUL の後が違っていてもよい。 -/
theorem stop_is_final_after_restart :
    ∃ s₃, Infra.run step (.boot 1 [] fun _ => none)
        (crashRun ++ stopRun [97, 0, 98] ++ [.die 101]) = some s₃ ∧
      .ofBytes [97] ∉ s₃.store.sids ∧ ∀ q, ¬ Running s₃ q (.ofBytes [97]) := by
  have h := stop_is_final (.boot 1 [] fun _ => none)
    (crashRun ++ [.stopRecord [97, 0, 98], .killRemove]) _
    { sampleInfo 97 101 1 with status := .ofBytes (ascii "active") } _ [.die 101] _ (Init.empty 1) rfl
    rfl rfl rfl (by decide) _ ⟨crashRun, [.killRemove], rfl, by simp, rfl⟩ (by decide)
    (by simp [NoStart])
  exact ⟨_, rfl, h.1, h.2.2 ⟨_, rfl, by decide⟩⟩

/--
録画 process（pid 100）が死に、handler が記録を引いたところで停止が割り込む。
停止が戻った後、handler は消えた記録の process を作る。
-/
def lateRestartRun : List Act :=
  spawnRun (sampleInfo 97 0 0) 100 ++
    [.die 100, .sigReap 100, .sigLookup, .stopRecord [97], .killRemove]

/-- **停止が戻った後に、その stream の録画 process が作られる run がある。** -/
theorem recorder_survives_stop :
    ¬ ∀ (s₀ : State) (as₁ : List Act) (s₁ : State) (p : ProcessInfo) (s₂ : State)
      (as₂ : List Act) (s₃ : State), Init s₀ → Infra.run step s₀ as₁ = some s₁ →
      s₁.hpc = .kill p → step s₁ .killSignal = some s₂ → Infra.run step s₂ as₂ = some s₃ →
      (∀ e ∈ s₂.queue, e.sid ≠ p.sid) → NoStart p.sid as₂ →
      p.sid ∉ s₃.store.sids ∧ NoForkSince s₂ p.sid s₃ ∧
        (Ended s₃ p.pid → ∀ q, ¬ Running s₃ q p.sid) := by
  intro h
  have h₂ := h (.boot 1 [] fun _ => none) lateRestartRun _
    { sampleInfo 97 100 1 with status := .ofBytes (ascii "active") } _ [.sigFork (some 101)] _
    (Init.empty 1) rfl rfl rfl rfl (by intro e he; exact absurd he (List.not_mem_nil))
    (by simp [NoStart])
  exact h₂.2.2 ⟨_, rfl, by decide⟩ 101 ⟨_, rfl, rfl, rfl⟩

end RecordServer.App
