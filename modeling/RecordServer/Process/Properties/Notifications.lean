import RecordServer.Process.MainProc

/-!
# 通知が失われないこと

`run` が `sleep` にいて `stop` が立っていないとき、worker の死は `g_restart_sig` に、
届いた `SIGHUP` は `g_reload_sig` に残っているか。

`handle_reload` が立てるのは誰も読まない member の `reload` なので、`SIGHUP` はいつも失われる。
worker の死は、作り直した直後、flag を消す前に新しい worker が回収されると失われる。

* `Undisturbed` — この二つが起こらない、という一歩の条件
* `Noted` — 不変量
* `notified_run` — 条件を満たす run では、`sleep` のどの時点でも通知が残っている
-/

namespace RecordServer.Process

open Infra

/-- 一歩の条件。`SIGHUP` は届かず、`fork` から flag を消すまでは新しい worker を回収しない。 -/
def Undisturbed (m : Master) : Act → Prop
  | .signal sig => sig ≠ .sighup
  | .reap k => m.pc = .clearRestart → k ≠ 0
  | _ => True

/-- 通知の不変量。 -/
structure Noted (m : Master) : Prop where
  restart : m.workers.head? = some .reaped → m.restartSig = true
  fresh : m.pc = .clearRestart → m.workers.head? ≠ some .reaped
  hup : m.hup = false

theorem noted_start {life : Life} (h : life ≠ .reaped) : Noted (Master.start life) := by
  constructor <;> simp [Master.start, h]

theorem noted_loop {m m' : Master} {ok : Bool} (hs : m.loop ok = some m') (h : Noted m) :
    Noted m' := by
  obtain ⟨h1, h2, h3⟩ := h
  unfold Master.loop at hs
  split at hs
  · cases hs
    exact ⟨h1, by split <;> simp, h3⟩
  · cases hs
    exact ⟨h1, by split <;> simp, h3⟩
  · split at hs <;> cases hs
    · exact ⟨by simp, by simp, h3⟩
    · exact ⟨h1, by simp, h3⟩
  · next hpc =>
    cases hs
    exact ⟨fun hr => absurd hr (h2 hpc), by simp, h3⟩
  · cases hs
    exact ⟨h1, by split <;> simp, h3⟩
  · cases hs
    exact ⟨h1, by simp, rfl⟩
  · cases hs
    exact ⟨h1, by simp, h3⟩
  · cases hs
    exact ⟨h1, by simp, h3⟩
  · cases hs
    exact ⟨h1, by simp, h3⟩
  · cases hs

/-- 先頭に触れない書き換えは、先頭を変えない。 -/
theorem head?_set {l : List Life} {k : Nat} {x : Life} (hk : k < l.length) :
    (l.set k x).head? = if k = 0 then some x else l.head? := by
  cases l with
  | nil => simp at hk
  | cons y l => cases k <;> simp

theorem noted_step {m m' : Master} {a : Act} (hu : Undisturbed m a) (hs : m.step a = some m')
    (h : Noted m) : Noted m' := by
  cases a with
  | loop ok => exact noted_loop hs h
  | die k =>
    simp only [Master.step, Master.die] at hs
    split at hs
    · next hk =>
      cases hs
      have hlt : k < m.workers.length := (List.getElem?_eq_some_iff.mp hk).1
      refine ⟨?_, ?_, h.hup⟩
      · simp only [head?_set hlt]
        split
        · simp
        · exact h.restart
      · intro hpc
        simp only [head?_set hlt]
        split
        · simp
        · exact h.fresh hpc
    · cases hs
  | reap k =>
    simp only [Master.step, Master.reap] at hs
    split at hs
    · cases hs
    · split at hs
      · next hk =>
        cases hs
        have hlt : k < m.workers.length := (List.getElem?_eq_some_iff.mp hk).1
        refine ⟨fun _ => rfl, ?_, h.hup⟩
        intro hpc
        simp only [head?_set hlt, if_neg (hu hpc)]
        exact h.fresh hpc
      · cases hs
  | signal sig =>
    simp only [Master.step] at hs
    split at hs
    · cases hs
    · cases hs
      have hsig : sig ≠ .sighup := hu
      unfold Master.signal
      simp only [hsig, if_false]
      split
      · split
        · next g _ => cases g <;> exact ⟨h.restart, h.fresh, h.hup⟩
        · exact h
      · exact ⟨h.restart, by simp, h.hup⟩

/-- 通知が残っている。 -/
def Notified (m : Master) : Prop :=
  m.pc = .sleep → m.stop = false →
    (m.workers.head? = some .reaped → m.restartSig = true) ∧ (m.hup = true → m.reloadSig = true)

instance (m : Master) : Decidable (Notified m) := inferInstanceAs (Decidable (_ → _ → _))

/--
**通知は失われない。**

`SIGHUP` が届かず、`fork` から flag を消すまでのあいだに新しい worker が回収されない run では、
`sleep` のどの時点でも、回収された最新の worker には `g_restart_sig` が立っている。
-/
theorem notified_run (life : Life) (hlife : life ≠ .reaped) (acts : List Act) (m : Master)
    (hu : Along Master.step Undisturbed (Master.start life) acts)
    (hrun : run Master.step (Master.start life) acts = some m) : Notified m := by
  have h : Noted m :=
    run_invariant (fun _ _ _ hP hs hI => noted_step hP hs hI) hu hrun (noted_start hlife)
  intro _ _
  refine ⟨h.restart, fun hh => ?_⟩
  rw [h.hup] at hh
  cases hh

instance (m : Master) (a : Act) : Decidable (Undisturbed m a) :=
  match a with
  | .signal _ => inferInstanceAs (Decidable (_ ≠ _))
  | .reap _ => inferInstanceAs (Decidable (_ → _))
  | .loop _ | .die _ => isTrue True.intro

/-- 主 loop を `n` 歩進める。 -/
def loops (n : Nat) : List Act := List.replicate n (.loop true)

/-- worker が死んで回収され、作り直した worker も後で死ぬ run。 -/
def deathsApart : List Act :=
  [.die 0, .reap 0] ++ loops 5 ++ [.die 0, .reap 0]

theorem notified_after_second_death :
    ∃ m, run Master.step (Master.start .alive) deathsApart = some m ∧ m.pc = .sleep ∧
      m.workers = [.reaped, .reaped] ∧ Notified m :=
  ⟨_, rfl, rfl, rfl, notified_run .alive (by decide) deathsApart _ (by decide) rfl⟩

/--
通知が失われる二つの run。`sleep` のあいだに届いた `SIGHUP` は `g_reload_sig` に残らず、
`fork` の直後に死んで回収された worker は `g_restart_sig` に残らない。
-/
theorem notification_lost :
    (∃ m, run Master.step (Master.start .alive) (loops 3 ++ [.signal .sighup]) = some m ∧
        ¬Notified m) ∧
      ∃ m, run Master.step (Master.start .alive)
          ([.die 0, .reap 0] ++ loops 3 ++ [.die 0, .reap 0] ++ loops 2) = some m ∧
        m.workers.head? = some .reaped ∧ ¬Notified m :=
  ⟨⟨_, rfl, by decide⟩, _, rfl, by decide, by decide⟩

end RecordServer.Process
