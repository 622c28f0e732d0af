import RecordServer.Timer.PureTimer

/-!
# timer の run（`pure_timer_process` と handler）

`pure_timer_process` は、木の最小の event を外しては handler を呼ぶ。handler はその間に timer に
event を加え、消し、event を作り、壊す。

* `Machine` / `Act` / `step` — loop の頭と handler の中を分けて進める
* `Enabled` — その場で起こりうること
* `Runs` — 初めからの run
* `Machine.holds_along_run` — どの run の後でも三か所の記録は一致し、次の一手は必ず終わる
-/

namespace RecordServer.Timer

open Infra Datas

/-- `pure_timer_process` がどこにいるか。`now` は入ったときに読んだ時計の値である。 -/
inductive Phase where
  | idle
  /-- loop の頭。 -/
  | head (now : Key)
  /-- handler の中。 -/
  | handler (now : Key)
deriving DecidableEq, Repr

structure Machine where
  world : World
  phase : Phase

inductive Act where
  /-- 呼ぶ側か handler の操作。 -/
  | call (c : Call)
  /-- `pure_find_timer`。 -/
  | find (curTime : Key)
  /-- `pure_timer_process` に入り、時計を読む。 -/
  | enter (now : Key)
  /-- loop の一回分。 -/
  | turn
  /-- handler が戻る。 -/
  | ret

/-- loop が木を調べている間は、ほかの操作は割り込まない。 -/
def Enabled (m : Machine) : Act → Prop
  | .call c => (∀ now, m.phase ≠ .head now) ∧ Allowed m.world c
  | .find _ => ∀ now, m.phase ≠ .head now
  | .enter _ => m.phase = .idle
  | .turn => ∃ now, m.phase = .head now
  | .ret => ∃ now, m.phase = .handler now

def step (fuel : Nat) (m : Machine) : Act → Option Machine
  | .call c => (exec fuel m.world c).map fun w => { m with world := w }
  | .find curTime => (m.world.timer.pureFindTimer fuel curTime).map fun r =>
      { m with world := { m.world with timer := r.2 } }
  | .enter now => some { m with phase := .head now }
  | .turn =>
    match m.phase with
    | .head now => (m.world.turn fuel now).map fun r =>
        { world := r.2, phase := if r.1.isSome then .handler now else .idle }
    | _ => none
  | .ret =>
    match m.phase with
    | .handler now => some { m with phase := .head now }
    | _ => none

/-- `as` を順に行って `m'` に着く。 -/
inductive Runs : Machine → List Act → Machine → Prop
  | nil {m} : Runs m [] m
  | cons {m m' m'' a as} : Enabled m a → Converges (fun fuel => step fuel m a) m' →
      Runs m' as m'' → Runs m (a :: as) m''

/-- 作りたての timer。 -/
def Machine.init (heap : Ptr → RbNode) (nil : Ptr) : Machine := ⟨.init heap nil, .idle⟩

variable {m m' : Machine} {rb : RBTree Entry}

/-! ## 一手 -/

/-- `pure_find_timer` は必ず終わり、木には触らない。 -/
theorem Holds.find {w : World} (h : Holds w rb) (curTime : Key) :
    ∃ r t, Converges (fun fuel => w.timer.pureFindTimer fuel curTime) (r, t) ∧
      Holds { w with timer := t } rb := by
  obtain ⟨out, hout⟩ : ∃ out, Converges (fun fuel => w.timer.prbt.treeMinimumKey fuel) out := by
    by_cases hleaf : rb = .leaf
    · subst hleaf
      have hroot : w.timer.prbt.root = w.timer.prbt.nil := h.valid.shows.root
      refine ⟨(0, none), (Converges.pure _).congr fun fuel => ?_⟩
      rw [PureRbtree.treeMinimumKey, if_pos hroot]
    · obtain ⟨e, -, -, hmin, -⟩ := h.turn hleaf curTime
      exact ⟨_, hmin⟩
  exact ⟨_, _, hout.map _, ⟨h.valid, h.apart, h.own, h.flag, h.blank, h.due⟩⟩

/-- **起こりうる一手は必ず終わり、一致を保つ。** -/
theorem Holds.step (h : Holds m.world rb) {a : Act} (ha : Enabled m a) :
    ∃ m' rb', Converges (fun fuel => step fuel m a) m' ∧ Holds m'.world rb' := by
  cases a with
  | call c =>
    obtain ⟨w, rb', hrun, h', -⟩ := h.exec ha.2
    exact ⟨_, rb', hrun.map _, h'⟩
  | find curTime =>
    obtain ⟨r, t, hrun, h'⟩ := h.find curTime
    exact ⟨_, rb, hrun.map _, h'⟩
  | enter now => exact ⟨_, rb, .pure _, h⟩
  | turn =>
    obtain ⟨now, hphase⟩ := ha
    obtain ⟨r, w, rb', hrun, h'⟩ : ∃ r w rb',
        Converges (fun fuel => m.world.turn fuel now) (r, w) ∧ Holds w rb' := by
      by_cases hleaf : rb = .leaf
      · subst hleaf
        exact ⟨_, _, _, h.turn_empty now, h⟩
      · obtain ⟨e, -, -, -, hlate, hdue⟩ := h.turn hleaf now
        by_cases htest : PureTimer.s32 (e.key - now) ≤ 0
        · obtain ⟨w', rb', hrun, h', -⟩ := hdue htest
          exact ⟨_, w', rb', hrun, h'⟩
        · exact ⟨_, _, rb, hlate htest, h⟩
    refine ⟨⟨w, if r.isSome then .handler now else .idle⟩, rb', ?_, h'⟩
    refine (hrun.map fun r => Machine.mk r.2 (if r.1.isSome then .handler now else .idle)).congr
      fun fuel => ?_
    rw [Timer.step, hphase]
  | ret =>
    obtain ⟨now, hphase⟩ := ha
    refine ⟨{ m with phase := .head now }, rb, (Converges.pure _).congr fun fuel => ?_, h⟩
    rw [Timer.step, hphase]

/-! ## run -/

theorem Holds.runs {as : List Act} (h : Holds m.world rb) (hrun : Runs m as m') :
    ∃ rb', Holds m'.world rb' := by
  induction hrun generalizing rb with
  | nil => exact ⟨rb, h⟩
  | cons ha hstep _ ih =>
    obtain ⟨m₁, rb₁, hstep₁, h₁⟩ := h.step ha
    obtain rfl := hstep.unique hstep₁
    exact ih h₁

theorem Machine.holds_along_run {heap : Ptr → RbNode} {nil : Ptr} {as : List Act}
    (hrun : Runs (.init heap nil) as m) : ∃ rb, Holds m.world rb :=
  (show Holds (Machine.init heap nil).world .leaf from .init heap nil).runs hrun

theorem Runs.snoc {m'' : Machine} {as : List Act} {a : Act} (hrun : Runs m as m')
    (ha : Enabled m' a) (hstep : Converges (fun fuel => step fuel m' a) m'') :
    Runs m (as ++ [a]) m'' := by
  induction hrun with
  | nil => exact .cons ha hstep .nil
  | cons ha₁ hstep₁ _ ih => exact .cons ha₁ hstep₁ (ih ha hstep)

/-- event を一つ作り、時計が `clock` のときに `timer` で加えた run。 -/
theorem runs_armed (timer clock : Key) :
    ∃ m rb, Runs (.init blankHeap 1) [.call (.construct 2), .call (.add timer clock 2)] m ∧
      m.phase = .idle ∧ Holds m.world rb ∧ ∀ x, x ∈ rb.toList ↔ x = ⟨2, timer + clock, 2⟩ := by
  have h₀ : Holds (Machine.init blankHeap 1).world .leaf := .init blankHeap 1
  have ha₁ : Allowed (Machine.init blankHeap 1).world (.construct 2) := ⟨rfl, by decide⟩
  have h₁ := h₀.construct ha₁
  obtain ⟨w, rb, hexec, h₂, hmem⟩ := h₁.exec (c := .add timer clock 2) (by simp [Allowed])
  refine ⟨⟨w, .idle⟩, rb, ?_, rfl, h₂, by simpa [Effect] using hmem⟩
  refine .cons ⟨fun _ => by simp [Machine.init], ha₁⟩ (.pure _) (.cons ?_ (hexec.map _) .nil)
  exact ⟨fun _ => by simp [Machine.init], by simp [Allowed]⟩

end RecordServer.Timer
