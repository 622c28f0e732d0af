import RecordServer.Timer.Process

/-!
# 旗と木の一致

event が木に入っていることは、旗 `m_is_inrbtree`・埋め込まれた節 `m_ev_node`・木の pointer の三か所に
記録される。どの run の後でも三つは一致する。

* `Agree` — 一致の中身
* `agree_along_run` — どの run の後でも一致し、次の一手の `assert` は通る
-/

namespace RecordServer.Timer

open Infra Datas

structure Agree (w : World) : Prop where
  /-- 木の中の節は、在る event の節である。 -/
  alive : ∀ p, InTree w.timer.prbt p → w.alive p = true
  /-- 木の中にあることと旗が立っていることは同じである。 -/
  flag : ∀ ev, w.alive ev = true → (InTree w.timer.prbt ev ↔ w.timer.inrbtree ev = true)
  /-- 同じ event は木に二度は現れない。 -/
  once : ∃ rb, Shows w.timer.prbt rb ∧ (rb.toList.map Entry.data).Nodup ∧
    rb.toList.map Entry.data = ptrs rb.toList
  /-- 木の外の event の節は、どの field も 0 である。 -/
  blank : ∀ ev, w.alive ev = true → ¬ InTree w.timer.prbt ev → w.timer.prbt.heap ev = zeroNode
  /-- 木の中の event を加えても、何も変わらない。 -/
  addPresent : ∀ ev, InTree w.timer.prbt ev → ∀ fuel timer clock,
    w.timer.pureAddTimer fuel timer clock ev = some w.timer
  /-- 木の外の event を消しても、何も変わらない。 -/
  deleteAbsent : ∀ ev, w.alive ev = true → ¬ InTree w.timer.prbt ev → ∀ fuel,
    w.timer.pureDeleteTimer fuel ev = some w.timer
  /-- 木の中の event の期限は、最後に加えたときに渡されたものである。 -/
  deadline : ∀ ev, InTree w.timer.prbt ev →
    (w.timer.prbt.key ev).val = w.given ev % 2 ^ 64

theorem Holds.agree {w : World} {rb : RBTree Entry} (h : Holds w rb) : Agree w := by
  have hiff := inTree_iff h.valid.shows
  constructor
  · intro p hp
    obtain ⟨e, he, rfl⟩ := List.mem_map.mp ((hiff p).mp hp)
    exact (h.own e he).1
  · intro ev hev
    rw [hiff, h.flag ev hev]
  · have heq : rb.toList.map Entry.data = ptrs rb.toList :=
      List.map_congr_left fun e he => (h.own e he).2.1
    exact ⟨rb, h.valid.shows, heq ▸ h.nodup, heq⟩
  · intro ev hev hout
    exact h.blank ev hev (mt (hiff ev).mpr hout)
  · intro ev hin fuel timer clock
    obtain ⟨e, he, rfl⟩ := List.mem_map.mp ((hiff ev).mp hin)
    refine pureAddTimer_present ?_ fuel timer clock
    exact (h.flag _ (h.own e he).1).mpr (List.mem_map.mpr ⟨e, he, rfl⟩)
  · intro ev hev hout fuel
    refine pureDeleteTimer_absent ?_ fuel
    rw [← Bool.not_eq_true, h.flag ev hev]
    exact mt (hiff ev).mpr hout
  · intro ev hin
    obtain ⟨e, he, rfl⟩ := List.mem_map.mp ((hiff ev).mp hin)
    rw [(h.valid.cell he).2.1, h.due e he]

/--
**旗・節・木は、どの run の後でも一致する。**

event を作り、壊し、加え、消すのは、`pure_timer_process` の外でも handler の中でもよい。
次の一手は必ず終わる。`pure_add_timer` の `assert` が破れることはない。
-/
theorem agree_along_run (heap : Ptr → RbNode) (nil : Ptr) (as : List Act) (m : Machine)
    (hrun : Runs (.init heap nil) as m) :
    Agree m.world ∧ ∀ a, Enabled m a → ∃ m', Converges (fun fuel => step fuel m a) m' := by
  obtain ⟨rb, h⟩ := Machine.holds_along_run hrun
  refine ⟨h.agree, fun a ha => ?_⟩
  obtain ⟨m', -, hstep, -⟩ := h.step ha
  exact ⟨m', hstep⟩

/-- 一つの event を作って加え、`pure_timer_process` がそれを外して handler に入る。 -/
theorem agree_in_handler :
    ∃ m, Runs (.init blankHeap 1) [.call (.construct 2), .call (.add 5 0 2), .enter 7, .turn] m ∧
      Agree m.world := by
  obtain ⟨m₂, -, hrun₂, hphase, -⟩ := runs_armed 5 0
  have hrun₃ := hrun₂.snoc (a := .enter 7) hphase (.pure _)
  obtain ⟨m₄, hstep₄⟩ := (agree_along_run _ _ _ _ hrun₃).2 .turn ⟨7, rfl⟩
  have hrun₄ := hrun₃.snoc (a := .turn) ⟨7, rfl⟩ hstep₄
  exact ⟨m₄, hrun₄, (agree_along_run _ _ _ _ hrun₄).1⟩

end RecordServer.Timer
