import RecordServer.Timer.Pass
import RecordServer.Timer.Properties.Deadline

/-!
# 木の中の event で述べた、一手の効き方

timer を使う側からは、木の形は見えず、どの event がどの期限で待っているか（`Pending`）だけが見える。

* `Holds.exec_iff` — 操作の前後の `Pending`
* `Near` — どの期限も時計から `2 ^ 31` 未満の所にある
* `Holds.turn_near` — そのとき loop の一回分は、期限の来た event を一つ外すか、無ければ終わる
-/

namespace RecordServer.Timer

open Infra Datas

/-- 操作の後に在る event。 -/
def aliveAfter (w : World) : Call → Ptr → Bool
  | .construct ev => Function.update w.alive ev true
  | .destroy ev => Function.update w.alive ev false
  | .add _ _ _ => w.alive
  | .delete _ => w.alive

/-- 操作の前後で待っている event。待っている event を加えても、期限は変わらない。 -/
def PendingAfter (w w' : World) : Call → Prop
  | .construct _ => ∀ p k, Pending w' p k ↔ Pending w p k
  | .destroy ev => ∀ p k, Pending w' p k ↔ Pending w p k ∧ p ≠ ev
  | .add timer clock ev => ∀ p k, Pending w' p k ↔
      (p = ev ∧ k = timer + clock ∧ ∀ k', ¬ Pending w ev k') ∨ Pending w p k
  | .delete ev => ∀ p k, Pending w' p k ↔ Pending w p k ∧ p ≠ ev

variable {w w' : World} {rb : RBTree Entry} {now : Key}

theorem exec_alive {c : Call} {fuel : Nat} (h : exec fuel w c = some w') :
    w'.alive = aliveAfter w c := by
  cases c with
  | construct ev => exact Option.some.inj h ▸ rfl
  | destroy ev =>
    obtain ⟨t, -, rfl⟩ := Option.map_eq_some_iff.mp h
    rfl
  | add timer clock ev =>
    obtain ⟨t, -, rfl⟩ := Option.map_eq_some_iff.mp h
    rfl
  | delete ev =>
    obtain ⟨t, -, rfl⟩ := Option.map_eq_some_iff.mp h
    rfl

theorem Holds.not_pending_iff (h : Holds w rb) {ev : Ptr} :
    ev ∉ ptrs rb.toList ↔ ∀ k, ¬ Pending w ev k := by
  constructor
  · intro hnot k hp
    exact hnot (List.mem_map.mpr ⟨_, h.pending_iff.mp hp, rfl⟩)
  · intro hnone hin
    obtain ⟨e, he, rfl⟩ := List.mem_map.mp hin
    exact hnone e.key (h.pending_of_mem he)

theorem Holds.alive_of_pending (h : Holds w rb) {ev : Ptr} {k : Key} (hp : Pending w ev k) :
    w.alive ev = true := (h.own _ (h.pending_iff.mp hp)).1

/-- **寿命の中で行う操作は終わり、決まった event だけが待つようになり、待たなくなる。** -/
theorem Holds.exec_iff (h : Holds w rb) {c : Call} (ha : Allowed w c) :
    ∃ w' rb', Converges (fun fuel => Timer.exec fuel w c) w' ∧ Holds w' rb' ∧
      w'.alive = aliveAfter w c ∧ PendingAfter w w' c := by
  obtain ⟨w', rb', hrun, h', heff⟩ := h.exec ha
  refine ⟨w', rb', hrun, h', exec_alive (hrun.choose_spec _ le_rfl), ?_⟩
  cases c with
  | construct ev =>
    intro p k
    rw [h.pending_iff, h'.pending_iff]
    exact heff _
  | destroy ev =>
    intro p k
    rw [h.pending_iff, h'.pending_iff]
    exact heff _
  | add timer clock ev =>
    intro p k
    rw [h.pending_iff, h'.pending_iff, ← h.not_pending_iff, heff, Entry.mk.injEq]
    tauto
  | delete ev =>
    intro p k
    rw [h.pending_iff, h'.pending_iff]
    exact heff _

/-- どの期限も `now` から `2 ^ 31` 未満の所にある。 -/
def Near (now : Key) (w : World) : Prop :=
  ∀ ev k, Pending w ev k → k.val < now.val + 2 ^ 31 ∧ now.val < k.val + 2 ^ 31

/-- **近くの期限だけなら、loop は期限の来た event を外し、無くなれば終わる。** -/
theorem Holds.turn_near (h : Holds w rb) (hnear : Near now w) :
    (Converges (fun fuel => w.turn fuel now) (none, w) ∧ ∀ ev k, Pending w ev k → now < k) ∨
      ∃ ev k w' rb', Pending w ev k ∧ k ≤ now ∧
        Converges (fun fuel => w.turn fuel now) (some ev, w') ∧ Holds w' rb' ∧
        w'.alive = w.alive ∧ ∀ p k', Pending w' p k' ↔ Pending w p k' ∧ p ≠ ev := by
  by_cases hleaf : rb = .leaf
  · subst hleaf
    refine .inl ⟨h.turn_empty now, fun ev k hp => ?_⟩
    simpa using h.pending_iff.mp hp
  obtain ⟨e, he, hmin, -, hlate, hfire⟩ := h.turn hleaf now
  have hp := h.pending_of_mem he
  obtain ⟨hlt, hlt'⟩ := hnear _ _ hp
  have htest := (s32_iff e.key now).mpr (by unfold InRange; omega)
  by_cases hle : e.key ≤ now
  · obtain ⟨w', rb', hturn, h', -, halive, hmem⟩ := hfire (htest.mpr hle)
    refine .inr ⟨e.ptr, e.key, w', rb', hp, hle, hturn, h', halive, fun p k => ?_⟩
    rw [h'.pending_iff, h.pending_iff]
    exact hmem _
  · refine .inl ⟨hlate (mt htest.mp hle), fun ev k hpk => ?_⟩
    exact lt_of_lt_of_le (not_le.mp hle) (hmin _ (h.pending_iff.mp hpk))

/-! ## 燃料を増やす -/

theorem pureDeleteTimer_steady (t : PureTimer) (ev : Ptr) :
    Steady fun fuel => t.pureDeleteTimer fuel ev := by
  unfold PureTimer.pureDeleteTimer
  split
  · exact (rbDelete_steady _ _).map _
  · exact .const _

/-- どの操作も、燃料を増やしても結果が変わらない。 -/
theorem exec_steady (w : World) (c : Call) : Steady fun fuel => exec fuel w c := by
  cases c with
  | construct ev => exact .const _
  | destroy ev =>
    refine Steady.map ?_ _
    unfold PureTimer.destroy
    split
    · split
      · exact pureDeleteTimer_steady _ _
      · exact .const _
    · exact .const _
  | add timer clock ev =>
    refine Steady.map ?_ _
    unfold PureTimer.pureAddTimer
    split
    · split
      · exact (rbInsert_steady _ _).map _
      · exact .const _
    · exact .const _
  | delete ev => exact (pureDeleteTimer_steady _ _).map _

theorem World.turn_steady (w : World) (now : Key) : Steady fun fuel => w.turn fuel now := by
  refine Steady.map ((treeMinimumNode_steady _).bind fun node => ?_) _
  dsimp only
  split
  · exact .const _
  · split
    · exact (pureDeleteTimer_steady _ _).map _
    · exact .const _

end RecordServer.Timer
