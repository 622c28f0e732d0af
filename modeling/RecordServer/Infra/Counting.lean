import Mathlib.Algebra.Order.BigOperators.Group.Finset
import Mathlib.Data.Finset.Card
import Mathlib.Logic.Function.Basic

/-!
# 一つの値を書き換えたときの数

`count S P f` は、`S` の中で `f` の値が `P` を満たすものの数である。一箇所だけ値を書き換えると、
数は高々一つしか変わらない。

* `count_update` — 書き換えの前後の数の釣り合い
* `count_eq_zero`、`count_eq_card` — どれも満たさないとき、すべてが満たすとき
-/

namespace RecordServer.Infra

variable {ι α : Type*}

/-- `S` の中で、`f` の値が `P` を満たすものの数。 -/
def count (S : Finset ι) (P : α → Bool) (f : ι → α) : Nat := ∑ i ∈ S, (P (f i)).toNat

variable {S : Finset ι} {P : α → Bool} {f : ι → α}

theorem count_eq_zero : count S P f = 0 ↔ ∀ i ∈ S, P (f i) = false := by
  simp [count, Finset.sum_eq_zero_iff]

theorem count_le : count S P f ≤ S.card := by
  refine (Finset.sum_le_card_nsmul S _ 1 fun i _ => Bool.toNat_le _).trans ?_
  simp

theorem count_eq_card (h : ∀ i ∈ S, P (f i) = true) : count S P f = S.card := by
  unfold count
  rw [Finset.sum_congr rfl fun i hi => by rw [h i hi]]
  simp

variable [DecidableEq ι]

/-- 書き換える前の値の分を足し戻すと、釣り合う。 -/
theorem count_update {i : ι} (hi : i ∈ S) (v : α) :
    count S P (Function.update f i v) + (P (f i)).toNat = count S P f + (P v).toNat := by
  have hrest : ∑ j ∈ S.erase i, (P (Function.update f i v j)).toNat =
      ∑ j ∈ S.erase i, (P (f j)).toNat := by
    refine Finset.sum_congr rfl fun j hj => ?_
    rw [Function.update_of_ne (Finset.ne_of_mem_erase hj)]
  have hnew := Finset.add_sum_erase S (fun j => (P (Function.update f i v j)).toNat) hi
  have hold := Finset.add_sum_erase S (fun j => (P (f j)).toNat) hi
  rw [Function.update_self, hrest] at hnew
  unfold count
  omega

end RecordServer.Infra
