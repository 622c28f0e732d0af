import Mathlib.Algebra.Order.BigOperators.Group.Finset
import Mathlib.Algebra.Order.Group.Int
import Mathlib.Data.Int.Interval
import Mathlib.Logic.Function.Basic

/-!
# 最小のところに足していく

有限個の数のうち最小の一つに 1 を足すことを繰り返すと、どの二つの差も 1 を超えない。

* `WithinOne.bump` — 最小のところに 1 を足しても偏らない
* `sum_bump` — 和は 1 増える
* `card_mul_min_le` — 最小の値は平均を超えない
-/

namespace RecordServer.Infra

variable {ι : Type*} {S : Finset ι} {f : ι → ℤ} {i : ι}

/-- どの二つの差も 1 以下である。 -/
def WithinOne (S : Finset ι) (f : ι → ℤ) : Prop := ∀ i ∈ S, ∀ j ∈ S, f i ≤ f j + 1

/-- `S` の中で `f` が最小になるところ。 -/
def LeastAt (S : Finset ι) (f : ι → ℤ) (i : ι) : Prop := i ∈ S ∧ ∀ j ∈ S, f i ≤ f j

theorem card_mul_min_le (h : LeastAt S f i) : (S.card : ℤ) * f i ≤ ∑ j ∈ S, f j := by
  have hle := Finset.card_nsmul_le_sum S f (f i) h.2
  rwa [nsmul_eq_mul] at hle

theorem sum_le_card_mul {m : ℤ} (h : ∀ j ∈ S, f j ≤ m) : ∑ j ∈ S, f j ≤ (S.card : ℤ) * m := by
  have hle := Finset.sum_le_card_nsmul S f m h
  rwa [nsmul_eq_mul] at hle

variable [DecidableEq ι]

theorem sum_bump (hi : i ∈ S) :
    ∑ j ∈ S, Function.update f i (f i + 1) j = ∑ j ∈ S, f j + 1 := by
  have hrest : ∑ j ∈ S.erase i, Function.update f i (f i + 1) j = ∑ j ∈ S.erase i, f j :=
    Finset.sum_congr rfl fun j hj => Function.update_of_ne (Finset.ne_of_mem_erase hj) _ _
  have hnew := Finset.add_sum_erase S (Function.update f i (f i + 1)) hi
  have hold := Finset.add_sum_erase S f hi
  rw [Function.update_self, hrest] at hnew
  omega

theorem WithinOne.bump (h : WithinOne S f) (hi : LeastAt S f i) :
    WithinOne S (Function.update f i (f i + 1)) := by
  intro j hj k hk
  have hjk := h j hj k hk
  have hmin := hi.2 k hk
  by_cases hji : j = i <;> by_cases hki : k = i
  · rw [hji, hki]
    omega
  · rw [hji, Function.update_self, Function.update_of_ne hki]
    omega
  · rw [hki, Function.update_self, Function.update_of_ne hji]
    have := h j hj i hi.1
    omega
  · rw [Function.update_of_ne hji, Function.update_of_ne hki]
    exact hjk

end RecordServer.Infra
