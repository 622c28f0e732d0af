import RecordServer.Infra.Decimal
import RecordServer.Strings.PString
import Mathlib.Tactic.Ring

/-!
# 十進の数は正しく読まれるか

`p_atoof` は溢れを最後の符号だけで見る。

* `parsed` — 返すはずの値。`int` に入らない数は `-1` である
* `pAtoofLoop_digits` — loop の値は、続けた数字の値を `2 ^ 32` を法として畳んだものである
* `pAtoof_exact_iff` — 正しいのは、値が `int` に入るか、畳んだ値が負になるときに限る
-/

namespace RecordServer.Strings

open Infra

/-- 数字だけの空でない列で、値が `int` に入るなら値、そうでなければ `-1`。 -/
def parsed (line : Bytes) : Int :=
  if line ≠ [] ∧ Digits line ∧ decValue line ≤ 2 ^ 31 - 1 then decValue line else -1

/-- `p_atoof` は `line` の値をちょうど返すか、`-1` を返す。 -/
def Exact (line : Bytes) : Prop := pAtoof line = parsed line

theorem not_isDigit {b : UInt8} : ¬IsDigit b ↔ b < 48 ∨ b > 57 := by
  rw [IsDigit, not_and_or, UInt8.not_le, UInt8.not_le]

/-- 一桁読む計算は、畳む前の値にしても同じである。 -/
theorem bmod_step (n : Nat) {b : UInt8} (hb : IsDigit b) :
    Int.bmod (Int.bmod n (2 ^ 32) * 10 + (b.toNat - 48)) (2 ^ 32)
      = Int.bmod ((n * 10 + (b.toNat - 48) : Nat)) (2 ^ 32) := by
  have hge : 48 ≤ b.toNat := hb.1
  calc Int.bmod (Int.bmod n (2 ^ 32) * 10 + (b.toNat - 48)) (2 ^ 32)
      = Int.bmod (Int.bmod (Int.bmod n (2 ^ 32) * 10) (2 ^ 32) + (b.toNat - 48)) (2 ^ 32) :=
        Int.bmod_add_bmod.symm
    _ = Int.bmod (n * 10 + (b.toNat - 48)) (2 ^ 32) := by
        rw [Int.bmod_mul_bmod, Int.bmod_add_bmod]
    _ = Int.bmod ((n * 10 + (b.toNat - 48) : Nat)) (2 ^ 32) := by
        congr 1
        omega

/-- 数字だけなら、loop は全部の値を畳んで符号を見る。 -/
theorem pAtoofLoop_digits {line : Bytes} (h : Digits line) (n : Nat) :
    pAtoofLoop line (Int.bmod n (2 ^ 32)) =
      if Int.bmod (decFrom n line) (2 ^ 32) < 0 then -1 else Int.bmod (decFrom n line) (2 ^ 32) := by
  induction line generalizing n with
  | nil => rfl
  | cons b line ih =>
    obtain ⟨hb, hline⟩ := digits_cons.mp h
    rw [pAtoofLoop, if_neg (not_isDigit.not.mp (not_not.mpr hb)), bmod_step n hb]
    exact ih hline _

/-- 数字でない byte があれば、loop は `-1` を返す。 -/
theorem pAtoofLoop_of_not_digits {line : Bytes} (h : ¬Digits line) (value : Int) :
    pAtoofLoop line value = -1 := by
  induction line generalizing value with
  | nil => exact absurd (fun _ hb => absurd hb List.not_mem_nil) h
  | cons b line ih =>
    rw [pAtoofLoop]
    split
    · rfl
    · next hb =>
      have hdigit : IsDigit b := not_not.mp (not_isDigit.not.mpr hb)
      exact ih (fun hline => h (digits_cons.mpr ⟨hdigit, hline⟩)) _

/-- 畳んだ値の符号を見て返す値が正しいとき。 -/
theorem wrapped_eq_iff (v : Nat) :
    ((if Int.bmod v (2 ^ 32) < 0 then -1 else Int.bmod v (2 ^ 32)) =
        if v ≤ 2 ^ 31 - 1 then (v : Int) else -1) ↔
      v ≤ 2 ^ 31 - 1 ∨ 2 ^ 31 ≤ v % 2 ^ 32 := by
  rw [Int.bmod_def]
  by_cases hfits : v ≤ 2 ^ 31 - 1
  · rw [if_pos hfits]
    split_ifs <;> omega
  · rw [if_neg hfits]
    by_cases hsign : 2 ^ 31 ≤ v % 2 ^ 32
    · refine iff_of_true ?_ (.inr hsign)
      split_ifs <;> omega
    · refine iff_of_false ?_ (not_or.mpr ⟨hfits, hsign⟩)
      split_ifs <;> omega

/-- **`p_atoof` が正しいのは、数字でない byte があるか、値が `int` に入るか、`2 ^ 32` を法とした値が
`2 ^ 31` 以上のときに限る。** -/
theorem pAtoof_exact_iff (line : Bytes) :
    Exact line ↔ ¬Digits line ∨ decValue line ≤ 2 ^ 31 - 1 ∨ 2 ^ 31 ≤ decValue line % 2 ^ 32 := by
  unfold Exact
  by_cases hdig : Digits line
  · cases line with
    | nil => exact iff_of_true rfl (.inr (.inl (Nat.zero_le _)))
    | cons b line =>
      have hloop := pAtoofLoop_digits hdig 0
      rw [show Int.bmod (0 : Nat) (2 ^ 32) = 0 by decide, ← decValue] at hloop
      rw [pAtoof, if_neg (by simp), hloop, parsed]
      simp only [hdig, ne_eq, reduceCtorEq, not_false_eq_true, true_and, not_true_eq_false, false_or]
      exact wrapped_eq_iff _
  · refine iff_of_true ?_ (.inl hdig)
    rw [parsed, if_neg fun h => hdig h.2.1, pAtoof]
    split
    · rfl
    · exact pAtoofLoop_of_not_digits hdig 0

/-- 4294967296 は 0 と読まれる。 -/
theorem overflow_reads_zero : ¬Exact (ascii "4294967296") := by
  unfold Exact
  decide

end RecordServer.Strings
