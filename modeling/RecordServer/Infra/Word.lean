import Mathlib.Algebra.Group.Int.Defs
import Mathlib.Algebra.Group.Nat.Defs
import Mathlib.Data.Nat.Basic

/-!
# 32 bit の整数

`u32` の値は `Nat`、`s32` の値は `Int` で持ち、`u32` への代入のたびに `2 ^ 32` で割った余りを取る。

* `u32` — `u32` への代入
* `s32ToU32` — `s32` から `u32` への変換
* `subU32` — `u32` の引き算
-/

namespace RecordServer.Infra

/-- `u32` に収める。 -/
def u32 (n : Nat) : Nat := n % 2 ^ 32

/-- `s32` から `u32` への変換。 -/
def s32ToU32 (n : Int) : Nat := (n % 2 ^ 32).toNat

/-- `u32` の引き算。 -/
def subU32 (a b : Nat) : Nat := (2 ^ 32 - b + a) % 2 ^ 32

theorem u32_lt (n : Nat) : u32 n < 2 ^ 32 := Nat.mod_lt _ (by decide)

theorem u32_of_lt {n : Nat} (h : n < 2 ^ 32) : u32 n = n := Nat.mod_eq_of_lt h

/-- 途中で収めても和は変わらない。 -/
theorem u32_add (n k : Nat) : u32 (u32 n + k) = u32 (n + k) := by simp [u32]

theorem subU32_lt (a b : Nat) : subU32 a b < 2 ^ 32 := Nat.mod_lt _ (by decide)

/-- 借りの無い引き算は自然数の引き算である。 -/
theorem subU32_of_le {a b : Nat} (h : b ≤ a) (ha : a < 2 ^ 32) : subU32 a b = a - b := by
  unfold subU32
  omega

/-- 負でない `s32` は、`u32` にしても変わらない。 -/
theorem s32ToU32_of_nonneg {n : Int} (h0 : 0 ≤ n) (hn : n < 2 ^ 31) : s32ToU32 n = n.toNat := by
  rw [s32ToU32, Int.emod_eq_of_lt h0 (by omega)]

end RecordServer.Infra
