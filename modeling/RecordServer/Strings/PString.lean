import RecordServer.Infra.Bytes
import RecordServer.Infra.Span
import Mathlib.Algebra.Group.Nat.Defs
import Mathlib.Algebra.Group.Int.Defs

/-!
# 文字列の関数（`p_string.cpp`）

書き込み先は、どの添字にも値を持つ memory と、書いた範囲の記録で表す。領域の大きさは持たない。

* `rcStrncpy` — 長さを限って写し、0 で終える
* `pAtoof` — 十進の数を読む
-/

namespace RecordServer.Strings

open Infra

/-! ## 写す -/

/-- 書き込み先 `dest` と、そこへの書き込み。 -/
structure Dest where
  mem : Int → UInt8
  spans : List Span

/-- `dest[i] = b` -/
def Dest.set (d : Dest) (i : Int) (b : UInt8) : Dest where
  mem j := if j = i then b else d.mem j
  spans := d.spans ++ [⟨i, 1⟩]

/-- `strncpy(dest, src, n)`。ちょうど `n` byte を書き、`src` の終わりから後は 0 にする。 -/
def strncpy (d : Dest) (src : Bytes) (n : Nat) : Dest where
  mem j := if 0 ≤ j ∧ j < n then (cstr src).getD j.toNat 0 else d.mem j
  spans := d.spans ++ [⟨0, n⟩]

/-- `int` を `size_t` として見た値。 -/
def sizeT (n : Int) : Nat := (n % 2 ^ 64).toNat

/-- `rc_strncpy(dest, d_l, src, s_l)` -/
def rcStrncpy (d : Dest) (dl : Int) (src : Bytes) (sl : Int) : Dest :=
  if sl < dl - 1 then (strncpy d src (sizeT sl)).set sl 0
  else (strncpy d src (sizeT (dl - 1))).set (dl - 1) 0

/-! ## 数 -/

/-- `p_atoof` の loop。`int` の計算は `2 ^ 32` を法とする。 -/
def pAtoofLoop : Bytes → Int → Int
  | [], value => if value < 0 then -1 else value
  | b :: line, value =>
    -- `char` に符号があっても、128 からの byte は数字の範囲に入らない
    if b < 48 ∨ b > 57 then -1
    else pAtoofLoop line (Int.bmod (value * 10 + (b.toNat - 48)) (2 ^ 32))

/-- `p_atoof(line, n)`。`line` の `n` byte を渡す。 -/
def pAtoof (line : Bytes) : Int := if line.length = 0 then -1 else pAtoofLoop line 0

end RecordServer.Strings
