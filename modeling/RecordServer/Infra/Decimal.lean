import RecordServer.Infra.Bytes
import Mathlib.Algebra.Group.Nat.Defs

/-!
# 十進の数字の列

* `Digits` — どの byte も数字である
* `decValue` — 数字の列の値
* `decValue_repr` — 書いた数を読み戻すと元の値になる
-/

namespace RecordServer.Infra

/-- `'0'` から `'9'` まで。 -/
def IsDigit (b : UInt8) : Prop := 48 ≤ b ∧ b ≤ 57

instance (b : UInt8) : Decidable (IsDigit b) := inferInstanceAs (Decidable (_ ∧ _))

def Digits (s : Bytes) : Prop := ∀ b ∈ s, IsDigit b

instance (s : Bytes) : Decidable (Digits s) := List.decidableBAll IsDigit s

/-- `n` の後に数字の列 `s` を続けた値。 -/
def decFrom (n : Nat) (s : Bytes) : Nat := s.foldl (fun n b => n * 10 + (b.toNat - 48)) n

/-- 数字の列の値。空の列は 0 である。 -/
def decValue (s : Bytes) : Nat := decFrom 0 s

@[simp] theorem decFrom_nil (n : Nat) : decFrom n [] = n := List.foldl_nil

@[simp] theorem decFrom_cons (n : Nat) (b : UInt8) (s : Bytes) :
    decFrom n (b :: s) = decFrom (n * 10 + (b.toNat - 48)) s := List.foldl_cons ..

theorem digits_cons {b : UInt8} {s : Bytes} : Digits (b :: s) ↔ IsDigit b ∧ Digits s :=
  List.forall_mem_cons

theorem digits_repr (n : Nat) : Digits (ascii (Nat.repr n)) := fun _ hb => digit_of_mem_repr hb

theorem repr_ne_nil (n : Nat) : ascii (Nat.repr n) ≠ [] := by
  rw [ascii_eq_utf8, Nat.toList_repr]
  cases hd : Nat.toDigits 10 n with
  | nil => exact absurd hd Nat.toDigits_ne_nil
  | cons c cs =>
    intro hnil
    have hlen := congrArg List.length hnil
    rw [utf8, List.flatMap_cons, List.length_append, String.length_utf8EncodeChar] at hlen
    have := c.utf8Size_pos
    simp at hlen
    omega

/-- 文字の列の値と、byte の列の値は同じである。 -/
theorem decFrom_utf8 {cs : List Char} (hcs : ∀ c ∈ cs, c.isDigit = true) (n : Nat) :
    decFrom n (utf8 cs) = Nat.ofDigitChars 10 cs n := by
  induction cs generalizing n with
  | nil => simp [utf8]
  | cons c cs ih =>
    obtain ⟨hc, hcs⟩ := List.forall_mem_cons.mp hcs
    have hdigit := Char.isDigit_iff_toNat.mp hc
    have hhigh : c.toNat ≤ 57 := hdigit.2
    have hval : (UInt8.ofNat c.toNat).toNat = c.toNat := by
      rw [UInt8.toNat_ofNat']
      omega
    rw [show utf8 (c :: cs) = utf8 [c] ++ utf8 cs by rw [← utf8_append]; rfl,
      show utf8 [c] = [UInt8.ofNat c.toNat] by
        simp [utf8, utf8EncodeChar_of_lt (by omega : c.toNat < 128)],
      List.singleton_append, decFrom_cons, hval, ih hcs, Nat.ofDigitChars_cons, Nat.mul_comm n]
    rfl

/-- 書いた数を読み戻すと元の値になる。 -/
theorem decValue_repr (n : Nat) : decValue (ascii (Nat.repr n)) = n := by
  rw [ascii_eq_utf8, Nat.toList_repr, decValue, decFrom_utf8, Nat.ofDigitChars_ten_toDigits]
  exact fun c hc => Nat.isDigit_of_mem_toDigits (by decide) (by decide) hc

theorem length_utf8_digits {cs : List Char} (hcs : ∀ c ∈ cs, c.isDigit = true) :
    (utf8 cs).length = cs.length := by
  induction cs with
  | nil => rfl
  | cons c cs ih =>
    obtain ⟨hc, hcs⟩ := List.forall_mem_cons.mp hcs
    have hhigh : c.toNat ≤ 57 := (Char.isDigit_iff_toNat.mp hc).2
    rw [utf8, List.flatMap_cons, utf8EncodeChar_of_lt (by omega)]
    exact congrArg Nat.succ (ih hcs)

/-- `k` 桁に入る数は `k` 文字までで書ける。 -/
theorem length_repr_le {n k : Nat} (hk : 0 < k) (h : n < 10 ^ k) :
    (ascii (Nat.repr n)).length ≤ k := by
  rw [ascii_eq_utf8, Nat.toList_repr, length_utf8_digits]
  · exact (Nat.length_toDigits_le_iff (by decide) hk).mpr h
  · exact fun c hc => Nat.isDigit_of_mem_toDigits (by decide) (by decide) hc

end RecordServer.Infra
