import RecordServer.Infra.Bytes
import Mathlib.Data.List.GetD

/-!
# 大きさの決まった領域

`malloc` で得た領域を、大きさと中身で表す。領域を越える書き込みは未定義なので `none` である。
-/

namespace RecordServer.Infra

structure Buffer where
  size : Nat
  mem : Nat → UInt8

namespace Buffer

variable {b b' : Buffer} {i j n : Nat} {w : Bytes}

/-- 添字 `i` から `w` を書く。 -/
def write (b : Buffer) (i : Nat) (w : Bytes) : Option Buffer :=
  if i + w.length ≤ b.size then
    some { b with mem := fun j => if i ≤ j ∧ j < i + w.length then w.getD (j - i) 0 else b.mem j }
  else none

/-- 大きさを変える。増えた部分の中身は決まらない（`fresh`）。 -/
def realloc (b : Buffer) (size : Nat) (fresh : Nat → UInt8) : Buffer :=
  ⟨size, fun j => if j < b.size then b.mem j else fresh j⟩

/-- 先頭の `n` byte。 -/
def contents (b : Buffer) (n : Nat) : Bytes := (List.range n).map b.mem

/-- 領域に収まる書き込みは、そこだけを変える。 -/
theorem write_eq_some (h : i + w.length ≤ b.size) :
    ∃ b', b.write i w = some b' ∧ b'.size = b.size ∧
      (∀ j, i ≤ j → j < i + w.length → b'.mem j = w.getD (j - i) 0) ∧
      (∀ j, j < i ∨ i + w.length ≤ j → b'.mem j = b.mem j) := by
  refine ⟨_, if_pos h, rfl, ?_, ?_⟩
  · intro j h₁ h₂
    exact if_pos ⟨h₁, h₂⟩
  · intro j hj
    exact if_neg (by omega)

theorem write_eq_none (h : b.size < i + w.length) : b.write i w = none :=
  if_neg (Nat.not_le.mpr h)

theorem realloc_mem {fresh : Nat → UInt8} (h : j < b.size) : (b.realloc n fresh).mem j = b.mem j :=
  if_pos h

theorem contents_eq (h : ∀ j, j < w.length → b.mem j = w.getD j 0) : b.contents w.length = w := by
  refine List.ext_getElem (by simp [contents]) ?_
  intro j hj hj'
  have hmem := h j hj'
  rw [List.getD_eq_getElem _ _ hj'] at hmem
  simpa [contents] using hmem

end Buffer

end RecordServer.Infra
