import Mathlib.Data.Int.Basic

/-!
# 書き込みの及ぶ範囲

一回の書き込みを、初めの番地（または添字）と byte の数で表す。

* `Span.within_iff` — 書き込みが `[lo, hi)` に収まるかは両端でわかる
* `AllWithin` — 書き込みの列が収まる
-/

namespace RecordServer.Infra

/-- `start` から `size` byte。 -/
structure Span where
  start : Int
  size : Nat
deriving DecidableEq, Repr

variable {lo hi : Int} {s : Span} {ss ts : List Span}

/-- 番地 `i` に書く。 -/
def Span.Touches (s : Span) (i : Int) : Prop := s.start ≤ i ∧ i < s.start + s.size

/-- 書くのは `[lo, hi)` の中だけである。 -/
def Span.Within (lo hi : Int) (s : Span) : Prop := ∀ i, s.Touches i → lo ≤ i ∧ i < hi

theorem Span.within_iff : s.Within lo hi ↔ s.size = 0 ∨ lo ≤ s.start ∧ s.start + s.size ≤ hi := by
  constructor
  · intro h
    by_cases hsize : s.size = 0
    · exact .inl hsize
    · have hfirst := h s.start ⟨Int.le_refl _, by omega⟩
      have hlast := h (s.start + s.size - 1) ⟨by omega, by omega⟩
      exact .inr ⟨hfirst.1, by omega⟩
  · rintro (hsize | ⟨hlo, hhi⟩) i ⟨h₁, h₂⟩
    · omega
    · omega

instance : Decidable (s.Within lo hi) := decidable_of_iff' _ Span.within_iff

/-- どの書き込みも `[lo, hi)` の中だけに書く。 -/
def AllWithin (lo hi : Int) (ss : List Span) : Prop := ∀ s ∈ ss, s.Within lo hi

instance : Decidable (AllWithin lo hi ss) := inferInstanceAs (Decidable (∀ s ∈ ss, _))

@[simp] theorem allWithin_nil : AllWithin lo hi [] := fun _ h => absurd h List.not_mem_nil

@[simp] theorem allWithin_cons : AllWithin lo hi (s :: ss) ↔ s.Within lo hi ∧ AllWithin lo hi ss :=
  List.forall_mem_cons

@[simp] theorem allWithin_append :
    AllWithin lo hi (ss ++ ts) ↔ AllWithin lo hi ss ∧ AllWithin lo hi ts :=
  List.forall_mem_append

end RecordServer.Infra
