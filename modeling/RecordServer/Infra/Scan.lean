import Mathlib.Data.List.TakeWhile

/-!
# 極大な並び

字句を先頭から取り出す。`Run c p w q` は、`p` の先頭から `c` を満たす文字を取れるだけ取ると
`w` になり、`q` が残ることをいう。取れる字句は一つに決まる。
-/

namespace RecordServer.Infra

variable {α : Type*} {c : α → Bool} {p w q w' q' : List α}

/-- `p` の先頭の、`c` を満たす空でない極大な並び `w` と、その残り `q`。 -/
structure Run (c : α → Bool) (p w q : List α) : Prop where
  split : p = w ++ q
  nonempty : w ≠ []
  all : ∀ b ∈ w, c b = true
  maximal : ∀ b, q.head? = some b → c b = false

theorem Run.takeWhile_eq (h : Run c p w q) : p.takeWhile c = w := by
  rw [h.split, List.takeWhile_append_of_pos h.all]
  cases q with
  | nil => simp
  | cons b q => simp [h.maximal b rfl]

theorem Run.dropWhile_eq (h : Run c p w q) : p.dropWhile c = q := by
  rw [h.split, List.dropWhile_append_of_pos h.all]
  cases q with
  | nil => simp
  | cons b q => simp [h.maximal b rfl]

/-- 取れる並びは一つに決まる。 -/
theorem Run.unique (h : Run c p w q) (h' : Run c p w' q') : w = w' ∧ q = q' :=
  ⟨h.takeWhile_eq.symm.trans h'.takeWhile_eq, h.dropWhile_eq.symm.trans h'.dropWhile_eq⟩

theorem Run.of_head {b : α} {rest : List α} (hb : c b = true) :
    Run c (b :: rest) ((b :: rest).takeWhile c) ((b :: rest).dropWhile c) where
  split := List.takeWhile_append_dropWhile.symm
  nonempty := by simp [hb]
  all := fun _ hx => List.mem_takeWhile_imp hx
  maximal := by
    intro x hx
    have h := List.head?_dropWhile_not c (b :: rest)
    simpa [hx] using h

theorem Run.suffix (h : Run c p w q) : q <:+ p := ⟨w, h.split.symm⟩

theorem Run.length_lt (h : Run c p w q) : q.length < p.length := by
  have hw := List.length_pos_iff.mpr h.nonempty
  rw [h.split, List.length_append]
  omega

/-- 並びの先頭の文字。 -/
theorem Run.head (h : Run c p w q) : ∃ b w', w = b :: w' ∧ p = b :: (w' ++ q) ∧ c b = true := by
  obtain ⟨b, w', rfl⟩ := List.exists_cons_of_ne_nil h.nonempty
  exact ⟨b, w', rfl, h.split, h.all b List.mem_cons_self⟩

/-- 並びは、そこに現れる文字の上で一致する述語なら同じになる。 -/
theorem Run.congr {d : α → Bool} (h : Run c p w q) (hcd : ∀ b ∈ p, c b = d b) : Run d p w q where
  split := h.split
  nonempty := h.nonempty
  all := by
    intro b hb
    rw [← hcd b (h.split ▸ List.mem_append_left q hb)]
    exact h.all b hb
  maximal := by
    intro b hb
    have hmem : b ∈ p := h.split ▸ List.mem_append_right w (List.mem_of_mem_head? hb)
    rw [← hcd b hmem]
    exact h.maximal b hb

end RecordServer.Infra
