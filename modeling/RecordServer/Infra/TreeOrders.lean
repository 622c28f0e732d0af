import RecordServer.Infra.RBTree
import Mathlib.Data.List.Perm.Basic

/-!
# 木の前順と後順

赤黒木の節を前順・後順に並べる。どちらも中順の並べ替えである。

* `pairwise_preorder_iff` — 中順に並んだ木で前順も並ぶのは、左の子が親と同じ値のときに限る
* `Before` / `before_postorder` — 後順では、子孫が先に来る
-/

namespace RecordServer.Infra

/-- 列 `l` の中で、ある `b` より前に `a` がある。 -/
def Before {β : Type*} (a b : β) (l : List β) : Prop := ∃ l₁ l₂, l = l₁ ++ b :: l₂ ∧ a ∈ l₁

theorem Before.map {α β : Type*} {a b : α} {l : List α} (h : Before a b l) (f : α → β) :
    Before (f a) (f b) (l.map f) := by
  obtain ⟨l₁, l₂, rfl, ha⟩ := h
  exact ⟨l₁.map f, l₂.map f, by simp, List.mem_map_of_mem ha⟩

namespace RBTree

variable {α β : Type*}

/-- 根の要素。 -/
def root? : RBTree α → Option α
  | .leaf => none
  | .node _ _ a _ => some a

/-- 前順の要素の列。 -/
def preorder : RBTree α → List α
  | .leaf => []
  | .node _ l a r => a :: (l.preorder ++ r.preorder)

/-- 後順の要素の列。 -/
def postorder : RBTree α → List α
  | .leaf => []
  | .node _ l a r => l.postorder ++ (r.postorder ++ [a])

theorem preorder_perm (t : RBTree α) : t.preorder.Perm t.toList := by
  induction t with
  | leaf => exact .refl _
  | node c l a r ihl ihr => exact ((ihl.append ihr).cons a).trans List.perm_middle.symm

theorem postorder_perm (t : RBTree α) : t.postorder.Perm t.toList := by
  induction t with
  | leaf => exact .refl _
  | node c l a r ihl ihr => exact ihl.append ((ihr.append_right [a]).trans List.perm_append_comm)

theorem mem_root? {t : RBTree α} {b : α} (h : t.root? = some b) : b ∈ t.toList := by
  cases t with
  | leaf => cases h
  | node c l a r =>
    obtain rfl := Option.some.inj h
    simp

/-! ## 前順が並ぶとき -/

/-- どの左の子も、親と同じ値を持つ。 -/
def LeftTied (f : α → β) : RBTree α → Prop
  | .leaf => True
  | .node _ l a r => (∀ b, l.root? = some b → f b = f a) ∧ l.LeftTied f ∧ r.LeftTied f

section

variable [LinearOrder β] {f : α → β}

theorem le_of_preorder {t : RBTree α} {b x : α} (h : t.preorder.Pairwise fun x y => f x ≤ f y)
    (hb : t.root? = some b) (hx : x ∈ t.toList) : f b ≤ f x := by
  cases t with
  | leaf => cases hb
  | node c l a r =>
    obtain rfl := Option.some.inj hb
    rcases List.mem_cons.mp ((preorder_perm _).mem_iff.mpr hx) with rfl | hx
    · exact le_refl _
    · exact (List.pairwise_cons.mp h).1 x hx

/-- **中順に並んだ木で前順も並ぶのは、どの左の子も親と同じ値を持つときに限る。** -/
theorem pairwise_preorder_iff {t : RBTree α} (h : t.toList.Pairwise fun x y => f x ≤ f y) :
    (t.preorder.Pairwise fun x y => f x ≤ f y) ↔ t.LeftTied f := by
  induction t with
  | leaf => exact iff_of_true List.Pairwise.nil trivial
  | node c l a r ihl ihr =>
    obtain ⟨hl, har, hlar⟩ := List.pairwise_append.mp h
    obtain ⟨har, hr⟩ := List.pairwise_cons.mp har
    have hla : ∀ x ∈ l.toList, f x ≤ f a := fun x hx => hlar x hx a List.mem_cons_self
    constructor
    · intro hpre
      obtain ⟨ha, hrest⟩ := List.pairwise_cons.mp hpre
      obtain ⟨hl', hr', -⟩ := List.pairwise_append.mp hrest
      refine ⟨fun b hb => ?_, (ihl hl).mp hl', (ihr hr).mp hr'⟩
      have hmem := mem_root? hb
      have hpre := (preorder_perm l).mem_iff.mpr hmem
      exact le_antisymm (hla b hmem) (ha b (List.mem_append_left _ hpre))
    · rintro ⟨hroot, htl, htr⟩
      have hl' := (ihl hl).mpr htl
      -- 左の部分木は根が最も小さく、その根が親と同じ値である
      have hal : ∀ x ∈ l.toList, f a ≤ f x := by
        intro x hx
        cases hl₀ : l.root? with
        | none =>
          cases l with
          | leaf => simp at hx
          | node c' l' a' r' => cases hl₀
        | some b => exact (hroot b hl₀).symm.le.trans (le_of_preorder hl' hl₀ hx)
      refine List.pairwise_cons.mpr ⟨fun x hx => ?_,
        List.pairwise_append.mpr ⟨hl', (ihr hr).mpr htr, fun x hx y hy => ?_⟩⟩
      · rcases List.mem_append.mp hx with hx | hx
        · exact hal x ((preorder_perm l).mem_iff.mp hx)
        · exact har x ((preorder_perm r).mem_iff.mp hx)
      · exact (hla x ((preorder_perm l).mem_iff.mp hx)).trans
          (har y ((preorder_perm r).mem_iff.mp hy))

end

/-! ## 後順の前後 -/

theorem before_of_append {a b : β} {l l₁ l₂ : List β} (h : Before a b l) :
    Before a b (l₁ ++ l ++ l₂) := by
  obtain ⟨k₁, k₂, rfl, ha⟩ := h
  exact ⟨l₁ ++ k₁, k₂ ++ l₂, by simp, List.mem_append_right _ ha⟩

/-- 穴に入れた部分木の後順は、全体の後順の一続きの部分である。 -/
theorem postorder_fill (path : Path α) (t : RBTree α) :
    ∃ l₁ l₂, (Infra.fill path t).postorder = l₁ ++ t.postorder ++ l₂ := by
  induction path generalizing t with
  | nil => exact ⟨[], [], by simp [Infra.fill]⟩
  | cons g path ih =>
    obtain ⟨l₁, l₂, heq⟩ := ih (g.fill t)
    rw [fill_cons, heq]
    obtain ⟨d, c, a, sibling⟩ := g
    cases d with
    | left => exact ⟨l₁, sibling.postorder ++ [a] ++ l₂, by simp [Frame.fill, postorder]⟩
    | right => exact ⟨l₁ ++ sibling.postorder, [a] ++ l₂, by simp [Frame.fill, postorder]⟩

/-- **後順では、節はその子孫の後に来る。** -/
theorem before_postorder (path : Path α) {c : Colour} {l r : RBTree α} {a x : α}
    (hx : x ∈ l.toList ∨ x ∈ r.toList) :
    Before x a (Infra.fill path (.node c l a r)).postorder := by
  obtain ⟨l₁, l₂, heq⟩ := postorder_fill path (.node c l a r)
  rw [heq]
  refine before_of_append ⟨l.postorder ++ r.postorder, [], by simp [postorder], ?_⟩
  rcases hx with hx | hx
  · exact List.mem_append_left _ ((postorder_perm l).mem_iff.mpr hx)
  · exact List.mem_append_right _ ((postorder_perm r).mem_iff.mpr hx)

end RBTree

end RecordServer.Infra
