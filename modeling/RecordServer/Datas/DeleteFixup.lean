import RecordServer.Datas.Insert

/-!
# 削除の後始末（`rb_delete_fixup`）

`x` の部分木は黒の高さが一つ足りない。`x` は番兵のこともあり、そのときは番兵の `parent` が穴の親を
指している。兄弟は必ず節なので、番兵の `parent` は回転に壊されない。

* `DeleteInv` — loop の不変量
* `DeleteInv.step` — 一回りで不変量が保たれ、残りの回数が減る
* `rbDeleteFixup_spec` — loop は止まり、平衡した木を残す
-/

namespace RecordServer.Datas

open Infra

variable {s s' : PureRbtree} {path : Path Entry}

/-- `x` の `parent` が、穴の親を指す。`x` が番兵のときも含む。 -/
def HoleParent (s : PureRbtree) (path : Path Entry) (X : RBTree Entry) : Prop :=
  s.parent (rootPtr s.nil X) = parentPtr s.nil path

theorem HoleParent.of_ne_leaf {X : RBTree Entry} (h : Shows s (fill path X)) (hX : X ≠ .leaf) :
    HoleParent s path X := h.parent_rootPtr hX

/-- 番兵の cell が変わらず、穴の親も同じなら、`x` の `parent` は穴の親のままである。 -/
theorem HoleParent.congr {path' : Path Entry} {X : RBTree Entry} (h : HoleParent s path X)
    (hsame : SameNil s s') (hshow : Shows s' (fill path' X))
    (hpar : parentPtr s.nil path' = parentPtr s.nil path) : HoleParent s' path' X := by
  cases X with
  | leaf =>
    unfold HoleParent PureRbtree.parent at *
    rw [rootPtr, hsame.1, hsame.2, hpar]
    exact h
  | node => exact .of_ne_leaf hshow (by simp)

section Step

variable {d e : Side} {c c' : Colour} {X W wl wr a b : RBTree Entry} {p we le : Entry}

/-- 穴の兄弟の木を、穴の位置に置き換えて見る。 -/
theorem fill_swap (d : Side) (c : Colour) (p : Entry) (X W : RBTree Entry) (path : Path Entry) :
    fill (⟨d.other, c, p, X⟩ :: path) W = fill (⟨d, c, p, W⟩ :: path) X := by
  simp only [fill_cons, Frame.fill, RBTree.mk_other]

theorem Shows.swap (h : Shows s (fill (⟨d, c, p, W⟩ :: path) X)) :
    Shows s (fill (⟨d.other, c, p, X⟩ :: path) W) := by
  rw [fill_swap]
  exact h

/-- 兄弟が赤いとき。親を回し、黒い兄弟に替える。 -/
theorem deleteFixupSibling_red
    (h : Shows s (fill (⟨d, c, p, .mk d .red wl we wr⟩ :: path) X))
    (hx : HoleParent s (⟨d, c, p, .mk d .red wl we wr⟩ :: path) X) :
    ∃ s', s.deleteFixupSibling d (rootPtr s.nil X) = (s', rootPtr s.nil wl) ∧
      SameOff (fill (⟨d, c, p, .mk d .red wl we wr⟩ :: path) X) s s' ∧
      Shows s' (fill (⟨d, .red, p, wl⟩ :: ⟨d, .black, we, wr⟩ :: path) X) := by
  have h₀ : Shows s (fill path (.mk d c X p (.mk d .red wl we wr))) := h
  have hxp : s.parent (rootPtr s.nil X) = p.ptr := hx
  have hw : s.son d.other p.ptr = we.ptr := by rw [h₀.son_other, rootPtr_mk]
  have hred : s.colour we.ptr = .red := h.swap.colour
  obtain ⟨h₁, n₁⟩ := h.swap.setColour .black
  have h₁' : Shows (s.setColour we.ptr .black) (fill path (.mk d c X p (.mk d .black wl we wr))) :=
    by
    rw [← RBTree.mk_other]
    exact h₁
  obtain ⟨h₂, n₂⟩ := h₁'.setColour .red
  obtain ⟨h₃, n₃⟩ := h₂.rotate
  set s₃ := ((s.setColour we.ptr .black).setColour p.ptr .red).rotate d p.ptr with hs₃
  have n : SameOff (fill (⟨d, c, p, .mk d .red wl we wr⟩ :: path) X) s s₃ := by
    rw [← fill_swap]
    refine (n₁.trans n₂ ?_).trans n₃ ?_
    · simp only [fill_cons, Frame.fill, RBTree.mk_other]
      exact toList_fill_congr (by cases d <;> simp)
    · simp only [fill_cons, Frame.fill, RBTree.mk_other]
      exact toList_fill_congr (by cases d <;> simp)
  have h₃' : Shows s₃ (fill (⟨d, .red, p, wl⟩ :: ⟨d, .black, we, wr⟩ :: path) X) := h₃
  have h₃p : Shows s₃ (fill (⟨d, .black, we, wr⟩ :: path) (.mk d .red X p wl)) := h₃
  have hx₃ : s₃.parent (rootPtr s.nil X) = p.ptr := by
    have := hx.congr (n.sameNil h) h₃' rfl
    unfold HoleParent at this
    rwa [n.1] at this
  refine ⟨s₃, ?_, n, h₃'⟩
  unfold PureRbtree.deleteFixupSibling
  simp only [hxp, hw, hred, if_true, PureRbtree.setColour_parent]
  rw [← hs₃, hx₃, h₃p.son_other, n.1]

/-- 兄弟が黒いとき。 -/
theorem deleteFixupSibling_black (h : Shows s (fill (⟨d, c, p, W⟩ :: path) X))
    (hx : HoleParent s (⟨d, c, p, W⟩ :: path) X) (hW : s.colour (rootPtr s.nil W) = .black) :
    s.deleteFixupSibling d (rootPtr s.nil X) = (s, rootPtr s.nil W) := by
  have h₀ : Shows s (fill path (.mk d c X p W)) := h
  have hxp : s.parent (rootPtr s.nil X) = p.ptr := hx
  unfold PureRbtree.deleteFixupSibling
  simp [hxp, h₀.son_other, hW]

/-- 兄弟の外側の子が黒いとき。兄弟を回し、外側の子が赤い兄弟に替える。 -/
theorem deleteFixupInner_black
    (h : Shows s (fill (⟨d, c, p, .mk d .black (.mk d .red a le b) we wr⟩ :: path) X))
    (hx : HoleParent s (⟨d, c, p, .mk d .black (.mk d .red a le b) we wr⟩ :: path) X)
    (hwr : s.colour (rootPtr s.nil wr) = .black) :
    ∃ s', s.deleteFixupInner d (rootPtr s.nil X) we.ptr = (s', le.ptr) ∧
      SameOff (fill (⟨d, c, p, .mk d .black (.mk d .red a le b) we wr⟩ :: path) X) s s' ∧
      Shows s' (fill (⟨d, c, p, .mk d .black a le (.mk d .red b we wr)⟩ :: path) X) := by
  have hw := h.swap
  have hfar : s.son d.other we.ptr = rootPtr s.nil wr := hw.son_other
  have hnear : s.son d we.ptr = le.ptr := by rw [hw.son, rootPtr_mk]
  have h₀ : Shows s (fill (⟨d, .black, we, wr⟩ :: ⟨d.other, c, p, X⟩ :: path)
      (.mk d .red a le b)) := hw
  obtain ⟨h₁, n₁⟩ := h₀.setColour .black
  have h₁' : Shows (s.setColour le.ptr .black)
      (fill (⟨d.other, c, p, X⟩ :: path) (.mk d .black (.mk d .black a le b) we wr)) := h₁
  obtain ⟨h₂, n₂⟩ := h₁'.setColour .red
  have h₂' : Shows ((s.setColour le.ptr .black).setColour we.ptr .red)
      (fill (⟨d.other, c, p, X⟩ :: path)
        (.mk d.other .red wr we (.mk d.other .black b le a))) := by
    rw [RBTree.mk_other, RBTree.mk_other]
    exact h₂
  obtain ⟨h₃, n₃⟩ := h₂'.rotate
  rw [RBTree.mk_other, RBTree.mk_other] at h₃
  set s₃ := ((s.setColour le.ptr .black).setColour we.ptr .red).rotate d.other we.ptr with hs₃
  have n : SameOff (fill (⟨d, c, p, .mk d .black (.mk d .red a le b) we wr⟩ :: path) X) s s₃ := by
    rw [← fill_swap]
    refine SameOff.trans (SameOff.trans n₁ n₂ ?_) n₃ ?_
    · simp only [fill_cons, Frame.fill, RBTree.mk_other]
      exact toList_fill_congr (by cases d <;> simp)
    · simp only [fill_cons, Frame.fill, RBTree.mk_other]
      exact toList_fill_congr (by cases d <;> simp)
  have h₃' : Shows s₃ (fill (⟨d, c, p, .mk d .black a le (.mk d .red b we wr)⟩ :: path) X) := by
    have := h₃.swap
    rwa [Side.other_other] at this
  have h₃p : Shows s₃ (fill path (.mk d c X p (.mk d .black a le (.mk d .red b we wr)))) := h₃'
  have hx₃ : s₃.parent (rootPtr s.nil X) = p.ptr := by
    have := hx.congr (n.sameNil h) h₃' rfl
    unfold HoleParent at this
    rwa [n.1] at this
  refine ⟨s₃, ?_, n, h₃'⟩
  unfold PureRbtree.deleteFixupInner
  simp only [hfar, hwr, if_true, hnear]
  rw [← hs₃, hx₃, h₃p.son_other, rootPtr_mk]

/-- 兄弟の外側の子が赤いとき。色を移して親を回し、`x` を根にして終える。 -/
theorem deleteFixupOuter_spec
    (h : Shows s (fill (⟨d, c, p, .mk d .black wl we (.mk e .red a le b)⟩ :: path) X))
    (hx : HoleParent s (⟨d, c, p, .mk d .black wl we (.mk e .red a le b)⟩ :: path) X) :
    ∃ s', s.deleteFixupOuter d (rootPtr s.nil X) we.ptr = (s', s'.root) ∧
      SameOff (fill (⟨d, c, p, .mk d .black wl we (.mk e .red a le b)⟩ :: path) X) s s' ∧
      Shows s' (fill path (.mk d c (.mk d .black X p wl) we (.mk e .black a le b))) := by
  have h₀ : Shows s (fill path (.mk d c X p (.mk d .black wl we (.mk e .red a le b)))) := h
  have hxp : s.parent (rootPtr s.nil X) = p.ptr := hx
  have hfar : s.son d.other we.ptr = le.ptr := by rw [h.swap.son_other, rootPtr_mk]
  obtain ⟨h₁, n₁⟩ := h.swap.setColour c
  have h₁' : Shows (s.setColour we.ptr c)
      (fill path (.mk d c X p (.mk d c wl we (.mk e .red a le b)))) := by
    rw [← RBTree.mk_other]
    exact h₁
  obtain ⟨h₂, n₂⟩ := h₁'.setColour .black
  have h₂' : Shows ((s.setColour we.ptr c).setColour p.ptr .black)
      (fill (⟨d.other, c, we, wl⟩ :: ⟨d.other, .black, p, X⟩ :: path) (.mk e .red a le b)) := by
    simp only [fill_cons, Frame.fill, RBTree.mk_other]
    exact h₂
  obtain ⟨h₃, n₃⟩ := h₂'.setColour .black
  simp only [fill_cons, Frame.fill, RBTree.mk_other] at h₃
  obtain ⟨h₄, n₄⟩ := h₃.rotate
  rw [fill_swap] at n₁
  refine ⟨_, ?_, ((n₁.trans n₂ ?_).trans n₃ ?_).trans n₄ ?_, h₄⟩
  · unfold PureRbtree.deleteFixupOuter
    simp [hxp, h₀.colour, hfar]
  · simp only [fill_cons, Frame.fill]
    exact toList_fill_congr (by cases d <;> simp)
  · simp only [fill_cons, Frame.fill, RBTree.mk_other]
    exact toList_fill_congr (by cases d <;> simp)
  · simp only [fill_cons, Frame.fill]
    exact toList_fill_congr (by cases d <;> cases e <;> simp)

end Step

/-! ## loop の不変量 -/

/-- 黒の高さ `n + 1` が要る穴に、高さ `n` の黒い木か、黒くすれば足りる赤い木がある。 -/
def Deficient (X : RBTree Entry) (n : Nat) : Prop :=
  X.Balanced .black n ∨ X.colour = .red ∧ X.blacken.Balanced .black (n + 1)

theorem Deficient.of_balanced {X : RBTree Entry} {c : Colour} {n : Nat} (h : X.Balanced c n) :
    Deficient X n := by
  cases h with
  | leaf => exact .inl .leaf
  | red hl hr => exact .inr ⟨rfl, .black hl hr⟩
  | black hl hr => exact .inl (.black hl hr)

/-- `X` の入った穴を、`x` の `parent` から辿れる状態。 -/
structure AtHole (s : PureRbtree) (path : Path Entry) (X : RBTree Entry) : Prop where
  shows : Shows s (fill path X)
  parent : HoleParent s path X
  nil : s.colour s.nil = .black

structure DeleteInv (s : PureRbtree) (x : Ptr) (path : Path Entry) (X : RBTree Entry) (n : Nat) :
    Prop where
  shows : Shows s (fill path X)
  ptr : x = rootPtr s.nil X
  parent : HoleParent s path X
  deficient : Deficient X n
  path : PathBalanced path .black (n + 1)
  nil : s.colour s.nil = .black

theorem DeleteInv.atHole {x : Ptr} {X : RBTree Entry} {n : Nat} (h : DeleteInv s x path X n) :
    AtHole s path X := ⟨h.shows, h.parent, h.nil⟩

/-- 木の cell だけが変わり、穴の親が同じなら、穴は辿れるままである。 -/
theorem AtHole.congr {path' : Path Entry} {X : RBTree Entry} (h : AtHole s path X)
    (hsame : SameOff (fill path X) s s') (hshow : Shows s' (fill path' X))
    (hpar : parentPtr s.nil path' = parentPtr s.nil path) : AtHole s' path' X :=
  ⟨hshow, h.parent.congr (hsame.sameNil h.shows) hshow hpar, (hsame.colour h.shows).trans h.nil⟩

/-- loop の残りの回数の上限。 -/
def remaining (path : Path Entry) (X : RBTree Entry) : Nat :=
  if X.colour = .red then 0 else path.length

/-- 全体が平衡したら、`x` を根にして終えられる。 -/
theorem DeleteInv.of_balanced {t : RBTree Entry} {m : Nat} (h : Shows s t)
    (hbal : t.Balanced .black m) (ht : t ≠ .leaf) (hnil : s.colour s.nil = .black) :
    DeleteInv s s.root [] t m where
  shows := h
  ptr := h.root
  parent := HoleParent.of_ne_leaf (show Shows s (fill [] t) from h) ht
  deficient := .inl hbal
  path := .root
  nil := hnil

section Loop

variable {d : Side} {c : Colour} {X W : RBTree Entry} {p : Entry} {n : Nat}

/-- 兄弟を黒くする。赤い兄弟を黒いものに替えたときは、親が赤くなる。 -/
theorem deleteFixupSibling_spec (X : RBTree Entry)
    (hpath : PathBalanced (⟨d, c, p, W⟩ :: path) .black (n + 1)) :
    ∃ c' W' path', W'.Balanced .black (n + 1) ∧
      PathBalanced (⟨d, c', p, W'⟩ :: path') .black (n + 1) ∧
      (fill (⟨d, c', p, W'⟩ :: path') X).toList = (fill (⟨d, c, p, W⟩ :: path) X).toList ∧
      (c' = .red ∨ path' = path) ∧
      ∀ s, AtHole s (⟨d, c, p, W⟩ :: path) X →
        ∃ s', s.deleteFixupSibling d (rootPtr s.nil X) = (s', rootPtr s'.nil W') ∧
          SameOff (fill (⟨d, c, p, W⟩ :: path) X) s s' ∧ AtHole s' (⟨d, c', p, W'⟩ :: path') X := by
  have hstay : W.Balanced .black (n + 1) → ∀ s, AtHole s (⟨d, c, p, W⟩ :: path) X →
      ∃ s', s.deleteFixupSibling d (rootPtr s.nil X) = (s', rootPtr s'.nil W) ∧
        SameOff (fill (⟨d, c, p, W⟩ :: path) X) s s' ∧ AtHole s' (⟨d, c, p, W⟩ :: path) X := by
    intro hW s h
    have hcolour := h.shows.swap.colour_rootPtr h.nil
    rw [hW.colour_eq] at hcolour
    exact ⟨s, deleteFixupSibling_black h.shows h.parent hcolour, .refl _ s, h⟩
  cases hpath with
  | red hW hpath => exact ⟨_, W, path, hW, .red hW hpath, rfl, .inr rfl, hstay hW⟩
  | @black _ _ _ _ _ _ cw hW hpath =>
    cases cw with
    | black => exact ⟨_, W, path, hW, .black hW hpath, rfl, .inr rfl, hstay hW⟩
    | red =>
      obtain ⟨wl, we, wr, rfl⟩ := hW.exists_mk_red d
      obtain ⟨-, hwl, hwr⟩ := RBTree.balanced_mk_red.mp hW
      refine ⟨.red, wl, ⟨d, .black, we, wr⟩ :: path, hwl, .red hwl (.black hwr hpath), ?_, .inl rfl,
        fun s h => ?_⟩
      · show (fill path (.mk d .black (.mk d .red X p wl) we wr)).toList =
          (fill path (.mk d .black X p (.mk d .red wl we wr))).toList
        apply toList_fill_congr
        cases d <;> simp
      · obtain ⟨s', hs', hsame, hshow⟩ := deleteFixupSibling_red h.shows h.parent
        exact ⟨s', by rw [hs', hsame.1], hsame, h.congr hsame hshow rfl⟩

/-- 兄弟の外側の子が赤ければ、回転で全体が平衡する。 -/
theorem deleteFixupOuter_inv {wl a b : RBTree Entry} {we le : Entry} (hX : X.Balanced .black n)
    (hW : (RBTree.mk d .black wl we (.mk d .red a le b)).Balanced .black (n + 1))
    (hpath : PathBalanced (⟨d, c, p, .mk d .black wl we (.mk d .red a le b)⟩ :: path) .black
      (n + 1)) :
    ∃ t m, t.toList =
        (fill (⟨d, c, p, .mk d .black wl we (.mk d .red a le b)⟩ :: path) X).toList ∧
      ∀ s, AtHole s (⟨d, c, p, .mk d .black wl we (.mk d .red a le b)⟩ :: path) X →
        ∃ s', s.deleteFixupOuter d (rootPtr s.nil X) we.ptr = (s', s'.root) ∧
          SameOff (fill (⟨d, c, p, .mk d .black wl we (.mk d .red a le b)⟩ :: path) X) s s' ∧
          DeleteInv s' s'.root [] t m := by
  obtain ⟨-, m, hm, hwl, hwr⟩ := RBTree.balanced_mk_black.mp hW
  obtain rfl : n = m := by omega
  obtain ⟨-, ha, hb⟩ := RBTree.balanced_mk_red.mp hwr
  have hlow : (RBTree.mk d .black X p wl).Balanced .black (n + 1) :=
    RBTree.balanced_mk_black.mpr ⟨rfl, n, rfl, hX.self, hwl⟩
  have hhigh : (RBTree.mk d .black a le b).Balanced .black (n + 1) :=
    RBTree.balanced_mk_black.mpr ⟨rfl, n, rfl, ha.self, hb.self⟩
  have hbal : ∃ m, (fill path (.mk d c (.mk d .black X p wl) we (.mk d .black a le b))).Balanced
      .black m := by
    cases hpath with
    | red _ hpath => exact hpath.fill (RBTree.balanced_mk_red.mpr ⟨rfl, hlow, hhigh⟩)
    | black _ hpath =>
      exact hpath.fill (RBTree.balanced_mk_black.mpr ⟨rfl, _, rfl, hlow.self, hhigh.self⟩)
  obtain ⟨m, hbal⟩ := hbal
  have hne : fill path (.mk d c (.mk d .black X p wl) we (.mk d .black a le b)) ≠ .leaf :=
    fill_ne_leaf (mk_ne_leaf _ _ _ _ _)
  refine ⟨fill path (.mk d c (.mk d .black X p wl) we (.mk d .black a le b)), m, ?_, fun s h => ?_⟩
  · show (fill path _).toList =
      (fill path (.mk d c X p (.mk d .black wl we (.mk d .red a le b)))).toList
    apply toList_fill_congr
    cases d <;> simp
  · obtain ⟨s', hs', hsame, hshow⟩ := deleteFixupOuter_spec h.shows h.parent
    exact ⟨s', hs', hsame, .of_balanced hshow hbal hne ((hsame.colour h.shows).trans h.nil)⟩

/-- 兄弟 `w` が黒くなった後の、loop の本体の残り。 -/
def deleteFixupRest (d : Side) (s : PureRbtree) (x w : Ptr) : PureRbtree × Ptr :=
  if s.colour (s.lson w) = .black ∧ s.colour (s.rson w) = .black then
    (s.setColour w .red, s.parent x)
  else (s.deleteFixupInner d x w).1.deleteFixupOuter d x (s.deleteFixupInner d x w).2

theorem deleteFixupSide_eq (d : Side) (s : PureRbtree) (x : Ptr) :
    s.deleteFixupSide d x =
      deleteFixupRest d (s.deleteFixupSibling d x).1 x (s.deleteFixupSibling d x).2 := rfl

/-- 兄弟の子が両方とも黒いかどうかの判定。 -/
theorem Shows.sons_black {wl wr : RBTree Entry} {we : Entry}
    (h : Shows s (fill path (.mk d c wl we wr))) (hnil : s.colour s.nil = .black) :
    (s.colour (s.lson we.ptr) = .black ∧ s.colour (s.rson we.ptr) = .black) ↔
      wl.colour = .black ∧ wr.colour = .black := by
  have hl : Shows s (fill (⟨d, c, we, wr⟩ :: path) wl) := h
  have hnear := hl.colour_rootPtr hnil
  have hfar := hl.swap.colour_rootPtr hnil
  cases d with
  | left =>
    have h₁ : s.lson we.ptr = rootPtr s.nil wl := h.son
    have h₂ : s.rson we.ptr = rootPtr s.nil wr := h.son_other
    rw [h₁, h₂, hnear, hfar]
  | right =>
    have h₁ : s.rson we.ptr = rootPtr s.nil wl := h.son
    have h₂ : s.lson we.ptr = rootPtr s.nil wr := h.son_other
    rw [h₁, h₂, hnear, hfar]
    exact and_comm

/-- 兄弟の子が両方とも黒いとき。兄弟を赤くして、親へ移る。 -/
theorem deleteFixup_ascend {wl wr : RBTree Entry} {we : Entry}
    (hX : X.Balanced .black n) (hwl : wl.Balanced .black n) (hwr : wr.Balanced .black n)
    (hpath : PathBalanced (⟨d, c, p, .mk d .black wl we wr⟩ :: path) .black (n + 1)) :
    ∃ X' n', (fill path X').toList = (fill (⟨d, c, p, .mk d .black wl we wr⟩ :: path) X).toList ∧
      X'.colour = c ∧ ∀ s, AtHole s (⟨d, c, p, .mk d .black wl we wr⟩ :: path) X →
        DeleteInv (s.setColour we.ptr .red) p.ptr path X' n' ∧
        SameOff (fill (⟨d, c, p, .mk d .black wl we wr⟩ :: path) X) s (s.setColour we.ptr .red) := by
  have hW : (RBTree.mk d .red wl we wr).Balanced .red n :=
    RBTree.balanced_mk_red.mpr ⟨rfl, hwl, hwr⟩
  have hup : (RBTree.mk d .black X p (.mk d .red wl we wr)).Balanced .black (n + 1) :=
    RBTree.balanced_mk_black.mpr ⟨rfl, n, rfl, hX.self, hW.self⟩
  have hinv : ∃ n', Deficient (.mk d c X p (.mk d .red wl we wr)) n' ∧
      PathBalanced path .black (n' + 1) := by
    cases hpath with
    | red _ hpath => exact ⟨n, .inr ⟨by simp, by simpa using hup⟩, hpath.to_black⟩
    | black _ hpath => exact ⟨n + 1, .inl hup, hpath⟩
  obtain ⟨n', hdef, hpath'⟩ := hinv
  refine ⟨.mk d c X p (.mk d .red wl we wr), n', ?_, by simp, fun s h => ?_⟩
  · show (fill path _).toList = (fill path (.mk d c X p (.mk d .black wl we wr))).toList
    apply toList_fill_congr
    cases d <;> simp
  · obtain ⟨hshow, hsame⟩ := h.shows.swap.setColour .red
    rw [fill_swap] at hsame
    have hshow' : Shows (s.setColour we.ptr .red)
        (fill path (.mk d c X p (.mk d .red wl we wr))) := by
      rw [← RBTree.mk_other]
      exact hshow
    exact ⟨⟨hshow', by simp, .of_ne_leaf hshow' (mk_ne_leaf _ _ _ _ _), hdef, hpath',
      (hsame.colour h.shows).trans h.nil⟩, hsame⟩

/-- 兄弟の外側の子の色。 -/
theorem AtHole.far_colour {wl wr : RBTree Entry} {we : Entry}
    (h : AtHole s (⟨d, c, p, .mk d .black wl we wr⟩ :: path) X) :
    s.colour (s.son d.other we.ptr) = wr.colour := by
  have hwr : Shows s (fill (⟨d.other, .black, we, wl⟩ :: ⟨d.other, c, p, X⟩ :: path) wr) := by
    simp only [fill_cons, Frame.fill, RBTree.mk_other]
    exact h.shows
  rw [h.shows.swap.son_other, hwr.colour_rootPtr h.nil]

/-- 兄弟の外側の子が黒く、内側の子が赤いとき。兄弟を回してから、外側の子が赤いときと同じにする。 -/
theorem deleteFixup_inner {a b wr : RBTree Entry} {le we : Entry} (hX : X.Balanced .black n)
    (hW : (RBTree.mk d .black (.mk d .red a le b) we wr).Balanced .black (n + 1))
    (hwr : wr.Balanced .black n)
    (hpath : PathBalanced (⟨d, c, p, .mk d .black (.mk d .red a le b) we wr⟩ :: path) .black
      (n + 1)) :
    ∃ t m, t.toList =
        (fill (⟨d, c, p, .mk d .black (.mk d .red a le b) we wr⟩ :: path) X).toList ∧
      ∀ s, AtHole s (⟨d, c, p, .mk d .black (.mk d .red a le b) we wr⟩ :: path) X →
        ∃ s', (s.deleteFixupInner d (rootPtr s.nil X) we.ptr).1.deleteFixupOuter d
            (rootPtr s.nil X) (s.deleteFixupInner d (rootPtr s.nil X) we.ptr).2 = (s', s'.root) ∧
          SameOff (fill (⟨d, c, p, .mk d .black (.mk d .red a le b) we wr⟩ :: path) X) s s' ∧
          DeleteInv s' s'.root [] t m := by
  obtain ⟨-, m, hm, hwl, -⟩ := RBTree.balanced_mk_black.mp hW
  obtain rfl : n = m := by omega
  obtain ⟨-, ha, hb⟩ := RBTree.balanced_mk_red.mp hwl
  have hW₁ : (RBTree.mk d .black a le (.mk d .red b we wr)).Balanced .black (n + 1) :=
    RBTree.balanced_mk_black.mpr ⟨rfl, n, rfl, ha.self,
      (RBTree.balanced_mk_red.mpr ⟨rfl, hb, hwr⟩).self⟩
  have hpath₁ : PathBalanced
      (⟨d, c, p, .mk d .black a le (.mk d .red b we wr)⟩ :: path) .black (n + 1) := by
    cases hpath with
    | red _ hpath => exact .red hW₁ hpath
    | black _ hpath => exact .black hW₁ hpath
  have htree : (fill (⟨d, c, p, .mk d .black a le (.mk d .red b we wr)⟩ :: path) X).toList =
      (fill (⟨d, c, p, .mk d .black (.mk d .red a le b) we wr⟩ :: path) X).toList := by
    simp only [fill_cons, Frame.fill]
    exact toList_fill_congr (by cases d <;> simp)
  obtain ⟨t, m, hlist, houter⟩ := deleteFixupOuter_inv hX hW₁ hpath₁
  refine ⟨t, m, hlist.trans htree, fun s h => ?_⟩
  have hblack : s.colour (rootPtr s.nil wr) = .black := by
    rw [← h.shows.swap.son_other, h.far_colour, hwr.colour_eq]
  obtain ⟨s₁, hs₁, hsame₁, hshow₁⟩ := deleteFixupInner_black h.shows h.parent hblack
  obtain ⟨s', hs', hsame, hinv⟩ := houter s₁ (h.congr hsame₁ hshow₁ rfl)
  rw [hsame₁.1] at hs'
  rw [hs₁]
  exact ⟨s', hs', hsame₁.trans hsame htree, hinv⟩

/-- 兄弟が黒いときの残りの本体。親へ移るか、全体が平衡して終わる。 -/
theorem deleteFixupRest_spec (hX : X.Balanced .black n) (hW : W.Balanced .black (n + 1))
    (hpath : PathBalanced (⟨d, c, p, W⟩ :: path) .black (n + 1)) :
    ∃ path' X' n', (fill path' X').toList = (fill (⟨d, c, p, W⟩ :: path) X).toList ∧
      (path' = [] ∨ X'.colour = c ∧ path' = path) ∧
      ∀ s, AtHole s (⟨d, c, p, W⟩ :: path) X →
        ∃ s' x', deleteFixupRest d s (rootPtr s.nil X) (rootPtr s.nil W) = (s', x') ∧
          DeleteInv s' x' path' X' n' ∧ SameOff (fill (⟨d, c, p, W⟩ :: path) X) s s' := by
  obtain ⟨wl, we, wr, rfl⟩ := hW.exists_mk d
  obtain ⟨-, m, hm, hwl, hwr⟩ := RBTree.balanced_mk_black.mp hW
  obtain rfl : n = m := by omega
  simp only [rootPtr_mk]
  by_cases hboth : wl.colour = .black ∧ wr.colour = .black
  · rw [hboth.1] at hwl
    rw [hboth.2] at hwr
    obtain ⟨X', n', hlist, hcolour, hascend⟩ := deleteFixup_ascend hX hwl hwr hpath
    refine ⟨path, X', n', hlist, .inr ⟨hcolour, rfl⟩, fun s h => ?_⟩
    obtain ⟨hinv, hsame⟩ := hascend s h
    refine ⟨_, _, ?_, hinv, hsame⟩
    rw [deleteFixupRest, if_pos ((h.shows.swap.sons_black h.nil).mpr hboth),
      show s.parent (rootPtr s.nil X) = p.ptr from h.parent]
  · have hrest : ∀ s, AtHole s (⟨d, c, p, .mk d .black wl we wr⟩ :: path) X →
        deleteFixupRest d s (rootPtr s.nil X) we.ptr =
          (s.deleteFixupInner d (rootPtr s.nil X) we.ptr).1.deleteFixupOuter d (rootPtr s.nil X)
            (s.deleteFixupInner d (rootPtr s.nil X) we.ptr).2 := by
      intro s h
      rw [deleteFixupRest, if_neg (mt (h.shows.swap.sons_black h.nil).mp hboth)]
    cases hwc : wr.colour with
    | red =>
      rw [hwc] at hwr
      obtain ⟨a, le, b, rfl⟩ := hwr.exists_mk_red d
      obtain ⟨t, m, hlist, houter⟩ := deleteFixupOuter_inv hX hW hpath
      refine ⟨[], t, m, hlist, .inl rfl, fun s h => ?_⟩
      obtain ⟨s', hs', hsame, hinv⟩ := houter s h
      have hinner : s.deleteFixupInner d (rootPtr s.nil X) we.ptr = (s, we.ptr) := by
        simp [PureRbtree.deleteFixupInner, h.far_colour]
      rw [hrest s h, hinner]
      exact ⟨s', _, hs', hinv, hsame⟩
    | black =>
      have hwlc : wl.colour = .red := by
        cases hc : wl.colour with
        | red => rfl
        | black => exact absurd ⟨hc, hwc⟩ hboth
      rw [hwlc] at hwl
      rw [hwc] at hwr
      obtain ⟨a, le, b, rfl⟩ := hwl.exists_mk_red d
      obtain ⟨t, m, hlist, hinner⟩ := deleteFixup_inner hX hW hwr hpath
      refine ⟨[], t, m, hlist, .inl rfl, fun s h => ?_⟩
      obtain ⟨s', hs', hsame, hinv⟩ := hinner s h
      rw [hrest s h]
      exact ⟨s', _, hs', hinv, hsame⟩

end Loop

/-- `rb_delete_fixup` の loop の本体。 -/
def deleteFixupBody (s : PureRbtree) (x : Ptr) : PureRbtree × Ptr :=
  if x = s.lson (s.parent x) then s.deleteFixupSide .left x else s.deleteFixupSide .right x

theorem PathRep.root_mem {f : Frame Entry} {q : Ptr} (h : PathRep s (f :: path) q) :
    s.root ∈ ptrs (Path.toList (f :: path)) := by
  induction path generalizing f q with
  | nil =>
    obtain ⟨-, -, hroot⟩ := h
    rw [show s.root = f.entry.ptr from hroot]
    simp [Path.toList]
  | cons g path ih =>
    have hmem := ih h.2.2
    simp only [Path.toList, ptrs_cons, ptrs_append, List.mem_cons, List.mem_append] at hmem ⊢
    exact .inr (.inr hmem)

/-- 穴が根の位置になければ、その部分木の根は `root` ではない。 -/
theorem Shows.rootPtr_ne_root {f : Frame Entry} {X : RBTree Entry}
    (h : Shows s (fill (f :: path) X)) : rootPtr s.nil X ≠ s.root := by
  obtain ⟨hp, -, hnd⟩ := shows_fill.mp h
  have hmem := hp.root_mem
  simp only [List.nodup_cons, List.nodup_append, List.mem_append, not_or] at hnd
  obtain ⟨⟨-, hnil⟩, -, -, hdisj⟩ := hnd
  intro heq
  rw [← heq] at hmem
  cases X with
  | leaf => exact hnil hmem
  | node c l e r => exact hdisj e.ptr (by simp) _ hmem rfl

/-- loop の条件は、穴が根の位置になく、部分木が黒いことである。 -/
theorem DeleteInv.continues_iff {x : Ptr} {X : RBTree Entry} {n : Nat}
    (h : DeleteInv s x path X n) :
    (x ≠ s.root ∧ s.colour x = .black) ↔ path ≠ [] ∧ X.colour = .black := by
  obtain ⟨hs, rfl, -, -, -, hnil⟩ := h
  rw [hs.colour_rootPtr hnil]
  cases path with
  | nil => simp [hs.root]
  | cons f path => simp [hs.rootPtr_ne_root]

/--
**一回りで不変量が保たれ、残りの回数が減る。**

次の文脈と部分木は木の形だけで決まり、同じ木を表すどの状態でも同じである。
-/
theorem DeleteInv.step {x : Ptr} {X : RBTree Entry} {n : Nat} (h : DeleteInv s x path X n)
    (hcond : path ≠ [] ∧ X.colour = .black) :
    ∃ path' X' n', remaining path' X' < remaining path X ∧
      (fill path' X').toList = (fill path X).toList ∧
      ∀ r y, DeleteInv r y path X n → ∃ r' y', deleteFixupBody r y = (r', y') ∧
        DeleteInv r' y' path' X' n' ∧ SameOff (fill path X) r r' := by
  obtain ⟨hroot, hblack⟩ := hcond
  obtain ⟨-, -, -, hdef, hpath, -⟩ := h
  have hX : X.Balanced .black n := hdef.resolve_right fun h => by simp [h.1] at hblack
  have hrem : remaining path X = path.length := by simp [remaining, hblack]
  cases path with
  | nil => exact absurd rfl hroot
  | cons f path =>
    obtain ⟨d, c, p, W⟩ := f
    have hW : W ≠ .leaf := by
      rintro rfl
      cases hpath with
      | red hW => cases hW
      | black hW => cases hW
    obtain ⟨c₁, W₁, path₁, hW₁, hpath₁, hlist₁, hor₁, hsibling⟩ := deleteFixupSibling_spec X hpath
    obtain ⟨path₂, X₂, n₂, hlist₂, hor₂, hrest⟩ := deleteFixupRest_spec hX hW₁ hpath₁
    refine ⟨path₂, X₂, n₂, ?_, hlist₂.trans hlist₁, fun r y hr => ?_⟩
    · rw [hrem]
      rcases hor₂ with rfl | ⟨hc, rfl⟩
      · simp [remaining]
      · rcases hor₁ with rfl | rfl
        · simp [remaining, hc]
        · simp only [remaining, List.length_cons]
          split <;> omega
    · have hhole := hr.atHole
      obtain ⟨-, rfl, -, -, -, -⟩ := hr
      have hbody : deleteFixupBody r (rootPtr r.nil X) = r.deleteFixupSide d (rootPtr r.nil X) := by
        unfold deleteFixupBody
        rw [show r.parent (rootPtr r.nil X) = p.ptr from hhole.parent]
        simp only [hhole.shows.side_test (.inr hW)]
        cases d <;> simp
      obtain ⟨r₁, hr₁, hsame₁, hhole₁⟩ := hsibling r hhole
      obtain ⟨r₂, y₂, hr₂, hinv₂, hsame₂⟩ := hrest r₁ hhole₁
      refine ⟨r₂, y₂, ?_, hinv₂, hsame₁.trans hsame₂ hlist₁⟩
      rw [hbody, deleteFixupSide_eq, hr₁, ← hr₂, hsame₁.1]

/-- 番兵は黒いので、黒くしても変わらない。 -/
theorem setColour_nil_black {t : RBTree Entry} (h : s.colour s.nil = .black) :
    SameOff t s (s.setColour s.nil .black) := by
  refine ⟨rfl, fun p _ => ?_⟩
  rw [PureRbtree.setColour_eq, PureRbtree.modify_heap]
  split
  · next hp =>
    subst hp
    unfold RbNode.withColour
    rw [← h]
    rfl
  · rfl

/-- `x` が根か赤なら、`x` を黒くして loop を終える。 -/
theorem DeleteInv.exit {x : Ptr} {X : RBTree Entry} {n : Nat} (h : DeleteInv s x path X n)
    (hexit : ¬ (path ≠ [] ∧ X.colour = .black)) :
    (∃ m, (fill path X.blacken).Balanced .black m) ∧
      ∀ r y, DeleteInv r y path X n → Shows (r.setColour y .black) (fill path X.blacken) ∧
        SameOff (fill path X) r (r.setColour y .black) := by
  obtain ⟨-, -, -, hdef, hpath, -⟩ := h
  constructor
  · rcases hdef with hbal | ⟨-, hbal⟩
    · obtain rfl : path = [] := by
        by_contra hne
        exact hexit ⟨hne, hbal.colour_eq⟩
      rw [fill_nil, RBTree.blacken_of_black hbal.colour_eq]
      exact ⟨n, hbal⟩
    · exact hpath.fill hbal
  · rintro r y ⟨hs, rfl, -, -, -, hnil⟩
    cases X with
    | leaf =>
      -- 番兵は黒いので、止まるのは木が空のときだけである。
      obtain rfl : path = [] := by
        by_contra hne
        exact hexit ⟨hne, rfl⟩
      exact ⟨⟨hs.root, trivial, hs.nodup⟩, setColour_nil_black hnil⟩
    | node c l e r' =>
      have hnode : Shows r (fill path (.mk .left c l e r')) := hs
      exact hnode.setColour .black

theorem rbDeleteFixup_succ (fuel : Nat) (s : PureRbtree) (x : Ptr) :
    s.rbDeleteFixup (fuel + 1) x =
      if x ≠ s.root ∧ s.colour x = .black then
        (deleteFixupBody s x).1.rbDeleteFixup fuel (deleteFixupBody s x).2
      else some (s.setColour x .black) := rfl

/--
**`rb_delete_fixup` は止まり、中順を変えずに平衡した木を残す。**

残る木は `path` と `X` だけで決まる。
-/
theorem rbDeleteFixup_spec {x : Ptr} {X : RBTree Entry} {n : Nat} (h : DeleteInv s x path X n) :
    ∃ t m, t.Balanced .black m ∧ t.toList = (fill path X).toList ∧
      ∀ r y, DeleteInv r y path X n →
        ∃ r', (∀ fuel, remaining path X < fuel → r.rbDeleteFixup fuel y = some r') ∧ Shows r' t ∧
          SameOff (fill path X) r r' := by
  induction hrem : remaining path X using Nat.strong_induction_on generalizing s x path X n with
  | _ k ih =>
    by_cases hcond : path ≠ [] ∧ X.colour = .black
    · obtain ⟨path₁, X₁, n₁, hlt, hlist, hstep⟩ := h.step hcond
      obtain ⟨_, _, -, hinv, -⟩ := hstep s x h
      obtain ⟨t, m, hbal, hlist', hloop⟩ := ih _ (hrem ▸ hlt) hinv rfl
      refine ⟨t, m, hbal, hlist'.trans hlist, fun r y hr => ?_⟩
      obtain ⟨r₁, y₁, hbody, hr₁, hsame⟩ := hstep r y hr
      obtain ⟨r', hrun, hshow, hsame'⟩ := hloop r₁ y₁ hr₁
      refine ⟨r', fun fuel hfuel => ?_, hshow, hsame.trans hsame' hlist⟩
      cases fuel with
      | zero => omega
      | succ fuel =>
        rw [rbDeleteFixup_succ, if_pos (hr.continues_iff.mpr hcond), hbody]
        exact hrun fuel (by omega)
    · obtain ⟨⟨m, hbal⟩, hexit⟩ := h.exit hcond
      refine ⟨_, m, hbal, toList_fill_congr (RBTree.toList_blacken X), fun r y hr => ?_⟩
      obtain ⟨hshow, hsame⟩ := hexit r y hr
      refine ⟨_, fun fuel hfuel => ?_, hshow, hsame⟩
      cases fuel with
      | zero => omega
      | succ fuel => rw [rbDeleteFixup_succ, if_neg (mt hr.continues_iff.mp hcond)]

end RecordServer.Datas
