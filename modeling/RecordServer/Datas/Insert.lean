import RecordServer.Datas.Represents

/-!
# 挿入（`rb_insert`・`rb_insert_fixup`）

`rb_insert_fixup` の loop では、`z` を根とする赤い部分木が、それに合わないかもしれない文脈の穴にある。
親が赤い間は祖父が必ずあり、一回りごとに文脈が短くなる。

* `InsertInv` — loop の不変量
* `InsertInv.step` — 一回りで不変量が保たれ、文脈が短くなる
* `rbInsertFixup_spec` — loop は止まり、平衡した木を残す
* `rbInsert_spec` — `rb_insert` は中順の列の一か所に `z` を加える
-/

namespace RecordServer.Datas

open Infra

variable {s : PureRbtree} {path : Path Entry}

namespace PureRbtree

@[simp] theorem setColour_parent (s : PureRbtree) (p q : Ptr) (c : Colour) :
    (s.setColour p c).parent q = s.parent q := by
  unfold parent
  rw [setColour_eq, modify_heap]
  split <;> rfl

@[simp] theorem setColour_son (s : PureRbtree) (d : Side) (p q : Ptr) (c : Colour) :
    (s.setColour p c).son d q = s.son d q := by
  rw [son_eq, son_eq, setColour_eq, modify_heap]
  split <;> cases d <;> rfl

@[simp] theorem setColour_nil (s : PureRbtree) (p : Ptr) (c : Colour) :
    (s.setColour p c).nil = s.nil := rfl

@[simp] theorem setColour_root (s : PureRbtree) (p : Ptr) (c : Colour) :
    (s.setColour p c).root = s.root := rfl

end PureRbtree

theorem mk_ne_leaf (d : Side) (c : Colour) (n f : RBTree Entry) (x : Entry) :
    RBTree.mk d c n x f ≠ .leaf := by cases d <;> simp

theorem fill_ne_leaf {t : RBTree Entry} (h : t ≠ .leaf) : fill path t ≠ .leaf := by
  induction path generalizing t with
  | nil => exact h
  | cons f path ih => exact ih (mk_ne_leaf _ _ _ _ _)

theorem Shows.parent_rootPtr {t : RBTree Entry} (h : Shows s (fill path t)) (ht : t ≠ .leaf) :
    s.parent (rootPtr s.nil t) = parentPtr s.nil path := by
  cases t with
  | leaf => exact absurd rfl ht
  | node c l e r => exact Shows.parent (d := .left) h

/-! ## `rb_insert_fixup` の一回り -/

section Step

variable {d e e' : Side} {a b sib u ul ur Z : RBTree Entry} {z p g ue : Entry} {c c' : Colour}

/-- 祖父の節から見た木。 -/
theorem Shows.parent_parent (h : Shows s (fill (⟨e, c, p, sib⟩ :: ⟨d, c', g, u⟩ :: path) Z))
    (hZ : Z ≠ .leaf) : s.parent (rootPtr s.nil Z) = p.ptr ∧ s.parent p.ptr = g.ptr := by
  have hp : Shows s (fill (⟨d, c', g, u⟩ :: path) (.mk e c Z p sib)) := h
  exact ⟨h.parent_rootPtr hZ, hp.parent⟩

theorem Shows.uncle (h : Shows s (fill (⟨e, c, p, sib⟩ :: ⟨d, c', g, u⟩ :: path) Z)) :
    s.son d.other g.ptr = rootPtr s.nil u := by
  have hg : Shows s (fill path (.mk d c' (.mk e c Z p sib) g u)) := h
  exact hg.son_other

/-- 叔父が赤いとき。三つの色を変え、祖父へ移る。 -/
theorem insertFixupSide_uncle
    (h : Shows s (fill (⟨e, .red, p, sib⟩ :: ⟨d, .black, g, .mk e' .red ul ue ur⟩ :: path) Z))
    (hZ : Z ≠ .leaf) :
    ∃ s', s.insertFixupSide d (rootPtr s.nil Z) = (s', g.ptr) ∧
      SameOff (fill (⟨e, .red, p, sib⟩ :: ⟨d, .black, g, .mk e' .red ul ue ur⟩ :: path) Z) s s' ∧
      Shows s' (fill path (.mk d .red (.mk e .black Z p sib) g (.mk e' .black ul ue ur))) := by
  obtain ⟨hz, hp⟩ := h.parent_parent hZ
  have hy := h.uncle
  rw [rootPtr_mk] at hy
  have h₀ : Shows s (fill (⟨d, .black, g, .mk e' .red ul ue ur⟩ :: path) (.mk e .red Z p sib)) := h
  have hu : Shows s (fill (⟨d.other, .black, g, .mk e .red Z p sib⟩ :: path)
      (.mk e' .red ul ue ur)) := by
    rw [fill_cons, Frame.fill, RBTree.mk_other]
    exact h
  have hred : s.colour ue.ptr = .red := hu.colour
  obtain ⟨h₁, n₁⟩ := h₀.setColour .black
  have h₁' : Shows (s.setColour p.ptr .black)
      (fill (⟨d.other, .black, g, .mk e .black Z p sib⟩ :: path) (.mk e' .red ul ue ur)) := by
    rw [fill_cons, Frame.fill, RBTree.mk_other]
    exact h₁
  obtain ⟨h₂, n₂⟩ := h₁'.setColour .black
  rw [fill_cons, Frame.fill, RBTree.mk_other] at h₂
  obtain ⟨h₃, n₃⟩ := h₂.setColour .red
  refine ⟨_, ?_, (n₁.trans n₂ ?_).trans n₃ ?_, h₃⟩
  rotate_left
  · simp only [fill_cons, Frame.fill, RBTree.mk_other]
    exact toList_fill_congr (by cases d <;> cases e <;> simp)
  · simp only [fill_cons, Frame.fill]
    exact toList_fill_congr (by cases d <;> cases e <;> cases e' <;> simp)
  unfold PureRbtree.insertFixupSide
  simp [hy, hred, hz, hp]

/-- 二つの色を変えて祖父を回す、叔父が黒いときの後半。 -/
theorem insertFixup_rotate
    (h : Shows s (fill (⟨d, .red, p, sib⟩ :: ⟨d, .black, g, u⟩ :: path) Z)) (hZ : Z ≠ .leaf) :
    ∃ s', ((s.setColour (s.parent (rootPtr s.nil Z)) .black).setColour
          (s.parent (s.parent (rootPtr s.nil Z))) .red).rotate d.other
            (s.parent (s.parent (rootPtr s.nil Z))) = s' ∧
      SameOff (fill (⟨d, .red, p, sib⟩ :: ⟨d, .black, g, u⟩ :: path) Z) s s' ∧
      Shows s' (fill (⟨d, .black, p, .mk d .red sib g u⟩ :: path) Z) := by
  obtain ⟨hz, hp⟩ := h.parent_parent hZ
  rw [hz, hp]
  have h₀ : Shows s (fill (⟨d, .black, g, u⟩ :: path) (.mk d .red Z p sib)) := h
  obtain ⟨h₁, n₁⟩ := h₀.setColour .black
  rw [fill_cons, Frame.fill] at h₁
  obtain ⟨h₂, n₂⟩ := h₁.setColour .red
  -- `d.other` の側から見れば、`p` は祖父の反対側の子である。
  have h₂' : Shows ((s.setColour p.ptr .black).setColour g.ptr .red)
      (fill path (.mk d.other .red u g (.mk d.other .black sib p Z))) := by
    rw [RBTree.mk_other, RBTree.mk_other]
    exact h₂
  obtain ⟨h₃, n₃⟩ := h₂'.rotate
  rw [RBTree.mk_other, RBTree.mk_other] at h₃
  refine ⟨_, rfl, (n₁.trans n₂ ?_).trans n₃ ?_, h₃⟩
  · simp only [fill_cons, Frame.fill]
    exact toList_fill_congr (by cases d <;> simp)
  · simp only [fill_cons, Frame.fill, RBTree.mk_other]
    exact toList_fill_congr (by cases d <;> simp)

/-- 叔父が黒く、`z` が外側の子のとき。 -/
theorem insertFixupSide_outer
    (h : Shows s (fill (⟨d, .red, p, sib⟩ :: ⟨d, .black, g, u⟩ :: path) Z)) (hZ : Z ≠ .leaf)
    (hu : s.colour (rootPtr s.nil u) = .black) :
    ∃ s', s.insertFixupSide d (rootPtr s.nil Z) = (s', rootPtr s.nil Z) ∧
      SameOff (fill (⟨d, .red, p, sib⟩ :: ⟨d, .black, g, u⟩ :: path) Z) s s' ∧
      Shows s' (fill (⟨d, .black, p, .mk d .red sib g u⟩ :: path) Z) := by
  obtain ⟨s', hs', hrest⟩ := insertFixup_rotate h hZ
  refine ⟨s', ?_, hrest⟩
  obtain ⟨hz, hp⟩ := h.parent_parent hZ
  have h₀ : Shows s (fill (⟨d, .black, g, u⟩ :: path) (.mk d .red Z p sib)) := h
  have hne : rootPtr s.nil Z ≠ s.son d.other (s.parent (rootPtr s.nil Z)) := by
    rw [hz, h₀.son_other]
    exact h.rootPtr_ne (.inl hZ)
  unfold PureRbtree.insertFixupSide
  rw [hz] at hs' hne
  rw [hp] at hs'
  simp [hz, hp, h.uncle, hu, hne, hs']

/-- 叔父が黒く、`z` が内側の子のとき。親を回してから外側のときと同じにする。 -/
theorem insertFixupSide_inner
    (h : Shows s (fill (⟨d.other, .red, p, sib⟩ :: ⟨d, .black, g, u⟩ :: path) (.mk d .red a z b)))
    (hu : s.colour (rootPtr s.nil u) = .black) :
    ∃ s', s.insertFixupSide d z.ptr = (s', p.ptr) ∧
      SameOff (fill (⟨d.other, .red, p, sib⟩ :: ⟨d, .black, g, u⟩ :: path) (.mk d .red a z b)) s s' ∧
      Shows s' (fill (⟨d, .black, z, .mk d .red b g u⟩ :: path) (.mk d .red sib p a)) := by
  obtain ⟨hz, hp⟩ := h.parent_parent (mk_ne_leaf _ _ _ _ _)
  rw [rootPtr_mk] at hz
  have h₀ : Shows s (fill (⟨d, .black, g, u⟩ :: path) (.mk d .red sib p (.mk d .red a z b))) := by
    rw [← RBTree.mk_other]
    exact h
  have hson : s.son d.other p.ptr = z.ptr := by rw [h₀.son_other, rootPtr_mk]
  obtain ⟨h₁, n₁⟩ := h₀.rotate
  have h₁' : Shows (s.rotate d p.ptr)
      (fill (⟨d, .red, z, b⟩ :: ⟨d, .black, g, u⟩ :: path) (.mk d .red sib p a)) := h₁
  obtain ⟨s', hs', n₂, h₂⟩ := insertFixup_rotate h₁' (mk_ne_leaf _ _ _ _ _)
  rw [rootPtr_mk] at hs'
  rw [← RBTree.mk_other] at n₁
  refine ⟨s', ?_, n₁.trans n₂ ?_, h₂⟩
  · unfold PureRbtree.insertFixupSide
    simp [hz, hp, h.uncle, hu, hson, hs']
  · simp only [fill_cons, Frame.fill]
    exact toList_fill_congr (by cases d <;> simp)

/-- どちらの枝に進むか。 -/
theorem Shows.side_test (h : Shows s (fill (⟨d, c, g, u⟩ :: path) Z))
    (hne : Z ≠ .leaf ∨ u ≠ .leaf) : rootPtr s.nil Z = s.lson g.ptr ↔ d = .left := by
  have hg : Shows s (fill path (.mk d c Z g u)) := h
  cases d with
  | left => exact iff_of_true hg.son.symm rfl
  | right =>
    refine iff_of_false ?_ (by simp)
    have hl : s.lson g.ptr = rootPtr s.nil u := hg.son_other
    rw [hl]
    exact h.rootPtr_ne hne

end Step

/-! ## loop の不変量 -/

/-- `z` は、黒の高さ `n` の赤い部分木の根で、黒ならその穴に合う。 -/
structure InsertInv (s : PureRbtree) (z : Ptr) (path : Path Entry) (Z : RBTree Entry) (n : Nat) :
    Prop where
  shows : Shows s (fill path Z)
  ptr : z = rootPtr s.nil Z
  red : Z.Balanced .red n
  path : PathBalanced path .black n
  nil : s.colour s.nil = .black

/-- `rb_insert_fixup` の loop の本体。 -/
def insertFixupBody (s : PureRbtree) (z : Ptr) : PureRbtree × Ptr :=
  if s.parent z = s.lson (s.parent (s.parent z)) then s.insertFixupSide .left z
  else s.insertFixupSide .right z

/-- 穴の親の色。根の位置なら番兵の黒。 -/
def topColour : Path Entry → Colour
  | [] => .black
  | f :: _ => f.colour

theorem InsertInv.ne_leaf {z : Ptr} {Z : RBTree Entry} {n : Nat} (h : InsertInv s z path Z n) :
    Z ≠ .leaf := by
  rintro rfl
  cases h.red

/-- loop の条件が読むのは、穴の親の色である。 -/
theorem InsertInv.parent_colour {z : Ptr} {Z : RBTree Entry} {n : Nat}
    (h : InsertInv s z path Z n) : s.colour (s.parent z) = topColour path := by
  rw [h.ptr, h.shows.parent_rootPtr h.ne_leaf]
  cases path with
  | nil => exact h.nil
  | cons f path =>
    have hf : Shows s (fill path (.mk f.side f.colour Z f.entry f.sibling)) := h.shows
    exact hf.colour

/-- 親が赤く、祖父の `d` 側の子であるとき、本体は `d` 側の枝である。 -/
theorem insertFixupBody_eq {d e : Side} {p g : Entry} {sib u Z : RBTree Entry}
    (h : Shows s (fill (⟨e, .red, p, sib⟩ :: ⟨d, .black, g, u⟩ :: path) Z)) (hZ : Z ≠ .leaf) :
    insertFixupBody s (rootPtr s.nil Z) = s.insertFixupSide d (rootPtr s.nil Z) := by
  obtain ⟨hz, hpg⟩ := h.parent_parent hZ
  have hg : Shows s (fill (⟨d, .black, g, u⟩ :: path) (.mk e .red Z p sib)) := h
  have htest := hg.side_test (.inl (mk_ne_leaf _ _ _ _ _))
  rw [rootPtr_mk] at htest
  unfold insertFixupBody
  simp only [hz, hpg, htest]
  cases d <;> simp

/--
**一回りで不変量が保たれ、文脈が短くなる。**

次の文脈と部分木は木の形だけで決まり、同じ木を表すどの状態でも同じである。
-/
theorem InsertInv.step {z : Ptr} {Z : RBTree Entry} {n : Nat} (h : InsertInv s z path Z n)
    (hred : topColour path = .red) :
    ∃ path' Z' n', path'.length < path.length ∧
      (fill path' Z').toList = (fill path Z).toList ∧
      ∀ r y, InsertInv r y path Z n → ∃ r' y', insertFixupBody r y = (r', y') ∧
        InsertInv r' y' path' Z' n' ∧ SameOff (fill path Z) r r' := by
  have hne := h.ne_leaf
  obtain ⟨-, -, hZ, hp, -⟩ := h
  cases hp with
  | root => cases hred
  | black => cases hred
  | @red e p sib path _ hsib hpath =>
    obtain ⟨d, g, u, path, rfl, hu, hblack⟩ := hpath.of_red
    cases huc : u.colour with
    | red =>
      rw [huc] at hu
      obtain ⟨ul, ue, ur, rfl⟩ := hu.exists_mk_red d
      obtain ⟨-, hul, hur⟩ := RBTree.balanced_mk_red.mp hu
      refine ⟨path, .mk d .red (.mk e .black Z p sib) g (.mk d .black ul ue ur), n + 1, by simp,
        ?_, ?_⟩
      · show (fill path _).toList = (fill path (.mk d .black (.mk e .red Z p sib) g _)).toList
        apply toList_fill_congr
        cases d <;> cases e <;> simp
      · rintro r y ⟨hs, rfl, -, -, hnil⟩
        obtain ⟨r', hr', hsame, hshow⟩ := insertFixupSide_uncle hs hne
        rw [insertFixupBody_eq hs hne]
        refine ⟨r', _, hr', ⟨hshow, by simp, ?_, hblack, by rw [hsame.colour hs, hnil]⟩, hsame⟩
        simp [hZ.self, hsib.self, hul.self, hur.self]
    | black =>
      rw [huc] at hu
      have hcolour : ∀ r : PureRbtree, Shows r (fill (⟨e, .red, p, sib⟩ :: ⟨d, .black, g, u⟩ :: path) Z) →
          r.colour r.nil = .black → r.colour (rootPtr r.nil u) = .black := by
        intro r hs hnil
        have hug : Shows r (fill (⟨d.other, .black, g, .mk e .red Z p sib⟩ :: path) u) := by
          rw [fill_cons, Frame.fill, RBTree.mk_other]
          exact hs
        rw [hug.colour_rootPtr hnil, huc]
      by_cases hed : e = d
      · subst hed
        refine ⟨⟨e, .black, p, .mk e .red sib g u⟩ :: path, Z, n, by simp, ?_, ?_⟩
        · show (fill path (.mk e .black Z p (.mk e .red sib g u))).toList =
            (fill path (.mk e .black (.mk e .red Z p sib) g u)).toList
          apply toList_fill_congr
          cases e <;> simp
        · rintro r y ⟨hs, rfl, -, -, hnil⟩
          obtain ⟨r', hr', hsame, hshow⟩ := insertFixupSide_outer hs hne (hcolour r hs hnil)
          rw [insertFixupBody_eq hs hne]
          refine ⟨r', _, hr', ⟨hshow, by rw [hsame.1], hZ, ?_, by rw [hsame.colour hs, hnil]⟩, hsame⟩
          exact .black (RBTree.balanced_mk_red.mpr ⟨rfl, hsib, hu⟩) hblack
      · obtain rfl := Side.eq_other_of_ne hed
        obtain ⟨a, z, b, rfl⟩ := hZ.exists_mk_red d
        obtain ⟨-, ha, hb⟩ := RBTree.balanced_mk_red.mp hZ
        refine ⟨⟨d, .black, z, .mk d .red b g u⟩ :: path, .mk d .red sib p a, n, by simp, ?_, ?_⟩
        · show (fill path (.mk d .black (.mk d .red sib p a) z (.mk d .red b g u))).toList =
            (fill path (.mk d .black (.mk d.other .red (.mk d .red a z b) p sib) g u)).toList
          apply toList_fill_congr
          cases d <;> simp
        · rintro r y ⟨hs, rfl, -, -, hnil⟩
          obtain ⟨r', hr', hsame, hshow⟩ := insertFixupSide_inner hs (hcolour r hs hnil)
          rw [insertFixupBody_eq hs hne, rootPtr_mk]
          refine ⟨r', _, hr', ⟨hshow, by simp, ?_, ?_, by rw [hsame.colour hs, hnil]⟩, hsame⟩
          · exact RBTree.balanced_mk_red.mpr ⟨rfl, hsib, ha⟩
          · exact .black (RBTree.balanced_mk_red.mpr ⟨rfl, hb, hu⟩) hblack

/-- `root` を黒くする。 -/
theorem Shows.blackenRoot {t : RBTree Entry} (h : Shows s t) (ht : t ≠ .leaf) :
    Shows (s.setColour s.root .black) t.blacken ∧ SameOff t s (s.setColour s.root .black) := by
  cases t with
  | leaf => exact absurd rfl ht
  | node c l e r =>
    have h₀ : Shows s (fill [] (.mk .left c l e r)) := h
    rw [h.root]
    exact h₀.setColour .black

/-- 親が赤くなければ、`root` を黒くして loop を終える。 -/
theorem InsertInv.exit {z : Ptr} {Z : RBTree Entry} {n : Nat} (h : InsertInv s z path Z n)
    (hred : topColour path ≠ .red) :
    (∃ m, (fill path Z).blacken.Balanced .black m) ∧
      ∀ r y, InsertInv r y path Z n → Shows (r.setColour r.root .black) (fill path Z).blacken ∧
        SameOff (fill path Z) r (r.setColour r.root .black) := by
  constructor
  · obtain ⟨-, -, hZ, hp, -⟩ := h
    cases hp with
    | root => exact hZ.blacken
    | black hsib hpath =>
      obtain ⟨m, hm⟩ := PathBalanced.fill (.black hsib hpath) hZ
      exact hm.blacken
    | red => exact absurd rfl hred
  · intro r y hr
    exact hr.shows.blackenRoot (fill_ne_leaf hr.ne_leaf)

theorem rbInsertFixup_succ (fuel : Nat) (s : PureRbtree) (z : Ptr) :
    s.rbInsertFixup (fuel + 1) z =
      if s.colour (s.parent z) = .red then
        (insertFixupBody s z).1.rbInsertFixup fuel (insertFixupBody s z).2
      else some (s.setColour s.root .black) := rfl

/--
**`rb_insert_fixup` は止まり、中順を変えずに平衡した木を残す。**

残る木は `path` と `Z` だけで決まる。
-/
theorem rbInsertFixup_spec {z : Ptr} {Z : RBTree Entry} {n : Nat} (h : InsertInv s z path Z n) :
    ∃ t m, t.Balanced .black m ∧ t.toList = (fill path Z).toList ∧
      ∀ r y, InsertInv r y path Z n →
        ∃ r', (∀ fuel, path.length < fuel → r.rbInsertFixup fuel y = some r') ∧ Shows r' t ∧
          SameOff (fill path Z) r r' ∧ r'.colour r'.nil = .black := by
  induction hlen : path.length using Nat.strong_induction_on generalizing s z path Z n with
  | _ len ih =>
    by_cases hred : topColour path = .red
    · obtain ⟨path₁, Z₁, n₁, hlt, hlist, hstep⟩ := h.step hred
      obtain ⟨_, _, -, hinv, -⟩ := hstep s z h
      obtain ⟨t, m, hbal, hlist', hloop⟩ := ih path₁.length (hlen ▸ hlt) hinv rfl
      refine ⟨t, m, hbal, hlist'.trans hlist, fun r y hr => ?_⟩
      obtain ⟨r₁, y₁, hbody, hr₁, hsame⟩ := hstep r y hr
      obtain ⟨r', hrun, hshow, hsame', hblack⟩ := hloop r₁ y₁ hr₁
      refine ⟨r', fun fuel hfuel => ?_, hshow, hsame.trans hsame' hlist, hblack⟩
      cases fuel with
      | zero => omega
      | succ fuel =>
        rw [rbInsertFixup_succ, if_pos (hr.parent_colour.trans hred), hbody]
        exact hrun fuel (by omega)
    · obtain ⟨⟨m, hbal⟩, hexit⟩ := h.exit hred
      refine ⟨_, m, hbal, RBTree.toList_blacken _, fun r y hr => ?_⟩
      obtain ⟨hshow, hsame⟩ := hexit r y hr
      refine ⟨_, fun fuel hfuel => ?_, hshow, hsame, (hsame.colour hr.shows).trans hr.nil⟩
      cases fuel with
      | zero => omega
      | succ fuel => rw [rbInsertFixup_succ, if_neg (hr.parent_colour ▸ hred)]

/-! ## 挿入する場所 -/

/-- 中順の列の `key` が非減少である。 -/
def Sorted (es : List Entry) : Prop := es.Pairwise fun a b => a.key ≤ b.key

/-- 穴より前の `key` は `k` 以下、後の `key` は `k` より大きい。 -/
def Fits (k : Key) (path : Path Entry) : Prop :=
  (∀ e ∈ Path.before path, e.key ≤ k) ∧ ∀ e ∈ Path.after path, k < e.key

/-- 中順の列の途中の節より、左の部分木は小さく右の部分木は大きい。 -/
theorem Sorted.node {c : Colour} {l r : RBTree Entry} {e : Entry}
    (h : Sorted (fill path (.node c l e r)).toList) :
    (∀ x ∈ l.toList, x.key ≤ e.key) ∧ ∀ x ∈ r.toList, e.key ≤ x.key := by
  rw [Sorted, toList_fill, RBTree.toList_node] at h
  obtain ⟨-, hnode, -⟩ := List.pairwise_append.mp (List.pairwise_append.mp h).1
  obtain ⟨-, hr, hl⟩ := List.pairwise_append.mp hnode
  exact ⟨fun x hx => hl x hx e (by simp), fun x hx => List.rel_of_pairwise_cons hr hx⟩

theorem Fits.left {k : Key} {c : Colour} {l r : RBTree Entry} {e : Entry} (h : Fits k path)
    (hsorted : Sorted (fill path (.node c l e r)).toList) (hk : k < e.key) :
    Fits k (⟨.left, c, e, r⟩ :: path) := by
  refine ⟨by simpa [Path.before] using h.1, ?_⟩
  intro x hx
  simp only [Path.after, List.cons_append, List.mem_cons, List.mem_append] at hx
  rcases hx with rfl | hx | hx
  · exact hk
  · exact lt_of_lt_of_le hk (hsorted.node.2 x hx)
  · exact h.2 x hx

theorem Fits.right {k : Key} {c : Colour} {l r : RBTree Entry} {e : Entry} (h : Fits k path)
    (hsorted : Sorted (fill path (.node c l e r)).toList) (hk : ¬ k < e.key) :
    Fits k (⟨.right, c, e, l⟩ :: path) := by
  have hle : e.key ≤ k := not_lt.mp hk
  refine ⟨?_, by simpa [Path.after] using h.2⟩
  intro x hx
  simp only [Path.before, List.mem_append, List.mem_singleton] at hx
  rcases hx with hx | hx | rfl
  · exact h.1 x hx
  · exact le_trans (hsorted.node.1 x hx) hle
  · exact hle

/-- `rb_insert` の最初の loop は、`k` が入る葉に着く。その場所は木だけで決まる。 -/
theorem insertParent_spec {k : Key} {t : RBTree Entry} (hsorted : Sorted (fill path t).toList)
    (hfits : Fits k path) :
    ∃ path', fill path' .leaf = fill path t ∧ Fits k path' ∧
      ∀ s, Shows s (fill path t) → ∀ fuel, t.height < fuel →
        s.insertParent k fuel (parentPtr s.nil path) (rootPtr s.nil t) =
          some (parentPtr s.nil path') := by
  induction t generalizing path with
  | leaf =>
    refine ⟨path, rfl, hfits, fun s _ fuel hfuel => ?_⟩
    cases fuel with
    | zero => omega
    | succ fuel => simp [PureRbtree.insertParent, rootPtr]
  | node c l e r ihl ihr =>
    by_cases hk : k < e.key
    · obtain ⟨path', hfill, hfits', hrun⟩ := ihl hsorted (hfits.left hsorted hk)
      refine ⟨path', hfill, hfits', fun s h fuel hfuel => ?_⟩
      have hn : Shows s (fill path (.mk .left c l e r)) := h
      cases fuel with
      | zero => omega
      | succ fuel =>
        have hl : s.lson e.ptr = rootPtr s.nil l := hn.son
        rw [RBTree.height] at hfuel
        simp only [PureRbtree.insertParent, rootPtr, hn.ptr_ne_nil, ne_eq, not_false_eq_true,
          if_true, hn.key, hk, hl]
        exact hrun s h fuel (by omega)
    · obtain ⟨path', hfill, hfits', hrun⟩ := ihr hsorted (hfits.right hsorted hk)
      refine ⟨path', hfill, hfits', fun s h fuel hfuel => ?_⟩
      have hn : Shows s (fill path (.mk .left c l e r)) := h
      cases fuel with
      | zero => omega
      | succ fuel =>
        have hr : s.rson e.ptr = rootPtr s.nil r := hn.son_other
        rw [RBTree.height] at hfuel
        simp only [PureRbtree.insertParent, rootPtr, hn.ptr_ne_nil, ne_eq, not_false_eq_true,
          if_true, hn.key, hk, if_false, hr]
        exact hrun s h fuel (by omega)

/-! ## `z` を繋ぐ -/

/-- `z` の cell が持つ要素。 -/
def PureRbtree.entry (s : PureRbtree) (z : Ptr) : Entry := ⟨z, s.key z, s.data z⟩

theorem Fits.head {k : Key} {f : Frame Entry} (h : Fits k (f :: path)) :
    k < f.entry.key ↔ f.side = .left := by
  obtain ⟨d, c, e, sib⟩ := f
  cases d with
  | left => exact iff_of_true (h.2 e (by simp [Path.after])) rfl
  | right => exact iff_of_false (not_lt.mpr (h.1 e (by simp [Path.before]))) (by simp)

/-- `y` の下に繋ぐ枝分かれは、穴を指す pointer の付け替えである。 -/
theorem attach_eq {z : Ptr} (h : Shows s (fill path .leaf)) (hfits : Fits (s.key z) path)
    (hz : z ∉ ptrs (fill path .leaf).toList) :
    s.attach z (parentPtr s.nil path) =
      (((setHole (s.setParent z (parentPtr s.nil path)) path z).setLson z s.nil).setRson z
        s.nil).setColour z .red := by
  unfold PureRbtree.attach
  cases path with
  | nil => simp [parentPtr, setHole, PureRbtree.setParent, PureRbtree.setLson]
  | cons f path =>
    have hf : Shows s (fill path (.mk f.side f.colour .leaf f.entry f.sibling)) := h
    have hne : f.entry.ptr ≠ s.nil := hf.ptr_ne_nil
    have hzf : f.entry.ptr ≠ z := by
      rintro rfl
      apply hz
      have hperm := (toList_fill_perm (f :: path) RBTree.leaf).map Entry.ptr
      exact hperm.mem_iff.mpr (by simp [Path.toList])
    have hkz : (s.setParent z f.entry.ptr).key z = s.key z := by
      simp [PureRbtree.key, PureRbtree.setParent_eq, RbNode.withParent]
    have hky : (s.setParent z f.entry.ptr).key f.entry.ptr = f.entry.key := by
      rw [← hf.key]
      simp [PureRbtree.key, PureRbtree.setParent_eq, hzf]
    have hnil : (s.setParent z f.entry.ptr).nil = s.nil := rfl
    simp only [parentPtr, hnil, if_neg hne, hkz, hky, hfits.head, setHole]
    cases hside : f.side <;> rfl

/-- **`z` は赤い節として葉の位置に入る。** -/
theorem Shows.attach {z : Ptr} (h : Shows s (fill path .leaf)) (hfits : Fits (s.key z) path)
    (hz : z ∉ ptrs (fill path .leaf).toList) (hnil : z ≠ s.nil) :
    Shows (s.attach z (parentPtr s.nil path)) (fill path (.mk .left .red .leaf (s.entry z) .leaf)) ∧
      SameOff (fill path (.mk .left .red .leaf (s.entry z) .leaf)) s
        (s.attach z (parentPtr s.nil path)) := by
  rw [attach_eq h hfits hz]
  obtain ⟨hp, -, hnd⟩ := shows_fill.mp h
  have hzp : z ∉ ptrs (Path.toList path) := fun hm =>
    hz (((toList_fill_perm path RBTree.leaf).map Entry.ptr).mem_iff.mpr hm)
  simp only [RBTree.toList_leaf, ptrs_nil, List.nil_append, List.nodup_cons] at hnd
  set s₁ := s.setParent z (parentPtr s.nil path) with hs₁
  set s₂ := setHole s₁ path z with hs₂
  have hnil₂ : s₂.nil = s.nil := setHole_nil
  have hframe : ∀ p, p ≠ z →
      (((s₂.setLson z s.nil).setRson z s.nil).setColour z .red).heap p = s₂.heap p := by
    intro p hpz
    simp [PureRbtree.setLson, PureRbtree.setRson, PureRbtree.setColour, hpz]
  have hp₁ : PathRep s₁ path s.nil := hp.congr rfl rfl fun p hm => by
    simp [hs₁, PureRbtree.setParent_eq, ne_of_mem_of_not_mem hm hzp]
  have hcell : (((s₂.setLson z s.nil).setRson z s.nil).setColour z .red).heap z =
      cellOf .left (parentPtr s.nil path) s.nil s.nil .red (s.entry z) := by
    simp [PureRbtree.setLson, PureRbtree.setRson, PureRbtree.setColour, hs₂,
      setHole_heap_of_notMem hzp, hs₁, PureRbtree.setParent, cellOf, PureRbtree.entry,
      PureRbtree.key, PureRbtree.data]
  refine ⟨shows_fill.mpr ⟨?_, rep_mk.mpr ⟨?_, trivial, trivial⟩, ?_⟩, hnil₂, fun p hm => ?_⟩
  · rw [rootPtr_mk]
    exact (hp₁.setHole hnd.2 z).congr rfl rfl fun p hm => hframe p (ne_of_mem_of_not_mem hm hzp)
  · show _ = cellOf .left (parentPtr s₂.nil path) s₂.nil s₂.nil .red (s.entry z)
    rw [hnil₂]
    exact hcell
  · show (s₂.nil :: _).Nodup
    rw [hnil₂]
    simp [PureRbtree.entry, Ne.symm hnil, hnd.1, hnd.2, hzp]
  · simp only [mem_ptrs_fill, mem_ptrs_mk, not_or] at hm
    have hpz : p ≠ z := hm.1.1
    rw [hframe _ hpz, hs₂, setHole_heap_of_notMem hm.2, hs₁]
    simp [PureRbtree.setParent_eq, hpz]

/-! ## `rb_insert` -/

/-- 状態が赤黒木 `t` を表し、中順が整列していて、番兵が黒い。 -/
structure Valid (s : PureRbtree) (t : RBTree Entry) : Prop where
  shows : Shows s t
  balanced : ∃ m, t.Balanced .black m
  sorted : Sorted t.toList
  nil : s.colour s.nil = .black

/-- 中順の列の、`e` の `key` 以下の所と、それより大きい所の間に `e` を入れても整列している。 -/
theorem Sorted.insert {before after : List Entry} {e : Entry} (h : Sorted (before ++ after))
    (hbefore : ∀ x ∈ before, x.key ≤ e.key) (hafter : ∀ x ∈ after, e.key < x.key) :
    Sorted (before ++ e :: after) := by
  rw [Sorted, List.pairwise_append] at h
  obtain ⟨hb, ha, hba⟩ := h
  rw [Sorted, List.pairwise_append, List.pairwise_cons]
  refine ⟨hb, ⟨fun x hx => le_of_lt (hafter x hx), ha⟩, ?_⟩
  intro x hx y hy
  rcases List.mem_cons.mp hy with rfl | hy
  · exact hbefore x hx
  · exact hba x hx y hy

/-- `z` を繋いだ直後の、`rb_insert_fixup` の loop の不変量。 -/
theorem Valid.attach {z : Ptr} (h : Valid s (fill path .leaf)) (hfits : Fits (s.key z) path)
    (hz : z ∉ ptrs (fill path .leaf).toList) (hnil : z ≠ s.nil)
    (hpath : PathBalanced path .black 0) :
    InsertInv (s.attach z (parentPtr s.nil path)) z path
        (.mk .left .red .leaf (s.entry z) .leaf) 0 ∧
      SameOff (fill path (.mk .left .red .leaf (s.entry z) .leaf)) s
        (s.attach z (parentPtr s.nil path)) := by
  obtain ⟨hattach, hsame⟩ := h.shows.attach hfits hz hnil
  exact ⟨
    { shows := hattach
      ptr := rfl
      red := RBTree.balanced_mk_red.mpr ⟨rfl, .leaf, .leaf⟩
      path := hpath
      nil := (hsame.sameNil_of_shows hattach).colour.trans h.nil }, hsame⟩

/--
**`rb_insert` は、木と加える要素だけで決まる木を残す。**

`r` は、同じ木を表し、同じ要素を `z` に持つ任意の状態である。
-/
theorem rbInsert_uniform {t : RBTree Entry} (h : Valid s t) {z : Ptr} (hz : z ∉ ptrs t.toList)
    (hnil : z ≠ s.nil) :
    ∃ t' before after, t.toList = before ++ after ∧ t'.toList = before ++ s.entry z :: after ∧
      ∀ r, Valid r t → r.nil = s.nil → r.entry z = s.entry z →
        ∃ r', Converges (fun fuel => r.rbInsert fuel z) r' ∧ Valid r' t' ∧ SameOff t' r r' := by
  obtain ⟨m, hbal⟩ := h.balanced
  have hfits : Fits (s.key z) [] := by simp [Fits, Path.before, Path.after]
  have hsorted : Sorted (fill [] t).toList := h.sorted
  obtain ⟨path, hfill, hfits, hparent⟩ := insertParent_spec hsorted hfits
  rw [fill_nil] at hfill
  subst hfill
  obtain ⟨n, hleaf, hpath⟩ := hbal.unfill
  obtain rfl : n = 0 := by
    cases hleaf
    rfl
  obtain ⟨t', m', hbal', hlist, hloop⟩ := rbInsertFixup_spec (h.attach hfits hz hnil hpath).1
  have hbefore : (fill path .leaf).toList = Path.before path ++ Path.after path := by
    simp [toList_fill]
  have hafter : t'.toList = Path.before path ++ s.entry z :: Path.after path := by
    rw [hlist, toList_fill]
    simp
  refine ⟨t', Path.before path, Path.after path, hbefore, hafter, fun r hr hrnil hentry => ?_⟩
  have hkey : r.key z = s.key z := congrArg Entry.key hentry
  obtain ⟨hinv, hsame⟩ := hr.attach (hkey ▸ hfits) hz (hrnil ▸ hnil) hpath
  rw [hentry] at hinv hsame
  obtain ⟨r', hrun, hshow', hsame', hblack'⟩ := hloop _ z hinv
  have hwalk := hparent r hr.shows
  rw [← hkey, ← hr.shows.root] at hwalk
  refine ⟨r', ?_, ⟨hshow', ⟨m', hbal'⟩, ?_, hblack'⟩, hsame'.1.trans hsame.1, fun p hp => ?_⟩
  · exact (Converges.of_lt hwalk).bind (g := fun y fuel => (r.attach z y).rbInsertFixup fuel z)
      (.of_lt hrun)
  · rw [hafter]
    refine Sorted.insert ?_ hfits.1 hfits.2
    rw [← hbefore]
    exact h.sorted
  · rw [hlist] at hp
    rw [hsame'.2 p hp, hsame.2 p hp]

/--
**`rb_insert` は止まり、中順の列の一か所に `z` を加える。**

それより前の `key` は `z` の `key` 以下、後の `key` はそれより大きい。木の外の cell は変わらない。
-/
theorem rbInsert_spec {t : RBTree Entry} (h : Valid s t) {z : Ptr} (hz : z ∉ ptrs t.toList)
    (hnil : z ≠ s.nil) :
    ∃ s' t' before after, Converges (fun fuel => s.rbInsert fuel z) s' ∧ Valid s' t' ∧
      t.toList = before ++ after ∧ t'.toList = before ++ s.entry z :: after ∧ SameOff t' s s' := by
  obtain ⟨t', before, after, hold, hnew, hrun⟩ := rbInsert_uniform h hz hnil
  obtain ⟨s', hconv, hvalid, hsame⟩ := hrun s h rfl rfl
  exact ⟨s', t', before, after, hconv, hvalid, hold, hnew, hsame⟩

end RecordServer.Datas
