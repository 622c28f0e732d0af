import RecordServer.Datas.DeleteFixup

/-!
# 削除（`rb_transplant`・`tree_minimum`・`rb_delete`）

子が高々一つの節は、その子で置き換える。子が二つの節 `z` は、後続の節 `y` を元の場所から外し、
`y` の cell をそのまま `z` の場所に繋ぎ直す。どちらでも、黒の高さが足りなくなるのは `x` の場所だけである。

* `transplant_son` — 子が高々一つの節を外す
* `takeSuccessor_child` / `takeSuccessor_deep` — 後続の節を元の場所から外す
* `treeMinimum_spec` — `tree_minimum` は最も左の節に着く
* `rbDelete_spec` — `rb_delete` は中順の列から `z` だけを除く
-/

namespace RecordServer.Datas

open Infra

variable {s : PureRbtree} {path : Path Entry}

/-! ## `rb_transplant` -/

theorem rbTransplant_eq {u v : Ptr} (hp : PathRep s path u)
    (hu : s.parent u = parentPtr s.nil path)
    (hnd : (s.nil :: u :: ptrs (Path.toList path)).Nodup) :
    s.rbTransplant u v = (setHole s path v).setParent v (parentPtr s.nil path) := by
  have hmem : u ∉ ptrs (Path.toList path) := (List.nodup_cons.mp (List.nodup_cons.mp hnd).2).1
  have hpar : (setHole s path v).parent u = s.parent u := by
    unfold PureRbtree.parent
    rw [setHole_heap_of_notMem hmem]
  unfold PureRbtree.rbTransplant
  rw [relink_eq hp hu hnd]
  show (setHole s path v).setParent v ((setHole s path v).parent u) = _
  rw [hpar, hu]

/-- 穴の部分木が葉なら、番兵の `parent` に穴の親を書く。 -/
def markHole (nil : Ptr) (path : Path Entry) : RBTree Entry → RbNode → RbNode
  | .leaf, n => n.withParent (parentPtr nil path)
  | .node _ _ _ _, n => n

@[simp] theorem markHole_colour (nil : Ptr) (path : Path Entry) (X : RBTree Entry) (n : RbNode) :
    (markHole nil path X n).colour = n.colour := by cases X <;> rfl

/-- 番兵に印を付け終えた状態は、`x` の `parent` から穴を辿れる。 -/
theorem AtHole.of_mark {s' : PureRbtree} {X : RBTree Entry} (hshow : Shows s' (fill path X))
    (hnil : s'.nil = s.nil) (hcell : s'.heap s.nil = markHole s.nil path X (s.heap s.nil))
    (hblack : s.colour s.nil = .black) : AtHole s' path X := by
  refine ⟨hshow, ?_, ?_⟩
  · cases X with
    | leaf =>
      unfold HoleParent PureRbtree.parent
      rw [rootPtr, hnil, hcell]
      rfl
    | node c l e r => exact .of_ne_leaf hshow (by simp)
  · rw [← hblack]
    unfold PureRbtree.colour
    rw [hnil, hcell, markHole_colour]

/-- 部分木の根の `parent` に書き込むと、番兵の cell は穴の印だけが変わる。 -/
theorem setParent_rootPtr_nil {X : RBTree Entry} (h : s.nil ∉ ptrs X.toList) :
    (s.setParent (rootPtr s.nil X) (parentPtr s.nil path)).heap s.nil =
      markHole s.nil path X (s.heap s.nil) := by
  rw [PureRbtree.setParent_eq, PureRbtree.modify_heap]
  cases X with
  | leaf => exact if_pos rfl
  | node c l e r => exact if_neg (ne_of_mem_of_not_mem (rootPtr_mem (by simp)) h).symm

/--
子が高々一つの節 `z` を、その子 `X` で置き換える。

`X` が葉なら、番兵の `parent` が穴の親を指すようになる。
-/
theorem transplant_son {d : Side} {c : Colour} {z : Entry} {X : RBTree Entry}
    (h : Shows s (fill path (.mk d c .leaf z X))) :
    ∃ s', s.rbTransplant z.ptr (rootPtr s.nil X) = s' ∧ Shows s' (fill path X) ∧
      OffTree (fill path X) s s' ∧ s'.heap s.nil = markHole s.nil path X (s.heap s.nil) := by
  obtain ⟨hp, ht, hnd⟩ := shows_fill.mp h
  obtain ⟨-, -, hX⟩ := rep_mk.mp ht
  have hnd' := nodup_mk.mp hnd
  simp only [RBTree.toList_leaf, ptrs_nil, List.nil_append, List.nodup_cons, List.nodup_append,
    List.mem_cons, List.mem_append, not_or] at hnd'
  obtain ⟨⟨hnz, hnX, hnp⟩, ⟨hzX, hzp⟩, hXnd, hpnd, hdisj⟩ := hnd'
  rw [rootPtr_mk] at hp
  have hxp : rootPtr s.nil X ∉ ptrs (Path.toList path) := by
    cases X with
    | leaf => exact hnp
    | node c' l e r => exact fun hm => hdisj e.ptr (by simp) _ hm rfl
  set s₁ := setHole s path (rootPtr s.nil X) with hs₁
  have hnil₁ : s₁.nil = s.nil := setHole_nil
  have hframe : ∀ p, p ≠ rootPtr s.nil X →
      (s₁.setParent (rootPtr s.nil X) (parentPtr s.nil path)).heap p = s₁.heap p := by
    intro p hpx
    simp [PureRbtree.setParent_eq, hpx]
  refine ⟨_, rbTransplant_eq hp h.parent ?_, shows_fill.mpr ⟨?_, ?_, ?_⟩,
    ⟨hnil₁, fun p hpn hm => ?_⟩, ?_⟩
  · simp [hnz, hnp, hzp, hpnd]
  · show PathRep _ path (rootPtr s₁.nil X)
    rw [hnil₁]
    exact (hp.setHole hpnd _).congr rfl rfl fun p hm => hframe p (ne_of_mem_of_not_mem hm hxp)
  · show Rep _ (parentPtr s₁.nil path) X
    have hX₁ : Rep s₁ z.ptr X := hX.congr hnil₁ fun p hm =>
      setHole_heap_of_notMem fun hm' => hdisj p hm p hm' rfl
    have hX₂ : Rep (reparent s₁ X (parentPtr s.nil path)) (parentPtr s.nil path) X :=
      hX₁.reparent (by rw [hnil₁]; exact List.nodup_cons.mpr ⟨hnX, hXnd⟩)
    rw [hnil₁]
    cases X with
    | leaf => trivial
    | node c' l e r =>
      have hne : e.ptr ≠ s₁.nil := by
        rw [hnil₁]
        exact fun heq => hnX (by simp [← heq])
      have hre : reparent s₁ (.node c' l e r) (parentPtr s.nil path) =
          s₁.setParent e.ptr (parentPtr s.nil path) := if_pos hne
      rw [hre] at hX₂
      exact hX₂
  · show (s₁.nil :: _).Nodup
    rw [hnil₁, List.nodup_cons, List.nodup_append, List.mem_append, not_or]
    exact ⟨⟨hnX, hnp⟩, hXnd, hpnd, hdisj⟩
  · rw [mem_ptrs_fill, not_or] at hm
    have hpx : p ≠ rootPtr s.nil X := by
      rintro rfl
      by_cases hleaf : X = .leaf
      · exact hpn (by rw [hleaf]; rfl)
      · exact hm.1 (rootPtr_mem hleaf)
    rw [hframe _ hpx]
    exact setHole_heap_of_notMem hm.2
  · have hheap : s₁.heap s.nil = s.heap s.nil := setHole_heap_of_notMem hnp
    have hcell := @setParent_rootPtr_nil s₁ path X (hnil₁ ▸ hnX)
    rw [hnil₁, hheap] at hcell
    exact hcell

/-! ## `tree_minimum` -/

/-- **`tree_minimum` は、左の子が無い最も左の節に着く。** -/
theorem treeMinimum_spec {t : RBTree Entry} (path : Path Entry) (ht : t ≠ .leaf) :
    ∃ lpath c y r, t = fill lpath (.node c .leaf y r) ∧ t.toList = y :: (fill lpath r).toList ∧
      ∀ s, Shows s (fill path t) → ∀ fuel, t.height < fuel →
        s.treeMinimum fuel (rootPtr s.nil t) = some y.ptr := by
  induction t generalizing path with
  | leaf => exact absurd rfl ht
  | node c l e r ihl =>
    by_cases hleaf : l = .leaf
    · subst hleaf
      refine ⟨[], c, e, r, rfl, by simp, fun s h fuel hfuel => ?_⟩
      have hn : Shows s (fill path (.mk .left c .leaf e r)) := h
      have hl : s.lson e.ptr = s.nil := hn.son
      cases fuel with
      | zero => omega
      | succ fuel => simp [PureRbtree.treeMinimum, rootPtr, hl]
    · obtain ⟨lpath, c', y, r', hfill, hlist, hrun⟩ := ihl (⟨.left, c, e, r⟩ :: path) hleaf
      refine ⟨lpath ++ [⟨.left, c, e, r⟩], c', y, r', ?_, ?_, fun s h fuel hfuel => ?_⟩
      · rw [fill_append, ← hfill]
        rfl
      · rw [RBTree.toList_node, hlist, fill_append]
        rfl
      · have hn : Shows s (fill path (.mk .left c l e r)) := h
        have hl : s.lson e.ptr = rootPtr s.nil l := hn.son
        have hlchild : Shows s (fill (⟨.left, c, e, r⟩ :: path) l) := h
        cases fuel with
        | zero => omega
        | succ fuel =>
          rw [RBTree.height] at hfuel
          show s.treeMinimum (fuel + 1) e.ptr = _
          rw [PureRbtree.treeMinimum, hl, if_pos (hlchild.rootPtr_ne_nil hleaf)]
          exact hrun s hlchild fuel (by omega)

/-! ## 後続の節の繋ぎ直し -/

/-- 後続の節 `y` が外れ、右の部分木 `r` が `y` の下にある。`z` はまだ穴にある。 -/
structure Taken (s : PureRbtree) (path : Path Entry) (c : Colour) (l : RBTree Entry) (z y : Entry)
    (r : RBTree Entry) : Prop where
  hole : PathRep s path z.ptr
  parent : s.parent z.ptr = parentPtr s.nil path
  lson : s.lson z.ptr = rootPtr s.nil l
  colour : s.colour z.ptr = c
  left : Rep s z.ptr l
  right : Rep s y.ptr r
  rson : s.rson y.ptr = rootPtr s.nil r
  key : s.key y.ptr = y.key
  data : s.data y.ptr = y.data
  nodup : (s.nil :: z.ptr :: y.ptr ::
    (ptrs l.toList ++ (ptrs r.toList ++ ptrs (Path.toList path)))).Nodup

/-- **`y` の cell は `z` の場所に、`z` の色で収まる。** -/
theorem Taken.putSuccessor {c : Colour} {l r : RBTree Entry} {z y : Entry}
    (h : Taken s path c l z y r) (hl : l ≠ .leaf) :
    Shows (s.putSuccessor z.ptr y.ptr) (fill path (.mk .left c l y r)) ∧
      SameOff (fill path (.mk .left c l y r)) s (s.putSuccessor z.ptr y.ptr) := by
  have hnd := h.nodup
  simp only [List.nodup_cons, List.nodup_append, List.mem_cons, List.mem_append, not_or] at hnd
  obtain ⟨⟨hnz, hny, hnl, hnr, hnp⟩, ⟨hzy, hzl, -, hzp⟩, ⟨hyl, hyr, hyp⟩, hlnd, ⟨hrnd, hpnd, hrp⟩,
    hldisj⟩ := hnd
  have hlmem : rootPtr s.nil l ∈ ptrs l.toList := rootPtr_mem hl
  have hlne : rootPtr s.nil l ≠ s.nil := ne_of_mem_of_not_mem hlmem hnl
  have htrans := rbTransplant_eq (v := y.ptr) h.hole h.parent (by simp [hnz, hnp, hzp, hpnd])
  set s₁ := setHole s path y.ptr with hs₁
  have hnil₁ : s₁.nil = s.nil := setHole_nil
  -- `y` の cell を整えてから、左の部分木の親を付け替える順に読む。
  have heq : s.putSuccessor z.ptr y.ptr =
      (((s₁.setParent y.ptr (parentPtr s.nil path)).setLson y.ptr
        (rootPtr s.nil l)).setParent (rootPtr s.nil l) y.ptr).setColour y.ptr c := by
    unfold PureRbtree.putSuccessor
    rw [htrans]
    set s₂ := s₁.setParent y.ptr (parentPtr s.nil path) with hs₂
    have hz₂ : s₂.heap z.ptr = s.heap z.ptr := by
      simp [hs₂, PureRbtree.setParent_eq, hzy, hs₁, setHole_heap_of_notMem hzp]
    have hl₂ : s₂.lson z.ptr = rootPtr s.nil l := by
      unfold PureRbtree.lson
      rw [hz₂]
      exact h.lson
    have hly : (s₂.setLson y.ptr (rootPtr s.nil l)).lson y.ptr = rootPtr s.nil l := by
      simp [PureRbtree.lson, PureRbtree.setLson]
    have hc₃ : ((s₂.setLson y.ptr (rootPtr s.nil l)).setParent (rootPtr s.nil l) y.ptr).colour
        z.ptr = c := by
      have hzl' : z.ptr ≠ rootPtr s.nil l := (ne_of_mem_of_not_mem hlmem hzl).symm
      rw [← h.colour]
      simp [PureRbtree.colour, PureRbtree.setParent, PureRbtree.setLson, hzy, hzl', hz₂]
    simp only [hl₂, hly, hc₃]
  rw [heq]
  set s' := (((s₁.setParent y.ptr (parentPtr s.nil path)).setLson y.ptr
    (rootPtr s.nil l)).setParent (rootPtr s.nil l) y.ptr).setColour y.ptr c with hs'
  have hnil' : s'.nil = s.nil := hnil₁
  have hframe : ∀ p, p ≠ y.ptr → p ≠ rootPtr s.nil l → s'.heap p = s₁.heap p := by
    intro p hpy hpl
    simp [hs', PureRbtree.setColour, PureRbtree.setParent, PureRbtree.setLson, hpy, hpl]
  have hly : y.ptr ≠ rootPtr s.nil l := (ne_of_mem_of_not_mem hlmem hyl).symm
  have hcell : s'.heap y.ptr =
      cellOf .left (parentPtr s.nil path) (rootPtr s.nil l) (rootPtr s.nil r) c y := by
    have h₁ : s₁.heap y.ptr = s.heap y.ptr := setHole_heap_of_notMem hyp
    have hrson := h.rson
    have hkey := h.key
    have hdata := h.data
    unfold PureRbtree.rson at hrson
    unfold PureRbtree.key at hkey
    unfold PureRbtree.data at hdata
    simp [hs', PureRbtree.setColour, PureRbtree.setParent, PureRbtree.setLson, hly, h₁, cellOf,
      hrson, hkey, hdata]
  have hleft : Rep s' y.ptr l := by
    have hl₁ : Rep s₁ z.ptr l := h.left.congr hnil₁ fun p hm =>
      setHole_heap_of_notMem fun hm' => hldisj p hm p (.inr hm') rfl
    have hl₂ : Rep (reparent s₁ l y.ptr) y.ptr l :=
      hl₁.reparent (by rw [hnil₁]; exact List.nodup_cons.mpr ⟨hnl, hlnd⟩)
    have hre : reparent s₁ l y.ptr = s₁.setParent (rootPtr s.nil l) y.ptr := by
      unfold reparent
      rw [hnil₁, if_pos hlne]
    rw [hre] at hl₂
    refine hl₂.congr rfl fun p hm => ?_
    have hpy : p ≠ y.ptr := ne_of_mem_of_not_mem hm hyl
    simp [hs', PureRbtree.setColour, PureRbtree.setParent, PureRbtree.setLson, hpy]
  refine ⟨shows_fill.mpr ⟨?_, rep_mk.mpr ⟨?_, hleft, ?_⟩, ?_⟩, hnil', fun p hm => ?_⟩
  · rw [rootPtr_mk]
    refine (h.hole.setHole hpnd y.ptr).congr rfl rfl fun p hm =>
      hframe p (ne_of_mem_of_not_mem hm hyp) ?_
    exact fun hpl => hldisj _ hlmem p (.inr hm) hpl.symm
  · rw [hnil']
    exact hcell
  · refine h.right.congr hnil' fun p hm => ?_
    rw [hframe p (ne_of_mem_of_not_mem hm hyr) fun hpl => hldisj _ hlmem p (.inl hm) hpl.symm]
    exact setHole_heap_of_notMem fun hm' => hrp p hm p hm' rfl
  · rw [hnil', nodup_mk]
    simp only [List.nodup_cons, List.nodup_append, List.mem_cons, List.mem_append, not_or]
    refine ⟨⟨hny, ⟨hnl, hnr⟩, hnp⟩, ⟨⟨hyl, hyr⟩, hyp⟩, ⟨hlnd, hrnd, ?_⟩, hpnd, ?_⟩
    · exact fun p hm q hq => hldisj p hm q (.inl hq)
    · rintro p (hm | hm) q hq
      · exact hldisj p hm q (.inr hq)
      · exact hrp p hm q hq
  · simp only [mem_ptrs_fill, mem_ptrs_mk, not_or] at hm
    rw [hframe p hm.1.1 (fun hpl => hm.1.2.1 (hpl ▸ hlmem))]
    exact setHole_heap_of_notMem hm.2

section Take

variable {c cy : Colour} {l yr : RBTree Entry} {z y : Entry}

/-- `y` が `z` の右の子のとき。`x` の `parent` を `y` にするだけである。 -/
theorem takeSuccessor_child
    (h : Shows s (fill path (.node c l z (.node cy .leaf y yr)))) :
    ∃ s', s.takeSuccessor z.ptr y.ptr = s' ∧ Taken s' path c l z y yr ∧
      OffTree (fill path (.mk .left c l y yr)) s s' ∧
      s'.heap s.nil = markHole s.nil (⟨.right, c, y, l⟩ :: path) yr (s.heap s.nil) := by
  have hz : Shows s (fill path (.mk .left c l z (.node cy .leaf y yr))) := h
  have hy : Shows s (fill (⟨.right, c, z, l⟩ :: path) (.mk .left cy .leaf y yr)) := h
  have D := rotateDistinct_of_nodup (d := .left) (a := l) (b := .leaf) (c := yr) h.nodup
  obtain ⟨hp, ht, -⟩ := shows_fill.mp hz
  obtain ⟨-, hl, -⟩ := rep_mk.mp ht
  obtain ⟨-, ht, -⟩ := shows_fill.mp hy
  obtain ⟨-, -, hyr⟩ := rep_mk.mp ht
  have hrson : s.rson y.ptr = rootPtr s.nil yr := hy.son_other
  have hlson : s.lson z.ptr = rootPtr s.nil l := hz.son
  have heq : s.takeSuccessor z.ptr y.ptr = s.setParent (rootPtr s.nil yr) y.ptr := by
    unfold PureRbtree.takeSuccessor
    rw [hy.parent, hrson]
    exact if_pos rfl
  -- 番兵でなければ、書き込む値は元の値と同じである。
  have hframe : ∀ p, p ≠ s.nil → (s.setParent (rootPtr s.nil yr) y.ptr).heap p = s.heap p := by
    intro p hpn
    rw [PureRbtree.setParent_eq, PureRbtree.modify_heap]
    split
    · next hpx =>
      cases yr with
      | leaf => exact absurd hpx hpn
      | node c' l' e r' =>
        have he : Shows s (fill (⟨.right, cy, y, .leaf⟩ :: ⟨.right, c, z, l⟩ :: path)
            (.mk .left c' l' e r')) := h
        rw [hpx, show rootPtr s.nil (.node c' l' e r') = e.ptr from rfl, he.cell,
          cellOf_withParent]
        rfl
    · rfl
  have hzn : z.ptr ≠ s.nil := hz.ptr_ne_nil
  have hyn : y.ptr ≠ s.nil := hy.ptr_ne_nil
  refine ⟨_, heq, ?_, ⟨rfl, fun p hpn _ => hframe p hpn⟩,
    @setParent_rootPtr_nil s (⟨.right, c, y, l⟩ :: path) yr D.nil_notMem.2.2.1⟩
  rw [rootPtr_mk] at hp
  exact
    { hole := hp.congr rfl rfl fun p hm => hframe p (ne_of_mem_of_not_mem hm D.nil_notMem.2.2.2)
      parent := by rw [PureRbtree.parent, hframe _ hzn]; exact hz.parent
      lson := by rw [PureRbtree.lson, hframe _ hzn]; exact hlson
      colour := by rw [PureRbtree.colour, hframe _ hzn]; exact hz.colour
      left := hl.congr rfl fun p hm => hframe p (ne_of_mem_of_not_mem hm D.nil_notMem.1)
      right := hyr.congr rfl fun p hm => hframe p (ne_of_mem_of_not_mem hm D.nil_notMem.2.2.1)
      rson := by rw [PureRbtree.rson, hframe _ hyn]; exact hrson
      key := by rw [PureRbtree.key, hframe _ hyn]; exact hy.key
      data := by rw [PureRbtree.data, hframe _ hyn]; exact hy.data
      nodup := nodup_mk_mk.mp hz.nodup }

/-- 空でない文脈に何を入れても、根は変わらない。 -/
theorem rootPtr_fill_cons {nil : Ptr} (f : Frame Entry) (path : Path Entry) (t t' : RBTree Entry) :
    rootPtr nil (fill (f :: path) t) = rootPtr nil (fill (f :: path) t') := by
  induction path generalizing f t t' with
  | nil => simp [fill_cons, Frame.fill]
  | cons g path ih => exact ih g (f.fill t) (f.fill t')

/-- 部分木 `r` を `y` の右の子として繋ぐ。書かれるのは `y` の `rson` と根の `parent` だけである。 -/
theorem hangRight_spec {s : PureRbtree} {y q : Ptr} {r : RBTree Entry} (hr : Rep s q r)
    (hrne : r ≠ .leaf) (hnd : (s.nil :: y :: ptrs r.toList).Nodup) {s' : PureRbtree}
    (hs' : s' = (s.setRson y (rootPtr s.nil r)).setParent (rootPtr s.nil r) y) :
    Rep s' y r ∧ s'.heap y = { s.heap y with rson := rootPtr s.nil r } ∧
      ∀ p, p ≠ y → p ≠ rootPtr s.nil r → s'.heap p = s.heap p := by
  simp only [List.nodup_cons, List.mem_cons, not_or] at hnd
  obtain ⟨⟨-, hnr⟩, hyr, hrnd⟩ := hnd
  have hrmem : rootPtr s.nil r ∈ ptrs r.toList := rootPtr_mem hrne
  refine ⟨?_, ?_, ?_⟩
  · have hre : reparent s r y = s.setParent (rootPtr s.nil r) y :=
      if_pos (ne_of_mem_of_not_mem hrmem hnr)
    have hrep : Rep (reparent s r y) y r := hr.reparent (List.nodup_cons.mpr ⟨hnr, hrnd⟩)
    rw [hre] at hrep
    rw [hs']
    refine hrep.congr rfl fun p hm => ?_
    simp [PureRbtree.setParent, PureRbtree.setRson, ne_of_mem_of_not_mem hm hyr]
  · have hyr' : y ≠ rootPtr s.nil r := (ne_of_mem_of_not_mem hrmem hyr).symm
    simp [hs', PureRbtree.setParent, PureRbtree.setRson, hyr']
  · intro p hpy hpr
    simp [hs', PureRbtree.setParent, PureRbtree.setRson, hpy, hpr]

/-- `y` の親は、右の部分木の中の節である。 -/
theorem parent_ne_of_deep {f : Frame Entry} {lpath : Path Entry}
    (hy : Shows s (fill (f :: lpath ++ ⟨.right, c, z, l⟩ :: path) (.mk .left cy .leaf y yr))) :
    s.parent y.ptr ≠ z.ptr := by
  have hpar : s.parent y.ptr = f.entry.ptr := hy.parent
  have hnd := nodup_mk.mp (nodup_fill.mp hy.nodup)
  rw [hpar]
  simp only [List.cons_append, Path.toList, Path.toList_append, ptrs_cons, ptrs_append,
    List.nodup_cons, List.nodup_append, List.mem_append, List.mem_cons, not_or] at hnd
  exact hnd.2.2.2.1.1.2.2.1

/-- 子が高々一つの節を外した木に、その節は無い。 -/
theorem notMem_fill_of_mk {d : Side} {X : RBTree Entry} {hole : Path Entry}
    (hy : Shows s (fill hole (.mk d cy .leaf y X))) : y.ptr ∉ ptrs (fill hole X).toList := by
  have hnd := nodup_mk.mp (nodup_fill.mp hy.nodup)
  intro hm
  have hm' := ((toList_fill_perm _ X).map Entry.ptr).mem_iff.mp hm
  rw [List.map_append] at hm'
  exact (List.nodup_cons.mp (List.nodup_cons.mp hnd).2).1 hm'

/-- 木の外にある `y` を加えても、番地は互いに異なる。 -/
theorem Shows.nodup_with {r : RBTree Entry} {q : Ptr}
    (hz : Shows s (fill path (.mk .left c l z r))) (hqn : q ≠ s.nil)
    (hq : q ∉ ptrs (fill path (.mk .left c l z r)).toList) :
    (s.nil :: z.ptr :: q ::
      (ptrs l.toList ++ (ptrs r.toList ++ ptrs (Path.toList path)))).Nodup := by
  have hnd := nodup_mk.mp (nodup_fill.mp hz.nodup)
  have hq' : q ∉ z.ptr :: (ptrs l.toList ++ ptrs r.toList ++ ptrs (Path.toList path)) := by
    have hperm := ((toList_fill_perm path (.mk .left c l z r)).map Entry.ptr).trans
      (((RBTree.toList_mk_perm .left c l r z).append_right _).map Entry.ptr)
    intro hm
    exact hq (hperm.mem_iff.mpr (by simpa [ptrs] using hm))
  simp only [List.nodup_cons, List.append_assoc, List.mem_cons, not_or] at hnd hq' ⊢
  exact ⟨⟨hnd.1.1, Ne.symm hqn, hnd.1.2⟩, ⟨Ne.symm hq'.1, hnd.2.1⟩, hq'.2, hnd.2.2⟩

/-- 外した `y` の下に `z` の右の部分木を繋ぐ。書かれるのは `y` と部分木の根の cell だけである。 -/
theorem hangRight_taken {r : RBTree Entry} (hz : Shows s (fill path (.mk .left c l z r)))
    (hr : r ≠ .leaf) (hyn : y.ptr ≠ s.nil)
    (hyt : y.ptr ∉ ptrs (fill path (.mk .left c l z r)).toList) (hkey : s.key y.ptr = y.key)
    (hdata : s.data y.ptr = y.data) {s' : PureRbtree}
    (hs' : s' = (s.setRson y.ptr (rootPtr s.nil r)).setParent (rootPtr s.nil r) y.ptr) :
    Taken s' path c l z y r ∧
      ∀ p, p ≠ y.ptr → p ∉ ptrs r.toList → s'.heap p = s.heap p := by
  have hnd := hz.nodup_with hyn hyt
  have D := hnd
  simp only [List.nodup_cons, List.nodup_append, List.mem_cons, List.mem_append, not_or] at D
  obtain ⟨⟨hnz, -, hnl, hnr, hnp⟩, ⟨hzy, hzl, hzr, hzp⟩, ⟨hyl, hyr, hyp⟩, -, ⟨hrnd, -, hrp⟩,
    hldisj⟩ := D
  have hrmem : rootPtr s.nil r ∈ ptrs r.toList := rootPtr_mem hr
  obtain ⟨hp, ht, -⟩ := shows_fill.mp hz
  obtain ⟨-, hl, hrep⟩ := rep_mk.mp ht
  rw [rootPtr_mk] at hp
  obtain ⟨hright, hyc, hframe⟩ := hangRight_spec hrep hr
    (by simp only [List.nodup_cons, List.mem_cons, not_or]; exact ⟨⟨hyn.symm, hnr⟩, hyr, hrnd⟩) hs'
  have hnil : s'.nil = s.nil := by rw [hs']; rfl
  have hzc : s'.heap z.ptr = s.heap z.ptr :=
    hframe _ hzy (ne_of_mem_of_not_mem hrmem hzr).symm
  refine ⟨?_, fun p hpy hpr => hframe p hpy (ne_of_mem_of_not_mem hrmem hpr).symm⟩
  exact
    { hole := hp.congr hnil (by rw [hs']; rfl) fun p hm => hframe p (ne_of_mem_of_not_mem hm hyp)
        fun hpr => hrp _ hrmem p hm hpr.symm
      parent := by rw [PureRbtree.parent, hzc, hnil]; exact hz.parent
      lson := by rw [PureRbtree.lson, hzc, hnil]; exact hz.son
      colour := by rw [PureRbtree.colour, hzc]; exact hz.colour
      left := hl.congr hnil fun p hm => hframe p (ne_of_mem_of_not_mem hm hyl)
        fun hpr => hldisj p hm _ (.inl hrmem) hpr
      right := hright
      rson := by rw [PureRbtree.rson, hyc, hnil]
      key := by rw [PureRbtree.key, hyc]; exact hkey
      data := by rw [PureRbtree.data, hyc]; exact hdata
      nodup := hnil ▸ hnd }

/-- `y` が `z` の右の部分木の奥にあるとき。`y` を外し、その右の子を `z` の右の部分木にする。 -/
theorem takeSuccessor_deep {f : Frame Entry} {lpath : Path Entry}
    (h : Shows s (fill path (.node c l z (fill (f :: lpath) (.node cy .leaf y yr))))) :
    ∃ s', s.takeSuccessor z.ptr y.ptr = s' ∧
      Taken s' path c l z y (fill (f :: lpath) yr) ∧
      OffTree (fill path (.mk .left c l y (fill (f :: lpath) yr))) s s' ∧
      s'.heap s.nil =
        markHole s.nil (f :: lpath ++ ⟨.right, c, y, l⟩ :: path) yr (s.heap s.nil) := by
  have hy : Shows s (fill (f :: lpath ++ ⟨.right, c, z, l⟩ :: path) (.mk .left cy .leaf y yr)) := by
    rw [fill_append]
    exact h
  obtain ⟨s₁, hs₁, hz₁, hoff₁, hmark₁⟩ := transplant_son hy
  have hyt := notMem_fill_of_mk hy
  obtain ⟨hnil₁, hoff₁⟩ := hoff₁
  have hcell₁ : s₁.heap y.ptr = s.heap y.ptr := hoff₁ _ hy.ptr_ne_nil hyt
  rw [fill_append] at hz₁ hyt hoff₁
  set r := fill (f :: lpath) yr with hr
  change Shows s₁ (fill path (.mk .left c l z r)) at hz₁
  have hrne : r ≠ .leaf := by
    rw [hr, fill_cons]
    exact fill_ne_leaf (mk_ne_leaf _ _ _ _ _)
  have hyn : y.ptr ≠ s₁.nil := by
    rw [hnil₁]
    exact hy.ptr_ne_nil
  have heq : s.takeSuccessor z.ptr y.ptr =
      (s₁.setRson y.ptr (rootPtr s₁.nil r)).setParent (rootPtr s₁.nil r) y.ptr := by
    have hrson : s.rson y.ptr = rootPtr s.nil yr := hy.son_other
    have hzr₁ : s₁.rson z.ptr = rootPtr s₁.nil r := hz₁.son_other
    have hyr₂ : (s₁.setRson y.ptr (rootPtr s₁.nil r)).rson y.ptr = rootPtr s₁.nil r := by
      simp [PureRbtree.rson, PureRbtree.setRson]
    unfold PureRbtree.takeSuccessor
    rw [if_neg (parent_ne_of_deep hy), hrson, hs₁]
    simp only [hzr₁, hyr₂]
  obtain ⟨htaken, hframe⟩ := hangRight_taken hz₁ hrne hyn hyt
    (by rw [PureRbtree.key, hcell₁]; exact hy.key)
    (by rw [PureRbtree.data, hcell₁]; exact hy.data) rfl
  -- `z` の `rson` は右の部分木の根のままなので、`z` の cell は変わらない
  have hzcell : s₁.heap z.ptr = s.heap z.ptr := by
    have hz : Shows s (fill path (.mk .left c l z (fill (f :: lpath) (.node cy .leaf y yr)))) := h
    rw [hz₁.cell, hz.cell, hnil₁, hr, rootPtr_fill_cons f lpath yr]
  refine ⟨_, heq, htaken, ⟨hnil₁, fun p hpn hm => ?_⟩, ?_⟩
  · -- `y` と右の部分木とその上の節のほかは、外すときも繋ぎ直すときも書かれない
    simp only [mem_ptrs_fill, mem_ptrs_mk, not_or] at hm
    obtain ⟨⟨hpy, hpl, hpr⟩, hpp⟩ := hm
    rw [hframe p hpy hpr]
    by_cases hpz : p = z.ptr
    · rw [hpz, hzcell]
    · refine hoff₁ p hpn ?_
      show p ∉ ptrs (fill path (.mk .left c l z r)).toList
      simp only [mem_ptrs_fill, mem_ptrs_mk, not_or]
      exact ⟨⟨hpz, hpl, hpr⟩, hpp⟩
  · have hnd := hz₁.nodup_with hyn hyt
    simp only [List.nodup_cons, List.mem_cons, List.mem_append, not_or] at hnd
    rw [← hnil₁, hframe _ hyn.symm hnd.1.2.2.2.1, hnil₁, hmark₁]
    rfl

end Take

/-! ## `rb_delete` -/

/-- 節を外した後、`y_orc` に応じて後始末をすれば平衡する。 -/
theorem finishDelete_spec {d : Side} {c : Colour} {y : Entry} {X : RBTree Entry} {n : Nat}
    (h : AtHole s path X) (hy : (RBTree.mk d c .leaf y X).Balanced c n)
    (hpath : PathBalanced path c n) :
    ∃ t m, t.Balanced .black m ∧ t.toList = (fill path X).toList ∧
      ∀ r, AtHole r path X →
        ∃ r', Converges (fun fuel => PureRbtree.finishDelete fuel r c (rootPtr r.nil X)) r' ∧
          Shows r' t ∧ SameOff t r r' := by
  cases c with
  | red =>
    obtain ⟨-, -, hX⟩ := RBTree.balanced_mk_red.mp hy
    obtain ⟨m, hbal⟩ := hpath.to_black.fill hX
    exact ⟨_, m, hbal, rfl, fun r hr => ⟨r, .pure r, hr.shows, .refl _ r⟩⟩
  | black =>
    obtain ⟨-, m, rfl, -, hX⟩ := RBTree.balanced_mk_black.mp hy
    have hinv : ∀ r, AtHole r path X → DeleteInv r (rootPtr r.nil X) path X m := fun r hr =>
      ⟨hr.shows, rfl, hr.parent, .of_balanced hX, hpath, hr.nil⟩
    obtain ⟨t, m', hbal, hlist, hloop⟩ := rbDeleteFixup_spec (hinv s h)
    refine ⟨t, m', hbal, hlist, fun r hr => ?_⟩
    obtain ⟨r', hrun, hshow, hsame⟩ := hloop r _ (hinv r hr)
    refine ⟨r', .of_lt hrun, hshow, hsame.1, fun p hp => hsame.2 p ?_⟩
    rw [← hlist]
    exact hp

/-- 後続の節を外して `z` の場所に据えると、`z` の無い木になる。 -/
theorem takePutSuccessor_spec {c cy : Colour} {l yr : RBTree Entry} {z y : Entry}
    {lpath : Path Entry} (h : Shows s (fill path (.node c l z (fill lpath (.node cy .leaf y yr)))))
    (hl : l ≠ .leaf) :
    ∃ s', (s.takeSuccessor z.ptr y.ptr).putSuccessor z.ptr y.ptr = s' ∧
      Shows s' (fill (lpath ++ ⟨.right, c, y, l⟩ :: path) yr) ∧
      OffTree (fill (lpath ++ ⟨.right, c, y, l⟩ :: path) yr) s s' ∧
      s'.heap s.nil = markHole s.nil (lpath ++ ⟨.right, c, y, l⟩ :: path) yr (s.heap s.nil) := by
  have htake : ∃ s₁, s.takeSuccessor z.ptr y.ptr = s₁ ∧ Taken s₁ path c l z y (fill lpath yr) ∧
      OffTree (fill path (.mk .left c l y (fill lpath yr))) s s₁ ∧
      s₁.heap s.nil = markHole s.nil (lpath ++ ⟨.right, c, y, l⟩ :: path) yr (s.heap s.nil) := by
    cases lpath with
    | nil => exact takeSuccessor_child h
    | cons f lpath => exact takeSuccessor_deep h
  obtain ⟨s₁, hs₁, htaken, hoff₁, hmark₁⟩ := htake
  obtain ⟨hshow, hsame⟩ := htaken.putSuccessor hl
  have hnil := (hsame.sameNil_of_shows hshow).2
  rw [hoff₁.1] at hnil
  rw [hs₁, fill_append]
  exact ⟨_, rfl, hshow, hoff₁.trans hsame.offTree (fun _ hp => hp), by rw [hnil, hmark₁]⟩

/-- 操作の後、状態は木 `t'` を表し、木の外で変わるのは番兵だけで、その cell は `mark` で決まる。 -/
structure Leaves (r : PureRbtree) (t' : RBTree Entry) (mark : RbNode → RbNode) (r' : PureRbtree) :
    Prop where
  shows : Shows r' t'
  off : OffTree t' r r'
  cell : r'.heap r.nil = mark (r.heap r.nil)

/-- 穴を空けてから後始末をする。 -/
theorem Leaves.of_hole {r₁ r' : PureRbtree} {X t' : RBTree Entry}
    (hoff : OffTree (fill path X) s r₁) (hcell : r₁.heap s.nil = markHole s.nil path X (s.heap s.nil))
    (hshow : Shows r' t') (hsame : SameOff t' r₁ r') (hlist : t'.toList = (fill path X).toList) :
    Leaves s t' (markHole s.nil path X) r' := by
  refine ⟨hshow, ?_, ?_⟩
  · refine (hoff.mono fun p hp => ?_).trans hsame.offTree (fun _ hp => hp)
    rw [hlist]
    exact hp
  · have hnil := (hsame.sameNil_of_shows hshow).2
    rw [hoff.1] at hnil
    rw [hnil, hcell]

/-- 子が高々一つの節を外して後始末をする。 -/
theorem deleteSon_spec {d : Side} {c : Colour} {z : Entry} {X : RBTree Entry} {m : Nat}
    (h : Shows s (fill path (.mk d c .leaf z X)))
    (hbal : (fill path (.mk d c .leaf z X)).Balanced .black m) (hnil : s.colour s.nil = .black) :
    ∃ t m', t.Balanced .black m' ∧ t.toList = (fill path X).toList ∧
      ∀ r, Shows r (fill path (.mk d c .leaf z X)) → r.colour r.nil = .black →
        ∃ r', Converges (fun fuel => PureRbtree.finishDelete fuel
            (r.rbTransplant z.ptr (rootPtr r.nil X)) c (rootPtr r.nil X)) r' ∧
          Leaves r t (markHole r.nil path X) r' := by
  obtain ⟨n, hnode, hpath⟩ := hbal.unfill
  rw [RBTree.colour_mk] at hnode hpath
  obtain ⟨s₁, -, hshow₁, hoff₁, hmark₁⟩ := transplant_son h
  obtain ⟨t, m', hbal', hlist, hfinish⟩ :=
    finishDelete_spec (.of_mark hshow₁ hoff₁.1 hmark₁ hnil) hnode hpath
  refine ⟨t, m', hbal', hlist, fun r hr hrnil => ?_⟩
  obtain ⟨r₁, hr₁, hshow₁, hoff₁, hmark₁⟩ := transplant_son hr
  obtain ⟨r', hrun, hshow', hsame⟩ := hfinish r₁ (.of_mark hshow₁ hoff₁.1 hmark₁ hrnil)
  rw [hoff₁.1] at hrun
  rw [hr₁]
  exact ⟨r', hrun, .of_hole hoff₁ hmark₁ hshow' hsame hlist⟩

/-- 子が二つの節を外し、後続の節を据えて後始末をする。 -/
theorem deleteTwo_spec {c : Colour} {z : Entry} {l r : RBTree Entry} {m : Nat}
    (h : Shows s (fill path (.node c l z r))) (hbal : (fill path (.node c l z r)).Balanced .black m)
    (hnil : s.colour s.nil = .black) (hl : l ≠ .leaf) (hr : r ≠ .leaf) :
    ∃ t m' path' X, t.Balanced .black m' ∧
      t.toList = Path.before path ++ l.toList ++ (r.toList ++ Path.after path) ∧
      ∀ q, Shows q (fill path (.node c l z r)) → q.colour q.nil = .black →
        ∃ q', Converges (fun fuel => (q.treeMinimum fuel (rootPtr q.nil r)).bind fun y =>
            PureRbtree.finishDelete fuel ((q.takeSuccessor z.ptr y).putSuccessor z.ptr y)
              (q.colour y) (q.rson y)) q' ∧
          Leaves q t (markHole q.nil path' X) q' := by
  obtain ⟨lpath, cy, y, yr, hrfill, hrlist, hmin⟩ := treeMinimum_spec (⟨.right, c, z, l⟩ :: path) hr
  subst hrfill
  have hbal₀ : (fill (lpath ++ ⟨.right, c, z, l⟩ :: path)
      (.mk .left cy .leaf y yr)).Balanced .black m := by
    rw [fill_append]
    exact hbal
  obtain ⟨n, hynode, hpath⟩ := hbal₀.unfill
  rw [RBTree.colour_mk] at hynode hpath
  obtain ⟨s₁, -, hshow₁, hoff₁, hmark₁⟩ := takePutSuccessor_spec h hl
  obtain ⟨t, m', hbal', hlist, hfinish⟩ :=
    finishDelete_spec (.of_mark hshow₁ hoff₁.1 hmark₁ hnil) hynode hpath.replace
  refine ⟨t, m', lpath ++ ⟨.right, c, y, l⟩ :: path, yr, hbal', ?_, fun q hq hqnil => ?_⟩
  · rw [hlist, hrlist, fill_append]
    show (fill path (.node c l y (fill lpath yr))).toList = _
    simp [toList_fill]
  · obtain ⟨q₁, hq₁, hshow₁, hoff₁, hmark₁⟩ := takePutSuccessor_spec hq hl
    obtain ⟨q', hrun, hshow', hsame⟩ := hfinish q₁ (.of_mark hshow₁ hoff₁.1 hmark₁ hqnil)
    have hy : Shows q (fill (lpath ++ ⟨.right, c, z, l⟩ :: path) (.mk .left cy .leaf y yr)) := by
      rw [fill_append]
      exact hq
    have hrson : q.rson y.ptr = rootPtr q.nil yr := hy.son_other
    rw [hoff₁.1, ← hq₁, ← hrson, ← hy.colour] at hrun
    refine ⟨q', ?_, .of_hole hoff₁ hmark₁ hshow' hsame hlist⟩
    exact (Converges.of_lt (hmin q hq)).bind (g := fun y fuel =>
      PureRbtree.finishDelete fuel ((q.takeSuccessor z.ptr y).putSuccessor z.ptr y) (q.colour y)
        (q.rson y)) hrun

/-- 三つの場合の `rb_delete`。 -/
theorem rbDelete_cases {c : Colour} {z : Entry} {l r : RBTree Entry} {m : Nat}
    (h : Shows s (fill path (.node c l z r))) (hbal : (fill path (.node c l z r)).Balanced .black m)
    (hnil : s.colour s.nil = .black) :
    ∃ t m' path' X, t.Balanced .black m' ∧
      t.toList = Path.before path ++ l.toList ++ (r.toList ++ Path.after path) ∧
      ∀ q, Shows q (fill path (.node c l z r)) → q.colour q.nil = .black →
        ∃ q', Converges (fun fuel => q.rbDelete fuel z.ptr) q' ∧
          Leaves q t (markHole q.nil path' X) q' := by
  have hnode : ∀ q, Shows q (fill path (.node c l z r)) → q.lson z.ptr = rootPtr q.nil l ∧
      q.rson z.ptr = rootPtr q.nil r ∧ q.colour z.ptr = c := by
    intro q hq
    have hz : Shows q (fill path (.mk .left c l z r)) := hq
    exact ⟨hz.son, hz.son_other, hz.colour⟩
  by_cases hl : l = .leaf
  · subst hl
    have h₀ : Shows s (fill path (.mk .left c .leaf z r)) := h
    obtain ⟨t, m', hbal', hlist, hson⟩ := deleteSon_spec h₀ hbal hnil
    refine ⟨t, m', path, r, hbal', by rw [hlist, toList_fill]; simp, fun q hq hqnil => ?_⟩
    obtain ⟨hlson, hrson, hcolour⟩ := hnode q hq
    obtain ⟨q', hrun, hleaves⟩ := hson q hq hqnil
    refine ⟨q', hrun.congr fun fuel => ?_, hleaves⟩
    rw [PureRbtree.rbDelete, if_pos (show q.lson z.ptr = q.nil from hlson), hrson, hcolour]
  · have hlne : ∀ q, Shows q (fill path (.node c l z r)) → q.lson z.ptr ≠ q.nil := by
      intro q hq
      have hchild : Shows q (fill (⟨.left, c, z, r⟩ :: path) l) := hq
      rw [(hnode q hq).1]
      exact hchild.rootPtr_ne_nil hl
    by_cases hr : r = .leaf
    · subst hr
      have h₀ : Shows s (fill path (.mk .right c .leaf z l)) := h
      obtain ⟨t, m', hbal', hlist, hson⟩ := deleteSon_spec h₀ hbal hnil
      refine ⟨t, m', path, l, hbal', by rw [hlist, toList_fill]; simp, fun q hq hqnil => ?_⟩
      obtain ⟨hlson, hrson, hcolour⟩ := hnode q hq
      obtain ⟨q', hrun, hleaves⟩ := hson q hq hqnil
      refine ⟨q', hrun.congr fun fuel => ?_, hleaves⟩
      rw [PureRbtree.rbDelete, if_neg (hlne q hq),
        if_pos (show q.rson z.ptr = q.nil from hrson), hlson, hcolour]
    · obtain ⟨t, m', path', X, hbal', hlist, htwo⟩ := deleteTwo_spec h hbal hnil hl hr
      refine ⟨t, m', path', X, hbal', hlist, fun q hq hqnil => ?_⟩
      obtain ⟨-, hrson, -⟩ := hnode q hq
      have hchild : Shows q (fill (⟨.right, c, z, l⟩ :: path) r) := hq
      have hrne : q.rson z.ptr ≠ q.nil := by
        rw [hrson]
        exact hchild.rootPtr_ne_nil hr
      obtain ⟨q', hrun, hleaves⟩ := htwo q hq hqnil
      refine ⟨q', hrun.congr fun fuel => ?_, hleaves⟩
      rw [PureRbtree.rbDelete, if_neg (hlne q hq), if_neg hrne, hrson]

/--
**`rb_delete` は、木と消す節だけで決まる木を残す。**

`r` は同じ木を表す任意の状態である。消した節を含めて、木の外の cell は番兵のほかは変わらない。
-/
theorem rbDelete_uniform {t : RBTree Entry} (h : Valid s t) {z : Entry} (hz : z ∈ t.toList) :
    ∃ t' before after path X, t.toList = before ++ z :: after ∧ t'.toList = before ++ after ∧
      ∀ r, Valid r t → ∃ r', Converges (fun fuel => r.rbDelete fuel z.ptr) r' ∧ Valid r' t' ∧
        Leaves r t' (markHole r.nil path X) r' := by
  obtain ⟨hshow, ⟨m, hbal⟩, hsorted, hblack⟩ := h
  obtain ⟨path, c, l, r, rfl⟩ := exists_fill_of_mem hz
  have hlist : (fill path (.node c l z r)).toList =
      (Path.before path ++ l.toList) ++ z :: (r.toList ++ Path.after path) := by
    simp [toList_fill]
  obtain ⟨t', m', path', X, hbal', hlist', hrun⟩ := rbDelete_cases hshow hbal hblack
  refine ⟨t', _, _, path', X, hlist, hlist', fun q hq => ?_⟩
  obtain ⟨q', hconv, hleaves⟩ := hrun q hq.shows hq.nil
  refine ⟨q', hconv, ⟨hleaves.shows, ⟨m', hbal'⟩, ?_, ?_⟩, hleaves⟩
  · have hsub : t'.toList.Sublist (fill path (.node c l z r)).toList := by
      rw [hlist, hlist']
      exact (List.sublist_cons_self _ _).append_left _
    exact hsorted.sublist hsub
  · rw [← hq.nil]
    unfold PureRbtree.colour
    rw [hleaves.off.1, hleaves.cell, markHole_colour]

/--
**`rb_delete` は止まり、中順の列から `z` だけを除く。**

ほかの節は番地も `key` も `data` も変わらない。木の外の cell は番兵のほかは変わらない。
-/
theorem rbDelete_spec {t : RBTree Entry} (h : Valid s t) {z : Entry} (hz : z ∈ t.toList) :
    ∃ s' t' before after, Converges (fun fuel => s.rbDelete fuel z.ptr) s' ∧ Valid s' t' ∧
      t.toList = before ++ z :: after ∧ t'.toList = before ++ after ∧ OffTree t s s' := by
  obtain ⟨t', before, after, path, X, hold, hnew, hrun⟩ := rbDelete_uniform h hz
  obtain ⟨s', hconv, hvalid, hleaves⟩ := hrun s h
  refine ⟨s', t', before, after, hconv, hvalid, hold, hnew, hleaves.off.mono fun p hp => ?_⟩
  rw [hnew, ptrs_append, List.mem_append] at hp
  rw [hold, ptrs_append, ptrs_cons, List.mem_append, List.mem_cons]
  exact hp.imp_right .inr

end RecordServer.Datas
