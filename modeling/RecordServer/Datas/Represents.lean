import RecordServer.Datas.PureRbtree
import Mathlib.Tactic.Tauto

/-!
# pointer の木が表す赤黒木

heap の cell の繋がりを、要素に番地を持つ木 `RBTree Entry` と突き合わせる。

* `Rep` / `PathRep` — 部分木の cell と、穴のある文脈の cell
* `Shows` — 状態全体が木を表す。番地は互いに違い、番兵とも違う
* `Shows.setColour` — 一つの節の色を変える
* `Shows.rotate` — 回転
-/

namespace RecordServer.Datas

open Infra

/-- 節の番地と、その `key`・`data`。 -/
structure Entry where
  ptr : Ptr
  key : Key
  data : Ptr
deriving DecidableEq, Repr

/-- 部分木の根の番地。葉なら番兵。 -/
def rootPtr (nil : Ptr) : RBTree Entry → Ptr
  | .leaf => nil
  | .node _ _ e _ => e.ptr

/-- 穴の親の番地。根の位置なら番兵。 -/
def parentPtr (nil : Ptr) : Path Entry → Ptr
  | [] => nil
  | f :: _ => f.entry.ptr

def ptrs (es : List Entry) : List Ptr := es.map Entry.ptr

@[simp] theorem ptrs_nil : ptrs [] = [] := rfl

@[simp] theorem ptrs_cons (e : Entry) (es : List Entry) : ptrs (e :: es) = e.ptr :: ptrs es := rfl

@[simp] theorem ptrs_append (es es' : List Entry) : ptrs (es ++ es') = ptrs es ++ ptrs es' :=
  List.map_append

@[simp] theorem rootPtr_mk (nil : Ptr) (d : Side) (c : Colour) (n f : RBTree Entry) (e : Entry) :
    rootPtr nil (.mk d c n e f) = e.ptr := by cases d <;> rfl

theorem rootPtr_mem {nil : Ptr} {t : RBTree Entry} (h : t ≠ .leaf) :
    rootPtr nil t ∈ ptrs t.toList := by
  cases t with
  | leaf => exact absurd rfl h
  | node c l e r => simp [rootPtr]

/-- `d` 側の子が `near`、反対側の子が `far` の cell。 -/
def cellOf (d : Side) (par near far : Ptr) (c : Colour) (e : Entry) : RbNode :=
  match d with
  | .left => ⟨par, near, far, c, e.key, e.data⟩
  | .right => ⟨par, far, near, c, e.key, e.data⟩

namespace RbNode

def son (n : RbNode) : Side → Ptr
  | .left => n.lson
  | .right => n.rson

def withSon (d : Side) (v : Ptr) (n : RbNode) : RbNode :=
  match d with
  | .left => { n with lson := v }
  | .right => { n with rson := v }

def withParent (v : Ptr) (n : RbNode) : RbNode := { n with parent := v }

def withColour (c : Colour) (n : RbNode) : RbNode := { n with colour := c }

end RbNode

section cellOf

variable (d : Side) (par near far v : Ptr) (c : Colour) (e : Entry)

@[simp] theorem cellOf_other : cellOf d.other par near far c e = cellOf d par far near c e := by
  cases d <;> rfl

@[simp] theorem cellOf_parent : (cellOf d par near far c e).parent = par := by cases d <;> rfl

@[simp] theorem cellOf_colour : (cellOf d par near far c e).colour = c := by cases d <;> rfl

@[simp] theorem cellOf_key : (cellOf d par near far c e).key = e.key := by cases d <;> rfl

@[simp] theorem cellOf_data : (cellOf d par near far c e).data = e.data := by cases d <;> rfl

@[simp] theorem cellOf_son : (cellOf d par near far c e).son d = near := by cases d <;> rfl

@[simp] theorem cellOf_son_other : (cellOf d par near far c e).son d.other = far := by
  cases d <;> rfl

@[simp] theorem cellOf_withSon :
    (cellOf d par near far c e).withSon d v = cellOf d par v far c e := by cases d <;> rfl

@[simp] theorem cellOf_withSon_other :
    (cellOf d par near far c e).withSon d.other v = cellOf d par near v c e := by cases d <;> rfl

@[simp] theorem cellOf_withParent :
    (cellOf d par near far c e).withParent v = cellOf d v near far c e := by cases d <;> rfl

@[simp] theorem cellOf_withColour (c' : Colour) :
    (cellOf d par near far c e).withColour c' = cellOf d par near far c' e := by cases d <;> rfl

end cellOf

namespace PureRbtree

@[simp] theorem modify_heap (s : PureRbtree) (p q : Ptr) (f : RbNode → RbNode) :
    (s.modify p f).heap q = if q = p then f (s.heap q) else s.heap q := by
  unfold modify
  by_cases h : q = p
  · subst h; simp
  · simp [h]

@[simp] theorem modify_nil (s : PureRbtree) (p : Ptr) (f : RbNode → RbNode) :
    (s.modify p f).nil = s.nil := rfl

@[simp] theorem modify_root (s : PureRbtree) (p : Ptr) (f : RbNode → RbNode) :
    (s.modify p f).root = s.root := rfl

@[simp] theorem setRoot_heap (s : PureRbtree) (p : Ptr) : (s.setRoot p).heap = s.heap := rfl

@[simp] theorem setRoot_nil (s : PureRbtree) (p : Ptr) : (s.setRoot p).nil = s.nil := rfl

@[simp] theorem setRoot_root (s : PureRbtree) (p : Ptr) : (s.setRoot p).root = p := rfl

theorem son_eq (s : PureRbtree) (d : Side) (p : Ptr) : s.son d p = (s.heap p).son d := by
  cases d <;> rfl

theorem setSon_eq (s : PureRbtree) (d : Side) (p v : Ptr) :
    s.setSon d p v = s.modify p (RbNode.withSon d v) := by
  cases d <;> rfl

theorem setParent_eq (s : PureRbtree) (p v : Ptr) :
    s.setParent p v = s.modify p (RbNode.withParent v) := rfl

theorem setColour_eq (s : PureRbtree) (p : Ptr) (c : Colour) :
    s.setColour p c = s.modify p (RbNode.withColour c) := rfl

end PureRbtree

/-! ## 表現 -/

/-- 部分木の cell が heap にある。`par` は根の親の番地。 -/
def Rep (s : PureRbtree) : Ptr → RBTree Entry → Prop
  | _, .leaf => True
  | par, .node c l e r =>
    s.heap e.ptr = cellOf .left par (rootPtr s.nil l) (rootPtr s.nil r) c e ∧
      Rep s e.ptr l ∧ Rep s e.ptr r

/-- 文脈の cell が heap にあり、穴を指す pointer が `q` である。 -/
def PathRep (s : PureRbtree) : Path Entry → Ptr → Prop
  | [], q => s.root = q
  | f :: path, q =>
    s.heap f.entry.ptr =
        cellOf f.side (parentPtr s.nil path) q (rootPtr s.nil f.sibling) f.colour f.entry ∧
      Rep s f.entry.ptr f.sibling ∧ PathRep s path f.entry.ptr

/-- 状態が木 `t` を表す。 -/
structure Shows (s : PureRbtree) (t : RBTree Entry) : Prop where
  root : s.root = rootPtr s.nil t
  rep : Rep s s.nil t
  nodup : (s.nil :: ptrs t.toList).Nodup

theorem rep_mk {s : PureRbtree} {par : Ptr} {d : Side} {c : Colour} {n f : RBTree Entry}
    {e : Entry} :
    Rep s par (.mk d c n e f) ↔
      s.heap e.ptr = cellOf d par (rootPtr s.nil n) (rootPtr s.nil f) c e ∧
        Rep s e.ptr n ∧ Rep s e.ptr f := by
  cases d with
  | left => rfl
  | right =>
    show _ ∧ _ ∧ _ ↔ _
    rw [and_comm (a := Rep s e.ptr f)]
    rfl

/-- 部分木の番地で heap が一致すれば、表現も一致する。 -/
theorem Rep.congr {s s' : PureRbtree} {par : Ptr} {t : RBTree Entry} (h : Rep s par t)
    (hnil : s'.nil = s.nil) (hheap : ∀ p ∈ ptrs t.toList, s'.heap p = s.heap p) :
    Rep s' par t := by
  induction t generalizing par with
  | leaf => trivial
  | node c l e r ihl ihr =>
    obtain ⟨he, hl, hr⟩ := h
    refine ⟨?_, ihl hl fun p hp => hheap p (by simp [hp]), ihr hr fun p hp => hheap p (by simp [hp])⟩
    rw [hheap e.ptr (by simp), he, hnil]

theorem PathRep.congr {s s' : PureRbtree} {path : Path Entry} {q : Ptr} (h : PathRep s path q)
    (hnil : s'.nil = s.nil) (hroot : s'.root = s.root)
    (hheap : ∀ p ∈ ptrs (Path.toList path), s'.heap p = s.heap p) : PathRep s' path q := by
  induction path generalizing q with
  | nil => exact hroot.trans h
  | cons f path ih =>
    obtain ⟨he, hs, hp⟩ := h
    simp only [Path.toList, ptrs_cons, ptrs_append, List.mem_cons, List.mem_append] at hheap
    refine ⟨?_, hs.congr hnil fun p hp => hheap p (.inr (.inl hp)), ih hp fun p hp =>
      hheap p (.inr (.inr hp))⟩
    rw [hheap f.entry.ptr (.inl rfl), he, hnil]

theorem rep_fill {s : PureRbtree} {path : Path Entry} {t : RBTree Entry} :
    s.root = rootPtr s.nil (fill path t) ∧ Rep s s.nil (fill path t) ↔
      PathRep s path (rootPtr s.nil t) ∧ Rep s (parentPtr s.nil path) t := by
  induction path generalizing t with
  | nil => rfl
  | cons f path ih =>
    rw [fill_cons, ih]
    simp only [Frame.fill, rootPtr_mk, rep_mk, PathRep, parentPtr]
    constructor
    · rintro ⟨hp, he, ht, hs⟩
      exact ⟨⟨he, hs, hp⟩, ht⟩
    · rintro ⟨⟨he, hs, hp⟩, ht⟩
      exact ⟨hp, he, ht, hs⟩

theorem nodup_fill {nil : Ptr} {path : Path Entry} {t : RBTree Entry} :
    (nil :: ptrs (fill path t).toList).Nodup ↔
      (nil :: (ptrs t.toList ++ ptrs (Path.toList path))).Nodup := by
  rw [← ptrs_append]
  exact (((toList_fill_perm path t).map _).cons nil).nodup_iff

/-- 全体の表現は、文脈の表現と部分木の表現に分かれる。 -/
theorem shows_fill {s : PureRbtree} {path : Path Entry} {t : RBTree Entry} :
    Shows s (fill path t) ↔
      PathRep s path (rootPtr s.nil t) ∧ Rep s (parentPtr s.nil path) t ∧
        (s.nil :: (ptrs t.toList ++ ptrs (Path.toList path))).Nodup := by
  constructor
  · rintro ⟨hroot, hrep, hnd⟩
    obtain ⟨hp, ht⟩ := rep_fill.mp ⟨hroot, hrep⟩
    exact ⟨hp, ht, nodup_fill.mp hnd⟩
  · rintro ⟨hp, ht, hnd⟩
    obtain ⟨hroot, hrep⟩ := rep_fill.mpr ⟨hp, ht⟩
    exact ⟨hroot, hrep, nodup_fill.mpr hnd⟩

/-! ## 読み出し -/

section Read

variable {s : PureRbtree} {path : Path Entry} {d : Side} {c : Colour} {n f : RBTree Entry}
  {e : Entry}

theorem Shows.cell (h : Shows s (fill path (.mk d c n e f))) :
    s.heap e.ptr = cellOf d (parentPtr s.nil path) (rootPtr s.nil n) (rootPtr s.nil f) c e :=
  (rep_mk.mp (shows_fill.mp h).2.1).1

theorem Shows.parent (h : Shows s (fill path (.mk d c n e f))) :
    s.parent e.ptr = parentPtr s.nil path := by
  rw [PureRbtree.parent, h.cell, cellOf_parent]

theorem Shows.son (h : Shows s (fill path (.mk d c n e f))) :
    s.son d e.ptr = rootPtr s.nil n := by
  rw [PureRbtree.son_eq, h.cell, cellOf_son]

theorem Shows.son_other (h : Shows s (fill path (.mk d c n e f))) :
    s.son d.other e.ptr = rootPtr s.nil f := by
  rw [PureRbtree.son_eq, h.cell, cellOf_son_other]

theorem Shows.colour (h : Shows s (fill path (.mk d c n e f))) : s.colour e.ptr = c := by
  rw [PureRbtree.colour, h.cell, cellOf_colour]

theorem Shows.key (h : Shows s (fill path (.mk d c n e f))) : s.key e.ptr = e.key := by
  rw [PureRbtree.key, h.cell, cellOf_key]

theorem Shows.data (h : Shows s (fill path (.mk d c n e f))) : s.data e.ptr = e.data := by
  rw [PureRbtree.data, h.cell, cellOf_data]

theorem Shows.ptr_ne_nil (h : Shows s (fill path (.mk d c n e f))) : e.ptr ≠ s.nil := by
  have hnd := nodup_fill.mp h.nodup
  have hmem : rootPtr s.nil (.mk d c n e f) ∈ ptrs (RBTree.mk d c n e f).toList :=
    rootPtr_mem (by cases d <;> simp)
  rw [rootPtr_mk] at hmem
  intro heq
  exact (List.nodup_cons.mp hnd).1 (List.mem_append_left _ (heq ▸ hmem))

theorem Shows.rootPtr_ne_nil {t : RBTree Entry} (h : Shows s (fill path t)) (ht : t ≠ .leaf) :
    rootPtr s.nil t ≠ s.nil := by
  cases t with
  | leaf => exact absurd rfl ht
  | node c l e r => exact Shows.ptr_ne_nil (d := .left) h

/-- 番兵が黒ければ、部分木の根の cell の色はその木の色である。 -/
theorem Shows.colour_rootPtr {t : RBTree Entry} (h : Shows s (fill path t))
    (hnil : s.colour s.nil = .black) : s.colour (rootPtr s.nil t) = t.colour := by
  cases t with
  | leaf => exact hnil
  | node c l e r => exact Shows.colour (d := .left) h

/-- 同じ木の中の、穴とその兄弟の根は違う番地である。どちらも葉のときだけ番兵で一致する。 -/
theorem Shows.rootPtr_ne {t : RBTree Entry} {fr : Frame Entry} (h : Shows s (fill (fr :: path) t))
    (hne : t ≠ .leaf ∨ fr.sibling ≠ .leaf) : rootPtr s.nil t ≠ rootPtr s.nil fr.sibling := by
  have hnd := nodup_fill.mp h.nodup
  simp only [Path.toList, ptrs_cons, ptrs_append, List.nodup_cons, List.nodup_append,
    List.mem_append, List.mem_cons, not_or] at hnd
  obtain ⟨⟨hnt, -, hns, -⟩, -, -, hdisj⟩ := hnd
  intro heq
  by_cases ht : t = .leaf
  · have hs : fr.sibling ≠ .leaf := hne.resolve_left (not_not_intro ht)
    have hmem : rootPtr s.nil fr.sibling ∈ ptrs fr.sibling.toList := rootPtr_mem hs
    rw [← heq, ht] at hmem
    exact hns hmem
  · by_cases hs : fr.sibling = .leaf
    · have hmem : rootPtr s.nil t ∈ ptrs t.toList := rootPtr_mem ht
      rw [heq, hs] at hmem
      exact hnt hmem
    · exact hdisj _ (rootPtr_mem ht) _ (.inr (.inl (rootPtr_mem hs))) heq

end Read

/-- 番兵の番地も cell も変わらない。 -/
def SameNil (s s' : PureRbtree) : Prop := s'.nil = s.nil ∧ s'.heap s.nil = s.heap s.nil

theorem SameNil.trans {s s' s'' : PureRbtree} (h : SameNil s s') (h' : SameNil s' s'') :
    SameNil s s'' := by
  obtain ⟨h₁, h₂⟩ := h
  obtain ⟨h₁', h₂'⟩ := h'
  exact ⟨h₁'.trans h₁, by rw [h₁] at h₂'; exact h₂'.trans h₂⟩

theorem SameNil.colour {s s' : PureRbtree} (h : SameNil s s') :
    s'.colour s'.nil = s.colour s.nil := by
  unfold PureRbtree.colour
  rw [h.1, h.2]

/-- `t` の節のほかの cell は、番兵も含めて変わらない。 -/
def SameOff (t : RBTree Entry) (s s' : PureRbtree) : Prop :=
  s'.nil = s.nil ∧ ∀ p, p ∉ ptrs t.toList → s'.heap p = s.heap p

theorem SameOff.refl (t : RBTree Entry) (s : PureRbtree) : SameOff t s s := ⟨rfl, fun _ _ => rfl⟩

theorem SameOff.trans {t t' : RBTree Entry} {s s' s'' : PureRbtree} (h : SameOff t s s')
    (h' : SameOff t' s' s'') (ht : t'.toList = t.toList) : SameOff t s s'' := by
  refine ⟨h'.1.trans h.1, fun p hp => ?_⟩
  rw [h'.2 p (ht ▸ hp), h.2 p hp]

theorem SameOff.sameNil {t : RBTree Entry} {s s' : PureRbtree} (h : SameOff t s s')
    (hs : Shows s t) : SameNil s s' := ⟨h.1, h.2 _ (List.nodup_cons.mp hs.nodup).1⟩

theorem SameOff.sameNil_of_shows {t : RBTree Entry} {s s' : PureRbtree} (h : SameOff t s s')
    (hs : Shows s' t) : SameNil s s' :=
  ⟨h.1, h.2 _ (h.1 ▸ (List.nodup_cons.mp hs.nodup).1)⟩

theorem SameOff.colour {t : RBTree Entry} {s s' : PureRbtree} (h : SameOff t s s')
    (hs : Shows s t) : s'.colour s'.nil = s.colour s.nil := (h.sameNil hs).colour

/-- `t` の節と番兵のほかの cell は変わらない。 -/
def OffTree (t : RBTree Entry) (s s' : PureRbtree) : Prop :=
  s'.nil = s.nil ∧ ∀ p, p ≠ s.nil → p ∉ ptrs t.toList → s'.heap p = s.heap p

theorem SameOff.offTree {t : RBTree Entry} {s s' : PureRbtree} (h : SameOff t s s') :
    OffTree t s s' := ⟨h.1, fun p _ hp => h.2 p hp⟩

theorem OffTree.trans {t t' : RBTree Entry} {s s' s'' : PureRbtree} (h : OffTree t s s')
    (h' : OffTree t' s' s'') (ht : ∀ p ∈ ptrs t'.toList, p ∈ ptrs t.toList) : OffTree t s s'' := by
  refine ⟨h'.1.trans h.1, fun p hnil hp => ?_⟩
  rw [h'.2 p (h.1 ▸ hnil) (mt (ht p) hp), h.2 p hnil hp]

theorem OffTree.mono {t t' : RBTree Entry} {s s' : PureRbtree} (h : OffTree t s s')
    (ht : ∀ p ∈ ptrs t.toList, p ∈ ptrs t'.toList) : OffTree t' s s' :=
  ⟨h.1, fun p hnil hp => h.2 p hnil (mt (ht p) hp)⟩

/-! ## 番地の区別 -/

/-- 穴のある木の節は、穴に入れた木の節か、外側の節である。 -/
theorem mem_ptrs_fill {path : Path Entry} {t : RBTree Entry} {p : Ptr} :
    p ∈ ptrs (fill path t).toList ↔ p ∈ ptrs t.toList ∨ p ∈ ptrs (Path.toList path) := by
  have hperm := (toList_fill_perm path t).map Entry.ptr
  rw [ptrs, hperm.mem_iff, List.map_append, List.mem_append]
  rfl

@[simp] theorem mem_ptrs_mk {d : Side} {c : Colour} {n f : RBTree Entry} {e : Entry} {p : Ptr} :
    p ∈ ptrs (RBTree.mk d c n e f).toList ↔
      p = e.ptr ∨ p ∈ ptrs n.toList ∨ p ∈ ptrs f.toList := by
  have hperm := (RBTree.toList_mk_perm d c n f e).map Entry.ptr
  rw [ptrs, hperm.mem_iff]
  simp [ptrs]

@[simp] theorem mem_ptrs_node {c : Colour} {l r : RBTree Entry} {e : Entry} {p : Ptr} :
    p ∈ ptrs (RBTree.node c l e r).toList ↔
      p = e.ptr ∨ p ∈ ptrs l.toList ∨ p ∈ ptrs r.toList := by
  simp only [RBTree.toList_node, ptrs_append, ptrs_cons, List.mem_append, List.mem_cons]
  tauto

theorem nodup_mk {nil : Ptr} {d : Side} {c : Colour} {n f : RBTree Entry} {e : Entry}
    {rest : List Ptr} :
    (nil :: (ptrs (RBTree.mk d c n e f).toList ++ rest)).Nodup ↔
      (nil :: e.ptr :: (ptrs n.toList ++ ptrs f.toList ++ rest)).Nodup := by
  have h := ((RBTree.toList_mk_perm d c n f e).map Entry.ptr).append_right rest
  exact (h.cons nil).nodup_iff.trans (by simp [ptrs])

section Update

variable {s : PureRbtree} {path : Path Entry}

/-! ## 色 -/

/-- **一つの節の色を変える。** -/
theorem Shows.setColour {d : Side} {c : Colour} {n f : RBTree Entry} {e : Entry}
    (h : Shows s (fill path (.mk d c n e f))) (c' : Colour) :
    Shows (s.setColour e.ptr c') (fill path (.mk d c' n e f)) ∧
      SameOff (fill path (.mk d c n e f)) s (s.setColour e.ptr c') := by
  obtain ⟨hp, ht, hnd⟩ := shows_fill.mp h
  obtain ⟨he, hn, hf⟩ := rep_mk.mp ht
  have hnd' := nodup_mk.mp hnd
  simp only [List.nodup_cons, List.mem_append, not_or] at hnd'
  obtain ⟨-, ⟨⟨hen, hef⟩, hep⟩, -⟩ := hnd'
  have hframe : ∀ p, p ≠ e.ptr → (s.setColour e.ptr c').heap p = s.heap p := by
    intro p hpe
    simp [PureRbtree.setColour_eq, hpe]
  refine ⟨shows_fill.mpr ⟨?_, ?_, nodup_mk.mpr (nodup_mk.mp hnd)⟩, rfl, fun p hm => hframe p ?_⟩
  · rw [rootPtr_mk] at hp ⊢
    exact hp.congr rfl rfl fun p hm => hframe p (ne_of_mem_of_not_mem hm hep)
  · refine rep_mk.mpr ⟨?_, hn.congr rfl fun p hm => hframe p (ne_of_mem_of_not_mem hm hen),
      hf.congr rfl fun p hm => hframe p (ne_of_mem_of_not_mem hm hef)⟩
    simp [PureRbtree.setColour_eq, he]
  · rintro rfl
    exact hm (mem_ptrs_fill.mpr (.inl (by simp)))

/-! ## 穴を指す pointer の付け替え -/

/-- 穴の親の cell（根の位置なら `root`）を、穴が `q` になるように書き換える。 -/
def setHole (s : PureRbtree) (path : Path Entry) (q : Ptr) : PureRbtree :=
  match path with
  | [] => s.setRoot q
  | f :: _ => s.setSon f.side f.entry.ptr q

theorem setHole_nil {q : Ptr} : (setHole s path q).nil = s.nil := by
  cases path with
  | nil => rfl
  | cons f path => simp [setHole, PureRbtree.setSon_eq]

theorem setHole_heap_of_notMem {q p : Ptr} (hp : p ∉ ptrs (Path.toList path)) :
    (setHole s path q).heap p = s.heap p := by
  cases path with
  | nil => rfl
  | cons f path =>
    simp only [Path.toList, ptrs_cons, List.mem_cons, not_or] at hp
    simp [setHole, PureRbtree.setSon_eq, hp.1]

theorem PathRep.setHole {q : Ptr} (h : PathRep s path q)
    (hnd : (ptrs (Path.toList path)).Nodup) (q' : Ptr) : PathRep (setHole s path q') path q' := by
  cases path with
  | nil => rfl
  | cons f path =>
    obtain ⟨he, hs, hp⟩ := h
    simp only [Path.toList, ptrs_cons, ptrs_append, List.nodup_cons, List.mem_append, not_or]
      at hnd
    have hframe : ∀ p, p ≠ f.entry.ptr →
        (Datas.setHole s (f :: path) q').heap p = s.heap p := by
      intro p hpe
      simp [Datas.setHole, PureRbtree.setSon_eq, hpe]
    refine ⟨?_, hs.congr setHole_nil fun p hm => hframe p (ne_of_mem_of_not_mem hm hnd.1.1),
      hp.congr setHole_nil ?_ fun p hm => hframe p (ne_of_mem_of_not_mem hm hnd.1.2)⟩
    · simp [Datas.setHole, PureRbtree.setSon_eq, he]
    · simp [Datas.setHole, PureRbtree.setSon_eq]

/-- `relink` は、`x` が文脈の穴にある節なら、穴を指す pointer を付け替える。 -/
theorem relink_eq {x y : Ptr} (hp : PathRep s path x) (hx : s.parent x = parentPtr s.nil path)
    (hnd : (s.nil :: x :: ptrs (Path.toList path)).Nodup) : s.relink x y = setHole s path y := by
  unfold PureRbtree.relink
  rw [hx]
  cases path with
  | nil => simp [parentPtr, setHole]
  | cons f path =>
    obtain ⟨he, -, -⟩ := hp
    simp only [Path.toList, ptrs_cons, ptrs_append, List.nodup_cons, List.mem_cons,
      List.mem_append, not_or] at hnd
    have hne : f.entry.ptr ≠ s.nil := fun h => hnd.1.2.1 h.symm
    obtain ⟨d, c, e, sib⟩ := f
    simp only [parentPtr, if_neg hne, PureRbtree.lson, he]
    cases d with
    | left => simp [cellOf, setHole, PureRbtree.setSon]
    | right =>
      have hxs : x ≠ rootPtr s.nil sib := by
        cases sib with
        | leaf => exact fun h => hnd.1.1 h.symm
        | node c' l e' r =>
          intro h
          exact hnd.2.1.2.1 (h ▸ rootPtr_mem (by simp))
      simp [cellOf, hxs, setHole, PureRbtree.setSon]

/-! ## 部分木の親の付け替え -/

/-- 葉でなければ、部分木の根の `parent` を `x` にする。 -/
def reparent (s : PureRbtree) (t : RBTree Entry) (x : Ptr) : PureRbtree :=
  if rootPtr s.nil t ≠ s.nil then s.setParent (rootPtr s.nil t) x else s

theorem reparent_nil {t : RBTree Entry} {x : Ptr} : (reparent s t x).nil = s.nil := by
  unfold reparent
  split <;> rfl

theorem reparent_root {t : RBTree Entry} {x : Ptr} : (reparent s t x).root = s.root := by
  unfold reparent
  split <;> rfl

theorem reparent_heap_of_notMem {t : RBTree Entry} {x p : Ptr} (hp : p ∉ ptrs t.toList) :
    (reparent s t x).heap p = s.heap p := by
  cases t with
  | leaf => simp [reparent, rootPtr]
  | node c l e r =>
    have hne : p ≠ e.ptr := by
      rintro rfl
      simp at hp
    unfold reparent
    split
    · simp [PureRbtree.setParent_eq, rootPtr, hne]
    · rfl

theorem Rep.reparent {par x : Ptr} {t : RBTree Entry} (h : Rep s par t)
    (hnd : (s.nil :: ptrs t.toList).Nodup) : Rep (reparent s t x) x t := by
  cases t with
  | leaf => trivial
  | node c l e r =>
    obtain ⟨he, hl, hr⟩ := h
    simp only [RBTree.toList_node, ptrs_append, ptrs_cons, List.nodup_cons, List.nodup_append,
      List.mem_append, List.mem_cons, not_or] at hnd
    obtain ⟨⟨-, hne, -⟩, -, ⟨her, -⟩, hle⟩ := hnd
    have heq : Datas.reparent s (.node c l e r) x = s.setParent e.ptr x := by
      simp [Datas.reparent, rootPtr, Ne.symm hne]
    have hframe : ∀ p, p ≠ e.ptr → (s.setParent e.ptr x).heap p = s.heap p := by
      intro p hpe
      simp [PureRbtree.setParent_eq, hpe]
    rw [heq]
    refine ⟨?_, hl.congr rfl fun p hm => hframe p (hle p hm e.ptr (.inl rfl)),
      hr.congr rfl fun p hm => hframe p (ne_of_mem_of_not_mem hm her)⟩
    simp [PureRbtree.setParent_eq, he]

/-! ## 回転 -/

/-- 回転に関わる部分の番地の区別。 -/
structure RotateDistinct (nil x y : Ptr) (as bs cs ps : List Ptr) : Prop where
  nil_ne : nil ≠ x ∧ nil ≠ y
  nil_notMem : nil ∉ as ∧ nil ∉ bs ∧ nil ∉ cs ∧ nil ∉ ps
  ne : x ≠ y
  x_notMem : x ∉ as ∧ x ∉ bs ∧ x ∉ cs ∧ x ∉ ps
  y_notMem : y ∉ as ∧ y ∉ bs ∧ y ∉ cs ∧ y ∉ ps
  nodup_bs : bs.Nodup
  nodup_ps : ps.Nodup
  as_bs : ∀ p ∈ as, p ∉ bs
  as_ps : ∀ p ∈ as, p ∉ ps
  bs_ps : ∀ p ∈ bs, p ∉ ps
  cs_bs : ∀ p ∈ cs, p ∉ bs
  cs_ps : ∀ p ∈ cs, p ∉ ps

theorem nodup_mk_mk {nil : Ptr} {d : Side} {cx cy : Colour} {a b c : RBTree Entry} {x y : Entry} :
    (nil :: ptrs (fill path (.mk d cx a x (.mk d cy b y c))).toList).Nodup ↔
      (nil :: x.ptr :: y.ptr ::
        (ptrs a.toList ++ (ptrs b.toList ++ (ptrs c.toList ++ ptrs (Path.toList path))))).Nodup := by
  rw [nodup_fill, nodup_mk]
  have hperm : (ptrs a.toList ++ ptrs (RBTree.mk d cy b y c).toList ++ ptrs (Path.toList path)).Perm
      (y.ptr :: (ptrs a.toList ++ (ptrs b.toList ++ (ptrs c.toList ++ ptrs (Path.toList path))))) := by
    have hy := ((RBTree.toList_mk_perm d cy b c y).map Entry.ptr).append_left (ptrs a.toList)
    refine (hy.append_right _).trans ?_
    simp [ptrs]
  exact ((hperm.cons x.ptr).cons nil).nodup_iff

theorem rotateDistinct_of_nodup {nil : Ptr} {d : Side} {cx cy : Colour} {a b c : RBTree Entry}
    {x y : Entry}
    (h : (nil :: ptrs (fill path (.mk d cx a x (.mk d cy b y c))).toList).Nodup) :
    RotateDistinct nil x.ptr y.ptr (ptrs a.toList) (ptrs b.toList) (ptrs c.toList)
      (ptrs (Path.toList path)) := by
  have h₂ := nodup_mk_mk.mp h
  simp only [List.nodup_cons, List.nodup_append, List.mem_append, List.mem_cons, not_or] at h₂
  obtain ⟨⟨hnx, hny, hna, hnb, hnc, hnp⟩, ⟨hxy, hxa, hxb, hxc, hxp⟩, ⟨hya, hyb, hyc, hyp⟩,
    -, ⟨hb, ⟨-, hp, hcp⟩, hbd⟩, had⟩ := h₂
  exact
    { nil_ne := ⟨hnx, hny⟩
      nil_notMem := ⟨hna, hnb, hnc, hnp⟩
      ne := hxy
      x_notMem := ⟨hxa, hxb, hxc, hxp⟩
      y_notMem := ⟨hya, hyb, hyc, hyp⟩
      nodup_bs := hb
      nodup_ps := hp
      as_bs := fun p hm hm' => had p hm p (.inl hm') rfl
      as_ps := fun p hm hm' => had p hm p (.inr (.inr hm')) rfl
      bs_ps := fun p hm hm' => hbd p hm p (.inr hm') rfl
      cs_bs := fun p hm hm' => hbd p hm' p (.inl hm) rfl
      cs_ps := fun p hm hm' => hcp p hm p hm' rfl }

/-- 回転の一連の書き込み。 -/
def rotateWrites (d : Side) (s : PureRbtree) (path : Path Entry) (x y : Ptr) (b : RBTree Entry) :
    PureRbtree :=
  let s := s.modify x (RbNode.withSon d.other (rootPtr s.nil b))
  let s := reparent s b x
  let s := s.modify y (RbNode.withParent (parentPtr s.nil path))
  let s := setHole s path y
  let s := s.modify y (RbNode.withSon d x)
  s.modify x (RbNode.withParent y)

section Rotate

variable {d : Side} {cx cy : Colour} {a b c : RBTree Entry} {x y : Entry}

theorem rotate_eq (h : Shows s (fill path (.mk d cx a x (.mk d cy b y c)))) :
    s.rotate d x.ptr = rotateWrites d s path x.ptr y.ptr b := by
  have D := rotateDistinct_of_nodup h.nodup
  obtain ⟨hp, ht, -⟩ := shows_fill.mp h
  obtain ⟨hx, -, ht⟩ := rep_mk.mp ht
  obtain ⟨hy, -, -⟩ := rep_mk.mp ht
  rw [rootPtr_mk] at hp hx
  have hxy : s.son d.other x.ptr = y.ptr := by rw [PureRbtree.son_eq, hx, cellOf_son_other]
  have hyb : s.son d y.ptr = rootPtr s.nil b := by rw [PureRbtree.son_eq, hy, cellOf_son]
  unfold PureRbtree.rotate rotateWrites
  simp only [hxy, hyb, PureRbtree.setSon_eq]
  set s₁ := s.modify x.ptr (RbNode.withSon d.other (rootPtr s.nil b)) with hs₁
  have hyb₁ : s₁.son d y.ptr = rootPtr s.nil b := by
    rw [PureRbtree.son_eq, hs₁, PureRbtree.modify_heap, if_neg (Ne.symm D.ne),
      ← PureRbtree.son_eq, hyb]
  have hs₂ : (if s₁.son d y.ptr ≠ s₁.nil then s₁.setParent (s₁.son d y.ptr) x.ptr else s₁) =
      reparent s₁ b x.ptr := by rw [hyb₁]; rfl
  rw [hs₂]
  have hx₂ : (reparent s₁ b x.ptr).parent x.ptr = parentPtr s.nil path := by
    unfold PureRbtree.parent
    rw [reparent_heap_of_notMem D.x_notMem.2.1, hs₁, PureRbtree.modify_heap, if_pos rfl, hx,
      cellOf_withSon_other, cellOf_parent]
  rw [hx₂, reparent_nil]
  set s₃ := (reparent s₁ b x.ptr).modify y.ptr (RbNode.withParent (parentPtr s.nil path)) with hs₃
  have hframe : ∀ p ∈ ptrs (Path.toList path), s₃.heap p = s.heap p := by
    intro p hm
    rw [hs₃, PureRbtree.modify_heap, if_neg (ne_of_mem_of_not_mem hm D.y_notMem.2.2.2),
      reparent_heap_of_notMem (fun hb => D.bs_ps p hb hm), hs₁, PureRbtree.modify_heap,
      if_neg (ne_of_mem_of_not_mem hm D.x_notMem.2.2.2)]
  have hnil₃ : s₃.nil = s.nil := reparent_nil
  have hroot₃ : s₃.root = s.root := reparent_root
  have hx₃ : s₃.parent x.ptr = parentPtr s₃.nil path := by
    unfold PureRbtree.parent
    rw [hs₃, PureRbtree.modify_heap, if_neg D.ne]
    exact hx₂.trans (by rw [← hs₃, hnil₃])
  have hnd : (s₃.nil :: x.ptr :: ptrs (Path.toList path)).Nodup := by
    rw [hnil₃]
    simp [D.nil_ne.1, D.nil_notMem.2.2.2, D.x_notMem.2.2.2, D.nodup_ps]
  show ((s₃.relink x.ptr y.ptr).modify y.ptr _).modify x.ptr _ = _
  rw [relink_eq (hp.congr hnil₃ hroot₃ hframe) hx₃ hnd]
  rfl

/-- 回転で書き換わらない cell。 -/
theorem rotateWrites_heap {p : Ptr} (hx : p ≠ x.ptr) (hy : p ≠ y.ptr) (hb : p ∉ ptrs b.toList)
    (hp : p ∉ ptrs (Path.toList path)) :
    (rotateWrites d s path x.ptr y.ptr b).heap p = s.heap p := by
  simp [rotateWrites, hx, hy, setHole_heap_of_notMem hp, reparent_heap_of_notMem hb]

/--
**回転。**

`x` と、その反対側の子 `y` の上下を入れ替える。番兵の cell は変わらない。
-/
theorem Shows.rotate (h : Shows s (fill path (.mk d cx a x (.mk d cy b y c)))) :
    Shows (s.rotate d x.ptr) (fill path (.mk d cy (.mk d cx a x b) y c)) ∧
      SameOff (fill path (.mk d cx a x (.mk d cy b y c))) s (s.rotate d x.ptr) := by
  have D := rotateDistinct_of_nodup h.nodup
  rw [rotate_eq h]
  obtain ⟨hp, ht, -⟩ := shows_fill.mp h
  obtain ⟨hx, ha, ht⟩ := rep_mk.mp ht
  obtain ⟨hy, hb, hc⟩ := rep_mk.mp ht
  rw [rootPtr_mk] at hp hx
  have hnil : (rotateWrites d s path x.ptr y.ptr b).nil = s.nil := by
    simp [rotateWrites, setHole_nil, reparent_nil]
  have hnil₂ : ∀ s : PureRbtree, (reparent s b x.ptr).nil = s.nil := fun _ => reparent_nil
  have hx' : (rotateWrites d s path x.ptr y.ptr b).heap x.ptr =
      cellOf d y.ptr (rootPtr s.nil a) (rootPtr s.nil b) cx x := by
    simp [rotateWrites, D.ne, setHole_heap_of_notMem D.x_notMem.2.2.2,
      reparent_heap_of_notMem D.x_notMem.2.1, hx]
  have hy' : (rotateWrites d s path x.ptr y.ptr b).heap y.ptr =
      cellOf d (parentPtr s.nil path) x.ptr (rootPtr s.nil c) cy y := by
    simp [rotateWrites, Ne.symm D.ne, setHole_heap_of_notMem D.y_notMem.2.2.2,
      reparent_heap_of_notMem D.y_notMem.2.1, hy, hnil₂]
  have hb' : Rep (rotateWrites d s path x.ptr y.ptr b) x.ptr b := by
    set s₁ := s.modify x.ptr (RbNode.withSon d.other (rootPtr s.nil b)) with hs₁
    have hb₁ : Rep s₁ y.ptr b := hb.congr rfl fun p hm => by
      simp [hs₁, ne_of_mem_of_not_mem hm D.x_notMem.2.1]
    have hb₂ : Rep (reparent s₁ b x.ptr) x.ptr b :=
      hb₁.reparent (List.nodup_cons.mpr ⟨D.nil_notMem.2.1, D.nodup_bs⟩)
    refine hb₂.congr (hnil.trans (hnil₂ s₁).symm) fun p hm => ?_
    simp [rotateWrites, ne_of_mem_of_not_mem hm D.x_notMem.2.1,
      ne_of_mem_of_not_mem hm D.y_notMem.2.1, setHole_heap_of_notMem (D.bs_ps p hm), hs₁]
  have hp' : PathRep (rotateWrites d s path x.ptr y.ptr b) path y.ptr := by
    set s₃ := (reparent (s.modify x.ptr (RbNode.withSon d.other (rootPtr s.nil b))) b x.ptr).modify
      y.ptr (RbNode.withParent (parentPtr s.nil path)) with hs₃
    have hp₃ : PathRep s₃ path x.ptr := hp.congr reparent_nil reparent_root fun p hm => by
      simp [hs₃, ne_of_mem_of_not_mem hm D.x_notMem.2.2.2,
        ne_of_mem_of_not_mem hm D.y_notMem.2.2.2,
        reparent_heap_of_notMem (fun hb => D.bs_ps p hb hm)]
    refine (hp₃.setHole D.nodup_ps y.ptr).congr ?_ ?_ fun p hm => ?_
    · rw [hnil, setHole_nil, hs₃, PureRbtree.modify_nil, hnil₂]
      rfl
    · simp [rotateWrites, hnil₂, hs₃]
    · simp [rotateWrites, ne_of_mem_of_not_mem hm D.x_notMem.2.2.2,
        ne_of_mem_of_not_mem hm D.y_notMem.2.2.2, hnil₂, hs₃]
  have hnodup : (s.nil :: ptrs (fill path (.mk d cy (.mk d cx a x b) y c)).toList).Nodup := by
    rw [toList_fill_congr (RBTree.toList_rotate d cy cx cx cy a b c x y)]
    exact h.nodup
  refine ⟨?_, hnil, fun p hm => ?_⟩
  rotate_left
  · simp only [mem_ptrs_fill, mem_ptrs_mk, not_or] at hm
    exact rotateWrites_heap hm.1.1 hm.1.2.2.1 hm.1.2.2.2.1 hm.2
  rw [shows_fill, ← nodup_fill, hnil, rootPtr_mk, rep_mk, rep_mk, hnil, rootPtr_mk]
  refine ⟨hp', ⟨hy', ⟨hx', ?_, hb'⟩, ?_⟩, hnodup⟩
  · exact ha.congr hnil fun p hm => rotateWrites_heap (ne_of_mem_of_not_mem hm D.x_notMem.1)
      (ne_of_mem_of_not_mem hm D.y_notMem.1) (D.as_bs p hm) (D.as_ps p hm)
  · exact hc.congr hnil fun p hm => rotateWrites_heap (ne_of_mem_of_not_mem hm D.x_notMem.2.2.1)
      (ne_of_mem_of_not_mem hm D.y_notMem.2.2.1) (D.cs_bs p hm) (D.cs_ps p hm)

end Rotate

end Update

end RecordServer.Datas
