import RecordServer.Datas.Traversal
import RecordServer.Datas.Operations

/-!
# `rb_traversal` の順

`inorder_rb_traversal` は子へ下る前に `traversal_element` を呼ぶので、順は前順である。空の木では
番兵について呼ぶ。

* `rbTraversal_spec` — 訪ねる節は、表している木の前順に並ぶ
* `inOrder_iff` — `key` の順に並ぶのは、木が空でなく、どの左の子も親と同じ `key` のときに限る
* `root_visited_first` — 小さい左の子を持つ根は、子より先に訪ねられる
-/

namespace RecordServer.Datas

open Infra

variable {s : PureRbtree} {t : RBTree Entry}

/-- `rb_traversal` は、木の節だけを一度ずつ、`key` の小さい順に訪ねる。 -/
def TraversesInOrder (s : PureRbtree) : Prop :=
  ∃ visits, Converges (fun fuel => s.rbTraversal fuel) visits ∧ visits.Nodup ∧
    (∀ p, p ∈ visits ↔ InTree s p) ∧ visits.Pairwise fun p q => s.key p ≤ s.key q

/-! ## 訪ねる節 -/

/-- **空でない部分木では、訪ねる節は前順に並ぶ。** -/
theorem inorderRbTraversal_spec {par : Ptr} (h : Rep s par t) (hnil : s.nil ∉ ptrs t.toList)
    (ht : t ≠ .leaf) {fuel : Nat} (hfuel : t.height ≤ fuel) :
    s.inorderRbTraversal fuel (rootPtr s.nil t) = some (ptrs t.preorder) := by
  induction t generalizing par fuel with
  | leaf => exact absurd rfl ht
  | node c l e r ihl ihr =>
    obtain ⟨hcell, hl, hr⟩ := h
    simp only [mem_ptrs_node, not_or] at hnil
    have hlson : s.lson e.ptr = rootPtr s.nil l := by rw [PureRbtree.lson, hcell]; rfl
    have hrson : s.rson e.ptr = rootPtr s.nil r := by rw [PureRbtree.rson, hcell]; rfl
    obtain ⟨fuel, rfl⟩ : ∃ n, fuel = n + 1 := Nat.exists_eq_add_one.mpr (by
      rw [RBTree.height] at hfuel
      omega)
    have hheight : max l.height r.height ≤ fuel := Nat.le_of_succ_le_succ hfuel
    -- 子が番兵なら、その側では何も訪ねない
    have hside : ∀ {t : RBTree Entry}, s.nil ∉ ptrs t.toList →
        (t ≠ .leaf → s.inorderRbTraversal fuel (rootPtr s.nil t) = some (ptrs t.preorder)) →
        (if rootPtr s.nil t ≠ s.nil then s.inorderRbTraversal fuel (rootPtr s.nil t) else some []) =
          some (ptrs t.preorder) := by
      intro t hnil hrec
      cases t with
      | leaf => simp [rootPtr, RBTree.preorder]
      | node c' l' e' r' =>
        have hne : e'.ptr ≠ s.nil := fun heq => hnil (by simp [← heq])
        rw [show rootPtr s.nil (.node c' l' e' r') = e'.ptr from rfl] at hrec ⊢
        rw [if_pos hne, hrec (by simp)]
    have hleft := hside hnil.2.1 fun hne => ihl hl hnil.2.1 hne (by omega)
    have hright := hside hnil.2.2 fun hne => ihr hr hnil.2.2 hne (by omega)
    rw [show rootPtr s.nil (.node c l e r) = e.ptr from rfl, PureRbtree.inorderRbTraversal, hlson,
      hrson, hleft, hright]
    simp [RBTree.preorder]

/-- **空でない木では、`rb_traversal` は前順に訪ねる。** -/
theorem rbTraversal_spec (h : Shows s t) (ht : t ≠ .leaf) :
    Converges (fun fuel => s.rbTraversal fuel) (ptrs t.preorder) := by
  refine ⟨t.height, fun fuel hfuel => ?_⟩
  show s.rbTraversal fuel = _
  rw [PureRbtree.rbTraversal, h.root]
  exact inorderRbTraversal_spec h.rep (List.nodup_cons.mp h.nodup).1 ht hfuel

/-- 空の木では、初めに番兵について `traversal_element` を呼ぶ。 -/
theorem rbTraversal_empty {visits : List Ptr} (hroot : s.root = s.nil)
    (h : Converges (fun fuel => s.rbTraversal fuel) visits) : s.nil ∈ visits := by
  obtain ⟨n, hn⟩ := h
  have hrun : s.rbTraversal (n + 1) = some visits := hn (n + 1) (Nat.le_succ n)
  rw [PureRbtree.rbTraversal, hroot, PureRbtree.inorderRbTraversal] at hrun
  obtain ⟨l, -, hmap⟩ := Option.bind_eq_some_iff.mp hrun
  obtain ⟨r, -, rfl⟩ := Option.map_eq_some_iff.mp hmap
  exact List.mem_cons_self

/-! ## ちょうどの条件 -/

/-- どの左の子も、親と同じ `key` を持つ。 -/
def LeftSonsTied (s : PureRbtree) : Prop :=
  ∀ p, InTree s p → s.lson p ≠ s.nil → s.key (s.lson p) = s.key p

theorem leftTied_iff_of_rep {par : Ptr} (h : Rep s par t) (hnil : s.nil ∉ ptrs t.toList) :
    t.LeftTied Entry.key ↔
      ∀ p ∈ ptrs t.toList, s.lson p ≠ s.nil → s.key (s.lson p) = s.key p := by
  induction t generalizing par with
  | leaf => simp [RBTree.LeftTied]
  | node c l e r ihl ihr =>
    obtain ⟨hcell, hl, hr⟩ := h
    simp only [mem_ptrs_node, not_or] at hnil
    have hlson : s.lson e.ptr = rootPtr s.nil l := by rw [PureRbtree.lson, hcell]; rfl
    have hkey : s.key e.ptr = e.key := by rw [PureRbtree.key, hcell, cellOf_key]
    have hroot : (∀ b, l.root? = some b → b.key = e.key) ↔
        (s.lson e.ptr ≠ s.nil → s.key (s.lson e.ptr) = s.key e.ptr) := by
      rw [hlson, hkey]
      cases l with
      | leaf => simp [RBTree.root?, rootPtr]
      | node c' l' e' r' =>
        obtain ⟨hcell', -, -⟩ := hl
        have hkey' : s.key e'.ptr = e'.key := by rw [PureRbtree.key, hcell', cellOf_key]
        have hne : e'.ptr ≠ s.nil := fun heq => hnil.2.1 (by simp [← heq])
        simp [RBTree.root?, rootPtr, hkey', hne]
    rw [RBTree.LeftTied, hroot, ihl hl hnil.2.1, ihr hr hnil.2.2]
    simp only [mem_ptrs_node]
    constructor
    · rintro ⟨he, hl', hr'⟩ p (rfl | hp | hp)
      · exact he
      · exact hl' p hp
      · exact hr' p hp
    · intro hall
      exact ⟨hall e.ptr (.inl rfl), fun p hp => hall p (.inr (.inl hp)),
        fun p hp => hall p (.inr (.inr hp))⟩

theorem leftSonsTied_iff (h : Shows s t) : LeftSonsTied s ↔ t.LeftTied Entry.key := by
  rw [leftTied_iff_of_rep h.rep (List.nodup_cons.mp h.nodup).1]
  unfold LeftSonsTied
  simp only [inTree_iff h]

/-- 並んだ `key` は、heap から読んでも同じである。 -/
theorem pairwise_ptrs_iff (h : Valid s t) {es : List Entry} (hes : ∀ e ∈ es, e ∈ t.toList) :
    ((ptrs es).Pairwise fun p q => s.key p ≤ s.key q) ↔ es.Pairwise fun e e' => e.key ≤ e'.key := by
  rw [ptrs, List.pairwise_map]
  refine List.Pairwise.iff_of_mem fun {e e'} he he' => ?_
  rw [(h.cell (hes e he)).2.1, (h.cell (hes e' he')).2.1]

theorem traversesInOrder_iff (h : Valid s t) :
    TraversesInOrder s ↔ s.root ≠ s.nil ∧ LeftSonsTied s := by
  have hperm := RBTree.preorder_perm t
  rw [leftSonsTied_iff h.shows, ← RBTree.pairwise_preorder_iff h.sorted,
    ← pairwise_ptrs_iff h fun e he => hperm.mem_iff.mp he]
  constructor
  · rintro ⟨visits, hconv, -, hmem, hsorted⟩
    have hroot : s.root ≠ s.nil := by
      intro heq
      have htree := (inTree_iff h.shows s.nil).mp ((hmem s.nil).mp (rbTraversal_empty heq hconv))
      exact (List.nodup_cons.mp h.shows.nodup).1 htree
    have ht : t ≠ .leaf := by
      rintro rfl
      exact hroot h.shows.root
    obtain rfl := hconv.unique (rbTraversal_spec h.shows ht)
    exact ⟨hroot, hsorted⟩
  · rintro ⟨hroot, hsorted⟩
    have ht : t ≠ .leaf := by
      rintro rfl
      exact hroot h.shows.root
    refine ⟨ptrs t.preorder, rbTraversal_spec h.shows ht, ?_, fun p => ?_, hsorted⟩
    · exact (hperm.map Entry.ptr).nodup_iff.mpr (List.nodup_cons.mp h.shows.nodup).2
    · rw [inTree_iff h.shows]
      exact (hperm.map Entry.ptr).mem_iff

/--
**`rb_traversal` が節を一度ずつ `key` の順に訪ねるのは、木が空でなく、どの左の子も親と同じ `key` を
持つときに限る。**

操作の列でできるどの木についても成り立つ。
-/
theorem inOrder_iff (heap : Ptr → RbNode) (nil : Ptr) (ops : List Op) (s : PureRbtree)
    (hrun : Runs (.init heap nil) ops s) :
    TraversesInOrder s ↔ s.root ≠ s.nil ∧ LeftSonsTied s := by
  obtain ⟨t, hvalid⟩ := (Valid.init heap nil).runs hrun
  exact traversesInOrder_iff hvalid

/-! ## 節が一つと二つの木 -/

/-- `key` が 2 の節 2 だけの木。 -/
def oneNode : PureRbtree := (exec 10 (.init blankHeap 1) (.insertKeyData 2 2 7)).get (by decide)

/-- そこへ `key` が 1 の節 3 を加えた木。 -/
def twoNodes : PureRbtree := (exec 10 oneNode (.insertKeyData 3 1 8)).get (by decide)

theorem allowed_oneNode : Allowed (.init blankHeap 1) (.insertKeyData 2 2 7) := by
  refine ⟨by decide, by decide, ?_⟩
  rw [inTree_iff (Valid.init blankHeap 1).shows]
  simp

theorem exec_oneNode : Exec (.init blankHeap 1) (.insertKeyData 2 2 7) oneNode := by
  refine ⟨10, fun fuel hfuel => ?_⟩
  obtain ⟨k, rfl⟩ := Nat.exists_eq_add_of_le' hfuel
  rfl

/-- 木の節は 2 だけである。 -/
theorem inTree_oneNode {p : Ptr} (h : InTree oneNode p) : p = 2 := by
  induction h with
  | root => rfl
  | lson _ hne ih =>
    rw [ih] at hne
    exact absurd rfl hne
  | rson _ hne ih =>
    rw [ih] at hne
    exact absurd rfl hne

theorem runs_twoNodes :
    Runs (.init blankHeap 1) [.insertKeyData 2 2 7, .insertKeyData 3 1 8] twoNodes := by
  refine .cons allowed_oneNode exec_oneNode
    (.cons ⟨by decide, by decide, fun h => ?_⟩ ⟨10, fun fuel hfuel => ?_⟩ .nil)
  · exact absurd (inTree_oneNode h) (by decide)
  · obtain ⟨k, rfl⟩ := Nat.exists_eq_add_of_le' hfuel
    rfl

theorem inOrder_oneNode : TraversesInOrder oneNode := by
  refine (inOrder_iff blankHeap 1 _ oneNode (.cons allowed_oneNode exec_oneNode .nil)).mpr ⟨by decide, fun p hp hne => ?_⟩
  rw [inTree_oneNode hp] at hne
  exact absurd rfl hne

/-- **`key` が 1 の左の子を持つ `key` が 2 の根は、子より先に訪ねられる。空の木では番兵が訪ねられる。** -/
theorem root_visited_first :
    (Runs (.init blankHeap 1) [.insertKeyData 2 2 7, .insertKeyData 3 1 8] twoNodes ∧
      twoNodes.key 3 < twoNodes.key 2 ∧ Converges (fun fuel => twoNodes.rbTraversal fuel) [2, 3] ∧
      ¬ TraversesInOrder twoNodes) ∧
    Converges (fun fuel => (PureRbtree.init blankHeap 1).rbTraversal fuel) [1] ∧
      ¬ TraversesInOrder (.init blankHeap 1) := by
  have hvisits : Converges (fun fuel => twoNodes.rbTraversal fuel) [2, 3] := by
    refine ⟨10, fun fuel hfuel => ?_⟩
    obtain ⟨k, rfl⟩ := Nat.exists_eq_add_of_le' hfuel
    rfl
  refine ⟨⟨runs_twoNodes, by decide, hvisits, ?_⟩, ?_, ?_⟩
  · rintro ⟨visits, hconv, -, -, hsorted⟩
    obtain rfl := hconv.unique hvisits
    exact absurd hsorted (by decide)
  · refine ⟨1, fun fuel hfuel => ?_⟩
    obtain ⟨k, rfl⟩ := Nat.exists_eq_add_of_le' hfuel
    rfl
  · intro h
    exact ((traversesInOrder_iff (Valid.init blankHeap 1)).mp h).1 rfl

end RecordServer.Datas
