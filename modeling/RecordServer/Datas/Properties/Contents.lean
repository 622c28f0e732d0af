import RecordServer.Datas.Properties.Balance
import Mathlib.Data.Multiset.AddSub

/-!
# 赤黒木は `(key, data)` の多重集合である

木の形によらず、どの操作も多重集合の操作として読める。

* `Contents` — 状態が持つ `(key, data)` の多重集合。木の形から決まる
* `Refines` — 各操作と多重集合の対応
* `refines_along_run` — 新しい木から始まるどの run の後でも `Refines`
-/

namespace RecordServer.Datas

open Infra

/-- 節の列の `(key, data)`。 -/
def pairs (es : List Entry) : Multiset (Key × Ptr) := (es.map fun e => (e.key, e.data) : List _)

/-- 状態の中身。 -/
def Contents (s : PureRbtree) (M : Multiset (Key × Ptr)) : Prop :=
  ∃ t, Shows s t ∧ M = pairs t.toList

/-- 中身 `M` の状態 `s` で、各操作は多重集合の操作になる。 -/
structure Refines (s : PureRbtree) (M : Multiset (Key × Ptr)) : Prop where
  /-- `rb_insert_key_data(k, d)` は `(k, d)` を加える。 -/
  insertKeyData : ∀ z k d, Allowed s (.insertKeyData z k d) →
    ∃ s', Converges (fun fuel => s.rbInsertKeyData fuel z k d) (s', 0) ∧
      Contents s' ((k, d) ::ₘ M)
  /-- `rb_insert(z)` は `z` の対を加える。 -/
  insert : ∀ z n, Allowed s (.insert z n) →
    ∃ s', Exec s (.insert z n) s' ∧ Contents s' ((n.key, n.data) ::ₘ M)
  /-- `rb_delete_key(k)` は、`k` の対が無いときに限り `-1` を返す。 -/
  deleteKeyAbsent : ∀ k, (∃ s' out, Converges (fun fuel => s.rbDeleteKey fuel k) (s', -1, out)) ↔
    ∀ p ∈ M, p.1 ≠ k
  /-- そのときは何も変えない。 -/
  deleteKeyUnchanged : ∀ k, (∀ p ∈ M, p.1 ≠ k) →
    Converges (fun fuel => s.rbDeleteKey fuel k) (s, -1, none)
  /-- `k` の対があれば、その一つを除いて `data` を渡し、`0` を返す。 -/
  deleteKeyPresent : ∀ k, (∃ p ∈ M, p.1 = k) →
    ∃ s' d, (k, d) ∈ M ∧ Converges (fun fuel => s.rbDeleteKey fuel k) (s', 0, some d) ∧
      Contents s' (M.erase (k, d))
  /-- `rb_delete(z)` は `z` の対だけを除き、ほかの節はそのまま残す。 -/
  delete : ∀ z, InTree s z → ∃ s', Exec s (.delete z) s' ∧ (s.key z, s.data z) ∈ M ∧
    Contents s' (M.erase (s.key z, s.data z)) ∧
    ∀ p, (InTree s' p ↔ InTree s p ∧ p ≠ z) ∧
      (InTree s' p → s'.key p = s.key p ∧ s'.data p = s.data p)
  /-- `rb_search_key(k)` は `k` の対の `data` を、無ければ `NULL` を返す。 -/
  searchKey : ∀ k, ∃ out, Converges (fun fuel => s.rbSearchKey fuel k) out ∧
    ((∃ p ∈ M, p.1 = k) → (k, out) ∈ M) ∧ ((∀ p ∈ M, p.1 ≠ k) → out = 0)
  /-- 空でなければ、`tree_minimum_node` と `tree_minimum_key` は `key` の最も小さい対を与える。 -/
  minimum : M ≠ 0 → ∃ p, Converges (fun fuel => s.treeMinimumNode fuel) p ∧
    Converges (fun fuel => s.treeMinimumKey fuel) (s.key p, some (s.data p)) ∧ InTree s p ∧
    (s.key p, s.data p) ∈ M ∧ ∀ q ∈ M, s.key p ≤ q.1

variable {s : PureRbtree} {t : RBTree Entry}

/-! ## 中身は一通りに決まる -/

theorem Rep.unique {par par' : Ptr} {t' : RBTree Entry} (h : Rep s par t) (h' : Rep s par' t')
    (hnil : s.nil ∉ ptrs t.toList) (hnil' : s.nil ∉ ptrs t'.toList)
    (hroot : rootPtr s.nil t = rootPtr s.nil t') : t = t' := by
  induction t generalizing par par' t' with
  | leaf =>
    cases t' with
    | leaf => rfl
    | node c l e r =>
      rw [show s.nil = e.ptr from hroot] at hnil'
      simp at hnil'
  | node c l e r ihl ihr =>
    cases t' with
    | leaf =>
      rw [show s.nil = e.ptr from hroot.symm] at hnil
      simp at hnil
    | node c' l' e' r' =>
      obtain ⟨hcell, hl, hr⟩ := h
      obtain ⟨hcell', hl', hr'⟩ := h'
      have hptr : e.ptr = e'.ptr := hroot
      rw [← hptr, hcell] at hcell'
      simp only [cellOf, RbNode.mk.injEq] at hcell'
      obtain ⟨-, hlptr, hrptr, hc, hk, hd⟩ := hcell'
      simp only [RBTree.toList_node, ptrs_append, ptrs_cons, List.mem_append, List.mem_cons,
        not_or] at hnil hnil'
      obtain rfl := ihl hl hl' hnil.1 hnil'.1 hlptr
      obtain rfl := ihr hr hr' hnil.2.2 hnil'.2.2 hrptr
      obtain ⟨p, k, d⟩ := e
      obtain ⟨p', k', d'⟩ := e'
      simp only at hptr hk hd
      rw [hc, hptr, hk, hd]

/-- **一つの状態が表す木は一つである。** -/
theorem Shows.unique {t' : RBTree Entry} (h : Shows s t) (h' : Shows s t') : t = t' :=
  h.rep.unique h'.rep (List.nodup_cons.mp h.nodup).1 (List.nodup_cons.mp h'.nodup).1
    (h.root.symm.trans h'.root)

theorem Contents.unique {M M' : Multiset (Key × Ptr)} (h : Contents s M) (h' : Contents s M') :
    M = M' := by
  obtain ⟨t, ht, rfl⟩ := h
  obtain ⟨t', ht', rfl⟩ := h'
  rw [ht.unique ht']

/-! ## 中順の列と多重集合 -/

theorem mem_pairs {es : List Entry} {p : Key × Ptr} :
    p ∈ pairs es ↔ ∃ e ∈ es, (e.key, e.data) = p := by
  simp [pairs]

theorem pairs_middle (before after : List Entry) (e : Entry) :
    pairs (before ++ e :: after) = (e.key, e.data) ::ₘ pairs (before ++ after) := by
  simp only [pairs, Multiset.cons_coe, Multiset.coe_eq_coe, List.map_append, List.map_cons]
  exact List.perm_middle

theorem pairs_erase (before after : List Entry) (e : Entry) :
    (pairs (before ++ e :: after)).erase (e.key, e.data) = pairs (before ++ after) := by
  rw [pairs_middle, Multiset.erase_cons_head]

theorem exists_key_iff {k : Key} :
    (∃ p ∈ pairs t.toList, p.1 = k) ↔ ∃ e ∈ t.toList, e.key = k := by
  constructor
  · rintro ⟨p, hp, hk⟩
    obtain ⟨e, he, rfl⟩ := mem_pairs.mp hp
    exact ⟨e, he, hk⟩
  · rintro ⟨e, he, hk⟩
    exact ⟨_, mem_pairs.mpr ⟨e, he, rfl⟩, hk⟩

theorem forall_key_iff {k : Key} :
    (∀ p ∈ pairs t.toList, p.1 ≠ k) ↔ ∀ e ∈ t.toList, e.key ≠ k := by
  constructor
  · exact fun h e he => h _ (mem_pairs.mpr ⟨e, he, rfl⟩)
  · intro h p hp
    obtain ⟨e, he, rfl⟩ := mem_pairs.mp hp
    exact h e he

/-! ## 各操作 -/

theorem Valid.deleteKey_iff (h : Valid s t) (k : Key) :
    (∃ s' out, Converges (fun fuel => s.rbDeleteKey fuel k) (s', -1, out)) ↔
      ∀ e ∈ t.toList, e.key ≠ k := by
  constructor
  · rintro ⟨s', out, hrun⟩ e he hek
    obtain ⟨e', s'', -, -, -, -, hrun', -⟩ := rbDeleteKey_present h ⟨e, he, hek⟩
    have heq := hrun.unique hrun'
    simp at heq
  · exact fun hk => ⟨s, none, rbDeleteKey_absent h hk⟩

/-- `rb_delete` で残るのは `z` のほかの節で、どれも `key` と `data` を保つ。 -/
theorem Valid.delete_others {s' : PureRbtree} {t' : RBTree Entry} {before after : List Entry}
    {e : Entry} (h : Valid s t) (h' : Valid s' t') (hold : t.toList = before ++ e :: after)
    (hnew : t'.toList = before ++ after) (p : Ptr) :
    (InTree s' p ↔ InTree s p ∧ p ≠ e.ptr) ∧
      (InTree s' p → s'.key p = s.key p ∧ s'.data p = s.data p) := by
  have hnd := (List.nodup_cons.mp h.shows.nodup).2
  rw [hold] at hnd
  have hperm : (ptrs (before ++ e :: after)).Perm (e.ptr :: ptrs (before ++ after)) :=
    List.perm_middle.map Entry.ptr
  have hnot : e.ptr ∉ ptrs (before ++ after) := (List.nodup_cons.mp (hperm.nodup_iff.mp hnd)).1
  rw [inTree_iff h.shows, inTree_iff h'.shows, hold, hnew]
  constructor
  · rw [hperm.mem_iff, List.mem_cons]
    constructor
    · exact fun hp => ⟨.inr hp, ne_of_mem_of_not_mem hp hnot⟩
    · rintro ⟨rfl | hp, hne⟩
      · exact absurd rfl hne
      · exact hp
  · intro hp
    obtain ⟨x, hx, rfl⟩ := List.mem_map.mp hp
    have hmem : x ∈ t.toList := by
      rw [hold]
      rcases List.mem_append.mp hx with hx | hx
      · exact List.mem_append_left _ hx
      · exact List.mem_append_right _ (List.mem_cons_of_mem _ hx)
    obtain ⟨-, hk, hd⟩ := h.cell hmem
    obtain ⟨-, hk', hd'⟩ := h'.cell (hnew ▸ hx)
    exact ⟨hk'.trans hk.symm, hd'.trans hd.symm⟩

theorem Valid.searchKey (h : Valid s t) (k : Key) :
    ∃ out, Converges (fun fuel => s.rbSearchKey fuel k) out ∧
      ((∃ p ∈ pairs t.toList, p.1 = k) → (k, out) ∈ pairs t.toList) ∧
      ((∀ p ∈ pairs t.toList, p.1 ≠ k) → out = 0) := by
  obtain ⟨p, hfound, hrun⟩ := rbSearch_spec h k
  refine ⟨_, hrun.map fun z => if z ≠ s.nil then s.data z else 0, ?_, ?_⟩
  · rw [exists_key_iff]
    rintro ⟨x, hx, hxk⟩
    rcases hfound with ⟨e, he, hek, rfl⟩ | ⟨-, hnone⟩
    · obtain ⟨hne, -, hdata⟩ := h.cell he
      rw [if_pos hne, hdata]
      exact mem_pairs.mpr ⟨e, he, by rw [hek]⟩
    · exact absurd hxk (hnone x hx)
  · rw [forall_key_iff]
    intro hnone
    rcases hfound with ⟨e, he, hek, -⟩ | ⟨rfl, -⟩
    · exact absurd hek (hnone e he)
    · simp

theorem Valid.minimum (h : Valid s t) (hne : pairs t.toList ≠ 0) :
    ∃ p, Converges (fun fuel => s.treeMinimumNode fuel) p ∧
      Converges (fun fuel => s.treeMinimumKey fuel) (s.key p, some (s.data p)) ∧ InTree s p ∧
      (s.key p, s.data p) ∈ pairs t.toList ∧ ∀ q ∈ pairs t.toList, s.key p ≤ q.1 := by
  have ht : t ≠ .leaf := by
    rintro rfl
    exact hne rfl
  obtain ⟨e, he, hmin, hroot, hrun⟩ := minimum_spec h ht
  obtain ⟨-, hk, hd⟩ := h.cell he
  refine ⟨e.ptr, ?_, ?_, (inTree_iff h.shows _).mpr (List.mem_map.mpr ⟨e, he, rfl⟩), ?_, ?_⟩
  · have heq : (fun fuel => s.treeMinimumNode fuel) = fun fuel => s.treeMinimum fuel s.root := by
      funext fuel
      rw [PureRbtree.treeMinimumNode, if_neg hroot]
    rw [heq]
    exact hrun
  · have heq : (fun fuel => s.treeMinimumKey fuel) = fun fuel =>
        (s.treeMinimum fuel s.root).map fun min => (s.key min, some (s.data min)) := by
      funext fuel
      rw [PureRbtree.treeMinimumKey, if_neg hroot]
    rw [heq]
    exact hrun.map fun min => (s.key min, some (s.data min))
  · exact mem_pairs.mpr ⟨e, he, by rw [hk, hd]⟩
  · intro q hq
    obtain ⟨x, hx, rfl⟩ := mem_pairs.mp hq
    rw [hk]
    exact hmin x hx

theorem Valid.refines (h : Valid s t) : Refines s (pairs t.toList) where
  insertKeyData z k d ha := by
    obtain ⟨s', t', before, after, hrun, h', hold, hnew, -⟩ := rbInsertKeyData_spec h ha
    refine ⟨s', hrun, t', h'.shows, ?_⟩
    rw [hnew, pairs_middle, hold]
  insert z n ha := by
    obtain ⟨s', t', before, after, hrun, h', hold, hnew, -⟩ := insertNode_spec h ha
    refine ⟨s', hrun, t', h'.shows, ?_⟩
    rw [hnew, pairs_middle, hold]
  deleteKeyAbsent k := by rw [h.deleteKey_iff, forall_key_iff]
  deleteKeyUnchanged k hk := rbDeleteKey_absent h (forall_key_iff.mp hk)
  deleteKeyPresent k hk := by
    obtain ⟨e, s', t', before, after, rfl, hrun, h', hold, hnew⟩ :=
      rbDeleteKey_present h (exists_key_iff.mp hk)
    refine ⟨s', e.data, mem_pairs.mpr ⟨e, by simp [hold], rfl⟩, hrun, t', h'.shows, ?_⟩
    rw [hnew, hold, pairs_erase]
  delete z hz := by
    obtain ⟨e, he, rfl⟩ := List.mem_map.mp ((inTree_iff h.shows z).mp hz)
    obtain ⟨s', t', before, after, hrun, h', hold, hnew, -⟩ := rbDelete_spec h he
    obtain ⟨-, hk, hd⟩ := h.cell he
    rw [hk, hd]
    refine ⟨s', hrun, mem_pairs.mpr ⟨e, he, rfl⟩, ⟨t', h'.shows, ?_⟩, h.delete_others h' hold hnew⟩
    rw [hnew, hold, pairs_erase]
  searchKey := h.searchKey
  minimum := h.minimum

/--
**木は `(key, data)` の有限多重集合を実現する。**

新しい木から始まるどの操作の列の後でも、状態の中身 `M` は一通りに決まり、
次のどの操作も `M` に対する操作として終わる。同じ `key` が何度入っていてもよい。
-/
theorem refines_along_run (heap : Ptr → RbNode) (nil : Ptr) (ops : List Op) (s : PureRbtree)
    (hrun : Runs (.init heap nil) ops s) :
    ∃ M, Contents s M ∧ (∀ M', Contents s M' → M' = M) ∧ Refines s M := by
  obtain ⟨t, hvalid⟩ := (Valid.init heap nil).runs hrun
  have hcontents : Contents s (pairs t.toList) := ⟨t, hvalid.shows, rfl⟩
  exact ⟨_, hcontents, fun M' hM' => hM'.unique hcontents, hvalid.refines⟩

theorem refines_after_insert_delete :
    ∃ s, Runs (.init blankHeap 1) (inserts ascending ++ [.deleteKey 20]) s ∧
      Contents s {(10, 101), (30, 103), (40, 104), (50, 105)} ∧
      Refines s {(10, 101), (30, 103), (40, 104), (50, 105)} := by
  obtain ⟨s, t, hrun, h, -, hperm⟩ := runs_ascending_delete
  have hpairs : pairs t.toList = {(10, 101), (30, 103), (40, 104), (50, 105)} :=
    Multiset.coe_eq_coe.mpr (hperm.map fun e => (e.key, e.data))
  have hcontents : Contents s {(10, 101), (30, 103), (40, 104), (50, 105)} :=
    ⟨t, h.shows, hpairs.symm⟩
  obtain ⟨M, -, hunique, hrefines⟩ := refines_along_run blankHeap 1 _ s hrun
  obtain rfl := hunique _ hcontents
  exact ⟨s, hrun, hcontents, hrefines⟩

end RecordServer.Datas
