import RecordServer.Datas.Delete

/-!
# 検索と最小の節（`rb_search`・`tree_minimum_node`）

* `rbSearch_spec` — 見つかった節は求める `key` を持ち、番兵が返れば求める `key` は無い
* `minimum_spec` — 空でない木で `tree_minimum` は中順の先頭に着く
-/

namespace RecordServer.Datas

open Infra

variable {s : PureRbtree} {path : Path Entry}

/-- `rb_search` の結果。 -/
def Found (s : PureRbtree) (es : List Entry) (k : Key) (p : Ptr) : Prop :=
  (∃ e ∈ es, e.key = k ∧ p = e.ptr) ∨ (p = s.nil ∧ ∀ e ∈ es, e.key ≠ k)

/-- 見つかる節は木だけで決まり、同じ木を表すどの状態でも同じである。 -/
theorem rbSearchFrom_spec (nil : Ptr) {t : RBTree Entry} {k : Key}
    (hsorted : Sorted (fill path t).toList) :
    ∃ p, ((∃ e ∈ t.toList, e.key = k ∧ p = e.ptr) ∨ (p = nil ∧ ∀ e ∈ t.toList, e.key ≠ k)) ∧
      ∀ s, s.nil = nil → Shows s (fill path t) →
        ∀ fuel, t.height < fuel → s.rbSearchFrom k fuel (rootPtr s.nil t) = some p := by
  induction t generalizing path with
  | leaf =>
    refine ⟨nil, .inr ⟨rfl, by simp⟩, fun s hnil _ fuel hfuel => ?_⟩
    cases fuel with
    | zero => omega
    | succ fuel => simp [PureRbtree.rbSearchFrom, rootPtr, hnil]
  | node c l e r ihl ihr =>
    by_cases hk : k = e.key
    · refine ⟨e.ptr, .inl ⟨e, by simp, hk.symm, rfl⟩, fun s _ h fuel hfuel => ?_⟩
      have hn : Shows s (fill path (.mk .left c l e r)) := h
      cases fuel with
      | zero => omega
      | succ fuel => simp [PureRbtree.rbSearchFrom, rootPtr, hn.key, hk]
    · by_cases hlt : k < e.key
      · obtain ⟨p, hfound, hrun⟩ := @ihl (⟨.left, c, e, r⟩ :: path) hsorted
        refine ⟨p, ?_, fun s hnil h fuel hfuel => ?_⟩
        · rcases hfound with ⟨x, hx, hxk, hp⟩ | ⟨hp, hnone⟩
          · exact .inl ⟨x, by simp [hx], hxk, hp⟩
          · refine .inr ⟨hp, fun x hx => ?_⟩
            rw [RBTree.toList_node, List.mem_append, List.mem_cons] at hx
            rcases hx with hx | rfl | hx
            · exact hnone x hx
            · exact Ne.symm hk
            · exact (lt_of_lt_of_le hlt (hsorted.node.2 x hx)).ne'
        · have hn : Shows s (fill path (.mk .left c l e r)) := h
          have hl : s.lson e.ptr = rootPtr s.nil l := hn.son
          cases fuel with
          | zero => omega
          | succ fuel =>
            rw [RBTree.height] at hfuel
            simp only [PureRbtree.rbSearchFrom, rootPtr, hn.key, ne_eq, hn.ptr_ne_nil,
              not_false_eq_true, hk, and_self, if_true, hlt, hl]
            exact hrun s hnil h fuel (by omega)
      · obtain ⟨p, hfound, hrun⟩ := @ihr (⟨.right, c, e, l⟩ :: path) hsorted
        have hgt : e.key < k := lt_of_le_of_ne (not_lt.mp hlt) (Ne.symm hk)
        refine ⟨p, ?_, fun s hnil h fuel hfuel => ?_⟩
        · rcases hfound with ⟨x, hx, hxk, hp⟩ | ⟨hp, hnone⟩
          · exact .inl ⟨x, by simp [hx], hxk, hp⟩
          · refine .inr ⟨hp, fun x hx => ?_⟩
            rw [RBTree.toList_node, List.mem_append, List.mem_cons] at hx
            rcases hx with hx | rfl | hx
            · exact (lt_of_le_of_lt (hsorted.node.1 x hx) hgt).ne
            · exact Ne.symm hk
            · exact hnone x hx
        · have hn : Shows s (fill path (.mk .left c l e r)) := h
          have hr : s.rson e.ptr = rootPtr s.nil r := hn.son_other
          cases fuel with
          | zero => omega
          | succ fuel =>
            rw [RBTree.height] at hfuel
            simp only [PureRbtree.rbSearchFrom, rootPtr, hn.key, ne_eq, hn.ptr_ne_nil,
              not_false_eq_true, hk, and_self, if_true, hlt, if_false, hr]
            exact hrun s hnil h fuel (by omega)

/-- **`rb_search` の返す節は、木と `key` だけで決まる。** -/
theorem rbSearch_uniform {t : RBTree Entry} (h : Valid s t) (k : Key) :
    ∃ p, Found s t.toList k p ∧
      ∀ r, Valid r t → r.nil = s.nil → Converges (fun fuel => r.rbSearch fuel k) p := by
  have hsorted : Sorted (fill [] t).toList := h.sorted
  obtain ⟨p, hfound, hrun⟩ := @rbSearchFrom_spec [] s.nil t k hsorted
  refine ⟨p, hfound, fun r hr hnil => ?_⟩
  have hwalk := hrun r hnil hr.shows
  rw [← hr.shows.root] at hwalk
  exact .of_lt hwalk

/-- **`rb_search` は、求める `key` の節があればその一つを、無ければ番兵を返す。** -/
theorem rbSearch_spec {t : RBTree Entry} (h : Valid s t) (k : Key) :
    ∃ p, Found s t.toList k p ∧ Converges (fun fuel => s.rbSearch fuel k) p := by
  obtain ⟨p, hfound, hrun⟩ := rbSearch_uniform h k
  exact ⟨p, hfound, hrun s h rfl⟩

/-- 木の中の節の cell。 -/
theorem Valid.cell {t : RBTree Entry} (h : Valid s t) {e : Entry} (he : e ∈ t.toList) :
    e.ptr ≠ s.nil ∧ s.key e.ptr = e.key ∧ s.data e.ptr = e.data := by
  obtain ⟨path, c, l, r, rfl⟩ := exists_fill_of_mem he
  have hn : Shows s (fill path (.mk .left c l e r)) := h.shows
  exact ⟨hn.ptr_ne_nil, hn.key, hn.data⟩

/-- **`tree_minimum` の着く節は、木だけで決まる。** -/
theorem minimum_uniform {t : RBTree Entry} (h : Valid s t) (ht : t ≠ .leaf) :
    ∃ e ∈ t.toList, (∀ x ∈ t.toList, e.key ≤ x.key) ∧
      ∀ r, Valid r t → r.root ≠ r.nil ∧ Converges (fun fuel => r.treeMinimum fuel r.root) e.ptr := by
  obtain ⟨lpath, c, y, r, -, hlist, hrun⟩ := treeMinimum_spec [] ht
  refine ⟨y, by simp [hlist], fun x hx => ?_, fun r hr => ?_⟩
  · have hsorted := h.sorted
    rw [Sorted, hlist, List.pairwise_cons] at hsorted
    rw [hlist, List.mem_cons] at hx
    rcases hx with rfl | hx
    · exact le_refl _
    · exact hsorted.1 x hx
  · have h₀ : Shows r (fill [] t) := hr.shows
    have hwalk := hrun r h₀
    rw [← hr.shows.root] at hwalk
    refine ⟨?_, .of_lt hwalk⟩
    rw [hr.shows.root]
    exact h₀.rootPtr_ne_nil ht

/-- **空でない木では、`tree_minimum` は `key` の最も小さい節に着く。** -/
theorem minimum_spec {t : RBTree Entry} (h : Valid s t) (ht : t ≠ .leaf) :
    ∃ e ∈ t.toList, (∀ x ∈ t.toList, e.key ≤ x.key) ∧ s.root ≠ s.nil ∧
      Converges (fun fuel => s.treeMinimum fuel s.root) e.ptr := by
  obtain ⟨e, he, hmin, hrun⟩ := minimum_uniform h ht
  exact ⟨e, he, hmin, hrun s h⟩

end RecordServer.Datas
