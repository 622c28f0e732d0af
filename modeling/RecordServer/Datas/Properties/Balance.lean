import RecordServer.Datas.Operations

/-!
# どの run の後でも赤黒木である

* `WellFormed` — `root` から辿れる構造が、整列した赤黒木である
* `wellFormed_along_run` — 新しい木から始まるどの操作の列の後でも `WellFormed` で、
  次に許される操作も必ず終わる
-/

namespace RecordServer.Datas

open Infra

/-- `root` から辿れる構造は木 `t` で、`t` は整列した赤黒木である。 -/
structure WellFormed (s : PureRbtree) (t : RBTree Entry) : Prop where
  shows : Shows s t
  nodes : ∀ p, InTree s p ↔ p ∈ ptrs t.toList
  sorted : Sorted t.toList
  rootBlack : s.colour s.root = .black
  nilBlack : s.colour s.nil = .black
  noRedRed : t.NoRedRed
  blackCounts : ∃ n, ∀ k ∈ t.blackCounts, k = n
  height : (t.height : ℝ) ≤ 2 * Real.logb 2 (t.toList.length + 1)

theorem Valid.wellFormed {s : PureRbtree} {t : RBTree Entry} (h : Valid s t) : WellFormed s t := by
  obtain ⟨m, hbal⟩ := h.balanced
  have h₀ : Shows s (fill [] t) := h.shows
  have hroot : s.colour s.root = .black := by
    rw [h.shows.root, h₀.colour_rootPtr h.nil, hbal.colour_eq]
  exact
    { shows := h.shows
      nodes := inTree_iff h.shows
      sorted := h.sorted
      rootBlack := hroot
      nilBlack := h.nil
      noRedRed := hbal.noRedRed
      blackCounts := ⟨m, hbal.blackCounts_eq⟩
      height := hbal.height_le }

/--
**どの操作の列の後でも、整列した赤黒木である。**

重なった `key` も、節を自分で持つ呼び出しも含む。許された次の操作は必ず終わる。
-/
theorem wellFormed_along_run (heap : Ptr → RbNode) (nil : Ptr) (ops : List Op) (s : PureRbtree)
    (hrun : Runs (.init heap nil) ops s) :
    (∃ t, WellFormed s t) ∧ ∀ op, Allowed s op → ∃ s', Exec s op s' := by
  obtain ⟨t, hvalid⟩ := (Valid.init heap nil).runs hrun
  refine ⟨⟨t, hvalid.wellFormed⟩, fun op ha => ?_⟩
  obtain ⟨s', -, hexec, -⟩ := hvalid.exec ha
  exact ⟨s', hexec⟩

theorem insertKeyData_allowed_init :
    Allowed (.init blankHeap 1) (.insertKeyData 2 5 7) := by
  refine ⟨by decide, by decide, ?_⟩
  rw [inTree_iff (Valid.init blankHeap 1).shows]
  simp

/-- `key` の昇順に並べた五つの節。続けて加えると、木は左へ回る。 -/
def ascending : List Entry :=
  [⟨2, 10, 101⟩, ⟨3, 20, 102⟩, ⟨4, 30, 103⟩, ⟨5, 40, 104⟩, ⟨6, 50, 105⟩]

theorem runs_ascending : ∃ s t, Runs (.init blankHeap 1) (inserts ascending) s ∧ Valid s t ∧
    t.toList.Perm ascending := by
  obtain ⟨s, t, hrun, hvalid, hperm⟩ :=
    (Valid.init blankHeap 1).inserts ascending (by decide) (by decide)
  rw [RBTree.toList_leaf, List.append_nil] at hperm
  exact ⟨s, t, hrun, hvalid, hperm⟩

section

variable {s : PureRbtree} {t : RBTree Entry}

theorem eq_of_key_ascending (hperm : t.toList.Perm ascending) {e : Entry} (he : e ∈ t.toList)
    (hk : e.key = 20) : e = ⟨3, 20, 102⟩ := by
  have huniq : ∀ e ∈ ascending, e.key = 20 → e = ⟨3, 20, 102⟩ := by decide
  exact huniq e (hperm.mem_iff.mp he) hk

theorem search_ascending (h : Valid s t) (hperm : t.toList.Perm ascending) :
    3 ≠ s.nil ∧ Converges (fun fuel => s.rbSearch fuel 20) 3 := by
  have hmem : (⟨3, 20, 102⟩ : Entry) ∈ t.toList := hperm.mem_iff.mpr (by decide)
  obtain ⟨p, ⟨e, he, hk, rfl⟩ | ⟨-, hnone⟩, hsearch⟩ := rbSearch_spec h 20
  · rw [eq_of_key_ascending hperm he hk] at hsearch
    exact ⟨(h.cell hmem).1, hsearch⟩
  · exact absurd rfl (hnone _ hmem)

/-- 昇順に加えた木から、子が二つある根を消す。 -/
theorem delete_ascending (h : Valid s t) (hperm : t.toList.Perm ascending) :
    ∃ s' t', Converges (fun fuel => s.rbDeleteKey fuel 20) (s', 0, some 102) ∧ Valid s' t' ∧
      t'.toList.Perm (ascending.eraseIdx 1) := by
  have hpresent : ∃ e ∈ t.toList, e.key = 20 := ⟨⟨3, 20, 102⟩, hperm.mem_iff.mpr (by decide), rfl⟩
  obtain ⟨e, s', t', before, after, he, hdelete, h', hold, hnew⟩ := rbDeleteKey_present h hpresent
  obtain rfl := eq_of_key_ascending hperm (by simp [hold]) he
  refine ⟨s', t', hdelete, h', ?_⟩
  rw [hnew, ← List.perm_cons (⟨3, 20, 102⟩ : Entry)]
  exact (List.perm_middle.symm.trans (hold ▸ hperm)).trans (by decide)

end

/-- 昇順に加えてから根を消す run がある。根には後続の節 `4` が据わる。 -/
theorem runs_ascending_delete :
    ∃ s t, Runs (.init blankHeap 1) (inserts ascending ++ [.deleteKey 20]) s ∧ Valid s t ∧
      (s.root, s.lson 4, s.rson 4) = (4, 2, 5) ∧ t.toList.Perm (ascending.eraseIdx 1) := by
  obtain ⟨s₁, t₁, hrun₁, h₁, hperm₁⟩ := runs_ascending
  obtain ⟨s, t, hdelete, h, hperm⟩ := delete_ascending h₁ hperm₁
  have hlast : Runs s₁ [.deleteKey 20] s := .cons trivial (hdelete.map Prod.fst) .nil
  have hrun := hrun₁.append hlast
  refine ⟨s, t, hrun, h, ?_, hperm⟩
  have hfold : ((inserts ascending ++ [Op.deleteKey 20]).foldlM (exec 6) (.init blankHeap 1)).map
      (fun s : PureRbtree => (s.root, s.lson 4, s.rson 4)) = some (4, 2, 5) := by decide +kernel
  obtain ⟨s', hs', hroot⟩ := Option.map_eq_some_iff.mp hfold
  rw [hrun.eq_of_foldlM hs', hroot]

theorem wellFormed_after_insert_delete :
    ∃ s, Runs (.init blankHeap 1) (inserts ascending ++ [.deleteKey 20]) s ∧
      (s.root, s.lson 4, s.rson 4) = (4, 2, 5) ∧ (∀ p, InTree s p ↔ p ∈ [2, 4, 5, 6]) ∧
      ∃ t, WellFormed s t := by
  obtain ⟨s, t, hrun, h, hroot, hperm⟩ := runs_ascending_delete
  refine ⟨s, hrun, hroot, fun p => ?_, (wellFormed_along_run blankHeap 1 _ s hrun).1⟩
  rw [inTree_iff h.shows]
  exact (hperm.map Entry.ptr).mem_iff

end RecordServer.Datas
