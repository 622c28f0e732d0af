import RecordServer.Datas.Footprint
import RecordServer.Datas.Properties.Balance
import Mathlib.Data.Set.Card

/-!
# どの loop も対数の回数で終わる

木の loop は、根から葉へ降りるか、葉から根へ昇るかである。どちらも文脈の長さか部分木の高さを一つずつ減らす。
loop ごとに渡す燃料は同じなので、燃料 `n` で終わることは、どの loop も `n` 回より多くは回らないことをいう。

* `rbInsert_within` / `rbDelete_within` — 挿入と削除は、木の高さに 1 を足した燃料で終わる
* `call_within` — どの呼び出しも同じである
* `ends_in_logarithm` — どの run の後でも、`n` 個の節の木への呼び出しは
  `2 * log₂ (n + 1)` より多い燃料があれば終わる
-/

namespace RecordServer.Datas

open Infra

variable {s : PureRbtree} {t : RBTree Entry} {path : Path Entry}

/-! ## 挿入 -/

/-- `rb_insert` は葉まで降り、その道を根まで昇る。 -/
theorem rbInsert_within (h : Valid s t) {z : Ptr} (hz : z ∉ ptrs t.toList) (hnil : z ≠ s.nil) :
    ∃ s', Within (t.height + 1) (fun fuel => s.rbInsert fuel z) s' := by
  obtain ⟨m, hbal⟩ := h.balanced
  have hfits : Fits (s.key z) [] := by simp [Fits, Path.before, Path.after]
  have hsorted : Sorted (fill [] t).toList := h.sorted
  obtain ⟨path, hfill, hfits, hparent⟩ := insertParent_spec hsorted hfits
  rw [fill_nil] at hfill
  subst hfill
  obtain ⟨n, hleaf, hpath⟩ := hbal.unfill
  obtain rfl : n = 0 := by
    cases hleaf
    rfl
  obtain ⟨hinv, -⟩ := h.attach hfits hz hnil hpath
  obtain ⟨t', m', -, -, hloop⟩ := rbInsertFixup_spec hinv
  obtain ⟨s', hrun, -, -, -⟩ := hloop _ z hinv
  have hwalk := hparent s h.shows
  rw [show rootPtr s.nil (fill path .leaf) = s.root from h.shows.root.symm] at hwalk
  have hlen := length_add_height_le path (.leaf : RBTree Entry)
  refine ⟨s', ?_⟩
  exact Within.bind (g := fun y fuel => (s.attach z y).rbInsertFixup fuel z)
    (fun fuel hfuel => hwalk fuel hfuel) fun fuel hfuel => hrun fuel (by omega)

/-! ## 削除 -/

/-- 後始末の loop は、穴から根まで昇るだけである。 -/
theorem finishDelete_within {d : Side} {c : Colour} {y : Entry} {X : RBTree Entry} {n : Nat}
    (h : AtHole s path X) (hy : (RBTree.mk d c .leaf y X).Balanced c n)
    (hpath : PathBalanced path c n) :
    ∃ s', Within (path.length + 1)
      (fun fuel => PureRbtree.finishDelete fuel s c (rootPtr s.nil X)) s' := by
  cases c with
  | red => exact ⟨s, fun _ _ => rfl⟩
  | black =>
    obtain ⟨-, m, rfl, -, hX⟩ := RBTree.balanced_mk_black.mp hy
    have hinv : DeleteInv s (rootPtr s.nil X) path X m :=
      ⟨h.shows, rfl, h.parent, .of_balanced hX, hpath, h.nil⟩
    have hrem : remaining path X ≤ path.length := by
      unfold remaining
      split <;> omega
    obtain ⟨t, m', -, -, hloop⟩ := rbDeleteFixup_spec hinv
    obtain ⟨s', hrun, -, -⟩ := hloop s _ hinv
    exact ⟨s', fun fuel hfuel => hrun fuel (by omega)⟩

/-- 子が高々一つの節を外すとき。 -/
theorem deleteSon_within {d : Side} {c : Colour} {z : Entry} {X : RBTree Entry} {m : Nat}
    (h : Shows s (fill path (.mk d c .leaf z X)))
    (hbal : (fill path (.mk d c .leaf z X)).Balanced .black m) (hnil : s.colour s.nil = .black) :
    ∃ s', Within (path.length + 1) (fun fuel => PureRbtree.finishDelete fuel
      (s.rbTransplant z.ptr (rootPtr s.nil X)) c (rootPtr s.nil X)) s' := by
  obtain ⟨n, hnode, hpath⟩ := hbal.unfill
  rw [RBTree.colour_mk] at hnode hpath
  obtain ⟨s₁, hs₁, hshow₁, hoff₁, hmark₁⟩ := transplant_son h
  have hwithin := finishDelete_within (.of_mark hshow₁ hoff₁.1 hmark₁ hnil) hnode hpath
  rw [hoff₁.1] at hwithin
  rw [hs₁]
  exact hwithin

/-- 子が二つの節を外すとき。後続の節まで降り、そこから根まで昇る。 -/
theorem deleteTwo_within {c : Colour} {z : Entry} {l r : RBTree Entry} {m : Nat}
    (h : Shows s (fill path (.node c l z r))) (hbal : (fill path (.node c l z r)).Balanced .black m)
    (hnil : s.colour s.nil = .black) (hl : l ≠ .leaf) (hr : r ≠ .leaf) :
    ∃ s', Within (path.length + r.height + 1) (fun fuel =>
      (s.treeMinimum fuel (rootPtr s.nil r)).bind fun y =>
        PureRbtree.finishDelete fuel ((s.takeSuccessor z.ptr y).putSuccessor z.ptr y)
          (s.colour y) (s.rson y)) s' := by
  obtain ⟨lpath, cy, y, yr, hrfill, -, hmin⟩ := treeMinimum_spec (⟨.right, c, z, l⟩ :: path) hr
  subst hrfill
  have hy : Shows s (fill (lpath ++ ⟨.right, c, z, l⟩ :: path) (.mk .left cy .leaf y yr)) := by
    rw [fill_append]
    exact h
  have hbal₀ : (fill (lpath ++ ⟨.right, c, z, l⟩ :: path)
      (.mk .left cy .leaf y yr)).Balanced .black m := by
    rw [fill_append]
    exact hbal
  obtain ⟨n, hynode, hpath⟩ := hbal₀.unfill
  rw [RBTree.colour_mk] at hynode hpath
  obtain ⟨s₁, hs₁, hshow₁, hoff₁, hmark₁⟩ := takePutSuccessor_spec h hl
  obtain ⟨s', hrun⟩ :=
    finishDelete_within (.of_mark hshow₁ hoff₁.1 hmark₁ hnil) hynode hpath.replace
  have hrson : s.rson y.ptr = rootPtr s.nil yr := hy.son_other
  rw [hoff₁.1, ← hs₁, ← hrson, ← hy.colour] at hrun
  -- 後続の節の深さは、`z` の深さに右の部分木の中での深さを足したものである
  have hlen := length_add_height_le lpath (.node cy .leaf y yr)
  rw [RBTree.height] at hlen
  refine ⟨s', Within.bind (g := fun y fuel =>
    PureRbtree.finishDelete fuel ((s.takeSuccessor z.ptr y).putSuccessor z.ptr y) (s.colour y)
      (s.rson y)) (fun fuel hfuel => hmin s h fuel (by omega)) (hrun.mono ?_)⟩
  rw [List.length_append, List.length_cons]
  omega

/-- 三つの場合の `rb_delete` は、どれも木の高さに 1 を足した燃料で終わる。 -/
theorem rbDelete_within (h : Valid s t) {z : Entry} (hz : z ∈ t.toList) :
    ∃ s', Within (t.height + 1) (fun fuel => s.rbDelete fuel z.ptr) s' := by
  obtain ⟨hshow, ⟨m, hbal⟩, -, hblack⟩ := h
  obtain ⟨path, c, l, r, rfl⟩ := exists_fill_of_mem hz
  have hnode : Shows s (fill path (.mk .left c l z r)) := hshow
  have hlson : s.lson z.ptr = rootPtr s.nil l := hnode.son
  have hrson : s.rson z.ptr = rootPtr s.nil r := hnode.son_other
  have hlen := length_add_height_le path (.node c l z r)
  rw [RBTree.height] at hlen
  by_cases hl : l = .leaf
  · subst hl
    obtain ⟨s', hrun⟩ := deleteSon_within (d := .left) hshow hbal hblack
    refine ⟨s', (hrun.mono (by omega)).congr fun fuel => ?_⟩
    rw [PureRbtree.rbDelete, if_pos (show s.lson z.ptr = s.nil from hlson), hrson, hnode.colour]
  · have hlchild : Shows s (fill (⟨.left, c, z, r⟩ :: path) l) := hshow
    have hlne : s.lson z.ptr ≠ s.nil := by
      rw [hlson]
      exact hlchild.rootPtr_ne_nil hl
    by_cases hr : r = .leaf
    · subst hr
      obtain ⟨s', hrun⟩ := deleteSon_within (d := .right) hshow hbal hblack
      refine ⟨s', (hrun.mono (by omega)).congr fun fuel => ?_⟩
      rw [PureRbtree.rbDelete, if_neg hlne, if_pos (show s.rson z.ptr = s.nil from hrson), hlson,
        hnode.colour]
    · have hrchild : Shows s (fill (⟨.right, c, z, l⟩ :: path) r) := hshow
      have hrne : s.rson z.ptr ≠ s.nil := by
        rw [hrson]
        exact hrchild.rootPtr_ne_nil hr
      obtain ⟨s', hrun⟩ := deleteTwo_within hshow hbal hblack hl hr
      refine ⟨s', (hrun.mono (by omega)).congr fun fuel => ?_⟩
      rw [PureRbtree.rbDelete, if_neg hlne, if_neg hrne, hrson]

/-! ## 検索と最小の節 -/

/-- `rb_search` は根から葉へ降りるだけで、番兵か木の中の節に着く。 -/
theorem rbSearch_within (h : Valid s t) (k : Key) :
    ∃ p, (p = s.nil ∨ p ∈ ptrs t.toList) ∧
      Within (t.height + 1) (fun fuel => s.rbSearch fuel k) p := by
  have hsorted : Sorted (fill [] t).toList := h.sorted
  obtain ⟨p, hfound, hrun⟩ := rbSearchFrom_spec s.nil (k := k) hsorted
  refine ⟨p, ?_, fun fuel hfuel => ?_⟩
  · rcases hfound with ⟨e, he, -, rfl⟩ | ⟨rfl, -⟩
    · exact .inr (List.mem_map.mpr ⟨e, he, rfl⟩)
    · exact .inl rfl
  · show s.rbSearchFrom k fuel s.root = some p
    rw [h.shows.root]
    exact hrun s rfl h.shows fuel hfuel

/-- 空でない木の `tree_minimum` は、左の端へ降りるだけである。 -/
theorem treeMinimum_within (h : Valid s t) (ht : t ≠ .leaf) :
    s.root ≠ s.nil ∧ ∃ p, Within (t.height + 1) (fun fuel => s.treeMinimum fuel s.root) p := by
  have h₀ : Shows s (fill [] t) := h.shows
  obtain ⟨-, -, y, -, -, -, hmin⟩ := treeMinimum_spec [] ht
  rw [h.shows.root]
  exact ⟨h₀.rootPtr_ne_nil ht, y.ptr, fun fuel hfuel => hmin s h₀ fuel hfuel⟩

/-! ## どの呼び出しも -/

/-- 探してから消す。どちらの loop も同じ燃料で足りる。 -/
theorem rbDeleteKey_within (h : Valid s t) (k : Key) :
    ∃ r, Within (t.height + 1) (fun fuel => s.rbDeleteKey fuel k) r := by
  obtain ⟨p, hp, hsearch⟩ := rbSearch_within h k
  have hrest : ∃ r, Within (t.height + 1) (fun fuel => if p ≠ s.nil then
      (s.rbDelete fuel p).map fun s' => (s', (0 : Int), some (s.data p)) else some (s, -1, none)) r := by
    by_cases hnil : p = s.nil
    · exact ⟨_, fun fuel _ => if_neg (not_not_intro hnil)⟩
    · obtain ⟨e, he, rfl⟩ := List.mem_map.mp (hp.resolve_left hnil)
      obtain ⟨s', hrun⟩ := rbDelete_within h he
      refine ⟨_, (hrun.map fun s' => (s', (0 : Int), some (s.data e.ptr))).congr fun fuel => ?_⟩
      exact if_pos hnil
  obtain ⟨r, hrest⟩ := hrest
  exact ⟨r, hsearch.bind (g := fun z fuel => if z ≠ s.nil then
    (s.rbDelete fuel z).map fun s' => (s', (0 : Int), some (s.data z)) else some (s, -1, none)) hrest⟩

theorem insertKeyData_within (h : Valid s t) {z d : Ptr} {k : Key}
    (ha : Allowed s (.insertKeyData z k d)) :
    ∃ r, Within (t.height + 1) (fun fuel => s.rbInsertKeyData fuel z k d) r := by
  obtain ⟨hnull, hnil, hnot⟩ := ha
  have hz : z ∉ ptrs t.toList := mt (inTree_iff h.shows z).mpr hnot
  have h₁ := h.modify (fun n => { n with key := k, data := d }) hz hnil
  obtain ⟨s', hrun⟩ := rbInsert_within h₁ hz hnil
  refine ⟨_, (hrun.map fun s => (s, (0 : Int))).congr fun fuel => ?_⟩
  rw [PureRbtree.rbInsertKeyData, if_neg hnull]

/-- **どの呼び出しも、木の高さに 1 を足した燃料で終わる。** -/
theorem call_within (h : Valid s t) {c : Call} (hc : c.Allowed s) :
    ∃ r, Within (t.height + 1) (fun fuel => call fuel s c) r := by
  cases c with
  | op o =>
    cases o with
    | insertKeyData z k d =>
      obtain ⟨r, hrun⟩ := insertKeyData_within h hc
      exact ⟨_, hrun.map fun r : PureRbtree × Int => (r.1, Answer.status r.2)⟩
    | insert z n =>
      have hz : z ∉ ptrs t.toList := mt (inTree_iff h.shows z).mpr hc.2
      obtain ⟨s', hrun⟩ := rbInsert_within (h.modify (fun _ => n) hz hc.1) hz hc.1
      exact ⟨_, hrun.map fun s' => (s', Answer.unit)⟩
    | delete z =>
      obtain ⟨e, he, rfl⟩ := List.mem_map.mp ((inTree_iff h.shows z).mp hc)
      obtain ⟨s', hrun⟩ := rbDelete_within h he
      exact ⟨_, hrun.map fun s' => (s', Answer.unit)⟩
    | deleteKey k =>
      obtain ⟨r, hrun⟩ := rbDeleteKey_within h k
      exact ⟨_, hrun.map fun r : PureRbtree × Int × Option Ptr => (r.1, Answer.deleted r.2.1 r.2.2)⟩
  | searchKey k =>
    obtain ⟨p, -, hrun⟩ := rbSearch_within h k
    exact ⟨_, (hrun.map fun z => if z ≠ s.nil then s.data z else 0).map fun d =>
      (s, Answer.pointer d)⟩
  | minimumNode =>
    by_cases ht : t = .leaf
    · subst ht
      have hroot : s.root = s.nil := h.shows.root
      exact ⟨(s, .pointer s.nil), fun fuel _ => by simp [call, PureRbtree.treeMinimumNode, hroot]⟩
    · obtain ⟨hroot, p, hrun⟩ := treeMinimum_within h ht
      refine ⟨_, (hrun.map fun p => (s, Answer.pointer p)).congr fun fuel => ?_⟩
      simp [call, PureRbtree.treeMinimumNode, hroot]
  | minimumKey =>
    by_cases ht : t = .leaf
    · subst ht
      have hroot : s.root = s.nil := h.shows.root
      exact ⟨(s, .minimum 0 none), fun fuel _ => by simp [call, PureRbtree.treeMinimumKey, hroot]⟩
    · obtain ⟨hroot, p, hrun⟩ := treeMinimum_within h ht
      refine ⟨_, (hrun.map fun p => (s, Answer.minimum (s.key p) (some (s.data p)))).congr
        fun fuel => ?_⟩
      simp [call, PureRbtree.treeMinimumKey, hroot, Function.comp_def]

/-! ## 節の数で言う -/

/-- 辿って着く節の数は、表す木の要素の数である。 -/
theorem Shows.ncard_inTree (h : Shows s t) : {p | InTree s p}.ncard = t.toList.length := by
  have hset : {p | InTree s p} = ((ptrs t.toList).toFinset : Set Ptr) := by
    ext p
    simp [inTree_iff h]
  have hnodup : (ptrs t.toList).Nodup := (List.nodup_cons.mp h.nodup).2
  rw [hset, Set.ncard_coe_finset, List.toFinset_card_of_nodup hnodup, ptrs, List.length_map]

/--
**どの呼び出しのどの loop も、節の数の対数に比例する回数で終わる。**

新しい木から始まるどの操作の列の後でも、木に `n` 個の節があれば、次の呼び出しの loop はどれも
`2 * log₂ (n + 1)` 回までしか続かない。同じ `key` がどれだけ重なっていてもよい。
-/
theorem ends_in_logarithm (heap : Ptr → RbNode) (nil : Ptr) (ops : List Op) (s : PureRbtree)
    (hrun : Runs (.init heap nil) ops s) (c : Call) (hc : c.Allowed s) :
    ∃ s' a, Calls s c s' a ∧
      ∀ fuel, 2 * Nat.log 2 ({p | InTree s p}.ncard + 1) < fuel → call fuel s c = some (s', a) := by
  obtain ⟨t, hvalid⟩ := (Valid.init heap nil).runs hrun
  obtain ⟨m, hbal⟩ := hvalid.balanced
  obtain ⟨⟨s', a⟩, hwithin⟩ := call_within hvalid hc
  refine ⟨s', a, ⟨_, hwithin⟩, fun fuel hfuel => hwithin fuel ?_⟩
  rw [hvalid.shows.ncard_inTree] at hfuel
  exact lt_of_le_of_lt hbal.height_le_log hfuel

theorem ends_in_logarithm_after_delete :
    ∃ s, Runs (.init blankHeap 1) (inserts ascending ++ [.deleteKey 20]) s ∧
      {p | InTree s p}.ncard = 4 ∧
      ∃ s' a, Calls s (.op (.deleteKey 40)) s' a ∧
        ∀ fuel, 2 * Nat.log 2 ({p | InTree s p}.ncard + 1) < fuel →
          call fuel s (.op (.deleteKey 40)) = some (s', a) := by
  obtain ⟨s, t, hrun, h, -, hperm⟩ := runs_ascending_delete
  refine ⟨s, hrun, ?_, ends_in_logarithm blankHeap 1 _ s hrun (.op (.deleteKey 40)) trivial⟩
  rw [h.shows.ncard_inTree]
  exact hperm.length_eq

end RecordServer.Datas
