import RecordServer.Datas.Search

/-!
# 操作の列

新しく作った木に、`rb_insert_key_data`・`rb_insert`・`rb_delete`・`rb_delete_key` を任意の順に行う。

* `Op` / `exec` — 一つの操作
* `InTree` — `root` から子の pointer を辿って着く節
* `Allowed` — 呼ぶ側が守ること
* `Runs` — 操作の列を順に最後まで行う
* `Valid.exec` — 許された操作は終わり、赤黒木を赤黒木に移す
* `exec_steady` / `Runs.eq_of_foldlM` — run の着く状態は、燃料を決めて計算できる
-/

namespace RecordServer.Datas

open Infra

/-- 木を変える操作。 -/
inductive Op where
  /-- `new_rbnode` が `z` を返す `rb_insert_key_data`。 -/
  | insertKeyData (z : Ptr) (k : Key) (d : Ptr)
  /-- 呼ぶ側が中身 `n` を書いた節 `z` の `rb_insert`。 -/
  | insert (z : Ptr) (n : RbNode)
  | delete (z : Ptr)
  | deleteKey (k : Key)

def exec (fuel : Nat) (s : PureRbtree) : Op → Option PureRbtree
  | .insertKeyData z k d => (s.rbInsertKeyData fuel z k d).map Prod.fst
  | .insert z n => (s.modify z fun _ => n).rbInsert fuel z
  | .delete z => s.rbDelete fuel z
  | .deleteKey k => (s.rbDeleteKey fuel k).map Prod.fst

/-- `root` から `lson`・`rson` を辿って着く節。 -/
inductive InTree (s : PureRbtree) : Ptr → Prop
  | root : s.root ≠ s.nil → InTree s s.root
  | lson {p} : InTree s p → s.lson p ≠ s.nil → InTree s (s.lson p)
  | rson {p} : InTree s p → s.rson p ≠ s.nil → InTree s (s.rson p)

/-- 呼ぶ側が守ること。加える節は木の中になく、消す節は木の中にある。 -/
def Allowed (s : PureRbtree) : Op → Prop
  | .insertKeyData z _ _ => z ≠ 0 ∧ z ≠ s.nil ∧ ¬ InTree s z
  | .insert z _ => z ≠ s.nil ∧ ¬ InTree s z
  | .delete z => InTree s z
  | .deleteKey _ => True

/-- 操作が `s'` で終わる。 -/
def Exec (s : PureRbtree) (op : Op) (s' : PureRbtree) : Prop :=
  Converges (fun fuel => exec fuel s op) s'

/-- 操作の列を順に行って `s'` に着く。 -/
inductive Runs : PureRbtree → List Op → PureRbtree → Prop
  | nil {s} : Runs s [] s
  | cons {s s' s'' op ops} : Allowed s op → Exec s op s' → Runs s' ops s'' →
      Runs s (op :: ops) s''

/-! ## `root` から辿れる節 -/

variable {s : PureRbtree} {path : Path Entry} {t : RBTree Entry}

theorem InTree.of_rep {par : Ptr} (h : Rep s par t) (hnil : s.nil ∉ ptrs t.toList)
    (hroot : t ≠ .leaf → InTree s (rootPtr s.nil t)) : ∀ p ∈ ptrs t.toList, InTree s p := by
  induction t generalizing par with
  | leaf => simp
  | node c l e r ihl ihr =>
    obtain ⟨hcell, hl, hr⟩ := h
    have he : InTree s e.ptr := hroot (by simp)
    have hlson : s.lson e.ptr = rootPtr s.nil l := by rw [PureRbtree.lson, hcell]; rfl
    have hrson : s.rson e.ptr = rootPtr s.nil r := by rw [PureRbtree.rson, hcell]; rfl
    simp only [RBTree.toList_node, ptrs_append, ptrs_cons, List.mem_append, List.mem_cons,
      not_or] at hnil ⊢
    rintro p (hp | rfl | hp)
    · refine ihl hl hnil.1 (fun hne => ?_) p hp
      rw [← hlson]
      exact .lson he (hlson ▸ ne_of_mem_of_not_mem (rootPtr_mem hne) hnil.1)
    · exact he
    · refine ihr hr hnil.2.2 (fun hne => ?_) p hp
      rw [← hrson]
      exact .rson he (hrson ▸ ne_of_mem_of_not_mem (rootPtr_mem hne) hnil.2.2)

theorem rootPtr_mem_fill {nil : Ptr} (path : Path Entry) (ht : rootPtr nil t ≠ nil) :
    rootPtr nil t ∈ ptrs (fill path t).toList := by
  have hne : t ≠ .leaf := by
    rintro rfl
    exact ht rfl
  have hperm := (toList_fill_perm path t).map Entry.ptr
  refine hperm.mem_iff.mpr ?_
  rw [List.map_append]
  exact List.mem_append_left _ (rootPtr_mem hne)

/-- **辿って着く節は、表している木の節にほかならない。** -/
theorem inTree_iff (h : Shows s t) (p : Ptr) : InTree s p ↔ p ∈ ptrs t.toList := by
  have hnil := (List.nodup_cons.mp h.nodup).1
  have h₀ : Shows s (fill [] t) := h
  constructor
  · intro hp
    induction hp with
    | root hroot =>
      rw [h.root] at hroot ⊢
      exact rootPtr_mem_fill [] hroot
    | @lson p _ hne ih =>
      obtain ⟨e, he, rfl⟩ := List.mem_map.mp ih
      obtain ⟨path, c, l, r, rfl⟩ := exists_fill_of_mem he
      have hn : Shows s (fill path (.mk .left c l e r)) := h
      have hl : s.lson e.ptr = rootPtr s.nil l := hn.son
      rw [hl] at hne ⊢
      exact rootPtr_mem_fill (⟨.left, c, e, r⟩ :: path) hne
    | @rson p _ hne ih =>
      obtain ⟨e, he, rfl⟩ := List.mem_map.mp ih
      obtain ⟨path, c, l, r, rfl⟩ := exists_fill_of_mem he
      have hn : Shows s (fill path (.mk .left c l e r)) := h
      have hr : s.rson e.ptr = rootPtr s.nil r := hn.son_other
      rw [hr] at hne ⊢
      exact rootPtr_mem_fill (⟨.right, c, e, l⟩ :: path) hne
  · refine fun hp => InTree.of_rep h.rep hnil (fun hne => ?_) p hp
    rw [← h.root]
    refine .root ?_
    rw [h.root]
    exact h₀.rootPtr_ne_nil hne

/-! ## 一つの操作 -/

/-- 構築したばかりの木は空の赤黒木である。 -/
theorem Valid.init (heap : Ptr → RbNode) (nil : Ptr) : Valid (.init heap nil) .leaf where
  shows := ⟨rfl, trivial, by simp⟩
  balanced := ⟨0, .leaf⟩
  sorted := List.Pairwise.nil
  nil := by simp [PureRbtree.init, PureRbtree.colour]

/-- 木の外の cell を書き換えても、表す木は変わらない。 -/
theorem Valid.modify (h : Valid s t) {z : Ptr} (f : RbNode → RbNode) (hz : z ∉ ptrs t.toList)
    (hnil : z ≠ s.nil) : Valid (s.modify z f) t where
  shows :=
    { root := h.shows.root
      rep := h.shows.rep.congr rfl fun p hm => by simp [ne_of_mem_of_not_mem hm hz]
      nodup := h.shows.nodup }
  balanced := h.balanced
  sorted := h.sorted
  nil := by
    rw [← h.nil]
    simp [PureRbtree.colour, Ne.symm hnil]

/-- `rb_insert_key_data` は、中順の一か所に新しい節を加えて `0` を返す。 -/
theorem rbInsertKeyData_spec (h : Valid s t) {z : Ptr} {k : Key} {d : Ptr}
    (ha : Allowed s (.insertKeyData z k d)) :
    ∃ s' t' before after, Converges (fun fuel => s.rbInsertKeyData fuel z k d) (s', 0) ∧
      Valid s' t' ∧ t.toList = before ++ after ∧ t'.toList = before ++ ⟨z, k, d⟩ :: after ∧
      s'.nil = s.nil := by
  obtain ⟨hnull, hnil, hnot⟩ := ha
  have hz : z ∉ ptrs t.toList := mt (inTree_iff h.shows z).mpr hnot
  have h₁ := h.modify (fun n => { n with key := k, data := d }) hz hnil
  obtain ⟨s', t', before, after, hrun, hvalid, hold, hnew, hsame⟩ := rbInsert_spec h₁ hz hnil
  refine ⟨s', t', before, after, ?_, hvalid, hold, ?_, hsame.1⟩
  · refine (hrun.map fun s => (s, (0 : Int))).congr fun fuel => ?_
    rw [PureRbtree.rbInsertKeyData, if_neg hnull]
  · rw [hnew]
    simp [PureRbtree.entry, PureRbtree.key, PureRbtree.data]

/-- `rb_insert` は、中順の一か所に呼ぶ側の節を加える。 -/
theorem insertNode_spec (h : Valid s t) {z : Ptr} {n : RbNode} (ha : Allowed s (.insert z n)) :
    ∃ s' t' before after, Exec s (.insert z n) s' ∧ Valid s' t' ∧
      t.toList = before ++ after ∧ t'.toList = before ++ ⟨z, n.key, n.data⟩ :: after ∧
      s'.nil = s.nil := by
  obtain ⟨hnil, hnot⟩ := ha
  have hz : z ∉ ptrs t.toList := mt (inTree_iff h.shows z).mpr hnot
  have h₁ := h.modify (fun _ => n) hz hnil
  obtain ⟨s', t', before, after, hrun, hvalid, hold, hnew, hsame⟩ := rbInsert_spec h₁ hz hnil
  refine ⟨s', t', before, after, hrun, hvalid, hold, ?_, hsame.1⟩
  rw [hnew]
  simp [PureRbtree.entry, PureRbtree.key, PureRbtree.data]

/-- 探した節が分かれば、`rb_delete_key` はそれを消すか、番兵なら何もしない。 -/
theorem rbDeleteKey_search {s' : PureRbtree} {z : Ptr} {k : Key} {code : Int} {out : Option Ptr}
    (hsearch : Converges (fun fuel => s.rbSearch fuel k) z)
    (hrun : Converges (fun fuel => if z ≠ s.nil then (s.rbDelete fuel z).map fun s' =>
      (s', (0 : Int), some (s.data z)) else some (s, -1, none)) (s', code, out)) :
    Converges (fun fuel => s.rbDeleteKey fuel k) (s', code, out) :=
  hsearch.bind (g := fun z fuel => if z ≠ s.nil then (s.rbDelete fuel z).map fun s' =>
    (s', (0 : Int), some (s.data z)) else some (s, -1, none)) hrun

/-- 番兵が見つかれば、`rb_delete_key` は `-1` を返して何も変えない。 -/
theorem rbDeleteKey_nil {k : Key} (hsearch : Converges (fun fuel => s.rbSearch fuel k) s.nil) :
    Converges (fun fuel => s.rbDeleteKey fuel k) (s, -1, none) := by
  refine rbDeleteKey_search hsearch ?_
  simpa using Converges.pure (s, (-1 : Int), (none : Option Ptr))

/-- 見つけた節 `e` だけを除き、その `data` を渡して `0` を返す。 -/
theorem rbDeleteKey_found (h : Valid s t) {k : Key} {e : Entry} (he : e ∈ t.toList)
    (hsearch : Converges (fun fuel => s.rbSearch fuel k) e.ptr) :
    ∃ s' t' before after, Converges (fun fuel => s.rbDeleteKey fuel k) (s', 0, some e.data) ∧
      Valid s' t' ∧ t.toList = before ++ e :: after ∧ t'.toList = before ++ after ∧
      s'.nil = s.nil := by
  obtain ⟨hne, -, hdata⟩ := h.cell he
  obtain ⟨s', t', before, after, hrun, hvalid, hold, hnew, hoff⟩ := rbDelete_spec h he
  refine ⟨s', t', before, after, rbDeleteKey_search hsearch ?_, hvalid, hold, hnew, hoff.1⟩
  simp only [ne_eq, hne, not_false_eq_true, if_true, hdata]
  exact hrun.map fun s' => (s', (0 : Int), some e.data)

/-- `rb_delete_key` は、`key` が無ければ `-1` を返して何も変えない。 -/
theorem rbDeleteKey_absent (h : Valid s t) {k : Key} (hk : ∀ e ∈ t.toList, e.key ≠ k) :
    Converges (fun fuel => s.rbDeleteKey fuel k) (s, -1, none) := by
  obtain ⟨p, hfound, hrun⟩ := rbSearch_spec h k
  have hp : p = s.nil := by
    rcases hfound with ⟨e, he, hek, -⟩ | ⟨hp, -⟩
    · exact absurd hek (hk e he)
    · exact hp
  subst hp
  exact rbDeleteKey_nil hrun

/-- `rb_delete_key` は、`key` があればその節の一つを除き、その `data` を渡して `0` を返す。 -/
theorem rbDeleteKey_present (h : Valid s t) {k : Key} (hk : ∃ e ∈ t.toList, e.key = k) :
    ∃ e s' t' before after, e.key = k ∧
      Converges (fun fuel => s.rbDeleteKey fuel k) (s', 0, some e.data) ∧ Valid s' t' ∧
      t.toList = before ++ e :: after ∧ t'.toList = before ++ after := by
  obtain ⟨p, hfound, hsearch⟩ := rbSearch_spec h k
  obtain ⟨e, he, hek, rfl⟩ : ∃ e ∈ t.toList, e.key = k ∧ p = e.ptr := by
    refine hfound.resolve_right ?_
    rintro ⟨-, hnone⟩
    obtain ⟨e, he, hek⟩ := hk
    exact hnone e he hek
  obtain ⟨s', t', before, after, hrun, hvalid, hold, hnew, -⟩ := rbDeleteKey_found h he hsearch
  exact ⟨e, s', t', before, after, hek, hrun, hvalid, hold, hnew⟩

/-- **許された操作は必ず終わり、赤黒木を赤黒木に移す。** -/
theorem Valid.exec (h : Valid s t) {op : Op} (ha : Allowed s op) :
    ∃ s' t', Exec s op s' ∧ Valid s' t' := by
  cases op with
  | insertKeyData z k d =>
    obtain ⟨s', t', -, -, hrun, hvalid, -⟩ := rbInsertKeyData_spec h ha
    exact ⟨s', t', hrun.map Prod.fst, hvalid⟩
  | insert z n =>
    obtain ⟨s', t', -, -, hrun, hvalid, -⟩ := insertNode_spec h ha
    exact ⟨s', t', hrun, hvalid⟩
  | delete z =>
    obtain ⟨e, he, rfl⟩ := List.mem_map.mp ((inTree_iff h.shows z).mp ha)
    obtain ⟨s', t', -, -, hrun, hvalid, -⟩ := rbDelete_spec h he
    exact ⟨s', t', hrun, hvalid⟩
  | deleteKey k =>
    by_cases hk : ∃ e ∈ t.toList, e.key = k
    · obtain ⟨e, s', t', -, -, -, hrun, hvalid, -⟩ := rbDeleteKey_present h hk
      exact ⟨s', t', hrun.map Prod.fst, hvalid⟩
    · have hnone : ∀ e ∈ t.toList, e.key ≠ k := fun e he hek => hk ⟨e, he, hek⟩
      exact ⟨s, t, (rbDeleteKey_absent h hnone).map Prod.fst, h⟩

/-- どの run も赤黒木を赤黒木に移す。 -/
theorem Valid.runs {s' : PureRbtree} {ops : List Op} (h : Valid s t) (hrun : Runs s ops s') :
    ∃ t', Valid s' t' := by
  induction hrun generalizing t with
  | nil => exact ⟨t, h⟩
  | cons ha hexec _ ih =>
    obtain ⟨s₁, t₁, hexec₁, h₁⟩ := h.exec ha
    obtain rfl := hexec.unique hexec₁
    exact ih h₁

theorem Runs.append {s' s'' : PureRbtree} {ops ops' : List Op} (h : Runs s ops s')
    (h' : Runs s' ops' s'') : Runs s (ops ++ ops') s'' := by
  induction h with
  | nil => exact h'
  | cons ha hexec _ ih => exact .cons ha hexec (ih h')

/-! ## 続けて加える -/

/-- 列の順に `rb_insert_key_data` を行う。 -/
def inserts (es : List Entry) : List Op := es.map fun e => .insertKeyData e.ptr e.key e.data

/-- 木にない互いに異なる節は、続けて加えられる。 -/
theorem Valid.inserts (h : Valid s t) (es : List Entry) (hnull : 0 ∉ ptrs es)
    (hnodup : (s.nil :: ptrs (es ++ t.toList)).Nodup) :
    ∃ s' t', Runs s (inserts es) s' ∧ Valid s' t' ∧ t'.toList.Perm (es ++ t.toList) := by
  induction es generalizing s t with
  | nil => exact ⟨s, t, .nil, h, .refl _⟩
  | cons e es ih =>
    rw [ptrs_cons, List.mem_cons, not_or] at hnull
    have hfresh := hnodup
    simp only [List.cons_append, ptrs_cons, ptrs_append, List.nodup_cons, List.mem_cons,
      List.mem_append, not_or] at hfresh
    have ha : Allowed s (.insertKeyData e.ptr e.key e.data) :=
      ⟨Ne.symm hnull.1, Ne.symm hfresh.1.1, mt (inTree_iff h.shows e.ptr).mp hfresh.2.1.2⟩
    obtain ⟨s₁, t₁, before, after, hrun, h₁, hold, hnew, hnil⟩ := rbInsertKeyData_spec h ha
    have hperm : (es ++ t₁.toList).Perm (e :: es ++ t.toList) := by
      rw [hnew, hold, ← List.append_assoc, ← List.append_assoc]
      exact List.perm_middle
    have hnodup₁ : (s₁.nil :: ptrs (es ++ t₁.toList)).Nodup := by
      rw [hnil]
      exact ((hperm.map Entry.ptr).cons s.nil).nodup_iff.mpr hnodup
    obtain ⟨s₂, t₂, hruns, h₂, hperm₂⟩ := ih h₁ hnull.2 hnodup₁
    exact ⟨s₂, t₂, .cons ha (hrun.map Prod.fst) hruns, h₂, hperm₂.trans hperm⟩

/-! ## 燃料を決めて計算する -/

theorem insertParent_steady (s : PureRbtree) (k : Key) (y x : Ptr) :
    Steady fun fuel => s.insertParent k fuel y x := by
  refine Steady.of_loop (fun fuel p => s.insertParent k fuel p.1 p.2) (fun p : Ptr × Ptr =>
    if p.2 ≠ s.nil then .inr (p.2, if k < s.key p.2 then s.lson p.2 else s.rson p.2)
    else .inl p.1) (fun _ => rfl) (fun fuel p => ?_) (y, x)
  simp only [PureRbtree.insertParent]
  split
  · split <;> rfl
  · rfl

theorem rbInsertFixup_steady (s : PureRbtree) (z : Ptr) :
    Steady fun fuel => s.rbInsertFixup fuel z := by
  refine Steady.of_loop (fun fuel p => p.1.rbInsertFixup fuel p.2) (fun p : PureRbtree × Ptr =>
    if p.1.colour (p.1.parent p.2) = .red then
      .inr (if p.1.parent p.2 = p.1.lson (p.1.parent (p.1.parent p.2))
        then p.1.insertFixupSide .left p.2 else p.1.insertFixupSide .right p.2)
    else .inl (p.1.setColour p.1.root .black)) (fun _ => rfl) (fun fuel p => ?_) (s, z)
  simp only [PureRbtree.rbInsertFixup]
  split <;> rfl

theorem treeMinimum_steady (s : PureRbtree) (x : Ptr) :
    Steady fun fuel => s.treeMinimum fuel x := by
  refine Steady.of_loop _ (fun x => if s.lson x ≠ s.nil then .inr (s.lson x) else .inl x)
    (fun _ => rfl) (fun fuel x => ?_) x
  rw [PureRbtree.treeMinimum]
  split <;> rfl

theorem treeMinimumNode_steady (s : PureRbtree) : Steady fun fuel => s.treeMinimumNode fuel := by
  unfold PureRbtree.treeMinimumNode
  split
  · exact .const _
  · exact treeMinimum_steady _ _

theorem rbDeleteFixup_steady (s : PureRbtree) (x : Ptr) :
    Steady fun fuel => s.rbDeleteFixup fuel x := by
  refine Steady.of_loop (fun fuel p => p.1.rbDeleteFixup fuel p.2) (fun p : PureRbtree × Ptr =>
    if p.2 ≠ p.1.root ∧ p.1.colour p.2 = .black then
      .inr (if p.2 = p.1.lson (p.1.parent p.2)
        then p.1.deleteFixupSide .left p.2 else p.1.deleteFixupSide .right p.2)
    else .inl (p.1.setColour p.2 .black)) (fun _ => rfl) (fun fuel p => ?_) (s, x)
  simp only [PureRbtree.rbDeleteFixup]
  split <;> rfl

theorem rbSearch_steady (s : PureRbtree) (k : Key) : Steady fun fuel => s.rbSearch fuel k := by
  refine Steady.of_loop _ (fun x => if x ≠ s.nil ∧ k ≠ s.key x then
    .inr (if k < s.key x then s.lson x else s.rson x) else .inl x) (fun _ => rfl)
    (fun fuel x => ?_) s.root
  rw [PureRbtree.rbSearchFrom]
  split
  · split <;> rfl
  · rfl

theorem rbInsert_steady (s : PureRbtree) (z : Ptr) : Steady fun fuel => s.rbInsert fuel z :=
  (insertParent_steady _ _ _ _).bind fun _ => rbInsertFixup_steady _ _

theorem finishDelete_steady (s : PureRbtree) (yOrc : Colour) (x : Ptr) :
    Steady fun fuel => s.finishDelete fuel yOrc x := by
  unfold PureRbtree.finishDelete
  split
  · exact rbDeleteFixup_steady _ _
  · exact .const _

theorem rbDelete_steady (s : PureRbtree) (z : Ptr) : Steady fun fuel => s.rbDelete fuel z := by
  unfold PureRbtree.rbDelete
  split
  · exact finishDelete_steady _ _ _
  · split
    · exact finishDelete_steady _ _ _
    · exact (treeMinimum_steady _ _).bind fun _ => finishDelete_steady _ _ _

theorem rbInsertKeyData_steady (s : PureRbtree) (z : Ptr) (k : Key) (d : Ptr) :
    Steady fun fuel => s.rbInsertKeyData fuel z k d := by
  unfold PureRbtree.rbInsertKeyData
  split
  · exact .const _
  · exact (rbInsert_steady _ _).map _

theorem rbDeleteKey_steady (s : PureRbtree) (k : Key) :
    Steady fun fuel => s.rbDeleteKey fuel k := by
  refine (rbSearch_steady s k).bind fun z => ?_
  split
  · exact (rbDelete_steady _ _).map _
  · exact .const _

/-- どの操作も、燃料を増やしても結果が変わらない。 -/
theorem exec_steady (s : PureRbtree) (op : Op) : Steady fun fuel => exec fuel s op := by
  cases op with
  | insertKeyData z k d => exact (rbInsertKeyData_steady _ _ _ _).map _
  | insert z n => exact rbInsert_steady _ _
  | delete z => exact rbDelete_steady _ _
  | deleteKey k => exact (rbDeleteKey_steady _ _).map _

/-- run の着く状態は、燃料を決めた計算の結果である。 -/
theorem Runs.eq_of_foldlM {s' s'' : PureRbtree} {ops : List Op} {fuel : Nat} (h : Runs s ops s')
    (hfold : ops.foldlM (exec fuel) s = some s'') : s' = s'' := by
  induction h with
  | nil => exact Option.some.inj hfold
  | cons _ hexec _ ih =>
    obtain ⟨s₁, h₁, hrest⟩ := Option.bind_eq_some_iff.mp hfold
    obtain rfl := hexec.unique ((exec_steady _ _).converges h₁)
    exact ih hrest

end RecordServer.Datas
