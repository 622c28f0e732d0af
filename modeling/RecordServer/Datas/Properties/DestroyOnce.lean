import RecordServer.Datas.Traversal
import RecordServer.Datas.Properties.Ownership

/-!
# `rb_destroy` は節を一度ずつ消して終わる

loop は子へ下り、子のない節を親から外して消し、親へ戻る。部分木の根から始めると、その節を後順に消して
根の親に着く。

* `Walks` — loop の何回りかで、ある節から別の節に着く
* `Clears` — 部分木を消して親に着いた
* `walks_subtree` — 部分木についての帰納法
* `destroys_along_run` — 操作の列でできるどの木でも、`rb_destroy` は節を一度ずつ消して終わる
-/

namespace RecordServer.Datas

open Infra

variable {s s' s'' : PureRbtree} {x x' x'' : Ptr} {ts ts' : List Touch} {path : Path Entry}
  {t : RBTree Entry}

/-! ## loop の何回りか -/

/-- loop が `x` から何回りかで `x'` に着き、その間に `ts` を行う。 -/
def Walks (s : PureRbtree) (x : Ptr) (s' : PureRbtree) (x' : Ptr) (ts : List Touch) : Prop :=
  ∃ k, ∀ fuel, PureRbtree.rbDestroyFrom (fuel + k) s x =
    (PureRbtree.rbDestroyFrom fuel s' x').map fun (r, us) => (r, ts ++ us)

theorem Walks.trans (h : Walks s x s' x' ts) (h' : Walks s' x' s'' x'' ts') :
    Walks s x s'' x'' (ts ++ ts') := by
  obtain ⟨k, hk⟩ := h
  obtain ⟨k', hk'⟩ := h'
  refine ⟨k' + k, fun fuel => ?_⟩
  rw [← Nat.add_assoc, hk, hk', Option.map_map]
  congr 1
  funext ⟨r, us⟩
  simp

/-- 一回り。 -/
theorem Walks.once {y : Ptr} {d : Option Ptr} (hx : x ≠ s.nil) (h : s.destroyBody x = (s', y, d)) :
    Walks s x s' y (s.destroyTouches x) := by
  refine ⟨1, fun fuel => ?_⟩
  rw [PureRbtree.rbDestroyFrom, if_pos hx, h]

/-- 番兵に着けば、loop は終わる。 -/
theorem Walks.converges (h : Walks s x s' s'.nil ts) :
    Converges (fun fuel => PureRbtree.rbDestroyFrom fuel s x) (s', ts) := by
  obtain ⟨k, hk⟩ := h
  refine ⟨1 + k, fun fuel hfuel => ?_⟩
  obtain ⟨n, rfl⟩ := Nat.exists_eq_add_of_le' hfuel
  show PureRbtree.rbDestroyFrom _ s x = _
  rw [← Nat.add_assoc, hk, PureRbtree.rbDestroyFrom, if_neg (by simp)]
  simp

/-! ## 消した節に触れない -/

/-- `delete_rbnode` に渡した節には、その後触れない。 -/
def NoTouchAfterDelete (ts : List Touch) : Prop :=
  ∀ before p after, ts = before ++ .deleteRbnode p :: after → p ∉ accessed after

theorem NoTouchAfterDelete.of_accessed (h : deletedNodes ts = []) : NoTouchAfterDelete ts := by
  rintro before p after rfl
  simp [deletedNodes] at h

theorem NoTouchAfterDelete.append (h : NoTouchAfterDelete ts) (h' : NoTouchAfterDelete ts')
    (hdisj : ∀ p ∈ deletedNodes ts, p ∉ accessed ts') : NoTouchAfterDelete (ts ++ ts') := by
  intro before p after heq
  rcases List.append_eq_append_iff.mp heq with ⟨us, rfl, hus⟩ | ⟨us, rfl, hus⟩
  · exact h' us p after hus
  · cases us with
    | nil => exact h' [] p after hus.symm
    | cons u us =>
      obtain ⟨rfl, hafter⟩ := List.cons.inj hus
      rw [show after = us ++ ts' from hafter, accessed_append, List.mem_append, not_or]
      exact ⟨h before p us rfl, hdisj p (by simp [deletedNodes])⟩

/-! ## 部分木を消す -/

/-- 部分木 `t` を穴から消して、その親に着いた。 -/
structure Clears (s : PureRbtree) (path : Path Entry) (t : RBTree Entry) (s' : PureRbtree)
    (ts : List Touch) : Prop where
  walks : Walks s (rootPtr s.nil t) s' (parentPtr s.nil path) ts
  nil : s'.nil = s.nil
  shows : path ≠ [] → Shows s' (fill path .leaf)
  deleted : deletedNodes ts = ptrs t.postorder
  freed : freedData ts = t.postorder.map Entry.data
  accessed : ∀ p ∈ accessed ts, p ∈ ptrs t.toList ∨ p = parentPtr s.nil path
  safe : NoTouchAfterDelete ts

theorem destroyBody_data (s : PureRbtree) (x q : Ptr) : (s.destroyBody x).1.data q = s.data q := by
  have hset : ∀ (p : Ptr) (f : RbNode → RbNode), (∀ n, (f n).data = n.data) →
      (s.modify p f).data q = s.data q := by
    intro p f hf
    unfold PureRbtree.data
    rw [PureRbtree.modify_heap]
    split
    · exact hf _
    · rfl
  unfold PureRbtree.destroyBody
  simp only
  split
  · rfl
  · split
    · rfl
    · split
      · exact hset _ (RbNode.withSon .left s.nil) fun _ => rfl
      · exact hset _ (RbNode.withSon .right s.nil) fun _ => rfl

/-- 子のない節を消す。 -/
theorem clears_single {c : Colour} {e : Entry}
    (h : Shows s (fill path (.node c .leaf e .leaf))) :
    ∃ s' ts, Clears s path (.node c .leaf e .leaf) s' ts := by
  have hn : Shows s (fill path (.mk .left c .leaf e .leaf)) := h
  have hl : s.lson e.ptr = s.nil := hn.son
  have hr : s.rson e.ptr = s.nil := hn.son_other
  obtain ⟨s', hbody, hnil, hshow⟩ := destroyBody_leaf h
  have htouch : s.destroyTouches e.ptr = [.access e.ptr, .access (parentPtr s.nil path),
      .access e.ptr, .freeElement e.data] ++ [.deleteRbnode e.ptr] := by
    simp [PureRbtree.destroyTouches, hl, hr, destroyBody_data, hn.parent, hn.data]
  have hwalk := Walks.once hn.ptr_ne_nil hbody
  rw [htouch] at hwalk
  refine ⟨s', _, hwalk, hnil, hshow, rfl, rfl, ?_, ?_⟩
  · intro p hp
    simp only [accessed, List.filterMap_append, List.filterMap_cons, List.filterMap_nil,
      List.append_nil, List.mem_cons, List.not_mem_nil, or_false] at hp
    rcases hp with rfl | rfl | rfl
    · exact .inl (by simp)
    · exact .inr rfl
    · exact .inl (by simp)
  · refine NoTouchAfterDelete.append (.of_accessed rfl) ?_ (by simp [deletedNodes])
    rintro before p after heq
    cases before with
    | nil =>
      obtain ⟨-, rfl⟩ := List.cons.inj heq
      simp [accessed]
    | cons u us => simp at heq

/-- 部分木の節は、穴の外の節でも番兵でもない。 -/
theorem notMem_of_shows {f : Frame Entry} (h : Shows s (fill (f :: path) t)) {p : Ptr}
    (hp : p ∈ ptrs t.toList) : p ∉ ptrs (f.fill .leaf).toList ∧ p ≠ parentPtr s.nil path := by
  have hnd := nodup_fill.mp h.nodup
  simp only [Path.toList, ptrs_cons, ptrs_append, List.nodup_cons, List.nodup_append,
    List.mem_append, List.mem_cons, not_or] at hnd
  obtain ⟨⟨hnt, -⟩, -, -, hdisj⟩ := hnd
  refine ⟨fun hmem => ?_, fun heq => ?_⟩
  · rw [Frame.fill, mem_ptrs_mk] at hmem
    rcases hmem with rfl | hmem | hmem
    · exact hdisj _ hp _ (.inl rfl) rfl
    · simp at hmem
    · exact hdisj _ hp _ (.inr (.inl hmem)) rfl
  · cases path with
    | nil =>
      subst heq
      exact hnt hp
    | cons g path =>
      refine hdisj _ hp _ (.inr (.inr ?_)) heq
      simp [Path.toList, parentPtr]

/-- 子へ下って部分木を消し、戻ってから残りを消す。 -/
theorem Clears.descend {f : Frame Entry} {s₁ s₂ : PureRbtree} {ts₁ ts₂ : List Touch}
    (hshow : Shows s (fill (f :: path) t))
    (hbody : s.destroyBody f.entry.ptr = (s, rootPtr s.nil t, none))
    (htouch : s.destroyTouches f.entry.ptr = [.access f.entry.ptr])
    (hpost : (f.fill t).postorder = t.postorder ++ (f.fill .leaf).postorder)
    (h₁ : Clears s (f :: path) t s₁ ts₁) (h₂ : Clears s₁ path (f.fill .leaf) s₂ ts₂) :
    Clears s path (f.fill t) s₂ ([.access f.entry.ptr] ++ (ts₁ ++ ts₂)) := by
  have hroot : ∀ u, rootPtr s.nil (f.fill u) = f.entry.ptr := fun u => rootPtr_mk _ _ _ _ _ _
  have hne : f.entry.ptr ≠ s.nil := by
    have hn : Shows s (fill path (.mk f.side f.colour t f.entry f.sibling)) := hshow
    exact hn.ptr_ne_nil
  have hmem : ∀ p, p ∈ ptrs (f.fill t).toList ↔
      p ∈ ptrs t.toList ∨ p ∈ ptrs (f.fill .leaf).toList := by
    intro p
    simp only [Frame.fill, mem_ptrs_mk]
    simp
    tauto
  have hwalk := Walks.once hne hbody
  rw [htouch] at hwalk
  have hback := h₂.walks
  rw [h₁.nil, hroot] at hback
  constructor
  · rw [hroot]
    exact hwalk.trans (h₁.walks.trans hback)
  · exact h₂.nil.trans h₁.nil
  · exact h₂.shows
  · rw [deletedNodes_append, deletedNodes_append, h₁.deleted, h₂.deleted, hpost, ptrs_append]
    rfl
  · rw [freedData_append, freedData_append, h₁.freed, h₂.freed, hpost, List.map_append]
    rfl
  · intro p hp
    rw [accessed_append, accessed_append, List.mem_append, List.mem_append] at hp
    rw [hmem]
    rcases hp with hp | hp | hp
    · obtain rfl : p = f.entry.ptr := by simpa [RecordServer.Datas.accessed] using hp
      exact .inl (.inr (by simp [Frame.fill]))
    · rcases h₁.accessed p hp with hp | rfl
      · exact .inl (.inl hp)
      · exact .inl (.inr (by simp [Frame.fill, parentPtr]))
    · rcases h₂.accessed p hp with hp | hp
      · exact .inl (.inr hp)
      · exact .inr (h₁.nil ▸ hp)
  · refine NoTouchAfterDelete.append (.of_accessed rfl) (h₁.safe.append h₂.safe fun p hp hacc => ?_)
      (by simp [deletedNodes])
    rw [h₁.deleted] at hp
    have hp' : p ∈ ptrs t.toList := ((RBTree.postorder_perm t).map Entry.ptr).mem_iff.mp hp
    obtain ⟨hnot, hpar⟩ := notMem_of_shows hshow hp'
    rcases h₂.accessed p hacc with hmem' | heq
    · exact hnot hmem'
    · exact hpar (h₁.nil ▸ heq)

/-- **部分木の根から始めた loop は、その節を後順に消して、親に着く。** -/
theorem clears_subtree (ht : t ≠ .leaf) (h : Shows s (fill path t)) :
    ∃ s' ts, Clears s path t s' ts := by
  induction t generalizing s path with
  | leaf => exact absurd rfl ht
  | node c l e r ihl ihr =>
    -- 左の部分木がなくなった後
    have hright : ∀ {s : PureRbtree}, Shows s (fill path (.node c .leaf e r)) →
        ∃ s' ts, Clears s path (.node c .leaf e r) s' ts := by
      intro s h
      by_cases hr : r = .leaf
      · subst hr
        exact clears_single h
      · have hn : Shows s (fill path (.mk .left c .leaf e r)) := h
        have hlson : s.lson e.ptr = s.nil := hn.son
        have hrson : s.rson e.ptr = rootPtr s.nil r := hn.son_other
        have hchild : Shows s (fill (⟨.right, c, e, .leaf⟩ :: path) r) := h
        have hne := hchild.rootPtr_ne_nil hr
        obtain ⟨s₁, ts₁, h₁⟩ := ihr hr hchild
        obtain ⟨s₂, ts₂, h₂⟩ := clears_single (h₁.shows (by simp))
        exact ⟨s₂, _, .descend hchild (by simp [PureRbtree.destroyBody, hlson, hrson, hne])
          (by simp [PureRbtree.destroyTouches, hlson, hrson, hne])
          (by simp [Frame.fill, RBTree.postorder]) h₁ h₂⟩
    by_cases hl : l = .leaf
    · subst hl
      exact hright h
    · have hn : Shows s (fill path (.mk .left c l e r)) := h
      have hlson : s.lson e.ptr = rootPtr s.nil l := hn.son
      have hchild : Shows s (fill (⟨.left, c, e, r⟩ :: path) l) := h
      have hne := hchild.rootPtr_ne_nil hl
      obtain ⟨s₁, ts₁, h₁⟩ := ihl hl hchild
      obtain ⟨s₂, ts₂, h₂⟩ := hright (h₁.shows (by simp))
      exact ⟨s₂, _, .descend hchild (by simp [PureRbtree.destroyBody, hlson, hne])
        (by simp [PureRbtree.destroyTouches, hlson, hne])
        (by simp [Frame.fill, RBTree.postorder]) h₁ h₂⟩

/-! ## 木全体 -/

/-- 行ったこと `ts` は、木の節を一度ずつ、子を親より先に消し、消した節に触れない。 -/
structure DestroysOnce (s : PureRbtree) (ts : List Touch) : Prop where
  once : (deletedNodes ts).Nodup
  all : ∀ p, p ∈ deletedNodes ts ↔ InTree s p
  nil : s.nil ∉ deletedNodes ts
  /-- `free_element` も、消す節ごとに一度、その `data` について呼ぶ。 -/
  freed : freedData ts = (deletedNodes ts).map s.data
  lson : ∀ p, InTree s p → s.lson p ≠ s.nil → Before (s.lson p) p (deletedNodes ts)
  rson : ∀ p, InTree s p → s.rson p ≠ s.nil → Before (s.rson p) p (deletedNodes ts)
  safe : NoTouchAfterDelete ts

theorem mem_of_rootPtr_ne {nil : Ptr} (h : rootPtr nil t ≠ nil) :
    ∃ e ∈ t.toList, e.ptr = rootPtr nil t := by
  cases t with
  | leaf => exact absurd rfl h
  | node c l e r => exact ⟨e, by simp, rfl⟩

/-- 後順では、子の節が親の節より先に来る。 -/
theorem sons_before (h : Shows s t) {p : Ptr} (hp : InTree s p) :
    (s.lson p ≠ s.nil → Before (s.lson p) p (ptrs t.postorder)) ∧
      (s.rson p ≠ s.nil → Before (s.rson p) p (ptrs t.postorder)) := by
  obtain ⟨e, he, rfl⟩ := List.mem_map.mp ((inTree_iff h p).mp hp)
  obtain ⟨path, c, l, r, rfl⟩ := exists_fill_of_mem he
  have hn : Shows s (fill path (.mk .left c l e r)) := h
  have hl : s.lson e.ptr = rootPtr s.nil l := hn.son
  have hr : s.rson e.ptr = rootPtr s.nil r := hn.son_other
  rw [hl, hr]
  refine ⟨fun hne => ?_, fun hne => ?_⟩
  · obtain ⟨x, hx, hptr⟩ := mem_of_rootPtr_ne hne
    rw [← hptr]
    exact (RBTree.before_postorder path (.inl hx)).map Entry.ptr
  · obtain ⟨x, hx, hptr⟩ := mem_of_rootPtr_ne hne
    rw [← hptr]
    exact (RBTree.before_postorder path (.inr hx)).map Entry.ptr

/-- 木を表す状態では、`rb_destroy` は節を後順に消して終わる。 -/
theorem rbDestroy_spec (h : Valid s t) : ∃ s' ts,
    Converges (fun fuel => s.rbDestroy fuel) (s', ts) ∧ deletedNodes ts = ptrs t.postorder ∧
      freedData ts = t.postorder.map Entry.data ∧ NoTouchAfterDelete ts := by
  by_cases ht : t = .leaf
  · subst ht
    refine ⟨s, [], ⟨1, fun fuel hfuel => ?_⟩, rfl, rfl, .of_accessed rfl⟩
    obtain ⟨n, rfl⟩ := Nat.exists_eq_add_of_le' hfuel
    have hroot : s.root = s.nil := h.shows.root
    show s.rbDestroy (n + 1) = _
    rw [PureRbtree.rbDestroy, PureRbtree.rbDestroyFrom, if_neg (by simp [hroot])]
  · have h₀ : Shows s (fill [] t) := h.shows
    obtain ⟨s', ts, hclear⟩ := clears_subtree ht h₀
    have hwalk := hclear.walks
    rw [← h.shows.root, show parentPtr s.nil [] = s'.nil from hclear.nil.symm] at hwalk
    exact ⟨s', ts, hwalk.converges, hclear.deleted, hclear.freed, hclear.safe⟩

/--
**`rb_destroy` は必ず終わり、木の節を一度ずつ、子を親より先に消し、消した節に触れない。**

操作の列でできるどの木についても成り立つ。
-/
theorem destroys_along_run (heap : Ptr → RbNode) (nil : Ptr) (ops : List Op) (s : PureRbtree)
    (hrun : Runs (.init heap nil) ops s) :
    ∃ s' ts, Converges (fun fuel => s.rbDestroy fuel) (s', ts) ∧ DestroysOnce s ts := by
  obtain ⟨t, hvalid⟩ := (Valid.init heap nil).runs hrun
  obtain ⟨s', ts, hconv, hdeleted, hfreed, hsafe⟩ := rbDestroy_spec hvalid
  have hperm := (RBTree.postorder_perm t).map Entry.ptr
  obtain ⟨hnil, hnodup⟩ := List.nodup_cons.mp hvalid.shows.nodup
  refine ⟨s', ts, hconv, ?_⟩
  constructor
  · rw [hdeleted]
    exact hperm.nodup_iff.mpr hnodup
  · intro p
    rw [hdeleted, inTree_iff hvalid.shows]
    exact hperm.mem_iff
  · rw [hdeleted]
    exact fun hmem => hnil (hperm.mem_iff.mp hmem)
  · rw [hdeleted, hfreed, ptrs, List.map_map]
    refine List.map_congr_left fun e he => ?_
    exact (hvalid.cell ((RBTree.postorder_perm t).mem_iff.mp he)).2.2.symm
  · rw [hdeleted]
    exact fun p hp => (sons_before hvalid.shows hp).1
  · rw [hdeleted]
    exact fun p hp => (sons_before hvalid.shows hp).2
  · exact hsafe

/-- loop は、燃料を増やしても結果が変わらない。 -/
theorem rbDestroyFrom_steady (s : PureRbtree) (x : Ptr) :
    Steady fun fuel => s.rbDestroyFrom fuel x := by
  intro n m r hle h
  induction n generalizing s x m r with
  | zero => cases h
  | succ n ih =>
    obtain ⟨m, rfl⟩ := Nat.exists_eq_add_one_of_ne_zero (Nat.ne_zero_of_lt hle)
    simp only [PureRbtree.rbDestroyFrom] at h ⊢
    split at h
    · next hx =>
      obtain ⟨q, hq, rfl⟩ := Option.map_eq_some_iff.mp h
      rw [if_pos hx]
      exact Option.map_eq_some_iff.mpr ⟨q, ih _ _ (Nat.le_of_succ_le_succ hle) hq, rfl⟩
    · next hx => rwa [if_neg hx]

theorem destroys_after_insert :
    ∃ s, Runs (.init blankHeap 1) (inserts ascending) s ∧
      ∃ s' ts, Converges (fun fuel => s.rbDestroy fuel) (s', ts) ∧
        deletedNodes ts = [2, 4, 6, 5, 3] ∧ DestroysOnce s ts := by
  obtain ⟨s, -, hrun, -, -⟩ := runs_ascending
  obtain ⟨s', ts, hconv, hdestroys⟩ := destroys_along_run blankHeap 1 _ s hrun
  refine ⟨s, hrun, s', ts, hconv, ?_, hdestroys⟩
  have hfold : ((inserts ascending).foldlM (exec 5) (.init blankHeap 1)).bind
      (fun s => (s.rbDestroy 10).map fun r => deletedNodes r.2) = some [2, 4, 6, 5, 3] := by
    decide +kernel
  obtain ⟨t, ht, hdestroy⟩ := Option.bind_eq_some_iff.mp hfold
  obtain ⟨r, hr, hdeleted⟩ := Option.map_eq_some_iff.mp hdestroy
  obtain rfl := hrun.eq_of_foldlM ht
  obtain rfl := hconv.unique ((rbDestroyFrom_steady _ _).converges hr)
  exact hdeleted

end RecordServer.Datas
