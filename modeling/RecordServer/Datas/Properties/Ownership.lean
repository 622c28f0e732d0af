import RecordServer.Datas.Ownership
import RecordServer.Datas.Properties.Balance

/-!
# 節はその持ち主が消す

* `Life.NodesOwned` — 節が二度消されず、`new_rbnode` で得た節だけが消され、消した節が読まれず、
  `rb_destroy` の後の木が空で、破棄子が終わる
* `ownership_run` — 条件を満たす一手を重ねたどの run でも `NodesOwned`
* `ownership_broken` — `rb_destroy` は `root` を残し、破棄子は呼ぶ側の節も消す
-/

namespace RecordServer.Datas

open Infra

/-! ## 履歴 -/

section Log

variable {log : List Event} {p : Ptr} {e : Event}

theorem latest_cons (e : Event) (log : List Event) (p : Ptr) :
    latest (e :: log) p = if e.ptr = p then some e else latest log p := by
  unfold latest
  rw [List.find?_cons]
  by_cases h : e.ptr = p <;> simp [h]

theorem latest_cons_of_ne (h : e.ptr ≠ p) : latest (e :: log) p = latest log p := by
  rw [latest_cons, if_neg h]

theorem Held.not_freed (h : Held log p) : ¬ Freed log p := by
  intro hf
  have heq := h.symm.trans hf
  simp at heq

/-- 最も新しい出来事が `new_rbnode` なら、間の `delete_rbnode` より後に `new_rbnode` がある。 -/
theorem mem_of_held {between older : List Event}
    (h : Held (between ++ .delete p :: older) p) : .new p ∈ between := by
  induction between with
  | nil =>
    have hdelete : latest (.delete p :: older) p = some (.delete p) := by
      simp [latest_cons, Event.ptr]
    exact absurd hdelete (Held.not_freed h)
  | cons e between ih =>
    have hlatest : latest (e :: (between ++ .delete p :: older)) p = some (.new p) := h
    rw [latest_cons] at hlatest
    by_cases he : e.ptr = p
    · rw [if_pos he] at hlatest
      simp [Option.some.inj hlatest]
    · rw [if_neg he] at hlatest
      exact List.mem_cons_of_mem _ (ih hlatest)

/-- 得た節だけを消すなら、同じ節を二度は消さない。 -/
theorem OnlyNew.deletedOnce (h : OnlyNew log) : DeletedOnce log :=
  fun newer p between older hlog => mem_of_held (h newer p (between ++ .delete p :: older) hlog)

theorem OnlyNew.cons (h : OnlyNew log) (he : ∀ p, e = .delete p → Held log p) :
    OnlyNew (e :: log) := by
  intro newer p older hlog
  cases newer with
  | nil =>
    obtain ⟨rfl, rfl⟩ := List.cons.inj hlog
    exact he p rfl
  | cons e' newer => exact h newer p older (List.cons.inj hlog).2

end Log

/-! ## `rb_destroy` の loop -/

section Destroy

variable {s : PureRbtree} {path : Path Entry} {p : Ptr} {n : RbNode}

/-- 根が穴にない木で、穴を空にする。 -/
theorem Shows.setHole_leaf {c : Colour} {e : Entry} {f : Frame Entry}
    (h : Shows s (fill (f :: path) (.node c .leaf e .leaf))) :
    Shows (setHole s (f :: path) s.nil) (fill (f :: path) .leaf) := by
  obtain ⟨hp, -, hnd⟩ := shows_fill.mp h
  have hnd' : (s.nil :: e.ptr :: ptrs (Path.toList (f :: path))).Nodup := by simpa using hnd
  have hnil : (setHole s (f :: path) s.nil).nil = s.nil := setHole_nil
  obtain ⟨hmem, -, hnodup⟩ : s.nil ∉ ptrs (Path.toList (f :: path)) ∧
      e.ptr ∉ ptrs (Path.toList (f :: path)) ∧ (ptrs (Path.toList (f :: path))).Nodup := by
    rw [List.nodup_cons, List.nodup_cons, List.mem_cons, not_or] at hnd'
    exact ⟨hnd'.1.2, hnd'.2.1, hnd'.2.2⟩
  refine shows_fill.mpr ⟨?_, trivial, ?_⟩
  · have hrep := hp.setHole hnodup s.nil
    rw [show rootPtr (setHole s (f :: path) s.nil).nil .leaf = s.nil from hnil]
    exact hrep
  · rw [hnil]
    exact List.nodup_cons.mpr ⟨hmem, hnodup⟩

/-- 子のない節の一回り。 -/
theorem destroyBody_single {x : Ptr} (hl : s.lson x = s.nil) (hr : s.rson x = s.nil)
    (hpar : s.parent x = s.nil) (hx : x ≠ s.nil) :
    ∃ s', s.destroyBody x = (s', s.nil, some x) ∧ s'.nil = s.nil ∧ s'.root = s.root ∧
      s'.heap x = s.heap x := by
  have hbody : s.destroyBody x = (if x = s.lson s.nil then s.setLson s.nil s.nil
      else s.setRson s.nil s.nil, s.nil, some x) := by
    simp [PureRbtree.destroyBody, hl, hr, hpar]
  refine ⟨_, hbody, by split <;> rfl, by split <;> rfl, ?_⟩
  split
  · simp [PureRbtree.setLson, hx]
  · simp [PureRbtree.setRson, hx]

/-- 子のない節を親から外す。木に残る節があれば、その木を表したままである。 -/
theorem destroyBody_leaf {c : Colour} {e : Entry}
    (h : Shows s (fill path (.node c .leaf e .leaf))) :
    ∃ s', s.destroyBody e.ptr = (s', parentPtr s.nil path, some e.ptr) ∧ s'.nil = s.nil ∧
      (path ≠ [] → Shows s' (fill path .leaf)) := by
  have hn : Shows s (fill path (.mk .left c .leaf e .leaf)) := h
  have hl : s.lson e.ptr = s.nil := hn.son
  have hr : s.rson e.ptr = s.nil := hn.son_other
  cases path with
  | nil =>
    obtain ⟨s', hbody, hnil, -, -⟩ := destroyBody_single hl hr hn.parent hn.ptr_ne_nil
    exact ⟨s', hbody, hnil, fun hne => absurd rfl hne⟩
  | cons f path =>
    have hpar : s.parent e.ptr = f.entry.ptr := hn.parent
    have htest : e.ptr = s.lson f.entry.ptr ↔ f.side = .left := h.side_test (.inl (by simp))
    refine ⟨setHole s (f :: path) s.nil, ?_, setHole_nil, fun _ => h.setHole_leaf⟩
    simp only [PureRbtree.destroyBody, hl, hr, hpar, ne_eq, not_true_eq_false, if_false, parentPtr,
      htest, setHole, Prod.mk.injEq, and_true]
    cases f.side <;> rfl

/-- 破棄の loop が部分木 `X` の根 `x` にいて、残る節はどれも `new_rbnode` で得たものである。 -/
structure Remaining (s : PureRbtree) (log : List Event) (x : Ptr) (path : Path Entry)
    (X : RBTree Entry) : Prop where
  ne : X ≠ .leaf
  shows : Shows s (fill path X)
  ptr : x = rootPtr s.nil X
  held : ∀ p ∈ ptrs (fill path X).toList, Held log p

/-- loop の残りの回数の上限。下るたびに文脈が伸び、消すたびに節が減る。 -/
def todo (path : Path Entry) (X : RBTree Entry) : Nat :=
  2 * (fill path X).toList.length - path.length

theorem length_toList_fill (path : Path Entry) (X : RBTree Entry) :
    (fill path X).toList.length = X.toList.length + (Path.toList path).length := by
  rw [(toList_fill_perm path X).length_eq, List.length_append]

theorem length_le_toList (path : Path Entry) : path.length ≤ (Path.toList path).length := by
  induction path with
  | nil => simp
  | cons f path ih =>
    simp only [Path.toList, List.length_cons, List.length_append]
    omega

/-- 子へ下る。木は変わらない。 -/
theorem Remaining.descend {log : List Event} {x : Ptr} {X X' : RBTree Entry} {f : Frame Entry}
    (h : Remaining s log x path X) (hfill : f.fill X' = X) (hX' : X' ≠ .leaf) :
    Remaining s log (rootPtr s.nil X') (f :: path) X' ∧ todo (f :: path) X' < todo path X := by
  subst hfill
  refine ⟨⟨hX', h.shows, rfl, h.held⟩, ?_⟩
  have hlen : (fill path (f.fill X')).toList.length = (f.fill X').toList.length +
      (Path.toList path).length := length_toList_fill path _
  have hpos : 0 < (f.fill X').toList.length := by
    rw [List.length_pos_iff]
    intro hnil
    have hmem : rootPtr s.nil (f.fill X') ∈ ptrs (f.fill X').toList := rootPtr_mem (mk_ne_leaf _ _ _ _ _)
    rw [hnil] at hmem
    simp at hmem
  have hle := length_le_toList path
  unfold todo
  rw [fill_cons, List.length_cons]
  omega

/-- 子のない節を消す。木に節が残れば、親へ戻る。 -/
theorem Remaining.remove {log : List Event} {x : Ptr} {c : Colour} {e : Entry} {f : Frame Entry}
    {s' : PureRbtree} (h : Remaining s log x (f :: path) (.node c .leaf e .leaf))
    (hshow : Shows s' (fill (f :: path) .leaf)) :
    Remaining s' (.delete e.ptr :: log) f.entry.ptr path (f.fill .leaf) ∧
      todo path (f.fill .leaf) < todo (f :: path) (.node c .leaf e .leaf) := by
  have hnd := nodup_fill.mp h.shows.nodup
  have hmem : e.ptr ∉ ptrs (Path.toList (f :: path)) := by
    have hnd' : (s.nil :: e.ptr :: ptrs (Path.toList (f :: path))).Nodup := by simpa using hnd
    exact (List.nodup_cons.mp (List.nodup_cons.mp hnd').2).1
  refine ⟨⟨mk_ne_leaf _ _ _ _ _, hshow, by simp [Frame.fill], fun p hp => ?_⟩, ?_⟩
  · have hp' : p ∈ ptrs (Path.toList (f :: path)) := by
      have hor := mem_ptrs_fill.mp (show p ∈ ptrs (fill (f :: path) .leaf).toList from hp)
      simpa using hor
    have hne : e.ptr ≠ p := (ne_of_mem_of_not_mem hp' hmem).symm
    unfold Held
    rw [latest_cons_of_ne (show (Event.delete e.ptr).ptr ≠ p from hne)]
    exact h.held p (mem_ptrs_fill.mpr (.inr hp'))
  · have hlen₁ := length_toList_fill (f :: path) .leaf
    have hlen₂ := length_toList_fill (f :: path) (.node c .leaf e .leaf)
    have hle := length_le_toList (f :: path)
    simp only [RBTree.toList_leaf, RBTree.toList_node, List.nil_append, List.length_nil,
      List.length_cons, Nat.zero_add] at hlen₁ hlen₂ hle
    unfold todo
    rw [show fill path (f.fill .leaf) = fill (f :: path) .leaf from rfl, hlen₁, hlen₂,
      List.length_cons]
    omega

/-- **破棄の loop の一回りは、子へ下るか、`new_rbnode` で得た節を一つ消す。** -/
theorem Remaining.body {log : List Event} {x : Ptr} {X : RBTree Entry}
    (h : Remaining s log x path X) :
    (∃ y path' X', s.destroyBody x = (s, y, none) ∧ Remaining s log y path' X' ∧
        todo path' X' < todo path X) ∨
      ∃ s' y, s.destroyBody x = (s', y, some x) ∧ s'.nil = s.nil ∧ Held log x ∧
        (y = s.nil ∨ ∃ path' X', Remaining s' (.delete x :: log) y path' X' ∧
          todo path' X' < todo path X) := by
  cases X with
  | leaf => exact absurd rfl h.ne
  | node c l e r =>
    have hn : Shows s (fill path (.mk .left c l e r)) := h.shows
    have hl : s.lson e.ptr = rootPtr s.nil l := hn.son
    have hr : s.rson e.ptr = rootPtr s.nil r := hn.son_other
    have hx : x = e.ptr := h.ptr
    subst hx
    by_cases hleaf : l = .leaf
    · subst hleaf
      by_cases hleaf' : r = .leaf
      · subst hleaf'
        obtain ⟨s', hbody, hnil, hshow⟩ := destroyBody_leaf h.shows
        refine .inr ⟨s', _, hbody, hnil, h.held e.ptr (mem_ptrs_fill.mpr (.inl (by simp))), ?_⟩
        cases path with
        | nil => exact .inl rfl
        | cons f path => exact .inr ⟨path, _, h.remove (hshow (by simp))⟩
      · have hchild : Shows s (fill (⟨.right, c, e, .leaf⟩ :: path) r) := h.shows
        have hne := hchild.rootPtr_ne_nil hleaf'
        refine .inl ⟨_, _, r, ?_, h.descend (f := ⟨.right, c, e, .leaf⟩) rfl hleaf'⟩
        rw [show rootPtr s.nil .leaf = s.nil from rfl] at hl
        simp [PureRbtree.destroyBody, hl, hr, hne]
    · have hchild : Shows s (fill (⟨.left, c, e, r⟩ :: path) l) := h.shows
      have hne := hchild.rootPtr_ne_nil hleaf
      refine .inl ⟨_, _, l, ?_, h.descend (f := ⟨.left, c, e, r⟩) rfl hleaf⟩
      simp [PureRbtree.destroyBody, hl, hne]

/-- 一回りが読み書きするのは、`x` とその親の cell だけである。 -/
theorem destroyBody_poke {x : Ptr} (hx : x ≠ p) (hpar : s.parent x ≠ p) :
    (s.poke p n).destroyBody x = ((s.destroyBody x).1.poke p n, (s.destroyBody x).2) := by
  have hcell : (s.poke p n).heap x = s.heap x := poke_heap_of_ne hx
  have hparent : (s.poke p n).parent x = s.parent x := congrArg RbNode.parent hcell
  have hlson : (s.poke p n).lson x = s.lson x := congrArg RbNode.lson hcell
  have hrson : (s.poke p n).rson x = s.rson x := congrArg RbNode.rson hcell
  have hup : (s.poke p n).lson (s.parent x) = s.lson (s.parent x) :=
    congrArg RbNode.lson (poke_heap_of_ne hpar)
  have hset : (s.poke p n).setLson (s.parent x) s.nil = (s.setLson (s.parent x) s.nil).poke p n :=
    poke_modify (Ne.symm hpar)
  have hset' : (s.poke p n).setRson (s.parent x) s.nil = (s.setRson (s.parent x) s.nil).poke p n :=
    poke_modify (Ne.symm hpar)
  unfold PureRbtree.destroyBody
  simp only [hparent, hlson, hrson, hup, poke_nil, hset, hset']
  split
  · rfl
  · split
    · rfl
    · split <;> rfl

end Destroy

/-! ## 一手 -/

namespace Life

variable {l l' : Life} {c : Call} {t : RBTree Entry} {p : Ptr} {n : RbNode}

/--
木の一生の不変量。

消した節は木になく、破棄の loop に入ると木の節はどれも `new_rbnode` で得たものである。
-/
def Inv (l : Life) : Prop :=
  OnlyNew l.log ∧
    match l.phase with
    | .idle => Held l.log l.tree.nil ∧
        ∃ t, Valid l.tree t ∧ ∀ p ∈ ptrs t.toList, ¬ Freed l.log p
    | .destroying x => Held l.log l.tree.nil ∧ x = l.tree.nil ∧ Valid l.tree .leaf
    | .closing x => Held l.log l.tree.nil ∧
        (x = l.tree.nil ∨ ∃ path X, Remaining l.tree l.log x path X)
    | .dead => True

theorem inv_init (heap : Ptr → RbNode) (nil : Ptr) : (init heap nil).Inv := by
  refine ⟨?_, ?_, .leaf, Valid.init heap nil, by simp⟩
  · intro newer p older hlog
    have hmem : Event.delete p ∈ (init heap nil).log := by simp [hlog]
    simp [init] at hmem
  · simp [Held, latest, init, Event.ptr, PureRbtree.init]

/-! ### 呼び出し -/

/-- `delete_rbnode` に渡す節は、木だけで決まる。 -/
theorem deleted_uniform {s : PureRbtree} (h : Valid s t) (c : Call) :
    ∃ es, (∀ r, Valid r t → r.nil = s.nil → Converges (fun fuel => deleted fuel r c) es) ∧
      (es = [] ∨ ∃ z k, c = .op (.deleteKey k) ∧ es = [.delete z] ∧ c.Deletes s z ∧ z ≠ s.nil) := by
  have hnone : (∀ k, c ≠ .op (.deleteKey k)) →
      ∀ r : PureRbtree, Converges (fun fuel => deleted fuel r c) [] := by
    intro hc r
    refine (Converges.pure []).congr fun fuel => ?_
    unfold deleted
    split
    · next k => exact absurd rfl (hc k)
    · rfl
  by_cases hc : ∃ k, c = .op (.deleteKey k)
  · obtain ⟨k, rfl⟩ := hc
    obtain ⟨z, -, hsearch⟩ := rbSearch_uniform h k
    refine ⟨if z ≠ s.nil then [.delete z] else [], fun r hr hnil => ?_, ?_⟩
    · rw [← hnil]
      exact (hsearch r hr hnil).map fun z => if z ≠ r.nil then [Event.delete z] else []
    · by_cases hz : z = s.nil
      · exact .inl (by simp [hz])
      · exact .inr ⟨z, k, rfl, by simp [hz], ⟨k, rfl, hsearch s h rfl⟩, hz⟩
  · simp only [not_exists] at hc
    exact ⟨[], fun r _ _ => hnone hc r, .inl rfl⟩

theorem steps_call {s' : PureRbtree} {a : Answer} {es : List Event} (hphase : l.phase = .idle)
    (hcall : Calls l.tree c s' a) (hdel : Converges (fun fuel => deleted fuel l.tree c) es) :
    l.Steps (.call c) { l with tree := s', log := es ++ (acquired l.log c ++ l.log) } := by
  have hbind := hcall.bind (g := fun r fuel => (deleted fuel l.tree c).map fun es =>
    { l with tree := r.1, log := es ++ (acquired l.log c ++ l.log) }) (hdel.map _)
  refine hbind.congr fun fuel => ?_
  rw [step, if_pos hphase]

/-- 使い始めた節のほかは、出来事が増えない。 -/
theorem latest_acquired {log : List Event} (h : c.node ≠ some p) :
    latest (acquired log c ++ log) p = latest log p := by
  unfold acquired
  split
  · next z _ _ =>
    have hz : z ≠ p := fun hz => h (congrArg some hz)
    exact latest_cons_of_ne (show (Event.new z).ptr ≠ p from hz)
  · next z _ =>
    have hz : z ≠ p := fun hz => h (congrArg some hz)
    split
    · rfl
    · exact latest_cons_of_ne (show (Event.own z).ptr ≠ p from hz)
  · rfl

/-- 使い始めた節は、消した節ではない。 -/
theorem not_freed_acquired {log : List Event} (h : c.node = some p) :
    ¬ Freed (acquired log c ++ log) p := by
  unfold acquired
  split
  · next z _ _ =>
    have hz : z = p := Option.some.inj h
    simp [Freed, latest_cons, Event.ptr, hz]
  · next z _ =>
    have hz : z = p := Option.some.inj h
    subst hz
    split
    · next hheld => exact Held.not_freed hheld
    · simp [Freed, latest_cons, Event.ptr]
  · next hne hne' =>
    exfalso
    revert h
    unfold Call.node
    split
    · next z k d => exact fun _ => hne z k d rfl
    · next z m => exact fun _ => hne' z m rfl
    · simp

/-- 使い始める出来事は、`delete_rbnode` ではない。 -/
theorem onlyNew_acquired {log : List Event} (h : OnlyNew log) (c : Call) :
    OnlyNew (acquired log c ++ log) := by
  unfold acquired
  split
  · exact h.cons fun p hp => by simp at hp
  · split
    · exact h
    · exact h.cons fun p hp => by simp at hp
  · exact h

theorem inv_call (h : l.Inv) (hp : l.Permitted (.call c)) (hk : l.Keeps (.call c)) :
    ∃ l', l.Steps (.call c) l' ∧ l'.Inv := by
  obtain ⟨hphase, ha⟩ := hp
  simp only [Inv, hphase] at h
  obtain ⟨honly, hheld, t, hvalid, hfree⟩ := h
  obtain ⟨s', a, t', hcall, hvalid', hnil, hnodes⟩ := hvalid.calls ha
  obtain ⟨es, hdel, hes⟩ := deleted_uniform hvalid c
  refine ⟨_, steps_call hphase hcall (hdel _ hvalid rfl), ?_⟩
  have hlatest : latest (acquired l.log c ++ l.log) l.tree.nil = latest l.log l.tree.nil :=
    latest_acquired ha.node_ne_nil
  have hkeep : ∀ q ∈ ptrs t'.toList, ¬ Freed (acquired l.log c ++ l.log) q := by
    intro q hq
    by_cases hnode : c.node = some q
    · exact not_freed_acquired hnode
    · have hold : q ∈ ptrs t.toList := (hnodes q hq).1.resolve_right hnode
      unfold Freed
      rw [latest_acquired hnode]
      exact hfree q hold
  simp only [Inv, hphase, hnil]
  rcases hes with rfl | ⟨z, k, rfl, rfl, hz, hzn⟩
  · refine ⟨onlyNew_acquired honly c, ?_, t', hvalid', hkeep⟩
    exact hlatest.trans hheld
  · refine ⟨?_, ?_, t', hvalid', fun q hq => ?_⟩
    · refine OnlyNew.cons (onlyNew_acquired honly _) fun p hp => ?_
      simp only [Event.delete.injEq] at hp
      subst hp
      exact hk z hz hzn
    · exact (latest_cons_of_ne (show (Event.delete z).ptr ≠ _ from hzn)).trans
        (hlatest.trans hheld)
    · have hne : z ≠ q := by
        rintro rfl
        exact (hnodes z hq).2 hz
      unfold Freed
      rw [show [Event.delete z] ++ (acquired l.log (.op (.deleteKey k)) ++ l.log) =
        .delete z :: (acquired l.log (.op (.deleteKey k)) ++ l.log) from rfl,
        latest_cons_of_ne (show (Event.delete z).ptr ≠ q from hne)]
      exact hkeep q hq

theorem readsNoFreed_call (h : l.Inv) (hp : l.Permitted (.call c)) :
    l.ReadsNoFreed (.call c) := by
  obtain ⟨hphase, ha⟩ := hp
  simp only [Inv, hphase] at h
  obtain ⟨-, hheld, t, hvalid, hfree⟩ := h
  intro p n l' hfreed hstep
  have hnode : c.node ≠ some p := fun hnode => not_freed_acquired hnode hfreed
  have hfreed' : Freed l.log p := (latest_acquired hnode).symm.trans hfreed
  have hpt : p ∉ ptrs t.toList := fun hm => hfree p hm hfreed'
  have hpn : p ≠ l.tree.nil := by
    rintro rfl
    exact hheld.not_freed hfreed'
  have hn : Harmless l.tree p n := fun heq => absurd heq hpn
  obtain ⟨s', a, hcall, n', hsame, -, hcall'⟩ := call_poke hvalid hpt hn ha hnode
  obtain rfl := hsame hpn
  obtain ⟨es, hdel, -⟩ := deleted_uniform hvalid c
  obtain rfl := hstep.unique (steps_call hphase hcall (hdel _ hvalid rfl))
  exact steps_call (l := l.poke p n') hphase hcall' (hdel _ (hvalid.poke hpt hn) rfl)

/-! ### `rb_destroy` と破棄子 -/

theorem steps_destroy (hphase : l.phase = .idle) :
    l.Steps .destroy { l with phase := .destroying l.tree.root } :=
  (Converges.pure _).congr fun _ => if_pos hphase

theorem steps_close (hphase : l.phase = .idle) :
    l.Steps .close { l with phase := .closing l.tree.root } :=
  (Converges.pure _).congr fun _ => if_pos hphase

theorem steps_visit (h : l.visit = some l') : l.Steps .visit l' :=
  (Converges.pure l').congr fun _ => h

theorem visit_node {x : Ptr} (hphase : l.phase = .closing x) (hx : x ≠ l.tree.nil) :
    l.visit = some (l.visitNode x .closing) := by
  unfold visit
  simp only [hphase, if_pos hx]

/-- 破棄子の loop の一回り。節を一つ消すか、子へ下る。 -/
theorem visit_closing {x : Ptr} {path : Path Entry} {X : RBTree Entry}
    (hphase : l.phase = .closing x) (honly : OnlyNew l.log) (hheld : Held l.log l.tree.nil)
    (h : Remaining l.tree l.log x path X) :
    ∃ l' y, l.visit = some l' ∧ l'.phase = .closing y ∧ OnlyNew l'.log ∧
      Held l'.log l'.tree.nil ∧ (y = l'.tree.nil ∨
        ∃ path' X', Remaining l'.tree l'.log y path' X' ∧ todo path' X' < todo path X) := by
  have hx : x ≠ l.tree.nil := by
    rw [h.ptr]
    exact h.shows.rootPtr_ne_nil h.ne
  refine ⟨_, _, visit_node hphase hx, rfl, ?_⟩
  rcases h.body with ⟨y, path', X', hbody, hrem, hlt⟩ | ⟨s', y, hbody, hnil, hxheld, hrest⟩
  · simp only [visitNode, hbody]
    exact ⟨honly, hheld, .inr ⟨path', X', hrem, hlt⟩⟩
  · simp only [visitNode, hbody]
    refine ⟨OnlyNew.cons honly fun p hp => ?_, ?_, ?_⟩
    · simp only [Event.delete.injEq] at hp
      exact hp ▸ hxheld
    · rw [hnil]
      exact (latest_cons_of_ne (show (Event.delete x).ptr ≠ _ from hx)).trans hheld
    · rw [hnil]
      exact hrest

/-- loop を抜けた破棄子は、番兵を消して終わる。 -/
theorem visit_last (hphase : l.phase = .closing l.tree.nil) :
    l.visit = some { l with phase := .dead, log := .delete l.tree.nil :: l.log } := by
  unfold visit
  simp only [hphase, ne_eq, not_true_eq_false, if_false]

theorem visit_empty (hphase : l.phase = .destroying l.tree.nil) :
    l.visit = some { l with phase := .idle } := by
  unfold visit
  simp only [hphase, ne_eq, not_true_eq_false, if_false]

theorem inv_visit (h : l.Inv) (hp : l.Permitted .visit) : ∃ l', l.Steps .visit l' ∧ l'.Inv := by
  cases hphase : l.phase with
  | idle => exact absurd hphase hp.1
  | dead => exact absurd hphase hp.2
  | destroying x =>
    simp only [Inv, hphase] at h
    obtain ⟨honly, hheld, rfl, hvalid⟩ := h
    refine ⟨_, steps_visit (visit_empty hphase), honly, hheld, .leaf, hvalid, ?_⟩
    simp
  | closing x =>
    simp only [Inv, hphase] at h
    obtain ⟨honly, hheld, hx | ⟨path, X, hrem⟩⟩ := h
    · subst hx
      refine ⟨_, steps_visit (visit_last hphase), OnlyNew.cons honly fun p hp => ?_, trivial⟩
      simp only [Event.delete.injEq] at hp
      exact hp ▸ hheld
    · obtain ⟨l', y, hvisit, hphase', honly', hheld', hrest⟩ :=
        visit_closing hphase honly hheld hrem
      refine ⟨l', steps_visit hvisit, ?_⟩
      simp only [Inv, hphase']
      refine ⟨honly', hheld', hrest.imp_right ?_⟩
      rintro ⟨path', X', hrem', -⟩
      exact ⟨path', X', hrem'⟩

/-- **条件を満たす一手は終わり、不変量を保つ。** -/
theorem inv_step {a : Act} (h : l.Inv) (hok : l.Permitted a ∧ l.Keeps a) :
    ∃ l', l.Steps a l' ∧ l'.Inv := by
  obtain ⟨hp, hk⟩ := hok
  cases a with
  | call c => exact inv_call h hp hk
  | visit => exact inv_visit h hp
  | destroy =>
    have hphase : l.phase = .idle := hp
    have hroot : l.tree.root = l.tree.nil := hk
    simp only [Inv, hphase] at h
    obtain ⟨honly, hheld, t, hvalid, -⟩ := h
    have ht : t = .leaf := by
      by_contra hne
      have h₀ : Shows l.tree (fill [] t) := hvalid.shows
      exact h₀.rootPtr_ne_nil hne (hvalid.shows.root.symm.trans hroot)
    exact ⟨_, steps_destroy hphase, honly, hheld, hroot, ht ▸ hvalid⟩
  | close =>
    have hphase : l.phase = .idle := hp
    simp only [Inv, hphase] at h
    obtain ⟨honly, hheld, t, hvalid, -⟩ := h
    refine ⟨_, steps_close hphase, honly, hheld, ?_⟩
    by_cases ht : t = .leaf
    · subst ht
      exact .inl hvalid.shows.root
    · refine .inr ⟨[], t, ht, hvalid.shows, hvalid.shows.root, fun p hp => ?_⟩
      exact hk p ((inTree_iff hvalid.shows p).mpr hp)

/-- 破棄子の loop は止まり、番兵を消して終わる。 -/
theorem closes_of_remaining {x : Ptr} {path : Path Entry} {X : RBTree Entry}
    (hphase : l.phase = .closing x) (honly : OnlyNew l.log) (hheld : Held l.log l.tree.nil)
    (h : x = l.tree.nil ∨ Remaining l.tree l.log x path X) :
    ∃ k l', FuelRuns (fun l a => l.Permitted a ∧ l.Keeps a) step l (List.replicate k .visit) l' ∧
      l'.phase = .dead := by
  have hok : ∀ {l : Life} {x}, l.phase = .closing x → l.Permitted .visit ∧ l.Keeps .visit := by
    intro l x hphase
    exact ⟨by simp [Permitted, hphase], trivial⟩
  have hlast : ∀ {l : Life}, l.phase = .closing l.tree.nil → ∃ k l', FuelRuns
      (fun l a => l.Permitted a ∧ l.Keeps a) step l (List.replicate k .visit) l' ∧
      l'.phase = .dead := fun hphase =>
    ⟨1, _, .cons (hok hphase) (steps_visit (visit_last hphase)) .nil, rfl⟩
  rcases h with rfl | h
  · exact hlast hphase
  induction htodo : todo path X using Nat.strong_induction_on generalizing l x path X with
  | _ m ih =>
    obtain ⟨l₁, y, hvisit, hphase₁, honly₁, hheld₁, hrest⟩ := visit_closing hphase honly hheld h
    have hmore : ∃ k l', FuelRuns (fun l a => l.Permitted a ∧ l.Keeps a) step l₁
        (List.replicate k .visit) l' ∧ l'.phase = .dead := by
      rcases hrest with rfl | ⟨path', X', hrem, hlt⟩
      · exact hlast hphase₁
      · exact ih _ (htodo ▸ hlt) hphase₁ honly₁ hheld₁ hrem rfl
    obtain ⟨k, l', hruns, hdead⟩ := hmore
    exact ⟨k + 1, l', .cons (hok hphase) (steps_visit hvisit) hruns, hdead⟩

/-! ### 消した節を読まない -/

theorem readsNoFreed_visit (h : l.Inv) : l.ReadsNoFreed .visit := by
  intro p n l' hfreed hstep
  have hfreed' : Freed l.log p := hfreed
  have hvisit : l.visit = some l' := by
    obtain ⟨enough, henough⟩ := hstep
    exact henough enough le_rfl
  refine steps_visit ?_
  cases hphase : l.phase with
  | idle => simp [visit, hphase] at hvisit
  | dead => simp [visit, hphase] at hvisit
  | destroying x =>
    simp only [Inv, hphase] at h
    obtain ⟨-, -, rfl, -⟩ := h
    rw [visit_empty hphase] at hvisit
    obtain rfl := Option.some.inj hvisit
    exact visit_empty (l := l.poke p n) hphase
  | closing x =>
    simp only [Inv, hphase] at h
    obtain ⟨-, hheld, rfl | ⟨path, X, hrem⟩⟩ := h
    · rw [visit_last hphase] at hvisit
      obtain rfl := Option.some.inj hvisit
      exact visit_last (l := l.poke p n) hphase
    · have hx : x ≠ l.tree.nil := by
        rw [hrem.ptr]
        exact hrem.shows.rootPtr_ne_nil hrem.ne
      have hmem : ∀ q ∈ ptrs (fill path X).toList, q ≠ p := by
        rintro q hq rfl
        exact (hrem.held q hq).not_freed hfreed'
      have hnil : l.tree.nil ≠ p := by
        rintro rfl
        exact hheld.not_freed hfreed'
      have hxp : x ≠ p := by
        rw [hrem.ptr]
        exact hmem _ (mem_ptrs_fill.mpr (.inl (rootPtr_mem hrem.ne)))
      have hpar : l.tree.parent x ≠ p := by
        rw [hrem.ptr, hrem.shows.parent_rootPtr hrem.ne]
        cases path with
        | nil => exact hnil
        | cons f path => exact hmem _ (mem_ptrs_fill.mpr (.inr (by simp [parentPtr, Path.toList])))
      rw [visit_node hphase hx] at hvisit
      obtain rfl := Option.some.inj hvisit
      rw [visit_node (l := l.poke p n) hphase hx]
      simp only [visitNode, poke, destroyBody_poke hxp hpar]

theorem readsNoFreed_step {a : Act} (h : l.Inv) (hp : l.Permitted a) : l.ReadsNoFreed a := by
  cases a with
  | call c => exact readsNoFreed_call h hp
  | visit => exact readsNoFreed_visit h
  | destroy =>
    intro p n l' _ hstep
    rw [hstep.unique (steps_destroy hp)]
    exact steps_destroy (l := l.poke p n) hp
  | close =>
    intro p n l' _ hstep
    rw [hstep.unique (steps_close hp)]
    exact steps_close (l := l.poke p n) hp

/-- 木の一生の、ある時点での節の扱い。 -/
structure NodesOwned (l : Life) : Prop where
  /-- どの節も、`delete_rbnode` に渡すのは高々一度である。 -/
  deletedOnce : DeletedOnce l.log
  /-- 渡すのは `new_rbnode` で得た節だけである。 -/
  onlyNew : OnlyNew l.log
  /-- 次のどの一手も、消した節を読まない。 -/
  readsNoFreed : ∀ a, l.Permitted a ∧ l.Keeps a → l.ReadsNoFreed a
  /-- `rb_destroy` は終わり、木は空で、作ったばかりの木と同じに振る舞う。 -/
  destroyed : ∀ x, l.phase = .destroying x → ∃ l', l.Steps .visit l' ∧ l'.phase = .idle ∧
    l'.tree.root = l'.tree.nil ∧ BehavesLikeNew l'.tree
  /-- 破棄子は終わる。 -/
  closes : ∀ x, l.phase = .closing x → ∃ k l',
    FuelRuns (fun l a => l.Permitted a ∧ l.Keeps a) step l (List.replicate k .visit) l' ∧
      l'.phase = .dead

theorem Inv.nodesOwned (h : l.Inv) : l.NodesOwned where
  deletedOnce := OnlyNew.deletedOnce h.1
  onlyNew := h.1
  readsNoFreed a hok := readsNoFreed_step h hok.1
  destroyed x hphase := by
    simp only [Inv, hphase] at h
    obtain ⟨-, -, rfl, hvalid⟩ := h
    exact ⟨_, steps_visit (visit_empty hphase), rfl, hvalid.shows.root, hvalid.behavesLikeNew⟩
  closes x hphase := by
    simp only [Inv, hphase] at h
    obtain ⟨honly, hheld, hx | ⟨path, X, hrem⟩⟩ := h
    · exact @closes_of_remaining l x [] .leaf hphase honly hheld (.inl hx)
    · exact closes_of_remaining hphase honly hheld (.inr hrem)

end Life

/--
**条件を満たす run では、節はその持ち主が一度だけ消す。**

`rb_delete_key` が見つける節と、破棄のとき木に残る節が `new_rbnode` で得たもので、`rb_destroy` を空の木に
だけ行うなら、作ってから破棄するまでのどの時点でも `NodesOwned` である。
-/
theorem ownership_run (heap : Ptr → RbNode) (nil : Ptr) (acts : List Life.Act) (l : Life)
    (hrun : FuelRuns (fun l a => l.Permitted a ∧ l.Keeps a) Life.step (.init heap nil) acts l) :
    l.NodesOwned :=
  (FuelRuns.invariant (fun _ _ h hok => Life.inv_step h hok) hrun
    (Life.inv_init heap nil)).nodesOwned

/-! ## 加えて消して破棄する -/

namespace Life

/-- 続けて加えた節の履歴。 -/
def news (es : List Entry) : List Event := (es.map fun e => .new e.ptr).reverse

/-- `rb_insert_key_data` を続けた run は、木の一生でも条件を満たす。 -/
theorem runs_inserts {l : Life} {s' : PureRbtree} {es : List Entry} (hphase : l.phase = .idle)
    (h : Runs l.tree (inserts es) s') :
    FuelRuns (fun l a => l.Permitted a ∧ l.Keeps a) step l
      ((inserts es).map fun op => .call (.op op))
      { l with tree := s', log := news es ++ l.log } := by
  induction es generalizing l with
  | nil =>
    cases h
    exact .nil
  | cons e es ih =>
    cases h with
    | cons ha hexec hrest =>
      obtain ⟨a, hcall⟩ := hexec.calls
      refine .cons ⟨⟨hphase, ha⟩, ?_⟩ (steps_call hphase hcall (.pure [])) ?_
      · rintro z ⟨k, hk, -⟩
        cases hk
      · have hruns := ih (l := { l with tree := _, log := .new e.ptr :: l.log }) hphase hrest
        simpa [news, inserts, acquired] using hruns

end Life

/-- 昇順に加え、子が二つある根を消してから破棄する。残る四つの節も破棄子が消す。 -/
theorem ownership_after_delete_close :
    ∃ acts l, FuelRuns (fun l a => l.Permitted a ∧ l.Keeps a) Life.step (.init blankHeap 1)
        ((inserts ascending).map (fun op => .call (.op op)) ++
          [.call (.op (.deleteKey 20)), .close] ++ acts) l ∧
      l.phase = .dead ∧ l.NodesOwned := by
  obtain ⟨s₁, t₁, hrun₁, h₁, hperm₁⟩ := runs_ascending
  obtain ⟨s₂, t₂, hdelete, h₂, hperm₂⟩ := delete_ascending h₁ hperm₁
  obtain ⟨hnil, hsearch⟩ := search_ascending h₁ hperm₁
  have hkeeps : ∀ z, (Call.op (.deleteKey 20)).Deletes s₁ z → z ≠ s₁.nil →
      Held (Life.news ascending ++ [.new 1]) z := by
    rintro z ⟨k, hk, hz⟩ -
    cases hk
    rw [hz.unique hsearch]
    decide
  have hdeleted : Converges (fun fuel => Life.deleted fuel s₁ (.op (.deleteKey 20)))
      [.delete 3] := by
    have hmap := hsearch.map fun z => if z ≠ s₁.nil then [Event.delete z] else []
    rwa [if_pos hnil] at hmap
  have hheld : ∀ p, InTree s₂ p → Held (.delete 3 :: (Life.news ascending ++ [.new 1])) p := by
    have hall : ∀ p ∈ ptrs (ascending.eraseIdx 1),
        Held (.delete 3 :: (Life.news ascending ++ [.new 1])) p := by decide
    exact fun p hp => hall p ((hperm₂.map Entry.ptr).mem_iff.mp ((inTree_iff h₂.shows p).mp hp))
  have hinserts : FuelRuns (fun l a => l.Permitted a ∧ l.Keeps a) Life.step (.init blankHeap 1)
      ((inserts ascending).map fun op => .call (.op op))
      ⟨s₁, .idle, Life.news ascending ++ [.new 1]⟩ := Life.runs_inserts rfl hrun₁
  have hpermitted : (⟨s₁, .idle, Life.news ascending ++ [.new 1]⟩ : Life).Permitted
      (.call (.op (.deleteKey 20))) := ⟨rfl, trivial⟩
  have hstep := Life.steps_call (l := ⟨s₁, .idle, Life.news ascending ++ [.new 1]⟩) rfl
    (.deleteKey hdelete) hdeleted
  have hclose : FuelRuns (fun l a => l.Permitted a ∧ l.Keeps a) Life.step
      ⟨s₂, .idle, .delete 3 :: (Life.news ascending ++ [.new 1])⟩ [.close]
      ⟨s₂, .closing s₂.root, .delete 3 :: (Life.news ascending ++ [.new 1])⟩ :=
    .cons ⟨rfl, hheld⟩ (Life.steps_close rfl) .nil
  have hrun := hinserts.append (.cons ⟨hpermitted, hkeeps⟩ hstep hclose)
  obtain ⟨k, l, hvisits, hdead⟩ := (ownership_run blankHeap 1 _ _ hrun).closes _ rfl
  exact ⟨_, l, hrun.append hvisits, hdead, ownership_run blankHeap 1 _ l (hrun.append hvisits)⟩

/-! ## 一つだけの節 -/

/-- 木の節は `x` だけである。 -/
structure OneNode (s : PureRbtree) (x : Ptr) : Prop where
  root : s.root = x
  ne : x ≠ s.nil
  lson : s.lson x = s.nil
  rson : s.rson x = s.nil
  parent : s.parent x = s.nil

theorem Valid.oneNode {s : PureRbtree} {t : RBTree Entry} {e : Entry} (h : Valid s t)
    (ht : t.toList = [e]) : OneNode s e.ptr := by
  cases t with
  | leaf => simp at ht
  | node c l e' r =>
    cases l with
    | node cl ll le lr =>
      have hlen := congrArg List.length ht
      simp at hlen
      omega
    | leaf =>
      cases r with
      | node cr rl re rr => simp at ht
      | leaf =>
        obtain rfl : e' = e := by simpa using ht
        have hn : Shows s (fill [] (.mk .left c .leaf e' .leaf)) := h.shows
        exact ⟨h.shows.root, hn.ptr_ne_nil, hn.son, hn.son_other, hn.parent⟩

namespace Life

variable {l : Life} {x : Ptr}

/-- 一つだけの節を消す一回り。`root` は消した節を指したままで、cell も変わらない。 -/
theorem visitNode_oneNode (h : OneNode l.tree x) :
    ∃ s', (∀ phase, l.visitNode x phase = ⟨s', phase s'.nil, .delete x :: l.log⟩) ∧
      s'.nil = l.tree.nil ∧ OneNode s' x := by
  obtain ⟨s', hbody, hnil, hroot, hcell⟩ := destroyBody_single h.lson h.rson h.parent h.ne
  refine ⟨s', fun phase => by simp [visitNode, hbody, hnil], hnil, hroot.trans h.root, ?_, ?_, ?_, ?_⟩
  · rw [hnil]
    exact h.ne
  · rw [PureRbtree.lson, hcell, hnil]
    exact h.lson
  · rw [PureRbtree.rson, hcell, hnil]
    exact h.rson
  · rw [PureRbtree.parent, hcell, hnil]
    exact h.parent

/-- 一つだけの節を `rb_destroy` で消しても、`root` はそれを指したままである。 -/
theorem destroys_oneNode (hphase : l.phase = .idle) (h : OneNode l.tree x) :
    ∃ s', FuelRuns Permitted step l [.destroy, .visit, .visit] ⟨s', .idle, .delete x :: l.log⟩ ∧
      OneNode s' x := by
  obtain ⟨s', hvisit, -, hone⟩ := visitNode_oneNode (l := { l with phase := .destroying x }) h
  have hstart : l.Steps .destroy { l with phase := .destroying x } := by
    rw [← h.root]
    exact steps_destroy hphase
  have hdelete : ({ l with phase := .destroying x } : Life).visit =
      some ⟨s', .destroying s'.nil, .delete x :: l.log⟩ := by
    rw [← hvisit .destroying]
    exact congrArg some (if_pos h.ne)
  have hreturn : (⟨s', .destroying s'.nil, .delete x :: l.log⟩ : Life).visit =
      some ⟨s', .idle, .delete x :: l.log⟩ := visit_empty rfl
  exact ⟨s', .cons hphase hstart (.cons ⟨by simp, by simp⟩ (steps_visit hdelete)
    (.cons ⟨by simp, by simp⟩ (steps_visit hreturn) .nil)), hone⟩

/-- 一つだけの節を残した木の破棄子は、その節と番兵を消す。 -/
theorem closes_oneNode (hphase : l.phase = .idle) (h : OneNode l.tree x) :
    ∃ s', FuelRuns Permitted step l [.close, .visit, .visit]
      ⟨s', .dead, .delete l.tree.nil :: .delete x :: l.log⟩ := by
  obtain ⟨s', hvisit, hnil, -⟩ := visitNode_oneNode (l := { l with phase := .closing x }) h
  have hstart : l.Steps .close { l with phase := .closing x } := by
    rw [← h.root]
    exact steps_close hphase
  have hdelete : ({ l with phase := .closing x } : Life).visit =
      some ⟨s', .closing s'.nil, .delete x :: l.log⟩ := by
    rw [← hvisit .closing]
    exact congrArg some (if_pos h.ne)
  have hlast : (⟨s', .closing s'.nil, .delete x :: l.log⟩ : Life).visit =
      some ⟨s', .dead, .delete s'.nil :: .delete x :: l.log⟩ := visit_last rfl
  have hnil' : s'.nil = l.tree.nil := hnil
  refine ⟨s', ?_⟩
  rw [← hnil']
  exact .cons hphase hstart (.cons ⟨by simp, by simp⟩ (steps_visit hdelete)
    (.cons ⟨by simp, by simp⟩ (steps_visit hlast) .nil))

end Life

/-- `rb_insert_key_data` で節を一つ加えた木。 -/
theorem oneNode_after_insert :
    ∃ s, Life.Steps (.init blankHeap 1) (.call (.op (.insertKeyData 2 5 7)))
        ⟨s, .idle, [.new 2, .new 1]⟩ ∧ s.nil = 1 ∧ OneNode s 2 ∧ ∀ p, InTree s p → p = 2 := by
  obtain ⟨s, t, before, after, hrun, hvalid, hold, hnew, hnil⟩ :=
    rbInsertKeyData_spec (Valid.init blankHeap 1) insertKeyData_allowed_init
  obtain ⟨rfl, rfl⟩ : before = [] ∧ after = [] := by simpa using hold
  refine ⟨s, ?_, hnil, hvalid.oneNode hnew, fun p hp => ?_⟩
  · exact @Life.steps_call (.init blankHeap 1) _ s (.status 0) [] rfl (.insertKeyData hrun) (.pure [])
  · have hmem := (inTree_iff hvalid.shows p).mp hp
    simpa [hnew] using hmem

/-- 呼ぶ側の節。 -/
def callerNode : RbNode := ⟨0, 0, 0, .red, 5, 7⟩

/--
`rb_destroy` は `root` を書き換えないので、その後の破棄子は消した節をもう一度消す。

呼ぶ側の節を残したまま破棄すると、`new_rbnode` で得ていない節を消す。
-/
theorem ownership_broken :
    (∃ l l', FuelRuns Life.Permitted Life.step (.init blankHeap 1)
        [.call (.op (.insertKeyData 2 5 7)), .destroy, .visit, .visit] l ∧ l.phase = .idle ∧
      l.tree.root ≠ l.tree.nil ∧
      FuelRuns Life.Permitted Life.step l [.close, .visit, .visit] l' ∧ l'.phase = .dead ∧
      ¬ DeletedOnce l'.log) ∧
    ∃ l, FuelRuns Life.Permitted Life.step (.init blankHeap 1)
        [.call (.op (.insert 2 callerNode)), .close, .visit, .visit] l ∧ l.phase = .dead ∧
      ¬ OnlyNew l.log := by
  constructor
  · obtain ⟨s, hstep, -, hone, -⟩ := oneNode_after_insert
    obtain ⟨s', hdestroy, hone'⟩ :=
      Life.destroys_oneNode (l := ⟨s, .idle, [.new 2, .new 1]⟩) rfl hone
    obtain ⟨s'', hclose⟩ :=
      Life.closes_oneNode (l := ⟨s', .idle, [.delete 2, .new 2, .new 1]⟩) rfl hone'
    refine ⟨_, _, .cons ⟨rfl, insertKeyData_allowed_init⟩ hstep hdestroy, rfl, ?_, hclose, rfl, ?_⟩
    · rw [hone'.root]
      exact hone'.ne
    · intro honce
      simpa using honce [.delete s'.nil] 2 [] [.new 2, .new 1] rfl
  · have ha : Allowed (.init blankHeap 1) (.insert 2 callerNode) := insertKeyData_allowed_init.2
    obtain ⟨s, t, before, after, hrun, hvalid, hold, hnew, -⟩ :=
      insertNode_spec (Valid.init blankHeap 1) ha
    obtain ⟨rfl, rfl⟩ : before = [] ∧ after = [] := by simpa using hold
    have hstep : Life.Steps (.init blankHeap 1) (.call (.op (.insert 2 callerNode)))
        ⟨s, .idle, [.own 2, .new 1]⟩ :=
      @Life.steps_call (.init blankHeap 1) _ s .unit [] rfl (.insert hrun) (.pure [])
    obtain ⟨s', hclose⟩ :=
      Life.closes_oneNode (l := ⟨s, .idle, [.own 2, .new 1]⟩) rfl (hvalid.oneNode hnew)
    refine ⟨_, .cons ⟨rfl, ha⟩ hstep hclose, rfl, fun honly => ?_⟩
    have hheld := honly [.delete s.nil] 2 [.own 2, .new 1] rfl
    revert hheld
    decide

end RecordServer.Datas
