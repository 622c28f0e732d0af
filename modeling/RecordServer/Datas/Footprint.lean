import RecordServer.Datas.Operations

/-!
# 操作が読み書きする cell

木の外の cell `p` の中身を何に差し替えても、操作は同じ答えを返し、差し替えた cell のほかは同じ状態を残す。
番兵の cell だけは、黒でありさえすれば差し替えてよく、`rb_delete` が `parent` を書くことがある。

* `poke` — 一つの cell の中身を差し替える
* `Call` / `call` — 操作と問い合わせ、その答え
* `call_poke` — 木の外の cell は、読まれも書かれもしない
* `BehavesLikeNew` — これからの呼び出しの答えが、作ったばかりの木と同じである
-/

namespace RecordServer.Datas

open Infra

/-- cell `p` の中身を `n` にする。 -/
def PureRbtree.poke (s : PureRbtree) (p : Ptr) (n : RbNode) : PureRbtree := s.modify p fun _ => n

variable {s : PureRbtree} {t : RBTree Entry} {p : Ptr} {n : RbNode}

@[simp] theorem poke_heap (q : Ptr) : (s.poke p n).heap q = if q = p then n else s.heap q := by
  simp [PureRbtree.poke]

@[simp] theorem poke_nil : (s.poke p n).nil = s.nil := rfl

@[simp] theorem poke_root : (s.poke p n).root = s.root := rfl

theorem poke_heap_of_ne {q : Ptr} (h : q ≠ p) : (s.poke p n).heap q = s.heap q := by simp [h]

theorem PureRbtree.eq_of_heap {s s' : PureRbtree} (hheap : ∀ q, s.heap q = s'.heap q)
    (hnil : s.nil = s'.nil) (hroot : s.root = s'.root) : s = s' := by
  cases s
  cases s'
  simp only [PureRbtree.mk.injEq]
  exact ⟨funext hheap, hnil, hroot⟩

/-- 番兵を差し替えるときは、黒にする。 -/
def Harmless (s : PureRbtree) (p : Ptr) (n : RbNode) : Prop := p = s.nil → n.colour = .black

theorem Valid.poke (h : Valid s t) (hp : p ∉ ptrs t.toList) (hn : Harmless s p n) :
    Valid (s.poke p n) t where
  shows :=
    { root := h.shows.root
      rep := h.shows.rep.congr rfl fun q hm => poke_heap_of_ne (ne_of_mem_of_not_mem hm hp)
      nodup := h.shows.nodup }
  balanced := h.balanced
  sorted := h.sorted
  nil := by
    unfold PureRbtree.colour
    rw [poke_nil, poke_heap]
    split
    · next heq => exact hn heq.symm
    · exact h.nil

theorem inTree_poke (h : Valid s t) (hp : p ∉ ptrs t.toList) (hn : Harmless s p n) (q : Ptr) :
    InTree (s.poke p n) q ↔ InTree s q := by
  rw [inTree_iff (h.poke hp hn).shows, inTree_iff h.shows]

/-! ## 差し替えた後の結果 -/

/-- 同じ木を表す二つの状態は、木の節の cell が一致する。 -/
theorem Shows.cell_eq {s' : PureRbtree} (h : Shows s t) (h' : Shows s' t) (hnil : s'.nil = s.nil)
    {q : Ptr} (hq : q ∈ ptrs t.toList) : s'.heap q = s.heap q := by
  obtain ⟨e, he, rfl⟩ := List.mem_map.mp hq
  obtain ⟨path, c, l, r, rfl⟩ := exists_fill_of_mem he
  have hn : Shows s (fill path (.mk .left c l e r)) := h
  have hn' : Shows s' (fill path (.mk .left c l e r)) := h'
  rw [hn.cell, hn'.cell, hnil]

/-- 差し替えた cell の、操作の後の中身。 -/
def pokeAfter (s : PureRbtree) (mark : RbNode → RbNode) (p : Ptr) (n : RbNode) : RbNode :=
  if p = s.nil then mark n else n

/-- 差し替える前後で同じ木が残るなら、残る状態は差し替えた cell しか違わない。 -/
theorem Leaves.poke {s' r' : PureRbtree} {mark : RbNode → RbNode} (h : Leaves s t mark s')
    (h' : Leaves (s.poke p n) t mark r') (hp : p ∉ ptrs t.toList) :
    r' = s'.poke p (pokeAfter s mark p n) := by
  have hnil : r'.nil = s'.nil := h'.off.1.trans h.off.1.symm
  refine PureRbtree.eq_of_heap (fun q => ?_) hnil ?_
  · rw [poke_heap]
    by_cases hq : q ∈ ptrs t.toList
    · rw [if_neg (ne_of_mem_of_not_mem hq hp)]
      exact h.shows.cell_eq h'.shows hnil hq
    · by_cases hqn : q = s.nil
      · rw [hqn, h.cell, show r'.heap s.nil = mark ((s.poke p n).heap s.nil) from h'.cell, poke_heap,
          pokeAfter]
        by_cases hpn : p = s.nil
        · rw [if_pos hpn.symm, if_pos hpn.symm, if_pos hpn]
        · rw [if_neg (Ne.symm hpn), if_neg (Ne.symm hpn)]
      · rw [h.off.2 q hqn hq, h'.off.2 q hqn hq, poke_heap, pokeAfter]
        by_cases hqp : q = p
        · rw [if_pos hqp, if_pos hqp, if_neg (hqp ▸ hqn)]
        · rw [if_neg hqp, if_neg hqp]
  · rw [h'.shows.root, poke_root, h.shows.root, hnil]

theorem SameOff.leaves {s' : PureRbtree} (h : SameOff t s s') (hshow : Shows s' t) :
    Leaves s t id s' := ⟨hshow, h.offTree, (h.sameNil_of_shows hshow).2⟩

theorem harmless_pokeAfter {path : Path Entry} {X : RBTree Entry} (hn : Harmless s p n) :
    Harmless s p (pokeAfter s (markHole s.nil path X) p n) := by
  intro hp
  rw [pokeAfter, if_pos hp, markHole_colour]
  exact hn hp

theorem rbInsert_poke {z : Ptr} {s' : PureRbtree} (h : Valid s t) (hz : z ∉ ptrs t.toList)
    (hnil : z ≠ s.nil) (hp : p ∉ ptrs t.toList) (hpz : p ≠ z) (hn : Harmless s p n)
    (hrun : Converges (fun fuel => s.rbInsert fuel z) s') :
    Converges (fun fuel => (s.poke p n).rbInsert fuel z) (s'.poke p n) := by
  obtain ⟨t', before, after, hold, hnew, huniform⟩ := rbInsert_uniform h hz hnil
  have hentry : (s.poke p n).entry z = s.entry z := by
    simp only [PureRbtree.entry, PureRbtree.key, PureRbtree.data, poke_heap_of_ne (Ne.symm hpz)]
  obtain ⟨s₁, hrun₁, hvalid₁, hsame₁⟩ := huniform s h rfl rfl
  obtain ⟨r₁, hrun₂, hvalid₂, hsame₂⟩ := huniform _ (h.poke hp hn) rfl hentry
  obtain rfl := hrun.unique hrun₁
  have hp' : p ∉ ptrs t'.toList := by
    rw [hold, ptrs_append, List.mem_append, not_or] at hp
    rw [hnew, ptrs_append, ptrs_cons, List.mem_append, List.mem_cons, not_or, not_or]
    exact ⟨hp.1, hpz, hp.2⟩
  rw [(hsame₁.leaves hvalid₁.shows).poke (hsame₂.leaves hvalid₂.shows) hp'] at hrun₂
  simpa [pokeAfter] using hrun₂

theorem rbDelete_poke {z : Entry} {s' : PureRbtree} (h : Valid s t) (hz : z ∈ t.toList)
    (hp : p ∉ ptrs t.toList) (hn : Harmless s p n)
    (hrun : Converges (fun fuel => s.rbDelete fuel z.ptr) s') :
    ∃ n', (p ≠ s.nil → n' = n) ∧ Harmless s p n' ∧
      Converges (fun fuel => (s.poke p n).rbDelete fuel z.ptr) (s'.poke p n') := by
  obtain ⟨t', before, after, path, X, hold, hnew, huniform⟩ := rbDelete_uniform h hz
  obtain ⟨s₁, hrun₁, -, hleaves₁⟩ := huniform s h
  obtain ⟨r₁, hrun₂, -, hleaves₂⟩ := huniform _ (h.poke hp hn)
  obtain rfl := hrun.unique hrun₁
  have hp' : p ∉ ptrs t'.toList := by
    rw [hold, ptrs_append, ptrs_cons, List.mem_append, List.mem_cons, not_or, not_or] at hp
    rw [hnew, ptrs_append, List.mem_append, not_or]
    exact ⟨hp.1, hp.2.2⟩
  rw [hleaves₁.poke hleaves₂ hp'] at hrun₂
  exact ⟨_, fun hpn => if_neg hpn, harmless_pokeAfter hn, hrun₂⟩

/-! ## 呼び出しとその答え -/

/-- 木への呼び出し。 -/
inductive Call where
  | op (op : Op)
  | searchKey (k : Key)
  | minimumNode
  | minimumKey

/-- 呼び出しの戻り値と、書き込まれたなら `*out_data`。 -/
inductive Answer where
  | unit
  | status (code : Int)
  | deleted (code : Int) (data : Option Ptr)
  | pointer (p : Ptr)
  | minimum (k : Key) (data : Option Ptr)
deriving DecidableEq, Repr

def call (fuel : Nat) (s : PureRbtree) : Call → Option (PureRbtree × Answer)
  | .op (.insertKeyData z k d) =>
    (s.rbInsertKeyData fuel z k d).map fun r => (r.1, .status r.2)
  | .op (.insert z n) => (exec fuel s (.insert z n)).map fun s' => (s', .unit)
  | .op (.delete z) => (exec fuel s (.delete z)).map fun s' => (s', .unit)
  | .op (.deleteKey k) => (s.rbDeleteKey fuel k).map fun r => (r.1, .deleted r.2.1 r.2.2)
  | .searchKey k => (s.rbSearchKey fuel k).map fun d => (s, .pointer d)
  | .minimumNode => (s.treeMinimumNode fuel).map fun p => (s, .pointer p)
  | .minimumKey => (s.treeMinimumKey fuel).map fun m => (s, .minimum m.1 m.2)

/-- 呼び出しが `s'` で終わり、`a` を答える。 -/
def Calls (s : PureRbtree) (c : Call) (s' : PureRbtree) (a : Answer) : Prop :=
  Converges (fun fuel => call fuel s c) (s', a)

section Calls

variable {s' : PureRbtree} {z d : Ptr} {k : Key} {m : RbNode} {code : Int} {out : Option Ptr}

theorem Calls.insertKeyData
    (hrun : Converges (fun fuel => s.rbInsertKeyData fuel z k d) (s', code)) :
    Calls s (.op (.insertKeyData z k d)) s' (.status code) :=
  hrun.map fun r : PureRbtree × Int => (r.1, Answer.status r.2)

theorem Calls.insert (hrun : Exec s (.insert z m) s') : Calls s (.op (.insert z m)) s' .unit :=
  hrun.map fun s => (s, Answer.unit)

theorem Calls.delete (hrun : Exec s (.delete z) s') : Calls s (.op (.delete z)) s' .unit :=
  hrun.map fun s => (s, Answer.unit)

theorem Calls.deleteKey (hrun : Converges (fun fuel => s.rbDeleteKey fuel k) (s', code, out)) :
    Calls s (.op (.deleteKey k)) s' (.deleted code out) :=
  hrun.map fun r : PureRbtree × Int × Option Ptr => (r.1, Answer.deleted r.2.1 r.2.2)

/-- 終わる操作の呼び出しは、何かを答える。 -/
theorem Exec.calls {op : Op} (h : Exec s op s') : ∃ a, Calls s (.op op) s' a := by
  cases op with
  | insertKeyData z k d =>
    obtain ⟨r, hrun, rfl⟩ := (rbInsertKeyData_steady s z k d).converges_of_map h
    exact ⟨_, .insertKeyData hrun⟩
  | insert z n => exact ⟨_, .insert h⟩
  | delete z => exact ⟨_, .delete h⟩
  | deleteKey k =>
    obtain ⟨r, hrun, rfl⟩ := (rbDeleteKey_steady s k).converges_of_map h
    exact ⟨_, .deleteKey hrun⟩

end Calls

/-- 呼ぶ側が守ること。問い合わせはいつでもよい。 -/
def Call.Allowed (s : PureRbtree) : Call → Prop
  | .op o => Datas.Allowed s o
  | _ => True

/-- 呼び出しが木に加える節。 -/
def Call.node : Call → Option Ptr
  | .op (.insertKeyData z _ _) => some z
  | .op (.insert z _) => some z
  | _ => none

/-! ## 差し替えは答えを変えない -/

/-- 差し替えた状態でも呼び出しは同じ答えで終わり、残る状態は差し替えた cell しか違わない。 -/
def SamePoked (s : PureRbtree) (c : Call) (s' : PureRbtree) (a : Answer) (p : Ptr) (n : RbNode) :
    Prop :=
  ∃ n', (p ≠ s.nil → n' = n) ∧ Harmless s p n' ∧ Calls (s.poke p n) c (s'.poke p n') a

theorem poke_modify {z : Ptr} {f : RbNode → RbNode} (h : p ≠ z) :
    (s.poke p n).modify z f = (s.modify z f).poke p n := by
  refine PureRbtree.eq_of_heap (fun q => ?_) rfl rfl
  simp only [PureRbtree.modify_heap, poke_heap]
  by_cases hq : q = z
  · rw [if_pos hq, if_neg (hq ▸ Ne.symm h), if_neg (hq ▸ Ne.symm h), if_pos hq]
  · rw [if_neg hq, if_neg hq]

section Same

variable (h : Valid s t) (hp : p ∉ ptrs t.toList) (hn : Harmless s p n)

include h hp hn

theorem insertKeyData_samePoked {z : Ptr} {k : Key} {d : Ptr}
    (ha : Allowed s (.insertKeyData z k d)) (hpz : p ≠ z) :
    ∃ s' a, Calls s (.op (.insertKeyData z k d)) s' a ∧
      SamePoked s (.op (.insertKeyData z k d)) s' a p n := by
  obtain ⟨hnull, hnil, hnot⟩ := ha
  have hz : z ∉ ptrs t.toList := mt (inTree_iff h.shows z).mpr hnot
  have h₁ := h.modify (fun n => { n with key := k, data := d }) hz hnil
  obtain ⟨s', -, -, -, hrun, -⟩ := rbInsert_spec h₁ hz hnil
  have hrun' := rbInsert_poke h₁ hz hnil hp hpz hn hrun
  rw [← poke_modify hpz] at hrun'
  have hcall : ∀ r r' : PureRbtree, Converges (fun fuel =>
      (r.modify z fun n => { n with key := k, data := d }).rbInsert fuel z) r' →
      Calls r (.op (.insertKeyData z k d)) r' (.status 0) := by
    intro r r' hr
    refine .insertKeyData ((hr.map fun s => (s, (0 : Int))).congr fun fuel => ?_)
    rw [PureRbtree.rbInsertKeyData, if_neg hnull]
  exact ⟨s', .status 0, hcall s s' hrun, n, fun _ => rfl, hn, hcall _ _ hrun'⟩

theorem insert_samePoked {z : Ptr} {m : RbNode} (ha : Allowed s (.insert z m)) (hpz : p ≠ z) :
    ∃ s' a, Calls s (.op (.insert z m)) s' a ∧ SamePoked s (.op (.insert z m)) s' a p n := by
  obtain ⟨hnil, hnot⟩ := ha
  have hz : z ∉ ptrs t.toList := mt (inTree_iff h.shows z).mpr hnot
  have h₁ := h.modify (fun _ => m) hz hnil
  obtain ⟨s', -, -, -, hrun, -⟩ := rbInsert_spec h₁ hz hnil
  have hrun' := rbInsert_poke h₁ hz hnil hp hpz hn hrun
  rw [← poke_modify hpz] at hrun'
  exact ⟨s', .unit, .insert hrun, n, fun _ => rfl, hn, .insert hrun'⟩

theorem delete_samePoked {z : Ptr} (ha : Allowed s (.delete z)) :
    ∃ s' a, Calls s (.op (.delete z)) s' a ∧ SamePoked s (.op (.delete z)) s' a p n := by
  obtain ⟨e, he, rfl⟩ := List.mem_map.mp ((inTree_iff h.shows z).mp ha)
  obtain ⟨s', -, -, -, hrun, -⟩ := rbDelete_spec h he
  obtain ⟨n', hsame, hn', hrun'⟩ := rbDelete_poke h he hp hn hrun
  exact ⟨s', .unit, .delete hrun, n', hsame, hn', .delete hrun'⟩

theorem deleteKey_samePoked (k : Key) :
    ∃ s' a, Calls s (.op (.deleteKey k)) s' a ∧ SamePoked s (.op (.deleteKey k)) s' a p n := by
  obtain ⟨z, hfound, hsearch⟩ := rbSearch_uniform h k
  have hs := hsearch s h rfl
  have hs' := hsearch _ (h.poke hp hn) rfl
  rcases hfound with ⟨e, he, -, rfl⟩ | ⟨rfl, -⟩
  · obtain ⟨hne, -, hdata⟩ := h.cell he
    obtain ⟨-, -, hdata'⟩ := (h.poke hp hn).cell he
    obtain ⟨s', -, -, -, hrun, -⟩ := rbDelete_spec h he
    obtain ⟨n', hsame, hn', hrun'⟩ := rbDelete_poke h he hp hn hrun
    refine ⟨s', .deleted 0 (some e.data), .deleteKey (rbDeleteKey_search hs ?_), n', hsame, hn',
      .deleteKey (rbDeleteKey_search hs' ?_)⟩
    · simp only [ne_eq, hne, not_false_eq_true, if_true, hdata]
      exact hrun.map fun s' => (s', (0 : Int), some e.data)
    · simp only [ne_eq, poke_nil, hne, not_false_eq_true, if_true, hdata']
      exact hrun'.map fun s' => (s', (0 : Int), some e.data)
  · exact ⟨s, _, .deleteKey (rbDeleteKey_nil hs), n, fun _ => rfl, hn,
      .deleteKey (rbDeleteKey_nil hs')⟩

end Same

/-- `rb_search_key` の答えは、木と `key` だけで決まる。 -/
theorem searchKey_uniform (h : Valid s t) (k : Key) :
    ∃ a, ∀ r, Valid r t → r.nil = s.nil → Calls r (.searchKey k) r a := by
  obtain ⟨z, hfound, hsearch⟩ := rbSearch_uniform h k
  have hcall : ∀ r, Valid r t → r.nil = s.nil →
      Calls r (.searchKey k) r (.pointer (if z ≠ r.nil then r.data z else 0)) := fun r hr hnil =>
    ((hsearch r hr hnil).map fun z => if z ≠ r.nil then r.data z else 0).map fun d =>
      (r, Answer.pointer d)
  rcases hfound with ⟨e, he, -, rfl⟩ | ⟨rfl, -⟩
  · refine ⟨.pointer e.data, fun r hr hnil => ?_⟩
    obtain ⟨hne, -, hdata⟩ := hr.cell he
    have hr' := hcall r hr hnil
    rw [if_pos hne, hdata] at hr'
    exact hr'
  · refine ⟨.pointer 0, fun r hr hnil => ?_⟩
    have hr' := hcall r hr hnil
    rw [if_neg (not_not_intro hnil.symm)] at hr'
    exact hr'

/-- `tree_minimum_node` の答えは、木だけで決まる。 -/
theorem minimumNode_uniform (h : Valid s t) :
    ∃ a, ∀ r, Valid r t → r.nil = s.nil → Calls r .minimumNode r a := by
  by_cases ht : t = .leaf
  · subst ht
    refine ⟨.pointer s.nil, fun r hr hnil => ?_⟩
    have hroot : r.root = r.nil := hr.shows.root
    refine (Converges.pure (r, Answer.pointer s.nil)).congr fun fuel => ?_
    rw [call, PureRbtree.treeMinimumNode, if_pos hroot, hnil]
    rfl
  · obtain ⟨e, -, -, hrun⟩ := minimum_uniform h ht
    refine ⟨.pointer e.ptr, fun r hr _ => ?_⟩
    obtain ⟨hroot, hmin⟩ := hrun r hr
    refine (hmin.map fun p => (r, Answer.pointer p)).congr fun fuel => ?_
    rw [call, PureRbtree.treeMinimumNode, if_neg hroot]

/-- `tree_minimum_key` の答えは、木だけで決まる。 -/
theorem minimumKey_uniform (h : Valid s t) :
    ∃ a, ∀ r, Valid r t → Calls r .minimumKey r a := by
  by_cases ht : t = .leaf
  · subst ht
    refine ⟨.minimum 0 none, fun r hr => ?_⟩
    have hroot : r.root = r.nil := hr.shows.root
    refine (Converges.pure (r, Answer.minimum 0 none)).congr fun fuel => ?_
    rw [call, PureRbtree.treeMinimumKey, if_pos hroot]
    rfl
  · obtain ⟨e, he, -, hrun⟩ := minimum_uniform h ht
    refine ⟨.minimum e.key (some e.data), fun r hr => ?_⟩
    obtain ⟨hroot, hmin⟩ := hrun r hr
    obtain ⟨-, hkey, hdata⟩ := hr.cell he
    rw [← hkey, ← hdata]
    refine (hmin.map fun p => (r, Answer.minimum (r.key p) (some (r.data p)))).congr fun fuel => ?_
    rw [call, PureRbtree.treeMinimumKey, if_neg hroot, Option.map_map]
    rfl

/-- 問い合わせの答えは、木だけで決まる。 -/
theorem ask_uniform (h : Valid s t) {c : Call} (hc : ∀ o, c ≠ .op o) :
    ∃ a, ∀ r, Valid r t → r.nil = s.nil → Calls r c r a := by
  cases c with
  | op o => exact absurd rfl (hc o)
  | searchKey k => exact searchKey_uniform h k
  | minimumNode => exact minimumNode_uniform h
  | minimumKey =>
    obtain ⟨a, ha⟩ := minimumKey_uniform h
    exact ⟨a, fun r hr _ => ha r hr⟩

/--
**木の外の cell は、読まれも書かれもしない。**

`p` の中身を何に差し替えても、許された呼び出しは同じ答えで終わり、残る状態も `p` のほかは同じである。
-/
theorem call_poke (h : Valid s t) (hp : p ∉ ptrs t.toList) (hn : Harmless s p n) {c : Call}
    (ha : c.Allowed s) (hnode : c.node ≠ some p) :
    ∃ s' a, Calls s c s' a ∧ SamePoked s c s' a p n := by
  by_cases hc : ∀ o, c ≠ .op o
  · obtain ⟨a, hask⟩ := ask_uniform h hc
    exact ⟨s, a, hask s h rfl, n, fun _ => rfl, hn, hask _ (h.poke hp hn) rfl⟩
  · simp only [ne_eq, not_forall, not_not] at hc
    obtain ⟨o, rfl⟩ := hc
    cases o with
    | insertKeyData z k d =>
      exact insertKeyData_samePoked h hp hn ha fun hpz => hnode (congrArg some hpz.symm)
    | insert z m => exact insert_samePoked h hp hn ha fun hpz => hnode (congrArg some hpz.symm)
    | delete z => exact delete_samePoked h hp hn ha
    | deleteKey k => exact deleteKey_samePoked h hp hn k

/-! ## 呼び出しの列 -/

/-- `rb_delete_key` が消す節。 -/
def Call.Deletes (s : PureRbtree) (c : Call) (z : Ptr) : Prop :=
  ∃ k, c = .op (.deleteKey k) ∧ Converges (fun fuel => s.rbSearch fuel k) z

/--
許された呼び出しは必ず終わり、赤黒木を赤黒木に移す。

増える節は呼び出しが加えるものだけで、`rb_delete_key` が消した節は残らない。
-/
theorem Valid.calls (h : Valid s t) {c : Call} (ha : c.Allowed s) :
    ∃ s' a t', Calls s c s' a ∧ Valid s' t' ∧ s'.nil = s.nil ∧
      ∀ q ∈ ptrs t'.toList, (q ∈ ptrs t.toList ∨ c.node = some q) ∧ ¬ c.Deletes s q := by
  have hkeep : (∀ k, c ≠ .op (.deleteKey k)) → ∀ q, ¬ c.Deletes s q := by
    rintro hne q ⟨k, rfl, -⟩
    exact hne k rfl
  by_cases hc : ∀ o, c ≠ .op o
  · obtain ⟨a, hask⟩ := ask_uniform h hc
    exact ⟨s, a, t, hask s h rfl, h, rfl, fun q hq => ⟨.inl hq, hkeep (fun k => hc _) q⟩⟩
  · simp only [ne_eq, not_forall, not_not] at hc
    obtain ⟨o, rfl⟩ := hc
    cases o with
    | insertKeyData z k d =>
      obtain ⟨s', t', before, after, hrun, hvalid, hold, hnew, hnil⟩ := rbInsertKeyData_spec h ha
      refine ⟨s', _, t', .insertKeyData hrun, hvalid, hnil, fun q hq => ⟨?_, hkeep (by simp) q⟩⟩
      simp only [hnew, ptrs_append, ptrs_cons, List.mem_append, List.mem_cons] at hq
      simp only [hold, ptrs_append, List.mem_append, Call.node, Option.some.injEq]
      tauto
    | insert z m =>
      obtain ⟨s', t', before, after, hrun, hvalid, hold, hnew, hnil⟩ := insertNode_spec h ha
      refine ⟨s', _, t', .insert hrun, hvalid, hnil, fun q hq => ⟨?_, hkeep (by simp) q⟩⟩
      simp only [hnew, ptrs_append, ptrs_cons, List.mem_append, List.mem_cons] at hq
      simp only [hold, ptrs_append, List.mem_append, Call.node, Option.some.injEq]
      tauto
    | delete z =>
      obtain ⟨e, he, rfl⟩ := List.mem_map.mp ((inTree_iff h.shows z).mp ha)
      obtain ⟨s', t', before, after, hrun, hvalid, hold, hnew, hoff⟩ := rbDelete_spec h he
      refine ⟨s', _, t', .delete hrun, hvalid, hoff.1, fun q hq => ⟨.inl ?_, hkeep (by simp) q⟩⟩
      simp only [hnew, ptrs_append, List.mem_append] at hq
      simp only [hold, ptrs_append, ptrs_cons, List.mem_append, List.mem_cons]
      tauto
    | deleteKey k =>
      obtain ⟨z, hfound, hsearch⟩ := rbSearch_spec h k
      have hdeletes : ∀ q, Call.Deletes s (.op (.deleteKey k)) q → q = z := by
        rintro q ⟨k', hk', hq⟩
        simp only [Call.op.injEq, Op.deleteKey.injEq] at hk'
        subst hk'
        exact hq.unique hsearch
      rcases hfound with ⟨e, he, -, rfl⟩ | ⟨rfl, -⟩
      · obtain ⟨s', t', before, after, hrun, hvalid, hold, hnew, hnil⟩ :=
          rbDeleteKey_found h he hsearch
        refine ⟨s', _, t', .deleteKey hrun, hvalid, hnil, fun q hq => ⟨.inl ?_, fun hq' => ?_⟩⟩
        · simp only [hnew, ptrs_append, List.mem_append] at hq
          simp only [hold, ptrs_append, ptrs_cons, List.mem_append, List.mem_cons]
          tauto
        · have hnd := (List.nodup_cons.mp h.shows.nodup).2
          have hperm : (ptrs (before ++ e :: after)).Perm (e.ptr :: ptrs (before ++ after)) :=
            List.perm_middle.map Entry.ptr
          rw [hold, hperm.nodup_iff, List.nodup_cons, ← hnew] at hnd
          exact hnd.1 (hdeletes q hq' ▸ hq)
      · refine ⟨s, _, t, .deleteKey (rbDeleteKey_nil hsearch), h, rfl,
          fun q hq => ⟨.inl hq, fun hq' => ?_⟩⟩
        exact (List.nodup_cons.mp h.shows.nodup).1 (hdeletes q hq' ▸ hq)

/-- 許された呼び出しを順に行い、順に答えを得る。 -/
inductive CallRuns : PureRbtree → List Call → List Answer → PureRbtree → Prop
  | nil {s : PureRbtree} : CallRuns s [] [] s
  | cons {s s' s'' : PureRbtree} {c cs a as} : c.Allowed s → Calls s c s' a → CallRuns s' cs as s'' →
      CallRuns s (c :: cs) (a :: as) s''

/-- これからのどの呼び出しの列も、同じ番兵で作ったばかりの木と同じ答えを返す。 -/
def BehavesLikeNew (s : PureRbtree) : Prop :=
  ∀ cs as, (∃ s', CallRuns s cs as s') ↔ ∃ s', CallRuns (.init s.heap s.nil) cs as s'

theorem Call.Allowed.poke {c : Call} (ha : c.Allowed s) (h : Valid s t) (hp : p ∉ ptrs t.toList)
    (hn : Harmless s p n) : c.Allowed (s.poke p n) := by
  cases c with
  | op o =>
    cases o with
    | insertKeyData z k d => exact ⟨ha.1, ha.2.1, mt (inTree_poke h hp hn z).mp ha.2.2⟩
    | insert z m => exact ⟨ha.1, mt (inTree_poke h hp hn z).mp ha.2⟩
    | delete z => exact (inTree_poke h hp hn z).mpr ha
    | deleteKey k => trivial
  | searchKey k => trivial
  | minimumNode => trivial
  | minimumKey => trivial

theorem Call.Allowed.node_ne_nil {c : Call} (ha : c.Allowed s) : c.node ≠ some s.nil := by
  cases c with
  | op o =>
    cases o with
    | insertKeyData z k d => simpa [Call.node] using ha.2.1
    | insert z m => simpa [Call.node] using ha.1
    | delete z => simp [Call.node]
    | deleteKey k => simp [Call.node]
  | searchKey k => simp [Call.node]
  | minimumNode => simp [Call.node]
  | minimumKey => simp [Call.node]

/-- 番兵の cell を黒い cell に差し替えても、呼び出しの列の答えは変わらない。 -/
theorem CallRuns.poke_nil {cs : List Call} {as : List Answer} {s' : PureRbtree}
    (hrun : CallRuns s cs as s') (h : Valid s t) {n : RbNode} (hn : n.colour = .black) :
    ∃ r, CallRuns (s.poke s.nil n) cs as r := by
  induction hrun generalizing t n with
  | nil => exact ⟨_, .nil⟩
  | @cons s s₁ s₂ c cs a as ha hcall _ ih =>
    have hp : s.nil ∉ ptrs t.toList := (List.nodup_cons.mp h.shows.nodup).1
    have hn' : Harmless s s.nil n := fun _ => hn
    obtain ⟨s₁', a', hcall', n', -, hblack, hpoked⟩ := call_poke h hp hn' ha ha.node_ne_nil
    obtain ⟨rfl, rfl⟩ := Prod.mk.inj (hcall.unique hcall')
    obtain ⟨r₁, b, t₁, hcall₁, h₁, hnil, -⟩ := h.calls ha
    obtain ⟨rfl, rfl⟩ := Prod.mk.inj (hcall.unique hcall₁)
    obtain ⟨r, hr⟩ := ih h₁ (hblack rfl)
    rw [hnil] at hr
    exact ⟨r, .cons (ha.poke h hp hn') hpoked hr⟩

/-- **空の木は、番兵に何が残っていても、作ったばかりの木と同じに振る舞う。** -/
theorem Valid.behavesLikeNew (h : Valid s .leaf) : BehavesLikeNew s := by
  have hroot : s.root = s.nil := h.shows.root
  have hinit : (PureRbtree.init s.heap s.nil) = s.poke s.nil ⟨s.nil, s.nil, s.nil, .black, 0, 0⟩ := by
    refine PureRbtree.eq_of_heap (fun q => ?_) rfl hroot.symm
    rw [poke_heap]
    exact Function.update_apply ..
  have hback : s = (PureRbtree.init s.heap s.nil).poke s.nil (s.heap s.nil) := by
    refine PureRbtree.eq_of_heap (fun q => ?_) rfl hroot
    rw [hinit, poke_heap, poke_heap]
    split
    · next hq => rw [hq]
    · rfl
  intro cs as
  constructor
  · rintro ⟨s', hrun⟩
    rw [hinit]
    exact hrun.poke_nil h rfl
  · rintro ⟨s', hrun⟩
    obtain ⟨r, hr⟩ := hrun.poke_nil (Valid.init s.heap s.nil) h.nil
    refine ⟨r, ?_⟩
    rw [hback]
    exact hr

end RecordServer.Datas
