import RecordServer.Datas.TDlist

/-!
# `TDList` の link

* `Represents` — list の link がどちら向きにも節の列を辿る
* `addNodeToTail_relinked`、`removeNode_relinked` — どの link が変わるか
* `mirror` — 二つの向きを入れ換えると、先頭に足すことは末尾に足すことになる
* `Represents.addNode`、`Represents.removeNode` — 節の列に足す・外す
-/

namespace RecordServer.Datas.TDList

open Infra

variable {ν σ : Type*}

/-- 載っている節の列、作られている節の集まりと、消した節の履歴。 -/
structure Ref (ν : Type*) where
  nodes : List ν
  live : Finset ν
  deleted : List ν

/-! ## list が表す列 -/

/-- list の link が、どちら向きにも列を辿る。載っていない節の link は NULL である。 -/
structure Represents (s : TDList ν) (r : Ref ν) : Prop where
  forward : DList s.prev s.next s.mHead r.nodes
  backward : DList s.next s.prev s.mTail r.nodes.reverse
  count : s.mNumNodes = r.nodes.length % 2 ^ 32
  unlinked : ∀ x ∈ r.live, x ∉ r.nodes → s.next x = none ∧ s.prev x = none
  live : ∀ x, (s.node x).isSome ↔ x ∈ r.live
  member : ∀ x ∈ r.nodes, x ∈ r.live
  deleted : s.deleted = r.deleted

theorem represents_init : Represents (init : TDList ν) ⟨[], ∅, []⟩ where
  forward := rfl
  backward := rfl
  count := rfl
  unlinked := by simp
  live := by simp [init]
  member := by simp
  deleted := rfl

variable {s s' : TDList ν} {r : Ref ν} {x : ν}

theorem Represents.tail_eq (h : Represents s r) : s.mTail = r.nodes.getLast? := by
  rw [h.backward.head_eq, List.head?_reverse]

theorem Represents.isSome (h : Represents s r) (hx : x ∈ r.nodes) : (s.node x).isSome :=
  (h.live x).mpr (h.member x hx)

/-! ## link を書く -/

/-- link だけが変わった list。 -/
structure Relinked (s s' : TDList ν) (next prev : ν → Option ν) (head tail : Option ν)
    (num : Nat) : Prop where
  next : s'.next = next
  prev : s'.prev = prev
  mHead : s'.mHead = head
  mTail : s'.mTail = tail
  live : ∀ y, (s'.node y).isSome = (s.node y).isSome
  mNumNodes : s'.mNumNodes = num
  deleted : s'.deleted = s.deleted

theorem Relinked.trans {s₁ : TDList ν} {next next' prev prev' : ν → Option ν}
    {head head' tail tail' : Option ν} {num num' : Nat}
    (h : Relinked s s₁ next prev head tail num) (h' : Relinked s₁ s' next' prev' head' tail' num') :
    Relinked s s' next' prev' head' tail' num' :=
  ⟨h'.next, h'.prev, h'.mHead, h'.mTail, fun y => (h'.live y).trans (h.live y), h'.mNumNodes,
    h'.deleted.trans h.deleted⟩

variable [DecidableEq ν]

theorem setNext_relinked (hx : (s.node x).isSome) (v : Option ν) :
    ∃ s', s.setNext (some x) v = some s' ∧
      Relinked s s' (Function.update s.next x v) s.prev s.mHead s.mTail
        s.mNumNodes := by
  obtain ⟨n, hn⟩ := Option.isSome_iff_exists.mp hx
  refine ⟨{ s with node := Function.update s.node x (some { n with mNext := v }) },
    by simp [setNext, hn], ?_, ?_, rfl, rfl, ?_, rfl, rfl⟩
  · funext y
    by_cases hy : y = x <;> simp [TDList.next, hy]
  · funext y
    by_cases hy : y = x <;> simp [TDList.prev, hy, hn]
  · intro y
    by_cases hy : y = x <;> simp [hy, hn]

theorem setPrev_relinked (hx : (s.node x).isSome) (v : Option ν) :
    ∃ s', s.setPrev (some x) v = some s' ∧
      Relinked s s' s.next (Function.update s.prev x v) s.mHead s.mTail
        s.mNumNodes := by
  obtain ⟨n, hn⟩ := Option.isSome_iff_exists.mp hx
  refine ⟨{ s with node := Function.update s.node x (some { n with mPrev := v }) },
    by simp [setPrev, hn], ?_, ?_, rfl, rfl, ?_, rfl, rfl⟩
  · funext y
    by_cases hy : y = x <;> simp [TDList.next, hy, hn]
  · funext y
    by_cases hy : y = x <;> simp [TDList.prev, hy]
  · intro y
    by_cases hy : y = x <;> simp [hy, hn]

/-! ## 末尾に足す -/

/-- 末尾に足した後の link。もとの末尾の `m_next` と、足した節の link だけが変わる。 -/
theorem addNodeToTail_relinked (htail : ∀ t, s.mTail = some t → (s.node t).isSome)
    (hx : (s.node x).isSome) :
    ∃ s', s.addNodeToTail x = some s' ∧ Relinked s s'
        (Function.update (fun y => if s.mTail = some y then some x else s.next y) x none)
        (Function.update s.prev x s.mTail)
        (if s.mHead = none then some x else s.mHead) (some x) (u32 (s.mNumNodes + 1)) := by
  obtain ⟨s₁, hrun₁, h₁⟩ : ∃ s₁,
      (if s.mTail ≠ none then s.setNext s.mTail (some x) else some s) = some s₁ ∧
      Relinked s s₁ (fun y => if s.mTail = some y then some x else s.next y) s.prev
        s.mHead s.mTail s.mNumNodes := by
    cases ht : s.mTail with
    | none => exact ⟨s, rfl, by simp, rfl, rfl, ht, fun _ => rfl, rfl, rfl⟩
    | some t =>
      obtain ⟨s₁, hrun, h⟩ := setNext_relinked (htail t ht) (some x)
      refine ⟨s₁, by simpa using hrun, ?_, h.prev, h.mHead, h.mTail.trans ht, h.live,
        h.mNumNodes, h.deleted⟩
      rw [h.next]
      funext y
      by_cases hy : y = t
      · simp [hy]
      · simp [hy, Ne.symm hy]
  obtain ⟨s₂, hrun₂, h₂⟩ := setPrev_relinked (s := s₁) (x := x) (by rw [h₁.live]; exact hx) s₁.mTail
  obtain ⟨s₃, hrun₃, h₃⟩ := setNext_relinked (s := s₂) (x := x)
    (by rw [h₂.live, h₁.live]; exact hx) none
  have h := (h₁.trans h₂).trans h₃
  rw [h₂.next, h₂.prev, h₂.mHead, h₂.mTail, h₂.mNumNodes, h₁.next, h₁.prev, h₁.mHead, h₁.mTail,
    h₁.mNumNodes] at h
  have hrun : s.addNodeToTail x = some { s₃ with
      mHead := if s.mHead = none then some x else s.mHead
      mTail := some x
      mNumNodes := u32 (s.mNumNodes + 1) } := by
    unfold addNodeToTail
    rw [hrun₁, Option.bind_some, hrun₂, Option.bind_some, hrun₃, Option.map_some]
    by_cases hh : s.mHead = none <;> simp [h.mHead, h.mNumNodes, hh]
  exact ⟨_, hrun, h.next, h.prev, rfl, rfl, h.live, rfl, h.deleted⟩

theorem Represents.addNodeToTail (h : Represents s r) (hx : x ∈ r.live) (hnot : x ∉ r.nodes) :
    ∃ s', s.addNodeToTail x = some s' ∧ Represents s' { r with nodes := r.nodes ++ [x] } := by
  have htail : ∀ t, s.mTail = some t → (s.node t).isSome := by
    intro t ht
    rw [h.tail_eq] at ht
    exact h.isSome (List.mem_of_getLast? ht)
  obtain ⟨s', hrun, hs⟩ := addNodeToTail_relinked htail ((h.live x).mpr hx)
  refine ⟨s', hrun, ?_⟩
  have hne : ∀ y ∈ r.nodes, y ≠ x := fun y hy heq => hnot (heq ▸ hy)
  have hfwd : DList s'.prev s'.next s'.mHead (r.nodes ++ [x]) := by
    refine h.forward.snoc ?_ ?_ ?_ ?_ ?_
    · rw [hs.mHead]
      simp only [h.forward.head_eq, List.head?_eq_none_iff]
    · intro y hy
      rw [hs.prev, Function.update_of_ne (hne y hy)]
    · intro y hy
      rw [hs.next, Function.update_of_ne (hne y hy), h.tail_eq]
    · rw [hs.prev, Function.update_self, h.tail_eq]
    · rw [hs.next, Function.update_self]
  refine ⟨hfwd, ?_, ?_, ?_, ?_, ?_, ?_⟩
  · have hback := hfwd.reverse
    rwa [List.getLast?_concat, ← hs.mTail] at hback
  · rw [hs.mNumNodes]
    simp [h.count, u32]
  · intro y hy hny
    obtain ⟨hny, hyx⟩ := not_or.mp (mt List.mem_append.mpr hny)
    have hyx : y ≠ x := fun hc => hyx (by simp [hc])
    have htl : s.mTail ≠ some y := fun hc => hny (List.mem_of_getLast? (h.tail_eq ▸ hc))
    obtain ⟨hn, hp⟩ := h.unlinked y hy hny
    constructor
    · show s'.next y = none
      rw [hs.next, Function.update_of_ne hyx, if_neg htl, hn]
    · show s'.prev y = none
      rw [hs.prev, Function.update_of_ne hyx, hp]
  · intro y
    rw [hs.live, h.live]
  · intro y hy
    rcases List.mem_append.mp hy with hy | hy
    · exact h.member y hy
    · rw [List.mem_singleton.mp hy]
      exact hx
  · exact hs.deleted.trans h.deleted

/-! ## 先頭に足す -/

/-- 二つの向きを入れ換えた list。 -/
def mirror (s : TDList ν) : TDList ν :=
  { s with
    mHead := s.mTail
    mTail := s.mHead
    node := fun x => (s.node x).map fun n => ⟨n.mPrev, n.mNext⟩ }

omit [DecidableEq ν] in
theorem mirror_next (s : TDList ν) : s.mirror.next = s.prev := by
  funext x
  show ((s.node x).map _).bind _ = (s.node x).bind _
  cases s.node x <;> rfl

omit [DecidableEq ν] in
theorem mirror_prev (s : TDList ν) : s.mirror.prev = s.next := by
  funext x
  show ((s.node x).map _).bind _ = (s.node x).bind _
  cases s.node x <;> rfl

omit [DecidableEq ν] in
theorem mirror_mirror (s : TDList ν) : s.mirror.mirror = s := by
  obtain ⟨head, tail, num, node, deleted⟩ := s
  simp only [mirror, mk.injEq, true_and, and_true]
  funext x
  cases node x <;> rfl

omit [DecidableEq ν] in
theorem Represents.mirror (h : Represents s r) :
    Represents s.mirror { r with nodes := r.nodes.reverse } where
  forward := by
    rw [mirror_next, mirror_prev]
    exact h.backward
  backward := by
    rw [mirror_next, mirror_prev, List.reverse_reverse]
    exact h.forward
  count := by
    rw [List.length_reverse]
    exact h.count
  unlinked y hy hny := by
    rw [mirror_next, mirror_prev]
    exact (h.unlinked y hy fun hc => hny (List.mem_reverse.mpr hc)).symm
  live y := by
    rw [← h.live]
    simp [TDList.mirror]
  member y hy := h.member y (List.mem_reverse.mp hy)
  deleted := h.deleted

theorem mirror_setNext (s : TDList ν) (p v : Option ν) :
    s.mirror.setNext p v = (s.setPrev p v).map TDList.mirror := by
  cases p with
  | none => rfl
  | some x =>
    cases hx : s.node x with
    | none => simp [setNext, setPrev, TDList.mirror, hx]
    | some n =>
      simp only [setNext, setPrev, TDList.mirror, hx, Option.bind_some, Option.map_some,
        Option.some.injEq, mk.injEq, true_and, and_true]
      funext y
      by_cases hy : y = x <;> simp [hy]

/-- 先頭に足すことは、映して末尾に足すことである。 -/
theorem mirror_addNodeToTail (s : TDList ν) (x : ν) :
    s.mirror.addNodeToTail x = (s.addNode x).map TDList.mirror := by
  unfold addNodeToTail addNode
  have hfirst : (if s.mirror.mTail ≠ none then s.mirror.setNext s.mirror.mTail (some x)
      else some s.mirror) =
      (if s.mHead ≠ none then s.setPrev s.mHead (some x) else some s).map TDList.mirror := by
    show (if s.mHead ≠ none then s.mirror.setNext s.mHead (some x) else some s.mirror) = _
    split
    · exact mirror_setNext s s.mHead (some x)
    · rfl
  rw [hfirst]
  cases (if s.mHead ≠ none then s.setPrev s.mHead (some x) else some s) with
  | none => rfl
  | some s₁ =>
    cases hx : s₁.node x with
    | none => simp [setNext, setPrev, TDList.mirror, hx]
    | some n =>
      -- 節の二つの link を書く順は、結果を変えない
      have hnode : Function.update s₁.mirror.node x (some ⟨none, s₁.mHead⟩) =
          fun y => (Function.update s₁.node x (some ⟨s₁.mHead, none⟩) y).map
            fun n => ⟨n.mPrev, n.mNext⟩ := by
        funext y
        by_cases hy : y = x <;> simp [TDList.mirror, hy]
      simp only [TDList.mirror] at hnode
      by_cases htail : s₁.mTail = none <;>
        simp [setNext, setPrev, TDList.mirror, hx, htail, hnode]

theorem Represents.addNode (h : Represents s r) (hx : x ∈ r.live) (hnot : x ∉ r.nodes) :
    ∃ s', s.addNode x = some s' ∧ Represents s' { r with nodes := x :: r.nodes } := by
  obtain ⟨t, ht, h'⟩ := h.mirror.addNodeToTail hx (fun hc => hnot (List.mem_reverse.mp hc))
  rw [mirror_addNodeToTail] at ht
  obtain ⟨s', hrun, rfl⟩ := Option.map_eq_some_iff.mp ht
  have hs' := h'.mirror
  rw [mirror_mirror] at hs'
  refine ⟨s', hrun, ?_⟩
  simpa using hs'

/-! ## 外す -/

/-- 前の節の `m_next`（前がなければ `m_head`）を `v` に替える。 -/
theorem unlinkNext_relinked (hhead : s.mHead = some x ↔ s.prev x = none)
    (hlive : ∀ p, s.prev x = some p → (s.node p).isSome) (v : Option ν) :
    ∃ s', (if s.mHead = some x then some { s with mHead := v } else s.setNext (s.prev x) v) = some s' ∧
      Relinked s s' (fun y => if s.prev x = some y then v else s.next y) s.prev
        (if s.mHead = some x then v else s.mHead) s.mTail s.mNumNodes := by
  cases hp : s.prev x with
  | none =>
    rw [if_pos (hhead.mpr hp), if_pos (hhead.mpr hp)]
    exact ⟨_, rfl, by simp; rfl, rfl, rfl, rfl, fun _ => rfl, rfl, rfl⟩
  | some p =>
    have hne : s.mHead ≠ some x := mt hhead.mp (by simp [hp])
    obtain ⟨s', hrun, h⟩ := setNext_relinked (hlive p hp) v
    rw [if_neg hne, if_neg hne]
    refine ⟨s', hrun, ?_, h.prev, h.mHead, h.mTail, h.live, h.mNumNodes, h.deleted⟩
    rw [h.next]
    funext y
    by_cases hy : y = p
    · simp [hy]
    · simp [hy, Ne.symm hy]

/-- 次の節の `m_prev`（次がなければ `m_tail`）を `v` に替える。 -/
theorem unlinkPrev_relinked (htail : s.mTail = some x ↔ s.next x = none)
    (hlive : ∀ n, s.next x = some n → (s.node n).isSome) (v : Option ν) :
    ∃ s', (if s.mTail = some x then some { s with mTail := v } else s.setPrev (s.next x) v) = some s' ∧
      Relinked s s' s.next (fun y => if s.next x = some y then v else s.prev y) s.mHead
        (if s.mTail = some x then v else s.mTail) s.mNumNodes := by
  cases hn : s.next x with
  | none =>
    rw [if_pos (htail.mpr hn), if_pos (htail.mpr hn)]
    exact ⟨_, rfl, rfl, by simp; rfl, rfl, rfl, fun _ => rfl, rfl, rfl⟩
  | some n =>
    have hne : s.mTail ≠ some x := mt htail.mp (by simp [hn])
    obtain ⟨s', hrun, h⟩ := setPrev_relinked (hlive n hn) v
    rw [if_neg hne, if_neg hne]
    refine ⟨s', hrun, h.next, ?_, h.mHead, h.mTail, h.live, h.mNumNodes, h.deleted⟩
    rw [h.prev]
    funext y
    by_cases hy : y = n
    · simp [hy]
    · simp [hy, Ne.symm hy]

/-- 外した後の link。前後の節が繋がり、外した節の link は NULL になる。 -/
theorem removeNode_relinked (hx : (s.node x).isSome)
    (hhead : s.mHead = some x ↔ s.prev x = none) (htail : s.mTail = some x ↔ s.next x = none)
    (hprev : ∀ p, s.prev x = some p → p ≠ x ∧ (s.node p).isSome)
    (hnext : ∀ n, s.next x = some n → (s.node n).isSome) :
    ∃ s', s.removeNode x = some s' ∧ Relinked s s'
        (Function.update (fun y => if s.prev x = some y then s.next x else s.next y) x none)
        (Function.update (fun y => if s.next x = some y then s.prev x else s.prev y) x none)
        (if s.mHead = some x then s.next x else s.mHead)
        (if s.mTail = some x then s.prev x else s.mTail)
        (subU32 s.mNumNodes 1) := by
  have hlinks : ∀ {t : TDList ν} {n}, t.node x = some n → n.mNext = t.next x ∧ n.mPrev = t.prev x :=
    fun hn => by simp [TDList.next, TDList.prev, hn]
  obtain ⟨n, hn⟩ := Option.isSome_iff_exists.mp hx
  obtain ⟨s₁, hrun₁, h₁⟩ := unlinkNext_relinked hhead (fun p hp => (hprev p hp).2) (s.next x)
  -- 外す節の前に自分はいないので、自分の `m_next` はまだ変わらない
  have hnx : s₁.next x = s.next x := by
    rw [h₁.next]
    exact if_neg fun hc => (hprev x hc).1 rfl
  obtain ⟨n₁, hn₁⟩ := Option.isSome_iff_exists.mp ((h₁.live x).trans hx)
  obtain ⟨s₂, hrun₂, h₂⟩ := unlinkPrev_relinked (s := s₁) (x := x) (by rw [h₁.mTail, hnx, htail])
    (fun q hq => by rw [h₁.live]; exact hnext q (hnx ▸ hq)) (s₁.prev x)
  obtain ⟨s₃, hrun₃, h₃⟩ := setPrev_relinked (s := s₂) (x := x)
    (by rw [h₂.live, h₁.live]; exact hx) none
  obtain ⟨s₄, hrun₄, h₄⟩ := setNext_relinked (s := s₃) (x := x)
    (by rw [h₃.live, h₂.live, h₁.live]; exact hx) none
  have h := ((h₁.trans h₂).trans h₃).trans h₄
  rw [h₃.next, h₃.prev, h₃.mHead, h₃.mTail, h₃.mNumNodes, h₂.next, h₂.prev, h₂.mHead, h₂.mTail,
    h₂.mNumNodes, hnx, h₁.next, h₁.prev, h₁.mHead, h₁.mTail, h₁.mNumNodes] at h
  have hrun : s.removeNode x = some { s₄ with mNumNodes := subU32 s.mNumNodes 1 } := by
    unfold removeNode
    rw [hn, Option.bind_some, (hlinks hn).1, (hlinks hn).2, hrun₁, Option.bind_some, hn₁,
      Option.bind_some, (hlinks hn₁).1, (hlinks hn₁).2, hrun₂, Option.bind_some, hrun₃,
      Option.bind_some, hrun₄, Option.map_some, h.mNumNodes]
  exact ⟨_, hrun, h.next, h.prev, h.mHead, h.mTail, h.live, rfl, h.deleted⟩

theorem Represents.removeNode (h : Represents s r) (hx : x ∈ r.nodes) :
    ∃ s', s.removeNode x = some s' ∧ Represents s' { r with nodes := r.nodes.erase x } := by
  have hxr : x ∈ r.nodes.reverse := List.mem_reverse.mpr hx
  have hhead := h.forward.pre_eq_none_iff hx
  have htail := h.backward.pre_eq_none_iff hxr
  obtain ⟨s', hrun, hs⟩ := removeNode_relinked (h.isSome hx) hhead.symm htail.symm
    (fun p hp => by
      refine ⟨?_, h.isSome (h.forward.pre_mem hx hp)⟩
      rintro rfl
      exact h.forward.pre_ne_self hx hp)
    fun n hn => h.isSome (h.forward.next_mem hx hn)
  refine ⟨s', hrun, ?_⟩
  have hnd := h.forward.nodup
  have hfwd : DList s'.prev s'.next s'.mHead (r.nodes.erase x) := by
    refine h.forward.remove hx ?_ ?_ ?_
    · simp only [hs.mHead, hhead]
    · intro y hy hne
      rw [hs.next, Function.update_of_ne hne]
    · intro y hy hne
      rw [hs.prev, Function.update_of_ne hne]
  have hback : DList s'.next s'.prev s'.mTail (r.nodes.reverse.erase x) := by
    refine h.backward.remove hxr ?_ ?_ ?_
    · simp only [hs.mTail, htail]
    · intro y hy hne
      rw [hs.prev, Function.update_of_ne hne]
    · intro y hy hne
      rw [hs.next, Function.update_of_ne hne]
  rw [(List.nodup_reverse.mpr hnd).erase_eq_filter, List.filter_reverse, ← hnd.erase_eq_filter]
    at hback
  refine ⟨hfwd, hback, ?_, ?_, ?_, ?_, ?_⟩
  · have hlen := List.length_pos_of_mem hx
    have hcount := h.count
    have herase := List.length_erase_of_mem hx
    rw [hs.mNumNodes, subU32]
    simp only
    omega
  · intro y hy hny
    show s'.next y = none ∧ s'.prev y = none
    rw [hs.next, hs.prev]
    by_cases hyx : y = x
    · simp [hyx]
    · have hny' : y ∉ r.nodes := fun hc => hny ((List.mem_erase_of_ne hyx).mpr hc)
      obtain ⟨hn, hp⟩ := h.unlinked y hy hny'
      rw [Function.update_of_ne hyx, Function.update_of_ne hyx, if_neg, if_neg]
      · exact ⟨hn, hp⟩
      · exact fun hc => hny' (h.forward.next_mem hx hc)
      · exact fun hc => hny' (h.forward.pre_mem hx hc)
  · intro y
    rw [hs.live, h.live]
  · exact fun y hy => h.member y (List.mem_of_mem_erase hy)
  · exact hs.deleted.trans h.deleted

/-! ## 作る・消す -/

theorem Represents.create (h : Represents s r) (hx : x ∉ r.live) :
    ∃ s', s.create x = some s' ∧ Represents s' { r with live := insert x r.live } := by
  have hnone : s.node x = none := by
    rw [← Option.not_isSome_iff_eq_none, h.live]
    exact hx
  have hne : ∀ y ∈ r.nodes, y ≠ x := fun y hy heq => hx (heq ▸ h.member y hy)
  refine ⟨{ s with node := Function.update s.node x (some ⟨none, none⟩) },
    by simp [TDList.create, hnone], ?_, ?_, h.count, ?_, ?_, ?_, h.deleted⟩
  · refine h.forward.congr ?_ ?_ <;> intro y hy
    · simp [TDList.prev, hne y hy]
    · simp [TDList.next, hne y hy]
  · refine h.backward.congr ?_ ?_ <;> intro y hy
    · simp [TDList.next, hne y (List.mem_reverse.mp hy)]
    · simp [TDList.prev, hne y (List.mem_reverse.mp hy)]
  · intro y hy hny
    by_cases hyx : y = x
    · simp [TDList.next, TDList.prev, hyx]
    · have hn := h.unlinked y ((Finset.mem_insert.mp hy).resolve_left hyx) hny
      simpa [TDList.next, TDList.prev, hyx] using hn
  · intro y
    by_cases hyx : y = x
    · simp [hyx]
    · simp [hyx, h.live]
  · exact fun y hy => Finset.mem_insert_of_mem (h.member y hy)

theorem Represents.delete (h : Represents s r) (hx : x ∈ r.live) (hnot : x ∉ r.nodes) :
    ∃ s', s.delete x = some s' ∧
      Represents s' { r with live := r.live.erase x, deleted := r.deleted ++ [x] } := by
  obtain ⟨n, hn⟩ := Option.isSome_iff_exists.mp ((h.live x).mpr hx)
  have hne : ∀ y ∈ r.nodes, y ≠ x := fun y hy heq => hnot (heq ▸ hy)
  refine ⟨{ s with node := Function.update s.node x none, deleted := s.deleted ++ [x] },
    by simp [TDList.delete, hn], ?_, ?_, h.count, ?_, ?_, ?_, by simp [h.deleted]⟩
  · refine h.forward.congr ?_ ?_ <;> intro y hy
    · simp [TDList.prev, hne y hy]
    · simp [TDList.next, hne y hy]
  · refine h.backward.congr ?_ ?_ <;> intro y hy
    · simp [TDList.next, hne y (List.mem_reverse.mp hy)]
    · simp [TDList.prev, hne y (List.mem_reverse.mp hy)]
  · intro y hy hny
    have hn := h.unlinked y (Finset.mem_of_mem_erase hy) hny
    simpa [TDList.next, TDList.prev, (Finset.mem_erase.mp hy).1] using hn
  · intro y
    by_cases hyx : y = x
    · simp [hyx]
    · simp [hyx, h.live]
  · exact fun y hy => Finset.mem_erase.mpr ⟨hne y hy, h.member y hy⟩

end RecordServer.Datas.TDList
