import RecordServer.MemPool.PureSlab
import Mathlib.Algebra.Order.Group.Nat
import Mathlib.Tactic.Ring

/-!
# 一つの pool の二つの list

* `PoolOk` — 空きの list と使用中の list が、pool の block をちょうど一度ずつ持つ
* `PoolOk.take` / `PoolOk.free` — 一つの block が二つの list の間を移る
* `initMemblock_spec` — 作りたての pool では、全部の block が空きである
-/

namespace RecordServer.MemPool

open Infra

namespace Slab

variable (s : Slab) (p q b x : Nat) (o : Option Nat) (f : Mempool → Mempool)
  (g : Memblock → Memblock)

@[simp] theorem modifyPool_pool :
    (s.modifyPool p f).pool q = if q = p then f (s.pool q) else s.pool q := by
  unfold modifyPool
  by_cases h : q = p
  · subst h
    simp
  · simp [h]

@[simp] theorem modifyPool_block : (s.modifyPool p f).block = s.block := rfl

@[simp] theorem modifyBlock_pool : (s.modifyBlock b g).pool = s.pool := rfl

@[simp] theorem modifyBlock_block :
    (s.modifyBlock b g).block x = if x = b then g (s.block x) else s.block x := by
  unfold modifyBlock
  by_cases h : x = b
  · subst h
    simp
  · simp [h]

@[simp] theorem modifyBlockOpt_pool : (s.modifyBlockOpt o g).pool = s.pool := by cases o <;> rfl

@[simp] theorem modifyBlockOpt_block :
    (s.modifyBlockOpt o g).block x = if o = some x then g (s.block x) else s.block x := by
  cases o with
  | none => simp [modifyBlockOpt]
  | some b => simp [modifyBlockOpt, eq_comm]

/-- memory の中身と `m_alloced_num` のほかの field は変わらない。 -/
def SameFields (s s' : Slab) : Prop :=
  s'.mpMpool = s.mpMpool ∧ s'.maxNum = s.maxNum ∧ s'.mbsize = s.mbsize ∧
    s'.poolsize = s.poolsize ∧ s'.alignedsize = s.alignedsize

variable {s} in
theorem SameFields.trans {s' s'' : Slab} (h : SameFields s s') (h' : SameFields s' s'') :
    SameFields s s'' := by
  unfold SameFields at *
  simp_all

@[simp] theorem modifyBlockOpt_allocedNum :
    (s.modifyBlockOpt o g).allocedNum = s.allocedNum := by cases o <;> rfl

@[simp] theorem modifyBlockOpt_mpMpool :
    (s.modifyBlockOpt o g).mpMpool = s.mpMpool := by cases o <;> rfl

@[simp] theorem modifyBlockOpt_maxNum : (s.modifyBlockOpt o g).maxNum = s.maxNum := by
  cases o <;> rfl

@[simp] theorem modifyBlockOpt_mbsize : (s.modifyBlockOpt o g).mbsize = s.mbsize := by
  cases o <;> rfl

@[simp] theorem modifyBlockOpt_poolsize : (s.modifyBlockOpt o g).poolsize = s.poolsize := by
  cases o <;> rfl

@[simp] theorem modifyBlockOpt_alignedsize :
    (s.modifyBlockOpt o g).alignedsize = s.alignedsize := by cases o <;> rfl

end Slab

/-- pool `p` の block の番地。 -/
def poolBlocks (s : Slab) (p : Nat) : List Nat :=
  (List.range (((s.pool p).length - sizeofMempool) / s.mbsize)).map fun i =>
    p + sizeofMempool + i * s.mbsize

/-- block の前後の pointer で繋がった list。 -/
def BlockList (s : Slab) : Option Nat → List Nat → Prop :=
  DList (fun b => (s.block b).pre) (fun b => (s.block b).next)

/-- pool `p` の block は、空きの list か使用中の list のどちらかに一度だけ現れる。 -/
structure PoolOk (s : Slab) (p : Nat) (free used : List Nat) : Prop where
  freeList : BlockList s (s.pool p).freehead free
  usedList : BlockList s (s.pool p).usedhead used
  all : (free ++ used).Perm (poolBlocks s p)
  /-- 使用中の block の `mp` は、自分の pool を指す。 -/
  owner : ∀ b ∈ used, (s.block b).mp = some p

variable {s s' : Slab} {p b : Nat} {free used : List Nat}

/-- pool の次と、pool の外の block は、二つの list に関わらない。 -/
theorem PoolOk.congr (h : PoolOk s p free used)
    (hpool : ∃ n, s'.pool p = { s.pool p with next := n }) (hsize : s'.mbsize = s.mbsize)
    (hblock : ∀ x ∈ poolBlocks s p, s'.block x = s.block x) : PoolOk s' p free used := by
  obtain ⟨n, hpool⟩ := hpool
  have hfree : ∀ x ∈ free, s'.block x = s.block x := fun x hx =>
    hblock x (h.all.mem_iff.mp (List.mem_append_left _ hx))
  have hused : ∀ x ∈ used, s'.block x = s.block x := fun x hx =>
    hblock x (h.all.mem_iff.mp (List.mem_append_right _ hx))
  constructor
  · rw [hpool]
    exact h.freeList.congr (fun x hx => by rw [hfree x hx]) (fun x hx => by rw [hfree x hx])
  · rw [hpool]
    exact h.usedList.congr (fun x hx => by rw [hused x hx]) (fun x hx => by rw [hused x hx])
  · unfold poolBlocks
    rw [hpool, hsize]
    exact h.all
  · intro x hx
    rw [hused x hx]
    exact h.owner x hx

theorem mem_poolBlocks {x : Nat} (hx : x ∈ poolBlocks s p) (hsize : 0 < s.mbsize) :
    p + sizeofMempool ≤ x ∧ x + s.mbsize ≤ p + (s.pool p).length := by
  simp only [poolBlocks, List.mem_map, List.mem_range] at hx
  obtain ⟨i, hlt, rfl⟩ := hx
  have hmul : (i + 1) * s.mbsize ≤ (s.pool p).length - sizeofMempool :=
    (Nat.le_div_iff_mul_le hsize).mp hlt
  rw [Nat.add_mul] at hmul
  omega

theorem poolBlocks_nodup (hsize : 0 < s.mbsize) : (poolBlocks s p).Nodup := by
  refine List.Nodup.map (fun i j hij => ?_) List.nodup_range
  have := Nat.add_left_cancel hij
  exact Nat.eq_of_mul_eq_mul_right hsize this

theorem PoolOk.nodup (h : PoolOk s p free used) (hsize : 0 < s.mbsize) :
    (free ++ used).Nodup := h.all.nodup_iff.mpr (poolBlocks_nodup hsize)

/-! ## 空きから使用中へ -/

section Take

variable {fs : List Nat}

theorem takeBlock_pool (q : Nat) : (s.takeBlock p b).pool q =
    if q = p then { s.pool p with freehead := (s.block b).next, usedhead := some b }
    else s.pool q := by
  by_cases h : q = p
  · subst h
    simp [Slab.takeBlock]
  · simp [Slab.takeBlock, h]

theorem takeBlock_sameFields : s.SameFields (s.takeBlock p b) := by
  simp [Slab.SameFields, Slab.takeBlock, Slab.modifyPool, Slab.modifyBlock]

theorem takeBlock_allocedNum :
    (s.takeBlock p b).allocedNum = Int.bmod (s.allocedNum + 1) (2 ^ 32) := by
  simp [Slab.takeBlock, Slab.modifyPool, Slab.modifyBlock]

theorem takeBlock_block (hu : (s.pool p).usedhead ≠ some b) (hb : (s.block b).next ≠ some b)
    (x : Nat) : (s.takeBlock p b).block x =
      if x = b then ⟨none, (s.pool p).usedhead, some p⟩
      else if (s.pool p).usedhead = some x then { s.block x with pre := some b }
      else if (s.block b).next = some x then { s.block x with pre := none }
      else s.block x := by
  by_cases hx : x = b
  · subst hx
    simp [Slab.takeBlock, hu, hb]
  by_cases h₁ : (s.pool p).usedhead = some x
  · by_cases h₂ : (s.block b).next = some x
    · simp [Slab.takeBlock, hx, h₁, h₂]
    · simp [Slab.takeBlock, hx, h₁, h₂]
  · by_cases h₂ : (s.block b).next = some x
    · simp [Slab.takeBlock, hx, h₁, h₂]
    · simp [Slab.takeBlock, hx, h₁, h₂]

/-- 空きの先頭が使用中の先頭に移る。pool の外の block は変わらない。 -/
theorem PoolOk.take (h : PoolOk s p (b :: fs) used) (hsize : 0 < s.mbsize) :
    PoolOk (s.takeBlock p b) p fs (b :: used) ∧
      ∀ x, x ∉ poolBlocks s p → (s.takeBlock p b).block x = s.block x := by
  have hnd := h.nodup hsize
  simp only [List.cons_append, List.nodup_cons, List.mem_append, not_or] at hnd
  obtain ⟨⟨hbf, hbu⟩, hnd⟩ := hnd
  have hdisj : ∀ x ∈ fs, x ∉ used := fun x hx hx' =>
    (List.nodup_append.mp hnd).2.2 x hx x hx' rfl
  have hfree := h.freeList
  have hpre : (s.block b).pre = none := hfree.2.1
  have hu : (s.pool p).usedhead ≠ some b := by
    rw [h.usedList.head_eq]
    exact fun heq => hbu (List.mem_of_head? heq)
  have hb : (s.block b).next ≠ some b := hfree.next_ne_self (by simp)
  have hcell := takeBlock_block hu hb
  have huin : ∀ x, (s.pool p).usedhead = some x → x ∈ used := by
    rw [h.usedList.head_eq]
    exact fun x hx => List.mem_of_head? hx
  have hnin : ∀ x, (s.block b).next = some x → x ∈ fs := fun x hx =>
    (List.mem_cons.mp (hfree.next_mem (by simp) hx)).resolve_left fun heq => hb (heq ▸ hx)
  refine ⟨⟨?_, ?_, ?_, ?_⟩, ?_⟩
  · rw [takeBlock_pool, if_pos rfl, show fs = (b :: fs).erase b by simp]
    refine DList.remove hfree (by simp) (by simp [hpre]) (fun x hx hne => ?_) (fun x hx hne => ?_)
    all_goals
      have hxu : (s.pool p).usedhead ≠ some x := fun heq =>
        hdisj x ((List.mem_cons.mp hx).resolve_left hne) (huin x heq)
      simp only [hcell, if_neg hne, if_neg hxu, hpre]
      split <;> simp
  · rw [takeBlock_pool, if_pos rfl]
    have hne : ∀ x ∈ used, x ≠ b := fun x hx heq => hbu (heq ▸ hx)
    have hxn : ∀ x ∈ used, (s.block b).next ≠ some x := fun x hx heq => hdisj x (hnin x heq) hx
    refine DList.push h.usedList (fun x hx => ?_) (by simp [hcell]) (by simp [hcell])
      (fun x hx => ?_)
    all_goals
      simp only [hcell, if_neg (hne x hx), if_neg (hxn x hx)]
      split <;> rfl
  · have hperm : (fs ++ b :: used).Perm (b :: fs ++ used) := List.perm_middle
    have hblocks : poolBlocks (s.takeBlock p b) p = poolBlocks s p := by
      unfold poolBlocks
      rw [takeBlock_pool, if_pos rfl, takeBlock_sameFields.2.2.1]
    rw [hblocks]
    exact hperm.trans h.all
  · intro x hx
    by_cases hne : x = b
    · simp [hcell, hne]
    · have hown := h.owner x ((List.mem_cons.mp hx).resolve_left hne)
      simp only [hcell, if_neg hne]
      split
      · exact hown
      · split <;> exact hown
  · intro x hx
    have hxb : x ≠ b := fun heq => hx (h.all.mem_iff.mp (by simp [heq]))
    have hxu : (s.pool p).usedhead ≠ some x := fun heq =>
      hx (h.all.mem_iff.mp (List.mem_append_right _ (huin x heq)))
    have hxn : (s.block b).next ≠ some x := fun heq =>
      hx (h.all.mem_iff.mp (by simp [hnin x heq]))
    rw [hcell, if_neg hxb, if_neg hxu, if_neg hxn]

end Take

/-! ## 使用中から空きへ -/

section Release

theorem unlinkUsed_pool (q : Nat) : (s.unlinkUsed p b).pool q =
    if q = p then
      { s.pool p with
        usedhead := if (s.block b).pre = none then (s.block b).next else (s.pool p).usedhead }
    else s.pool q := by
  unfold Slab.unlinkUsed
  cases hpre : (s.block b).pre with
  | none => by_cases h : q = p <;> simp [h]
  | some r => by_cases h : q = p <;> simp [h]

theorem unlinkUsed_block (hp : (s.block b).pre ≠ some b) (x : Nat) :
    (s.unlinkUsed p b).block x =
      { pre := if (s.block b).next = some x then (s.block b).pre else (s.block x).pre
        next := if (s.block b).pre = some x then (s.block b).next else (s.block x).next
        mp := (s.block x).mp } := by
  unfold Slab.unlinkUsed
  cases hpre : (s.block b).pre with
  | none => by_cases h : (s.block b).next = some x <;> simp [h]
  | some r =>
    have hb : b ≠ r := fun heq => hp (heq ▸ hpre)
    by_cases hx : x = r
    · subst hx
      by_cases h : (s.block b).next = some x <;> simp [h, hb, hpre]
    · by_cases h : (s.block b).next = some x <;> simp [h, hb, hpre, hx, Ne.symm hx]

theorem pushFree_pool (q : Nat) : (s.pushFree p b).pool q =
    if q = p then { s.pool p with freehead := some b } else s.pool q := by
  by_cases h : q = p <;> simp [Slab.pushFree, h]

theorem pushFree_block (hf : (s.pool p).freehead ≠ some b) (x : Nat) :
    (s.pushFree p b).block x =
      if x = b then ⟨none, (s.pool p).freehead, (s.block b).mp⟩
      else if (s.pool p).freehead = some x then { s.block x with pre := some b }
      else s.block x := by
  by_cases hx : x = b
  · simp [Slab.pushFree, hx, hf]
  · simp [Slab.pushFree, hx]

theorem release_sameFields : s.SameFields (s.release p b) := by
  unfold Slab.release Slab.unlinkUsed Slab.pushFree
  cases hpre : (s.block b).pre with
  | none => simp [Slab.SameFields, Slab.modifyPool, Slab.modifyBlock]
  | some r => simp [Slab.SameFields, Slab.modifyPool, Slab.modifyBlock]

theorem release_allocedNum :
    (s.release p b).allocedNum = Int.bmod (s.allocedNum - 1) (2 ^ 32) := by
  unfold Slab.release Slab.unlinkUsed Slab.pushFree
  cases hpre : (s.block b).pre with
  | none => simp [Slab.modifyPool, Slab.modifyBlock]
  | some r => simp [Slab.modifyPool, Slab.modifyBlock]

theorem release_pool (q : Nat) : (s.release p b).pool q =
    if q = p then
      { s.pool p with
        freehead := some b
        usedhead := if (s.block b).pre = none then (s.block b).next else (s.pool p).usedhead }
    else s.pool q := by
  show ((s.unlinkUsed p b).pushFree p b).pool q = _
  rw [pushFree_pool, unlinkUsed_pool, unlinkUsed_pool]
  by_cases h : q = p <;> simp [h]

/-- 使用中の block が空きの先頭に移る。pool の外の block は変わらない。 -/
theorem PoolOk.release (h : PoolOk s p free used) (hsize : 0 < s.mbsize) (hb : b ∈ used) :
    PoolOk (s.release p b) p (b :: free) (used.erase b) ∧
      ∀ x, x ∉ poolBlocks s p → (s.release p b).block x = s.block x := by
  have hnd := h.nodup hsize
  have hdisj : ∀ x ∈ free, x ∉ used := fun x hx hx' =>
    (List.nodup_append.mp hnd).2.2 x hx x hx' rfl
  have hbf : b ∉ free := fun hin => hdisj b hin hb
  have hp : (s.block b).pre ≠ some b := h.usedList.pre_ne_self hb
  have hfin : ∀ x, (s.pool p).freehead = some x → x ∈ free := by
    rw [h.freeList.head_eq]
    exact fun x hx => List.mem_of_head? hx
  have hpin : ∀ x, (s.block b).pre = some x → x ∈ used := fun x => h.usedList.pre_mem hb
  have hnin : ∀ x, (s.block b).next = some x → x ∈ used := fun x => h.usedList.next_mem hb
  have hf : ((s.unlinkUsed p b).pool p).freehead ≠ some b := by
    rw [unlinkUsed_pool, if_pos rfl]
    exact fun heq => hbf (hfin b heq)
  have hcell : ∀ x, (s.release p b).block x =
      if x = b then ⟨none, (s.pool p).freehead, (s.block b).mp⟩
      else if (s.pool p).freehead = some x then { (s.unlinkUsed p b).block x with pre := some b }
      else (s.unlinkUsed p b).block x := by
    intro x
    show ((s.unlinkUsed p b).pushFree p b).block x = _
    rw [pushFree_block hf, unlinkUsed_pool, if_pos rfl, unlinkUsed_block hp b]
  refine ⟨⟨?_, ?_, ?_, ?_⟩, ?_⟩
  · rw [release_pool, if_pos rfl]
    have hne : ∀ x ∈ free, x ≠ b := fun x hx heq => hbf (heq ▸ hx)
    have hold : ∀ x ∈ free, (s.unlinkUsed p b).block x = s.block x := by
      intro x hx
      have h₁ : (s.block b).next ≠ some x := fun heq => hdisj x hx (hnin x heq)
      have h₂ : (s.block b).pre ≠ some x := fun heq => hdisj x hx (hpin x heq)
      rw [unlinkUsed_block hp, if_neg h₁, if_neg h₂]
    refine DList.push h.freeList (fun x hx => ?_) (by simp [hcell]) (by simp [hcell])
      (fun x hx => ?_)
    all_goals
      simp only [hcell, if_neg (hne x hx), hold x hx]
      split <;> rfl
  · rw [release_pool, if_pos rfl]
    refine DList.remove h.usedList hb rfl (fun x hx hne => ?_) (fun x hx hne => ?_)
    all_goals
      have hxf : (s.pool p).freehead ≠ some x := fun heq => hdisj x (hfin x heq) hx
      simp only [hcell, if_neg hne, if_neg hxf, unlinkUsed_block hp]
  · have hblocks : poolBlocks (s.release p b) p = poolBlocks s p := by
      unfold poolBlocks
      rw [release_pool, if_pos rfl, release_sameFields.2.2.1]
    rw [hblocks]
    have hperm : (b :: free ++ used.erase b).Perm (free ++ b :: used.erase b) :=
      List.perm_middle.symm
    exact hperm.trans (((List.perm_cons_erase hb).symm.append_left free).trans h.all)
  · intro x hx
    have hne : x ≠ b := fun heq => by
      have hnd' : used.Nodup := (List.nodup_append.mp hnd).2.1
      exact hnd'.not_mem_erase (heq ▸ hx)
    have hxu := List.mem_of_mem_erase hx
    have hxf : (s.pool p).freehead ≠ some x := fun heq => hdisj x (hfin x heq) hxu
    rw [hcell, if_neg hne, if_neg hxf, unlinkUsed_block hp]
    exact h.owner x hxu
  · intro x hx
    have hfree : x ∉ free := fun hin => hx (h.all.mem_iff.mp (List.mem_append_left _ hin))
    have hused : x ∉ used := fun hin => hx (h.all.mem_iff.mp (List.mem_append_right _ hin))
    have hxb : x ≠ b := fun heq => hused (heq ▸ hb)
    have hxf : (s.pool p).freehead ≠ some x := fun heq => hfree (hfin x heq)
    have hxp : (s.block b).pre ≠ some x := fun heq => hused (hpin x heq)
    have hxn : (s.block b).next ≠ some x := fun heq => hused (hnin x heq)
    rw [hcell, if_neg hxb, if_neg hxf, unlinkUsed_block hp, if_neg hxn, if_neg hxp]

end Release

/-! ## 作りたての pool -/

section Init

/-- `base` から `ul` ごとに並んだ `k` 個の番地。 -/
def addrs (base ul k : Nat) : List Nat := (List.range k).map fun i => base + i * ul

theorem addrs_succ (base ul k : Nat) : addrs base ul (k + 1) = addrs base ul k ++ [base + k * ul] := by
  simp [addrs, List.range_succ]

theorem addrs_getLast (base ul k : Nat) : (addrs base ul (k + 1)).getLast? = some (base + k * ul) := by
  rw [addrs_succ, List.getLast?_concat]

theorem not_mem_addrs (base k : Nat) {ul : Nat} (hul : 0 < ul) : base + k * ul ∉ addrs base ul k := by
  intro hin
  obtain ⟨i, hi, heq⟩ := List.mem_map.mp hin
  have hlt := List.mem_range.mp hi
  have hmul := Nat.eq_of_mul_eq_mul_right hul (Nat.add_left_cancel heq)
  omega

/-- 一回分。`mbpre` は直前に置いた block である。 -/
def placeBlock (s : Slab) (pos : Nat) (mbpre : Option Nat) : Slab :=
  ((s.modifyBlock pos fun b => { b with pre := mbpre }).modifyBlockOpt mbpre fun b =>
    { b with next := some pos }).modifyBlock pos fun b => { b with next := none }

theorem placeBlock_eq (s : Slab) (pos : Nat) (mbpre : Option Nat) :
    placeBlock s pos mbpre = { s with block := (placeBlock s pos mbpre).block } := by
  cases mbpre <;> rfl

theorem placeBlock_block {pos : Nat} {mbpre : Option Nat} (hne : mbpre ≠ some pos) (x : Nat) :
    (placeBlock s pos mbpre).block x =
      if x = pos then ⟨mbpre, none, (s.block pos).mp⟩
      else if mbpre = some x then { s.block x with next := some pos }
      else s.block x := by
  by_cases hx : x = pos
  · simp [placeBlock, hx, hne]
  · simp [placeBlock, hx]

/--
`init_memblock` の loop は、残りの block を末尾に足していく。

`k` 個を置いた所から始めて、全部で `n` 個を置く。`hfits` は `n` 個が入ること、`hfull` は
もう一つは入らないことである。
-/
theorem initBlocks_spec (base : Nat) {ul length n r k : Nat} (hul : 0 < ul) (hlen : length < 2 ^ 32)
    (hfits : sizeofMempool + n * ul ≤ length) (hfull : length < sizeofMempool + (n + 1) * ul)
    (hule : ul ≤ length) (hk : k + r = n) (s : Slab)
    (hlist : BlockList s (addrs base ul k).head? (addrs base ul k)) :
    ∃ blk, (∀ fuel, r < fuel → Slab.initBlocks ul length fuel s (base + k * ul)
        (addrs base ul k).getLast? (sizeofMempool + k * ul) = some { s with block := blk }) ∧
      BlockList { s with block := blk } (addrs base ul n).head? (addrs base ul n) ∧
      ∀ x, x ∉ addrs base ul n → blk x = s.block x := by
  have hsub : subU32 length ul = length - ul := subU32_of_le hule (by omega)
  induction r generalizing k s with
  | zero =>
    obtain rfl : k = n := by omega
    refine ⟨s.block, fun fuel hfuel => ?_, hlist, fun _ _ => rfl⟩
    obtain ⟨f, rfl⟩ : ∃ f, fuel = f + 1 := ⟨fuel - 1, by omega⟩
    rw [Nat.add_mul] at hfull
    rw [Slab.initBlocks, hsub, if_neg (by omega)]
  | succ r ih =>
    have hmul : (k + 1) * ul ≤ n * ul := Nat.mul_le_mul_right ul (by omega)
    rw [Nat.add_mul, Nat.one_mul] at hmul
    have hnew := not_mem_addrs base k hul
    have hne : (addrs base ul k).getLast? ≠ some (base + k * ul) := fun heq =>
      hnew (List.mem_of_getLast? heq)
    have hcell := placeBlock_block (s := s) hne
    have hlist' : BlockList (placeBlock s (base + k * ul) (addrs base ul k).getLast?)
        (addrs base ul (k + 1)).head? (addrs base ul (k + 1)) := by
      rw [addrs_succ]
      refine DList.snoc hlist ?_ (fun x hx => ?_) (fun x hx => ?_) (by simp [hcell])
        (by simp [hcell])
      · cases addrs base ul k <;> simp
      all_goals
        have hxe : x ≠ base + k * ul := fun heq => hnew (heq ▸ hx)
        simp only [hcell, if_neg hxe]
        split <;> rfl
    obtain ⟨blk, hrun, hfinal, hsame⟩ := ih (by omega) _ hlist'
    refine ⟨blk, fun fuel hfuel => ?_, ?_, fun x hx => ?_⟩
    · obtain ⟨f, rfl⟩ : ∃ f, fuel = f + 1 := ⟨fuel - 1, by omega⟩
      have hgo := hrun f (by omega)
      rw [addrs_getLast, Nat.add_mul, Nat.one_mul, ← Nat.add_assoc, ← Nat.add_assoc] at hgo
      rw [Slab.initBlocks, hsub, if_pos (by omega), Nat.mod_eq_of_lt (by omega)]
      refine hgo.trans ?_
      rw [placeBlock_eq]
    · rw [placeBlock_eq] at hfinal
      exact hfinal
    · rw [hsame x hx, hcell]
      have hsub' : ∀ y ∈ addrs base ul (k + 1), y ∈ addrs base ul n := by
        intro y hy
        obtain ⟨i, hi, rfl⟩ := List.mem_map.mp hy
        have := List.mem_range.mp hi
        exact List.mem_map.mpr ⟨i, List.mem_range.mpr (by omega), rfl⟩
      have hx' : x ∉ addrs base ul (k + 1) := fun hin => hx (hsub' x hin)
      rw [addrs_succ, List.mem_append, List.mem_singleton, not_or] at hx'
      rw [if_neg hx'.2, if_neg fun heq => hx'.1 (List.mem_of_getLast? heq)]

theorem poolBlocks_eq_addrs (s : Slab) (p : Nat) : poolBlocks s p =
    addrs (p + sizeofMempool) s.mbsize (((s.pool p).length - sizeofMempool) / s.mbsize) := rfl

/-- **block が一つは入る pool では、`init_memblock` は終わり、全部の block が空きになる。** -/
theorem initMemblock_spec (s : Slab) (p : Nat) (hsize : 0 < s.mbsize)
    (hlen : (s.pool p).length < 2 ^ 32)
    (hroom : sizeofMempool + s.mbsize ≤ (s.pool p).length) :
    ∃ s', Converges (fun fuel => Slab.initMemblock fuel s p s.mbsize) s' ∧
      PoolOk s' p (poolBlocks s p) [] ∧ s.SameFields s' ∧ s'.allocedNum = s.allocedNum ∧
      s'.pool p = { s.pool p with freehead := (poolBlocks s p).head?, usedhead := none } ∧
      (∀ q, q ≠ p → s'.pool q = s.pool q) ∧
      ∀ x, x ∉ poolBlocks s p → s'.block x = s.block x := by
  have halign : alignU32 sizeofMempool 8 = sizeofMempool := by decide
  have hdiv := Nat.div_mul_le_self ((s.pool p).length - sizeofMempool) s.mbsize
  have hmod := Nat.lt_div_mul_add hsize (a := (s.pool p).length - sizeofMempool)
  have hpos : 0 < ((s.pool p).length - sizeofMempool) / s.mbsize :=
    Nat.div_pos (by omega) hsize
  have hhead : (poolBlocks s p).head? = some (p + sizeofMempool) := by
    obtain ⟨n, hn⟩ : ∃ n, ((s.pool p).length - sizeofMempool) / s.mbsize = n + 1 :=
      ⟨_, (Nat.succ_pred_eq_of_pos hpos).symm⟩
    rw [poolBlocks_eq_addrs, hn, addrs, List.range_succ_eq_map]
    simp
  let s₁ := s.modifyPool p fun m => { m with freehead := some (p + sizeofMempool) }
  have hlen₁ : (s₁.pool p).length = (s.pool p).length := by simp [s₁]
  obtain ⟨blk, hrun, hlist, hsame⟩ := initBlocks_spec (p + sizeofMempool) hsize hlen
    (n := ((s.pool p).length - sizeofMempool) / s.mbsize) (by omega)
    (by rw [Nat.add_mul]; omega) (by omega) (Nat.zero_add _) s₁ rfl
  refine ⟨Slab.modifyPool { s₁ with block := blk } p fun m => { m with usedhead := none },
    ?_, ⟨?_, ?_, ?_, by simp⟩, ⟨rfl, rfl, rfl, rfl, rfl⟩, rfl, ?_, ?_, hsame⟩
  · refine ((Converges.of_lt hrun).map fun s : Slab =>
      s.modifyPool p fun m => { m with usedhead := none }).congr fun fuel => ?_
    simp only [Slab.initMemblock, halign, Nat.zero_mul, Nat.add_zero]
    rw [show (s.modifyPool p fun m => { m with freehead := some (p + sizeofMempool) }) = s₁ from rfl,
      hlen₁]
    rfl
  · rw [← poolBlocks_eq_addrs, hhead] at hlist
    have hfree : ((Slab.modifyPool { s₁ with block := blk } p fun m =>
        { m with usedhead := none }).pool p).freehead = some (p + sizeofMempool) := by simp [s₁]
    rw [hfree]
    exact hlist
  · simp [BlockList, DList]
  · simp [poolBlocks, s₁, Slab.modifyPool]
  · simp [s₁, hhead]
  · intro q hq
    simp [s₁, hq]

end Init

end RecordServer.MemPool
