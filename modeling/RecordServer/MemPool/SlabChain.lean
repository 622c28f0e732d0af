import RecordServer.MemPool.SlabLists

/-!
# pool の列

* `Chain` — `mp_mpool` から `next` を辿った pool の列
* `SlabOk` — どの pool も整っていて、領域は重ならず、数が合う
* `SlabOk.alloc` / `SlabOk.slabFree` — `slab_alloc` と `slab_free` はそれを保つ
* `construct_spec` — 領域が取れた構築子の後で成り立つ
-/

namespace RecordServer.MemPool

open Infra

/-- `h` から `next` を辿ると `ps` である。 -/
def Chain (next : Nat → Option Nat) : Option Nat → List Nat → Prop
  | h, [] => h = none
  | h, p :: ps => h = some p ∧ Chain next (next p) ps

section Chain

variable {next next' : Nat → Option Nat} {h : Option Nat} {ps : List Nat} {e : Nat}

theorem Chain.congr (hc : Chain next h ps) (hnext : ∀ p ∈ ps, next' p = next p) :
    Chain next' h ps := by
  induction ps generalizing h with
  | nil => exact hc
  | cons p ps ih =>
    have htail := ih hc.2 fun q hq => hnext q (.tail _ hq)
    rw [← hnext p (.head _)] at htail
    exact ⟨hc.1, htail⟩

theorem Chain.unique {ps' : List Nat} (hc : Chain next h ps) (hc' : Chain next h ps') :
    ps = ps' := by
  induction ps generalizing h ps' with
  | nil =>
    cases ps' with
    | nil => rfl
    | cons q qs => cases hc.symm.trans hc'.1
  | cons p ps ih =>
    cases ps' with
    | nil => cases hc.1.symm.trans hc'
    | cons q qs =>
      obtain rfl := Option.some.inj (hc.1.symm.trans hc'.1)
      rw [ih hc.2 hc'.2]

/-- 次の無い pool は末尾である。 -/
theorem Chain.getLast_eq (hc : Chain next h ps) (he : e ∈ ps) (hnone : next e = none) :
    ps.getLast? = some e := by
  induction ps generalizing h with
  | nil => simp at he
  | cons p ps ih =>
    rcases List.mem_cons.mp he with rfl | he
    · have htail := hc.2
      rw [hnone] at htail
      cases ps with
      | nil => rfl
      | cons q qs => cases htail.1
    · rw [List.getLast?_cons, ih hc.2 he]
      rfl

/-- 末尾の次に足す。 -/
theorem Chain.snoc (hc : Chain next h ps) (hne : ps ≠ []) (hnd : ps.Nodup)
    (hnext : ∀ p ∈ ps, next' p = if ps.getLast? = some p then some e else next p)
    (hlast : next' e = none) : Chain next' h (ps ++ [e]) := by
  induction ps generalizing h with
  | nil => exact absurd rfl hne
  | cons p ps ih =>
    obtain ⟨hp, hnd'⟩ := List.nodup_cons.mp hnd
    refine ⟨hc.1, ?_⟩
    cases ps with
    | nil =>
      rw [hnext p (.head _), List.getLast?_singleton, if_pos rfl]
      exact ⟨rfl, hlast⟩
    | cons q qs =>
      have hlast_eq : (p :: q :: qs).getLast? = (q :: qs).getLast? := by
        simp [List.getLast?_cons]
      have hpn : (p :: q :: qs).getLast? ≠ some p := by
        rw [hlast_eq]
        exact fun heq => hp (List.mem_of_getLast? heq)
      rw [hnext p (.head _), if_neg hpn]
      refine ih hc.2 (List.cons_ne_nil q qs) hnd' fun r hr => ?_
      rw [hnext r (.tail _ hr), hlast_eq]

end Chain

/-- 一つの pool に block が一つ増えると、全体でも一つ増える。 -/
theorem flatMap_perm_cons {used used' : Nat → List Nat} {p b : Nat} {ps : List Nat}
    (hp : p ∈ ps) (hnd : ps.Nodup) (hperm : (used' p).Perm (b :: used p))
    (hsame : ∀ q ∈ ps, q ≠ p → used' q = used q) :
    (ps.flatMap used').Perm (b :: ps.flatMap used) := by
  induction ps with
  | nil => simp at hp
  | cons q qs ih =>
    obtain ⟨hq, hnd'⟩ := List.nodup_cons.mp hnd
    simp only [List.flatMap_cons]
    by_cases hqp : q = p
    · subst hqp
      have hrest : qs.flatMap used' = qs.flatMap used :=
        List.flatMap_congr fun r hr => hsame r (.tail _ hr) fun heq => hq (heq ▸ hr)
      rw [hrest]
      exact hperm.append_right _
    · have hih := ih ((List.mem_cons.mp hp).resolve_left (Ne.symm hqp)) hnd' fun r hr =>
        hsame r (.tail _ hr)
      rw [hsame q (.head _) hqp]
      exact (hih.append_left _).trans List.perm_middle

/-- まだ block を渡していない pool を足しても、渡した block は変わらない。 -/
theorem flatMap_snoc_update_nil {used : Nat → List Nat} {q : Nat} {ps : List Nat} (hq : q ∉ ps) :
    (ps ++ [q]).flatMap (Function.update used q []) = ps.flatMap used := by
  have hrest : ps.flatMap (Function.update used q []) = ps.flatMap used :=
    List.flatMap_congr fun r hr => Function.update_of_ne (fun heq : r = q => hq (heq ▸ hr)) _ _
  rw [List.flatMap_append, hrest]
  simp

/-! ## 全体の整い -/

/-- `mp_mpool` から辿れる pool。 -/
def PoolChain (s : Slab) (ps : List Nat) : Prop := Chain (fun p => (s.pool p).next) s.mpMpool ps

structure SlabOk (s : Slab) (ps : List Nat) (free used : Nat → List Nat) : Prop where
  chain : PoolChain s ps
  nonempty : ps ≠ []
  nodup : ps.Nodup
  pools : ∀ p ∈ ps, PoolOk s p (free p) (used p)
  /-- pool は `new_zone` の領域の中にあり、block が一つは入る。 -/
  zone : ∀ p ∈ ps, (s.pool p).offT ≤ p ∧ (s.pool p).length + (s.pool p).offT = s.poolsize ∧
    sizeofMempool + s.mbsize ≤ (s.pool p).length
  apart : ∀ p ∈ ps, ∀ q ∈ ps, p ≠ q →
    p + (s.pool p).length ≤ q ∨ q + (s.pool q).length ≤ p
  count : s.allocedNum = (ps.flatMap used).length
  limit : s.maxNum = -1 ∨ (s.allocedNum ≤ s.maxNum ∧ s.maxNum < 2 ^ 31)
  bound : s.allocedNum < 2 ^ 31
  mbsize : 0 < s.mbsize
  poolsize : s.poolsize < 2 ^ 32

/-- `malloc` の返す領域は、まだ返していない領域と重ならない。 -/
def Fresh (s : Slab) (a : Nat) : Prop :=
  ∀ ps, PoolChain s ps → ∀ p ∈ ps,
    a + s.poolsize ≤ p - (s.pool p).offT ∨ p + (s.pool p).length ≤ a

/-- 揃えた後の領域に、header と block が一つ入る。 -/
def Fits (s : Slab) (a : Nat) : Prop :=
  sizeofMempool + s.mbsize + (alignPtr a 64 - a) ≤ s.poolsize

variable {s s' : Slab} {ps : List Nat} {free used : Nat → List Nat} {p b a : Nat}

/-- 別の pool の block は重ならない。 -/
theorem SlabOk.blocks_disjoint (h : SlabOk s ps free used) {q : Nat} (hp : p ∈ ps) (hq : q ∈ ps)
    (hne : p ≠ q) {x : Nat} (hx : x ∈ poolBlocks s p) : x ∉ poolBlocks s q := by
  intro hx'
  have hpx := mem_poolBlocks hx h.mbsize
  have hqx := mem_poolBlocks hx' h.mbsize
  have := h.mbsize
  rcases h.apart p hp q hq hne with hle | hle <;> omega

/-- 一つの pool の二つの list と `m_alloced_num` だけを変えた後の整い。 -/
theorem SlabOk.update (h : SlabOk s ps free used) (hp : p ∈ ps) {fs us : List Nat}
    (hpool : PoolOk s' p fs us) (hsame : s.SameFields s')
    (hpools : ∀ q, q ≠ p → s'.pool q = s.pool q)
    (hhead : ∃ f u, s'.pool p = { s.pool p with freehead := f, usedhead := u })
    (hblocks : ∀ x, x ∉ poolBlocks s p → s'.block x = s.block x)
    (hcount : s'.allocedNum = (ps.flatMap (Function.update used p us)).length)
    (hlimit : s.maxNum = -1 ∨ (s'.allocedNum ≤ s.maxNum ∧ s.maxNum < 2 ^ 31))
    (hbound : s'.allocedNum < 2 ^ 31) :
    SlabOk s' ps (Function.update free p fs) (Function.update used p us) := by
  obtain ⟨hmp, hmax, hmb, hps, -⟩ := hsame
  obtain ⟨f, u, hhead⟩ := hhead
  have hfield : ∀ q, (s'.pool q).next = (s.pool q).next ∧
      (s'.pool q).length = (s.pool q).length ∧ (s'.pool q).offT = (s.pool q).offT := by
    intro q
    by_cases hq : q = p
    · rw [hq, hhead]
      exact ⟨rfl, rfl, rfl⟩
    · rw [hpools q hq]
      exact ⟨rfl, rfl, rfl⟩
  constructor
  · unfold PoolChain
    rw [hmp]
    exact h.chain.congr fun q _ => (hfield q).1
  · exact h.nonempty
  · exact h.nodup
  · intro q hq
    by_cases hqp : q = p
    · subst hqp
      simpa using hpool
    · simp only [Function.update_of_ne hqp]
      refine (h.pools q hq).congr ⟨_, hpools q hqp⟩ hmb fun x hx => hblocks x ?_
      exact h.blocks_disjoint hq hp hqp hx
  · intro q hq
    rw [(hfield q).2.1, (hfield q).2.2, hmb, hps]
    exact h.zone q hq
  · intro q hq r hr hne
    rw [(hfield q).2.1, (hfield r).2.1]
    exact h.apart q hq r hr hne
  · exact hcount
  · rw [hmax]
    exact hlimit
  · exact hbound
  · rw [hmb]
    exact h.mbsize
  · rw [hps]
    exact h.poolsize

/-! ## 既にある block を渡す -/

/-- 空きのある pool の先頭の block を渡す。 -/
theorem SlabOk.take (h : SlabOk s ps free used) (hp : p ∈ ps)
    (hhead : (s.pool p).freehead = some b) (hlt : s.allocedNum < 2 ^ 31 - 1)
    (hlimit : s.maxNum = -1 ∨ (s.allocedNum < s.maxNum ∧ s.maxNum < 2 ^ 31)) :
    ∃ free' used', SlabOk (s.takeBlock p b) ps free' used' ∧ b ∈ free p ∧
      (ps.flatMap used').Perm (b :: ps.flatMap used) := by
  have hpool := h.pools p hp
  obtain ⟨fs, hfs⟩ : ∃ fs, free p = b :: fs := by
    have heq := hpool.freeList.head_eq
    rw [hhead] at heq
    exact List.head?_eq_some_iff.mp heq.symm
  rw [hfs] at hpool
  obtain ⟨htake, hother⟩ := hpool.take h.mbsize
  have hperm : (ps.flatMap (Function.update used p (b :: used p))).Perm
      (b :: ps.flatMap used) := by
    refine flatMap_perm_cons hp h.nodup ?_ fun q _ hne => Function.update_of_ne hne _ _
    rw [Function.update_self]
  have hnum : (s.takeBlock p b).allocedNum = s.allocedNum + 1 := by
    have hcount := h.count
    rw [takeBlock_allocedNum, Int.bmod_eq_of_le (by omega) (by omega)]
  refine ⟨_, _, h.update hp htake takeBlock_sameFields (fun q hq => ?_) ?_ hother ?_ ?_ ?_,
    by simp [hfs], hperm⟩
  · rw [takeBlock_pool, if_neg hq]
  · exact ⟨_, _, by rw [takeBlock_pool, if_pos rfl]⟩
  · rw [hnum, h.count, hperm.length_eq]
    rfl
  · rw [hnum]
    omega
  · rw [hnum]
    omega

/-! ## pool を足す -/

/-- 新しい領域に置いた header。 -/
theorem newPool_pool (hfits : Fits s a) (hsize : s.poolsize < 2 ^ 32) (q : Nat) :
    (s.newPool s.poolsize a).2.pool q =
      if q = alignPtr a 64 then
        ⟨none, none, none, s.poolsize - (alignPtr a 64 - a), alignPtr a 64 - a⟩
      else s.pool q := by
  unfold Fits at hfits
  have hlen : subU32 s.poolsize (alignPtr a 64 - a) = s.poolsize - (alignPtr a 64 - a) :=
    subU32_of_le (by omega) (by omega)
  by_cases hq : q = alignPtr a 64
  · simp [Slab.newPool, hq, hlen]
  · simp [Slab.newPool, hq]

/-- 新しい領域は、前からの pool の領域と重ならない。 -/
theorem SlabOk.fresh_apart (h : SlabOk s ps free used) (hfresh : Fresh s a) {r : Nat}
    (hr : r ∈ ps) : a + s.poolsize ≤ r ∨ r + (s.pool r).length ≤ a := by
  rcases hfresh ps h.chain r hr with hle | hle <;> omega

/-- 新しい領域を取った後の、`init_memblock` の前の状態。 -/
def linked (s : Slab) (p a : Nat) : Slab :=
  (s.newPool s.poolsize a).2.modifyPool p fun m => { m with next := some (alignPtr a 64) }

/-- 整った pool を末尾の次に繋いだ後の整い。 -/
theorem SlabOk.snoc (h : SlabOk s ps free used) {q : Nat} {fs : List Nat} (hp : p ∈ ps)
    (hlast : (s.pool p).next = none) (hnot : q ∉ ps) (hsame : s.SameFields s')
    (hnum : s'.allocedNum = s.allocedNum)
    (hold : ∀ r ∈ ps,
      s'.pool r = { s.pool r with next := if r = p then some q else (s.pool r).next })
    (hframe : ∀ r ∈ ps, ∀ x ∈ poolBlocks s r, s'.block x = s.block x)
    (hpool : PoolOk s' q fs []) (hnext : (s'.pool q).next = none)
    (hzone : (s'.pool q).offT ≤ q ∧ (s'.pool q).length + (s'.pool q).offT = s.poolsize ∧
      sizeofMempool + s.mbsize ≤ (s'.pool q).length)
    (hapart : ∀ r ∈ ps, q + (s'.pool q).length ≤ r ∨ r + (s.pool r).length ≤ q) :
    SlabOk s' (ps ++ [q]) (Function.update free q fs) (Function.update used q []) := by
  obtain ⟨hmp, hmax, hmb, hps, -⟩ := hsame
  constructor
  · unfold PoolChain
    rw [hmp]
    refine Chain.snoc h.chain h.nonempty h.nodup (fun r hr => ?_) hnext
    simp only [hold r hr, h.chain.getLast_eq hp hlast, Option.some.injEq, eq_comm]
  · simp
  · exact List.nodup_append.mpr ⟨h.nodup, by simp, fun x hx y hy heq => by
      rw [List.mem_singleton] at hy
      exact hnot (hy ▸ heq ▸ hx)⟩
  · intro r hr
    rcases List.mem_append.mp hr with hr | hr
    · have hrq : r ≠ q := fun heq => hnot (heq ▸ hr)
      rw [Function.update_of_ne hrq, Function.update_of_ne hrq]
      exact (h.pools r hr).congr ⟨_, hold r hr⟩ hmb (hframe r hr)
    · obtain rfl := List.mem_singleton.mp hr
      rw [Function.update_self, Function.update_self]
      exact hpool
  · intro r hr
    rw [hmb, hps]
    rcases List.mem_append.mp hr with hr | hr
    · rw [hold r hr]
      exact h.zone r hr
    · obtain rfl := List.mem_singleton.mp hr
      exact hzone
  · intro r hr t ht hne
    have hlen : ∀ r ∈ ps, (s'.pool r).length = (s.pool r).length := fun r hr => by rw [hold r hr]
    rcases List.mem_append.mp hr with hr₁ | hr₁ <;> rcases List.mem_append.mp ht with ht₁ | ht₁
    · rw [hlen r hr₁, hlen t ht₁]
      exact h.apart r hr₁ t ht₁ hne
    · rw [List.mem_singleton.mp ht₁, hlen r hr₁]
      exact (hapart r hr₁).symm
    · rw [List.mem_singleton.mp hr₁, hlen t ht₁]
      exact hapart t ht₁
    · exact absurd ((List.mem_singleton.mp hr₁).trans (List.mem_singleton.mp ht₁).symm) hne
  · rw [flatMap_snoc_update_nil hnot]
    exact hnum.trans h.count
  · rw [hmax, hnum]
    exact h.limit
  · rw [hnum]
    exact h.bound
  · rw [hmb]
    exact h.mbsize
  · rw [hps]
    exact h.poolsize

/-- 末尾の pool の次に、新しい領域の pool を足す。 -/
theorem SlabOk.grow (h : SlabOk s ps free used) (hp : p ∈ ps) (hlast : (s.pool p).next = none)
    (hfresh : Fresh s a) (hfits : Fits s a) :
    ∃ s' free', Converges (fun fuel =>
        Slab.initMemblock fuel (linked s p a) (alignPtr a 64) s.mbsize) s' ∧
      SlabOk s' (ps ++ [alignPtr a 64]) free' (Function.update used (alignPtr a 64) []) ∧
      alignPtr a 64 ∉ ps ∧ s.SameFields s' ∧ s'.allocedNum = s.allocedNum ∧
      free' (alignPtr a 64) = poolBlocks s' (alignPtr a 64) ∧
      (ps ++ [alignPtr a 64]).flatMap (Function.update used (alignPtr a 64) []) =
        ps.flatMap used := by
  have hbounds := alignPtr_bounds a
  have hfits' := hfits
  unfold Fits at hfits'
  have hmb := h.mbsize
  have hps := h.poolsize
  generalize hq : alignPtr a 64 = q at hbounds hfits' ⊢
  have hnot : q ∉ ps := by
    intro hin
    have hzone := h.zone q hin
    rcases h.fresh_apart hfresh hin with hle | hle <;> omega
  have hqp : q ≠ p := fun heq => hnot (heq ▸ hp)
  have hnew := newPool_pool hfits hps
  rw [hq] at hnew
  have hpool₁ : ∀ r, (linked s p a).pool r =
      if r = p then { s.pool p with next := some q }
      else if r = q then ⟨none, none, none, s.poolsize - (q - a), q - a⟩ else s.pool r := by
    intro r
    by_cases hrp : r = p
    · simp [linked, hrp, hnew, Ne.symm hqp, hq]
    · simp [linked, hrp, hnew]
  have hq₁ : (linked s p a).pool q = ⟨none, none, none, s.poolsize - (q - a), q - a⟩ := by
    rw [hpool₁, if_neg hqp, if_pos rfl]
  obtain ⟨s', hrun, hok, hfields, hnum, hpoolq, hpools, hblocks⟩ :=
    initMemblock_spec (linked s p a) q hmb (by rw [hq₁]; show _ - _ < _; omega)
      (by rw [hq₁]; show _ + s.mbsize ≤ _ - _; omega)
  have hfields' : s.SameFields s' := hfields
  have hlenq : (s'.pool q).length = s.poolsize - (q - a) ∧ (s'.pool q).offT = q - a ∧
      (s'.pool q).next = none := by
    rw [hpoolq, hq₁]
    exact ⟨rfl, rfl, rfl⟩
  have hold : ∀ r ∈ ps,
      s'.pool r = { s.pool r with next := if r = p then some q else (s.pool r).next } := by
    intro r hr
    have hrq : r ≠ q := fun heq => hnot (heq ▸ hr)
    rw [hpools r hrq, hpool₁]
    by_cases hrp : r = p
    · simp [hrp]
    · simp [hrp, hrq]
  -- 前からの block は、0 で埋めた領域の外にある。
  have hframe : ∀ r ∈ ps, ∀ x ∈ poolBlocks s r, s'.block x = s.block x := by
    intro r hr x hx
    have hxr := mem_poolBlocks hx hmb
    have hout : ¬ (a ≤ x ∧ x < a + s.poolsize) := by
      rcases h.fresh_apart hfresh hr with hle | hle <;> omega
    rw [hblocks x fun hin => ?_]
    · exact if_neg hout
    · have hxq := mem_poolBlocks hin hmb
      rw [hq₁, show (linked s p a).mbsize = s.mbsize from rfl] at hxq
      simp only at hxq
      exact hout (by omega)
  have hblocksq : poolBlocks s' q = poolBlocks (linked s p a) q := by
    unfold poolBlocks
    rw [hpoolq, hfields.2.2.1]
  rw [← hblocksq] at hok
  refine ⟨s', Function.update free q (poolBlocks s' q), hrun, ?_, hnot, hfields', hnum,
    Function.update_self .., flatMap_snoc_update_nil hnot⟩
  refine h.snoc hp hlast hnot hfields' hnum hold hframe hok hlenq.2.2 ?_ fun r hr => ?_
  · rw [hlenq.1, hlenq.2.1]
    omega
  · rw [hlenq.1]
    rcases h.fresh_apart hfresh hr with hle | hle <;> omega

/-! ## `slab_alloc` -/

/-- 探す loop は、空きのある pool か、空きが一つも無いときの末尾の pool に着く。 -/
theorem findPool_spec (hc : Chain (fun p => (s.pool p).next) (some p) ps) :
    ∃ q ∈ ps, (∀ fuel, ps.length < fuel → s.findPool fuel p = some q) ∧
      ((s.pool q).freehead ≠ none ∨
        ((s.pool q).next = none ∧ ∀ r ∈ ps, (s.pool r).freehead = none)) := by
  induction ps generalizing p with
  | nil => cases hc
  | cons r rs ih =>
    obtain rfl : p = r := Option.some.inj hc.1
    by_cases hfree : (s.pool p).freehead = none
    · cases hnext : (s.pool p).next with
      | none =>
        have hrs : Chain _ (s.pool p).next rs := hc.2
        rw [hnext] at hrs
        obtain rfl : rs = [] := by
          cases rs with
          | nil => rfl
          | cons q qs => cases hrs.1
        refine ⟨p, by simp, fun fuel hfuel => ?_, .inr ⟨hnext, by simp [hfree]⟩⟩
        obtain ⟨f, rfl⟩ : ∃ f, fuel = f + 1 := ⟨fuel - 1, by omega⟩
        simp [Slab.findPool, hnext]
      | some r =>
        have hrs : Chain _ (s.pool p).next rs := hc.2
        rw [hnext] at hrs
        obtain ⟨q, hq, hrun, hfound⟩ := ih hrs
        refine ⟨q, .tail _ hq, fun fuel hfuel => ?_, ?_⟩
        · obtain ⟨f, rfl⟩ : ∃ f, fuel = f + 1 := ⟨fuel - 1, by omega⟩
          rw [List.length_cons] at hfuel
          simp only [Slab.findPool, hnext, hfree, if_true]
          exact hrun f (by omega)
        · refine hfound.imp_right fun hlast => ⟨hlast.1, fun t ht => ?_⟩
          rcases List.mem_cons.mp ht with rfl | ht
          · exact hfree
          · exact hlast.2 t ht
    · refine ⟨p, by simp, fun fuel hfuel => ?_, .inl hfree⟩
      obtain ⟨f, rfl⟩ : ∃ f, fuel = f + 1 := ⟨fuel - 1, by omega⟩
      unfold Slab.findPool
      cases hnext : (s.pool p).next with
      | none => rfl
      | some r => simp [hfree]

/-- `slab_alloc` の結果。 -/
def Allocated (s : Slab) (ps : List Nat) (free used : Nat → List Nat) (zone : Option Nat) :
    Option Nat → Slab → Prop
  | none, s' => s' = s ∧
      ((s.maxNum ≠ -1 ∧ s.allocedNum = s.maxNum) ∨ (zone = none ∧ ∀ p ∈ ps, free p = []))
  | some data, s' => ∃ b ps' free' used', data = b + s.alignedsize ∧ SlabOk s' ps' free' used' ∧
      (ps'.flatMap used').Perm (b :: ps.flatMap used) ∧ s.SameFields s' ∧
      ((∃ p ∈ ps, b ∈ free p) ∨
        ∃ q, ps' = ps ++ [q] ∧ q ∉ ps ∧ b ∈ poolBlocks s' q ∧ ∀ p ∈ ps, free p = [])

/-- **`slab_alloc` は終わり、空いていた block を渡すか、何も変えずに `NULL` を返す。** -/
theorem SlabOk.alloc (h : SlabOk s ps free used) (zone : Option Nat)
    (hzone : ∀ a, zone = some a → Fresh s a ∧ Fits s a)
    (hnum : s.maxNum = -1 → s.allocedNum < 2 ^ 31 - 1) :
    ∃ r s', Converges (fun fuel => s.slabAlloc fuel zone) (r, s') ∧
      Allocated s ps free used zone r s' := by
  by_cases hfull : s.maxNum ≠ -1 ∧ s.maxNum ≤ s.allocedNum
  · refine ⟨none, s, (Converges.pure _).congr fun fuel => ?_, rfl, .inl ⟨hfull.1, ?_⟩⟩
    · rw [Slab.slabAlloc, Slab.mempoolAlloc, if_pos hfull]
    · have hlimit := h.limit.resolve_left hfull.1
      omega
  have hroom : s.maxNum = -1 ∨ (s.allocedNum < s.maxNum ∧ s.maxNum < 2 ^ 31) := by
    rcases h.limit with hmax | hlimit
    · exact .inl hmax
    · by_cases hmax : s.maxNum = -1
      · exact .inl hmax
      · exact .inr ⟨not_le.mp fun hle => hfull ⟨hmax, hle⟩, hlimit.2⟩
  have hlt : s.allocedNum < 2 ^ 31 - 1 := by
    rcases hroom with hmax | hlimit
    · exact hnum hmax
    · omega
  obtain ⟨p, hp⟩ : ∃ p, s.mpMpool = some p := by
    cases hps : ps with
    | nil => exact absurd hps h.nonempty
    | cons p qs =>
      have hchain := h.chain
      rw [hps] at hchain
      exact ⟨p, hchain.1⟩
  have hchain := h.chain
  unfold PoolChain at hchain
  rw [hp] at hchain
  obtain ⟨q, hq, hfind, hfound⟩ := findPool_spec hchain
  have hrun : ∀ {r out}, Converges (fun fuel => s.growPool fuel q zone) r →
      Slab.finishAlloc r = some out → Converges (fun fuel => s.slabAlloc fuel zone) out := by
    intro r out hgrow hout
    have hrest : Converges (fun fuel => (s.growPool fuel q zone).bind Slab.finishAlloc) out :=
      hgrow.bind (g := fun r _ => Slab.finishAlloc r) ((Converges.pure out).congr fun _ => hout)
    refine ((Converges.of_lt hfind).bind
      (g := fun p fuel => (s.growPool fuel p zone).bind Slab.finishAlloc) hrest).congr fun fuel => ?_
    rw [Slab.slabAlloc, Slab.mempoolAlloc, if_neg hfull, hp]
    rfl
  rcases hfound with hfree | ⟨hlast, hnone⟩
  · obtain ⟨b, hb⟩ := Option.ne_none_iff_exists'.mp hfree
    obtain ⟨free', used', hok, hin, hperm⟩ := h.take hq hb hlt hroom
    refine ⟨some (b + s.alignedsize), s.takeBlock q b, hrun ((Converges.pure (some q, s)).congr
      fun fuel => ?_) ?_, b, ps, free', used', rfl, hok, hperm, takeBlock_sameFields,
      .inl ⟨q, hq, hin⟩⟩
    · rw [Slab.growPool, if_neg fun hc => hfree hc.1]
    · simp [Slab.finishAlloc, hb]
  · have hempty : ∀ r ∈ ps, free r = [] := by
      intro r hr
      have heq := (h.pools r hr).freeList.head_eq
      rw [hnone r hr] at heq
      exact List.head?_eq_none_iff.mp heq.symm
    have hcond : (s.pool q).freehead = none ∧ (s.pool q).next = none := ⟨hnone q hq, hlast⟩
    cases zone with
    | none =>
      refine ⟨none, s, hrun ((Converges.pure (none, s)).congr fun fuel => ?_) rfl, rfl,
        .inr ⟨rfl, hempty⟩⟩
      rw [Slab.growPool, if_pos hcond, Slab.creatMempool, if_pos hlast]
    | some a =>
      obtain ⟨hfresh, hfits⟩ := hzone a rfl
      obtain ⟨s₁, free₁, hinit, h₁, hnot, hfields, hnum₁, hfree₁, hflat⟩ :=
        h.grow hq hlast hfresh hfits
      have hmem : alignPtr a 64 ∈ ps ++ [alignPtr a 64] := by simp
      have hgrow : Converges (fun fuel => s.growPool fuel q (some a))
          (some (alignPtr a 64), s₁) := by
        refine (hinit.map fun s => (some (alignPtr a 64), s)).congr fun fuel => ?_
        rw [Slab.growPool, if_pos hcond, Slab.creatMempool, if_pos hlast]
        rfl
      -- 新しい pool には block が一つは入る。
      obtain ⟨b, hb⟩ : ∃ b, (s₁.pool (alignPtr a 64)).freehead = some b := by
        have hzone₁ := h₁.zone _ hmem
        have hpos := Nat.div_pos (a := (s₁.pool (alignPtr a 64)).length - sizeofMempool)
          (b := s₁.mbsize) (by omega) h₁.mbsize
        rw [(h₁.pools _ hmem).freeList.head_eq, hfree₁]
        refine ⟨_, List.head?_eq_some_head (l := poolBlocks s₁ (alignPtr a 64)) ?_⟩
        rw [← List.length_pos_iff]
        simpa [poolBlocks] using hpos
      have hroom₁ : s₁.maxNum = -1 ∨ (s₁.allocedNum < s₁.maxNum ∧ s₁.maxNum < 2 ^ 31) := by
        rw [hfields.2.1, hnum₁]
        exact hroom
      obtain ⟨free', used', hok, hin, hperm⟩ := h₁.take hmem hb (hnum₁ ▸ hlt) hroom₁
      rw [hflat] at hperm
      have hfields' : s.SameFields (s₁.takeBlock (alignPtr a 64) b) := hfields.trans takeBlock_sameFields
      refine ⟨some (b + s₁.alignedsize), s₁.takeBlock (alignPtr a 64) b, hrun hgrow ?_, b,
        ps ++ [alignPtr a 64], free', used', by rw [hfields.2.2.2.2], hok, hperm, hfields',
        .inr ⟨_, rfl, hnot, ?_, hempty⟩⟩
      · simp [Slab.finishAlloc, hb]
      · rw [hfree₁] at hin
        unfold poolBlocks at hin ⊢
        rw [takeBlock_pool, if_pos rfl, takeBlock_sameFields.2.2.1]
        exact hin

/-! ## `slab_free` -/

/-- **使用中の block の `slab_free` は終わり、その block だけを空きに戻す。** -/
theorem SlabOk.slabFree (h : SlabOk s ps free used) (hb : b ∈ ps.flatMap used) :
    ∃ s' free' used', s.slabFree (b + s.alignedsize) = some s' ∧ SlabOk s' ps free' used' ∧
      (ps.flatMap used).Perm (b :: ps.flatMap used') ∧ s.SameFields s' := by
  obtain ⟨p, hp, hbp⟩ := List.mem_flatMap.mp hb
  have hpool := h.pools p hp
  obtain ⟨hrel, hother⟩ := hpool.release h.mbsize hbp
  have hperm : (ps.flatMap used).Perm
      (b :: ps.flatMap (Function.update used p ((used p).erase b))) := by
    refine flatMap_perm_cons hp h.nodup ?_ fun q _ hne => (Function.update_of_ne hne _ _).symm
    rw [Function.update_self]
    exact List.perm_cons_erase hbp
  have hlen := hperm.length_eq
  rw [List.length_cons] at hlen
  have hcount := h.count
  have hbound := h.bound
  have hnum : (s.release p b).allocedNum = s.allocedNum - 1 := by
    rw [release_allocedNum, Int.bmod_eq_of_le (by omega) (by omega)]
  refine ⟨s.release p b, _, _, ?_, h.update hp hrel release_sameFields (fun q hq => ?_) ?_ hother
    ?_ ?_ ?_, hperm, release_sameFields⟩
  · simp [Slab.slabFree, hpool.owner b hbp]
  · rw [release_pool, if_neg hq]
  · exact ⟨_, _, by rw [release_pool, if_pos rfl]⟩
  · rw [hnum]
    omega
  · rw [hnum]
    have hlimit := h.limit
    omega
  · rw [hnum]
    omega

/-! ## 構築 -/

/-- 上限を渡さない構築子では `-1`、渡す構築子ではその数になる。 -/
theorem initial_limit {pool : Nat → Mempool} {block : Nat → Memblock} {blockSize poolSize : Nat}
    {num : Option Nat} (hnum : ∀ n, num = some n → 1 ≤ n ∧ n < 2 ^ 31) :
    (Slab.initial pool block blockSize poolSize num).maxNum = -1 ∨
      (0 ≤ (Slab.initial pool block blockSize poolSize num).maxNum ∧
        (Slab.initial pool block blockSize poolSize num).maxNum < 2 ^ 31) := by
  cases num with
  | none => exact .inl rfl
  | some n =>
    obtain ⟨hpos, hlt⟩ := hnum n rfl
    refine .inr ?_
    simp only [Slab.initial]
    rw [Int.bmod_eq_of_le (by omega) (by omega)]
    omega

/-- 領域が取れた構築子の後には、空の pool が一つある。 -/
theorem construct_spec (hmp : s.allocedNum = 0) (hlimit : s.maxNum = -1 ∨ (0 ≤ s.maxNum ∧
    s.maxNum < 2 ^ 31)) (hmb : 0 < s.mbsize) (hps : s.poolsize < 2 ^ 32) (hfits : Fits s a) :
    ∃ s' ps free, Converges (fun fuel => s.construct fuel (some a)) s' ∧
      SlabOk s' ps free (fun _ => []) ∧ s'.maxNum = s.maxNum ∧ s'.alignedsize = s.alignedsize := by
  have hbounds := alignPtr_bounds a
  have hfits' := hfits
  unfold Fits at hfits'
  have hnew := newPool_pool hfits hps (alignPtr a 64)
  rw [if_pos rfl] at hnew
  generalize hq : alignPtr a 64 = q at hbounds hfits' hnew
  let s₁ : Slab := { (s.newPool s.poolsize a).2 with mpMpool := some q }
  have hq₁ : s₁.pool q = ⟨none, none, none, s.poolsize - (q - a), q - a⟩ := hnew
  obtain ⟨s', hrun, hok, hfields, hnum, hpoolq, hpools, -⟩ :=
    initMemblock_spec s₁ q hmb (by rw [hq₁]; show _ - _ < _; omega)
      (by rw [hq₁]; show _ + s.mbsize ≤ _ - _; omega)
  obtain ⟨hmpool, hmax, hmb', hps', hal⟩ := hfields
  have hzero : s'.allocedNum = 0 := hnum.trans hmp
  refine ⟨s', [q], fun _ => poolBlocks s₁ q, hrun.congr fun fuel => ?_, ?_, hmax, hal⟩
  · subst hq
    rfl
  constructor
  · refine ⟨hmpool, ?_⟩
    show (s'.pool q).next = none
    rw [hpoolq, hq₁]
  · simp
  · simp
  · intro r hr
    obtain rfl := List.mem_singleton.mp hr
    exact hok
  · intro r hr
    rw [List.mem_singleton.mp hr, hpoolq, hq₁, hmb', hps']
    show q - a ≤ q ∧ s.poolsize - (q - a) + (q - a) = s.poolsize ∧
      sizeofMempool + s.mbsize ≤ s.poolsize - (q - a)
    omega
  · intro r hr t ht hne
    exact absurd ((List.mem_singleton.mp hr).trans (List.mem_singleton.mp ht).symm) hne
  · rw [hzero]
    simp
  · rw [hmax, hzero]
    exact hlimit
  · rw [hzero]
    decide
  · rw [hmb']
    exact hmb
  · rw [hps']
    exact hps

/-! ## 燃料を増やす -/

theorem initBlocks_steady (ul length : Nat) (s : Slab) (pos : Nat) (mbpre : Option Nat)
    (offs : Nat) : Steady fun fuel => Slab.initBlocks ul length fuel s pos mbpre offs := by
  refine Steady.of_loop (fun fuel (r : Slab × Nat × Option Nat × Nat) =>
    Slab.initBlocks ul length fuel r.1 r.2.1 r.2.2.1 r.2.2.2) (fun r =>
    if r.2.2.2 ≤ subU32 length ul then
      .inr (placeBlock r.1 r.2.1 r.2.2.1, r.2.1 + ul, some r.2.1, (r.2.2.2 + ul) % 2 ^ 32)
    else .inl r.1) (fun _ => rfl) (fun fuel r => ?_) (s, pos, mbpre, offs)
  simp only [Slab.initBlocks]
  split <;> rfl

theorem initMemblock_steady (s : Slab) (p ul : Nat) :
    Steady fun fuel => s.initMemblock fuel p ul :=
  (initBlocks_steady _ _ _ _ _ _).map _

theorem construct_steady (s : Slab) (zone : Option Nat) :
    Steady fun fuel => s.construct fuel zone := by
  unfold Slab.construct
  split
  · exact .const _
  · exact initMemblock_steady _ _ _

theorem findPool_steady (s : Slab) (p : Nat) : Steady fun fuel => s.findPool fuel p := by
  refine Steady.of_loop _ (fun p => (s.pool p).next.elim (.inl p) fun q =>
    if (s.pool p).freehead = none then .inr q else .inl p) (fun _ => rfl) (fun fuel p => ?_) p
  rw [Slab.findPool]
  cases (s.pool p).next with
  | none => rfl
  | some q =>
    dsimp only [Option.elim]
    split <;> rfl

theorem growPool_steady (s : Slab) (p : Nat) (zone : Option Nat) :
    Steady fun fuel => s.growPool fuel p zone := by
  unfold Slab.growPool
  split
  · split
    · exact .const _
    · exact (initMemblock_steady _ _ _).map _
  · exact .const _

theorem slabAlloc_steady (s : Slab) (zone : Option Nat) :
    Steady fun fuel => s.slabAlloc fuel zone := by
  unfold Slab.slabAlloc Slab.mempoolAlloc
  split
  · exact .const _
  · refine (Steady.const _).bind fun p => (findPool_steady s p).bind fun p => ?_
    exact (growPool_steady s p zone).bind fun _ => .const _

end RecordServer.MemPool
