import RecordServer.MemPool.SlabChain

/-!
# block は pool の中にあるか

`init_memblock` は、block が入るかを見る前に `freehead` を決める。

* `Created` — `init_memblock` を呼ぶ二つの道。構築子と、pool が尽きたときの `mempool_alloc`
* `FreeInside` — 空きの list の block はみな pool の中にあり、その数は入るだけである
* `freeInside_iff` — そうなるのは、header と block が一つ、揃えた後の領域に入るときに限る
* `connection_past_the_page` — 4096 byte の領域に、端を越える block が繋がる
-/

namespace RecordServer.MemPool

open Infra

variable {blockSize poolSize a : Nat}

/-- 大きさの計算が `u32` に収まる。 -/
structure SizesFit (blockSize poolSize a : Nat) : Prop where
  align : blockSize + 7 < 2 ^ 32
  block : alignU32 blockSize 8 + sizeofMemblock < 2 ^ 32
  pool : poolSize + 4095 < 2 ^ 32
  off : alignPtr a 64 - a ≤ alignU32 poolSize 4096

/-- `malloc` が `a` を返したときに、`init_memblock` の走る run。 -/
inductive Created (blockSize poolSize a : Nat) : (Nat → Option Slab) → Prop
  | first (pool : Nat → Mempool) (block : Nat → Memblock) (num : Option Nat) :
    Created blockSize poolSize a fun fuel =>
      Slab.construct fuel (Slab.initial pool block blockSize poolSize num) (some a)
  /-- `s` は、大きさを構築子が決めた、どの状態でもよい。 -/
  | grown (s : Slab) (p : Nat)
    (hmb : s.mbsize = (alignU32 blockSize 8 + sizeofMemblock) % 2 ^ 32)
    (hps : s.poolsize = alignU32 poolSize 4096)
    (hfree : (s.pool p).freehead = none) (hnext : (s.pool p).next = none) :
    Created blockSize poolSize a fun fuel => (s.growPool fuel p (some a)).map Prod.snd

/-- `freehead` から `next` を辿ると、pool `p` に収まる block だけが、入るだけの数ある。 -/
def FreeInside (s : Slab) (p : Nat) : Prop :=
  ∃ bs, Chain (fun b => (s.block b).next) (s.pool p).freehead bs ∧
    (∀ b ∈ bs, p + sizeofMempool ≤ b ∧ b + s.mbsize ≤ p + (s.pool p).length) ∧
    bs.length = ((s.pool p).length - sizeofMempool) / s.mbsize

/-! ## `init_memblock` の結果 -/

theorem chain_of_seg {s : Slab} {h pre : Option Nat} {bs : List Nat}
    (hlist : Seg (fun b => (s.block b).pre) (fun b => (s.block b).next) pre h bs) :
    Chain (fun b => (s.block b).next) h bs := by
  induction bs generalizing h pre with
  | nil => exact hlist
  | cons b bs ih => exact ⟨hlist.1, ih hlist.2.2⟩

/-- loop は block の header だけを書く。 -/
theorem initBlocks_pool {ul length fuel pos offs : Nat} {mbpre : Option Nat} {s s' : Slab}
    (h : Slab.initBlocks ul length fuel s pos mbpre offs = some s') :
    s'.pool = s.pool ∧ s'.mbsize = s.mbsize := by
  induction fuel generalizing s pos mbpre offs with
  | zero => cases h
  | succ fuel ih =>
    unfold Slab.initBlocks at h
    split at h
    · have hrest : Slab.initBlocks ul length fuel (placeBlock s pos mbpre) (pos + ul) (some pos)
          ((offs + ul) % 2 ^ 32) = some s' := h
      obtain ⟨hpool, hmb⟩ := ih hrest
      rw [placeBlock_eq] at hpool hmb
      exact ⟨hpool, hmb⟩
    · obtain rfl := Option.some.inj h
      exact ⟨rfl, rfl⟩

/-- `freehead` は、loop が一度も回らなくても、header の直後を指す。 -/
theorem initMemblock_head {fuel ul p : Nat} {s s' : Slab}
    (h : Slab.initMemblock fuel s p ul = some s') :
    (s'.pool p).freehead = some (p + sizeofMempool) ∧ (s'.pool p).length = (s.pool p).length ∧
      s'.mbsize = s.mbsize := by
  obtain ⟨t, hloop, rfl⟩ := Option.map_eq_some_iff.mp h
  obtain ⟨hpool, hmb⟩ := initBlocks_pool hloop
  refine ⟨?_, ?_, hmb⟩ <;> simp [hpool, show alignU32 sizeofMempool 8 = sizeofMempool by decide]

/-- **`init_memblock` の空きの list が pool に収まるのは、block が一つは入るときに限る。** -/
theorem initMemblock_inside_iff {s : Slab} {p : Nat} (hmb : 0 < s.mbsize)
    (hlen : (s.pool p).length < 2 ^ 32) :
    (∃ s', Converges (fun fuel => Slab.initMemblock fuel s p s.mbsize) s' ∧ FreeInside s' p) ↔
      sizeofMempool + s.mbsize ≤ (s.pool p).length := by
  constructor
  · rintro ⟨s', ⟨enough, hrun⟩, bs, hchain, hin, -⟩
    obtain ⟨hhead, hlength, hsize⟩ := initMemblock_head (hrun enough le_rfl)
    rw [hhead] at hchain
    -- 列の先頭は `freehead` なので、収まるかどうかはそこで決まる。
    obtain ⟨bs', rfl⟩ : ∃ bs', bs = (p + sizeofMempool) :: bs' := by
      cases bs with
      | nil => cases hchain
      | cons b bs' => exact ⟨bs', by rw [Option.some.inj hchain.1]⟩
    obtain ⟨-, hle⟩ := hin _ (.head _)
    rw [hlength, hsize] at hle
    omega
  · intro hroom
    obtain ⟨s', hrun, hok, hfields, -, hpool, -, -⟩ := initMemblock_spec s p hmb hlen hroom
    obtain ⟨-, -, hmb', -, -⟩ := hfields
    refine ⟨s', hrun, poolBlocks s p, chain_of_seg hok.freeList, fun b hb => ?_, ?_⟩
    · rw [hpool, hmb']
      exact mem_poolBlocks hb hmb
    · rw [hpool, hmb']
      simp [poolBlocks]

/-- 一つも入らず、引き算も回り込まないとき、loop は一度も回らない。 -/
theorem initMemblock_short {s : Slab} {p ul : Nat} (hle : ul ≤ (s.pool p).length)
    (hlen : (s.pool p).length < 2 ^ 32) (hshort : (s.pool p).length < sizeofMempool + ul) :
    ∃ s', Converges (fun fuel => Slab.initMemblock fuel s p ul) s' := by
  have halign : alignU32 sizeofMempool 8 = sizeofMempool := by decide
  have hsub : subU32 (s.pool p).length ul = (s.pool p).length - ul := subU32_of_le hle hlen
  refine ⟨(s.modifyPool p fun m => { m with freehead := some (p + sizeofMempool) }).modifyPool p
    fun m => { m with usedhead := none }, Converges.of_lt (n := 0) fun fuel hfuel => ?_⟩
  obtain ⟨f, rfl⟩ : ∃ f, fuel = f + 1 := ⟨fuel - 1, by omega⟩
  rw [Slab.initMemblock, Slab.initBlocks, halign, if_neg]
  · rfl
  · simp [hsub]
    omega

/-! ## 呼び出し -/

/-- どちらの道も、領域に header を置いた後の `init_memblock` である。 -/
theorem Created.eq_initMemblock {run : Nat → Option Slab} (h : Created blockSize poolSize a run)
    (hfit : SizesFit blockSize poolSize a) :
    ∃ s : Slab, run = (fun fuel => Slab.initMemblock fuel s (alignPtr a 64) s.mbsize) ∧
      s.mbsize = alignU32 blockSize 8 + sizeofMemblock ∧
      (s.pool (alignPtr a 64)).length = alignU32 poolSize 4096 - (alignPtr a 64 - a) := by
  have hoff := hfit.off
  have hlt := alignU32_lt poolSize 4096
  have hsub : subU32 (alignU32 poolSize 4096) (alignPtr a 64 - a) =
      alignU32 poolSize 4096 - (alignPtr a 64 - a) := subU32_of_le (by omega) hlt
  cases h with
  | first pool block num =>
    let s := Slab.initial pool block blockSize poolSize num
    refine ⟨{ (s.newPool s.poolsize a).2 with mpMpool := some (alignPtr a 64) }, rfl,
      Nat.mod_eq_of_lt hfit.block, ?_⟩
    simp [Slab.newPool, s, Slab.initial, hsub]
  | grown s p hmb hps hfree hnext =>
    refine ⟨linked s p a, funext fun fuel => ?_, hmb.trans (Nat.mod_eq_of_lt hfit.block), ?_⟩
    · rw [Slab.growPool, if_pos ⟨hfree, hnext⟩, Slab.creatMempool, if_pos hnext]
      exact (Option.map_map _ _ _).trans Option.map_id'
    · rw [linked, hps]
      by_cases hp : alignPtr a 64 = p
      · subst hp
        simp [Slab.newPool, hsub]
      · simp [Slab.newPool, hp, hsub]

/--
**`init_memblock` の繋ぐ block がみな pool の中にあるのは、揃えた後の領域に header と block が一つ
入るときに限る。**

入らないときも `freehead` は `NULL` にならず、そこにある block は pool の端を越える。
-/
theorem freeInside_iff (hfit : SizesFit blockSize poolSize a) {run : Nat → Option Slab}
    (hrun : Created blockSize poolSize a run) :
    (∃ s', Converges run s' ∧ FreeInside s' (alignPtr a 64)) ↔
      sizeofMempool + (alignU32 blockSize 8 + sizeofMemblock) + (alignPtr a 64 - a) ≤
        alignU32 poolSize 4096 := by
  obtain ⟨s, rfl, hmb, hlen⟩ := hrun.eq_initMemblock hfit
  have hoff := hfit.off
  have hlt := alignU32_lt poolSize 4096
  rw [initMemblock_inside_iff (by rw [hmb]; unfold sizeofMemblock; omega) (by omega), hmb, hlen]
  omega

/-- 4096 byte の領域から、1000 byte の block を三つ切り出す。 -/
theorem freeInside_three :
    ∃ s', Converges (fun fuel => Slab.construct fuel
        (Slab.initial (fun _ => ⟨none, none, none, 0, 0⟩) (fun _ => ⟨none, none, none⟩) 1000 4000
          (some 4)) (some 16)) s' ∧ FreeInside s' (alignPtr 16 64) :=
  (freeInside_iff ⟨by decide, by decide, by decide, by decide⟩ (.first _ _ _)).mpr (by decide)

/--
`CConn_pool` が、4056 byte の接続を一つだけ置く pool を作る。

block は header と合わせて 4080 byte で、4096 byte の領域の header の後には 4064 byte しか無い。
loop は一度も回らないが、`freehead` はその block を指す。
-/
theorem connection_past_the_page :
    ∃ s', Converges (fun fuel => Slab.construct fuel
        (Slab.initial (fun _ => ⟨none, none, none, 0, 0⟩) (fun _ => ⟨none, none, none⟩) 4056
          (4056 * 1) (some 1)) (some 4096)) s' ∧
      (s'.pool 4096).freehead = some (4096 + 32) ∧ (s'.pool 4096).length = 4096 ∧
      s'.mbsize = 4080 ∧ ¬ FreeInside s' 4096 := by
  have hfit : SizesFit 4056 (4056 * 1) 4096 := ⟨by decide, by decide, by decide, by decide⟩
  obtain ⟨s, hrun, hmb, hlen⟩ := (Created.first (a := 4096) _ _ _).eq_initMemblock hfit
  rw [hrun]
  have hmb' : s.mbsize = 4080 := hmb
  have hlen' : (s.pool 4096).length = 4096 := hlen
  have hle : s.mbsize ≤ (s.pool 4096).length := by omega
  obtain ⟨s', hs'⟩ := initMemblock_short hle (by omega) (by rw [sizeofMempool]; omega)
  obtain ⟨hhead, hlength, hsize⟩ := initMemblock_head (hs'.choose_spec _ le_rfl)
  refine ⟨s', hs', hhead, hlength.trans hlen', hsize.trans hmb', fun hin => ?_⟩
  have hroom := (initMemblock_inside_iff (by omega) (by omega)).mp ⟨s', hs', hin⟩
  rw [sizeofMempool] at hroom
  omega

end RecordServer.MemPool
