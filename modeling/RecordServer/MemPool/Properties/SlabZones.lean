import RecordServer.MemPool.Properties.SlabInside
import RecordServer.MemPool.Properties.SlabPartition

/-!
# 取った領域を手放す

`slab_alloc` は足りなくなると `new_zone` で領域を取り、pool の header をその中に置く。解体は pool の列
だけを辿り、header の番地から領域の先頭を逆算して `delete_zone` に渡す。

* `newZone` — 一度の `slab_alloc` が `new_zone` から得た領域
* `Zoned` — 領域を得た順も数える run の状態
* `Zoned.Ok` — pool の列は、得た領域の列と、順も含めて対応する
* `Zoned.step_steady` — run の着く状態は、燃料を決めて計算できる
* `destroy_deletes_zones` — どの run の後でも、解体は得た領域をちょうど一度ずつ、得た順に手放す
-/

namespace RecordServer.MemPool

open Infra

/-! ## 一度の `slab_alloc` -/

/-- この `slab_alloc` が `new_zone` を呼んだなら、その結果。呼べば `zone` が返る。 -/
def newZone (fuel : Nat) (s : Slab) (zone : Option Nat) : Option (Option Nat) :=
  if s.maxNum ≠ -1 ∧ s.maxNum ≤ s.allocedNum then some none
  else
    s.mpMpool.bind fun p => (s.findPool fuel p).map fun p =>
      if (s.pool p).freehead = none ∧ (s.pool p).next = none then zone else none

/-- pool の header のうち、列と領域に関わる部分。 -/
def header (s : Slab) (p : Nat) : Option Nat × Nat × Nat :=
  ((s.pool p).next, (s.pool p).length, (s.pool p).offT)

variable {s s' : Slab} {ps : List Nat} {free used : Nat → List Nat} {p a : Nat}
  {fuel : Nat} {zone r : Option Nat}

theorem header_takeBlock {b : Nat} (q : Nat) : header (s.takeBlock p b) q = header s q := by
  unfold header
  rw [takeBlock_pool]
  split <;> simp_all

theorem header_finishAlloc {o : Option Nat} {out : Option Nat × Slab}
    (h : Slab.finishAlloc (o, s) = some out) (q : Nat) : header out.2 q = header s q := by
  cases o with
  | none =>
    obtain rfl := Option.some.inj h
    rfl
  | some p =>
    obtain ⟨b, -, rfl⟩ := Option.map_eq_some_iff.mp h
    exact header_takeBlock q

theorem header_initMemblock {ul : Nat} (h : Slab.initMemblock fuel s p ul = some s') (q : Nat) :
    header s' q = header s q := by
  obtain ⟨t, hloop, rfl⟩ := Option.map_eq_some_iff.mp h
  obtain ⟨hpool, -⟩ := initBlocks_pool hloop
  unfold header
  simp only [Slab.modifyPool_pool, hpool]
  split <;> rfl

/-- 探す loop は列の中に留まる。 -/
theorem findPool_mem {h q : Nat} (hc : Chain (fun p => (s.pool p).next) (some h) ps)
    (hfind : s.findPool fuel h = some q) : q ∈ ps := by
  induction ps generalizing h fuel with
  | nil => cases hc
  | cons p ps ih =>
    obtain rfl := Option.some.inj hc.1
    cases fuel with
    | zero => cases hfind
    | succ fuel =>
      unfold Slab.findPool at hfind
      split at hfind
      · exact Option.some.inj hfind ▸ .head _
      · rename_i r hnext
        split at hfind
        · have htail : Chain _ (s.pool h).next ps := hc.2
          rw [hnext] at htail
          exact .tail _ (ih htail hfind)
        · exact Option.some.inj hfind ▸ .head _

/--
`slab_alloc` の後の header。

領域を取らなければ何も変わらず、取れば列の末尾の pool の次に、その領域の pool が繋がる。
-/
theorem header_slabAlloc (hc : PoolChain s ps) (h : s.slabAlloc fuel zone = some (r, s')) :
    (newZone fuel s zone = some none ∧ ∀ q, header s' q = header s q) ∨
      ∃ p ∈ ps, ∃ a, zone = some a ∧ newZone fuel s zone = some (some a) ∧
        (s.pool p).next = none ∧ ∀ q, header s' q = header (linked s p a) q := by
  unfold Slab.slabAlloc Slab.mempoolAlloc at h
  unfold newZone
  split at h
  · rename_i hfull
    obtain ⟨rfl, rfl⟩ := Prod.mk.inj (Option.some.inj h)
    exact .inl ⟨if_pos hfull, fun q => rfl⟩
  rename_i hfull
  obtain ⟨p₀, hp₀, h⟩ := Option.bind_eq_some_iff.mp h
  obtain ⟨p, hfind, h⟩ := Option.bind_eq_some_iff.mp h
  obtain ⟨⟨o, t⟩, hgrow, hfinish⟩ := Option.bind_eq_some_iff.mp h
  have hlast := header_finishAlloc hfinish
  unfold PoolChain at hc
  rw [hp₀] at hc
  have hp := findPool_mem hc hfind
  rw [if_neg hfull, hp₀, Option.bind_some, hfind, Option.map_some]
  unfold Slab.growPool at hgrow
  split at hgrow
  · rename_i hcond
    rw [if_pos hcond]
    simp only [Slab.creatMempool, if_pos hcond.2] at hgrow
    cases zone with
    | none =>
      obtain ⟨rfl, rfl⟩ := Prod.mk.inj (Option.some.inj hgrow)
      exact .inl ⟨rfl, hlast⟩
    | some a =>
      obtain ⟨u, hinit, heq⟩ := Option.map_eq_some_iff.mp hgrow
      obtain ⟨-, rfl⟩ := Prod.mk.inj heq
      exact .inr ⟨p, hp, a, rfl, rfl, hcond.2, fun q =>
        (hlast q).trans (header_initMemblock hinit q)⟩
  · rename_i hcond
    obtain ⟨rfl, rfl⟩ := Prod.mk.inj (Option.some.inj hgrow)
    exact .inl ⟨by rw [if_neg hcond], hlast⟩

theorem newZone_converges (zone : Option Nat) (hc : PoolChain s ps) (hne : ps ≠ []) :
    ∃ got, Converges (fun fuel => newZone fuel s zone) got := by
  unfold newZone
  by_cases hfull : s.maxNum ≠ -1 ∧ s.maxNum ≤ s.allocedNum
  · exact ⟨none, (Converges.pure _).congr fun fuel => if_pos hfull⟩
  obtain ⟨p₀, hp₀⟩ : ∃ p₀, s.mpMpool = some p₀ := by
    cases ps with
    | nil => exact absurd rfl hne
    | cons p₀ ps => exact ⟨p₀, hc.1⟩
  unfold PoolChain at hc
  rw [hp₀] at hc
  obtain ⟨q, -, hfind, -⟩ := findPool_spec hc
  refine ⟨_, ((Converges.of_lt hfind).map fun p =>
    if (s.pool p).freehead = none ∧ (s.pool p).next = none then zone else none).congr
      fun fuel => ?_⟩
  rw [if_neg hfull, hp₀]
  rfl

/-- header が同じなら、列も同じである。 -/
theorem PoolChain.of_header (hc : PoolChain s ps) (hmp : s'.mpMpool = s.mpMpool)
    (hheader : ∀ q, header s' q = header s q) : PoolChain s' ps := by
  unfold PoolChain at hc ⊢
  rw [hmp]
  exact hc.congr fun q _ => congrArg Prod.fst (hheader q)

theorem offT_of_header {q : Nat} (h : header s' q = header s q) :
    (s'.pool q).offT = (s.pool q).offT := congrArg (fun x => x.2.2) h

/-- 新しい領域の pool は列の末尾に繋がり、ほかの header は変わらない。 -/
theorem header_linked (h : SlabOk s ps free used) (hp : p ∈ ps) (hlast : (s.pool p).next = none)
    (hfresh : Fresh s a) (hfits : Fits s a) (hmp : s'.mpMpool = s.mpMpool)
    (hheader : ∀ q, header s' q = header (linked s p a) q) :
    PoolChain s' (ps ++ [alignPtr a 64]) ∧
      (∀ q ∈ ps, (s'.pool q).offT = (s.pool q).offT) ∧
      alignPtr a 64 - (s'.pool (alignPtr a 64)).offT = a := by
  obtain ⟨-, -, -, -, hnot, -⟩ := h.grow hp hlast hfresh hfits
  have hqp : alignPtr a 64 ≠ p := fun heq => hnot (heq ▸ hp)
  have hnew := newPool_pool hfits h.poolsize
  have hq : header s' (alignPtr a 64) = (none, s.poolsize - (alignPtr a 64 - a), alignPtr a 64 - a) := by
    rw [hheader]
    simp [header, linked, hqp, hnew]
  have hold : ∀ q ∈ ps, header s' q =
      (if q = p then some (alignPtr a 64) else (s.pool q).next, (s.pool q).length,
        (s.pool q).offT) := by
    intro q hq
    have hne : q ≠ alignPtr a 64 := fun heq => hnot (heq ▸ hq)
    rw [hheader]
    by_cases hqp' : q = p
    · subst hqp'
      simp [header, linked, hnew, hne]
    · simp [header, linked, hqp', hnew, hne]
  refine ⟨?_, fun q hq => congrArg (fun x => x.2.2) (hold q hq), ?_⟩
  · unfold PoolChain
    rw [hmp]
    refine Chain.snoc h.chain h.nonempty h.nodup (fun q hq => ?_) (congrArg Prod.fst hq)
    rw [show (s'.pool q).next = _ from congrArg Prod.fst (hold q hq)]
    simp only [h.chain.getLast_eq hp hlast, Option.some.injEq, eq_comm]
  · have hoff : (s'.pool (alignPtr a 64)).offT = alignPtr a 64 - a :=
      congrArg (fun x => x.2.2) hq
    obtain ⟨hle, -⟩ := alignPtr_bounds a
    omega

/-! ## 領域を数える run -/

/-- `zones` は、`new_zone` から得た領域の番地を、得た順に並べたもの。 -/
structure Zoned where
  machine : Machine
  zones : List Nat

namespace Zoned

def Able (z : Zoned) (act : Act) : Prop := Allowed z.machine act ∧ Counts z.machine act

def step (fuel : Nat) (z : Zoned) : Act → Option Zoned
  | .alloc zone =>
    (MemPool.step fuel z.machine (.alloc zone)).bind fun m =>
      (newZone fuel z.machine.slab zone).map fun got => ⟨m, z.zones ++ got.toList⟩
  | .free data => (MemPool.step fuel z.machine (.free data)).map fun m => ⟨m, z.zones⟩

/-- pool の列は得た領域の列に対応し、領域は重ならない。 -/
structure Ok (z : Zoned) (ps : List Nat) : Prop where
  partition : ∃ free used, Partition z.machine ps free used
  zones : z.zones = ps.map fun p => p - (z.machine.slab.pool p).offT
  apart : z.zones.Pairwise fun a b =>
    a + z.machine.slab.poolsize ≤ b ∨ b + z.machine.slab.poolsize ≤ a

variable {z z' : Zoned} {act : Act} {acts : List Act}

/-- 渡した block を返しても、header は変わらない。 -/
theorem header_slabFree {data : Nat} (h : s.slabFree data = some s') (q : Nat) :
    header s' q = header s q := by
  obtain ⟨p, -, rfl⟩ := Option.map_eq_some_iff.mp h
  unfold header
  rw [release_pool]
  split
  · rename_i heq
    rw [heq]
  · rfl

/-- 領域を取らない一手は、対応を変えない。 -/
theorem Ok.keep (h : z.Ok ps) {m : Machine} {ps' : List Nat} {free' used' : Nat → List Nat}
    (hpart : Partition m ps' free' used') (hfields : z.machine.slab.SameFields m.slab)
    (hheader : ∀ q, header m.slab q = header z.machine.slab q) : Ok ⟨m, z.zones⟩ ps := by
  obtain ⟨free, used, hpart₀⟩ := h.partition
  obtain rfl := (hpart₀.ok.chain.of_header hfields.1 hheader).unique hpart.ok.chain
  refine ⟨⟨_, _, hpart⟩, ?_, ?_⟩
  · rw [h.zones]
    exact List.map_congr_left fun p _ => by rw [offT_of_header (hheader p)]
  · rw [hfields.2.2.2.1]
    exact h.apart

/-- 取った領域は、前からの領域と重ならない。 -/
theorem Ok.grow (h : z.Ok ps) {m : Machine} {ps' : List Nat} {free' used' : Nat → List Nat}
    (hpart : Partition m ps' free' used') (hfields : z.machine.slab.SameFields m.slab)
    (hp : p ∈ ps) (hlast : (z.machine.slab.pool p).next = none) (hfresh : Fresh z.machine.slab a)
    (hfits : Fits z.machine.slab a)
    (hheader : ∀ q, header m.slab q = header (linked z.machine.slab p a) q) :
    Ok ⟨m, z.zones ++ [a]⟩ (ps ++ [alignPtr a 64]) := by
  obtain ⟨free, used, hpart₀⟩ := h.partition
  obtain ⟨hchain, hoff, hnew⟩ := header_linked hpart₀.ok hp hlast hfresh hfits hfields.1 hheader
  obtain rfl := hchain.unique hpart.ok.chain
  refine ⟨⟨_, _, hpart⟩, ?_, ?_⟩
  · rw [h.zones, List.map_append, List.map_singleton, hnew]
    exact congrArg (· ++ [a]) (List.map_congr_left fun q hq => by rw [hoff q hq])
  · rw [hfields.2.2.2.1]
    refine List.pairwise_append.mpr ⟨h.apart, List.pairwise_singleton _ _, ?_⟩
    intro b hb c hc
    obtain rfl := List.mem_singleton.mp hc
    rw [h.zones] at hb
    obtain ⟨q, hq, rfl⟩ := List.mem_map.mp hb
    obtain ⟨hle, hlen, -⟩ := hpart₀.ok.zone q hq
    rcases hfresh ps hpart₀.ok.chain q hq with hfar | hfar <;> omega

/-- **一手は必ず終わり、pool の列と領域の列の対応を保つ。** -/
theorem Ok.step (h : z.Ok ps) (hable : z.Able act) :
    ∃ z' ps', Converges (fun fuel => z.step fuel act) z' ∧ z'.Ok ps' ∧
      z.machine.slab.SameFields z'.machine.slab ∧ z.zones <+: z'.zones := by
  obtain ⟨free, used, hpart⟩ := h.partition
  obtain ⟨m, ps', free', used', hconv, hpart', hfields⟩ := hpart.step hable.1 hable.2
  cases act with
  | free data =>
    obtain ⟨enough, henough⟩ := hconv
    obtain ⟨s', hfree, rfl⟩ := Option.map_eq_some_iff.mp (henough enough le_rfl)
    have hstep : Converges (fun fuel => z.step fuel (.free data)) ⟨_, z.zones⟩ :=
      Converges.map _ ⟨enough, henough⟩
    exact ⟨_, ps, hstep, h.keep hpart' hfields (header_slabFree hfree), hfields, List.prefix_rfl⟩
  | alloc zone =>
    obtain ⟨got, hgot⟩ := newZone_converges zone hpart.ok.chain hpart.ok.nonempty
    have hzones : Converges (fun fuel => (newZone fuel z.machine.slab zone).map fun got : Option Nat =>
        (⟨m, z.zones ++ got.toList⟩ : Zoned)) ⟨m, z.zones ++ got.toList⟩ := hgot.map _
    have hstep : Converges (fun fuel => z.step fuel (.alloc zone)) ⟨m, z.zones ++ got.toList⟩ :=
      Converges.bind (g := fun m fuel => (newZone fuel z.machine.slab zone).map fun got : Option Nat =>
        (⟨m, z.zones ++ got.toList⟩ : Zoned)) hconv hzones
    -- 同じ燃料での run を開いて、領域を取ったかどうかで分ける。
    obtain ⟨n, hn⟩ := hconv
    obtain ⟨k, hk⟩ := hgot
    obtain ⟨⟨r, s'⟩, hrun, rfl⟩ := Option.map_eq_some_iff.mp (hn (max n k) (le_max_left n k))
    have hgot := hk (max n k) (le_max_right n k)
    rcases header_slabAlloc hpart.ok.chain hrun with
      ⟨hnone, hheader⟩ | ⟨p, hp, a, rfl, hsome, hlast, hheader⟩
    · obtain rfl := Option.some.inj (hgot.symm.trans hnone)
      refine ⟨_, ps, hstep, ?_, hfields, List.prefix_append _ _⟩
      simpa using h.keep hpart' hfields hheader
    · obtain rfl := Option.some.inj (hgot.symm.trans hsome)
      obtain ⟨hfresh, hfits⟩ := hable.1 a rfl
      exact ⟨_, _, hstep, h.grow hpart' hfields hp hlast hfresh hfits hheader, hfields,
        List.prefix_append _ _⟩

theorem Ok.runs (h : z.Ok ps) (hrun : FuelRuns Able Zoned.step z acts z') :
    ∃ ps', z'.Ok ps' ∧ z.machine.slab.SameFields z'.machine.slab ∧ z.zones <+: z'.zones := by
  refine FuelRuns.invariant (I := fun t => ∃ ps', Ok t ps' ∧
      z.machine.slab.SameFields t.machine.slab ∧ z.zones <+: t.zones) (fun t act ht hable => ?_) hrun
    ⟨ps, h, ⟨rfl, rfl, rfl, rfl, rfl⟩, List.prefix_rfl⟩
  obtain ⟨ps₁, h₁, hfields₁, hzones₁⟩ := ht
  obtain ⟨t', ps', hstep, h', hfields, hzones⟩ := h₁.step hable
  exact ⟨t', hstep, ps', h', hfields₁.trans hfields, hzones₁.trans hzones⟩

end Zoned

/-! ## 構築と解体 -/

theorem initBlocks_mpMpool {ul length pos offs : Nat} {mbpre : Option Nat}
    (h : Slab.initBlocks ul length fuel s pos mbpre offs = some s') : s'.mpMpool = s.mpMpool := by
  induction fuel generalizing s pos mbpre offs with
  | zero => cases h
  | succ fuel ih =>
    unfold Slab.initBlocks at h
    split at h
    · have hrest : Slab.initBlocks ul length fuel (placeBlock s pos mbpre) (pos + ul) (some pos)
          ((offs + ul) % 2 ^ 32) = some s' := h
      have hmp := ih hrest
      rw [placeBlock_eq] at hmp
      exact hmp
    · exact Option.some.inj h ▸ rfl

/-- 構築子の後の列は、初めの領域の pool だけである。 -/
theorem construct_chain (hfits : Fits s a) (hsize : s.poolsize < 2 ^ 32)
    (h : s.construct fuel (some a) = some s') :
    PoolChain s' [alignPtr a 64] ∧ alignPtr a 64 - (s'.pool (alignPtr a 64)).offT = a := by
  have hnew := newPool_pool hfits hsize (alignPtr a 64)
  rw [if_pos rfl] at hnew
  have hinit : Slab.initMemblock fuel
      { (s.newPool s.poolsize a).2 with mpMpool := some (alignPtr a 64) } (alignPtr a 64) s.mbsize =
        some s' := h
  have hheader := header_initMemblock hinit (alignPtr a 64)
  unfold header at hheader
  simp only [hnew, Prod.mk.injEq] at hheader
  obtain ⟨t, hloop, rfl⟩ := Option.map_eq_some_iff.mp hinit
  have hmp := initBlocks_mpMpool hloop
  obtain ⟨hle, -⟩ := alignPtr_bounds a
  refine ⟨⟨hmp, hheader.1⟩, ?_⟩
  rw [hheader.2.2]
  omega

/-- 構築子の後は、初めの領域だけが得られている。 -/
theorem construct_zoned (hzero : s.allocedNum = 0)
    (hlimit : s.maxNum = -1 ∨ (0 ≤ s.maxNum ∧ s.maxNum < 2 ^ 31)) (hmb : 0 < s.mbsize)
    (hsize : s.poolsize < 2 ^ 32) (hfits : Fits s a)
    (h : Converges (fun fuel => s.construct fuel (some a)) s') :
    Zoned.Ok ⟨⟨s', []⟩, [a]⟩ [alignPtr a 64] := by
  obtain ⟨s₁, ps, free, hs₁, hok, -⟩ := construct_spec hzero hlimit hmb hsize hfits
  obtain rfl := h.unique hs₁
  obtain ⟨n, hn⟩ := h
  obtain ⟨hchain, hzone⟩ := construct_chain hfits hsize (hn n le_rfl)
  obtain rfl := hchain.unique hok.chain
  exact ⟨⟨free, fun _ => [], hok, by simp⟩, by simp [hzone], List.pairwise_singleton _ _⟩

/-- 解体の loop は、列の pool の領域を順に手放す。 -/
theorem destroyFrom_spec {h : Option Nat} (hc : Chain (fun p => (s.pool p).next) h ps) :
    ∀ fuel, ps.length < fuel →
      s.destroyFrom fuel h = some (ps.map fun p => p - (s.pool p).offT) := by
  induction ps generalizing h with
  | nil =>
    obtain rfl : h = none := hc
    intro fuel hfuel
    obtain ⟨f, rfl⟩ : ∃ f, fuel = f + 1 := ⟨fuel - 1, by omega⟩
    rfl
  | cons p ps ih =>
    obtain ⟨rfl, htail⟩ := hc
    intro fuel hfuel
    obtain ⟨f, rfl⟩ : ∃ f, fuel = f + 1 := ⟨fuel - 1, by omega⟩
    rw [List.length_cons] at hfuel
    rw [Slab.destroyFrom, ih htail f (by omega)]
    rfl

/--
**どの run の後でも、解体は `new_zone` から得た領域をちょうど一度ずつ、得た順に `delete_zone` に渡す。**

得た領域は互いに重ならず、一度も手放されないまま解体に至る。解体の後の `mp_mpool` は `NULL` である。
-/
theorem destroy_deletes_zones (pool : Nat → Mempool) (block : Nat → Memblock)
    (blockSize poolSize : Nat) (num : Option Nat) (hnum : ∀ n, num = some n → 1 ≤ n ∧ n < 2 ^ 31)
    (hsize : sizeofMemblock ≤ (Slab.initial pool block blockSize poolSize num).mbsize) (a : Nat)
    (hfits : Fits (.initial pool block blockSize poolSize num) a) (s : Slab)
    (hs : Converges (fun fuel =>
      (Slab.initial pool block blockSize poolSize num).construct fuel (some a)) s)
    (acts : List Act) (z : Zoned)
    (hrun : FuelRuns Zoned.Able Zoned.step ⟨⟨s, []⟩, [a]⟩ acts z) :
    Converges (fun fuel => z.machine.slab.destroy fuel)
        (z.zones, { z.machine.slab with mpMpool := none }) ∧
      [a] <+: z.zones ∧ z.zones.Nodup ∧
      z.zones.Pairwise fun b c => b + z.machine.slab.poolsize ≤ c ∨
        c + z.machine.slab.poolsize ≤ b := by
  have hlt : (Slab.initial pool block blockSize poolSize num).poolsize < 2 ^ 32 :=
    alignU32_lt poolSize 4096
  have h₀ := construct_zoned rfl (initial_limit hnum) (lt_of_lt_of_le (by decide) hsize) hlt hfits hs
  obtain ⟨ps, h, -, hzones⟩ := h₀.runs hrun
  obtain ⟨free, used, hpart⟩ := h.partition
  have hpos : 0 < z.machine.slab.poolsize := by
    obtain ⟨p, hp⟩ := List.exists_mem_of_ne_nil _ hpart.ok.nonempty
    have hlen := hpart.ok.zone p hp
    have hmb := hpart.ok.mbsize
    omega
  refine ⟨?_, hzones, h.apart.imp fun hfar => by omega, h.apart⟩
  rw [h.zones]
  exact (Converges.of_lt (destroyFrom_spec hpart.ok.chain)).map fun as =>
    (as, { z.machine.slab with mpMpool := none })

/-! ## 領域を足す run -/

namespace Zoned

/-- `Able` を、得た領域の列で調べる。 -/
def Ready (z : Zoned) : Act → Prop
  | .alloc zone =>
    (∀ a ∈ zone, (∀ b ∈ z.zones, a + z.machine.slab.poolsize ≤ b ∨
        b + z.machine.slab.poolsize ≤ a) ∧
      sizeofMempool + z.machine.slab.mbsize + (alignPtr a 64 - a) ≤ z.machine.slab.poolsize) ∧
    (z.machine.slab.maxNum = -1 → z.machine.slab.allocedNum < 2 ^ 31 - 1)
  | .free data => data ∈ z.machine.out

instance (z : Zoned) : (act : Act) → Decidable (z.Ready act)
  | .alloc _ => inferInstanceAs (Decidable (_ ∧ _))
  | .free _ => inferInstanceAs (Decidable (_ ∈ _))

/-- 得た領域のどれとも重ならない領域は新しい。 -/
theorem Ok.able {z : Zoned} {act : Act} (h : z.Ok ps) (hready : z.Ready act) : z.Able act := by
  cases act with
  | free data => exact ⟨hready, trivial⟩
  | alloc zone =>
    refine ⟨fun a hzone => ⟨fun ps' hc p hp => ?_, (hready.1 a hzone).2⟩, hready.2⟩
    obtain ⟨free, used, hpart⟩ := h.partition
    obtain rfl := hc.unique hpart.ok.chain
    obtain ⟨hle, hlen, -⟩ := hpart.ok.zone p hp
    have hmem : p - (z.machine.slab.pool p).offT ∈ z.zones := by
      rw [h.zones]
      exact List.mem_map_of_mem hp
    have hfar := (hready.1 a hzone).1 _ hmem
    omega

theorem Ok.able_runs {z z' : Zoned} {acts : List Act} (h : z.Ok ps)
    (hrun : FuelRuns Ready Zoned.step z acts z') : FuelRuns Able Zoned.step z acts z' := by
  refine FuelRuns.imp (I := fun t => ∃ ps, Ok t ps) (fun t act ht hready => ?_) hrun ⟨ps, h⟩
  obtain ⟨ps', ht⟩ := ht
  obtain ⟨t', ps'', hstep, ht', -⟩ := ht.step (ht.able hready)
  exact ⟨ht.able hready, t', hstep, ps'', ht'⟩

theorem step_steady (z : Zoned) (act : Act) : Steady fun fuel => z.step fuel act := by
  cases act with
  | alloc zone =>
    refine ((slabAlloc_steady _ zone).map _).bind fun m => Steady.map ?_ _
    unfold newZone
    split
    · exact .const _
    · exact (Steady.const _).bind fun p => (findPool_steady _ p).map _
  | free data => exact (Steady.const ((z.machine.slab.slabFree data).map _)).map _

end Zoned

/-- 一つの領域に、2048 byte の block が一つだけ入る。 -/
def single : Slab :=
  .initial (fun _ => ⟨none, none, none, 0, 0⟩) (fun _ => ⟨none, none, none⟩) 2048 4096 (some 2)

/-- 二つ目の block のために領域をもう一つ取り、初めの block を返してから解体する。 -/
theorem destroy_after_second_zone :
    ∃ s z, Converges (fun fuel => single.construct fuel (some 4096)) s ∧
      FuelRuns Zoned.Able Zoned.step ⟨⟨s, []⟩, [4096]⟩
        [.alloc none, .alloc (some 8192), .free 4152] z ∧
      z.zones = [4096, 8192] ∧ z.machine.out = [8248] ∧
      Converges (fun fuel => z.machine.slab.destroy fuel)
        ([4096, 8192], { z.machine.slab with mpMpool := none }) := by
  have hfits : Fits single 4096 := by
    unfold Fits
    decide
  have hnum : ∀ n, some 2 = some n → 1 ≤ n ∧ n < 2 ^ 31 := by
    rintro n ⟨⟩
    decide
  have hfold : ((single.construct 9 (some 4096)).bind fun s =>
      (execRun Zoned.Ready Zoned.step 9 ⟨⟨s, []⟩, [4096]⟩
        [.alloc none, .alloc (some 8192), .free 4152]).map fun z => (z.zones, z.machine.out)) =
      some ([4096, 8192], [8248]) := by
    decide +kernel
  obtain ⟨s, hs, hrest⟩ := Option.bind_eq_some_iff.mp hfold
  obtain ⟨z, hz, hout⟩ := Option.map_eq_some_iff.mp hrest
  obtain ⟨hzones, hout⟩ := Prod.mk.inj hout
  have hconv := (construct_steady single (some 4096)).converges hs
  have h₀ := construct_zoned rfl (initial_limit hnum) (by decide) (by decide) hfits hconv
  have hrun := h₀.able_runs (FuelRuns.of_execRun Zoned.step_steady hz)
  have hdestroy := (destroy_deletes_zones _ _ 2048 4096 (some 2) hnum (by decide) 4096 hfits s hconv
    _ z hrun).1
  rw [hzones] at hdestroy
  exact ⟨s, z, hconv, hrun, hzones, hout, hdestroy⟩

end RecordServer.MemPool
