import RecordServer.Infra.DList
import RecordServer.Infra.Fuel
import RecordServer.MemPool.Align
import Mathlib.Logic.Function.Basic
import Mathlib.Data.Int.Basic

/-!
# 固定長の block の pool（`pure_slab.cpp`）

`new_zone` で取った領域ごとに `mempool` の header を置き、残りを同じ大きさの block に切る。block は、
空きの list か使用中の list のどちらかに、自分の中の `pre`・`next` で繋がる。

番地は `Nat`、`NULL` は `none` で表す。`new_zone` の結果は外から渡す。loop は燃料を受け取り、
足りないときと、`NULL` を辿ったときは `none` を返す。
-/

namespace RecordServer.MemPool

open Infra

/-- `sizeof(mempool)`。 -/
def sizeofMempool : Nat := 32

/-- `sizeof(memblock)`。 -/
def sizeofMemblock : Nat := 24

/-- `memblock` の header。 -/
structure Memblock where
  pre : Option Nat
  next : Option Nat
  mp : Option Nat
deriving DecidableEq, Repr

structure Mempool where
  next : Option Nat
  usedhead : Option Nat
  freehead : Option Nat
  length : Nat
  offT : Nat
deriving DecidableEq, Repr

/-- `pure_slab` の field と、pool と block の置かれた memory。 -/
structure Slab where
  pool : Nat → Mempool
  block : Nat → Memblock
  mpMpool : Option Nat
  maxNum : Int
  allocedNum : Int
  mbsize : Nat
  poolsize : Nat
  alignedsize : Nat

namespace Slab

def modifyPool (s : Slab) (p : Nat) (f : Mempool → Mempool) : Slab :=
  { s with pool := Function.update s.pool p (f (s.pool p)) }

def modifyBlock (s : Slab) (b : Nat) (f : Memblock → Memblock) : Slab :=
  { s with block := Function.update s.block b (f (s.block b)) }

/-- `NULL` でなければ書き換える。 -/
def modifyBlockOpt (s : Slab) (b : Option Nat) (f : Memblock → Memblock) : Slab :=
  match b with
  | none => s
  | some b => s.modifyBlock b f

/-! ## pool を作る -/

/-- `new_zone` が返した `a` から `l` byte の、0 で埋まった領域に header を置く。 -/
def newPool (s : Slab) (l : Nat) (a : Nat) : Nat × Slab :=
  let mp := alignPtr a 64
  (mp,
    { s with
      block := fun b => if a ≤ b ∧ b < a + l then ⟨none, none, none⟩ else s.block b
      pool := Function.update s.pool mp
        { next := none, usedhead := none, freehead := none, length := subU32 l (mp - a),
          offT := mp - a } })

def creatMempool (s : Slab) (p : Option Nat) (l : Nat) (zone : Option Nat) : Option Nat × Slab :=
  match p with
  | none =>
    match zone with
    | none => (none, s)
    | some a =>
      let (mp, s) := s.newPool l a
      (some mp, s)
  | some p =>
    if (s.pool p).next = none then
      match zone with
      | none => (none, s)
      | some a =>
        let (mp, s) := s.newPool l a
        (some mp, s.modifyPool p fun m => { m with next := some mp })
    else (none, s)

/-- `init_memblock` の loop。 -/
def initBlocks (ul length : Nat) : Nat → Slab → Nat → Option Nat → Nat → Option Slab
  | 0, _, _, _, _ => none
  | fuel + 1, s, pos, mbpre, offs =>
    if offs ≤ subU32 length ul then
      let s := s.modifyBlock pos fun b => { b with pre := mbpre }
      let s := s.modifyBlockOpt mbpre fun b => { b with next := some pos }
      let s := s.modifyBlock pos fun b => { b with next := none }
      initBlocks ul length fuel s (pos + ul) (some pos) ((offs + ul) % 2 ^ 32)
    else some s

/-- `init_memblock`。後半の loop は list を辿るだけなので省く。 -/
def initMemblock (fuel : Nat) (s : Slab) (p : Nat) (ul : Nat) : Option Slab :=
  let mpalignsize := alignU32 sizeofMempool 8
  let s := s.modifyPool p fun m => { m with freehead := some (p + mpalignsize) }
  (initBlocks ul (s.pool p).length fuel s (p + mpalignsize) none mpalignsize).map fun s =>
    s.modifyPool p fun m => { m with usedhead := none }

/-- 構築子が大きさを決めたところ。上限 `num` を渡さない構築子では `m_max_num` は `-1` になる。 -/
def initial (pool : Nat → Mempool) (block : Nat → Memblock) (blockSize poolSize : Nat)
    (num : Option Nat) : Slab where
  pool := pool
  block := block
  mpMpool := none
  maxNum := match num with | none => -1 | some n => Int.bmod n (2 ^ 32)
  allocedNum := 0
  mbsize := (alignU32 blockSize 8 + alignU32 sizeofMemblock 8) % 2 ^ 32
  poolsize := alignU32 poolSize 4096
  alignedsize := alignU32 sizeofMemblock 8

/-- 構築子。`s` は `initial` の状態である。領域が取れなければ `mp_mpool` は `NULL` のまま残る。 -/
def construct (fuel : Nat) (s : Slab) (zone : Option Nat) : Option Slab :=
  match s.creatMempool none s.poolsize zone with
  | (none, s) => some s
  | (some mp, s) => initMemblock fuel { s with mpMpool := some mp } mp s.mbsize

/-! ## 割り当て -/

/-- 空きのある pool を探す loop。無ければ最後の pool に着く。 -/
def findPool (s : Slab) : Nat → Nat → Option Nat
  | 0, _ => none
  | fuel + 1, p =>
    match (s.pool p).next with
    | none => some p
    | some q => if (s.pool p).freehead = none then findPool s fuel q else some p

/-- 見つかった pool に空きが無ければ、新しい pool を作る。作れなければ `none` を返す。 -/
def growPool (fuel : Nat) (s : Slab) (p : Nat) (zone : Option Nat) : Option (Option Nat × Slab) :=
  if (s.pool p).freehead = none ∧ (s.pool p).next = none then
    match s.creatMempool (some p) s.poolsize zone with
    | (none, s) => some (none, s)
    | (some q, s) => (initMemblock fuel s q s.mbsize).map fun s => (some q, s)
  else some (some p, s)

/-- 空きの先頭の block `b` を、使用中の list の先頭に移す。 -/
def takeBlock (s : Slab) (p b : Nat) : Slab :=
  let s := s.modifyPool p fun m => { m with freehead := (s.block b).next }
  let s := s.modifyBlockOpt (s.pool p).freehead fun f => { f with pre := none }
  let s := s.modifyBlock b fun x => { x with mp := some p }
  let s := s.modifyBlockOpt (s.pool p).usedhead fun u => { u with pre := some b }
  let s := s.modifyBlock b fun x => { x with next := (s.pool p).usedhead }
  let s := s.modifyPool p fun m => { m with usedhead := some b }
  let s := s.modifyBlock b fun x => { x with pre := none }
  { s with allocedNum := Int.bmod (s.allocedNum + 1) (2 ^ 32) }

/-- pool の空きの先頭を渡す。pool が無ければ `NULL` を返す。 -/
def finishAlloc (r : Option Nat × Slab) : Option (Option Nat × Slab) :=
  match r.1 with
  | none => some (none, r.2)
  | some p => (r.2.pool p).freehead.map fun b => (some (b + r.2.alignedsize), r.2.takeBlock p b)

/-- 返った番地（`NULL` なら `none`）と、後の状態。 -/
def mempoolAlloc (fuel : Nat) (s : Slab) (p : Option Nat) (zone : Option Nat) :
    Option (Option Nat × Slab) :=
  if s.maxNum ≠ -1 ∧ s.maxNum ≤ s.allocedNum then some (none, s)
  else
    p.bind fun p =>
      (s.findPool fuel p).bind fun p => (s.growPool fuel p zone).bind finishAlloc

def slabAlloc (fuel : Nat) (s : Slab) (zone : Option Nat) : Option (Option Nat × Slab) :=
  s.mempoolAlloc fuel s.mpMpool zone

/-! ## 解放 -/

/-- block `b` を使用中の list から外す。 -/
def unlinkUsed (s : Slab) (p b : Nat) : Slab :=
  match (s.block b).pre with
  | some q =>
    let s := s.modifyBlock q fun x => { x with next := (s.block b).next }
    s.modifyBlockOpt (s.block b).next fun x => { x with pre := (s.block b).pre }
  | none =>
    let s := s.modifyPool p fun m => { m with usedhead := (s.block b).next }
    s.modifyBlockOpt (s.pool p).usedhead fun x => { x with pre := none }

/-- block `b` を空きの list の先頭に足す。 -/
def pushFree (s : Slab) (p b : Nat) : Slab :=
  let s := s.modifyBlockOpt (s.pool p).freehead fun x => { x with pre := some b }
  let s := s.modifyBlock b fun x => { x with pre := none }
  let s := s.modifyBlock b fun x => { x with next := (s.pool p).freehead }
  s.modifyPool p fun m => { m with freehead := some b }

def release (s : Slab) (p b : Nat) : Slab :=
  let s := s.unlinkUsed p b
  let s := s.pushFree p b
  { s with allocedNum := Int.bmod (s.allocedNum - 1) (2 ^ 32) }

/-- `mp` が `NULL` のときは `none`。 -/
def slabFree (s : Slab) (data : Nat) : Option Slab :=
  let pmb := data - s.alignedsize
  (s.block pmb).mp.map fun pmp => s.release pmp pmb

/-! ## 解体 -/

/-- `destroy` の loop。`delete_zone` に渡す番地を順に返す。pool を手放す前に `next` を読む。 -/
def destroyFrom (s : Slab) : Nat → Option Nat → Option (List Nat)
  | 0, _ => none
  | _ + 1, none => some []
  | fuel + 1, some pmp =>
    (destroyFrom s fuel (s.pool pmp).next).map fun as => (pmp - (s.pool pmp).offT) :: as

/-- 手放した領域の番地と、後の状態。 -/
def destroy (fuel : Nat) (s : Slab) : Option (List Nat × Slab) :=
  (s.destroyFrom fuel s.mpMpool).map fun as => (as, { s with mpMpool := none })

end Slab

end RecordServer.MemPool
