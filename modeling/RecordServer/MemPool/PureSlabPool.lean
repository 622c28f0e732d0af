import RecordServer.Infra.Fuel
import RecordServer.MemPool.Align
import Mathlib.Algebra.Group.Int.Defs
import Mathlib.Data.Int.Basic
import Mathlib.Data.Nat.Log

/-!
# 大きさの段ごとの pool（`pure_slab_pool.cpp`）

段 `i` の block は、data が `alignedsize << i` byte、その前に `MB` の header を持つ。段ごとに、`malloc` で
取った領域を同じ大きさの block に切った pool の列を持つ。

block は、pool の空きの列か使用中の列に番地で置く。`malloc` の結果は外から渡す。取れなければ process が
終わるので、`none` を返す。loop は燃料を受け取り、足りないときも `none` を返す。
-/

namespace RecordServer.MemPool.SlabPool

open Infra

/-- `sizeof(MB)`。 -/
def sizeofMB : Nat := 24

/-- `sizeof(MP)`。 -/
def sizeofMP : Nat := 32

/-- `mempool`。二つの list は、先頭からの順に並べる。 -/
structure MP where
  addr : Int
  len : Int
  freehead : List Int
  usedhead : List Int
deriving DecidableEq, Repr

/-- `pure_slab_pool` の field。配列は、添字からの関数で表す。 -/
structure Pool where
  lvl : Nat
  mbsize : Nat → Nat
  initialsize : Nat → Nat
  poolsize : Nat → Nat
  /-- 段ごとの、`next` で繋いだ pool の列。 -/
  pmpool : Nat → List MP

/-! ## pool を作る -/

/-- `InitMemblock` の loop が並べる block。 -/
def initBlocks (ul len : Int) : Nat → Int → Nat → Option (List Int)
  | 0, _, _ => none
  | fuel + 1, pos, offs =>
    if (offs : Int) ≤ (len - ul) % 2 ^ 32 then
      (initBlocks ul len fuel (pos + ul) ((offs + ul) % 2 ^ 32).toNat).map (pos :: ·)
    else some []

/-- `CreatePool` と `InitMemblock`。0 で埋めた領域なので、block が無ければ空きは `pos` だけになる。 -/
def createPool (fuel : Nat) (l ul : Nat) (zone : Option Int) : Option MP :=
  zone.bind fun a =>
    let len := Int.bmod l (2 ^ 32)
    let pos := a + sizeofMP
    (initBlocks (Int.bmod ul (2 ^ 32)) len fuel pos sizeofMP).map fun blocks =>
      { addr := a
        len := len
        freehead := if blocks = [] then [pos] else blocks
        usedhead := [] }

/-- 構築子が決める大きさ。 -/
def initial (size ilvl : Nat) : Pool :=
  let alignedsize := alignU32 size 8
  let mbsize := fun i => (alignedsize <<< i % 2 ^ 32 + sizeofMB) % 2 ^ 32
  let initialsize := fun i => alignU32 (mbsize i) 16 <<< 6 % 2 ^ 32
  { lvl := ilvl
    mbsize := mbsize
    initialsize := initialsize
    poolsize := initialsize
    pmpool := fun _ => [] }

/-- 段 `n` の手前までの pool を作る。 -/
def createPools (fuel : Nat) (s : Pool) (zone : Nat → Option Int) : Nat → Option (Nat → List MP)
  | 0 => some s.pmpool
  | n + 1 =>
    (createPools fuel s zone n).bind fun pools =>
      (createPool fuel (s.initialsize n) (s.mbsize n) (zone n)).map fun mp =>
        Function.update pools n [mp]

/-- 構築子。 -/
def construct (fuel : Nat) (size ilvl : Nat) (zone : Nat → Option Int) : Option Pool :=
  let s := initial size ilvl
  (createPools fuel s zone (s.lvl + 1)).map fun pools => { s with pmpool := pools }

/-! ## 割り当て -/

/-- 空きの先頭の block を、使用中の列の先頭に移す。 -/
def MP.take (p : MP) : Option (Int × MP) :=
  match p.freehead with
  | [] => none
  | b :: rest => some (b, { p with freehead := rest, usedhead := b :: p.usedhead })

/-- 空きのある最初の pool から取る。無ければ末尾に新しい pool を足して、そこから取る。 -/
def takeFirst (create : Option MP) : List MP → Option (Int × List MP)
  | [] => none
  | [p] =>
    match p.take with
    | some (b, p) => some (b, [p])
    | none => (create.bind MP.take).map fun (b, q) => (b, [p, q])
  | p :: q :: rest =>
    match p.take with
    | some (b, p) => some (b, p :: q :: rest)
    | none => (takeFirst create (q :: rest)).map fun (b, chain) => (b, p :: chain)

def mpAlloc (fuel : Nat) (s : Pool) (ilvl : Nat) (zone : Option Int) : Option (Int × Pool) :=
  (takeFirst (createPool fuel (s.poolsize ilvl) (s.mbsize ilvl) zone) (s.pmpool ilvl)).map
    fun (b, chain) => (b + sizeofMB, { s with pmpool := Function.update s.pmpool ilvl chain })

/-- `l` byte のための段。`bsr` は最上位の bit の位置である。 -/
def allocLevel (s : Pool) (l : Nat) : Nat :=
  let i := (l + sizeofMB - 1) / s.mbsize 0
  if 0 < i then i.log2 else 0

/-- 段が `lvl` を越えれば `NULL` を返す。 -/
def alloc (fuel : Nat) (s : Pool) (l : Nat) (zone : Option Int) : Option (Option Int × Pool) :=
  let bitp := allocLevel s l
  if s.lvl < bitp then some (none, s)
  else (mpAlloc fuel s bitp zone).map fun (p, s) => (some p, s)

end RecordServer.MemPool.SlabPool
