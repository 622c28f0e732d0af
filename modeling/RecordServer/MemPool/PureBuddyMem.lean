import RecordServer.MemPool.Align
import Mathlib.Logic.Function.Basic
import Mathlib.Data.Int.Basic
import Mathlib.Data.Nat.Log

/-!
# buddy 法の memory（`pure_buddy_mem.cpp`）

領域を 64 byte（`MIN_BLOCK_SIZE`）の `2 ^ order` 倍の block に分け、order ごとの `free_area` が、空いた
block の list と、隣り合う二つの block に一つずつの bit を持つ。order は 0 から 9（`MAX_ORDER`）まで。

block の番地は `block_start` から 64 byte を単位に数える。`free_area` は並んでいるので、何番目かで指す。
`Alloc` と `Free` は、lock の中の一区切りごとに分けて書き、間の状態を `BuddyCall` に置く。
-/

namespace RecordServer.MemPool

open Infra

/-- `sizeof(mem)`。 -/
def sizeofMem : Nat := 32

/-- `sizeof(b_block)`。 -/
def sizeofBuddyBlock : Nat := 24

/-- `sizeof(free_area)`。`pbmap` は 52 byte 目から始まる。 -/
def sizeofFreeArea : Nat := 56

/-- `buddy_block`。 -/
structure BuddyBlock where
  pre : Option Nat
  next : Option Nat
  freeArea : Nat
deriving DecidableEq, Repr

/-- `free_area_t`。`pbmap` は byte の列として読む。 -/
structure FreeArea where
  freelist : Option Nat
  order : Nat
  pbmap : Nat → Nat

/-- `CBuddymem` と `mem_t` の field と、`free_area` と block の置かれた memory。 -/
structure BuddyMem where
  freeStart : Nat
  blockStart : Nat
  alignAreaSize : Nat
  alignBlockSize : Nat
  area : Nat → FreeArea
  block : Nat → BuddyBlock

namespace BuddyMem

def modifyArea (s : BuddyMem) (k : Nat) (f : FreeArea → FreeArea) : BuddyMem :=
  { s with area := Function.update s.area k (f (s.area k)) }

def modifyBlock (s : BuddyMem) (b : Nat) (f : BuddyBlock → BuddyBlock) : BuddyMem :=
  { s with block := Function.update s.block b (f (s.block b)) }

/-- `NULL` でなければ書き換える。 -/
def modifyBlockOpt (s : BuddyMem) (b : Option Nat) (f : BuddyBlock → BuddyBlock) : BuddyMem :=
  match b with
  | none => s
  | some b => s.modifyBlock b f

/-! ## bit と list -/

/-- bit を反転し、新しい値を返す。 -/
def setBitmap (s : BuddyMem) (index fa : Nat) : Nat × BuddyMem :=
  let bitpos := index >>> ((s.area fa).order + 1) &&& 7
  let bytepos := index >>> ((s.area fa).order + 1 + 3)
  let byte := ((s.area fa).pbmap bytepos ^^^ 1 <<< bitpos) % 2 ^ 8
  (byte >>> bitpos &&& 1,
    s.modifyArea fa fun a => { a with pbmap := Function.update a.pbmap bytepos byte })

/-- block `b` を list の先頭に足す。 -/
def addBlock (s : BuddyMem) (b fa : Nat) : BuddyMem :=
  let tempb := (s.area fa).freelist
  let s := s.modifyBlockOpt tempb fun t => { t with pre := some b }
  let s := s.modifyArea fa fun a => { a with freelist := some b }
  s.modifyBlock b fun _ => { pre := none, next := tempb, freeArea := fa }

/-- 節 `t` の前後を繋ぐ。 -/
def unlink (s : BuddyMem) (t fa : Nat) : BuddyMem :=
  let s := if (s.area fa).freelist = some t then
    s.modifyArea fa fun a => { a with freelist := (s.block t).next } else s
  let s := s.modifyBlockOpt (s.block t).pre fun x => { x with next := (s.block t).next }
  s.modifyBlockOpt (s.block t).next fun x => { x with pre := (s.block t).pre }

/-- `del_block` の loop。見つからなければ `-1` を返す。 -/
def delFrom (s : BuddyMem) (b fa : Nat) : Nat → Option Nat → Option (Int × BuddyMem)
  | 0, _ => none
  | _ + 1, none => some (-1, s)
  | fuel + 1, some t =>
    if t = b then some (0, s.unlink t fa) else delFrom s b fa fuel (s.block t).next

def delBlock (fuel : Nat) (s : BuddyMem) (b fa : Nat) : Option (Int × BuddyMem) :=
  s.delFrom b fa fuel (s.area fa).freelist

/-! ## 初期化 -/

/-- 一つの order の block を、残り `remain` byte から取れるだけ並べる。残りと、次の block を返す。 -/
def carve (order : Nat) (s : BuddyMem) (remain pblock : Nat) : BuddyMem × Nat × Nat :=
  if 64 <<< order ≤ remain then
    let s := s.addBlock pblock order
    let s := (s.setBitmap pblock order).2
    carve order s (remain - 64 <<< order) (pblock + 1 <<< order)
  else (s, remain, pblock)
termination_by remain
decreasing_by
  have : 0 < 64 <<< order := by
    rw [Nat.shiftLeft_eq]
    exact Nat.mul_pos (by decide) (Nat.two_pow_pos order)
  omega

/-- `init_free` の loop。order の大きい方から並べる。 -/
def carveOrders : Nat → BuddyMem → Nat → Nat → BuddyMem
  | 0, s, _, _ => s
  | order + 1, s, remain, pblock =>
    let s := s.modifyArea order fun a => { a with order := order }
    let (s, remain, pblock) := carve order s remain pblock
    carveOrders order s remain pblock

/-- `free_start` から `remain` byte を初期化する。足りなければ `none`。 -/
def initFree (s : BuddyMem) (remain : Nat) : Option BuddyMem :=
  let bitamount := (remain / 64 + 15) >>> (3 + 1)
  let s := { s with alignAreaSize := alignU32 (sizeofFreeArea + bitamount) 64 }
  let areas := s.alignAreaSize * 10 % 2 ^ 32
  if remain < areas then none
  else
    let s := { s with
      area := fun k => if k ≤ 9 then ⟨none, 0, fun _ => 0⟩ else s.area k
      blockStart := s.freeStart + areas }
    some (carveOrders 10 s (remain - areas) 0)

/-- `b` から `l` byte の buffer を初期化する。使えなければ `none`。 -/
def initBuddyMem (s : BuddyMem) (b l : Nat) : Option BuddyMem :=
  let pm := alignPtr b 64
  if l < sizeofMem then none
  else
    let freeStart := alignPtr (pm + sizeofMem) 64
    let s := { s with
      freeStart := freeStart
      alignBlockSize := alignU32 sizeofBuddyBlock 8 }
    let remain := Int.bmod (l - (pm - b) - (freeStart - pm)) (2 ^ 32)
    if remain < 64 then none else s.initFree remain.toNat

/-! ## 割り当て -/

/-- block の番地を、呼ぶ側に渡す番地にする。 -/
def data (s : BuddyMem) (pb : Nat) : Nat := s.blockStart + 64 * pb + s.alignBlockSize

/-- 呼ぶ側の番地から、block の番地を求める。 -/
def blockOf (s : BuddyMem) (p : Nat) : Nat := (p - s.alignBlockSize - s.blockStart) / 64

/-- `l` byte のために探し始める order。`bsr` は最上位の bit の位置である。 -/
def allocOrder (s : BuddyMem) (l : Nat) : Nat :=
  let tlen := (l + s.alignBlockSize) % 2 ^ 32
  let i := subU32 (tlen <<< 2 % 2 ^ 32) 1 >>> 6
  if 0 < i then i.log2 else 0

/-- lock の中で、list の先頭を取る。 -/
def takeFirst (s : BuddyMem) (fa : Nat) : Option Nat × BuddyMem :=
  match (s.area fa).freelist with
  | none => (none, s)
  | some pb =>
    let s := s.modifyArea fa fun a => { a with freelist := (s.block pb).next }
    let s := s.modifyBlockOpt (s.area fa).freelist fun b => { b with pre := none }
    (some pb, (s.setBitmap pb fa).2)

/-- lock の中で、半分にした block の後ろ半分を list に足す。 -/
def degrade (s : BuddyMem) (pb dorder : Nat) : BuddyMem :=
  let degradePb := pb + 1 <<< dorder
  let s := s.addBlock degradePb dorder
  (s.setBitmap degradePb dorder).2

/-! ## 解放 -/

/-- lock の中で、隣が空いていれば list から外し、そうでなければ `freeBlock` を足す。bit の値と、
次の周で足す block を返す。 -/
def upgrade (fuel : Nat) (s : BuddyMem) (index freeBlock fa : Nat) : Option (Nat × Nat × BuddyMem) :=
  let order := (s.area fa).order
  let buddyIndex := (index >>> order ^^^ 1) <<< order
  let upgradeIndex := index >>> (order + 1) <<< (order + 1)
  let (ret, s) := s.setBitmap index fa
  if ret = 0 ∧ order < 9 then
    (s.delBlock fuel buddyIndex fa).map fun r => (ret, upgradeIndex, r.2)
  else some (ret, freeBlock, s.addBlock freeBlock fa)

end BuddyMem

/-! ## 呼び出しの途中 -/

/-- 一つの thread が、`Alloc` と `Free` のどこにいるか。 -/
inductive BuddyCall where
  | idle
  /-- `Alloc` が `order` の list を見る手前。`bitp` は求める order である。 -/
  | search (bitp order : Nat)
  /-- `Alloc` が、取った block `pb` を `order` まで分けたところ。 -/
  | split (bitp order pb : Nat)
  /-- `Free` の loop の頭。 -/
  | free (ret index freeBlock fa : Nat)
deriving DecidableEq, Repr

namespace BuddyCall

/-- `Alloc` に入る。 -/
def ofAlloc (s : BuddyMem) (l : Nat) : BuddyCall :=
  let bitp := s.allocOrder l
  if 9 < bitp then .idle else .search bitp bitp

/-- `Free` に入り、header を読む。 -/
def ofFree (s : BuddyMem) (p : Nat) : BuddyCall :=
  .free 0 (s.blockOf p) (s.blockOf p) (s.block (s.blockOf p)).freeArea

/-- 次の一区切り。`Alloc` が番地を返すときは、その番地も返す。 -/
def advance (fuel : Nat) (s : BuddyMem) : BuddyCall → Option (BuddyCall × Option Nat × BuddyMem)
  | .idle => some (.idle, none, s)
  | .search bitp order =>
    if order ≤ 9 then
      match s.takeFirst order with
      | (none, s) => some (.search bitp (order + 1), none, s)
      | (some pb, s) => some (.split bitp order pb, none, s)
    else some (.idle, none, s)
  | .split bitp order pb =>
    if bitp < order then some (.split bitp (order - 1) pb, none, s.degrade pb (order - 1))
    else some (.idle, some (s.data pb), s.modifyBlock pb fun b => { b with freeArea := bitp })
  | .free ret index freeBlock fa =>
    if ret = 0 ∧ fa < 10 then
      (s.upgrade fuel index freeBlock fa).map fun r => (.free r.1 index r.2.1 (fa + 1), none, r.2.2)
    else some (.idle, none, s)

end BuddyCall

end RecordServer.MemPool
