import RecordServer.MemPool.PureBuddyMem
import RecordServer.Infra.Span

/-!
# 初期化の書き込み

`init_buddy_mem` と `init_free` が memory に書く範囲を、書く順に並べる。状態は `BuddyMem` の初期化と同じに進める。
番地は `u64` なので `2 ^ 64` を法とする。`pm` の指す `mem_t` は `len`、`remain_len`、`free_start`、`block_start`、
`align_area_size` の順に並び、`free_area` は lock の 40 byte の後に `freelist` と `order` を置く。
-/

namespace RecordServer.MemPool

open Infra

/-- 番地 `a` から `n` byte。 -/
def spanAt (a n : Nat) : Span := ⟨(a % 2 ^ 64 : Nat), n⟩

/-- `sizeof(pthread_mutex_t)` -/
def sizeofLock : Nat := 40

namespace BuddyMem

/-- order `k` の `free_area` の番地。 -/
def areaAddr (s : BuddyMem) (k : Nat) : Nat := s.freeStart + s.alignAreaSize * k

/-- block の番地。 -/
def blockAddr (s : BuddyMem) (b : Nat) : Nat := s.blockStart + 64 * b

/-- `set_bitmap` -/
def setBitmapWrite (s : BuddyMem) (index fa : Nat) : Span :=
  spanAt (s.areaAddr fa + 52 + index >>> ((s.area fa).order + 1 + 3)) 1

/-- `add_block`。先頭だった block の `pre`、`freelist`、足す block の三つの field の順に書く。 -/
def addBlockWrites (s : BuddyMem) (b fa : Nat) : List Span :=
  (match (s.area fa).freelist with
    | some tempb => [spanAt (s.blockAddr tempb) 8]
    | none => []) ++
  [spanAt (s.areaAddr fa + 40) 8, spanAt (s.blockAddr b) 8, spanAt (s.blockAddr b + 8) 8,
    spanAt (s.blockAddr b + 16) 8]

/-- `carve` の書き込み。 -/
def carveWrites (pm order : Nat) (s : BuddyMem) (remain pblock : Nat) : List Span :=
  if 64 <<< order ≤ remain then
    let s' := s.addBlock pblock order
    s.addBlockWrites pblock order ++ [s'.setBitmapWrite pblock order, spanAt (pm + 4) 4] ++
      carveWrites pm order (s'.setBitmap pblock order).2 (remain - 64 <<< order)
        (pblock + 1 <<< order)
  else []
termination_by remain
decreasing_by
  have : 0 < 64 <<< order := by
    rw [Nat.shiftLeft_eq]
    exact Nat.mul_pos (by decide) (Nat.two_pow_pos order)
  omega

/-- `carveOrders` の書き込み。 -/
def carveOrdersWrites (pm : Nat) : Nat → BuddyMem → Nat → Nat → List Span
  | 0, _, _, _ => []
  | order + 1, s, remain, pblock =>
    let s' := s.modifyArea order fun a => { a with order := order }
    let r := carve order s' remain pblock
    [spanAt (s.areaAddr order) sizeofLock, spanAt (s.areaAddr order + 48) 4] ++
      carveWrites pm order s' remain pblock ++ carveOrdersWrites pm order r.1 r.2.1 r.2.2

/-- `init_free` の書き込み。 -/
def initFreeWrites (pm : Nat) (s : BuddyMem) (remain : Nat) : List Span :=
  let bitamount := (remain / 64 + 15) >>> (3 + 1)
  let s := { s with alignAreaSize := alignU32 (sizeofFreeArea + bitamount) 64 }
  let areas := s.alignAreaSize * 10 % 2 ^ 32
  spanAt (pm + 24) 4 ::
    if remain < areas then []
    else
      let s := { s with
        area := fun k => if k ≤ 9 then ⟨none, 0, fun _ => 0⟩ else s.area k
        blockStart := s.freeStart + areas }
      [spanAt s.freeStart areas, spanAt (pm + 4) 4, spanAt (pm + 16) 8] ++
        carveOrdersWrites pm 10 s (remain - areas) 0

/-- `init_buddy_mem` の書き込み。 -/
def initBuddyMemWrites (s : BuddyMem) (b l : Nat) : List Span :=
  let pm := alignPtr b 64
  if l < sizeofMem then []
  else
    let freeStart := alignPtr (pm + sizeofMem) 64
    let s := { s with
      freeStart := freeStart
      alignBlockSize := alignU32 sizeofBuddyBlock 8 }
    let remain := Int.bmod (l - (pm - b) - (freeStart - pm)) (2 ^ 32)
    [spanAt pm 4, spanAt (pm + 8) 8, spanAt (pm + 4) 4] ++
      if remain < 64 then [] else initFreeWrites pm s remain.toNat

end BuddyMem

end RecordServer.MemPool
