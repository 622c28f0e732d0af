import RecordServer.Infra.Trace
import RecordServer.Infra.Counting
import RecordServer.MemPool.Align

/-!
# lock を使わない固定長の block の箱（`p_membox.h`）

`membox<T>` は、領域を同じ大きさの block に切り、block ごとの印 `seq`（0 なら空き、1 なら使用中）と、
空きの数 `free_num` を多くの thread で共有する。共有の場所への load・store・CAS・atomic な加減算を
一つの一歩とし、その間の local な計算は直前の一歩に含める。

* `initMemblock` — 領域の長さから block の数を決める
* `Pc` — 呼び出しの途中のどこにいるか。local 変数も持つ
* `step` — 好きな順に thread を一つ選んで一つ進める

`owners` は履歴で、code は読まない。`box_alloc` の CAS が通ったときに加わり、`box_free` の CAS が
通ったときに除かれる。
-/

namespace RecordServer.MemPool.PMembox

open Infra

/-- `sizeof(mempool)`。 -/
def sizeofMempool : Nat := 32

/-- `sizeof(memblock)`。header の 16 byte の後に、cache の行に揃うだけの `p` が続く。 -/
def sizeofMemblock (sizeofT : Nat) : Nat := alignU32 (alignU32 sizeofT 8 + 16) 64

/-- `mempool` と、その後に並ぶ block。`mp` は `NULL` でなければこの `mempool` を指す。 -/
structure Mempool where
  length : Nat
  blockNum : Nat
  freeNum : Nat
  seq : Nat → Nat
  mp : Nat → Bool

/-- `creat_mempool`。領域は 0 で埋まっている。 -/
def creatMempool (trueMem l : Nat) : Mempool where
  length := subU32 l (alignPtr trueMem 64 - trueMem)
  blockNum := 0
  freeNum := 0
  seq := fun _ => 0
  mp := fun _ => false

/-- `init_memblock`。 -/
def initMemblock (sizeofT : Nat) (p : Mempool) (ul : Nat) : Mempool :=
  let mpalignsize := alignU32 sizeofMempool 64
  let contentLen := subU32 (subU32 p.length ul) mpalignsize
  let blockNum := contentLen / sizeofMemblock sizeofT
  { p with blockNum := blockNum, freeNum := blockNum }

/-- 構築子 `membox(pool_size)`。`new_zone` の返した番地を受け取る。 -/
def membox (sizeofT poolSize trueMem : Nat) : Mempool :=
  initMemblock sizeofT (creatMempool trueMem (alignU32 poolSize 4096)) (sizeofMemblock sizeofT)

/-- 呼び出しの戻り値。`box_alloc` は block か `NULL` を返す。 -/
inductive Ret
  | alloc (b : Option Nat)
  | free
  deriving DecidableEq

/-- 次に行う共有の操作。引数は local 変数である。 -/
inductive Pc
  | idle (last : Option Ret)
  | allocLoadFree
  | allocLoadStart
  | allocLoadSeq (startpos i : Nat)
  | allocCas (startpos i : Nat)
  | allocSub (startpos i : Nat)
  | allocStoreMp (startpos i : Nat)
  | freeCas (b : Nat)
  | freeLoadMp (b : Nat)
  | freeAdd
  /-- `NULL` の先に触れた。 -/
  | fault
  deriving DecidableEq

def Pc.isIdle : Pc → Bool
  | .idle _ => true
  | _ => false

structure State (τ : Type*) where
  p : Mempool
  pc : τ → Pc
  owners : Nat → List τ

/-- `ATOMIC_ADD` が書く値。 -/
def atomicAdd (n value : Nat) : Nat := u32 (n + value)

/-- `ATOMIC_SUB` が書く値。 -/
def atomicSub (n value : Nat) : Nat := subU32 n value

/-- `(startpos+i)%p->block_num`。`int` の和は `u32` に直してから割る。 -/
def Mempool.pos (p : Mempool) (startpos i : Nat) : Nat := (startpos + i) % 2 ^ 32 % p.blockNum

/-- `for` の条件。尽きれば `NULL` を返す。 -/
def Mempool.scan (p : Mempool) (startpos i : Nat) : Pc :=
  if i < p.blockNum then .allocLoadSeq startpos i else .idle (some (.alloc none))

section

variable {τ : Type*} [DecidableEq τ]

/-- どの thread も呼び出していない、構築の直後。 -/
def init (p : Mempool) : State τ := ⟨p, fun _ => .idle none, fun _ => []⟩

/-- `t` を `pc` へ進める。 -/
def State.move (s : State τ) (t : τ) (pc : Pc) : State τ :=
  { s with pc := Function.update s.pc t pc }

/-- 途中の呼び出しを一つ進める。 -/
def advance (s : State τ) (t : τ) : Pc → Option (State τ)
  | .idle _ => none
  | .allocLoadFree =>
    if s.p.freeNum = 0 then some (s.move t (.idle (some (.alloc none))))
    else some (s.move t .allocLoadStart)
  | .allocLoadStart => some (s.move t (s.p.scan (subU32 s.p.blockNum s.p.freeNum) 0))
  | .allocLoadSeq startpos i =>
    if s.p.seq (s.p.pos startpos i) = 0 then some (s.move t (.allocCas startpos i))
    else some (s.move t (s.p.scan startpos (i + 1)))
  | .allocCas startpos i =>
    let b := s.p.pos startpos i
    if s.p.seq b = 0 then
      some { s.move t (.allocSub startpos i) with
        p := { s.p with seq := Function.update s.p.seq b 1 }
        owners := Function.update s.owners b (t :: s.owners b) }
    else some (s.move t (s.p.scan startpos (i + 1)))
  | .allocSub startpos i =>
    some { s.move t (.allocStoreMp startpos i) with
      p := { s.p with freeNum := atomicSub s.p.freeNum 1 } }
  | .allocStoreMp startpos i =>
    let b := s.p.pos startpos i
    some { s.move t (.idle (some (.alloc (some b)))) with
      p := { s.p with mp := Function.update s.p.mp b true } }
  | .freeCas b =>
    if s.p.seq b = 1 then
      some { s.move t (.freeLoadMp b) with
        p := { s.p with seq := Function.update s.p.seq b 0 }
        owners := Function.update s.owners b ((s.owners b).erase t) }
    else some (s.move t (.idle (some .free)))
  | .freeLoadMp b => some (s.move t (if s.p.mp b then .freeAdd else .fault))
  | .freeAdd =>
    some { s.move t (.idle (some .free)) with
      p := { s.p with freeNum := atomicAdd s.p.freeNum 1 } }
  | .fault => none

/-- 一歩の名札。`box_free` は、持っている block について呼ぶ。 -/
inductive Act (τ : Type*)
  | alloc (t : τ)
  | free (t : τ) (b : Nat)
  | advance (t : τ)

def step (s : State τ) : Act τ → Option (State τ)
  | .alloc t => if (s.pc t).isIdle then some (s.move t .allocLoadFree) else none
  | .free t b =>
    if (s.pc t).isIdle ∧ t ∈ s.owners b then some (s.move t (.freeCas b)) else none
  | .advance t => advance s t (s.pc t)

end

/-! ## 数 -/

/-- 空きの block の数。 -/
def freeBlocks (p : Mempool) : Nat := count (Finset.range p.blockNum) (· == 0) p.seq

def Pc.isSub : Pc → Bool
  | .allocSub _ _ => true
  | _ => false

def Pc.isAdd : Pc → Bool
  | .freeLoadMp _ | .freeAdd => true
  | _ => false

section

variable {τ : Type*} [Fintype τ]

/-- CAS から引き算までの間の `box_alloc` の数。 -/
def subbing (s : State τ) : Nat := count Finset.univ Pc.isSub s.pc

/-- CAS から足し算までの間の `box_free` の数。 -/
def adding (s : State τ) : Nat := count Finset.univ Pc.isAdd s.pc

end

end RecordServer.MemPool.PMembox
