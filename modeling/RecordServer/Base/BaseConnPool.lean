import RecordServer.MemPool.PureSlab

/-!
# 接続の pool（`base_conn_pool.h`、`base_connect.cpp`）

`CConn_pool` は `pure_slab` の block に接続を作り、`m_pdelete` に `conn_free` を置く。接続は参照の数を
`m_refc` に持ち、`release` が `0` にすれば `m_pdelete` を、無ければ `delete this` を呼ぶ。

接続は、`slab_alloc` の返した番地で表す。`release` は、引き算と後始末の間に他の thread が動けるので、
二つの関数に分ける。

* `connectCreate`、`addRef`、`release`、`dispose` — 接続の一生
-/

namespace RecordServer.Base

open Infra MemPool

/-- `CBase_connect` の、参照の数に関わる field。 -/
structure ConnRef where
  refc : Nat
  /-- `m_pdelete` が `conn_free` である。`CBase_connect` の構築子は `NULL` を置く。 -/
  pdelete : Bool
deriving DecidableEq, Repr

/-- `CBase_connect` の構築子。 -/
def ConnRef.construct : ConnRef := ⟨1, false⟩

def ConnRef.setFunc (r : ConnRef) : ConnRef := { r with pdelete := true }

/-- `CConn_pool` と、その block に置かれた接続。 -/
structure ConnPool where
  slab : Slab
  conn : Nat → ConnRef

namespace ConnPool

/-- `CConn_pool` の構築子が `pure_slab` に渡す大きさと上限。`sizeofT` は `sizeof(T)`。 -/
def limits (sizeofT : Nat) (limit : Int) : Nat × Nat × Option Nat :=
  if 0 < limit then
    (sizeofT % 2 ^ 32, sizeofT * limit.toNat % 2 ^ 32, some (limit.toNat % 2 ^ 32))
  else (sizeofT % 2 ^ 32, sizeofT * 128 % 2 ^ 32, none)

/-- 構築子が大きさを決めた、まだ領域の無い `pure_slab`。 -/
def initial (pool : Nat → Mempool) (block : Nat → Memblock) (sizeofT : Nat) (limit : Int) : Slab :=
  .initial pool block (limits sizeofT limit).1 (limits sizeofT limit).2.1 (limits sizeofT limit).2.2

def modify (s : ConnPool) (p : Nat) (f : ConnRef → ConnRef) : ConnPool :=
  { s with conn := Function.update s.conn p (f (s.conn p)) }

/-- `connect_create`。`slab_alloc` が `NULL` なら `NULL` を返す。 -/
def connectCreate (fuel : Nat) (s : ConnPool) (zone : Option Nat) :
    Option (Option Nat × ConnPool) :=
  (s.slab.slabAlloc fuel zone).map fun out =>
    match out with
    | (none, slab) => (none, { s with slab := slab })
    | (some r, slab) =>
      (some r, { s with slab := slab }.modify r fun _ => ConnRef.construct.setFunc)

/-- `CBase_connect::add_ref`。 -/
def addRef (s : ConnPool) (p : Nat) : ConnPool :=
  s.modify p fun r => { r with refc := (r.refc + 1) % 2 ^ 32 }

/-- `CBase_connect::release` の引き算。後始末に進むかどうかを返す。 -/
def release (s : ConnPool) (p : Nat) : Bool × ConnPool :=
  let ret := subU32 (s.conn p).refc 1
  (ret = 0, s.modify p fun r => { r with refc := ret })

/-- `conn_free`。 -/
def connFree (s : ConnPool) (p : Nat) : Option ConnPool :=
  (s.slab.slabFree p).map fun slab => { s with slab := slab }

/-- `release` の後始末。pool の block への `delete this` は、何が起こるか定まらない。 -/
def dispose (s : ConnPool) (p : Nat) : Option ConnPool :=
  if (s.conn p).pdelete then s.connFree p else none

/-! ## 一つの接続の書き換え -/

variable (s : ConnPool) (p q : Nat) (f : ConnRef → ConnRef)

theorem modify_conn :
    (s.modify p f).conn q = if q = p then f (s.conn p) else s.conn q := by
  simp [modify, Function.update_apply]

/-- `m_refc` だけを見ると、番地 `p` の値だけが変わる。 -/
theorem modify_refc : (fun q => ((s.modify p f).conn q).refc) =
    Function.update (fun q => (s.conn q).refc) p (f (s.conn p)).refc := by
  funext q
  rw [modify_conn, Function.update_apply]
  split <;> rfl

end ConnPool

end RecordServer.Base
