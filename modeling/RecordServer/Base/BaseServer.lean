import RecordServer.Infra.Trace
import Mathlib.Logic.Function.Basic

/-!
# 子 circle の登録

`CBase_server::add_circle` を、共有変数への一回の読み書きを一歩とする遷移系にする。
呼び出しの型 `ι` と circle の番地の型 `κ` は任意で、呼び出し `i` の引数は `circle i` である。

`m_curthreads` は一回の繰り返しで二度読まれる。一度目の値 `cur_threads` で slot と新しい値が決まり、
`CAS` が比べる古い値は二度目に読んだ値である。
-/

namespace RecordServer.Base

open Infra

/-- `add_circle` の一回の呼び出しがどこにいるか。 -/
inductive AddPc where
  /-- 繰り返しの先頭。`m_curthreads` をこれから読む。 -/
  | load
  /-- `cur_threads` を読んだ。`CAS` の引数をこれから読む。 -/
  | reload (cur : Nat)
  /-- `CAS` の引数に `old` を読んだ。 -/
  | cas (cur old : Nat)
  /-- `CAS` に成功した。slot `cur` へこれから書く。 -/
  | store (cur : Nat)
  /-- `SUCCESS` を返した。 -/
  | success (cur : Nat)
  /-- `FAILURE` を返した。 -/
  | failure
  deriving DecidableEq

/-- `CBase_server` の、登録に関わる field。`mp_subcircles` の NULL は `none` である。 -/
structure Server (ι κ : Type*) where
  subthreads : Nat
  curthreads : Nat
  subcircles : Option (Nat → Option κ)
  pc : ι → AddPc

/-- 一歩。どの呼び出しが進むかは `ι` の値で与える。 -/
inductive AddAct (ι : Type*) where
  | load (i : ι)
  | reload (i : ι)
  | cas (i : ι)
  | store (i : ι)
  deriving DecidableEq

section Model

variable {ι κ : Type*} [DecidableEq ι] (circle : ι → Option κ)

namespace Server

/-- 呼び出し `i` を進める。 -/
def goto (s : Server ι κ) (i : ι) (p : AddPc) : Server ι κ :=
  { s with pc := Function.update s.pc i p }

/-- `CBase_server::add_circle` の一歩。引数と配列の検査は最初の読み出しと一緒に行う。 -/
def addCircle (s : Server ι κ) : AddAct ι → Option (Server ι κ)
  | .load i =>
    match s.pc i with
    | .load =>
      if circle i = none ∨ s.subcircles = none then some (s.goto i .failure)
      else if s.curthreads ≥ s.subthreads then some (s.goto i .failure)
      else some (s.goto i (.reload s.curthreads))
    | _ => none
  | .reload i =>
    match s.pc i with
    | .reload cur => some (s.goto i (.cas cur s.curthreads))
    | _ => none
  | .cas i =>
    match s.pc i with
    | .cas cur old =>
      if s.curthreads = old then some ({ s with curthreads := cur + 1 }.goto i (.store cur))
      else some (s.goto i .load)
    | _ => none
  | .store i =>
    match s.pc i with
    | .store cur =>
      some ({ s with subcircles := s.subcircles.map fun a => Function.update a cur (circle i) }.goto
        i (.success cur))
    | _ => none

/-- どの呼び出しもこれから始まる server。 -/
def start (ι : Type*) (subthreads : Nat) (subcircles : Option (Nat → Option κ)) : Server ι κ where
  subthreads := subthreads
  curthreads := 0
  subcircles := subcircles
  pc := fun _ => .load

@[simp] theorem goto_pc_self (s : Server ι κ) (i : ι) (p : AddPc) : (s.goto i p).pc i = p := by
  simp [goto]

theorem goto_pc_of_ne (s : Server ι κ) {i j : ι} (h : j ≠ i) (p : AddPc) :
    (s.goto i p).pc j = s.pc j := by
  simp [goto, h]

@[simp] theorem goto_curthreads (s : Server ι κ) (i : ι) (p : AddPc) :
    (s.goto i p).curthreads = s.curthreads := rfl

@[simp] theorem goto_subthreads (s : Server ι κ) (i : ι) (p : AddPc) :
    (s.goto i p).subthreads = s.subthreads := rfl

@[simp] theorem goto_subcircles (s : Server ι κ) (i : ι) (p : AddPc) :
    (s.goto i p).subcircles = s.subcircles := rfl

end Server

end Model

end RecordServer.Base
