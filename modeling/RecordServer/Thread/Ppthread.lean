import RecordServer.Infra.Word
import Mathlib.Algebra.Group.Int.Defs
import Mathlib.Algebra.Group.Nat.Defs
import Mathlib.Data.Int.Basic
import Mathlib.Logic.Function.Basic

/-!
# thread を載せる CPU（`ppthread.cpp`）

`threads_on_cpu` は CPU の番号を添字とする `s32` の配列である。`malloc` した範囲の外の値は `heap` から取る。

* `threadInfoInit` — 使う CPU の範囲を決める
* `selectCpu` — 載った thread の最も少ない CPU を探す loop
* `spawnThread` — thread を作り、選んだ CPU に載せる
-/

namespace RecordServer.Thread

open Infra

/-- `THRD_INFO`。 -/
structure ThrdInfo where
  cpuNums : Int
  threadsOnCpu : Int → Int
  lowTh : Int
  highTh : Int
  bindcpu : Bool

/-- `thread_info_init`。`cpuNums` は `get_cpu_num()` の値。 -/
def threadInfoInit (cpuNums : Int) (heap : Int → Int) (low high : Int) (bindsig : Bool) :
    ThrdInfo :=
  let lowTh := if low < 0 ∨ low ≥ cpuNums then 0 else low - 1
  let highTh := if high ≤ lowTh ∨ high ≥ cpuNums then cpuNums - 1 else high
  { cpuNums := cpuNums
    threadsOnCpu := fun i => if 0 ≤ i ∧ i < cpuNums then 0 else heap i
    lowTh := lowTh
    highTh := highTh
    bindcpu := bindsig }

/-- loop の変数。`used` は `threads_on_cpu` を引いた添字である。 -/
structure Selection where
  min : Nat
  index : Int
  used : List Int

/-- CPU を探す loop の、`i` からの残り `n` 周。符号のある数を、符号のない `min` と比べる。 -/
def selectLoop (counts : Int → Int) : Nat → Int → Selection → Selection
  | 0, _, s => s
  | n + 1, i, s =>
    if s32ToU32 (counts i) < s.min then
      selectLoop counts n (i + 1) ⟨s32ToU32 (counts i), i, s.used ++ [i, i]⟩
    else selectLoop counts n (i + 1) { s with used := s.used ++ [i] }

/-- `low_th` から `high_th` まで探す。 -/
def selectCpu (pinfo : ThrdInfo) : Selection :=
  selectLoop pinfo.threadsOnCpu (pinfo.highTh + 1 - pinfo.lowTh).toNat pinfo.lowTh
    ⟨0xffffffff, 0, []⟩

/-- `spawn_thread`。`affinity` は `thread_set_cpu` の戻り値。第二成分は `threads_on_cpu` を引いた添字である。 -/
def spawnThread (pinfo : ThrdInfo) (affinity : Int) : ThrdInfo × List Int :=
  if pinfo.bindcpu then
    let s := selectCpu pinfo
    if affinity ≠ 0 then (pinfo, s.used)
    else
      ({ pinfo with
          threadsOnCpu := Function.update pinfo.threadsOnCpu s.index
            (Int.bmod (pinfo.threadsOnCpu s.index + 1) (2 ^ 32)) },
        s.used ++ [s.index])
  else (pinfo, [])

/-- `spawn_thread` を順に呼ぶ。 -/
def spawnThreads : ThrdInfo → List Int → ThrdInfo × List Int
  | pinfo, [] => (pinfo, [])
  | pinfo, affinity :: as =>
    let r := spawnThread pinfo affinity
    let rest := spawnThreads r.1 as
    (rest.1, r.2 ++ rest.2)

end RecordServer.Thread
