import RecordServer.Infra.Trace
import Mathlib.Logic.Function.Basic
import Mathlib.Tactic.Ring

/-!
# circle の主 loop

`CBase_circle::process` を、`pure_lock_trylock`、`pure_lock_unlock`、`circle_register`、
`circle_logout` をそれぞれ一歩とする遷移系にする。circle の型 `ι` は任意である。

lock は circle ごとに一つある。`listenfd_inepoll_lock` は `CBase_circle` の field で、
`circle_init` が circle ごとに初期化するからである。他の field を変えるのもその circle の thread だけである。
`CPure_epoll` は repository に無いので、登録されているかどうかだけを `registered` に持つ。
-/

namespace RecordServer.Base

open Infra

/-- `process` の中の位置。`now` はその回に読んだ時刻である。 -/
inductive LoopPc where
  /-- 繰り返しの先頭。 -/
  | top
  | trylock (now : Nat)
  | register
  | logout (now : Nat)
  /-- `pure_epoll_process` と `pure_timer_process`。 -/
  | poll
  /-- `conns_to_unlock` の検査。 -/
  | test
  | unlock
  /-- `m_sigstop` を見て抜けた。 -/
  | stopped
  deriving DecidableEq

/-- `CBase_circle` の、主 loop が読み書きする field。 -/
structure Polling where
  pc : LoopPc
  /-- `listenfd_inepoll_lock` を持っている。 -/
  locked : Bool
  /-- 自分の epoll に listen する socket が入っている。 -/
  registered : Bool
  lockHeld : Bool
  epollInSign : Bool
  connsToUnlock : Int
  conns : Int
  maxSubConns : Int
  nextTrylockTime : Nat

/-- `circle_init` の直後。初期化されない field は引数の値のまま残る。 -/
def Polling.init (lockHeld epollInSign : Bool) (connsToUnlock conns : Int)
    (nextTrylockTime : Nat) : Polling where
  pc := .top
  locked := false
  registered := false
  lockHeld := lockHeld
  epollInSign := epollInSign
  connsToUnlock := connsToUnlock
  conns := conns
  maxSubConns := 4096
  nextTrylockTime := nextTrylockTime

def TRY_LOCK_DELAY : Nat := 200

/-- 一つの circle の一歩。環境が決める値を持つ。 -/
inductive LoopAct where
  /-- `m_sigstop` と時刻を読む。 -/
  | top (stop : Bool) (now : Nat)
  | trylock
  | register
  | logout
  /-- 接続を受ける側が `conns_to_unlock` と `conns` を変える。 -/
  | poll (connsToUnlock conns : Int)
  | test
  | unlock
  deriving DecidableEq

/-- `CBase_circle::process` の一歩。 -/
def Polling.process (c : Polling) : LoopAct → Option Polling
  | .top stop now =>
    match c.pc with
    | .top =>
      if stop then some { c with pc := .stopped }
      else if c.lockHeld = false ∧ now > c.nextTrylockTime then some { c with pc := .trylock now }
      else some { c with pc := .poll }
    | _ => none
  | .trylock =>
    match c.pc with
    | .trylock now =>
      if c.locked = false then some { c with locked := true, pc := .register }
      else if c.epollInSign = true then some { c with pc := .logout now }
      else some { c with pc := .poll }
    | _ => none
  | .register =>
    match c.pc with
    | .register =>
      some { c with
        registered := true
        lockHeld := true
        epollInSign := true
        connsToUnlock :=
          if (c.maxSubConns - c.conns).tdiv 4 ≥ 200 then 200 else (c.maxSubConns - c.conns).tdiv 4
        pc := .poll }
    | _ => none
  | .logout =>
    match c.pc with
    | .logout now =>
      some { c with
        registered := false
        epollInSign := false
        nextTrylockTime := (now + TRY_LOCK_DELAY) % 2 ^ 64
        pc := .poll }
    | _ => none
  | .poll connsToUnlock conns =>
    match c.pc with
    | .poll => some { c with connsToUnlock := connsToUnlock, conns := conns, pc := .test }
    | _ => none
  | .test =>
    match c.pc with
    | .test =>
      if c.connsToUnlock ≤ 0 then some { c with pc := .unlock } else some { c with pc := .top }
    | _ => none
  | .unlock =>
    match c.pc with
    | .unlock => some { c with locked := false, lockHeld := false, pc := .top }
    | _ => none

/-- 一歩でできることの一覧。どの場合も、位置と進む先、通った分岐の条件を述べる。 -/
inductive LoopStep (c : Polling) : LoopAct → Polling → Prop where
  | stop (now : Nat) : c.pc = .top → LoopStep c (.top true now) { c with pc := .stopped }
  | tries (now : Nat) : c.pc = .top → c.lockHeld = false → now > c.nextTrylockTime →
      LoopStep c (.top false now) { c with pc := .trylock now }
  | skips (now : Nat) : c.pc = .top → ¬(c.lockHeld = false ∧ now > c.nextTrylockTime) →
      LoopStep c (.top false now) { c with pc := .poll }
  | takes (now : Nat) : c.pc = .trylock now → c.locked = false →
      LoopStep c .trylock { c with locked := true, pc := .register }
  | leaves (now : Nat) : c.pc = .trylock now → c.locked = true → c.epollInSign = true →
      LoopStep c .trylock { c with pc := .logout now }
  | waits (now : Nat) : c.pc = .trylock now → c.locked = true → c.epollInSign = false →
      LoopStep c .trylock { c with pc := .poll }
  | register (n : Int) : c.pc = .register →
      LoopStep c .register { c with
        registered := true, lockHeld := true, epollInSign := true, connsToUnlock := n, pc := .poll }
  | logout (t : Nat) (now : Nat) : c.pc = .logout now →
      LoopStep c .logout { c with
        registered := false, epollInSign := false, nextTrylockTime := t, pc := .poll }
  | poll (n m : Int) : c.pc = .poll →
      LoopStep c (.poll n m) { c with connsToUnlock := n, conns := m, pc := .test }
  | releases : c.pc = .test → c.connsToUnlock ≤ 0 → LoopStep c .test { c with pc := .unlock }
  | keeps : c.pc = .test → ¬c.connsToUnlock ≤ 0 → LoopStep c .test { c with pc := .top }
  | unlock : c.pc = .unlock →
      LoopStep c .unlock { c with locked := false, lockHeld := false, pc := .top }

theorem process_cases {c c' : Polling} {a : LoopAct} (h : c.process a = some c') :
    LoopStep c a c' := by
  unfold Polling.process at h
  split at h <;> split at h <;> try cases h
  · next stop now _ hpc =>
    split at h
    · next hstop =>
      cases h
      subst hstop
      exact .stop now hpc
    · next hstop =>
      obtain rfl := Bool.eq_false_of_not_eq_true hstop
      split at h
      · next hg =>
        cases h
        exact .tries now hpc hg.1 hg.2
      · next hg =>
        cases h
        exact .skips now hpc hg
  · next now hpc =>
    split at h
    · next hl =>
      cases h
      exact .takes now hpc hl
    · next hl =>
      split at h
      · next hsign =>
        cases h
        exact .leaves now hpc (by simpa using hl) hsign
      · next hsign =>
        cases h
        exact .waits now hpc (by simpa using hl) (by simpa using hsign)
  · next hpc => exact .register _ hpc
  · next now hpc => exact .logout _ now hpc
  · next hpc => exact .poll _ _ hpc
  · next hpc =>
    split at h
    · next hle =>
      cases h
      exact .releases hpc hle
    · next hle =>
      cases h
      exact .keeps hpc hle
  · next hpc => exact .unlock hpc

/-- circle たちの一歩。`a.1` の circle だけが進む。 -/
def processStep {ι : Type*} [DecidableEq ι] (cs : ι → Polling) (a : ι × LoopAct) :
    Option (ι → Polling) :=
  ((cs a.1).process a.2).map fun c => Function.update cs a.1 c

/-- 一つの circle だけが変わる。 -/
theorem processStep_cases {ι : Type*} [DecidableEq ι] {cs cs' : ι → Polling}
    {a : ι × LoopAct} (h : processStep cs a = some cs') :
    ∃ c', (cs a.1).process a.2 = some c' ∧ cs' = Function.update cs a.1 c' := by
  obtain ⟨c', hc, rfl⟩ := Option.map_eq_some_iff.mp h
  exact ⟨c', hc, rfl⟩

end RecordServer.Base
