import RecordServer.Infra.DList
import RecordServer.Infra.Fuel
import RecordServer.Infra.Trace
import RecordServer.Infra.Word
import Mathlib.Algebra.Group.Int.Defs
import Mathlib.Algebra.Group.Nat.Defs
import Mathlib.Data.Finset.Basic
import Mathlib.Logic.Function.Basic

/-!
# 双方向 list `TDList`

節は呼び出し側が作って渡し、list は節の中の二つの link と自分の `m_head`、`m_tail`、`m_num_nodes` を
書き換える。作られていない節や消えた節、NULL の先に触れる操作は `none` である。

* `addNode`、`addNodeToTail`、`removeNode` — 節を一つ足す・外す
* `forEach`、`forEachUntil` — 先頭から順に callback を呼ぶ
* `Op`、`step` — list と節に対して行う操作

`deleted` は `delete` した節の履歴で、code は読まない。
-/

namespace RecordServer.Datas

open Infra

/-- `TDList_node` の link。 -/
structure TDListNode (ν : Type*) where
  mNext : Option ν
  mPrev : Option ν
  deriving DecidableEq

/-- `TDList` の field と、節の heap。 -/
structure TDList (ν : Type*) where
  mHead : Option ν
  mTail : Option ν
  mNumNodes : Nat
  node : ν → Option (TDListNode ν)
  deleted : List ν

namespace TDList

variable {ν σ : Type*}

/-- 構築子。節はまだ一つもない。 -/
def init : TDList ν := ⟨none, none, 0, fun _ => none, []⟩

/-- 節の `m_next`。節がなければ `none` とする。 -/
def next (s : TDList ν) (x : ν) : Option ν := (s.node x).bind TDListNode.mNext

/-- 節の `m_prev`。節がなければ `none` とする。 -/
def prev (s : TDList ν) (x : ν) : Option ν := (s.node x).bind TDListNode.mPrev

section Nodes

variable [DecidableEq ν]

/-- `new TDList_node(element)`。空いている番地に、二つの link が NULL の節を作る。 -/
def create (s : TDList ν) (x : ν) : Option (TDList ν) :=
  match s.node x with
  | none => some { s with node := Function.update s.node x (some ⟨none, none⟩) }
  | some _ => none

/-- `delete node`。 -/
def delete (s : TDList ν) (x : ν) : Option (TDList ν) :=
  (s.node x).map fun _ =>
    { s with node := Function.update s.node x none, deleted := s.deleted ++ [x] }

/-- `p->m_next = v`。 -/
def setNext (s : TDList ν) (p v : Option ν) : Option (TDList ν) :=
  p.bind fun x => (s.node x).map fun n =>
    { s with node := Function.update s.node x (some { n with mNext := v }) }

/-- `p->m_prev = v`。 -/
def setPrev (s : TDList ν) (p v : Option ν) : Option (TDList ν) :=
  p.bind fun x => (s.node x).map fun n =>
    { s with node := Function.update s.node x (some { n with mPrev := v }) }

/-- `add_node_to_tail`。 -/
def addNodeToTail (s : TDList ν) (x : ν) : Option (TDList ν) :=
  (if s.mTail ≠ none then s.setNext s.mTail (some x) else some s).bind fun s =>
  (s.setPrev (some x) s.mTail).bind fun s =>
  (s.setNext (some x) none).map fun s =>
    let s := { s with mTail := some x }
    let s := if s.mHead = none then { s with mHead := some x } else s
    { s with mNumNodes := u32 (s.mNumNodes + 1) }

/-- `add_node`。先頭に足す。 -/
def addNode (s : TDList ν) (x : ν) : Option (TDList ν) :=
  (if s.mHead ≠ none then s.setPrev s.mHead (some x) else some s).bind fun s =>
  (s.setPrev (some x) none).bind fun s =>
  (s.setNext (some x) s.mHead).map fun s =>
    let s := { s with mHead := some x }
    let s := if s.mTail = none then { s with mTail := some x } else s
    { s with mNumNodes := u32 (s.mNumNodes + 1) }

/-- `remove_node`。先頭でも末尾でもない側の link だけを繋ぎ替える。 -/
def removeNode (s : TDList ν) (x : ν) : Option (TDList ν) :=
  (s.node x).bind fun n =>
  (if s.mHead = some x then some { s with mHead := n.mNext }
    else s.setNext n.mPrev n.mNext).bind fun s =>
  (s.node x).bind fun n =>
  (if s.mTail = some x then some { s with mTail := n.mPrev }
    else s.setPrev n.mNext n.mPrev).bind fun s =>
  (s.setPrev (some x) none).bind fun s =>
  (s.setNext (some x) none).map fun s =>
    { s with mNumNodes := subU32 s.mNumNodes 1 }

/-! ## 一巡り -/

/-- `for_each` の loop。次の節は callback を呼ぶ前に読む。 -/
def forEachFrom (doFunc : ν → σ → TDList ν → Option (σ × TDList ν)) :
    Nat → Option ν → σ → TDList ν → Option (σ × TDList ν)
  | 0, _, _, _ => none
  | _ + 1, none, userdata, s => some (userdata, s)
  | fuel + 1, some cur, userdata, s =>
    (s.node cur).bind fun n =>
    (doFunc cur userdata s).bind fun r => forEachFrom doFunc fuel n.mNext r.1 r.2

def forEach (doFunc : ν → σ → TDList ν → Option (σ × TDList ν)) (fuel : Nat) (userdata : σ)
    (s : TDList ν) : Option (σ × TDList ν) := forEachFrom doFunc fuel s.mHead userdata s

/-- `for_each_until` の loop。callback が `true` を返した節で止まり、その節を返す。 -/
def forEachUntilFrom (doFunc : ν → σ → TDList ν → Option (Bool × σ × TDList ν)) :
    Nat → Option ν → σ → TDList ν → Option (Option ν × σ × TDList ν)
  | 0, _, _, _ => none
  | _ + 1, none, userdata, s => some (none, userdata, s)
  | fuel + 1, some cur, userdata, s =>
    (s.node cur).bind fun n =>
    (doFunc cur userdata s).bind fun r =>
      if r.1 then some (some cur, r.2) else forEachUntilFrom doFunc fuel n.mNext r.2.1 r.2.2

def forEachUntil (doFunc : ν → σ → TDList ν → Option (Bool × σ × TDList ν)) (fuel : Nat)
    (userdata : σ) (s : TDList ν) : Option (Option ν × σ × TDList ν) :=
  forEachUntilFrom doFunc fuel s.mHead userdata s

/-- `do_clear_list`。 -/
def doClearList (x : ν) (_ : Unit) (s : TDList ν) : Option (Unit × TDList ν) :=
  ((s.removeNode x).bind fun s => s.delete x).map fun s => ((), s)

/-- `clear_list`。 -/
def clearList (fuel : Nat) (s : TDList ν) : Option (TDList ν) :=
  (forEach doClearList fuel () s).map Prod.snd

/-- `compare_index_to_zero`。`int` の最小値からは引けない。 -/
def compareIndexToZero (_ : ν) (nodeIndex : Int) (s : TDList ν) :
    Option (Bool × Int × TDList ν) :=
  if nodeIndex = 0 then some (true, nodeIndex, s)
  else if nodeIndex = -2 ^ 31 then none
  else some (false, nodeIndex - 1, s)

/-- `get_nth_node`。 -/
def getNthNode (fuel : Nat) (s : TDList ν) (nodeIndex : Int) : Option (Option ν) :=
  (forEachUntil compareIndexToZero fuel nodeIndex s).map Prod.fst

end Nodes

/-! ## 操作の列 -/

/-- callback が、渡された節について行うこと。 -/
inductive Act
  | keep
  | remove
  | removeDelete
  deriving DecidableEq

/-- list と節に対する操作。callback の決めることは、節と `userdata` による。 -/
inductive Op (ν σ : Type*)
  | create (x : ν)
  | delete (x : ν)
  | addNode (x : ν)
  | addNodeToTail (x : ν)
  | removeNode (x : ν)
  | forEach (f : ν → σ → Act × σ) (userdata : σ)
  | forEachUntil (f : ν → σ → Act × Bool × σ) (userdata : σ)
  | clearList

section Ops

variable [DecidableEq ν]

def perform (s : TDList ν) (x : ν) : Act → Option (TDList ν)
  | .keep => some s
  | .remove => s.removeNode x
  | .removeDelete => (s.removeNode x).bind fun s => s.delete x

/-- `f` の決めるとおりに行う callback。呼ばれた節と、そのときの list を書き留める。 -/
def callback (f : ν → σ → Act × σ) (x : ν) (u : σ × List (ν × TDList ν)) (s : TDList ν) :
    Option ((σ × List (ν × TDList ν)) × TDList ν) :=
  (s.perform x (f x u.1).1).map fun s' => (((f x u.1).2, u.2 ++ [(x, s)]), s')

def callbackUntil (f : ν → σ → Act × Bool × σ) (x : ν) (u : σ × List (ν × TDList ν))
    (s : TDList ν) : Option (Bool × (σ × List (ν × TDList ν)) × TDList ν) :=
  (s.perform x (f x u.1).1).map fun s' =>
    ((f x u.1).2.1, ((f x u.1).2.2, u.2 ++ [(x, s)]), s')

def step (fuel : Nat) (s : TDList ν) : Op ν σ → Option (TDList ν)
  | .create x => s.create x
  | .delete x => s.delete x
  | .addNode x => s.addNode x
  | .addNodeToTail x => s.addNodeToTail x
  | .removeNode x => s.removeNode x
  | .forEach f u => (s.forEach (callback f) fuel (u, [])).map Prod.snd
  | .forEachUntil f u => (s.forEachUntil (callbackUntil f) fuel (u, [])).map fun r => r.2.2
  | .clearList => s.clearList fuel

end Ops

end TDList

end RecordServer.Datas
