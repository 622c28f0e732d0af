import RecordServer.Datas.Ownership
import RecordServer.Infra.TreeOrders

/-!
# 木を一巡りする関数（`rb_traversal`・`rb_destroy`）

* `rbTraversal` — `traversal_element` を呼んだ節を、呼んだ順に返す
* `rbDestroy` — 節に触れ、`free_element` と `delete_rbnode` を呼んだ順に記す
-/

namespace RecordServer.Datas

open Infra

namespace PureRbtree

/-- `inorder_rb_traversal`。`traversal_element(x->data)` を呼んだ `x` を、呼んだ順に返す。 -/
def inorderRbTraversal (s : PureRbtree) : Nat → Ptr → Option (List Ptr)
  | 0, _ => none
  | fuel + 1, x =>
    (if s.lson x ≠ s.nil then inorderRbTraversal s fuel (s.lson x) else some []).bind fun l =>
      (if s.rson x ≠ s.nil then inorderRbTraversal s fuel (s.rson x) else some []).map fun r =>
        x :: (l ++ r)

/-- `rb_traversal`。空の木でも番兵について呼ぶ。 -/
def rbTraversal (fuel : Nat) (s : PureRbtree) : Option (List Ptr) := s.inorderRbTraversal fuel s.root

end PureRbtree

/-! ## 破棄 -/

/-- `rb_destroy` が節について行うこと。 -/
inductive Touch where
  /-- 節の cell を読むか書く。 -/
  | access (p : Ptr)
  | freeElement (data : Ptr)
  | deleteRbnode (p : Ptr)
deriving DecidableEq, Repr

namespace PureRbtree

/-- loop の一回りが行うこと。子のない節は、親の cell に触れてから消す。 -/
def destroyTouches (s : PureRbtree) (x : Ptr) : List Touch :=
  if s.lson x ≠ s.nil then [.access x]
  else if s.rson x ≠ s.nil then [.access x]
  else
    [.access x, .access (s.parent x), .access x, .freeElement ((s.destroyBody x).1.data x),
      .deleteRbnode x]

/-- `rb_destroy` の loop。行ったことを順に並べる。 -/
def rbDestroyFrom : Nat → PureRbtree → Ptr → Option (PureRbtree × List Touch)
  | 0, _, _ => none
  | fuel + 1, s, x =>
    if x ≠ s.nil then
      (rbDestroyFrom fuel (s.destroyBody x).1 (s.destroyBody x).2.1).map fun (s', ts) =>
        (s', s.destroyTouches x ++ ts)
    else some (s, [])

def rbDestroy (fuel : Nat) (s : PureRbtree) : Option (PureRbtree × List Touch) :=
  rbDestroyFrom fuel s s.root

end PureRbtree

/-- `delete_rbnode` に渡した節。 -/
def deletedNodes (ts : List Touch) : List Ptr :=
  ts.filterMap fun
    | .deleteRbnode p => some p
    | _ => none

/-- `free_element` に渡した `data`。 -/
def freedData (ts : List Touch) : List Ptr :=
  ts.filterMap fun
    | .freeElement d => some d
    | _ => none

/-- 触れた節。 -/
def accessed (ts : List Touch) : List Ptr :=
  ts.filterMap fun
    | .access p => some p
    | _ => none

section

variable (t : Touch) (ts ts' : List Touch)

@[simp] theorem deletedNodes_nil : deletedNodes [] = [] := rfl

@[simp] theorem deletedNodes_append :
    deletedNodes (ts ++ ts') = deletedNodes ts ++ deletedNodes ts' := List.filterMap_append

@[simp] theorem freedData_append : freedData (ts ++ ts') = freedData ts ++ freedData ts' :=
  List.filterMap_append

@[simp] theorem accessed_append : accessed (ts ++ ts') = accessed ts ++ accessed ts' :=
  List.filterMap_append

end

end RecordServer.Datas
