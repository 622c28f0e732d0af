import RecordServer.Infra.RBTree
import RecordServer.Infra.Fuel
import Mathlib.Logic.Function.Basic

/-!
# 赤黒木（`pure_rbtree.cpp`）

節は heap の cell で、`parent`・`lson`・`rson` の pointer で繋がる。葉はどれも共有の番兵 `nil` で、
`rb_delete` は番兵の `parent` も一時の置き場に使う。loop は燃料を受け取り、足りなければ `none` を返す。

左右だけが違う枝と、`left_rotate`・`right_rotate` は、側 `d` を引数に持つ一つの定義にする。
-/

namespace RecordServer.Datas

open Infra

/-- 節の番地。`NULL` は `0`。 -/
abbrev Ptr := Nat

/-- `ul64`。 -/
abbrev Key := Fin (2 ^ 64)

/-- `key` に数を書くための instance。 -/
instance Key.neZero : NeZero (2 ^ 64) := ⟨by decide⟩

/-- `rb_node`。`data` は `void *` である。 -/
structure RbNode where
  parent : Ptr
  lson : Ptr
  rson : Ptr
  colour : Colour
  key : Key
  data : Ptr
deriving DecidableEq, Repr

/-- `pure_rbtree` の `nil`・`root` と、節の置かれた heap。 -/
structure PureRbtree where
  heap : Ptr → RbNode
  nil : Ptr
  root : Ptr

namespace PureRbtree

def parent (s : PureRbtree) (p : Ptr) : Ptr := (s.heap p).parent

def lson (s : PureRbtree) (p : Ptr) : Ptr := (s.heap p).lson

def rson (s : PureRbtree) (p : Ptr) : Ptr := (s.heap p).rson

def colour (s : PureRbtree) (p : Ptr) : Colour := (s.heap p).colour

def key (s : PureRbtree) (p : Ptr) : Key := (s.heap p).key

def data (s : PureRbtree) (p : Ptr) : Ptr := (s.heap p).data

/-- cell `p` を書き換える。 -/
def modify (s : PureRbtree) (p : Ptr) (f : RbNode → RbNode) : PureRbtree :=
  { s with heap := Function.update s.heap p (f (s.heap p)) }

def setParent (s : PureRbtree) (p v : Ptr) : PureRbtree := s.modify p fun n => { n with parent := v }

def setLson (s : PureRbtree) (p v : Ptr) : PureRbtree := s.modify p fun n => { n with lson := v }

def setRson (s : PureRbtree) (p v : Ptr) : PureRbtree := s.modify p fun n => { n with rson := v }

def setColour (s : PureRbtree) (p : Ptr) (c : Colour) : PureRbtree :=
  s.modify p fun n => { n with colour := c }

def setRoot (s : PureRbtree) (p : Ptr) : PureRbtree := { s with root := p }

/-- `d` 側の子。 -/
def son (s : PureRbtree) : Side → Ptr → Ptr
  | .left => s.lson
  | .right => s.rson

def setSon (s : PureRbtree) : Side → Ptr → Ptr → PureRbtree
  | .left => s.setLson
  | .right => s.setRson

/-- 構築子。`memset` で 0 にした番兵（`BLACK` は 0）が、自分自身を指す。 -/
def init (heap : Ptr → RbNode) (nil : Ptr) : PureRbtree :=
  { heap := Function.update heap nil
      { parent := nil, lson := nil, rson := nil, colour := .black, key := 0, data := 0 }
    nil := nil
    root := nil }

/-- `x` の親（無ければ `root`）の `x` を指す pointer を `y` に付け替える。 -/
def relink (s : PureRbtree) (x y : Ptr) : PureRbtree :=
  if s.parent x = s.nil then s.setRoot y
  else if x = s.lson (s.parent x) then s.setLson (s.parent x) y
  else s.setRson (s.parent x) y

/-- `left_rotate`（`d` が左）と `right_rotate`（`d` が右）。`x` が `d` 側に下がる。 -/
def rotate (d : Side) (s : PureRbtree) (x : Ptr) : PureRbtree :=
  let y := s.son d.other x
  let s := s.setSon d.other x (s.son d y)
  let s := if s.son d y ≠ s.nil then s.setParent (s.son d y) x else s
  let s := s.setParent y (s.parent x)
  let s := s.relink x y
  let s := s.setSon d y x
  s.setParent x y

def leftRotate : PureRbtree → Ptr → PureRbtree := rotate .left

def rightRotate : PureRbtree → Ptr → PureRbtree := rotate .right

/-! ## 挿入 -/

/-- `rb_insert_fixup` の一回分。`z` の親が `d` 側の子のときの枝で、次の `z` も返す。 -/
def insertFixupSide (d : Side) (s : PureRbtree) (z : Ptr) : PureRbtree × Ptr :=
  let y := s.son d.other (s.parent (s.parent z))
  if s.colour y = .red then
    let s := s.setColour (s.parent z) .black
    let s := s.setColour y .black
    let s := s.setColour (s.parent (s.parent z)) .red
    (s, s.parent (s.parent z))
  else
    let (s, z) :=
      if z = s.son d.other (s.parent z) then (rotate d s (s.parent z), s.parent z) else (s, z)
    let s := s.setColour (s.parent z) .black
    let s := s.setColour (s.parent (s.parent z)) .red
    (rotate d.other s (s.parent (s.parent z)), z)

def rbInsertFixup : Nat → PureRbtree → Ptr → Option PureRbtree
  | 0, _, _ => none
  | fuel + 1, s, z =>
    if s.colour (s.parent z) = .red then
      let (s, z) :=
        if s.parent z = s.lson (s.parent (s.parent z)) then insertFixupSide .left s z
        else insertFixupSide .right s z
      rbInsertFixup fuel s z
    else some (s.setColour s.root .black)

/-- `rb_insert` の最初の loop。番兵に着いたときの親を返す。 -/
def insertParent (s : PureRbtree) (k : Key) : Nat → Ptr → Ptr → Option Ptr
  | 0, _, _ => none
  | fuel + 1, y, x =>
    if x ≠ s.nil then
      if k < s.key x then insertParent s k fuel x (s.lson x) else insertParent s k fuel x (s.rson x)
    else some y

/-- `rb_insert` が `z` を `y` の下に繋ぐところ。 -/
def attach (s : PureRbtree) (z y : Ptr) : PureRbtree :=
  let s := s.setParent z y
  let s :=
    if y = s.nil then s.setRoot z
    else if s.key z < s.key y then s.setLson y z
    else s.setRson y z
  let s := s.setLson z s.nil
  let s := s.setRson z s.nil
  s.setColour z .red

def rbInsert (fuel : Nat) (s : PureRbtree) (z : Ptr) : Option PureRbtree :=
  (insertParent s (s.key z) fuel s.nil s.root).bind fun y => rbInsertFixup fuel (s.attach z y) z

/-- `new_rbnode` が返した番地 `z` を受け取る。`NULL` なら何もせず `-1` を返す。 -/
def rbInsertKeyData (fuel : Nat) (s : PureRbtree) (z : Ptr) (k : Key) (d : Ptr) :
    Option (PureRbtree × Int) :=
  if z = 0 then some (s, -1)
  else (rbInsert fuel (s.modify z fun n => { n with key := k, data := d }) z).map fun s => (s, 0)

/-! ## 削除 -/

def rbTransplant (s : PureRbtree) (u v : Ptr) : PureRbtree :=
  let s := s.relink u v
  s.setParent v (s.parent u)

def treeMinimum (s : PureRbtree) : Nat → Ptr → Option Ptr
  | 0, _ => none
  | fuel + 1, x => if s.lson x ≠ s.nil then treeMinimum s fuel (s.lson x) else some x

/-- `rb_delete_fixup` で、`d` 側の子 `x` の兄弟が赤いときの枝。兄弟を返す。 -/
def deleteFixupSibling (d : Side) (s : PureRbtree) (x : Ptr) : PureRbtree × Ptr :=
  let w := s.son d.other (s.parent x)
  if s.colour w = .red then
    let s := s.setColour w .black
    let s := s.setColour (s.parent x) .red
    let s := rotate d s (s.parent x)
    (s, s.son d.other (s.parent x))
  else (s, w)

/-- 兄弟 `w` の外側の子が黒いときの枝。兄弟を返す。 -/
def deleteFixupInner (d : Side) (s : PureRbtree) (x w : Ptr) : PureRbtree × Ptr :=
  if s.colour (s.son d.other w) = .black then
    let s := s.setColour (s.son d w) .black
    let s := s.setColour w .red
    let s := rotate d.other s w
    (s, s.son d.other (s.parent x))
  else (s, w)

/-- 兄弟 `w` の外側の子が赤いところから、loop を終えさせるまで。 -/
def deleteFixupOuter (d : Side) (s : PureRbtree) (x w : Ptr) : PureRbtree × Ptr :=
  let s := s.setColour w (s.colour (s.parent x))
  let s := s.setColour (s.parent x) .black
  let s := s.setColour (s.son d.other w) .black
  let s := rotate d s (s.parent x)
  (s, s.root)

/-- `rb_delete_fixup` の一回分。`x` が `d` 側の子のときの枝で、次の `x` も返す。 -/
def deleteFixupSide (d : Side) (s : PureRbtree) (x : Ptr) : PureRbtree × Ptr :=
  let (s, w) := s.deleteFixupSibling d x
  if s.colour (s.lson w) = .black ∧ s.colour (s.rson w) = .black then
    (s.setColour w .red, s.parent x)
  else
    let (s, w) := s.deleteFixupInner d x w
    s.deleteFixupOuter d x w

def rbDeleteFixup : Nat → PureRbtree → Ptr → Option PureRbtree
  | 0, _, _ => none
  | fuel + 1, s, x =>
    if x ≠ s.root ∧ s.colour x = .black then
      let (s, x) :=
        if x = s.lson (s.parent x) then deleteFixupSide .left s x else deleteFixupSide .right s x
      rbDeleteFixup fuel s x
    else some (s.setColour x .black)

/-- `z` に子が二つあるとき、後続の節 `y` を元の場所から外す。 -/
def takeSuccessor (s : PureRbtree) (z y : Ptr) : PureRbtree :=
  if s.parent y = z then s.setParent (s.rson y) y
  else
    let s := s.rbTransplant y (s.rson y)
    let s := s.setRson y (s.rson z)
    s.setParent (s.rson y) y

/-- 外した `y` を `z` の場所に据える。 -/
def putSuccessor (s : PureRbtree) (z y : Ptr) : PureRbtree :=
  let s := s.rbTransplant z y
  let s := s.setLson y (s.lson z)
  let s := s.setParent (s.lson y) y
  s.setColour y (s.colour z)

/-- `y_orc` が黒なら `rb_delete_fixup` を呼ぶ。 -/
def finishDelete (fuel : Nat) (s : PureRbtree) (yOrc : Colour) (x : Ptr) : Option PureRbtree :=
  if yOrc = .black then rbDeleteFixup fuel s x else some s

def rbDelete (fuel : Nat) (s : PureRbtree) (z : Ptr) : Option PureRbtree :=
  if s.lson z = s.nil then
    finishDelete fuel (s.rbTransplant z (s.rson z)) (s.colour z) (s.rson z)
  else if s.rson z = s.nil then
    finishDelete fuel (s.rbTransplant z (s.lson z)) (s.colour z) (s.lson z)
  else
    (s.treeMinimum fuel (s.rson z)).bind fun y =>
      finishDelete fuel ((s.takeSuccessor z y).putSuccessor z y) (s.colour y) (s.rson y)

/-! ## 検索 -/

def rbSearchFrom (s : PureRbtree) (k : Key) : Nat → Ptr → Option Ptr
  | 0, _ => none
  | fuel + 1, x =>
    if x ≠ s.nil ∧ k ≠ s.key x then
      if k < s.key x then rbSearchFrom s k fuel (s.lson x) else rbSearchFrom s k fuel (s.rson x)
    else some x

def rbSearch (fuel : Nat) (s : PureRbtree) (k : Key) : Option Ptr := s.rbSearchFrom k fuel s.root

/-- 見つかった節の `data`。無ければ `NULL`。 -/
def rbSearchKey (fuel : Nat) (s : PureRbtree) (k : Key) : Option Ptr :=
  (s.rbSearch fuel k).map fun z => if z ≠ s.nil then s.data z else 0

/-- 戻り値と、書き込まれたなら `*out_data`。`delete_rbnode` で消した節の cell はもう読まれない。 -/
def rbDeleteKey (fuel : Nat) (s : PureRbtree) (k : Key) : Option (PureRbtree × Int × Option Ptr) :=
  (s.rbSearch fuel k).bind fun z =>
    if z ≠ s.nil then (s.rbDelete fuel z).map fun s' => (s', 0, some (s.data z))
    else some (s, -1, none)

def treeMinimumNode (fuel : Nat) (s : PureRbtree) : Option Ptr :=
  if s.root = s.nil then some s.nil else s.treeMinimum fuel s.root

/-- 戻り値と、書き込まれたなら `*out_data`。空の木では `0` を返し、何も書かない。 -/
def treeMinimumKey (fuel : Nat) (s : PureRbtree) : Option (Key × Option Ptr) :=
  if s.root = s.nil then some (0, none)
  else (s.treeMinimum fuel s.root).map fun min => (s.key min, some (s.data min))

end PureRbtree

/-- どの cell も同じ値の heap。 -/
def blankHeap (_ : Ptr) : RbNode := ⟨0, 0, 0, .red, 0, 0⟩

end RecordServer.Datas
