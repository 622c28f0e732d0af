import RecordServer.Datas.Footprint

/-!
# 節の持ち主（`rb_destroy`・`~pure_rbtree`・`new_rbnode`・`delete_rbnode`）

木には `new_rbnode` で得た節も、呼ぶ側が自分の object に埋め込んだ節も入るが、どちらかは節のどこにも
記されない。`new_rbnode` と `delete_rbnode` の履歴を木の傍らに記して、木の一生を追う。

* `destroyBody` — `rb_destroy` の loop の一回り
* `Event` / `Held` / `Freed` — 履歴と、今の持ち主
* `Life` / `Life.step` — 木の一生。`rb_destroy` の loop は一回りを一手とする
-/

namespace RecordServer.Datas

open Infra

/--
`rb_destroy` の loop の一回り。次の `x` と、`delete_rbnode` に渡した節を返す。

子があればそちらへ下り、無ければ親から外して消す。`root` はどこでも書き換えない。
-/
def PureRbtree.destroyBody (s : PureRbtree) (x : Ptr) : PureRbtree × Ptr × Option Ptr :=
  let y := s.parent x
  if s.lson x ≠ s.nil then (s, s.lson x, none)
  else if s.rson x ≠ s.nil then (s, s.rson x, none)
  else
    let s :=
      if x = s.lson (s.parent x) then s.setLson (s.parent x) s.nil
      else s.setRson (s.parent x) s.nil
    (s, y, some x)

/-! ## 履歴 -/

/-- 節の番地の持ち主が変わる出来事。 -/
inductive Event where
  /-- `new_rbnode` が返した。 -/
  | new (p : Ptr)
  /-- 呼ぶ側が自分の節として使い始めた。 -/
  | own (p : Ptr)
  /-- `delete_rbnode` に渡した。 -/
  | delete (p : Ptr)
deriving DecidableEq, Repr

def Event.ptr : Event → Ptr
  | .new p => p
  | .own p => p
  | .delete p => p

/-- 番地 `p` の、最も新しい出来事。履歴は新しい順に並ぶ。 -/
def latest (log : List Event) (p : Ptr) : Option Event := log.find? fun e => e.ptr = p

/-- `new_rbnode` で得て、まだ消していない節。 -/
def Held (log : List Event) (p : Ptr) : Prop := latest log p = some (.new p)

/-- `delete_rbnode` に渡した後の節。 -/
def Freed (log : List Event) (p : Ptr) : Prop := latest log p = some (.delete p)

instance (log : List Event) (p : Ptr) : Decidable (Held log p) :=
  inferInstanceAs (Decidable (_ = _))

/-- どの節にも、二つの `delete_rbnode` の間に `new_rbnode` がある。 -/
def DeletedOnce (log : List Event) : Prop :=
  ∀ newer p between older, log = newer ++ .delete p :: (between ++ .delete p :: older) →
    .new p ∈ between

/-- `delete_rbnode` に渡した節は、どれもそのとき `new_rbnode` で得た節であった。 -/
def OnlyNew (log : List Event) : Prop :=
  ∀ newer p older, log = newer ++ .delete p :: older → Held older p

/-! ## 木の一生 -/

inductive Phase where
  /-- 呼び出しを待つ。 -/
  | idle
  /-- `rb_destroy` の loop の中。 -/
  | destroying (x : Ptr)
  /-- 破棄子の中の `rb_destroy` の loop の中。 -/
  | closing (x : Ptr)
  /-- 破棄子が終わった。 -/
  | dead
deriving DecidableEq, Repr

structure Life where
  tree : PureRbtree
  phase : Phase
  log : List Event

namespace Life

/-- 構築子。番兵も `new_rbnode` で得る。 -/
def init (heap : Ptr → RbNode) (nil : Ptr) : Life :=
  { tree := .init heap nil
    phase := .idle
    log := [.new nil] }

/-- 呼び出しで使い始める節。 -/
def acquired (log : List Event) : Call → List Event
  | .op (.insertKeyData z _ _) => [.new z]
  | .op (.insert z _) => if Held log z then [] else [.own z]
  | _ => []

/-- 呼び出しで `delete_rbnode` に渡す節。 -/
def deleted (fuel : Nat) (s : PureRbtree) : Call → Option (List Event)
  | .op (.deleteKey k) => (s.rbSearch fuel k).map fun z => if z ≠ s.nil then [.delete z] else []
  | _ => some []

/-- 一手。 -/
inductive Act where
  | call (c : Call)
  /-- `rb_destroy` が呼ばれる。 -/
  | destroy
  /-- 破棄子が呼ばれる。 -/
  | close
  /-- `rb_destroy` の loop の条件を見て、一回り進むか loop を抜ける。 -/
  | visit

/-- 呼び出しの前に、一手が使い始める節。 -/
def Act.acquired (l : Life) : Act → List Event
  | .call c => Life.acquired l.log c
  | _ => []

/-- loop の一回り。`phase` は次の `x` から決まる。 -/
def visitNode (l : Life) (x : Ptr) (phase : Ptr → Phase) : Life :=
  let r := l.tree.destroyBody x
  { tree := r.1
    phase := phase r.2.1
    log := (r.2.2.map Event.delete).toList ++ l.log }

def visit (l : Life) : Option Life :=
  match l.phase with
  | .destroying x =>
    some (if x ≠ l.tree.nil then l.visitNode x .destroying else { l with phase := .idle })
  | .closing x =>
    some (if x ≠ l.tree.nil then l.visitNode x .closing
      else { l with phase := .dead, log := .delete l.tree.nil :: l.log })
  | _ => none

def step (fuel : Nat) (l : Life) : Act → Option Life
  | .call c =>
    if l.phase = .idle then
      (call fuel l.tree c).bind fun r => (deleted fuel l.tree c).map fun es =>
        { l with tree := r.1, log := es ++ (acquired l.log c ++ l.log) }
    else none
  | .destroy => if l.phase = .idle then some { l with phase := .destroying l.tree.root } else none
  | .close => if l.phase = .idle then some { l with phase := .closing l.tree.root } else none
  | .visit => l.visit

/-- 一手が `l'` で終わる。 -/
def Steps (l : Life) (a : Act) (l' : Life) : Prop := Converges (fun fuel => l.step fuel a) l'

/-- 呼ぶ側が守ること。公開の関数は `rb_destroy` の外で、許された引数で呼ぶ。 -/
def Permitted (l : Life) : Act → Prop
  | .call c => l.phase = .idle ∧ c.Allowed l.tree
  | .destroy => l.phase = .idle
  | .close => l.phase = .idle
  | .visit => l.phase ≠ .idle ∧ l.phase ≠ .dead

/--
節の持ち主が守られる条件。

`rb_delete_key` が見つける節は `new_rbnode` で得たものである。`rb_destroy` は空の木に行う。
破棄のとき、木に残る節はどれも `new_rbnode` で得たものである。
-/
def Keeps (l : Life) : Act → Prop
  | .call c => ∀ z, c.Deletes l.tree z → z ≠ l.tree.nil → Held l.log z
  | .destroy => l.tree.root = l.tree.nil
  | .close => ∀ p, InTree l.tree p → Held l.log p
  | .visit => True

/-- cell `p` の中身を `n` にする。 -/
def poke (l : Life) (p : Ptr) (n : RbNode) : Life := { l with tree := l.tree.poke p n }

/--
一手は、消した節を読まない。

消した節の cell の中身を何に差し替えても、一手の結果は差し替えた cell しか違わない。
-/
def ReadsNoFreed (l : Life) (a : Act) : Prop :=
  ∀ p n l', Freed (a.acquired l ++ l.log) p → l.Steps a l' → (l.poke p n).Steps a (l'.poke p n)

end Life

end RecordServer.Datas
