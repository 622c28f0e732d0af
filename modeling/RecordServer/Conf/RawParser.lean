import RecordServer.Conf.ParseBlock

/-!
# 局所変数と表の引き方の見える parser

`Conf.Pconf` と同じ parser を、初期化されない局所変数を指す先と長さに分け、表を引いた文字と先読みした
位置を記録しながら書き直す。

* `Locals` — 周回ごとに宣言し直される `name`・`name_len`・`value_len` の、初めの値
* `Event` — `validname` / `validvalue` の呼び出しと、`is_sub_node` / `is_array_node` の呼び出し

表の範囲の外の値は `Env` から取る。`Env.name` は読まない。
-/

namespace RecordServer.Conf.Raw

open Infra

/-! ## 状態 -/

/-- 残り `n` byte で始まる周回の、初期化されていない局所変数。 -/
structure Locals where
  /-- `name` の指す先。`none` は `NULL` である -/
  name : Nat → Option Bytes
  nameLen : Nat → Int
  valueLen : Nat → Int

inductive Table
  | name
  | value
  deriving DecidableEq, Repr

inductive Event
  /-- `validname(p)` か `validvalue(p)` が文字 `*p` を調べた -/
  | test (t : Table) (b : UInt8)
  /-- `is_sub_node(p)` か `is_array_node(p)` が `p` の先を見た -/
  | ahead (p : Bytes)
  deriving DecidableEq, Repr

structure State where
  pconf : Pconf
  events : List Event

def State.report (s : State) (m : Message) (p : Bytes) : State :=
  { s with pconf := s.pconf.report m p }

def State.levelUp (s : State) : State := { s with pconf := s.pconf.levelUp }

def State.levelDown (s : State) : State := { s with pconf := s.pconf.levelDown }

def State.record (s : State) (e : Event) : State := { s with events := s.events ++ [e] }

def jumpspace (p : Bytes) (s : State) : Bytes × State :=
  let (p, c) := Conf.jumpspace p s.pconf
  (p, { s with pconf := c })

/-! ## 表 -/

def Table.valid (env : Env) : Table → UInt8 → Bool
  | .name => validname env
  | .value => validvalue env

/-- 表を引く添字。`*p > 127` なら表は引かない。 -/
def lookupIndex (b : UInt8) : Option Int := if charValue b > 127 then none else some (charValue b)

/-- `validname` か `validvalue` を呼ぶ。 -/
def test (env : Env) (t : Table) (b : UInt8) (s : State) : Bool × State :=
  (t.valid env b, s.record (.test t b))

/-! ## 字句 -/

/-- 出力引数 `*o` と `*len`。 -/
structure Out where
  o : Option Bytes
  len : Int

/-- `o` から `len` byte の文字列。 -/
def text (o : Bytes) (len : Int) : Bytes := o.take len.toNat

/-- `while (p < end && valid(p)) p++` -/
def scan (env : Env) (t : Table) : Bytes → State → Bytes × State
  | [], s => ([], s)
  | b :: p, s =>
    let (ok, s) := test env t b s
    if ok then scan env t p s else (b :: p, s)

/-- 三つの `find_valid_*` に共通の前半。並びの先頭の文字は二度調べる。 -/
def findValid (env : Env) (t : Table) (p : Bytes) (out : Out) (s : State) : Bytes × Out × State :=
  let (p, s) := jumpspace p s
  match p with
  | [] => ([], out, s)
  | b :: rest =>
    let (ok, s) := test env t b s
    if ok then
      let (p, s) := scan env t (b :: rest) s
      (p, ⟨some (b :: rest), (b :: rest).length - p.length⟩, s)
    else (b :: rest, ⟨none, 0⟩, s.report .illegalChar (b :: rest))

def findValidName (env : Env) (p : Bytes) (out : Out) (s : State) : Bytes × Out × State :=
  findValid env .name p out s

/-- 並びが取れたことは、`*o` を前もって `NULL` にしておく呼び出し側からわかる。 -/
def findValidValue (env : Env) (p : Bytes) (len : Int) (s : State) : Bytes × Out × State :=
  match findValid env .value p ⟨none, len⟩ s with
  | (p, ⟨some w, len⟩, s) =>
    let (p, s) := jumpspace p s
    if deref p = semicolon then (p.tail, ⟨some w, len⟩, s)
    else (p, ⟨none, 0⟩, s.report .expectSemicolon p)
  | r => r

def findValidArrayValue (env : Env) (p : Bytes) (len : Int) (s : State) : Bytes × Out × State :=
  match findValid env .value p ⟨none, len⟩ s with
  | (p, ⟨some w, len⟩, s) =>
    let (p, s) := jumpspace p s
    (p, ⟨some w, len⟩, s)
  | r => r

def nextIs (c : UInt8) (p : Bytes) (s : State) : Bool × State :=
  let s := s.record (.ahead p)
  let (p, s) := jumpspace p s
  (p.head? == some c, s)

def isSubNode (p : Bytes) (s : State) : Bool × State := nextIs lbrace p s

def isArrayNode (p : Bytes) (s : State) : Bool × State := nextIs lbracket p s

/-! ## 構文 -/

abbrev Result := Option Bytes × State × CN

/-- `parse_arraylh` の loop。`value` は周回ごとに `NULL` に、`value_len` は不定になる。 -/
def parseArraylhLoop (env : Env) (locals : Locals) : Nat → Bool → Bytes → State → Option Result
  | 0, _, _, _ => none
  | _ + 1, _, [], s => some (some [], s, newNode)
  | fuel + 1, commonNeed, b :: p, s =>
    let n := (b :: p).length
    let (p, s) := jumpspace (b :: p) s
    match p with
    | [] => some (none, s.report .exceptBracket [], newNode)
    | b :: rest =>
      if b = rbracket then some (some rest, s.levelDown, newNode)
      else if commonNeed ∧ b ≠ comma then
        some (none, s.report .exceptComma (b :: rest), newNode)
      else
        let p := if commonNeed then rest else b :: rest
        let (p, value, s) := findValidArrayValue env p (locals.valueLen n) s
        match value.o with
        | none => some (none, s.report .uncompletedFile p, newNode)
        | some o =>
          if p = [] then some (none, s.report .uncompletedLine p, newNode)
          else
            (parseArraylhLoop env locals fuel true p s).map fun (r, s, next) =>
              (r, s, Fields.link ⟨[], rcStrncpy confVarl (text o value.len), .arrayEle, .null⟩ next)

def parseArraylh (env : Env) (locals : Locals) (fuel : Nat) (p : Bytes) (s : State) :
    Option Result :=
  parseArraylhLoop env locals fuel false p s.levelUp

/-- `parse_main` の `case proc_mod_t`。`mod_name` は `NULL`、`mod_len` は 0 で始まる。 -/
def parseProc (sub : Bytes → State → Option Result) (env : Env) (p : Bytes) (s : State) :
    Option (Step × State × Fields) :=
  let (p, mod, s) := findValidName env p ⟨none, 0⟩ s
  match mod.o with
  | none => some (.returnNull, s.report .emptyFile p, ⟨[], [], .procModT, .null⟩)
  | some o =>
    if p = [] then some (.returnNull, s.report .uncompletedLine p, ⟨[], [], .procModT, .null⟩)
    else
      let (p, s) := jumpspace p s
      if deref p = lbrace then
        (sub p.tail s).map fun (r, s, smodlh) =>
          (.goOn r, s, ⟨rcStrncpy confNamel (text o mod.len), [], .procModT, smodlh⟩)
      else
        some (.returnNull, s.report .exceptOpen p,
          ⟨rcStrncpy confNamel (text o mod.len), [], .procModT, newNode⟩)

/-- `case char_t`。`value` は `NULL`、`value_len` は 0 で始まる。 -/
def parseValue (env : Env) (name p : Bytes) (s : State) : Option (Step × State × Fields) :=
  let (p, value, s) := findValidValue env p 0 s
  match value.o with
  | none =>
    some (.returnNull, s.report .exceptValue p, ⟨rcStrncpy confNamel name, [], .charT, .null⟩)
  | some o =>
    if p = [] then
      some (.returnNull, s.report .exceptValue p, ⟨rcStrncpy confNamel name, [], .charT, .null⟩)
    else
      some (.goOn (some p), s,
        ⟨rcStrncpy confNamel name, rcStrncpy confVarl (text o value.len), .charT, .null⟩)

def parseKeyword (sub : Bytes → State → Option Result) (env : Env) (top : Bool) (name p : Bytes)
    (s : State) : Option (Step × State × Fields) :=
  match checkKeyword name, top with
  | .charT, _ => parseValue env name p s
  | .procModT, true => parseProc sub env p s
  | ntype, _ => some (.returnNull, s.report .unsupportKeyword p, ⟨[], [], ntype, .null⟩)

def parseEntry (sub arr : Bytes → State → Option Result) (env : Env) (top : Bool) (name p : Bytes)
    (s : State) : Option (Step × State × Fields) :=
  let (isSub, s) := isSubNode p s
  if isSub then
    let (p, s) := jumpspace p s
    (sub p.tail s).map fun (r, s, smodlh) =>
      (.goOn r, s, ⟨rcStrncpy confNamel name, [], .subnodeT, smodlh⟩)
  else
    let (isArray, s) := isArrayNode p s
    if isArray then
      let (p, s) := jumpspace p s
      (arr p.tail s).map fun (r, s, smodlh) =>
        (.goOn r, s, ⟨rcStrncpy confNamel name, [], .arrayT, smodlh⟩)
    else parseKeyword sub env top name p s

inductive Head
  | returns (r : Option Bytes) (s : State)
  | name (name p : Bytes) (s : State)

/-- `name` は初期化されない。`find_valid_name` が書かなければ、不定の値のまま調べる。 -/
def parseMainHead (env : Env) (locals : Locals) (p : Bytes) (s : State) : Head :=
  let n := p.length
  let (p, name, s) := findValidName env p ⟨locals.name n, locals.nameLen n⟩ s
  match name.o with
  | none => .returns none (s.report .emptyFile p)
  | some o => if p = [] then .returns (some p) s else .name (text o name.len) p s

def parseSmodlhHead (env : Env) (locals : Locals) (p : Bytes) (s : State) : Head :=
  let n := p.length
  let (p, s) := jumpspace p s
  match p with
  | [] => .returns none (s.report .exceptClose [])
  | b :: rest =>
    if b = rbrace then .returns (some rest) s.levelDown
    else
      let (p, name, s) := findValidName env (b :: rest) ⟨locals.name n, locals.nameLen n⟩ s
      match name.o with
      | none => .returns none (s.report .uncompletedFile p)
      | some o =>
        if p = [] then .returns none (s.report .uncompletedLine p)
        else .name (text o name.len) p s

def parseHead (env : Env) (locals : Locals) (top : Bool) (p : Bytes) (s : State) : Head :=
  if top then parseMainHead env locals p s else parseSmodlhHead env locals p s

def afterEntry (loop : Bytes → State → Option Result) : Step × State × Fields → Option Result
  | (.returnNull, s, node) => some (none, s, node.link .null)
  | (.goOn none, s, node) => some (none, s, node.link newNode)
  | (.goOn (some p), s, node) => (loop p s).map fun (r, s, next) => (r, s, node.link next)

def parseLoop (env : Env) (locals : Locals) : Nat → Bool → Bytes → State → Option Result
  | 0, _, _, _ => none
  | _ + 1, _, [], s => some (some [], s, newNode)
  | fuel + 1, top, b :: p, s =>
    match parseHead env locals top (b :: p) s with
    | .returns r s => some (r, s, newNode)
    | .name name p s =>
      (parseEntry (fun p s => parseLoop env locals fuel false p s.levelUp)
        (parseArraylh env locals fuel) env top name p s).bind
        (afterEntry (parseLoop env locals fuel top))

def parseSmodlh (env : Env) (locals : Locals) (fuel : Nat) (p : Bytes) (s : State) :
    Option Result :=
  parseLoop env locals fuel false p s.levelUp

def parseMain (env : Env) (locals : Locals) (fuel : Nat) (p : Bytes) (s : State) :
    Option Result :=
  parseLoop env locals fuel true p s

def parse (env : Env) (locals : Locals) (buf : Bytes) : Option (Int × State × CN) :=
  (parseMain env locals (buf.length + 1) buf ⟨⟨1, 0, []⟩, []⟩).map fun (p, s, mch) =>
    if p = some [] ∧ s.pconf.level = 0 then (0, s, mch)
    else
      (-1, if s.pconf.level > 0 then s.report .unexceptClose (p.getD s.pconf.stopped) else s, mch)

end RecordServer.Conf.Raw
