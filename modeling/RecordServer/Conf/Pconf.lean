import RecordServer.Infra.Bytes

/-!
# 設定ファイルの parser（`pconf.cpp`）

`buf` の中の位置は、そこから `end` までの byte 列で表す。`p >= end` は空列であり、
`end` には 0 の byte がある（`readfile`）。

* `jumpspace` / `findValidName` / `findValidValue` / `findValidArrayValue` — 字句
* `parseArraylh` / `parseSmodlh` / `parseMain` / `parse` — 構文
* `CN` — 出来上がる `CN_S` の list。どの list も空の節で終わる

loop は燃料を受け取る。外側の `none` は燃料切れ、内側の `none` は `NULL` である。

source が初期化せずに読む値は `Env` に置く。表を範囲外で引いた結果と、
`find_valid_name` が書かなかったときの `name` である。
-/

namespace RecordServer.Conf

open Infra

/-! ## 文字 -/

@[match_pattern] abbrev newline : UInt8 := 10
@[match_pattern] abbrev sharp : UInt8 := 35
@[match_pattern] abbrev comma : UInt8 := 44
@[match_pattern] abbrev semicolon : UInt8 := 59
@[match_pattern] abbrev lbracket : UInt8 := 91
@[match_pattern] abbrev rbracket : UInt8 := 93
@[match_pattern] abbrev lbrace : UInt8 := 123
@[match_pattern] abbrev rbrace : UInt8 := 125

/-- `*p`。`end` では 0 である。 -/
def deref : Bytes → UInt8
  | [] => 0
  | b :: _ => b

def bvalidname : List Nat :=
  [0,0,0,0,0,0,0,0,
   0,0,0,0,0,0,0,0,
   0,0,0,0,0,0,0,0,
   0,0,0,0,0,0,0,0,
   0,0,0,0,0,0,0,0,
   0,0,0,0,0,0,0,0,
   1,1,1,1,1,1,1,1,
   1,1,1,0,0,0,0,0,
   1,1,1,1,1,1,1,1,
   1,1,1,1,1,1,1,1,
   1,1,1,1,1,1,1,1,
   1,1,1,0,0,0,0,1,
   0,1,1,1,1,1,1,1,
   1,1,1,1,1,1,1,1,
   1,1,1,1,1,1,1,1,
   1,1,1,0,0,0,0,0]

def bvalidvalue : List Nat :=
  [0,0,0,0,0,0,0,0,
   0,0,0,0,0,0,0,0,
   0,0,0,0,0,0,0,0,
   0,0,0,0,0,0,0,0,
   0,1,1,1,1,1,1,1,
   1,1,1,1,0,1,1,1,
   1,1,1,1,1,1,1,1,
   1,1,1,0,1,1,1,1,
   1,1,1,1,1,1,1,1,
   1,1,1,1,1,1,1,1,
   1,1,1,1,1,1,1,1,
   1,1,1,0,1,0,1,1,
   1,1,1,1,1,1,1,1,
   1,1,1,1,1,1,1,1,
   1,1,1,1,1,1,1,1,
   1,1,1,1,1,1,1,0]

/-- source が決めていない値。 -/
structure Env where
  /-- `bvalidname` を範囲外の添字で読んだ値 -/
  outsideName : Int → Bool
  /-- `bvalidvalue` を範囲外の添字で読んだ値 -/
  outsideValue : Int → Bool
  /-- 残り `n` byte で始まる周回の、初期化されていない `name`。`none` は `NULL` である -/
  name : Nat → Option Bytes

/-- 符号つきの `char` としての値。 -/
def charValue (b : UInt8) : Int := if b < 128 then b.toNat else b.toNat - 256

/-- `bool[128]` を添字 `i` で引く。 -/
def lookup (table : List Nat) (outside : Int → Bool) (i : Int) : Bool :=
  if 0 ≤ i ∧ i < 128 then table.getD i.toNat 0 != 0 else outside i

def validname (env : Env) (b : UInt8) : Bool :=
  if charValue b > 127 then false else lookup bvalidname env.outsideName (charValue b)

def validvalue (env : Env) (b : UInt8) : Bool :=
  if charValue b > 127 then false else lookup bvalidvalue env.outsideValue (charValue b)

/-! ## 節 -/

/-- `conf_node_type`。 -/
inductive NodeType
  | emptyT | charT | subnodeT | procModT | arrayT | arrayEle | cmdT
  deriving DecidableEq, Repr

/-- `CN_S *`。`modn` と `var` は NUL の手前までの文字列である。 -/
inductive CN
  | null
  | node (modn var : Bytes) (ntype : NodeType) (smodlh next : CN)
  deriving DecidableEq, Repr

def newNode : CN := .node [] [] .emptyT .null .null

/-- `next` を繋ぐ前の節。 -/
structure Fields where
  modn : Bytes
  var : Bytes
  ntype : NodeType
  smodlh : CN

def Fields.link (f : Fields) (next : CN) : CN := .node f.modn f.var f.ntype f.smodlh next

def confNamel : Nat := 64

def confVarl : Nat := 128

/-- `rc_strncpy`。`dest` に残る C の文字列。 -/
def rcStrncpy (dl : Nat) (src : Bytes) : Bytes :=
  if src.length < dl - 1 then (src.take src.length).takeWhile (· != 0)
  else (src.take (dl - 1)).takeWhile (· != 0)

def keywordList : List Bytes := [ascii "proc"]

def checkKeyword (name : Bytes) : NodeType :=
  if keywordList.contains name then .procModT else .charT

/-! ## 状態と報告 -/

/-- `printf` される報告。 -/
inductive Message
  /-- `include an illegal char` -/
  | illegalChar
  /-- `expect a ';'` -/
  | expectSemicolon
  /-- `empty configuration file` -/
  | emptyFile
  /-- `except a value` -/
  | exceptValue
  /-- `uncompleted line` -/
  | uncompletedLine
  /-- `uncompleted configuration file` -/
  | uncompletedFile
  /-- `except` と開き波括弧 -/
  | exceptOpen
  /-- `except` と閉じ波括弧 -/
  | exceptClose
  /-- `except ']'` -/
  | exceptBracket
  /-- `except ','` -/
  | exceptComma
  /-- `unsupport keyword` -/
  | unsupportKeyword
  /-- `unexcept` と閉じ波括弧 -/
  | unexceptClose
  deriving DecidableEq, Repr

/-- 報告したときの行番号と、読んでいた位置の残り。 -/
structure Report where
  message : Message
  linenum : Nat
  rest : Bytes
  deriving DecidableEq, Repr

structure Pconf where
  linenum : Nat
  level : Int
  log : List Report
  deriving DecidableEq, Repr

def Pconf.report (s : Pconf) (m : Message) (p : Bytes) : Pconf :=
  { s with log := s.log ++ [⟨m, s.linenum, p⟩] }

/-- 最後に報告した位置。`NULL` が返るとき、読む位置はここで止まっている。 -/
def Pconf.stopped (s : Pconf) : Bytes := (s.log.getLast?.map (·.rest)).getD []

def Pconf.nextLine (s : Pconf) : Pconf := { s with linenum := s.linenum + 1 }

def Pconf.levelUp (s : Pconf) : Pconf := { s with level := s.level + 1 }

def Pconf.levelDown (s : Pconf) : Pconf := { s with level := s.level - 1 }

/-! ## 字句 -/

/-- `jumpcomment`。`inside` は行の終わりを探す内側の loop の中である。 -/
def jumpcomment (inside : Bool) : Bytes → Pconf → Bytes × Pconf
  | [], s => ([], s)
  | b :: p, s =>
    if inside then
      if b = newline then jumpcomment false p s.nextLine else jumpcomment true p s
    else if b = sharp then jumpcomment true p s
    else (b :: p, s)

def jumpspaceLoop : Nat → Bytes → Pconf → Bytes × Pconf
  | 0, p, s => (p, s)
  | _ + 1, [], s => ([], s)
  | fuel + 1, b :: p, s =>
    if b = 32 ∨ b = 9 ∨ b = 13 then jumpspaceLoop fuel p s
    else if b = newline then jumpspaceLoop fuel p s.nextLine
    else if b = sharp then
      let (p, s) := jumpcomment false (b :: p) s
      jumpspaceLoop fuel p s
    else (b :: p, s)

/-- `jumpspace`。一周で一つ以上進むので、燃料は残りの長さで足りる。 -/
def jumpspace (p : Bytes) (s : Pconf) : Bytes × Pconf := jumpspaceLoop p.length p s

/-- 出力引数 `*o`・`*len` への書き込み。 -/
inductive Written
  | untouched
  | null
  | token (w : Bytes)
  deriving DecidableEq, Repr

/-- 呼ぶ前の値が `old` である変数の、呼んだ後の値。 -/
def Written.read (w : Written) (old : Option Bytes) : Option Bytes :=
  match w with
  | .untouched => old
  | .null => none
  | .token w => some w

/-- 三つの `find_valid_*` に共通の前半。許された文字の極大な並びを取る。 -/
def findValid (valid : UInt8 → Bool) (p : Bytes) (s : Pconf) : Bytes × Written × Pconf :=
  let (p, s) := jumpspace p s
  match p with
  | [] => ([], .untouched, s)
  | b :: rest =>
    if valid b then
      ((b :: rest).dropWhile valid, .token ((b :: rest).takeWhile valid), s)
    else (b :: rest, .null, s.report .illegalChar (b :: rest))

def findValidName (env : Env) (p : Bytes) (s : Pconf) : Bytes × Written × Pconf :=
  findValid (validname env) p s

/-- 並びの後に `;` を求め、それも読む。 -/
def findValidValue (env : Env) (p : Bytes) (s : Pconf) : Bytes × Written × Pconf :=
  match findValid (validvalue env) p s with
  | (p, .token w, s) =>
    let (p, s) := jumpspace p s
    if deref p = semicolon then (p.tail, .token w, s)
    else (p, .null, s.report .expectSemicolon p)
  | r => r

/-- 並びの後の空白も読み飛ばす。 -/
def findValidArrayValue (env : Env) (p : Bytes) (s : Pconf) : Bytes × Written × Pconf :=
  match findValid (validvalue env) p s with
  | (p, .token w, s) =>
    let (p, s) := jumpspace p s
    (p, .token w, s)
  | r => r

/-- 空白の後が文字 `c` かどうか。位置は捨てるが、数えた行は残る。 -/
def nextIs (c : UInt8) (p : Bytes) (s : Pconf) : Bool × Pconf :=
  let (p, s) := jumpspace p s
  (p.head? == some c, s)

def isSubNode (p : Bytes) (s : Pconf) : Bool × Pconf := nextIs lbrace p s

def isArrayNode (p : Bytes) (s : Pconf) : Bool × Pconf := nextIs lbracket p s

/-! ## 構文 -/

/-- 返す位置（`none` は `NULL`）、parser の状態、渡された節から先の list。 -/
abbrev Result := Option Bytes × Pconf × CN

/-- `parse_arraylh` の loop。 -/
def parseArraylhLoop (env : Env) : Nat → Bool → Bytes → Pconf → Option Result
  | 0, _, _, _ => none
  | _ + 1, _, [], s => some (some [], s, newNode)
  | fuel + 1, commonNeed, b :: p, s =>
    let (p, s) := jumpspace (b :: p) s
    match p with
    | [] => some (none, s.report .exceptBracket [], newNode)
    | b :: rest =>
      if b = rbracket then some (some rest, s.levelDown, newNode)
      -- `,` は二つ目からの要素の前に要る。`,` の後の閉じ括弧は値として拒まれる
      else if commonNeed ∧ b ≠ comma then
        some (none, s.report .exceptComma (b :: rest), newNode)
      else
        let p := if commonNeed then rest else b :: rest
        let (p, w, s) := findValidArrayValue env p s
        match w.read none with
        | none => some (none, s.report .uncompletedFile p, newNode)
        | some value =>
          if p = [] then some (none, s.report .uncompletedLine p, newNode)
          else
            (parseArraylhLoop env fuel true p s).map fun (r, s, next) =>
              (r, s, Fields.link ⟨[], rcStrncpy confVarl value, .arrayEle, .null⟩ next)

def parseArraylh (env : Env) (fuel : Nat) (p : Bytes) (s : Pconf) : Option Result :=
  parseArraylhLoop env fuel false p s.levelUp

/-- 一つの項目を読んだ後。途中で `return NULL` したか、`p` を得て次の節へ進むか。 -/
inductive Step
  | returnNull
  | goOn (p : Option Bytes)

/-- `parse_main` の `case proc_mod_t`。 -/
def parseProc (sub : Bytes → Pconf → Option Result) (env : Env) (p : Bytes) (s : Pconf) :
    Option (Step × Pconf × Fields) :=
  let (p, w, s) := findValidName env p s
  match w.read none with
  | none => some (.returnNull, s.report .emptyFile p, ⟨[], [], .procModT, .null⟩)
  | some modName =>
    if p = [] then some (.returnNull, s.report .uncompletedLine p, ⟨[], [], .procModT, .null⟩)
    else
      let (p, s) := jumpspace p s
      if deref p = lbrace then
        (sub p.tail s).map fun (r, s, smodlh) =>
          (.goOn r, s, ⟨rcStrncpy confNamel modName, [], .procModT, smodlh⟩)
      else
        some (.returnNull, s.report .exceptOpen p,
          ⟨rcStrncpy confNamel modName, [], .procModT, newNode⟩)

/-- `case char_t`。値を読んだ所が `end` なら、読めていても `NULL` を返す。 -/
def parseValue (env : Env) (name p : Bytes) (s : Pconf) : Option (Step × Pconf × Fields) :=
  let (p, w, s) := findValidValue env p s
  match w.read none with
  | none =>
    some (.returnNull, s.report .exceptValue p, ⟨rcStrncpy confNamel name, [], .charT, .null⟩)
  | some value =>
    -- `p` は `;` の次である
    if p = [] then
      some (.returnNull, s.report .exceptValue p, ⟨rcStrncpy confNamel name, [], .charT, .null⟩)
    else
      some (.goOn (some p), s,
        ⟨rcStrncpy confNamel name, rcStrncpy confVarl value, .charT, .null⟩)

/-- 予約語かどうかで分かれる `switch`。`proc` は `parse_main`（`top`）だけが受ける。 -/
def parseKeyword (sub : Bytes → Pconf → Option Result) (env : Env) (top : Bool) (name p : Bytes)
    (s : Pconf) : Option (Step × Pconf × Fields) :=
  match checkKeyword name, top with
  | .charT, _ => parseValue env name p s
  | .procModT, true => parseProc sub env p s
  | ntype, _ => some (.returnNull, s.report .unsupportKeyword p, ⟨[], [], ntype, .null⟩)

/-- 名前を読んだ後の、`parse_main` と `parse_smodlh` に共通の本体。 -/
def parseEntry (sub arr : Bytes → Pconf → Option Result) (env : Env) (top : Bool) (name p : Bytes)
    (s : Pconf) : Option (Step × Pconf × Fields) :=
  let (isSub, s) := isSubNode p s
  if isSub then
    let (p, s) := jumpspace p s
    (sub p.tail s).map fun (r, s, smodlh) =>
      (.goOn r, s, ⟨rcStrncpy confNamel name, [], .subnodeT, smodlh⟩)
  else
    let (isArray, s) := isArrayNode p s
    if isArray then
      let (p, s) := jumpspace p s
      (arr p.tail s).map fun (r, s, smodlh) =>
        (.goOn r, s, ⟨rcStrncpy confNamel name, [], .arrayT, smodlh⟩)
    else parseKeyword sub env top name p s

/-- 周回の始め。ここで返るか、名前とその後の位置を得るか。 -/
inductive Head
  | returns (r : Option Bytes) (s : Pconf)
  | name (name p : Bytes) (s : Pconf)

/-- `parse_main` の周回の始め。`no_centent` はいつも `true` である。 -/
def parseMainHead (env : Env) (p : Bytes) (s : Pconf) : Head :=
  let n := p.length
  let (p, w, s) := findValidName env p s
  match w.read (env.name n) with
  | none => .returns none (s.report .emptyFile p)
  -- 終わりに達していれば、名前を読んだかどうかを見ずに `end` を返す
  | some name => if p = [] then .returns (some p) s else .name name p s

/-- `parse_smodlh` の周回の始め。 -/
def parseSmodlhHead (env : Env) (p : Bytes) (s : Pconf) : Head :=
  let n := p.length
  let (p, s) := jumpspace p s
  match p with
  | [] => .returns none (s.report .exceptClose [])
  | b :: rest =>
    if b = rbrace then .returns (some rest) s.levelDown
    else
      let (p, w, s) := findValidName env (b :: rest) s
      match w.read (env.name n) with
      | none => .returns none (s.report .uncompletedFile p)
      | some name =>
        if p = [] then .returns none (s.report .uncompletedLine p) else .name name p s

def parseHead (env : Env) (top : Bool) (p : Bytes) (s : Pconf) : Head :=
  if top then parseMainHead env p s else parseSmodlhHead env p s

/-- 項目を読んだ後。次の節を作り、そこから loop を続ける。 -/
def afterEntry (loop : Bytes → Pconf → Option Result) :
    Step × Pconf × Fields → Option Result
  | (.returnNull, s, node) => some (none, s, node.link .null)
  -- 中で `NULL` が返っても、`next` を作ってから loop を抜ける
  | (.goOn none, s, node) => some (none, s, node.link newNode)
  | (.goOn (some p), s, node) => (loop p s).map fun (r, s, next) => (r, s, node.link next)

/-- `parse_main`（`top`）と `parse_smodlh` の loop。 -/
def parseLoop (env : Env) : Nat → Bool → Bytes → Pconf → Option Result
  | 0, _, _, _ => none
  | _ + 1, _, [], s => some (some [], s, newNode)
  | fuel + 1, top, b :: p, s =>
    match parseHead env top (b :: p) s with
    | .returns r s => some (r, s, newNode)
    | .name name p s =>
      (parseEntry (fun p s => parseLoop env fuel false p s.levelUp) (parseArraylh env fuel)
        env top name p s).bind (afterEntry (parseLoop env fuel top))

def parseSmodlh (env : Env) (fuel : Nat) (p : Bytes) (s : Pconf) : Option Result :=
  parseLoop env fuel false p s.levelUp

def parseMain (env : Env) (fuel : Nat) (p : Bytes) (s : Pconf) : Option Result :=
  parseLoop env fuel true p s

/-- `parse`。`buf` の中身を読み、返り値と状態と、渡された節から先の list を得る。 -/
def parse (env : Env) (buf : Bytes) : Option (Int × Pconf × CN) :=
  (parseMain env (buf.length + 1) buf ⟨1, 0, []⟩).map fun (p, s, mch) =>
    if p = some [] ∧ s.level = 0 then (0, s, mch)
    else (-1, if s.level > 0 then s.report .unexceptClose (p.getD s.stopped) else s, mch)

/-! ## 取り出し -/

/-- `STRMATCH`。 -/
def strmatch (a b : Bytes) : Bool := a == b

def getProcMod : CN → CN
  | .null => .null
  | .node modn var ntype smodlh next =>
    if ntype = .procModT then .node modn var ntype smodlh next else getProcMod next

def getValueFromNode (vn : Bytes) : CN → Option Bytes
  | .null => none
  | .node modn var ntype _ next =>
    if ntype = .charT ∧ strmatch vn modn then some var else getValueFromNode vn next

def getSubmodFromNode (mn : Bytes) : CN → CN
  | .null => .null
  | .node modn _ ntype smodlh next =>
    if ntype = .subnodeT ∧ strmatch mn modn then smodlh else getSubmodFromNode mn next

def getArrayFromNode (mn : Bytes) : CN → CN
  | .null => .null
  | .node modn var ntype smodlh next =>
    if ntype = .arrayT ∧ strmatch mn modn then .node modn var ntype smodlh next
    else getArrayFromNode mn next

/-- `array_ele` の節を数える loop。 -/
def countElements : CN → Nat
  | .null => 0
  | .node _ _ ntype _ next => if ntype = .arrayEle then countElements next + 1 else 0

def getSizeFromArray : CN → Nat
  | .null => 0
  | .node _ _ ntype smodlh _ => if ntype = .arrayT then countElements smodlh else 0

/-- `inpos` を進めながら `index` 番目の `array_ele` を探す loop。 -/
def elementAt (index : Int) : Int → CN → Option Bytes
  | _, .null => none
  | inpos, .node _ var ntype _ next =>
    if ntype = .arrayEle then
      if index = inpos then some var else elementAt index (inpos + 1) next
    else none

def getValueFromArrayByIndex (index : Int) : CN → Option Bytes
  | .null => none
  | .node _ _ ntype smodlh _ => if ntype = .arrayT then elementAt index 0 smodlh else none

end RecordServer.Conf
