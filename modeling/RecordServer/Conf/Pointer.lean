import RecordServer.Conf.Pconf

/-!
# 番地で読む parser

`Conf.Pconf` は位置を残りの byte 列で表すので、`end` を越えた位置も、そこを読むことも書けない。ここでは同じ関数を、buffer と
位置の番号で書き直す。`end` より後ろを読めば `overrun` で止まる。

* `Memory` — `end` に 0 の byte のある buffer
* `jumpspace` / `findValidName` / `findValidValue` / `findValidArrayValue` — 字句
* `Turn` — loop の一周。続けるか、loop を抜けるか
* `Exit` — 閉じ括弧で返ったか、`end` に達して返ったか、`NULL` か

どの関数も燃料を受け取り、内側の loop と外側の loop が同じ燃料を使う。
-/

namespace RecordServer.Conf.Pointer

open Infra

/-! ## buffer -/

/-- 番地は buffer の初めから数える。`fin` は `end` である。 -/
structure Memory where
  byte : Nat → UInt8
  fin : Nat
  zero : byte fin = 0

inductive Stop
  | fuel
  | overrun
  deriving DecidableEq, Repr

/-- `*p` -/
def Memory.read (m : Memory) (p : Nat) : Except Stop UInt8 :=
  if p ≤ m.fin then .ok (m.byte p) else .error .overrun

/-- `p` から `n` byte。 -/
def Memory.slice (m : Memory) (p : Nat) : Nat → Bytes
  | 0 => []
  | n + 1 => m.byte p :: m.slice (p + 1) n

/-- `p` から `end` までの byte 列。 -/
def Memory.rest (m : Memory) (p : Nat) : Bytes := m.slice p (m.fin - p)

/-- `p` に 0 を書いた buffer。 -/
def Memory.zeroed (m : Memory) (p : Nat) : Memory where
  byte i := if i = p then 0 else m.byte i
  fin := m.fin
  zero := by
    split
    · rfl
    · exact m.zero

/-- `*p = 0` -/
def Memory.writeZero (m : Memory) (p : Nat) : Except Stop Memory :=
  if p ≤ m.fin then .ok (m.zeroed p) else .error .overrun

/-- `memcmp` のように、`p` から `n` byte を読む。 -/
def readBytes (m : Memory) (p : Nat) : Nat → Except Stop Bytes
  | 0 => .ok []
  | n + 1 => do
    let b ← m.read p
    let w ← readBytes m (p + 1) n
    .ok (b :: w)

/-- `strncpy` のように、0 の byte か `n` byte まで読む。 -/
def readText (m : Memory) (p : Nat) : Nat → Except Stop Bytes
  | 0 => .ok []
  | n + 1 => do
    let b ← m.read p
    if b = 0 then .ok []
    else
      let w ← readText m (p + 1) n
      .ok (b :: w)

/-- `printf("%s", p)` -/
def printText (m : Memory) : Nat → Nat → Except Stop Unit
  | 0, _ => .error .fuel
  | fuel + 1, p => do
    let b ← m.read p
    if b = 0 then .ok () else printText m fuel (p + 1)

/-! ## 字句 -/

/-- `jumpcomment` の内側の loop。 -/
def lineEnd (m : Memory) : Nat → Nat → Except Stop Nat
  | 0, _ => .error .fuel
  | fuel + 1, p =>
    if p < m.fin then do
      let b ← m.read p
      if b ≠ newline then lineEnd m fuel (p + 1) else .ok p
    else .ok p

def jumpcomment (m : Memory) : Nat → Nat → Pconf → Except Stop (Nat × Pconf)
  | 0, _, _ => .error .fuel
  | fuel + 1, p, s => do
    let b ← m.read p
    if b = sharp then
      let p ← lineEnd m (fuel + 1) p
      if p ≥ m.fin then .ok (p, s) else jumpcomment m fuel (p + 1) s.nextLine
    else .ok (p, s)

def jumpspace (m : Memory) : Nat → Nat → Pconf → Except Stop (Nat × Pconf)
  | 0, _, _ => .error .fuel
  | fuel + 1, p, s =>
    if p < m.fin then do
      let ch ← m.read p
      if ch = 32 ∨ ch = 9 ∨ ch = 13 then jumpspace m fuel (p + 1) s
      else if ch = newline then jumpspace m fuel (p + 1) s.nextLine
      else if ch = sharp then
        let (p, s) ← jumpcomment m (fuel + 1) p s
        jumpspace m fuel p s
      else .ok (p, s)
    else .ok (p, s)

/-- `start` から `len` byte。 -/
structure Token where
  start : Nat
  len : Nat
  deriving DecidableEq, Repr

/-- 出力引数 `*o`・`*len` への書き込み。 -/
inductive Written
  | untouched
  | null
  | token (t : Token)
  deriving DecidableEq, Repr

/-- 呼ぶ前の値が `old` である変数の、呼んだ後の値。 -/
def Written.read (w : Written) (old : Option Token) : Option Token :=
  match w with
  | .untouched => old
  | .null => none
  | .token t => some t

/-- `while (p < end && valid(p)) p++` -/
def scan (valid : UInt8 → Bool) (m : Memory) : Nat → Nat → Except Stop Nat
  | 0, _ => .error .fuel
  | fuel + 1, p =>
    if p < m.fin then do
      let b ← m.read p
      if valid b then scan valid m fuel (p + 1) else .ok p
    else .ok p

/-- 三つの `find_valid_*` に共通の前半。 -/
def findValid (valid : UInt8 → Bool) (m : Memory) (fuel p : Nat) (s : Pconf) :
    Except Stop (Nat × Written × Pconf) := do
  let (p, s) ← jumpspace m fuel p s
  if p ≥ m.fin then .ok (p, .untouched, s)
  else
    let b ← m.read p
    if valid b then
      let q ← scan valid m fuel p
      .ok (q, .token ⟨p, q - p⟩, s)
    else .ok (p, .null, s.report .illegalChar (m.rest p))

def findValidName (env : Env) (m : Memory) (fuel p : Nat) (s : Pconf) :
    Except Stop (Nat × Written × Pconf) :=
  findValid (validname env) m fuel p s

/-- 並びの後の `*p` は、`p < end` を確かめずに読む。 -/
def findValidValue (env : Env) (m : Memory) (fuel p : Nat) (s : Pconf) :
    Except Stop (Nat × Written × Pconf) := do
  match ← findValid (validvalue env) m fuel p s with
  | (p, .token t, s) =>
    let (p, s) ← jumpspace m fuel p s
    let b ← m.read p
    if b = semicolon then .ok (p + 1, .token t, s)
    else .ok (p, .null, s.report .expectSemicolon (m.rest p))
  | r => .ok r

def findValidArrayValue (env : Env) (m : Memory) (fuel p : Nat) (s : Pconf) :
    Except Stop (Nat × Written × Pconf) := do
  match ← findValid (validvalue env) m fuel p s with
  | (p, .token t, s) =>
    let (p, s) ← jumpspace m fuel p s
    .ok (p, .token t, s)
  | r => .ok r

/-- `is_sub_node` と `is_array_node`。 -/
def nextIs (c : UInt8) (m : Memory) (fuel p : Nat) (s : Pconf) : Except Stop (Bool × Pconf) := do
  let (p, s) ← jumpspace m fuel p s
  if p < m.fin then
    let b ← m.read p
    .ok (b = c, s)
  else .ok (false, s)

/-! ## 名前と値の写し -/

/-- `rc_strncpy(dest, dl, t.start, t.len)` が `dest` に残す文字列。 -/
def rcStrncpy (m : Memory) (dl : Nat) (t : Token) : Except Stop Bytes :=
  readText m t.start (if t.len < dl - 1 then t.len else dl - 1)

/-- `check_keyword`。長さが同じときだけ比べる。 -/
def checkKeyword (m : Memory) (t : Token) : Except Stop NodeType :=
  if (keywordList.map List.length).contains t.len then do
    let w ← readBytes m t.start t.len
    .ok (Conf.checkKeyword w)
  else .ok .charT

/-! ## 構文 -/

/-- 返り方。 -/
inductive Exit
  | closed (p : Nat)
  | atEnd (p : Nat)
  | null
  deriving DecidableEq, Repr

/-- 返す位置。`none` は `NULL` である。 -/
def Exit.pos : Exit → Option Nat
  | .closed p => some p
  | .atEnd p => some p
  | .null => none

abbrev Result := Exit × Pconf × CN

/-- loop の一周の後。`next` なら `p` から次の周に進む。 -/
inductive Turn
  | returns (r : Result)
  | next (p : Nat) (s : Pconf) (node : Fields)

/-- 抜けないなら、残りの loop を続け、その list の前に節を繋ぐ。 -/
def Turn.goOn (loop : Nat → Pconf → Except Stop Result) : Turn → Except Stop Result
  | .returns r => .ok r
  | .next p s node => do
    let (e, s, mc) ← loop p s
    .ok (e, s, node.link mc)

/-- `parse_arraylh` の loop の、`find_valid_array_value` の後。 -/
def arrayElement (m : Memory) : Nat × Written × Pconf → Except Stop Turn
  | (p, w, s) =>
    match w.read none with
    | none => .ok (.returns (.null, s.report .uncompletedFile (m.rest p), newNode))
    | some t =>
      if p ≥ m.fin then .ok (.returns (.null, s.report .uncompletedLine (m.rest p), newNode))
      else do
        let var ← rcStrncpy m confVarl t
        .ok (.next p s ⟨[], var, .arrayEle, .null⟩)

/-- `parse_arraylh` の loop の一周。 -/
def arraylhTurn (env : Env) (m : Memory) (fuel : Nat) (commonNeed : Bool) (p : Nat) (s : Pconf) :
    Except Stop Turn := do
  let (p, s) ← jumpspace m fuel p s
  if p ≥ m.fin then .ok (.returns (.null, s.report .exceptBracket [], newNode))
  else
    let b ← m.read p
    if b = rbracket then .ok (.returns (.closed (p + 1), s.levelDown, newNode))
    else if commonNeed ∧ b ≠ comma then
      .ok (.returns (.null, s.report .exceptComma (m.rest p), newNode))
    else
      -- `,` を飛ばす
      let r ← findValidArrayValue env m fuel (if commonNeed then p + 1 else p) s
      arrayElement m r

def parseArraylhLoop (env : Env) (m : Memory) : Nat → Bool → Nat → Pconf → Except Stop Result
  | 0, _, _, _ => .error .fuel
  | fuel + 1, commonNeed, p, s =>
    if p < m.fin then
      arraylhTurn env m (fuel + 1) commonNeed p s >>= Turn.goOn (parseArraylhLoop env m fuel true)
    else .ok (.atEnd p, s, newNode)

def parseArraylh (env : Env) (m : Memory) (fuel p : Nat) (s : Pconf) : Except Stop Result :=
  parseArraylhLoop env m fuel false p s.levelUp

/-- 一つの項目を読んだ後。途中で `return NULL` したか、`p` を得て次の節へ進むか。 -/
inductive Step
  | returnNull
  | goOn (p : Option Nat)

/-- `parse_main` の `case proc_mod_t`。 -/
def parseProc (sub : Nat → Pconf → Except Stop Result) (env : Env) (m : Memory) (fuel p : Nat)
    (s : Pconf) : Except Stop (Step × Pconf × Fields) := do
  let (p, w, s) ← findValidName env m fuel p s
  match w.read none with
  | none => .ok (.returnNull, s.report .emptyFile (m.rest p), ⟨[], [], .procModT, .null⟩)
  | some modName =>
    if p ≥ m.fin then
      .ok (.returnNull, s.report .uncompletedLine (m.rest p), ⟨[], [], .procModT, .null⟩)
    else
      let modn ← rcStrncpy m confNamel modName
      let (p, s) ← jumpspace m fuel p s
      -- ここの `*p` も `p < end` を確かめずに読む
      let b ← m.read p
      if b = lbrace then
        let (e, s, smodlh) ← sub (p + 1) s
        .ok (.goOn e.pos, s, ⟨modn, [], .procModT, smodlh⟩)
      else .ok (.returnNull, s.report .exceptOpen (m.rest p), ⟨modn, [], .procModT, newNode⟩)

/-- `case char_t` -/
def parseValue (env : Env) (m : Memory) (fuel : Nat) (name : Token) (p : Nat) (s : Pconf) :
    Except Stop (Step × Pconf × Fields) := do
  let modn ← rcStrncpy m confNamel name
  let (p, w, s) ← findValidValue env m fuel p s
  match w.read none with
  | none => .ok (.returnNull, s.report .exceptValue (m.rest p), ⟨modn, [], .charT, .null⟩)
  | some value =>
    if p ≥ m.fin then
      .ok (.returnNull, s.report .exceptValue (m.rest p), ⟨modn, [], .charT, .null⟩)
    else
      let var ← rcStrncpy m confVarl value
      .ok (.goOn (some p), s, ⟨modn, var, .charT, .null⟩)

/-- 予約語かどうかで分かれる `switch`。`default` は名前の後に 0 を書いてから、名前を印字する。 -/
def parseKeyword (sub : Nat → Pconf → Except Stop Result) (env : Env) (m : Memory) (fuel : Nat)
    (top : Bool) (name : Token) (p : Nat) (s : Pconf) : Except Stop (Step × Pconf × Fields) := do
  match ← checkKeyword m name, top with
  | .charT, _ => parseValue env m fuel name p s
  | .procModT, true => parseProc sub env m fuel p s
  | ntype, _ =>
    let m' ← m.writeZero (name.start + name.len)
    printText m' fuel name.start
    .ok (.returnNull, s.report .unsupportKeyword (m.rest p), ⟨[], [], ntype, .null⟩)

/-- 名前を読んだ後の、`parse_main` と `parse_smodlh` に共通の本体。 -/
def parseEntry (sub arr : Nat → Pconf → Except Stop Result) (env : Env) (m : Memory) (fuel : Nat)
    (top : Bool) (name : Token) (p : Nat) (s : Pconf) : Except Stop (Step × Pconf × Fields) := do
  let (isSub, s) ← nextIs lbrace m fuel p s
  if isSub then
    let modn ← rcStrncpy m confNamel name
    let (p, s) ← jumpspace m fuel p s
    let (e, s, smodlh) ← sub (p + 1) s
    .ok (.goOn e.pos, s, ⟨modn, [], .subnodeT, smodlh⟩)
  else
    let (isArray, s) ← nextIs lbracket m fuel p s
    if isArray then
      let modn ← rcStrncpy m confNamel name
      let (p, s) ← jumpspace m fuel p s
      let (e, s, smodlh) ← arr (p + 1) s
      .ok (.goOn e.pos, s, ⟨modn, [], .arrayT, smodlh⟩)
    else parseKeyword sub env m fuel top name p s

/-- 周回の始め。 -/
inductive Head
  | returns (e : Exit) (s : Pconf)
  | name (name : Token) (p : Nat) (s : Pconf)

/-- `parse_main` の周回の始め。`old` は、位置 `p` で始まる周回の初期化されない `name` と `name_len` である。 -/
def parseMainHead (env : Env) (old : Nat → Option Token) (m : Memory) (fuel p : Nat) (s : Pconf) :
    Except Stop Head := do
  let start := p
  let (p, w, s) ← findValidName env m fuel p s
  match w.read (old start) with
  | none => .ok (.returns .null (s.report .emptyFile (m.rest p)))
  | some name => if p ≥ m.fin then .ok (.returns (.atEnd p) s) else .ok (.name name p s)

/-- `parse_smodlh` の周回の始め。 -/
def parseSmodlhHead (env : Env) (old : Nat → Option Token) (m : Memory) (fuel p : Nat) (s : Pconf) :
    Except Stop Head := do
  let start := p
  let (p, s) ← jumpspace m fuel p s
  if p ≥ m.fin then .ok (.returns .null (s.report .exceptClose []))
  else
    let b ← m.read p
    if b = rbrace then .ok (.returns (.closed (p + 1)) s.levelDown)
    else
      let (p, w, s) ← findValidName env m fuel p s
      match w.read (old start) with
      | none => .ok (.returns .null (s.report .uncompletedFile (m.rest p)))
      | some name =>
        if p ≥ m.fin then .ok (.returns .null (s.report .uncompletedLine (m.rest p)))
        else .ok (.name name p s)

def parseHead (env : Env) (old : Nat → Option Token) (m : Memory) (fuel : Nat) (top : Bool)
    (p : Nat) (s : Pconf) : Except Stop Head :=
  if top then parseMainHead env old m fuel p s else parseSmodlhHead env old m fuel p s

/-- 項目を読んだ後。中で `NULL` が返っても、`next` を作ってから loop を抜ける。 -/
def afterEntry : Step × Pconf × Fields → Turn
  | (.returnNull, s, node) => .returns (.null, s, node.link .null)
  | (.goOn none, s, node) => .returns (.null, s, node.link newNode)
  | (.goOn (some p), s, node) => .next p s node

/-- `parse_main`（`top`）と `parse_smodlh` の loop の一周。 -/
def parseTurn (sub arr : Nat → Pconf → Except Stop Result) (env : Env) (old : Nat → Option Token)
    (m : Memory) (fuel : Nat) (top : Bool) (p : Nat) (s : Pconf) : Except Stop Turn := do
  match ← parseHead env old m fuel top p s with
  | .returns e s => .ok (.returns (e, s, newNode))
  | .name name p s =>
    let r ← parseEntry sub arr env m fuel top name p s
    .ok (afterEntry r)

def parseLoop (env : Env) (old : Nat → Option Token) (m : Memory) :
    Nat → Bool → Nat → Pconf → Except Stop Result
  | 0, _, _, _ => .error .fuel
  | fuel + 1, top, p, s =>
    if p < m.fin then
      parseTurn (fun p s => parseLoop env old m fuel false p s.levelUp) (parseArraylh env m fuel)
        env old m (fuel + 1) top p s >>= Turn.goOn (parseLoop env old m fuel top)
    else .ok (.atEnd p, s, newNode)

def parseSmodlh (env : Env) (old : Nat → Option Token) (m : Memory) (fuel p : Nat) (s : Pconf) :
    Except Stop Result :=
  parseLoop env old m fuel false p s.levelUp

def parseMain (env : Env) (old : Nat → Option Token) (m : Memory) (fuel p : Nat) (s : Pconf) :
    Except Stop Result :=
  parseLoop env old m fuel true p s

end RecordServer.Conf.Pointer
