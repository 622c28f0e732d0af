import RecordServer.Infra.Bytes
import RecordServer.Infra.Word
import Mathlib.Logic.Function.Basic
import Mathlib.Tactic.Ring

/-!
# ログ

`CLog` の埋め込み。descriptor は二つの slot に持ち、`m_pos` の偶奇が今の slot を決める。

* `newFile` — 次の slot に file を開いて `m_pos` を進める
* `prt` — 一行を整形し、戦略に応じて file を替え、今の slot の file へ書く
* `init`、`setLogOutByTime`、`setLogOutByAmount`、`setLogLevel` — 設定

時計、`open`、`write` の結果は環境が決めるので、呼び出しごとの入力 `Call` に載せる。
`u32` の field は `Nat` で持ち、代入のたびに `2 ^ 32` で割った余りを取る。
-/

namespace RecordServer.Log

open Infra

/-! ## 型 -/

/-- `struct tm` の、ログが読む field。 -/
structure Tm where
  year : Nat
  mon : Nat
  mday : Nat
  hour : Nat
  min : Nat
  sec : Nat
  deriving DecidableEq, Repr

/-- `PURE_LOG_TYPE_E`。 -/
inductive LogType where
  | term
  | crit
  | error
  | warn
  | info
  | debug
  deriving DecidableEq, Repr

/-- 列挙子の値。`prt` は値の大小で捨てるかどうかを決める。 -/
def LogType.val : LogType → Nat
  | term => 0
  | crit => 1
  | error => 2
  | warn => 3
  | info => 4
  | debug => 5

/-- `PURE_LOG_STRATEGE_TYPE_E`。 -/
inductive StrategeType where
  | time
  | space
  | const
  deriving DecidableEq, Repr

/-- `PURE_LOG_TIME_STRATEGE_E`。 -/
inductive TimeStratege where
  | hour
  | day
  | week
  deriving DecidableEq, Repr

/-- `new_file` の戻り値。 -/
inductive Status where
  | success
  | failure
  | retry
  deriving DecidableEq, Repr

/-- 開いた file。`O_APPEND` なので、書き込みは `name` の file の末尾に付く。 -/
structure OpenFile where
  name : Bytes
  created : Tm
  deriving DecidableEq, Repr

/-- `CLog`。`m_fd` の `-1` は `none` である。 -/
structure CLog where
  filename : Bytes
  strategeType : StrategeType
  timeStrategeType : TimeStratege
  amountSize : Int
  logLevel : LogType
  curFiletime : Fin 2 → Tm
  curFileSize : Fin 2 → Nat
  maxFileSize : Nat
  fd : Fin 2 → Option OpenFile
  pos : Nat
  busy : Bool

/-- ログと、それが書く file system。 -/
structure World where
  log : CLog
  files : Bytes → Option Bytes

/-- `open` 一回についての環境の答え。`new_file` が読む時刻と、開けたかどうか。 -/
structure Opening where
  time : Tm
  ok : Bool
  deriving DecidableEq, Repr

/--
`prt` の一回の呼び出し。`text` は `fmt` を展開した文、`now` は `prt` が読む時刻、
`first` と `second` は一度目と二度目の `new_file` への答え、`written` は `write` の戻り値である。
-/
structure Call where
  level : LogType
  text : Bytes
  now : Tm
  first : Opening
  second : Opening
  written : Int
  deriving DecidableEq, Repr

/-- `write` の一回の呼び出し。 -/
structure Put where
  file : OpenFile
  buf : Bytes
  deriving DecidableEq, Repr

/-! ## 文字列 -/

def PURE_LOG_MAX_FILE_NAME_LEN : Nat := 256

def PURE_LOG_MAX_TIME_STR_LEN : Nat := 128

def PURE_LOG_MAX_PARA_STR_LEN : Nat := 512

def PURE_LOG_MAX_FILE_SIZE : Nat := 10 * 1024 * 1024

/-- 大きさ `size` の buffer へ `snprintf` した後の内容。 -/
def snprintf (size : Nat) (s : Bytes) : Bytes := s.take (size - 1)

/-- `%d`。 -/
def decimal (n : Nat) : Bytes := ascii (Nat.repr n)

/-- `%0wd`。 -/
def padded (w n : Nat) : Bytes := List.replicate (w - (decimal n).length) 48 ++ decimal n

/-- 大域変数 `lvl`。 -/
def lvl : LogType → Bytes
  | .term => ascii "TERM"
  | .crit => ascii "CRIT"
  | .error => ascii "ERROR"
  | .warn => ascii "WARN"
  | .info => ascii "INFO"
  | .debug => ascii "DEBUG"

/-- 行に載せる時刻。 -/
def dateStr (t : Tm) : Bytes :=
  snprintf PURE_LOG_MAX_TIME_STR_LEN
    (ascii "[" ++ padded 4 (t.year + 1900) ++ ascii "-" ++ padded 2 (t.mon + 1) ++ ascii "-"
      ++ padded 2 t.mday ++ ascii "   " ++ padded 2 t.hour ++ ascii "-" ++ padded 2 t.min
      ++ ascii "-" ++ padded 2 t.sec ++ ascii "]")

/-- file に書く一行。`buf` の内容で、長さが `buf_len` である。 -/
def lineOf (c : Call) : Bytes :=
  snprintf (PURE_LOG_MAX_PARA_STR_LEN * 2)
    (lvl c.level ++ ascii "\t" ++ dateStr c.now ++ ascii "\t"
      ++ cstr (snprintf PURE_LOG_MAX_PARA_STR_LEN c.text) ++ ascii "\n")

/-- 時刻で分ける file の名前の後半。 -/
def filenameSuffix (t : Tm) : Bytes :=
  snprintf PURE_LOG_MAX_TIME_STR_LEN
    (padded 4 (t.year + 1900) ++ padded 2 (t.mon + 1) ++ padded 2 t.mday ++ ascii "_"
      ++ padded 2 t.hour ++ ascii "h")

/-- `name_k.log`。 -/
def numberedName (name : Bytes) (k : Nat) : Bytes :=
  name ++ ascii "_" ++ decimal k ++ ascii ".log"

/-! ## file を開く -/

/-- `pos & 0x1`。 -/
def slot (pos : Nat) : Fin 2 := ⟨pos % 2, Nat.mod_lt _ (by decide)⟩

namespace CLog

/-- 今の slot の descriptor。 -/
def curFd (l : CLog) : Option OpenFile := l.fd (slot l.pos)

/-- 今の slot の file の大きさ。 -/
def curSize (l : CLog) : Nat := l.curFileSize (slot l.pos)

/-- 今の slot の file の作成時刻。 -/
def curTime (l : CLog) : Tm := l.curFiletime (slot l.pos)

/-- `PURE_LOG_SPACE` の file 番号。`m_amount_size` は `u32` に直されてから割る。 -/
def index (l : CLog) : Nat := u32 (l.pos + 1) % s32ToU32 l.amountSize + 1

/-- 次に開く file の名前。 -/
def nextFilename (l : CLog) (t : Tm) : Bytes :=
  snprintf PURE_LOG_MAX_FILE_NAME_LEN <|
    match l.strategeType with
    | .time => l.filename ++ ascii "_" ++ filenameSuffix t ++ ascii ".log"
    | .space => numberedName l.filename l.index
    | .const => l.filename ++ ascii ".log"

end CLog

/-- `open(name, O_WRONLY|O_CREAT|O_APPEND)` が成功したときの file system。 -/
def createFile (files : Bytes → Option Bytes) (name : Bytes) : Bytes → Option Bytes :=
  Function.update files name (some ((files name).getD []))

/-- 末尾に書き足した file system。 -/
def appendFile (files : Bytes → Option Bytes) (name s : Bytes) : Bytes → Option Bytes :=
  Function.update files name (some ((files name).getD [] ++ s))

/-- `CLog::new_file`。次の slot が開いていれば閉じてから、同じように開き直す。 -/
def newFile (w : World) (o : Opening) : World × Status :=
  let l := w.log
  if l.busy then (w, .retry)
  else
    let next := slot (u32 (l.pos + 1))
    if o.ok then
      ({ log := { l with
          fd := Function.update l.fd next (some ⟨l.nextFilename o.time, o.time⟩)
          curFiletime := Function.update l.curFiletime next o.time
          curFileSize := Function.update l.curFileSize next 0
          pos := u32 (l.pos + 1) }
         files := createFile w.files (l.nextFilename o.time) }, .success)
    else
      ({ w with log := { l with fd := Function.update l.fd next none } }, .failure)

/-! ## 一行を書く -/

/-- 今の slot が閉じていれば `new_file` を呼ぶ。第二成分は続けてよいかどうか。 -/
def openIfClosed (w : World) (o : Opening) : World × Bool :=
  match w.log.curFd with
  | some _ => (w, true)
  | none =>
    let r := newFile w o
    (r.1, r.2 ≠ .failure)

/-- `write` と、書けた分の `ATOMIC_FADD`。戻り値は `ret` と、書いた先である。 -/
def writeBuf (w : World) (buf : Bytes) (written : Int) : World × Int × Option Put :=
  match w.log.curFd with
  | none => (w, -1, none)
  | some f =>
    if written > 0 then
      ({ log := { w.log with
          curFileSize := Function.update w.log.curFileSize (slot w.log.pos)
            (u32 (w.log.curSize + written.toNat)) }
         files := appendFile w.files f.name (buf.take written.toNat) },
        written, some ⟨f, buf⟩)
    else (w, written, some ⟨f, buf⟩)

/-- `new_file` を呼び、失敗でなければ書く。 -/
def newFileThenWrite (w : World) (o : Opening) (buf : Bytes) (written : Int) :
    World × Int × Option Put :=
  let r := newFile w o
  if r.2 = .failure then (r.1, -1, none) else writeBuf r.1 buf written

/-- `PURE_LOG_TIME` で file を替えるかどうか。見るのは一つの field だけである。 -/
def CLog.cut (l : CLog) (now : Tm) : Bool :=
  match l.timeStrategeType with
  | .hour => l.curTime.hour ≠ now.hour
  | .day => l.curTime.mday ≠ now.mday
  | .week => false

/-- `PURE_LOG_SPACE` で今の file に書き続けるかどうか。 -/
def CLog.hasRoom (l : CLog) : Bool :=
  l.curSize < u32 (l.maxFileSize + 2 ^ 32 - PURE_LOG_MAX_PARA_STR_LEN)

/-- 捨てられず、端末にも回らず、file に向かう呼び出し。 -/
def CLog.logs (l : CLog) (c : Call) : Bool :=
  c.level.val ≤ l.logLevel.val ∧ c.level ≠ .term

/-- `CLog::prt`。 -/
def prt (w : World) (c : Call) : World × Int × Option Put :=
  if w.log.logs c then
    let buf := lineOf c
    match w.log.strategeType with
    | .time =>
      let r := openIfClosed w c.first
      if r.2 then
        if r.1.log.cut c.now then newFileThenWrite r.1 c.second buf c.written
        else writeBuf r.1 buf c.written
      else (r.1, -1, none)
    | .space =>
      let r := openIfClosed w c.first
      if r.2 then
        if r.1.log.hasRoom then writeBuf r.1 buf c.written
        else newFileThenWrite r.1 c.second buf c.written
      else (r.1, -1, none)
    | .const =>
      let r := openIfClosed w c.first
      if r.2 then
        let r := writeBuf r.1 buf c.written
        (r.1, 0, r.2.2)
      else (r.1, -1, none)
  else (w, 0, none)

/-! ## 設定 -/

/-- `CLog::CLog`。`m_pos` は `-1`、すなわち `2 ^ 32 - 1` から始まる。 -/
def CLog.new : CLog where
  filename := []
  strategeType := .const
  timeStrategeType := .hour
  amountSize := 10
  logLevel := .debug
  curFiletime := fun _ => ⟨0, 0, 0, 0, 0, 0⟩
  curFileSize := fun _ => 0
  maxFileSize := PURE_LOG_MAX_FILE_SIZE
  fd := fun _ => none
  pos := 2 ^ 32 - 1
  busy := false

/-- `CLog::set_log_level`。 -/
def CLog.setLogLevel (l : CLog) (level : LogType) : CLog := { l with logLevel := level }

/-- `CLog::set_log_out_by_time`。 -/
def CLog.setLogOutByTime (l : CLog) (hOrD : Int) : CLog :=
  { l with strategeType := .time, timeStrategeType := if hOrD > 0 then .hour else .day }

/-- `CLog::set_log_out_by_amount`。 -/
def CLog.setLogOutByAmount (l : CLog) (len size : Int) : CLog :=
  { l with strategeType := .space, amountSize := size, maxFileSize := s32ToU32 len }

/-- `CLog::init`。名前が長すぎれば何もせずに戻る。 -/
def init (w : World) (path filename : Bytes) (o : Opening) : World :=
  if path.length + filename.length > PURE_LOG_MAX_FILE_NAME_LEN - 1 then w
  else
    (newFile { w with log := { w.log with
      filename := snprintf PURE_LOG_MAX_FILE_NAME_LEN (path ++ filename) } } o).1

/-- 呼び出しを順に行い、file に向かった `write` を呼び出しと組にして集める。 -/
def prts : World → List Call → List (Call × Put)
  | _, [] => []
  | w, c :: cs =>
    let r := prt w c
    (r.2.2.toList.map fun p => (c, p)) ++ prts r.1 cs

end RecordServer.Log
