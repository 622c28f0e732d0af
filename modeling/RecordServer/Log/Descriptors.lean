import RecordServer.Log.PureLog
import RecordServer.Infra.Trace

/-!
# ログの descriptor

`PureLog` は開いた file そのものを slot に置いた。ここでは code と同じく、slot に descriptor の番号を
置き、どの番号が開いているかは kernel の表が持つ。

* `Kernel` — 開いている descriptor の表と file system
* `newFile` — 次の slot の descriptor を閉じ、新しい file を開いてその番号を置く
* `prt`、`init` — `newFile` を呼ぶ二つの入口
* `toWorld` — 番号を表で引いて、`PureLog` の状態に写す

`open` の返す番号は環境が決める。`opened` と `peak` は履歴で、code は読まない。
-/

namespace RecordServer.Log.Descriptors

open Infra

/-! ## kernel -/

/-- 開いている descriptor。`serial` は、それを開いた `open` が何度目の成功かである。 -/
structure Desc where
  fd : Nat
  file : OpenFile
  serial : Nat
  deriving DecidableEq

structure Kernel where
  table : List Desc
  files : Bytes → Option Bytes
  /-- これまでに成功した `open` の数 -/
  opened : Nat
  /-- これまでに同時に開いていた descriptor の最大の数 -/
  peak : Nat

namespace Kernel

def find (k : Kernel) (fd : Int) : Option Desc := k.table.find? fun d => decide ((d.fd : Int) = fd)

/-- `open`。失敗なら `-1` を返す。開いている番号が返ることはない。 -/
def open' (k : Kernel) (file : OpenFile) : Option Nat → Option (Int × Kernel)
  | none => some (-1, k)
  | some fd =>
    if fd ∈ k.table.map Desc.fd then none
    else
      let table := ⟨fd, file, k.opened + 1⟩ :: k.table
      some (fd, {
        table := table
        files := createFile k.files file.name
        opened := k.opened + 1
        peak := max k.peak table.length })

/-- `close`。 -/
def close (k : Kernel) (fd : Int) : Kernel :=
  { k with table := k.table.filter fun d => decide ((d.fd : Int) ≠ fd) }

/-- `write`。戻り値と、書いた先である。 -/
def write (k : Kernel) (fd : Int) (buf : Bytes) (written : Int) : Int × Option Put × Kernel :=
  match k.find fd with
  | none => (-1, none, k)
  | some d =>
    if written > 0 then
      (written, some ⟨d.file, buf⟩,
        { k with files := appendFile k.files d.file.name (buf.take written.toNat) })
    else (written, some ⟨d.file, buf⟩, k)

end Kernel

/-! ## ログ -/

/-- `CLog`。`m_fd` は `-1` か、開いた番号である。 -/
structure FdLog where
  filename : Bytes
  strategeType : StrategeType
  timeStrategeType : TimeStratege
  amountSize : Int
  logLevel : LogType
  curFiletime : Fin 2 → Tm
  curFileSize : Fin 2 → Nat
  maxFileSize : Nat
  fd : Fin 2 → Int
  pos : Nat
  busy : Nat

structure World where
  log : FdLog
  kernel : Kernel

/-- `new_file` への答え。読む時刻と、`open` の返す番号。 -/
structure Opening where
  time : Tm
  fd : Option Nat
  deriving DecidableEq

/-- `prt` の一回の呼び出し。 -/
structure Call where
  level : LogType
  text : Bytes
  now : Tm
  first : Opening
  second : Opening
  written : Int
  deriving DecidableEq

def Opening.toOpening (o : Opening) : Log.Opening := ⟨o.time, o.fd.isSome⟩

def Call.toCall (c : Call) : Log.Call :=
  ⟨c.level, c.text, c.now, c.first.toOpening, c.second.toOpening, c.written⟩

/-- 番号を表で引いたログ。 -/
def FdLog.toCLog (l : FdLog) (k : Kernel) : CLog where
  filename := l.filename
  strategeType := l.strategeType
  timeStrategeType := l.timeStrategeType
  amountSize := l.amountSize
  logLevel := l.logLevel
  curFiletime := l.curFiletime
  curFileSize := l.curFileSize
  maxFileSize := l.maxFileSize
  fd := fun i => (k.find (l.fd i)).map Desc.file
  pos := l.pos
  busy := l.busy ≠ 0

def World.toWorld (w : World) : Log.World := ⟨w.log.toCLog w.kernel, w.kernel.files⟩

/-! ## file を開く -/

/-- 六つの分かれ道に共通の後半。`open` の答えを slot に置き、成功したときだけ `m_pos` を進める。 -/
def openNext (w : World) (next : Fin 2) (filename : Bytes) (o : Opening) :
    Option (World × Status) :=
  (w.kernel.open' ⟨snprintf PURE_LOG_MAX_FILE_NAME_LEN filename, o.time⟩ o.fd).map fun r =>
    let log := { w.log with fd := Function.update w.log.fd next r.1 }
    if r.1 = -1 then (⟨{ log with busy := 0 }, r.2⟩, .failure)
    else
      (⟨{ log with
          curFiletime := Function.update log.curFiletime next o.time
          curFileSize := Function.update log.curFileSize next 0
          pos := u32 (log.pos + 1)
          busy := 0 }, r.2⟩, .success)

/-- `CLog::new_file`。`m_amount_size` が 0 なら、番号の割り算で止まる。 -/
def newFile (w : World) (o : Opening) : Option (World × Status) :=
  if w.log.busy ≠ 0 then some (w, .retry)
  else
    let l := { w.log with busy := 1 }
    let next := slot (u32 (l.pos + 1))
    let closed := w.kernel.close (l.fd next)
    match l.strategeType with
    | .time =>
      let filename := l.filename ++ ascii "_" ++ filenameSuffix o.time ++ ascii ".log"
      if l.fd next = -1 then openNext ⟨l, w.kernel⟩ next filename o
      else openNext ⟨l, closed⟩ next filename o
    | .space =>
      if s32ToU32 l.amountSize = 0 then none
      else
        let index := u32 (l.pos + 1) % s32ToU32 l.amountSize + 1
        let filename := numberedName l.filename index
        if l.fd next = -1 then openNext ⟨l, w.kernel⟩ next filename o
        else openNext ⟨l, closed⟩ next filename o
    | .const =>
      let filename := l.filename ++ ascii ".log"
      if l.fd next = -1 then openNext ⟨l, w.kernel⟩ next filename o
      else openNext ⟨l, closed⟩ next filename o

/-! ## 一行を書く -/

/-- 今の slot が `-1` なら `new_file` を呼ぶ。第二成分は続けてよいかどうか。 -/
def openIfClosed (w : World) (o : Opening) : Option (World × Bool) :=
  if w.log.fd (slot w.log.pos) = -1 then (newFile w o).map fun r => (r.1, r.2 ≠ .failure)
  else some (w, true)

/-- `write` と、書けた分の `ATOMIC_FADD`。 -/
def writeBuf (w : World) (buf : Bytes) (written : Int) : World × Int × Option Put :=
  let cur := slot w.log.pos
  let r := w.kernel.write (w.log.fd cur) buf written
  if r.1 > 0 then
    (⟨{ w.log with
        curFileSize := Function.update w.log.curFileSize cur
          (u32 (w.log.curFileSize cur + r.1.toNat)) }, r.2.2⟩, r.1, r.2.1)
  else (⟨w.log, r.2.2⟩, r.1, r.2.1)

/-- `new_file` を呼び、失敗でなければ書く。 -/
def newFileThenWrite (w : World) (o : Opening) (buf : Bytes) (written : Int) :
    Option (World × Int × Option Put) :=
  (newFile w o).map fun r =>
    if r.2 = .failure then (r.1, -1, none) else writeBuf r.1 buf written

/-- `PURE_LOG_TIME` で file を替えるかどうか。 -/
def FdLog.cut (l : FdLog) (now : Tm) : Bool :=
  match l.timeStrategeType with
  | .hour => (l.curFiletime (slot l.pos)).hour ≠ now.hour
  | .day => (l.curFiletime (slot l.pos)).mday ≠ now.mday
  | .week => false

/-- `PURE_LOG_SPACE` で今の file に書き続けるかどうか。 -/
def FdLog.hasRoom (l : FdLog) : Bool :=
  l.curFileSize (slot l.pos) < u32 (l.maxFileSize + 2 ^ 32 - PURE_LOG_MAX_PARA_STR_LEN)

/-- `CLog::prt`。 -/
def prt (w : World) (c : Call) : Option (World × Int × Option Put) :=
  if c.level.val ≤ w.log.logLevel.val ∧ c.level ≠ .term then
    let buf := lineOf c.toCall
    match w.log.strategeType with
    | .time =>
      (openIfClosed w c.first).bind fun r =>
        if r.2 then
          if r.1.log.cut c.now then newFileThenWrite r.1 c.second buf c.written
          else some (writeBuf r.1 buf c.written)
        else some (r.1, -1, none)
    | .space =>
      (openIfClosed w c.first).bind fun r =>
        if r.2 then
          if r.1.log.hasRoom then some (writeBuf r.1 buf c.written)
          else newFileThenWrite r.1 c.second buf c.written
        else some (r.1, -1, none)
    | .const =>
      (openIfClosed w c.first).map fun r =>
        if r.2 then
          let r := writeBuf r.1 buf c.written
          (r.1, 0, r.2.2)
        else (r.1, -1, none)
  else some (w, 0, none)

/-! ## 設定と操作の列 -/

/-- `CLog::CLog`。 -/
def FdLog.new : FdLog where
  filename := []
  strategeType := .const
  timeStrategeType := .hour
  amountSize := 10
  logLevel := .debug
  curFiletime := fun _ => ⟨0, 0, 0, 0, 0, 0⟩
  curFileSize := fun _ => 0
  maxFileSize := PURE_LOG_MAX_FILE_SIZE
  fd := fun _ => -1
  pos := 2 ^ 32 - 1
  busy := 0

/-- 構築した直後。 -/
def World.new (files : Bytes → Option Bytes) : World := ⟨FdLog.new, ⟨[], files, 0, 0⟩⟩

/-- `CLog::~CLog`。番号が正の descriptor だけを閉じる。 -/
def destroy (w : World) : Kernel :=
  let k := if w.log.fd (slot 0) > 0 then w.kernel.close (w.log.fd (slot 0)) else w.kernel
  if w.log.fd (slot 1) > 0 then k.close (w.log.fd (slot 1)) else k

/-- `CLog::init`。 -/
def init (w : World) (path filename : Bytes) (o : Opening) : Option World :=
  if path.length + filename.length > PURE_LOG_MAX_FILE_NAME_LEN - 1 then some w
  else
    (newFile { w with log := { w.log with
      filename := snprintf PURE_LOG_MAX_FILE_NAME_LEN (path ++ filename) } } o).map Prod.fst

/-- 一つの thread からの呼び出し。 -/
inductive Act
  | init (path filename : Bytes) (o : Opening)
  | prt (c : Call)
  | setLogLevel (level : LogType)
  | setLogOutByTime (hOrD : Int)
  | setLogOutByAmount (len size : Int)

def step (w : World) : Act → Option World
  | .init path filename o => init w path filename o
  | .prt c => (prt w c).map Prod.fst
  | .setLogLevel level => some { w with log := { w.log with logLevel := level } }
  | .setLogOutByTime hOrD => some { w with log := { w.log with
      strategeType := .time, timeStrategeType := if hOrD > 0 then .hour else .day } }
  | .setLogOutByAmount len size => some { w with log := { w.log with
      strategeType := .space, amountSize := size, maxFileSize := s32ToU32 len } }

end RecordServer.Log.Descriptors
