import RecordServer.App.Command
import RecordServer.Infra.Paths
import Mathlib.Data.Int.Basic

/-!
# playlist の file（`create_m3u8` と、その path を組む要求）

`create_record` と `start_record` は `root_path` と要求の `path` を 256 byte の `tmp` に繋ぎ、
`create_m3u8` はそれに `sid` と時刻を繋いで file を開く。directory が無ければ `multi_mkdir` が作る。

* `createPath` / `startPath` — 二つの要求が組む path
* `fileName` — `create_m3u8` が開く file の名前
* `multiMkdir` / `createM3u8` — 木を変える部分
* `createRecord` — `create_record` の返事
-/

namespace RecordServer.App

open Infra

/-- `_m3u8_param`。 -/
structure M3u8Param where
  sid : Bytes
  path : Bytes
  filePath : Bytes
deriving DecidableEq, Repr

/-! ## path を組む -/

/-- 最後の `/` の前まで。`/` が無ければそのまま。 -/
def stripLast (path : Bytes) : Bytes :=
  match rfindSlash path with
  | some pos => path.take pos
  | none => path

/-- `create_record` の `param.path`。 -/
def createPath (rootPath path : Bytes) : Bytes :=
  snprintf 256 (ascii "%s%s/") [cstr rootPath, cstr (stripLast path)]

/-- `start_record` の `cmd_param.m3u8_path`。`spawn_process` はそのまま `create_m3u8` に渡す。 -/
def startPath (rootPath path : Bytes) : Bytes :=
  snprintf 256 (ascii "%s%s") [cstr rootPath, cstr path]

/-- 整数を十進で書く。 -/
def decimal (n : Int) : Bytes :=
  if n < 0 then ascii "-" ++ ascii (Nat.repr n.natAbs) else ascii (Nat.repr n.natAbs)

/-- `"_%d.m3u8"`。`%d` は `time_t` の下位 32 bit を `int` として読む。 -/
def timeSuffix (t : Int) : Bytes := ascii "_" ++ decimal (Int.bmod t (2 ^ 32)) ++ ascii ".m3u8"

/-- `create_m3u8` の `tmp`。書式は `"%s%s_%d.m3u8"` である。 -/
def fileName (path sid : Bytes) (t : Int) : Bytes :=
  (cstr path ++ cstr sid ++ timeSuffix t).take (256 - 1)

/-! ## directory と file を作る -/

/-- 無ければ作る。 -/
def ensureDir (t : Tree) (dir : Bytes) : Tree := if t.Access dir then t else t.mkdir dir

/-- `multi_mkdir` の loop。`pre` は読み終えた部分で、`/` に着くごとにそこまでを directory にする。 -/
def mkdirLoop (t : Tree) (pre : Bytes) : Bytes → Tree
  | [] => t
  | b :: s =>
    if b = slash then mkdirLoop (ensureDir t pre) (pre ++ [b]) s else mkdirLoop t (pre ++ [b]) s

/-- `multi_mkdir`。渡る path は 255 byte までなので、`str[512]` には終端まで入る。 -/
def multiMkdir (t : Tree) (dir : Bytes) : Tree :=
  let str := (cstr dir).take 512
  let t := mkdirLoop t [] str
  if str ≠ [] then ensureDir t str else t

/-- `create_m3u8` の、file を開く前まで。 -/
def prepareDir (t : Tree) (path : Bytes) : Tree :=
  if t.Opendir (cstr path) then t else multiMkdir t path

/-- `create_m3u8`。開けたときは `file_path` を書いた `param` を返し、開けなければ `none` を返す。 -/
def createM3u8 (t : Tree) (param : M3u8Param) (now : Int) : Option M3u8Param × Tree :=
  let t := prepareDir t param.path
  let tmp := fileName param.path param.sid now
  match t.openCreat tmp with
  | (true, t) => (some { param with filePath := tmp }, t)
  | (false, t) => (none, t)

/-! ## 返事 -/

structure HttpReply where
  code : Nat
  reason : Bytes
  body : Bytes
deriving DecidableEq, Repr

/-- `create_record` の、file が作れたときの `output`。 -/
def createOutput (filePath : Bytes) : Bytes :=
  ascii "\x7b\"ret\":" ++ ascii "0" ++ ascii ",\"" ++ ascii "msg\":\"" ++
    ascii "create task start\",\"path\":\"" ++ cstr filePath ++ ascii "\"\x7d"

/-- `CREATE_FILE_FAILED` の `output`。 -/
def createFailedOutput (ret : Int) : Bytes :=
  ascii "\x7b\"ret\":" ++ decimal ret ++ ascii ",\"" ++ ascii "msg\":\"" ++
    ascii "create task failed\"\x7d"

/-- `create_record` の、body を読んだ後。`path` と `sid` は `root["path"]` と `root["streamcode"]` である。 -/
def createRecord (t : Tree) (rootPath path sid : Bytes) (now : Int) : HttpReply × Tree :=
  match createM3u8 t ⟨sid, createPath rootPath path, []⟩ now with
  | (some param, t) => (⟨200, ascii "OK", createOutput param.filePath⟩, t)
  | (none, t) =>
    -- `REC_ERROR_CREATE_M3U8_FILE`
    (⟨400, ascii "paramter not match", createFailedOutput 11⟩, t)

end RecordServer.App
