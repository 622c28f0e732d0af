import RecordServer.App.Playlist
import RecordServer.Infra.FdTable
import RecordServer.Infra.Trace

/-!
# `create_m3u8` の descriptor

`create_m3u8` は `opendir` で directory があるかを調べ、開けた `DIR *` を捨てる。`closedir` は呼ばれないので、
その descriptor は開いたまま残る。file の descriptor は `close` で閉じる。

`open` と `opendir` は、まず表の空きを取る。空きが無ければ木に触れずに失敗する。

* `Host` — 木と descriptor の表
* `Host.opendir` / `Host.openCreat` / `Host.close` — 三つの system call
* `createM3u8Fd` — それを順に呼ぶ `create_m3u8`
* `Calling.step` — いくつもの thread の `create_m3u8` が、ほかの所の `open` や `close` と入り混じる遷移系
-/

namespace RecordServer.App

open Infra

/-- descriptor の持ち主。 -/
inductive FdOwner where
  /-- `create_m3u8` の `opendir`。 -/
  | directory
  /-- `create_m3u8` の `open`。 -/
  | playlist
  /-- 接続や log のように、ほかの所が開いたもの。 -/
  | other
  deriving DecidableEq, Repr

structure Host where
  tree : Tree
  fds : FdTable FdOwner

namespace Host

/-- `opendir(path) != NULL` か。 -/
def opendir (h : Host) (path : Bytes) : Bool × Host :=
  if h.tree.Opendir (cstr path) then
    match h.fds.alloc .directory with
    | some (_, fds) => (true, { h with fds := fds })
    | none => (false, h)
  else (false, h)

/-- `multi_mkdir(path)` -/
def mkdirs (h : Host) (path : Bytes) : Host := { h with tree := multiMkdir h.tree path }

/-- `open(tmp, O_RDWR | O_CREAT)` -/
def openCreat (h : Host) (tmp : Bytes) : Option Nat × Host :=
  match h.fds.alloc .playlist with
  | none => (none, h)
  | some (fd, fds) =>
    match h.tree.openCreat tmp with
    | (true, t) => (some fd, ⟨t, fds⟩)
    | (false, t) => (none, { h with tree := t })

def close (h : Host) (fd : Nat) : Host := { h with fds := h.fds.close fd }

end Host

/-- file を開いて閉じる、`create_m3u8` の後半。 -/
def Host.createFile (h : Host) (param : M3u8Param) (tmp : Bytes) : Option M3u8Param × Host :=
  match h.openCreat tmp with
  | (some fd, h) => (some { param with filePath := tmp }, h.close fd)
  | (none, h) => (none, h)

/-- `create_m3u8` -/
def createM3u8Fd (h : Host) (param : M3u8Param) (now : Int) : Option M3u8Param × Host :=
  let (found, h) := h.opendir param.path
  let h := if found then h else h.mkdirs param.path
  h.createFile param (fileName param.path param.sid now)

/-- `create_record` の、body を読んだ後。 -/
def createRecordFd (h : Host) (rootPath path sid : Bytes) (now : Int) : HttpReply × Host :=
  match createM3u8Fd h ⟨sid, createPath rootPath path, []⟩ now with
  | (some param, h) => (⟨200, ascii "OK", createOutput param.filePath⟩, h)
  | (none, h) => (⟨400, ascii "paramter not match", createFailedOutput 11⟩, h)

/-! ## いくつもの呼び出し -/

/-- 呼び出しの引数と、`time(NULL)` の返す時刻。 -/
structure PlaylistCall where
  param : M3u8Param
  now : Int
  deriving DecidableEq, Repr

/-- 順に呼んだ後。 -/
def hostAfter (h : Host) (cs : List PlaylistCall) : Host :=
  cs.foldl (fun h c => (createM3u8Fd h c.param c.now).2) h

/-- descriptor に限りが無いときの、順に呼んだ後の木。 -/
def treeAfter (t : Tree) (cs : List PlaylistCall) : Tree :=
  cs.foldl (fun t c => (createM3u8 t c.param c.now).2) t

/-- 順に呼ぶうち、directory が初めからあった呼び出しの数。 -/
def foundIn (t : Tree) : List PlaylistCall → Nat
  | [] => 0
  | c :: cs =>
    (if t.Opendir (cstr c.param.path) then 1 else 0) + foundIn (createM3u8 t c.param c.now).2 cs

/-- `create_m3u8` の中の位置。 -/
inductive PlaylistPc where
  | idle
  | opendir (param : M3u8Param)
  | mkdirs (param : M3u8Param)
  | openCreat (param : M3u8Param)
  | close (fd : Nat) (param : M3u8Param)
  | returned (result : Option M3u8Param)
  deriving DecidableEq, Repr

/-- thread `ι` の `create_m3u8`。`found` は成功した `opendir` の数である。 -/
structure Calling (ι : Type*) where
  host : Host
  pc : ι → PlaylistPc
  found : Nat

inductive PlaylistAct (ι : Type*) where
  | call (i : ι) (param : M3u8Param)
  | opendir (i : ι)
  | mkdirs (i : ι)
  | openCreat (i : ι) (now : Int)
  | close (i : ι)
  /-- ほかの所が一つ開く。 -/
  | openOther
  /-- ほかの所が、自分の開いたものを閉じる。 -/
  | closeOther (fd : Nat)

namespace Calling

variable {ι : Type*} [DecidableEq ι]

def goto (s : Calling ι) (i : ι) (p : PlaylistPc) : Calling ι :=
  { s with pc := Function.update s.pc i p }

def step (s : Calling ι) : PlaylistAct ι → Option (Calling ι)
  | .call i param =>
    match s.pc i with
    | .idle => some (s.goto i (.opendir param))
    | .returned _ => some (s.goto i (.opendir param))
    | _ => none
  | .opendir i =>
    match s.pc i with
    | .opendir param =>
      match s.host.opendir param.path with
      | (true, h) => some ({ s with host := h, found := s.found + 1 }.goto i (.openCreat param))
      | (false, h) => some ({ s with host := h }.goto i (.mkdirs param))
    | _ => none
  | .mkdirs i =>
    match s.pc i with
    | .mkdirs param => some ({ s with host := s.host.mkdirs param.path }.goto i (.openCreat param))
    | _ => none
  | .openCreat i now =>
    match s.pc i with
    | .openCreat param =>
      match s.host.openCreat (fileName param.path param.sid now) with
      | (some fd, h) =>
        some ({ s with host := h }.goto i
          (.close fd { param with filePath := fileName param.path param.sid now }))
      | (none, h) => some ({ s with host := h }.goto i (.returned none))
    | _ => none
  | .close i =>
    match s.pc i with
    | .close fd param => some ({ s with host := s.host.close fd }.goto i (.returned (some param)))
    | _ => none
  | .openOther =>
    match s.host.fds.alloc .other with
    | some (_, fds) => some { s with host := { s.host with fds := fds } }
    | none => some s
  | .closeOther fd =>
    if s.host.fds.owner fd = some .other then some { s with host := s.host.close fd } else none

/-- まだ `create_m3u8` を一度も呼んでいない。 -/
def start (ι : Type*) (h : Host) : Calling ι := ⟨h, fun _ => .idle, 0⟩

end Calling

end RecordServer.App
