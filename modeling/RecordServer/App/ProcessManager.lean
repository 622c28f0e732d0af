import RecordServer.App.MongoAdaptor
import RecordServer.Infra.Trace
import Mathlib.Logic.Function.Basic

/-!
# `ProcessManager` の遷移系（`process_manager.cpp`・`record_control.cpp`）

一つの manager を、記録の collection・OS の process 表・四つの活動の program counter からなる
状態の上の遷移系として表す。MongoDB の操作・fork・waitpid・kill はそれぞれ一歩である。

* queue thread — `process_queue` が `spawn_process` を呼ぶ
* HTTP thread — `start_record` が `put_data` を、`stop_record` が `kill_process` を呼ぶ
* SIGCHLD handler — `sig_reap_chld` → `send_message` → `process_reload` → `re_create_process`
* monitor thread — `orphan_process_sync`

非決定性（どの活動が動くか、fork が返す pid、process がいつ死ぬか）は名札 `Act` に載る。
MongoDB と exec は成功する。fork は使われたことのない pid を返すか、失敗する。
-/

namespace RecordServer.App

open Infra

/-! ## OS の process 表 -/

inductive ProcState where
  | running
  | zombie
  | gone
deriving DecidableEq, Repr

/-- process 表の一行。`stream` は録画する stream で、録画用でない process では `none`。 -/
structure Proc where
  stream : Option CString
  child : Bool
  state : ProcState
deriving DecidableEq, Repr

abbrev Procs := Nat → Option Proc

/-! ## 記録を読み書きする関数 -/

/-- `is_process_exist(string sid)`。 -/
def isProcessExist (c : Store) (sid : CString) : Bool :=
  (MongoAdaptor.findOne (byStream sid) c).isSome

/-- `is_process_exist(int pid, _process_info &info)`。見つかった記録が `info` に入る。 -/
def isProcessExistPid (c : Store) (pid : Nat) : Option ProcessInfo :=
  MongoAdaptor.findOne (byPid pid) c

/-- `get_process_info`。 -/
def getProcessInfo (c : Store) (sid : CString) : Option ProcessInfo :=
  MongoAdaptor.findOne (byStream sid) c

/-- `remove_process_by_stream`。 -/
def removeProcessByStream (c : Store) (sid : CString) : Store :=
  MongoAdaptor.remove (byStream sid) c

/-- `add_process_to_cache`。`ppid` は自分の pid、`status` は定数である。 -/
def addProcessToCache (self : Nat) (c : Store) (info : ProcessInfo) : Store :=
  MongoAdaptor.insert c { info with ppid := self, status := .ofBytes (ascii "active") }

/-- `update_process_info`。`$set` するのは `pid` だけで、`ppid` はそのままである。 -/
def updateProcessInfo (c : Store) (param : ProcessInfo) : Store :=
  MongoAdaptor.update (byStream param.sid) (fun d => { d with pid := param.pid }) c

/-- `find_orphan_process`。query の `$ne` と、読んだ後の `ppid != pid` の二度の検査。 -/
def findOrphanProcess (self : Nat) (c : Store) : List ProcessInfo :=
  (MongoAdaptor.find (fun d => d.ppid != self) c).filter fun item => item.ppid != self

/-- `check_system_process_exist`。`kill(pid, 0)` は、親に待たれるまでは zombie にも成功する。 -/
def checkSystemProcessExist (procs : Procs) (pid : Nat) : Bool :=
  match procs pid with
  | none => false
  | some pr => pr.state != .gone

/-- `put_data`。queue に積むだけで、つねに `REC_ERROR_OK` を返す。 -/
def putData (q : List ProcessInfo) (param : ProcessInfo) : List ProcessInfo × ErrorCode :=
  (q ++ [param], .ok)

/-! ## HTTP の応答 -/

inductive Request where
  | start (sid : CString)
  | stop (sid : CString)
deriving DecidableEq, Repr

inductive Reply where
  | success
  | streamExist
  | streamNotExist
deriving DecidableEq, Repr

/-- `start_record` の応答。 -/
def startReply (ret : ErrorCode) : Reply :=
  if ret = .streamExist then .streamExist else .success

/-- `stop_record` の応答。 -/
def stopReply (ret : ErrorCode) : Reply :=
  if ret = .streamNotExist then .streamNotExist else .success

/-! ## 状態 -/

/-- queue thread。`spawn_process` の中のどこにいるか。 -/
inductive QueuePc where
  | idle
  | check (e : ProcessInfo)
  | create (e : ProcessInfo)
  | fork (e : ProcessInfo) (file : CString)
  | insert (e : ProcessInfo)
deriving DecidableEq, Repr

/-- HTTP thread。`kill_process` の中のどこにいるか。 -/
inductive HttpPc where
  | idle
  | remove (p : ProcessInfo)
  | kill (p : ProcessInfo)
deriving DecidableEq, Repr

/-- SIGCHLD handler。 -/
inductive SigPc where
  | idle
  | lookup (pid : Nat)
  | fork (info : ProcessInfo)
  | update (info : ProcessInfo)
deriving DecidableEq, Repr

/-- monitor thread。`rest` は `orphan` のまだ見ていない部分。 -/
inductive MonPc where
  | idle
  | check (rest : List ProcessInfo)
  | lookup (pid : Nat) (rest : List ProcessInfo)
  | fork (info : ProcessInfo) (rest : List ProcessInfo)
  | update (info : ProcessInfo) (rest : List ProcessInfo)
deriving DecidableEq, Repr

/--
manager の状態。

`killed` と `replies` は観測のための記録で、`kill_process` が collection から読んだ pid と、
HTTP thread が返した応答を、それぞれ持つ。どの一歩もこれらを読まない。
-/
structure State where
  self : Nat
  store : Store
  procs : Procs
  queue : List ProcessInfo
  qpc : QueuePc
  hpc : HttpPc
  spc : SigPc
  mpc : MonPc
  killed : List Nat
  replies : List (Request × Reply)

/-- どの活動も動いていない、起動したばかりの manager。 -/
def State.boot (self : Nat) (store : Store) (procs : Procs) : State where
  self := self
  store := store
  procs := procs
  queue := []
  qpc := .idle
  hpc := .idle
  spc := .idle
  mpc := .idle
  killed := []
  replies := []

/-- 一歩の名札。fork の結果は `none` が失敗である。 -/
inductive Act where
  | start (e : ProcessInfo)
  | stop (sid : CString)
  | killRemove
  | killSignal
  | queueTake
  | queueCheck
  | queueCreate (file : Option CString)
  | queueFork (pid : Option Nat)
  | queueInsert
  | die (pid : Nat)
  | sigReap (pid : Nat)
  | sigLookup
  | sigFork (pid : Option Nat)
  | sigUpdate
  | monScan
  | monCheck
  | monLookup
  | monFork (pid : Option Nat)
  | monUpdate
deriving DecidableEq, Repr

/--
`start_record` が読んだ要求。`streamcode`・`src`・`type` は `std::string` のまま `put_data` に渡るが、
読まれるのはどこでも `c_str()` である。ほかの field は `e` に置かれている。
-/
def Act.startRecord (e : ProcessInfo) (streamcode src type : Bytes) : Act :=
  .start { e with sid := .ofBytes streamcode, srcUrl := .ofBytes src, type := .ofBytes type }

/-- `stop_record` が読んだ要求。 -/
def Act.stopRecord (streamcode : Bytes) : Act := .stop (.ofBytes streamcode)

/-! ## 一歩 -/

/-- `spawn_process` から戻って `queue->pop()`。他の活動から見えないので直前の一歩に含める。 -/
def State.pop (s : State) : State := { s with queue := s.queue.tail, qpc := .idle }

/-- fork した子を process 表に足す。 -/
def forkProc (procs : Procs) (pid : Nat) (sid : CString) : Procs :=
  Function.update procs pid (some ⟨some sid, true, .running⟩)

/-- process の終わり。子は親に待たれるまで zombie になる。 -/
def endProc (pr : Proc) : Proc :=
  { pr with state := if pr.child then .zombie else .gone }

def step (s : State) : Act → Option State
  | .start e =>
    match s.hpc with
    | .idle =>
      some { s with
        queue := (putData s.queue e).1
        replies := s.replies ++ [(.start e.sid, startReply (putData s.queue e).2)] }
    | _ => none
  | .stop sid =>
    match s.hpc with
    | .idle =>
      match getProcessInfo s.store sid with
      | none => some { s with replies := s.replies ++ [(.stop sid, stopReply .streamNotExist)] }
      | some p => some { s with hpc := .remove p, killed := p.pid :: s.killed }
    | _ => none
  | .killRemove =>
    match s.hpc with
    | .remove p => some { s with store := removeProcessByStream s.store p.sid, hpc := .kill p }
    | _ => none
  | .killSignal =>
    -- SIGINT を送る。process がいつ終わるかは `die` が決める
    match s.hpc with
    | .kill p => some { s with hpc := .idle, replies := s.replies ++ [(.stop p.sid, stopReply .ok)] }
    | _ => none
  | .queueTake =>
    match s.qpc, s.queue with
    | .idle, e :: _ => some { s with qpc := .check e }
    | _, _ => none
  | .queueCheck =>
    match s.qpc with
    | .check e => if isProcessExist s.store e.sid then some s.pop else some { s with qpc := .create e }
    | _ => none
  | .queueCreate file =>
    match s.qpc, file with
    | .create _, none => some s.pop
    | .create e, some f => some { s with qpc := .fork e f }
    | _, _ => none
  | .queueFork pid =>
    match s.qpc, pid with
    | .fork _ _, none => some s.pop
    | .fork e f, some p =>
      if s.procs p = none then
        some { s with
          procs := forkProc s.procs p e.sid
          qpc := .insert { e with pid := p, m3u8Path := f } }
      else none
    | _, _ => none
  | .queueInsert =>
    match s.qpc with
    | .insert e => some { s.pop with store := addProcessToCache s.self s.store e }
    | _ => none
  | .die pid =>
    match s.procs pid with
    | some pr =>
      if pr.state = .running then
        some { s with procs := Function.update s.procs pid (some (endProc pr)) }
      else none
    | none => none
  | .sigReap pid =>
    match s.spc, s.procs pid with
    | .idle, some pr =>
      if pr.child = true ∧ pr.state = .zombie then
        some { s with
          procs := Function.update s.procs pid (some { pr with state := .gone })
          spc := .lookup pid }
      else none
    | _, _ => none
  | .sigLookup =>
    match s.spc with
    | .lookup pid =>
      match isProcessExistPid s.store pid with
      | none => some { s with spc := .idle }
      | some info => some { s with spc := .fork info }
    | _ => none
  | .sigFork pid =>
    match s.spc, pid with
    | .fork _, none => some { s with spc := .idle }
    | .fork info, some p =>
      if s.procs p = none then
        some { s with procs := forkProc s.procs p info.sid, spc := .update { info with pid := p } }
      else none
    | _, _ => none
  | .sigUpdate =>
    match s.spc with
    | .update info => some { s with store := updateProcessInfo s.store info, spc := .idle }
    | _ => none
  | .monScan =>
    match s.mpc with
    | .idle => some { s with mpc := .check (findOrphanProcess s.self s.store) }
    | _ => none
  | .monCheck =>
    match s.mpc with
    | .check [] => some { s with mpc := .idle }
    | .check (i :: rest) =>
      if checkSystemProcessExist s.procs i.pid then some { s with mpc := .check rest }
      else some { s with mpc := .lookup i.pid rest }
    | _ => none
  | .monLookup =>
    match s.mpc with
    | .lookup pid rest =>
      match isProcessExistPid s.store pid with
      | none => some { s with mpc := .check rest }
      | some info => some { s with mpc := .fork info rest }
    | _ => none
  | .monFork pid =>
    match s.mpc, pid with
    | .fork _ rest, none => some { s with mpc := .check rest }
    | .fork info rest, some p =>
      if s.procs p = none then
        some { s with
          procs := forkProc s.procs p info.sid
          mpc := .update { info with pid := p } rest }
      else none
    | _, _ => none
  | .monUpdate =>
    match s.mpc with
    | .update info rest =>
      some { s with store := updateProcessInfo s.store info, mpc := .check rest }
    | _ => none

/-! ## 一歩の場合分け -/

/--
一歩でできることの一覧。`step` の枝と一対一に対応し、それぞれの前提と結果を述べる。

不変量の証明はこの一覧についての場合分けで進め、`step` は開かない。
-/
inductive Step (s : State) : Act → State → Prop where
  | start (e : ProcessInfo) (hpc : s.hpc = .idle) :
    Step s (.start e) { s with
      queue := s.queue ++ [e]
      replies := s.replies ++ [(.start e.sid, .success)] }
  | stopNone (sid : CString) (hpc : s.hpc = .idle) (hget : getProcessInfo s.store sid = none) :
    Step s (.stop sid) { s with replies := s.replies ++ [(.stop sid, .streamNotExist)] }
  | stopSome (sid : CString) (p : ProcessInfo) (hpc : s.hpc = .idle)
    (hget : getProcessInfo s.store sid = some p) :
    Step s (.stop sid) { s with hpc := .remove p, killed := p.pid :: s.killed }
  | killRemove (p : ProcessInfo) (hpc : s.hpc = .remove p) :
    Step s .killRemove { s with store := removeProcessByStream s.store p.sid, hpc := .kill p }
  | killSignal (p : ProcessInfo) (hpc : s.hpc = .kill p) :
    Step s .killSignal { s with
      hpc := .idle
      replies := s.replies ++ [(.stop p.sid, .success)] }
  | queueTake (e : ProcessInfo) (q : List ProcessInfo) (qpc : s.qpc = .idle)
    (hq : s.queue = e :: q) : Step s .queueTake { s with qpc := .check e }
  | queueExist (e : ProcessInfo) (qpc : s.qpc = .check e) (hex : isProcessExist s.store e.sid = true) :
    Step s .queueCheck { s with queue := s.queue.tail, qpc := .idle }
  | queueAbsent (e : ProcessInfo) (qpc : s.qpc = .check e)
    (hex : isProcessExist s.store e.sid = false) : Step s .queueCheck { s with qpc := .create e }
  | queueCreateFail (e : ProcessInfo) (qpc : s.qpc = .create e) :
    Step s (.queueCreate none) { s with queue := s.queue.tail, qpc := .idle }
  | queueCreate (e : ProcessInfo) (f : CString) (qpc : s.qpc = .create e) :
    Step s (.queueCreate (some f)) { s with qpc := .fork e f }
  | queueForkFail (e : ProcessInfo) (f : CString) (qpc : s.qpc = .fork e f) :
    Step s (.queueFork none) { s with queue := s.queue.tail, qpc := .idle }
  | queueFork (e : ProcessInfo) (f : CString) (p : Nat) (qpc : s.qpc = .fork e f)
    (hfresh : s.procs p = none) :
    Step s (.queueFork (some p)) { s with
      procs := forkProc s.procs p e.sid
      qpc := .insert { e with pid := p, m3u8Path := f } }
  | queueInsert (e : ProcessInfo) (qpc : s.qpc = .insert e) :
    Step s .queueInsert { s with
      store := addProcessToCache s.self s.store e
      queue := s.queue.tail
      qpc := .idle }
  | die (p : Nat) (pr : Proc) (hp : s.procs p = some pr) (hrun : pr.state = .running) :
    Step s (.die p) { s with procs := Function.update s.procs p (some (endProc pr)) }
  | sigReap (p : Nat) (pr : Proc) (spc : s.spc = .idle) (hp : s.procs p = some pr)
    (hchild : pr.child = true) (hz : pr.state = .zombie) :
    Step s (.sigReap p) { s with
      procs := Function.update s.procs p (some { pr with state := .gone })
      spc := .lookup p }
  | sigLookupNone (p : Nat) (spc : s.spc = .lookup p) (hget : isProcessExistPid s.store p = none) :
    Step s .sigLookup { s with spc := .idle }
  | sigLookupSome (p : Nat) (i : ProcessInfo) (spc : s.spc = .lookup p)
    (hget : isProcessExistPid s.store p = some i) : Step s .sigLookup { s with spc := .fork i }
  | sigForkFail (i : ProcessInfo) (spc : s.spc = .fork i) :
    Step s (.sigFork none) { s with spc := .idle }
  | sigFork (i : ProcessInfo) (p : Nat) (spc : s.spc = .fork i) (hfresh : s.procs p = none) :
    Step s (.sigFork (some p)) { s with
      procs := forkProc s.procs p i.sid
      spc := .update { i with pid := p } }
  | sigUpdate (i : ProcessInfo) (spc : s.spc = .update i) :
    Step s .sigUpdate { s with store := updateProcessInfo s.store i, spc := .idle }
  | monScan (mpc : s.mpc = .idle) :
    Step s .monScan { s with mpc := .check (findOrphanProcess s.self s.store) }
  | monDone (mpc : s.mpc = .check []) : Step s .monCheck { s with mpc := .idle }
  | monAlive (i : ProcessInfo) (rest : List ProcessInfo) (mpc : s.mpc = .check (i :: rest))
    (hex : checkSystemProcessExist s.procs i.pid = true) :
    Step s .monCheck { s with mpc := .check rest }
  | monDead (i : ProcessInfo) (rest : List ProcessInfo) (mpc : s.mpc = .check (i :: rest))
    (hex : checkSystemProcessExist s.procs i.pid = false) :
    Step s .monCheck { s with mpc := .lookup i.pid rest }
  | monLookupNone (p : Nat) (rest : List ProcessInfo) (mpc : s.mpc = .lookup p rest)
    (hget : isProcessExistPid s.store p = none) : Step s .monLookup { s with mpc := .check rest }
  | monLookupSome (p : Nat) (rest : List ProcessInfo) (i : ProcessInfo)
    (mpc : s.mpc = .lookup p rest) (hget : isProcessExistPid s.store p = some i) :
    Step s .monLookup { s with mpc := .fork i rest }
  | monForkFail (i : ProcessInfo) (rest : List ProcessInfo) (mpc : s.mpc = .fork i rest) :
    Step s (.monFork none) { s with mpc := .check rest }
  | monFork (i : ProcessInfo) (rest : List ProcessInfo) (p : Nat) (mpc : s.mpc = .fork i rest)
    (hfresh : s.procs p = none) :
    Step s (.monFork (some p)) { s with
      procs := forkProc s.procs p i.sid
      mpc := .update { i with pid := p } rest }
  | monUpdate (i : ProcessInfo) (rest : List ProcessInfo) (mpc : s.mpc = .update i rest) :
    Step s .monUpdate { s with store := updateProcessInfo s.store i, mpc := .check rest }

/-- **`step` の一歩は一覧のどれかである。** -/
theorem step_cases {s s' : State} {a : Act} (h : step s a = some s') : Step s a s' := by
  cases a <;> simp only [step] at h
  case start e =>
    split at h
    · cases h; exact .start e ‹_›
    · cases h
  case stop sid =>
    split at h
    · split at h
      · cases h; exact .stopNone sid ‹_› ‹_›
      · cases h; exact .stopSome sid _ ‹_› ‹_›
    · cases h
  case killRemove =>
    split at h
    · cases h; exact .killRemove _ ‹_›
    · cases h
  case killSignal =>
    split at h
    · cases h; exact .killSignal _ ‹_›
    · cases h
  case queueTake =>
    split at h
    · cases h; exact .queueTake _ _ ‹_› ‹_›
    · cases h
  case queueCheck =>
    split at h
    · split at h
      · cases h; exact .queueExist _ ‹_› ‹_›
      · cases h; exact .queueAbsent _ ‹_› (by simp_all)
    · cases h
  case queueCreate file =>
    split at h
    · cases h; exact .queueCreateFail _ ‹_›
    · cases h; exact .queueCreate _ _ ‹_›
    · cases h
  case queueFork pid =>
    split at h
    · cases h; exact .queueForkFail _ _ ‹_›
    · split at h
      · cases h; exact .queueFork _ _ _ ‹_› ‹_›
      · cases h
    · cases h
  case queueInsert =>
    split at h
    · cases h; exact .queueInsert _ ‹_›
    · cases h
  case die pid =>
    split at h
    · split at h
      · cases h; exact .die _ _ ‹_› ‹_›
      · cases h
    · cases h
  case sigReap pid =>
    split at h
    · split at h
      · next hc => cases h; exact .sigReap _ _ ‹_› ‹_› hc.1 hc.2
      · cases h
    · cases h
  case sigLookup =>
    split at h
    · split at h
      · cases h; exact .sigLookupNone _ ‹_› ‹_›
      · cases h; exact .sigLookupSome _ _ ‹_› ‹_›
    · cases h
  case sigFork pid =>
    split at h
    · cases h; exact .sigForkFail _ ‹_›
    · split at h
      · cases h; exact .sigFork _ _ ‹_› ‹_›
      · cases h
    · cases h
  case sigUpdate =>
    split at h
    · cases h; exact .sigUpdate _ ‹_›
    · cases h
  case monScan =>
    split at h
    · cases h; exact .monScan ‹_›
    · cases h
  case monCheck =>
    split at h
    · cases h; exact .monDone ‹_›
    · split at h
      · cases h; exact .monAlive _ _ ‹_› ‹_›
      · cases h; exact .monDead _ _ ‹_› (by simp_all)
    · cases h
  case monLookup =>
    split at h
    · split at h
      · cases h; exact .monLookupNone _ _ ‹_› ‹_›
      · cases h; exact .monLookupSome _ _ _ ‹_› ‹_›
    · cases h
  case monFork pid =>
    split at h
    · cases h; exact .monForkFail _ _ ‹_›
    · split at h
      · cases h; exact .monFork _ _ _ ‹_› ‹_›
      · cases h
    · cases h
  case monUpdate =>
    split at h
    · cases h; exact .monUpdate _ _ ‹_›
    · cases h

end RecordServer.App
