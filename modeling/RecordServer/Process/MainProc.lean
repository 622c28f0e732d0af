import RecordServer.Infra.Trace

/-!
# 親 process

`main_proc::run` の主 loop と、いつでも割り込む signal handler を、flag の読み書き・`fork`・`kill` を
一歩とする遷移系にする。

* `registerSignal`、`sigHandle` — 表を引いて handler を選ぶ
* `Master.loop` — 主 loop の次の一歩
* `Master.reap` — `sig_chld` の一回の `waitpid` と、続く `g_restart_sig = true`
* `Master.step` — 主 loop、worker の死、回収、signal の到着

flag は member の `reload`、`stop` と、大域変数 `g_restart_sig`、`g_reload_sig` の二組ある。
-/

namespace RecordServer.Process

/-! ## signal の表 -/

/-- 扱う signal。 -/
inductive Signal where
  /-- `LIVE_SHUTDOWN_SIGNAL`。 -/
  | sigquit
  /-- `LIVE_TERMINATE_SIGNAL`。 -/
  | sigterm
  /-- `LIVE_RECONFIGURE_SIGNAL`。 -/
  | sighup
  deriving DecidableEq, Repr

/-- 表に登録される関数。 -/
inductive Handler where
  | handleQuit
  | handleReload
  deriving DecidableEq, Repr

/-- `SR_S`。`userdata` はいつも親 process 自身なので省く。 -/
structure SigReg where
  signo : Signal
  pf : Option Handler
  deriving DecidableEq, Repr

/-- `g_sig_reg_table` の初期値。 -/
def sigRegTable : List SigReg :=
  [⟨.sigquit, none⟩, ⟨.sigterm, none⟩, ⟨.sighup, none⟩]

/-- `main_proc::register_signal` が表に書く関数。 -/
def registered : Signal → Handler
  | .sigquit => .handleQuit
  | .sigterm => .handleQuit
  | .sighup => .handleReload

/-- `main_proc::register_signal` の、表を埋める loop。 -/
def registerSignal (table : List SigReg) : List SigReg :=
  table.map fun ps => { ps with pf := some (registered ps.signo) }

/-- `signal` で `sig_handle` を結び付けた signal。`LIVE_TERMINATE_SIGNAL` は含まれない。 -/
def caught : Signal → Bool
  | .sigquit => true
  | .sigterm => false
  | .sighup => true

/-- `sig_handle` が表から選ぶ関数。 -/
def sigHandle (table : List SigReg) (sig : Signal) : Option Handler :=
  (table.find? fun ps => ps.signo = sig).bind (·.pf)

/-! ## 状態 -/

/-- worker の一生。`zombie` は死んでまだ回収されていない。 -/
inductive Life where
  | alive
  | zombie
  | reaped
  deriving DecidableEq, Repr

/-- `main_proc::run` の中の位置。 -/
inductive RunPc where
  /-- `while(!stop)`。 -/
  | whileStop
  | ifRestart
  /-- `spawn_one_process` の `fork`。 -/
  | fork
  | clearRestart
  | ifReload
  /-- `kill(work_proc->pid, LIVE_RECONFIGURE_SIGNAL)`。 -/
  | kill
  | clearReload
  | sleep
  /-- loop を抜けた後の `kill`。 -/
  | quit
  | exited
  deriving DecidableEq, Repr

/--
親 process。`workers` は作った worker の列で、先頭が最も新しい。
`hup` は、worker へ最後に `SIGHUP` を送ってから親に `SIGHUP` が届いたかどうかを表す。
-/
structure Master where
  pc : RunPc
  restartSig : Bool
  reloadSig : Bool
  reload : Bool
  stop : Bool
  table : List SigReg
  workers : List Life
  hup : Bool
  deriving DecidableEq, Repr

/-- worker を一つ作って `run` に入り、handler を登録した後。`life` はその worker の状態。 -/
def Master.start (life : Life) : Master where
  pc := .whileStop
  restartSig := false
  reloadSig := false
  reload := false
  stop := false
  table := registerSignal sigRegTable
  workers := [life]
  hup := false

/-- 一歩。 -/
inductive Act where
  /-- 主 loop の次の一歩。`ok` は `fork` が成功するかどうか。 -/
  | loop (ok : Bool)
  /-- `k` 番目に新しい worker が死ぬ。 -/
  | die (k : Nat)
  /-- `sig_chld` が `k` 番目に新しい worker を回収する。 -/
  | reap (k : Nat)
  /-- signal が届く。 -/
  | signal (sig : Signal)
  deriving DecidableEq, Repr

namespace Master

/-- `main_proc::run` の次の一歩。 -/
def loop (m : Master) (ok : Bool) : Option Master :=
  match m.pc with
  | .whileStop => some { m with pc := if m.stop then .quit else .ifRestart }
  | .ifRestart => some { m with pc := if m.restartSig then .fork else .ifReload }
  | .fork =>
    if ok then some { m with workers := .alive :: m.workers, pc := .clearRestart }
    else some { m with pc := .exited }
  | .clearRestart => some { m with restartSig := false, pc := .ifReload }
  | .ifReload => some { m with pc := if m.reloadSig then .kill else .sleep }
  | .kill => some { m with hup := false, pc := .clearReload }
  | .clearReload => some { m with reloadSig := false, pc := .sleep }
  | .sleep => some { m with pc := .whileStop }
  | .quit => some { m with pc := .exited }
  | .exited => none

/-- `sig_chld` の loop の一回分。 -/
def reap (m : Master) (k : Nat) : Option Master :=
  if m.workers[k]? = some .zombie then
    some { m with workers := m.workers.set k .reaped, restartSig := true }
  else none

/-- worker の死。 -/
def die (m : Master) (k : Nat) : Option Master :=
  if m.workers[k]? = some .alive then some { m with workers := m.workers.set k .zombie } else none

/-- 登録した関数の効果。 -/
def handle (m : Master) : Handler → Master
  | .handleQuit => { m with stop := true }
  | .handleReload => { m with reload := true }

/-- signal の到着。結び付けていない signal は process を終わらせる。 -/
def signal (m : Master) (sig : Signal) : Master :=
  let m := if sig = .sighup then { m with hup := true } else m
  if caught sig then
    match sigHandle m.table sig with
    | some h => m.handle h
    | none => m
  else { m with pc := .exited }

/-- 遷移系。 -/
def step (m : Master) : Act → Option Master
  | .loop ok => m.loop ok
  | .die k => m.die k
  | .reap k => if m.pc = .exited then none else m.reap k
  | .signal sig => if m.pc = .exited then none else some (m.signal sig)

end Master

end RecordServer.Process
