import RecordServer.Timer.Calls

/-!
# 接続の時間切れ（`base_connect.cpp`、`base_connect_timer.cpp`、`pure_timer_event.cpp`）

接続は自分の timer event `m_cto` を持ち、`BC_TIMEOUT` ごとに、最後に活動した時刻 `m_active_ms` からの
経過を調べる。経過が長ければ閉じ、短ければもう一度 timer に加える。

接続は `m_cto` の番地で表す。`gettimeofday` の値は外から渡す。閉じるときの event の一覧と epoll と
`connect_remove` は timer に触れないので省く。`m_ptarray` の event の `delete` はその event を timer から外すが、
`m_cto` には触れないので、ほかの event への操作として別に扱う。

* `initTimer`、`updateActive` — 活動の記録
* `handleExpireTimerEx` — `m_cto` の期限が来たときの処理
-/

namespace RecordServer.Base

open Infra Datas Timer

def BC_TIMEOUT : Nat := 30000

/-- `CBase_connect` の、時間切れに関わる field。 -/
structure ConnTimeout where
  closed : Bool
  activeMs : Key

/-- circle の timer と、接続の field。 -/
structure TimedCircle where
  world : World
  conn : Ptr → ConnTimeout

namespace TimedCircle

def modify (s : TimedCircle) (ev : Ptr) (f : ConnTimeout → ConnTimeout) : TimedCircle :=
  { s with conn := Function.update s.conn ev (f (s.conn ev)) }

/-- 時計の値 `clock` を読む。 -/
def circleAddTimerEvent (fuel : Nat) (s : TimedCircle) (timer clock : Key) (ev : Ptr) :
    Option TimedCircle :=
  (exec fuel s.world (.add timer clock ev)).map fun w => { s with world := w }

def circleDeleteTimerEvent (fuel : Nat) (s : TimedCircle) (ev : Ptr) : Option TimedCircle :=
  (exec fuel s.world (.delete ev)).map fun w => { s with world := w }

/-- 接続の構築子。`m_active_ms` は初期化されない。 -/
def construct (fuel : Nat) (s : TimedCircle) (ev : Ptr) : Option TimedCircle :=
  (exec fuel s.world (.construct ev)).map fun w =>
    { s with world := w }.modify ev fun c => { c with closed := false }

/-- 接続の解体子。`m_cto` の解体子が timer から自分を外す。 -/
def destroy (fuel : Nat) (s : TimedCircle) (ev : Ptr) : Option TimedCircle :=
  (exec fuel s.world (.destroy ev)).map fun w => { s with world := w }

def updateActive (s : TimedCircle) (ev : Ptr) (clock : Key) : TimedCircle :=
  s.modify ev fun c => { c with activeMs := clock }

/-- 時計を二度読む。 -/
def initTimer (fuel : Nat) (s : TimedCircle) (ev : Ptr) (clock clock' : Key) :
    Option TimedCircle :=
  (s.updateActive ev clock).circleAddTimerEvent fuel (Fin.ofNat _ BC_TIMEOUT) clock' ev

def connectClose (fuel : Nat) (s : TimedCircle) (ev : Ptr) : Option TimedCircle :=
  (s.modify ev fun c => { c with closed := true }).circleDeleteTimerEvent fuel ev

/-- `SUCCESS` なら `true` を返す。経過は `s32` に縮めて調べる。 -/
def checkTimeout (fuel : Nat) (s : TimedCircle) (ev : Ptr) (clock clock' : Key) :
    Option (Bool × TimedCircle) :=
  let diff := PureTimer.s32 (clock - (s.conn ev).activeMs)
  if diff > BC_TIMEOUT then some (false, s)
  else (s.circleAddTimerEvent fuel (Fin.ofNat _ BC_TIMEOUT) clock' ev).map fun s => (true, s)

/-- `CPure_timer_event::handle_expire_timer_ex`。`handle_expire_timer` は `check_timeout` を呼ぶ。 -/
def handleExpireTimerEx (fuel : Nat) (s : TimedCircle) (ev : Ptr) (clock clock' : Key) :
    Option TimedCircle :=
  (if (s.conn ev).closed = true then s.connectClose fuel ev else some s).bind fun s =>
    (s.checkTimeout fuel ev clock clock').bind fun r =>
      if r.1 = true then some r.2 else r.2.connectClose fuel ev

end TimedCircle

end RecordServer.Base
