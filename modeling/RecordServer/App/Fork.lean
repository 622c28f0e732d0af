import RecordServer.App.ProcessManager

/-!
# fork した子も含めた遷移系

`fork` は呼び出した thread の制御と memory を写した子を作る。子は `execl` に成功すれば別の program に
なるが、失敗すれば `spawn_process` または `re_create_process` から親と同じ道を戻り、
呼び出し元の loop を続ける。そこで process ごとに thread の位置と queue の写しを持たせる。

* `Pc` — queue thread、HTTP thread、monitor thread の位置
* `SigPc` — thread に割り込んだ SIGCHLD handler の位置
* `Pc.next`、`SigPc.next` — thread の一歩が何をするか
* `World.step` — process と thread を選んで一歩進める
* `World.step_thread`、`World.step_die` — 一歩の場合分け

`execl` に失敗する子が無ければ、この遷移系は `ProcessManager` の遷移系と同じように進む
（`mirrors_run`）。

collection は process のあいだで共有される。queue の要素には受け付けた順の番号を付け、
どの要求のために fork したかを `forked` に、記録を書き換えた process を `writers` に残す。
-/

namespace RecordServer.App.Fork

open Infra

/-! ## 一つの process -/

/-- manager の thread。 -/
inductive Thread where
  | queue
  | http
  | monitor
  deriving DecidableEq, Repr

/-- queue の要素。`id` は受け付けた順の番号。 -/
structure Ticket where
  id : Nat
  info : ProcessInfo
  deriving DecidableEq, Repr

/-- thread の位置。`queueExec` と `monExec` は子の側で、これから `execl` を呼ぶ。 -/
inductive Pc where
  | queueIdle
  | queueCheck (e : Ticket)
  | queueCreate (e : Ticket)
  | queueFork (e : Ticket) (file : CString)
  | queueExec (e : Ticket)
  | queueInsert (e : Ticket)
  | httpIdle
  | httpRemove (p : ProcessInfo)
  | httpKill (p : ProcessInfo)
  | monIdle
  | monCheck (rest : List ProcessInfo)
  | monLookup (pid : Nat) (rest : List ProcessInfo)
  | monFork (info : ProcessInfo) (rest : List ProcessInfo)
  | monExec (info : ProcessInfo) (rest : List ProcessInfo)
  | monUpdate (info : ProcessInfo) (rest : List ProcessInfo)
  deriving DecidableEq, Repr

/-- 割り込んだ handler の位置。`none` は割り込まれていない。 -/
inductive SigPc where
  | none
  | wait
  | lookup (pid : Nat)
  | fork (info : ProcessInfo)
  | exec (info : ProcessInfo)
  | update (info : ProcessInfo)
  deriving DecidableEq, Repr

/-- 一つの thread。handler が動いているあいだ、元の位置は止まっている。 -/
structure Frame where
  pc : Pc
  sig : SigPc
  deriving DecidableEq, Repr

/-- manager の program を走らせている process の memory。子には fork した thread しか無い。 -/
structure Memory where
  queue : List Ticket
  threads : Thread → Option Frame

/-- process の program。 -/
inductive Image where
  | manager (m : Memory)
  /-- `execl` に成功した子と、もともと manager でない process。 -/
  | other

/-- process 表の一行。`parent` は manager の program から fork した process の親。 -/
structure Process where
  parent : Option Nat
  state : ProcState
  image : Image

/-- 全体。 -/
structure World where
  store : Store
  procs : Nat → Option Process
  nextId : Nat
  forked : List Nat
  writers : List Nat

/-- process の終わり。manager の program の子は、親に待たれるまで zombie になる。 -/
def Process.ended (pr : Process) : Process :=
  { pr with state := if pr.parent.isSome then .zombie else .gone }

/-! ## thread の一歩 -/

/-- 一歩の名札。どれも環境の答えを持つ。`fork` の `none` は失敗である。 -/
inductive Act where
  | start (info : ProcessInfo)
  | stop (sid : CString)
  /-- 環境の答えを要しない次の一歩。 -/
  | next
  | create (file : Option CString)
  | fork (child : Option Nat)
  | exec (ok : Bool)
  /-- 子 `c` の死を知らせる SIGCHLD が届く。 -/
  | sigEnter (c : Nat)
  /-- `waitpid` が `c` を返す。 -/
  | sigReap (c : Nat)
  /-- `waitpid` が正でない値を返す。 -/
  | sigReturn
  deriving DecidableEq, Repr

/-- 一歩が何をするか。`α` は位置の型。 -/
inductive Outcome (α : Type) where
  | goto (a : α)
  | enqueue (info : ProcessInfo) (a : α)
  | pop (a : α)
  | write (store : Store) (popped : Bool) (a : α)
  | fork (child : Nat) (id : Option Nat) (parent : α) (copy : α)
  | reap (child : Nat) (a : α)
  | image

/-- 位置だけを移す。 -/
def Outcome.map {α β : Type} (f : α → β) : Outcome α → Outcome β
  | goto a => .goto (f a)
  | enqueue i a => .enqueue i (f a)
  | pop a => .pop (f a)
  | write c b a => .write c b (f a)
  | fork c i p k => .fork c i (f p) (f k)
  | reap c a => .reap c (f a)
  | image => .image

/-- `kill(pid, 0)` が成功する。 -/
def exists? (procs : Nat → Option Process) (pid : Nat) : Bool :=
  match procs pid with
  | none => false
  | some pr => pr.state != .gone

/-- 割り込まれていない thread の一歩。`self` は自分の pid。 -/
def Pc.next (self : Nat) (w : World) (queue : List Ticket) : Pc → Act → Option (Outcome Pc)
  | .queueIdle, .next => queue.head?.map fun e => .goto (.queueCheck e)
  | .queueCheck e, .next =>
    if isProcessExist w.store e.info.sid then some (.pop .queueIdle)
    else some (.goto (.queueCreate e))
  | .queueCreate _, .create none => some (.pop .queueIdle)
  | .queueCreate e, .create (some f) => some (.goto (.queueFork e f))
  | .queueFork _ _, .fork none => some (.pop .queueIdle)
  | .queueFork e f, .fork (some c) =>
    some (.fork c (some e.id)
      (.queueInsert { e with info := { e.info with pid := c, m3u8Path := f } }) (.queueExec e))
  | .queueExec _, .exec true => some .image
  | .queueExec _, .exec false => some (.pop .queueIdle)
  | .queueInsert e, .next => some (.write (addProcessToCache self w.store e.info) true .queueIdle)
  | .httpIdle, .start info => some (.enqueue info .httpIdle)
  | .httpIdle, .stop sid =>
    match getProcessInfo w.store sid with
    | none => some (.goto .httpIdle)
    | some p => some (.goto (.httpRemove p))
  | .httpRemove p, .next => some (.write (removeProcessByStream w.store p.sid) false (.httpKill p))
  | .httpKill _, .next => some (.goto .httpIdle)
  | .monIdle, .next => some (.goto (.monCheck (findOrphanProcess self w.store)))
  | .monCheck [], .next => some (.goto .monIdle)
  | .monCheck (i :: rest), .next =>
    if exists? w.procs i.pid then some (.goto (.monCheck rest))
    else some (.goto (.monLookup i.pid rest))
  | .monLookup pid rest, .next =>
    match isProcessExistPid w.store pid with
    | none => some (.goto (.monCheck rest))
    | some info => some (.goto (.monFork info rest))
  | .monFork _ rest, .fork none => some (.goto (.monCheck rest))
  | .monFork info rest, .fork (some c) =>
    some (.fork c none (.monUpdate { info with pid := c } rest) (.monExec info rest))
  | .monExec _ _, .exec true => some .image
  | .monExec _ rest, .exec false => some (.goto (.monCheck rest))
  | .monUpdate info rest, .next =>
    some (.write (updateProcessInfo w.store info) false (.monCheck rest))
  | _, _ => none

/-- 子 `c` が死んでいる。 -/
def deadChild (w : World) (self c : Nat) : Bool :=
  match w.procs c with
  | none => false
  | some pr => pr.parent == some self && pr.state != .running

/-- 子 `c` が回収を待っている。 -/
def zombieChild (w : World) (self c : Nat) : Bool :=
  match w.procs c with
  | none => false
  | some pr => pr.parent == some self && pr.state == .zombie

/-- handler の一歩。 -/
def SigPc.next (self : Nat) (w : World) : SigPc → Act → Option (Outcome SigPc)
  | .none, .sigEnter c => if deadChild w self c then some (.goto .wait) else .none
  | .wait, .sigReap c => if zombieChild w self c then some (.reap c (.lookup c)) else .none
  | .wait, .sigReturn => some (.goto .none)
  | .lookup pid, .next =>
    match isProcessExistPid w.store pid with
    | .none => some (.goto .wait)
    | .some info => some (.goto (.fork info))
  | .fork _, .fork .none => some (.goto .wait)
  | .fork info, .fork (.some c) => some (.fork c .none (.update { info with pid := c }) (.exec info))
  | .exec _, .exec true => some .image
  | .exec _, .exec false => some (.goto .wait)
  | .update info, .next => some (.write (updateProcessInfo w.store info) false .wait)
  | _, _ => .none

/-- thread の一歩。割り込まれていれば handler だけが進む。 -/
def Frame.next (self : Nat) (w : World) (queue : List Ticket) (f : Frame) (a : Act) :
    Option (Outcome Frame) :=
  match f.sig, a with
  | .none, .sigEnter _ => (f.sig.next self w a).map (·.map fun s => { f with sig := s })
  | .none, _ => (f.pc.next self w queue a).map (·.map fun p => { f with pc := p })
  | _, _ => (f.sig.next self w a).map (·.map fun s => { f with sig := s })

/-! ## 全体の一歩 -/

/-- thread `t` の位置を置き換えた memory。 -/
def Memory.setThread (m : Memory) (t : Thread) (f : Frame) : Memory :=
  { m with threads := Function.update m.threads t (some f) }

/-- 先頭を捨てた memory。 -/
def Memory.popQueue (m : Memory) : Memory := { m with queue := m.queue.tail }

/-- 末尾に足した memory。 -/
def Memory.pushQueue (m : Memory) (e : Ticket) : Memory := { m with queue := m.queue ++ [e] }

/-- fork した子の memory。呼び出した thread だけがあり、queue は写しである。 -/
def Memory.copy (m : Memory) (t : Thread) (f : Frame) : Memory :=
  { queue := m.queue, threads := fun u => if u = t then some f else none }

/-- 一歩の名札。thread の一歩か、process の死である。 -/
inductive Label where
  | thread (p : Nat) (t : Thread) (a : Act)
  | die (p : Nat)
  deriving DecidableEq, Repr

namespace World

/-- process の memory を置き換える。 -/
def setMemory (w : World) (p : Nat) (pr : Process) (m : Memory) : World :=
  { w with procs := Function.update w.procs p (some { pr with image := .manager m }) }

/-- process `p` の thread `t` の一歩の結果を全体に及ぼす。 -/
def apply (w : World) (p : Nat) (pr : Process) (m : Memory) (t : Thread) :
    Outcome Frame → Option World
  | .goto f => some (w.setMemory p pr (m.setThread t f))
  | .enqueue info f =>
    some { w.setMemory p pr ((m.pushQueue ⟨w.nextId, info⟩).setThread t f) with
      nextId := w.nextId + 1 }
  | .pop f => some (w.setMemory p pr (m.popQueue.setThread t f))
  | .write store popped f =>
    some { w.setMemory p pr ((if popped then m.popQueue else m).setThread t f) with
      store := store
      writers := w.writers ++ [p] }
  | .fork c id f k =>
    -- 使われている pid は返らない
    if exists? w.procs c then none
    else
      some { w with
        procs := Function.update (w.setMemory p pr (m.setThread t f)).procs c
          (some ⟨some p, .running, .manager (m.copy t k)⟩)
        forked := w.forked ++ id.toList }
  | .reap c f =>
    some { w with
      procs := Function.update (w.setMemory p pr (m.setThread t f)).procs c
        ((w.procs c).map fun pr => { pr with state := .gone }) }
  | .image => some { w with procs := Function.update w.procs p (some { pr with image := .other }) }

/-- 遷移系。 -/
def step (w : World) : Label → Option World
  | .thread p t a =>
    match w.procs p with
    | none => none
    | some pr =>
      match pr.state, pr.image with
      | .running, .manager m =>
        match m.threads t with
        | none => none
        | some f => (f.next p w m.queue a).bind (w.apply p pr m t)
      | _, _ => none
  | .die p =>
    match w.procs p with
    | none => none
    | some pr =>
      if pr.state = .running then
        some { w with procs := Function.update w.procs p (some pr.ended) }
      else none

/-- thread の一歩が起こるのは、動いている manager の program のその thread が進むときである。 -/
theorem step_thread {w w' : World} {p : Nat} {t : Thread} {a : Act}
    (hs : w.step (.thread p t a) = some w') :
    ∃ pr m f o, w.procs p = some pr ∧ pr.state = .running ∧ pr.image = .manager m ∧
      m.threads t = some f ∧ f.next p w m.queue a = some o ∧ w.apply p pr m t o = some w' := by
  simp only [step] at hs
  split at hs
  · cases hs
  · next pr hpr =>
    split at hs
    · next m hrun himg =>
      split at hs
      · cases hs
      · next f hf =>
        obtain ⟨o, ho, hs⟩ := Option.bind_eq_some_iff.mp hs
        exact ⟨pr, m, f, o, hpr, hrun, himg, hf, ho, hs⟩
    · cases hs

/-- 死ぬのは動いている process である。 -/
theorem step_die {w w' : World} {p : Nat} (hs : w.step (.die p) = some w') :
    ∃ pr, w.procs p = some pr ∧ pr.state = .running ∧
      w' = { w with procs := Function.update w.procs p (some pr.ended) } := by
  simp only [step] at hs
  split at hs
  · cases hs
  · next pr hpr =>
    split at hs
    · next hrun => exact ⟨pr, hpr, hrun, (Option.some.inj hs).symm⟩
    · cases hs

end World

/-- 起動したばかりの manager。 -/
def Memory.boot : Memory where
  queue := []
  threads
    | .queue => some ⟨.queueIdle, .none⟩
    | .http => some ⟨.httpIdle, .none⟩
    | .monitor => some ⟨.monIdle, .none⟩

/-- `root` が manager で、ほかは manager と関わりの無い process である。 -/
def World.boot (root : Nat) (store : Store) (others : Nat → Option ProcState) : World where
  store := store
  procs := fun p =>
    if p = root then some { parent := none, state := .running, image := .manager .boot }
    else (others p).map fun st => { parent := none, state := st, image := .other }
  nextId := 0
  forked := []
  writers := []

end RecordServer.App.Fork
