import RecordServer.App.Properties.ManagerOnly
import RecordServer.App.Properties.StoreUnique

/-!
# `execl` が失敗しない run は `ProcessManager` の run である

`Fork` は process ごとに memory を持ち、`ProcessManager` は manager 一つの状態だけを持つ。
`execl` に失敗する子が無ければ、manager の memory と process 表を読み替えた状態が
`ProcessManager` の遷移系で同じように進む。子の `execl` と handler の出入りには一歩も要らない。

* `Pc.queuePc`、`Pc.httpPc`、`Pc.monPc`、`SigPc.sigPc` — 位置の読み替え
* `Mirrors` — collection・process 表・manager の memory の対応
* `Effect` — thread の一歩の結果が `ProcessManager` の状態に及ぼすもの
* `queue_mirrored`、`http_mirrored`、`monitor_mirrored`、`sig_mirrored` — thread ごとの一歩
* `mirrors_run` — run についての結論
* `store_nodup_of_run` — `ProcessManager` の不変量は `Fork` の run にも移る
-/

namespace RecordServer.App.Fork

open Infra

/-! ## 位置の読み替え -/

/-- queue thread の位置。`execl` の前の子と、ほかの thread には無い。 -/
def Pc.queuePc : Pc → Option QueuePc
  | .queueIdle => some .idle
  | .queueCheck e => some (.check e.info)
  | .queueCreate e => some (.create e.info)
  | .queueFork e f => some (.fork e.info f)
  | .queueInsert e => some (.insert e.info)
  | _ => none

/-- HTTP thread の位置。 -/
def Pc.httpPc : Pc → Option HttpPc
  | .httpIdle => some .idle
  | .httpRemove p => some (.remove p)
  | .httpKill p => some (.kill p)
  | _ => none

/-- monitor thread の位置。 -/
def Pc.monPc : Pc → Option MonPc
  | .monIdle => some .idle
  | .monCheck rest => some (.check rest)
  | .monLookup pid rest => some (.lookup pid rest)
  | .monFork i rest => some (.fork i rest)
  | .monUpdate i rest => some (.update i rest)
  | _ => none

/-- handler の位置。`waitpid` を呼ぶ前は、割り込まれていないのと同じに見る。 -/
def SigPc.sigPc : SigPc → Option App.SigPc
  | .none | .wait => some .idle
  | .lookup pid => some (.lookup pid)
  | .fork i => some (.fork i)
  | .update i => some (.update i)
  | .exec _ => Option.none

/-! ## 状態の対応 -/

/-- process 表の行のうち、`ProcessManager` の行と比べる部分。 -/
def Process.row (root : Nat) (pr : Process) : Bool × ProcState := (pr.parent == some root, pr.state)

/-- `ProcessManager` の process 表の行のうち、比べる部分。 -/
def row (pr : Proc) : Bool × ProcState := (pr.child, pr.state)

/-- thread の位置の対応。死んだ子を扱っている handler は高々一つである。 -/
structure MirrorsThreads (fr : Thread → Frame) (s : State) : Prop where
  queue : (fr .queue).pc.queuePc = some s.qpc
  http : (fr .http).pc.httpPc = some s.hpc
  monitor : (fr .monitor).pc.monPc = some s.mpc
  sig : ∃ t, ∀ u, (fr u).sig.sigPc = some (if u = t then s.spc else .idle)

/-- `root` を manager とする全体と `ProcessManager` の状態の対応。 -/
structure Mirrors (root : Nat) (w : World) (s : State) : Prop where
  self : s.self = root
  store : s.store = w.store
  rows : ∀ p, (s.procs p).map row = (w.procs p).map (Process.row root)
  memory : ∃ pr m fr, w.procs root = some pr ∧ pr.parent = none ∧ pr.image = .manager m ∧
    m.threads = (fun t => some (fr t)) ∧ s.queue = m.queue.map Ticket.info ∧ MirrorsThreads fr s

section Rows

variable {root : Nat} {w : World} {s : State}

theorem Mirrors.procs_none (h : Mirrors root w s) {c : Nat} (hc : w.procs c = none) :
    s.procs c = none := by
  simpa [hc] using h.rows c

/-- 行があれば、`ProcessManager` にも親と生死が同じ行がある。 -/
theorem Mirrors.procs_some (h : Mirrors root w s) {c : Nat} {pr : Process}
    (hc : w.procs c = some pr) :
    ∃ pr', s.procs c = some pr' ∧ pr'.child = (pr.parent == some root) ∧ pr'.state = pr.state := by
  have hrow := h.rows c
  rw [hc, Option.map_some, Option.map_eq_some_iff] at hrow
  obtain ⟨pr', hpr', hrow⟩ := hrow
  exact ⟨pr', hpr', congrArg Prod.fst hrow, congrArg Prod.snd hrow⟩

/-- `kill(pid, 0)` の答えは同じである。 -/
theorem Mirrors.exists_eq (h : Mirrors root w s) (p : Nat) :
    checkSystemProcessExist s.procs p = exists? w.procs p := by
  unfold checkSystemProcessExist exists?
  cases hp : w.procs p with
  | none => rw [h.procs_none hp]
  | some pr =>
    obtain ⟨pr', hpr', -, hst⟩ := h.procs_some hp
    simp only [hpr', hst]

end Rows

/-! ## 一歩の結果 -/

/-- 一歩の後の位置。`execl` に成功した process には無い。 -/
def Outcome.position {α : Type} : Outcome α → Option α
  | .goto a | .enqueue _ a | .pop a | .write _ _ a | .fork _ _ a _ | .reap _ a => some a
  | .image => none

/-- 結果が `ProcessManager` の collection・queue・process 表に及ぼすもの。 -/
inductive Effect {α : Type} (s s' : State) : Outcome α → Prop where
  | goto (a : α) (hstore : s'.store = s.store) (hqueue : s'.queue = s.queue)
    (hprocs : s'.procs = s.procs) : Effect s s' (.goto a)
  | enqueue (info : ProcessInfo) (a : α) (hstore : s'.store = s.store)
    (hqueue : s'.queue = s.queue ++ [info]) (hprocs : s'.procs = s.procs) :
    Effect s s' (.enqueue info a)
  | pop (a : α) (hstore : s'.store = s.store) (hqueue : s'.queue = s.queue.tail)
    (hprocs : s'.procs = s.procs) : Effect s s' (.pop a)
  | write (c : Store) (popped : Bool) (a : α) (hstore : s'.store = c)
    (hqueue : s'.queue = if popped then s.queue.tail else s.queue) (hprocs : s'.procs = s.procs) :
    Effect s s' (.write c popped a)
  | fork (c : Nat) (id : Option Nat) (a b : α) (sid : CString) (hstore : s'.store = s.store)
    (hqueue : s'.queue = s.queue) (hprocs : s'.procs = forkProc s.procs c sid) :
    Effect s s' (.fork c id a b)
  | reap (c : Nat) (a : α) (pr : Proc) (hpr : s.procs c = some pr) (hz : pr.state = .zombie)
    (hstore : s'.store = s.store) (hqueue : s'.queue = s.queue)
    (hprocs : s'.procs = Function.update s.procs c (some { pr with state := .gone })) :
    Effect s s' (.reap c a)

/-- 位置の型を替えても同じである。 -/
theorem Effect.map {α β : Type} {s s' : State} {o : Outcome α} (h : Effect s s' o) (f : α → β) :
    Effect s s' (o.map f) := by
  cases h with
  | goto a h₁ h₂ h₃ => exact .goto _ h₁ h₂ h₃
  | enqueue i a h₁ h₂ h₃ => exact .enqueue _ _ h₁ h₂ h₃
  | pop a h₁ h₂ h₃ => exact .pop _ h₁ h₂ h₃
  | write c b a h₁ h₂ h₃ => exact .write _ _ _ h₁ h₂ h₃
  | fork c i a b sid h₁ h₂ h₃ => exact .fork _ _ _ _ sid h₁ h₂ h₃
  | reap c a pr hpr hz h₁ h₂ h₃ => exact .reap _ _ pr hpr hz h₁ h₂ h₃

theorem Outcome.position_map {α β : Type} (o : Outcome α) (f : α → β) :
    (o.map f).position = o.position.map f := by
  cases o <;> rfl

/-- `ProcessManager` の run が、結果 `o` の通りに `s` を `s'` に移す。 -/
structure Follows {α : Type} (s s' : State) (o : Outcome α) : Prop where
  run : ∃ bs, Infra.run App.step s bs = some s'
  self : s'.self = s.self
  effect : Effect s s' o

theorem Follows.of_step {α : Type} {s s' : State} {o : Outcome α} {b : App.Act}
    (hs : App.step s b = some s') (hself : s'.self = s.self) (heff : Effect s s' o) :
    Follows s s' o :=
  ⟨⟨[b], (run_cons_eq_some App.step).mpr ⟨s', hs, rfl⟩⟩, hself, heff⟩

theorem Follows.map {α β : Type} {s s' : State} {o : Outcome α} (h : Follows s s' o)
    (f : α → β) : Follows s s' (o.map f) :=
  ⟨h.run, h.self, h.effect.map f⟩

/-- `ProcessManager` からは見えない一歩。 -/
theorem Follows.refl {α : Type} (s : State) (a : α) : Follows s s (.goto a) :=
  ⟨⟨[], rfl⟩, rfl, .goto a rfl rfl rfl⟩

/-! ## thread の一歩 -/

section Moves

variable {root : Nat} {w : World} {s : State} {queue : List Ticket} {a : Act}

/-- **queue thread の一歩に `ProcessManager` が応じる。** -/
theorem queue_mirrored (h : Mirrors root w s) (hqueue : s.queue = queue.map Ticket.info) {pc : Pc}
    {o : Outcome Pc} (hpc : pc.queuePc = some s.qpc)
    (hfresh : ∀ c, a = .fork (some c) → w.procs c = none)
    (ho : pc.next root w queue a = some o) :
    ∃ s' p, Follows s s' o ∧ o.position = some p ∧ p.queuePc = some s'.qpc ∧
      s'.hpc = s.hpc ∧ s'.mpc = s.mpc ∧ s'.spc = s.spc := by
  cases pc <;> simp only [Pc.queuePc, reduceCtorEq, Option.some.injEq] at hpc <;> cases a <;>
    simp only [Pc.next, reduceCtorEq] at ho
  case queueIdle.next =>
    obtain ⟨e, he, rfl⟩ := Option.map_eq_some_iff.mp ho
    obtain ⟨rest, rfl⟩ : ∃ rest, queue = e :: rest := List.head?_eq_some_iff.mp he
    rw [List.map_cons] at hqueue
    exact ⟨{ s with qpc := .check e.info }, _,
      .of_step (b := .queueTake) (by simp [App.step, ← hpc, hqueue]) rfl (.goto _ rfl rfl rfl),
      rfl, rfl, rfl, rfl, rfl⟩
  case queueCheck.next e =>
    rw [← h.store] at ho
    split at ho <;> cases ho
    · next hex =>
      exact ⟨s.pop, _, .of_step (b := .queueCheck) (by simp [App.step, ← hpc, hex]) rfl
        (.pop _ rfl rfl rfl), rfl, rfl, rfl, rfl, rfl⟩
    · next hex =>
      exact ⟨{ s with qpc := .create e.info }, _,
        .of_step (b := .queueCheck) (by simp [App.step, ← hpc, hex]) rfl (.goto _ rfl rfl rfl),
        rfl, rfl, rfl, rfl, rfl⟩
  case queueCreate.create e file =>
    cases file with
    | none =>
      cases ho
      exact ⟨s.pop, _, .of_step (b := .queueCreate none) (by simp [App.step, ← hpc]) rfl
        (.pop _ rfl rfl rfl), rfl, rfl, rfl, rfl, rfl⟩
    | some f =>
      cases ho
      exact ⟨{ s with qpc := .fork e.info f }, _,
        .of_step (b := .queueCreate (some f)) (by simp [App.step, ← hpc]) rfl
          (.goto _ rfl rfl rfl), rfl, rfl, rfl, rfl, rfl⟩
  case queueFork.fork e f child =>
    cases child with
    | none =>
      cases ho
      exact ⟨s.pop, _, .of_step (b := .queueFork none) (by simp [App.step, ← hpc]) rfl
        (.pop _ rfl rfl rfl), rfl, rfl, rfl, rfl, rfl⟩
    | some c =>
      cases ho
      have hc := h.procs_none (hfresh c rfl)
      exact ⟨{ s with
          procs := forkProc s.procs c e.info.sid
          qpc := .insert { e.info with pid := c, m3u8Path := f } }, _,
        .of_step (b := .queueFork (some c)) (by simp [App.step, ← hpc, hc]) rfl
          (.fork _ _ _ _ e.info.sid rfl rfl rfl), rfl, rfl, rfl, rfl, rfl⟩
  case queueInsert.next e =>
    cases ho
    exact ⟨{ s.pop with store := addProcessToCache s.self s.store e.info }, _,
      .of_step (b := .queueInsert) (by simp [App.step, ← hpc]) rfl
        (.write _ _ _ (by rw [h.self, h.store]) rfl rfl), rfl, rfl, rfl, rfl, rfl⟩

/-- **HTTP thread の一歩に `ProcessManager` が応じる。** -/
theorem http_mirrored (h : Mirrors root w s) {pc : Pc} {o : Outcome Pc}
    (hpc : pc.httpPc = some s.hpc) (ho : pc.next root w queue a = some o) :
    ∃ s' p, Follows s s' o ∧ o.position = some p ∧ p.httpPc = some s'.hpc ∧
      s'.qpc = s.qpc ∧ s'.mpc = s.mpc ∧ s'.spc = s.spc := by
  cases pc <;> simp only [Pc.httpPc, reduceCtorEq, Option.some.injEq] at hpc <;> cases a <;>
    simp only [Pc.next, reduceCtorEq] at ho
  case httpIdle.start info =>
    cases ho
    exact ⟨{ s with
        queue := s.queue ++ [info]
        replies := s.replies ++ [(.start info.sid, .success)] }, _,
      .of_step (b := .start info) (by simp [App.step, ← hpc, putData, startReply]) rfl
        (.enqueue _ _ rfl rfl rfl), rfl, hpc ▸ rfl, rfl, rfl, rfl⟩
  case httpIdle.stop sid =>
    rw [← h.store] at ho
    split at ho <;> cases ho
    · next hget =>
      exact ⟨{ s with replies := s.replies ++ [(.stop sid, stopReply .streamNotExist)] }, _,
        .of_step (b := .stop sid) (by simp [App.step, ← hpc, hget]) rfl (.goto _ rfl rfl rfl),
        rfl, hpc ▸ rfl, rfl, rfl, rfl⟩
    · next p hget =>
      exact ⟨{ s with hpc := .remove p, killed := p.pid :: s.killed }, _,
        .of_step (b := .stop sid) (by simp [App.step, ← hpc, hget]) rfl (.goto _ rfl rfl rfl),
        rfl, rfl, rfl, rfl, rfl⟩
  case httpRemove.next p =>
    cases ho
    exact ⟨{ s with store := removeProcessByStream s.store p.sid, hpc := .kill p }, _,
      .of_step (b := .killRemove) (by simp [App.step, ← hpc]) rfl
        (.write _ _ _ (by rw [h.store]) rfl rfl), rfl, rfl, rfl, rfl, rfl⟩
  case httpKill.next p =>
    cases ho
    exact ⟨{ s with
        hpc := .idle
        replies := s.replies ++ [(.stop p.sid, stopReply .ok)] }, _,
      .of_step (b := .killSignal) (by simp [App.step, ← hpc]) rfl (.goto _ rfl rfl rfl),
      rfl, rfl, rfl, rfl, rfl⟩

/-- **monitor thread の一歩に `ProcessManager` が応じる。** -/
theorem monitor_mirrored (h : Mirrors root w s) {pc : Pc} {o : Outcome Pc}
    (hpc : pc.monPc = some s.mpc) (hfresh : ∀ c, a = .fork (some c) → w.procs c = none)
    (ho : pc.next root w queue a = some o) :
    ∃ s' p, Follows s s' o ∧ o.position = some p ∧ p.monPc = some s'.mpc ∧
      s'.qpc = s.qpc ∧ s'.hpc = s.hpc ∧ s'.spc = s.spc := by
  cases pc <;> simp only [Pc.monPc, reduceCtorEq, Option.some.injEq] at hpc <;> cases a <;>
    simp only [Pc.next, reduceCtorEq] at ho
  case monIdle.next =>
    cases ho
    exact ⟨{ s with mpc := .check (findOrphanProcess s.self s.store) }, _,
      .of_step (b := .monScan) (by simp [App.step, ← hpc]) rfl (.goto _ rfl rfl rfl),
      rfl, by rw [Pc.monPc, h.self, h.store], rfl, rfl, rfl⟩
  case monCheck.next rest =>
    cases rest with
    | nil =>
      cases ho
      exact ⟨{ s with mpc := .idle }, _,
        .of_step (b := .monCheck) (by simp [App.step, ← hpc]) rfl (.goto _ rfl rfl rfl),
        rfl, rfl, rfl, rfl, rfl⟩
    | cons i rest =>
      simp only [← h.exists_eq] at ho
      split at ho <;> cases ho
      · next hex =>
        exact ⟨{ s with mpc := .check rest }, _,
          .of_step (b := .monCheck) (by simp [App.step, ← hpc, hex]) rfl (.goto _ rfl rfl rfl),
          rfl, rfl, rfl, rfl, rfl⟩
      · next hex =>
        exact ⟨{ s with mpc := .lookup i.pid rest }, _,
          .of_step (b := .monCheck) (by simp [App.step, ← hpc, hex]) rfl (.goto _ rfl rfl rfl),
          rfl, rfl, rfl, rfl, rfl⟩
  case monLookup.next pid rest =>
    rw [← h.store] at ho
    split at ho <;> cases ho
    · next hget =>
      exact ⟨{ s with mpc := .check rest }, _,
        .of_step (b := .monLookup) (by simp [App.step, ← hpc, hget]) rfl (.goto _ rfl rfl rfl),
        rfl, rfl, rfl, rfl, rfl⟩
    · next info hget =>
      exact ⟨{ s with mpc := .fork info rest }, _,
        .of_step (b := .monLookup) (by simp [App.step, ← hpc, hget]) rfl (.goto _ rfl rfl rfl),
        rfl, rfl, rfl, rfl, rfl⟩
  case monFork.fork info rest child =>
    cases child with
    | none =>
      cases ho
      exact ⟨{ s with mpc := .check rest }, _,
        .of_step (b := .monFork none) (by simp [App.step, ← hpc]) rfl (.goto _ rfl rfl rfl),
        rfl, rfl, rfl, rfl, rfl⟩
    | some c =>
      cases ho
      have hc := h.procs_none (hfresh c rfl)
      exact ⟨{ s with
          procs := forkProc s.procs c info.sid
          mpc := .update { info with pid := c } rest }, _,
        .of_step (b := .monFork (some c)) (by simp [App.step, ← hpc, hc]) rfl
          (.fork _ _ _ _ info.sid rfl rfl rfl), rfl, rfl, rfl, rfl, rfl⟩
  case monUpdate.next info rest =>
    cases ho
    exact ⟨{ s with store := updateProcessInfo s.store info, mpc := .check rest }, _,
      .of_step (b := .monUpdate) (by simp [App.step, ← hpc]) rfl
        (.write _ _ _ (by rw [h.store]) rfl rfl), rfl, rfl, rfl, rfl, rfl⟩

theorem zombieChild_eq_true {self c : Nat} :
    zombieChild w self c = true ↔
      ∃ pr, w.procs c = some pr ∧ pr.parent = some self ∧ pr.state = .zombie := by
  unfold zombieChild
  cases w.procs c <;> simp

/-- **死んだ子を扱う handler の一歩に `ProcessManager` が応じる。** -/
theorem sig_mirrored (h : Mirrors root w s) {g : SigPc} {o : Outcome SigPc}
    (hsig : g.sigPc = some s.spc) (hfresh : ∀ c, a = .fork (some c) → w.procs c = none)
    (ho : g.next root w a = some o) :
    ∃ s' g', Follows s s' o ∧ o.position = some g' ∧ g'.sigPc = some s'.spc ∧
      s'.qpc = s.qpc ∧ s'.hpc = s.hpc ∧ s'.mpc = s.mpc := by
  cases g <;> simp only [SigPc.sigPc, reduceCtorEq, Option.some.injEq] at hsig <;> cases a <;>
    simp only [SigPc.next, reduceCtorEq] at ho
  case none.sigEnter c =>
    split at ho <;> cases ho
    exact ⟨s, _, .refl s _, rfl, by rw [← hsig]; rfl, rfl, rfl, rfl⟩
  case wait.sigReap c =>
    split at ho <;> cases ho
    next hz =>
    obtain ⟨pr, hpr, hpar, hst⟩ := zombieChild_eq_true.mp hz
    obtain ⟨pr', hpr', hchild, hst'⟩ := h.procs_some hpr
    rw [hpar, beq_self_eq_true] at hchild
    rw [hst] at hst'
    exact ⟨{ s with
        procs := Function.update s.procs c (some { pr' with state := .gone })
        spc := .lookup c }, _,
      .of_step (b := .sigReap c) (by simp [App.step, ← hsig, hpr', hchild, hst']) rfl
        (.reap _ _ pr' hpr' hst' rfl rfl rfl), rfl, rfl, rfl, rfl, rfl⟩
  case wait.sigReturn =>
    cases ho
    exact ⟨s, _, .refl s _, rfl, by rw [← hsig]; rfl, rfl, rfl, rfl⟩
  case lookup.next pid =>
    rw [← h.store] at ho
    split at ho <;> cases ho
    · next hget =>
      exact ⟨{ s with spc := .idle }, _,
        .of_step (b := .sigLookup) (by simp [App.step, ← hsig, hget]) rfl (.goto _ rfl rfl rfl),
        rfl, rfl, rfl, rfl, rfl⟩
    · next info hget =>
      exact ⟨{ s with spc := .fork info }, _,
        .of_step (b := .sigLookup) (by simp [App.step, ← hsig, hget]) rfl (.goto _ rfl rfl rfl),
        rfl, rfl, rfl, rfl, rfl⟩
  case fork.fork info child =>
    cases child with
    | none =>
      cases ho
      exact ⟨{ s with spc := .idle }, _,
        .of_step (b := .sigFork none) (by simp [App.step, ← hsig]) rfl (.goto _ rfl rfl rfl),
        rfl, rfl, rfl, rfl, rfl⟩
    | some c =>
      cases ho
      have hc := h.procs_none (hfresh c rfl)
      exact ⟨{ s with
          procs := forkProc s.procs c info.sid
          spc := .update { info with pid := c } }, _,
        .of_step (b := .sigFork (some c)) (by simp [App.step, ← hsig, hc]) rfl
          (.fork _ _ _ _ info.sid rfl rfl rfl), rfl, rfl, rfl, rfl, rfl⟩
  case update.next info =>
    cases ho
    exact ⟨{ s with store := updateProcessInfo s.store info, spc := .idle }, _,
      .of_step (b := .sigUpdate) (by simp [App.step, ← hsig]) rfl
        (.write _ _ _ (by rw [h.store]) rfl rfl), rfl, rfl, rfl, rfl, rfl⟩

/-- handler の出入りは `ProcessManager` からは見えない。 -/
theorem SigPc.next_idle {g : SigPc} {o : Outcome SigPc} (hsig : g.sigPc = some .idle)
    (hreap : ∀ c, a ≠ .sigReap c) (ho : g.next root w a = some o) :
    ∃ g' : SigPc, o = .goto g' ∧ g'.sigPc = some .idle := by
  cases g <;> simp only [SigPc.sigPc, reduceCtorEq, Option.some.injEq] at hsig <;> cases a <;>
    simp only [SigPc.next, reduceCtorEq] at ho
  case none.sigEnter c =>
    split at ho <;> cases ho
    exact ⟨.wait, rfl, rfl⟩
  case wait.sigReap c => exact absurd rfl (hreap c)
  case wait.sigReturn =>
    cases ho
    exact ⟨.none, rfl, rfl⟩

end Moves

/-! ## 全体への反映 -/

section Apply

variable {root : Nat} {w w' : World} {s s' : State}

theorem row_setMemory {pr : Process} (hpr : w.procs root = some pr) (m : Memory) (p : Nat) :
    ((w.setMemory root pr m).procs p).map (Process.row root) =
      (w.procs p).map (Process.row root) := by
  by_cases hp : p = root
  · subst hp
    simp [World.setMemory, hpr, Process.row]
  · simp [World.setMemory, hp]

/-- manager の memory が変わったとき。 -/
theorem Mirrors.setMemory (h : Mirrors root w s) {pr : Process} {m : Memory} {fr : Thread → Frame}
    (hpr : w.procs root = some pr) (hpar : pr.parent = none)
    (hm : m.threads = fun t => some (fr t)) (hthreads : MirrorsThreads fr s')
    (hself : s'.self = s.self) (hstore : s'.store = w'.store)
    (hqueue : s'.queue = m.queue.map Ticket.info) (hprocs : s'.procs = s.procs)
    (hprocs' : w'.procs = (w.setMemory root pr m).procs) : Mirrors root w' s' where
  self := hself.trans h.self
  store := hstore
  rows p := by rw [hprocs, hprocs', row_setMemory hpr]; exact h.rows p
  memory :=
    ⟨{ pr with image := .manager m }, m, fr, by rw [hprocs']; simp [World.setMemory], hpar, rfl, hm,
      hqueue, hthreads⟩

/-- process 表の一行が変わったとき。manager の行なら、変わるのは生死だけである。 -/
theorem Mirrors.setRow (h : Mirrors root w s) {c : Nat} {pr' : Process} {r : Proc}
    (hrow : row r = pr'.row root)
    (hroot : c = root → ∃ pr, w.procs root = some pr ∧ pr'.parent = pr.parent ∧
      pr'.image = pr.image)
    (hstore : w'.store = w.store) (hprocs : w'.procs = Function.update w.procs c (some pr'))
    (hs' : s' = { s with procs := Function.update s.procs c (some r) }) : Mirrors root w' s' := by
  subst hs'
  obtain ⟨pr, m, fr, hpr, hpar, himg, hm, hqueue, hthreads⟩ := h.memory
  have hmirror : MirrorsThreads fr { s with procs := Function.update s.procs c (some r) } :=
    ⟨hthreads.queue, hthreads.http, hthreads.monitor, hthreads.sig⟩
  refine ⟨h.self, h.store.trans hstore.symm, fun p => ?_, ?_⟩
  · rw [hprocs]
    by_cases hp : p = c
    · subst hp
      simpa using hrow
    · simpa [hp] using h.rows p
  · by_cases hc : c = root
    · subst hc
      obtain ⟨pr₀, hpr₀, hpar', himg'⟩ := hroot rfl
      obtain rfl := Option.some.inj (hpr.symm.trans hpr₀)
      exact ⟨pr', m, fr, by rw [hprocs, Function.update_self], hpar'.trans hpar,
        himg'.trans himg, hm, hqueue, hmirror⟩
    · exact ⟨pr, m, fr, by rw [hprocs, Function.update_of_ne (Ne.symm hc), hpr], hpar, himg,
        hm, hqueue, hmirror⟩

/-- **結果を全体に及ぼした後も、`ProcessManager` の状態と対応する。** -/
theorem Mirrors.apply (h : Mirrors root w s) {pr : Process} {m : Memory} {fr : Thread → Frame}
    {t : Thread} {f : Frame} {o : Outcome Frame} (hpr : w.procs root = some pr)
    (hrun : pr.state = .running) (hpar : pr.parent = none)
    (hfr : m.threads = fun t => some (fr t)) (hqueue : s.queue = m.queue.map Ticket.info)
    (hf : Follows s s' o) (hpos : o.position = some f)
    (hthreads : MirrorsThreads (Function.update fr t f) s')
    (hs : w.apply root pr m t o = some w') : Mirrors root w' s' := by
  have hset : ∀ q : List Ticket, (Memory.setThread ⟨q, m.threads⟩ t f).threads =
      fun u => some (Function.update fr t f u) := by
    intro q
    funext u
    by_cases hu : u = t <;> simp [Memory.setThread, hfr, hu]
  obtain ⟨-, hself, heff⟩ := hf
  -- process 表の行を足したり直したりする前の対応
  have hmem (hstore : s'.store = s.store) (hqueue' : s'.queue = s.queue) :
      Mirrors root (w.setMemory root pr (m.setThread t f)) { s' with procs := s.procs } :=
    h.setMemory hpr hpar (hset m.queue)
      ⟨hthreads.queue, hthreads.http, hthreads.monitor, hthreads.sig⟩ hself
      (hstore.trans h.store) (hqueue'.trans hqueue) rfl rfl
  cases heff with
  | goto a hstore hqueue' hprocs =>
    cases hpos
    cases hs
    exact h.setMemory hpr hpar (hset m.queue) hthreads hself (hstore.trans h.store)
      (hqueue'.trans hqueue) hprocs rfl
  | enqueue info a hstore hqueue' hprocs =>
    cases hpos
    cases hs
    exact h.setMemory hpr hpar (hset _) hthreads hself (hstore.trans h.store)
      (by rw [hqueue', hqueue]; simp [Memory.setThread]) hprocs rfl
  | pop a hstore hqueue' hprocs =>
    cases hpos
    cases hs
    exact h.setMemory hpr hpar (hset _) hthreads hself (hstore.trans h.store)
      (by rw [hqueue', hqueue]; simp [Memory.setThread]) hprocs rfl
  | write c popped a hstore hqueue' hprocs =>
    cases hpos
    cases hs
    cases popped
    · exact h.setMemory hpr hpar (hset m.queue) hthreads hself hstore (hqueue'.trans hqueue)
        hprocs rfl
    · exact h.setMemory hpr hpar (hset _) hthreads hself hstore
        (by rw [hqueue', hqueue]; simp [Memory.setThread]) hprocs rfl
  | fork c id a b sid hstore hqueue' hprocs =>
    cases hpos
    simp only [World.apply] at hs
    split at hs
    · cases hs
    · next hfree =>
      cases hs
      have hc : c ≠ root := ne_of_not_exists? hpr hrun hfree
      refine (hmem hstore hqueue').setRow (r := ⟨some sid, true, .running⟩) ?_
        (fun hc' => absurd hc' hc) rfl rfl ?_
      · simp [row, Process.row]
      · change s' = { s' with procs := forkProc s.procs c sid }
        rw [← hprocs]
  | reap c a r hr hz hstore hqueue' hprocs =>
    cases hpos
    cases hs
    obtain ⟨q, hq, hrow⟩ : ∃ q, w.procs c = some q ∧ row r = Process.row root q := by
      have hrows := h.rows c
      rw [hr, Option.map_some, eq_comm, Option.map_eq_some_iff] at hrows
      obtain ⟨q, hq, hrow⟩ := hrows
      exact ⟨q, hq, hrow.symm⟩
    have hc : c ≠ root := by
      rintro rfl
      obtain rfl := Option.some.inj (hpr.symm.trans hq)
      exact absurd (hz.symm.trans ((congrArg Prod.snd hrow).trans hrun)) (by decide)
    have hrow' : row { r with state := .gone } = Process.row root { q with state := .gone } := by
      simpa [row, Process.row] using congrArg Prod.fst hrow
    refine (hmem hstore hqueue').setRow hrow' (fun hc' => absurd hc' hc) rfl ?_ ?_
    · simp [hq]
    · change s' = { s' with procs := Function.update s.procs c (some { r with state := .gone }) }
      rw [← hprocs]

end Apply

/-! ## run -/

/-- `fork` は使われたことの無い pid を返す。 -/
def FreshChild (w : World) : Label → Prop
  | .thread _ _ (.fork (some c)) => w.procs c = none
  | _ => True

/-- `waitpid` が死んだ子を返すとき、manager のほかの thread の handler は死んだ子を扱っていない。 -/
def OneReaper (root : Nat) (w : World) : Label → Prop
  | .thread _ t (.sigReap _) => ∀ pr m u f, w.procs root = some pr → pr.image = .manager m →
      u ≠ t → m.threads u = some f → f.sig = .none ∨ f.sig = .wait
  | _ => True

/-- `ProcessManager` が想定する一歩。 -/
def Comparable (root : Nat) (w : World) (l : Label) : Prop :=
  ExecSucceeds w l ∧ FreshChild w l ∧ OneReaper root w l

section Run

variable {root : Nat} {w w' : World} {s s' : State}

/-- 動いた thread のほかは元の位置にいる。 -/
theorem MirrorsThreads.setPc {fr : Thread → Frame} (h : MirrorsThreads fr s) {t : Thread} {pc : Pc}
    (hqueue : (if t = .queue then pc else (fr .queue).pc).queuePc = some s'.qpc)
    (hhttp : (if t = .http then pc else (fr .http).pc).httpPc = some s'.hpc)
    (hmon : (if t = .monitor then pc else (fr .monitor).pc).monPc = some s'.mpc)
    (hspc : s'.spc = s.spc) :
    MirrorsThreads (Function.update fr t { fr t with pc := pc }) s' := by
  obtain ⟨v, hv⟩ := h.sig
  refine ⟨?_, ?_, ?_, v, fun u => ?_⟩
  · cases t <;> simpa using hqueue
  · cases t <;> simpa using hhttp
  · cases t <;> simpa using hmon
  · rw [hspc, ← hv u]
    by_cases hu : u = t
    · subst hu
      simp
    · simp [hu]

/-- handler が動いた thread のほかは元の位置にいる。 -/
theorem MirrorsThreads.setSig {fr : Thread → Frame} (h : MirrorsThreads fr s) {t : Thread}
    {g : SigPc} (hq : s'.qpc = s.qpc) (hh : s'.hpc = s.hpc) (hm : s'.mpc = s.mpc)
    (hsig : ∃ v, ∀ u, (if u = t then g else (fr u).sig).sigPc =
      some (if u = v then s'.spc else .idle)) :
    MirrorsThreads (Function.update fr t { fr t with sig := g }) s' := by
  have hpc : ∀ u, (Function.update fr t { fr t with sig := g } u).pc = (fr u).pc := by
    intro u
    by_cases hu : u = t
    · subst hu
      simp
    · simp [hu]
  obtain ⟨v, hv⟩ := hsig
  refine ⟨?_, ?_, ?_, v, fun u => ?_⟩
  · rw [hpc, hq, h.queue]
  · rw [hpc, hh, h.http]
  · rw [hpc, hm, h.monitor]
  · rw [← hv u]
    by_cases hu : u = t
    · subst hu
      simp
    · simp [hu]

/-- handler の一歩。死んだ子を扱っている handler でなければ、出入りのほかは無い。 -/
theorem sig_step (h : Mirrors root w s) {fr : Thread → Frame} (hth : MirrorsThreads fr s)
    {t : Thread} {a : Act} {o : Outcome SigPc}
    (hfresh : ∀ c, a = .fork (some c) → w.procs c = none)
    (hone : ∀ c, a = .sigReap c → ∀ u, u ≠ t → (fr u).sig = .none ∨ (fr u).sig = .wait)
    (ho : (fr t).sig.next root w a = some o) :
    ∃ s' g, Follows s s' o ∧ o.position = some g ∧
      MirrorsThreads (Function.update fr t { fr t with sig := g }) s' := by
  obtain ⟨v, hv⟩ := hth.sig
  by_cases hown : (fr t).sig.sigPc = some s.spc
  · obtain ⟨s', g, hf, hpos, hg, hq, hh, hm⟩ := sig_mirrored h hown hfresh ho
    refine ⟨s', g, hf, hpos, hth.setSig hq hh hm ⟨t, fun u => ?_⟩⟩
    by_cases hu : u = t
    · simp [hu, hg]
    · simp only [hu, if_false]
      by_cases huv : u = v
      · -- 扱っている thread が別にあるなら、`t` の位置が idle だから誰も扱っていない
        have ht := hv t
        rw [hown, if_neg (fun htv => hu (huv.trans htv.symm))] at ht
        rw [hv u, if_pos huv, Option.some.inj ht]
      · rw [hv u, if_neg huv]
  · have htv : t ≠ v := by
      rintro rfl
      exact hown (by simpa using hv t)
    have hidle : (fr t).sig.sigPc = some .idle := by rw [hv t, if_neg htv]
    have hreap : ∀ c, a ≠ .sigReap c := by
      intro c hc
      have hspc := hv v
      rw [if_pos rfl] at hspc
      rcases hone c hc v htv.symm with hw | hw <;> rw [hw] at hspc <;>
        exact hown (hidle.trans hspc)
    obtain ⟨g, rfl, hg⟩ := SigPc.next_idle hidle hreap ho
    refine ⟨s, g, .refl s g, rfl, hth.setSig rfl rfl rfl ⟨v, fun u => ?_⟩⟩
    by_cases hu : u = t
    · simp [hu, hg, htv]
    · simp [hu, hv u]

/-- 元の位置の一歩。 -/
theorem pc_step (h : Mirrors root w s) {fr : Thread → Frame} (hth : MirrorsThreads fr s)
    {queue : List Ticket} (hqueue : s.queue = queue.map Ticket.info) {t : Thread} {a : Act}
    {o : Outcome Pc} (hfresh : ∀ c, a = .fork (some c) → w.procs c = none)
    (ho : (fr t).pc.next root w queue a = some o) :
    ∃ s' p, Follows s s' o ∧ o.position = some p ∧
      MirrorsThreads (Function.update fr t { fr t with pc := p }) s' := by
  cases t with
  | queue =>
    obtain ⟨s', p, hf, hpos, hp, hh, hm, hs⟩ := queue_mirrored h hqueue hth.queue hfresh ho
    refine ⟨s', p, hf, hpos, hth.setPc hp ?_ ?_ hs⟩
    · simpa [hh] using hth.http
    · simpa [hm] using hth.monitor
  | http =>
    obtain ⟨s', p, hf, hpos, hp, hq, hm, hs⟩ := http_mirrored h hth.http ho
    refine ⟨s', p, hf, hpos, hth.setPc ?_ hp ?_ hs⟩
    · simpa [hq] using hth.queue
    · simpa [hm] using hth.monitor
  | monitor =>
    obtain ⟨s', p, hf, hpos, hp, hq, hh, hs⟩ := monitor_mirrored h hth.monitor hfresh ho
    refine ⟨s', p, hf, hpos, hth.setPc ?_ ?_ hp hs⟩
    · simpa [hq] using hth.queue
    · simpa [hh] using hth.http

/-- **manager の thread の一歩に `ProcessManager` の run が応じる。** -/
theorem Mirrors.thread (h : Mirrors root w s) {t : Thread} {a : Act}
    (hfresh : FreshChild w (.thread root t a)) (hone : OneReaper root w (.thread root t a))
    (hs : w.step (.thread root t a) = some w') :
    ∃ bs s', Infra.run App.step s bs = some s' ∧ Mirrors root w' s' := by
  obtain ⟨pr, m, fr, hpr, hpar, himg, hfr, hqueue, hth⟩ := h.memory
  have hft : m.threads t = some (fr t) := by rw [hfr]
  have hfresh : ∀ c, a = .fork (some c) → w.procs c = none := by
    rintro c rfl
    exact hfresh
  have hone : ∀ c, a = .sigReap c → ∀ u, u ≠ t → (fr u).sig = .none ∨ (fr u).sig = .wait := by
    rintro c rfl u hu
    exact hone pr m u (fr u) hpr himg hu (by rw [hfr])
  obtain ⟨pr', m', f, o, hpr', hrun, himg', hf, ho, hs⟩ := World.step_thread hs
  obtain rfl := Option.some.inj (hpr.symm.trans hpr')
  obtain rfl := Image.manager.inj (himg.symm.trans himg')
  obtain rfl := Option.some.inj (hft.symm.trans hf)
  rcases Frame.next_cases ho with ⟨-, o', ho', rfl⟩ | ⟨o', ho', rfl⟩
  · obtain ⟨s', p, hfol, hpos, hth'⟩ := pc_step h hth hqueue hfresh ho'
    obtain ⟨bs, hbs⟩ := hfol.run
    refine ⟨bs, s', hbs, h.apply hpr hrun hpar hfr hqueue (hfol.map _) ?_ hth' hs⟩
    rw [Outcome.position_map, hpos, Option.map_some]
  · obtain ⟨s', g, hfol, hpos, hth'⟩ := sig_step h hth hfresh hone ho'
    obtain ⟨bs, hbs⟩ := hfol.run
    refine ⟨bs, s', hbs, h.apply hpr hrun hpar hfr hqueue (hfol.map _) ?_ hth' hs⟩
    rw [Outcome.position_map, hpos, Option.map_some]

/-- **process の死に `ProcessManager` が応じる。** -/
theorem Mirrors.die (h : Mirrors root w s) (ho : OnlyManager root w) {p : Nat}
    (hs : w.step (.die p) = some w') :
    ∃ bs s', Infra.run App.step s bs = some s' ∧ Mirrors root w' s' := by
  obtain ⟨pr, hpr, hrun, rfl⟩ := World.step_die hs
  obtain ⟨r, hr, hchild, hst⟩ := h.procs_some hpr
  have hrow : row (endProc r) = pr.ended.row root := by
    have hpar : pr.parent.isSome = (pr.parent == some root) := by
      cases hq : pr.parent with
      | none => rfl
      | some q => simp [ho.parent p pr q hpr hq]
    simp [row, Process.row, endProc, Process.ended, hchild, hpar]
  refine ⟨[.die p], _, (run_cons_eq_some App.step).mpr ⟨_, ?_, rfl⟩,
    h.setRow hrow ?_ rfl rfl rfl⟩
  · simp [App.step, hr, hst, hrun]
  · rintro rfl
    exact ⟨pr, hpr, rfl, rfl⟩

/-- 子の `execl` は `ProcessManager` からは見えない。 -/
theorem Mirrors.image (h : Mirrors root w s) {p : Nat} {pr : Process} (hp : p ≠ root)
    (hpr : w.procs p = some pr) :
    Mirrors root
      { w with procs := Function.update w.procs p (some { pr with image := .other }) } s := by
  obtain ⟨r, hr, -, -⟩ := h.procs_some hpr
  have hrow : row r = Process.row root { pr with image := .other } := by
    have hrows := h.rows p
    rw [hr, hpr] at hrows
    exact Option.some.inj hrows
  refine h.setRow hrow (fun hp' => absurd hp' hp) rfl rfl ?_
  rw [← hr, Function.update_eq_self]

/-- **`ProcessManager` が想定する一歩には、`ProcessManager` の run が応じる。** -/
theorem mirrors_step {l : Label} (hl : Comparable root w l) (hs : w.step l = some w')
    (ho : OnlyManager root w) (h : Mirrors root w s) :
    ∃ bs s', Infra.run App.step s bs = some s' ∧ Mirrors root w' s' := by
  obtain ⟨hex, hfresh, hone⟩ := hl
  cases l with
  | die p => exact h.die ho hs
  | thread p t a =>
    by_cases hp : p = root
    · subst hp
      exact h.thread hfresh hone hs
    · obtain ⟨-, pr, hpr, rfl⟩ := ho.child_step hp hex hs
      exact ⟨[], s, rfl, h.image hp hpr⟩

/-- 起動したばかりの manager は、起動したばかりの `ProcessManager` に当たる。 -/
theorem mirrors_boot {store : Store} {others : Nat → Option ProcState} {procs : Procs}
    (hprocs : ∀ p, (procs p).map row =
      ((World.boot root store others).procs p).map (Process.row root)) :
    Mirrors root (World.boot root store others) (State.boot root store procs) where
  self := rfl
  store := rfl
  rows := hprocs
  memory := by
    refine ⟨⟨none, .running, .manager .boot⟩, .boot,
      fun t => (Memory.boot.threads t).getD ⟨.queueIdle, .none⟩, by simp [World.boot], rfl, rfl,
      ?_, rfl, rfl, rfl, rfl, .queue, fun u => ?_⟩
    · funext t
      cases t <;> rfl
    · cases u <;> rfl

end Run

/--
**`execl` が失敗しない run は `ProcessManager` の run である。**

`fork` が新しい pid を返し、死んだ子を扱う handler が一度に一つであるかぎり、manager の一歩・process の死・
子の `execl` からなるどの run にも、同じ collection と process 表から起動した `ProcessManager` の run が応じ、
collection・queue・process 表・thread の位置が最後まで対応する。
-/
theorem mirrors_run (root : Nat) (store : Store) (others : Nat → Option ProcState) (procs : Procs)
    (hprocs : ∀ p, (procs p).map row =
      ((World.boot root store others).procs p).map (Process.row root))
    {labels : List Label} {w : World}
    (hl : Along World.step (Comparable root) (World.boot root store others) labels)
    (hrun : Infra.run World.step (World.boot root store others) labels = some w) :
    ∃ bs s, Infra.run App.step (.boot root store procs) bs = some s ∧ Mirrors root w s := by
  obtain ⟨bs, s, hbs, -, hs⟩ := run_simulation (R := fun w s => OnlyManager root w ∧ Mirrors root w s)
    (fun w l w' s hl hs ⟨ho, h⟩ =>
      have ⟨bs, s', hbs, h'⟩ := mirrors_step hl hs ho h
      ⟨bs, s', hbs, (onlyManager_step hl.1 hs ho).1, h'⟩)
    hl hrun ⟨onlyManager_boot root store others, mirrors_boot hprocs⟩
  exact ⟨bs, s, hbs, hs⟩

/--
**`execl` が失敗しない run では、記録は stream ごとに高々一つである。**

`ProcessManager` のどの run でも成り立つ性質なので、対応する run にも移る。
-/
theorem store_nodup_of_run (root : Nat) (store : Store) (others : Nat → Option ProcState)
    (hnd : store.sids.Nodup) {labels : List Label} {w : World}
    (hl : Along World.step (Comparable root) (World.boot root store others) labels)
    (hrun : Infra.run World.step (World.boot root store others) labels = some w) :
    w.store.sids.Nodup := by
  obtain ⟨bs, s, hbs, hs⟩ := mirrors_run root store others
    (fun p => ((World.boot root store others).procs p).map fun pr =>
      ⟨none, pr.parent == some root, pr.state⟩) (fun p => by rw [Option.map_map]; rfl) hl hrun
  rw [← hs.store]
  exact ((UniqueStore.of_idle hnd rfl).run hbs).nodup

-- `execl` が失敗した子は、同じ要求の記録を manager と二重に足す
example : ∃ w, Infra.run World.step (World.boot 1 [] fun _ => none)
    (twoStarts ++ spawns 1 10 ++ [.thread 10 .queue (.exec false)] ++ spawns 10 11
      ++ [.thread 1 .queue .next] ++ spawns 1 12
      ++ [.thread 10 .queue .next, .thread 1 .queue .next]) = some w ∧ ¬w.store.sids.Nodup :=
  ⟨_, rfl, by decide⟩

end RecordServer.App.Fork
