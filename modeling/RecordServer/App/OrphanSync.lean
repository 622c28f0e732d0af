import RecordServer.App.ProcessManager

/-!
# 孤児の引き取り（`orphan_process_sync`）

monitor thread の一巡を、ほかの活動が割り込まないものとして一つの関数で表す。
遷移系の monitor の歩みと同じ結果になることは `run_orphanProcessSync` が述べる。

* `reCreateProcess` — fork した親の側。記録の `pid` を書き換える
* `orphanProcessSync` — 孤児を調べ、死んでいるものを作り直す
-/

namespace RecordServer.App

open Infra

/-- 一巡のあいだ変わるもの。`restarted` は作り直した stream の列である。 -/
structure SyncState where
  store : Store
  procs : Procs
  restarted : List CString

namespace SyncState

/-- `re_create_process`。`pid` は fork が親に返した値で、exec は成功する。 -/
def reCreateProcess (s : SyncState) (pid : Nat) (param : ProcessInfo) : SyncState where
  store := updateProcessInfo s.store { param with pid := pid }
  procs := forkProc s.procs pid param.sid
  restarted := s.restarted ++ [param.sid]

/-- `orphan_process_sync` の loop の一回分。`pids k` は `k` 回目の fork が返す pid。 -/
def syncOne (pids : Nat → Nat) (s : SyncState) (i : ProcessInfo) : SyncState :=
  if checkSystemProcessExist s.procs i.pid then s
  else
    match isProcessExistPid s.store i.pid with
    | none => s
    | some info => s.reCreateProcess (pids s.restarted.length) info

/-- `orphan_process_sync`。 -/
def orphanProcessSync (self : Nat) (pids : Nat → Nat) (s : SyncState) : SyncState :=
  (findOrphanProcess self s.store).foldl (syncOne pids) s

end SyncState

/-! ## 遷移系の monitor thread -/

/-- `store` と `procs` を取り出す。 -/
def State.sync (s : State) (restarted : List CString) : SyncState := ⟨s.store, s.procs, restarted⟩

/-- loop の一回分が fork するなら、その pid は使われたことがない。 -/
def ForkFresh (pids : Nat → Nat) (s : SyncState) : Prop :=
  s.procs (pids s.restarted.length) = none

/-- loop の一回分は、monitor thread の高々四歩である。 -/
theorem run_syncOne {pids : Nat → Nat} {s : State} {restarted : List CString} {i : ProcessInfo}
    {rest : List ProcessInfo} (hpc : s.mpc = .check (i :: rest))
    (hfresh : ForkFresh pids (s.sync restarted)) :
    ∃ acts, run step s acts = some { s with
      store := ((s.sync restarted).syncOne pids i).store
      procs := ((s.sync restarted).syncOne pids i).procs
      mpc := .check rest } := by
  unfold SyncState.syncOne State.sync
  cases hex : checkSystemProcessExist s.procs i.pid with
  | true =>
    refine ⟨[.monCheck], ?_⟩
    simp [run, step, hpc, hex]
  | false =>
    cases hget : isProcessExistPid s.store i.pid with
    | none =>
      refine ⟨[.monCheck, .monLookup], ?_⟩
      simp [run, step, hpc, hex, hget]
    | some info =>
      have hp : s.procs (pids restarted.length) = none := hfresh
      refine ⟨[.monCheck, .monLookup, .monFork (some (pids restarted.length)), .monUpdate], ?_⟩
      simp [run, step, hpc, hex, hget, hp, SyncState.reCreateProcess]

/-- loop のどの回でも、fork する pid は使われたことがない。 -/
def AllFresh (pids : Nat → Nat) : SyncState → List ProcessInfo → Prop
  | _, [] => True
  | s, i :: rest => ForkFresh pids s ∧ AllFresh pids (s.syncOne pids i) rest

theorem run_syncLoop {pids : Nat → Nat} {rest : List ProcessInfo} {s : State}
    {restarted : List CString} (hpc : s.mpc = .check rest)
    (hfresh : AllFresh pids (s.sync restarted) rest) :
    ∃ acts, run step s acts = some { s with
      store := (rest.foldl (SyncState.syncOne pids) (s.sync restarted)).store
      procs := (rest.foldl (SyncState.syncOne pids) (s.sync restarted)).procs
      mpc := .idle } := by
  induction rest generalizing s restarted with
  | nil => exact ⟨[.monCheck], by simp [run, step, hpc, State.sync]⟩
  | cons i rest ih =>
    obtain ⟨acts, hacts⟩ := run_syncOne hpc hfresh.1
    obtain ⟨acts', hacts'⟩ := @ih
      { s with
        store := ((s.sync restarted).syncOne pids i).store
        procs := ((s.sync restarted).syncOne pids i).procs
        mpc := .check rest }
      ((s.sync restarted).syncOne pids i).restarted rfl hfresh.2
    exact ⟨acts ++ acts', (run_append_eq_some step).mpr ⟨_, hacts, hacts'⟩⟩

/-- **monitor thread の一巡は `orphanProcessSync` の結果になる。** -/
theorem run_orphanProcessSync {pids : Nat → Nat} {s : State} (hpc : s.mpc = .idle)
    (hfresh : AllFresh pids (s.sync []) (findOrphanProcess s.self s.store)) :
    ∃ acts, run step s acts = some { s with
      store := ((s.sync []).orphanProcessSync s.self pids).store
      procs := ((s.sync []).orphanProcessSync s.self pids).procs
      mpc := .idle } := by
  obtain ⟨acts, hacts⟩ := @run_syncLoop pids _
    { s with mpc := .check (findOrphanProcess s.self s.store) } [] rfl hfresh
  refine ⟨.monScan :: acts, (run_cons_eq_some step).mpr ⟨_, ?_, hacts⟩⟩
  simp [step, hpc]

end RecordServer.App
