import RecordServer.App.ProcessManager

/-!
# 一つの stream に記録は一つ

`spawn_process` は「記録が無いことを確かめてから、fork して、記録を足す」を lock なしで行う。
それでも記録が重ならないのは、記録を足すのが queue thread だけだからである。

* `UniqueStore` — 記録の stream に重複が無く、確かめ終えた起動の stream にはまだ記録が無い
* `store_unique_along_run` — どの run でも `UniqueStore` が保たれ、
  `spawn_process` の insert と `kill_process` の remove のほかは stream の集合を変えない
-/

namespace RecordServer.App

open Infra

/-- `is_process_exist` を通り過ぎた `spawn_process` の引数。 -/
def QueuePc.spawning : QueuePc → Option ProcessInfo
  | .create e => some e
  | .fork e _ => some e
  | .insert e => some e
  | _ => none

/-- 記録が stream ごとに一つで、起動の途中の stream には記録が無い。 -/
structure UniqueStore (s : State) : Prop where
  nodup : s.store.sids.Nodup
  spawning : ∀ e, s.qpc.spawning = some e → e.sid ∉ s.store.sids

@[simp] theorem sids_updateProcessInfo (c : Store) (i : ProcessInfo) :
    (updateProcessInfo c i).sids = c.sids := by
  apply sids_update
  intro d
  rfl

@[simp] theorem sids_addProcessToCache (self : Nat) (c : Store) (i : ProcessInfo) :
    (addProcessToCache self c i).sids = c.sids ++ [i.sid] := sids_insert _ _

theorem sids_removeProcessByStream (c : Store) (sid : CString) :
    (removeProcessByStream c sid).sids = c.sids.erase sid := sids_remove c sid

theorem isProcessExist_false {c : Store} {sid : CString} (h : isProcessExist c sid = false) :
    sid ∉ c.sids := by
  rw [← findOne_byStream_none]
  simpa [isProcessExist] using h

theorem isProcessExist_true {c : Store} {sid : CString} (h : isProcessExist c sid = true) :
    sid ∈ c.sids := by
  by_contra hn
  rw [← findOne_byStream_none] at hn
  simp [isProcessExist, hn] at h

/-- insert と remove のほかの一歩は、記録のある stream の列を変えない。 -/
theorem step_sids_eq {s s' : State} {a : Act} (h : step s a = some s') (hins : a ≠ .queueInsert)
    (hrem : a ≠ .killRemove) : s'.store.sids = s.store.sids := by
  cases step_cases h with
  | queueInsert => exact absurd rfl hins
  | killRemove => exact absurd rfl hrem
  | sigUpdate => simp
  | monUpdate => simp
  | _ => rfl

/-- 一歩の前後で `UniqueStore` が保たれる。 -/
theorem UniqueStore.step {s s' : State} {a : Act} (h : App.step s a = some s')
    (hu : UniqueStore s) : UniqueStore s' := by
  obtain ⟨hnd, hsp⟩ := hu
  cases step_cases h with
  | killRemove p hpc =>
    refine ⟨?_, fun e he => ?_⟩
    · simpa [sids_removeProcessByStream] using hnd.erase _
    · rw [sids_removeProcessByStream]
      exact fun hm => hsp e he (List.mem_of_mem_erase hm)
  | queueInsert e qpc =>
    have he : e.sid ∉ s.store.sids := hsp e (by rw [qpc]; rfl)
    refine ⟨?_, fun e he => by simp [QueuePc.spawning] at he⟩
    simpa using List.Nodup.append hnd (List.nodup_singleton _) (by simpa using he)
  | queueAbsent e qpc hex =>
    refine ⟨hnd, fun e' he' => ?_⟩
    simp only [QueuePc.spawning, Option.some.injEq] at he'
    subst he'
    exact isProcessExist_false hex
  | queueCreate e f qpc => exact ⟨hnd, fun e' he' => hsp e' (by rw [qpc]; exact he')⟩
  | queueFork e f p qpc hfresh =>
    refine ⟨hnd, fun e' he' => ?_⟩
    simp only [QueuePc.spawning, Option.some.injEq] at he'
    subst he'
    exact hsp e (by rw [qpc]; rfl)
  | queueTake | queueExist | queueCreateFail | queueForkFail =>
    exact ⟨hnd, fun e' he' => by simp [QueuePc.spawning] at he'⟩
  | sigUpdate => exact ⟨by simpa using hnd, by simpa using hsp⟩
  | monUpdate => exact ⟨by simpa using hnd, by simpa using hsp⟩
  | _ => exact ⟨hnd, hsp⟩

theorem UniqueStore.run {s s' : State} {as : List Act} (h : Infra.run App.step s as = some s')
    (hu : UniqueStore s) : UniqueStore s' :=
  run_invariant (fun _ _ _ _ hstep hI => hI.step hstep) (Along.trivial s as) h hu

theorem UniqueStore.of_idle {s : State} (hnd : s.store.sids.Nodup) (hq : s.qpc = .idle) :
    UniqueStore s := ⟨hnd, by simp [hq, QueuePc.spawning]⟩

/-! ## queue thread の手元の依頼 -/

/-- `process_queue` が取り出して `spawn_process` に渡している依頼。 -/
def QueuePc.current : QueuePc → Option ProcessInfo
  | .idle => none
  | .check e => some e
  | .create e => some e
  | .fork e _ => some e
  | .insert e => some e

/-- 実行中の依頼は queue の先頭にある。`pop` は `spawn_process` の後だからである。 -/
def QueueHead (s : State) : Prop :=
  ∀ e, s.qpc.current = some e → ∃ e' q, s.queue = e' :: q ∧ e'.sid = e.sid

theorem QueueHead.step {s s' : State} {a : Act} (h : App.step s a = some s') (hq : QueueHead s) :
    QueueHead s' := by
  intro e he
  cases step_cases h with
  | start e₀ hpc =>
    obtain ⟨e', q, hqueue, hs⟩ := hq e he
    exact ⟨e', q ++ [e₀], by simp [hqueue], hs⟩
  | queueTake e₀ q qpc hqueue =>
    cases he
    exact ⟨_, q, hqueue, rfl⟩
  | queueExist | queueCreateFail | queueForkFail | queueInsert => simp [QueuePc.current] at he
  | queueAbsent e₀ qpc | queueCreate e₀ f qpc =>
    cases he
    exact hq _ (by rw [qpc]; rfl)
  | queueFork e₀ f p qpc =>
    cases he
    exact hq e₀ (by rw [qpc]; rfl)
  | _ => exact hq e he

theorem QueueHead.run {s s' : State} {as : List Act} (h : Infra.run App.step s as = some s')
    (hq : QueueHead s) : QueueHead s' :=
  run_invariant (fun _ _ _ _ hstep hI => hI.step hstep) (Along.trivial s as) h hq

/-- 実行中の依頼の stream は queue に現れる。 -/
theorem QueueHead.ne_of_forall {s : State} (hq : QueueHead s) {sid : CString}
    (hno : ∀ e ∈ s.queue, e.sid ≠ sid) {e : ProcessInfo} (he : s.qpc.current = some e) :
    e.sid ≠ sid := by
  obtain ⟨e', q, hqueue, hs⟩ := hq e he
  rw [← hs]
  exact hno e' (by rw [hqueue]; exact List.mem_cons_self)

/-! ## 例 -/

/-- `new` の録画を頼み、queue thread が `spawn_process` を終えるまでの run。 -/
def spawnRun (new : ProcessInfo) (pid : Nat) : List Act :=
  [.start new, .queueTake, .queueCheck, .queueCreate (some new.m3u8Path), .queueFork (some pid),
    .queueInsert]

/-- 例に使う録画の依頼。stream は一文字である。 -/
def sampleInfo (sid : UInt8) (pid ppid : Nat) : ProcessInfo :=
  { sid := .ofBytes [sid], pid := pid, ppid := ppid, srcUrl := .ofBytes [],
    m3u8Path := .ofBytes [], type := .ofBytes [], status := .ofBytes [], host := .ofBytes [] }

/--
**記録は stream ごとに高々一つである。**

queue thread が `spawn_process` の外にいて記録が重なっていない状態から始まるどの run でも、
途中の死亡・fork の失敗・割り込みの順序によらず記録は重ならない。
stream の集合を変えるのは insert と remove だけである。
-/
theorem store_unique_along_run (s₀ : State) (as : List Act) (s : State)
    (hnd : s₀.store.sids.Nodup) (hq : s₀.qpc = .idle) (hrun : Infra.run step s₀ as = some s) :
    s.store.sids.Nodup ∧
      ∀ a s', step s a = some s' → a ≠ .queueInsert → a ≠ .killRemove →
        ∀ sid, sid ∈ s'.store.sids ↔ sid ∈ s.store.sids :=
  ⟨((UniqueStore.of_idle hnd hq).run hrun).nodup,
    fun _ _ hstep hins hrem sid => by rw [step_sids_eq hstep hins hrem]⟩

theorem store_unique_two_spawns :
    ∃ s, Infra.run step (.boot 1 [] fun _ => none)
        (spawnRun (sampleInfo 97 0 0) 100 ++ spawnRun (sampleInfo 98 0 0) 101) = some s ∧
      s.store.sids = [.ofBytes [97], .ofBytes [98]] ∧ s.store.sids.Nodup :=
  ⟨_, rfl, rfl, (store_unique_along_run (.boot 1 [] fun _ => none)
    (spawnRun (sampleInfo 97 0 0) 100 ++ spawnRun (sampleInfo 98 0 0) 101) _ (by decide) rfl
    rfl).1⟩

end RecordServer.App
