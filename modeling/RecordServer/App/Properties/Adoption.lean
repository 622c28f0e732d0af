import RecordServer.App.OrphanSync

/-!
# 孤児を引き取ると自分のものになるか

`update_process_info` が書き換えるのは `pid` だけで、`ppid` は前の manager のままである。
したがって作り直した記録は孤児のままで、引き取りが成り立つのは作り直すものが無いときに限る。

* `owners_syncLoop` — 一巡は、どの記録の stream と `ppid` も変えない
* `adopted_iff` — 引き取りが成り立つことと、死んでいる孤児が無いこととの同値
-/

namespace RecordServer.App

open Infra

/-! ## 一巡が変えないもの -/

/-- stream と、その記録の持ち主。 -/
def Store.owners (c : Store) : List (CString × Nat) := c.map fun d => (d.sid, d.ppid)

theorem owners_update {q : ProcessInfo → Bool} {f : ProcessInfo → ProcessInfo}
    (hf : ∀ d, (f d).sid = d.sid ∧ (f d).ppid = d.ppid) (c : Store) :
    (MongoAdaptor.update q f c).owners = c.owners := by
  induction c with
  | nil => rfl
  | cons d c ih =>
    simp only [MongoAdaptor.update]
    split
    · simp [Store.owners, hf]
    · simpa [Store.owners] using ih

theorem owners_syncOne (pids : Nat → Nat) (s : SyncState) (i : ProcessInfo) :
    (s.syncOne pids i).store.owners = s.store.owners := by
  unfold SyncState.syncOne
  split
  · rfl
  · split
    · rfl
    · unfold SyncState.reCreateProcess updateProcessInfo
      exact owners_update (by simp) _

theorem owners_syncLoop (pids : Nat → Nat) (l : List ProcessInfo) (s : SyncState) :
    (l.foldl (SyncState.syncOne pids) s).store.owners = s.store.owners := by
  induction l generalizing s with
  | nil => rfl
  | cons i l ih => rw [List.foldl_cons, ih, owners_syncOne]

/-- 作り直した stream は、その後も作り直した stream である。 -/
theorem restarted_subset_syncLoop (pids : Nat → Nat) (l : List ProcessInfo) (s : SyncState) :
    s.restarted ⊆ (l.foldl (SyncState.syncOne pids) s).restarted := by
  induction l generalizing s with
  | nil => exact List.Subset.refl _
  | cons i l ih =>
    refine List.Subset.trans ?_ (ih _)
    unfold SyncState.syncOne
    split
    · exact List.Subset.refl _
    · split
      · exact List.Subset.refl _
      · exact List.subset_append_left _ _

/-! ## 生きている孤児と、死んでいる孤児 -/

/-- どれも生きている列については、一巡は何もしない。 -/
theorem syncLoop_of_alive {pids : Nat → Nat} {l : List ProcessInfo} {s : SyncState}
    (h : ∀ i ∈ l, checkSystemProcessExist s.procs i.pid = true) :
    l.foldl (SyncState.syncOne pids) s = s := by
  induction l with
  | nil => rfl
  | cons i l ih =>
    have hi : s.syncOne pids i = s := by
      unfold SyncState.syncOne
      rw [if_pos (h i (by simp))]
    rw [List.foldl_cons, hi]
    exact ih fun j hj => h j (by simp [hj])

/-- 死んでいる記録があれば、その最初の一つは作り直される。 -/
theorem restarted_of_dead {pids : Nat → Nat} {l : List ProcessInfo} {s : SyncState}
    (hl : ∀ i ∈ l, i ∈ s.store) (hpids : (s.store.map ProcessInfo.pid).Nodup)
    (hdead : ∃ i ∈ l, checkSystemProcessExist s.procs i.pid = false) :
    ∃ i ∈ l, i.sid ∈ (l.foldl (SyncState.syncOne pids) s).restarted := by
  induction l with
  | nil => simp at hdead
  | cons i l ih =>
    rw [List.foldl_cons]
    cases hex : checkSystemProcessExist s.procs i.pid with
    | true =>
      have hi : s.syncOne pids i = s := by
        unfold SyncState.syncOne
        rw [if_pos hex]
      obtain ⟨j, hj, hjd⟩ := hdead
      rcases List.mem_cons.mp hj with rfl | hj
      · rw [hex] at hjd
        cases hjd
      · obtain ⟨k, hk, hkr⟩ := ih (fun j hj => hl j (by simp [hj])) ⟨j, hj, hjd⟩
        exact ⟨k, by simp [hk], by rwa [hi]⟩
    | false =>
      have hget : isProcessExistPid s.store i.pid = some i := by
        cases hfind : isProcessExistPid s.store i.pid with
        | none => exact absurd (byPid_iff.mpr rfl) (findOne_none hfind i (hl i (by simp)))
        | some d =>
          obtain ⟨hd, hq⟩ := findOne_some hfind
          rw [List.inj_on_of_nodup_map hpids hd (hl i (by simp)) (byPid_iff.mp hq)]
      have hi : i.sid ∈ (s.syncOne pids i).restarted := by
        unfold SyncState.syncOne
        simp [hex, hget, SyncState.reCreateProcess]
      exact ⟨i, by simp, restarted_subset_syncLoop pids l _ hi⟩

theorem mem_findOrphanProcess_iff {self : Nat} {c : Store} {d : ProcessInfo} :
    d ∈ findOrphanProcess self c ↔ d ∈ c ∧ d.ppid ≠ self := by
  simp [findOrphanProcess, MongoAdaptor.find]

/-! ## 引き取り -/

/--
引き取りの仕様。作り直した記録は自分のものになって、もう孤児と報告されず、
続けてもう一巡しても何も fork せず、生きていた記録は元のままである。
-/
structure Adopted (mypid : Nat) (pids : Nat → Nat) (store : Store) (procs : Procs) : Prop where
  owned : ∀ d ∈ (SyncState.orphanProcessSync mypid pids ⟨store, procs, []⟩).store,
    d.sid ∈ (SyncState.orphanProcessSync mypid pids ⟨store, procs, []⟩).restarted → d.ppid = mypid
  reported : ∀ d ∈ findOrphanProcess mypid
      (SyncState.orphanProcessSync mypid pids ⟨store, procs, []⟩).store,
    d.sid ∉ (SyncState.orphanProcessSync mypid pids ⟨store, procs, []⟩).restarted
  again : ∀ pids', (SyncState.orphanProcessSync mypid pids'
    { SyncState.orphanProcessSync mypid pids ⟨store, procs, []⟩ with restarted := [] }).restarted = []
  alive : ∀ d ∈ store, checkSystemProcessExist procs d.pid = true →
    d ∈ (SyncState.orphanProcessSync mypid pids ⟨store, procs, []⟩).store

/--
**引き取りが成り立つのは、死んでいる孤児が無いとき、そのときに限る。**

pid が互いに異なる記録と、どんな process 表、fork のどんな pid についても成り立つ。
-/
theorem adopted_iff (mypid : Nat) (pids : Nat → Nat) (store : Store) (procs : Procs)
    (hpids : (store.map ProcessInfo.pid).Nodup) :
    Adopted mypid pids store procs ↔
      ∀ d ∈ store, d.ppid ≠ mypid → checkSystemProcessExist procs d.pid = true := by
  constructor
  · intro h d hd hne
    by_contra hdead
    obtain ⟨i, hi, hir⟩ := @restarted_of_dead pids _ ⟨store, procs, []⟩
      (fun j hj => (mem_findOrphanProcess_iff.mp hj).1) hpids
      ⟨d, mem_findOrphanProcess_iff.mpr ⟨hd, hne⟩, by simpa using hdead⟩
    obtain ⟨hmem, hppid⟩ := mem_findOrphanProcess_iff.mp hi
    -- 記録の持ち主は変わらないので、作り直した記録は孤児のまま残る
    have howner : (i.sid, i.ppid) ∈ Store.owners
        (SyncState.orphanProcessSync mypid pids ⟨store, procs, []⟩).store := by
      unfold SyncState.orphanProcessSync
      rw [owners_syncLoop]
      exact List.mem_map.mpr ⟨i, hmem, rfl⟩
    obtain ⟨e, he, heq⟩ := List.mem_map.mp howner
    obtain ⟨hsid, hpp⟩ := Prod.mk.inj heq
    exact hppid (hpp ▸ h.owned e he (hsid ▸ hir))
  · intro h
    have hsame : SyncState.orphanProcessSync mypid pids ⟨store, procs, []⟩ = ⟨store, procs, []⟩ :=
      syncLoop_of_alive fun i hi =>
        h i (mem_findOrphanProcess_iff.mp hi).1 (mem_findOrphanProcess_iff.mp hi).2
    refine ⟨?_, ?_, ?_, ?_⟩
    · rw [hsame]
      simp
    · rw [hsame]
      simp
    · intro pids'
      rw [hsame]
      exact congrArg SyncState.restarted (syncLoop_of_alive fun i hi =>
        h i (mem_findOrphanProcess_iff.mp hi).1 (mem_findOrphanProcess_iff.mp hi).2)
    · rw [hsame]
      exact fun d hd _ => hd

/-- 前の manager（pid 1）の記録一つ。 -/
def orphanRecord : ProcessInfo :=
  { sid := .ofBytes (ascii "a"), pid := 10, ppid := 1, srcUrl := .ofBytes [],
    m3u8Path := .ofBytes [], type := .ofBytes [], status := .ofBytes [], host := .ofBytes [] }

/-- 孤児の process が生きていれば、引き取りは何もせずに成り立つ。 -/
theorem adopted_alive :
    Adopted 2 (fun k => 20 + k) [orphanRecord]
      (fun p => if p = 10 then some ⟨some (.ofBytes (ascii "a")), false, .running⟩ else none) :=
  (adopted_iff 2 (fun k => 20 + k) [orphanRecord] _ (by decide)).mpr (by decide)

/-- 孤児の process が死んでいれば、作り直した記録は前の manager のもののままである。 -/
theorem restarted_not_owned :
    ¬Adopted 2 (fun k => 20 + k) [orphanRecord] (fun _ => none) := by
  intro h
  have := h.owned { orphanRecord with pid := 20 } (by decide) (by decide)
  revert this
  decide

end RecordServer.App
