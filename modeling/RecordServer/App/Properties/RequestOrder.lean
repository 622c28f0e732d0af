import RecordServer.App.Properties.StoreUnique
import Mathlib.Data.List.Induction

/-!
# 依頼は応えた順に効くか

`start_record` は依頼を queue に積んで成功と応え、実際の起動は queue thread が後で行う。
`stop_record` は記録をその場で読み書きする。したがって、起動の依頼が残っているうちに
同じ stream の停止を頼むと「無い」と応えて、録画は後から始まる（`stop_overtakes_start`）。
また `put_data` は `REC_ERROR_STREAM_EXIST` を返さないので、録画中の stream の起動にも成功と応える。

応答と最後の記録が、依頼を一つずつ最後まで実行したときと同じになるのは、
どの依頼も前の依頼が済んでから来るとき（`InTurn`）であり、そのときに限る（`outcome_sequential_iff`）。
-/

namespace RecordServer.App

open Infra

/-! ## 一つずつ実行したときの結果 -/

namespace Sequential

/-- 依頼をその場で最後まで実行したときの応答。`S` は記録のある stream。 -/
def reply (S : List CString) : Request → Reply
  | .start sid => if sid ∈ S then .streamExist else .success
  | .stop sid => if sid ∈ S then .success else .streamNotExist

/-- 実行した後の、記録のある stream。 -/
def next (S : List CString) : Request → List CString
  | .start sid => if sid ∈ S then S else S ++ [sid]
  | .stop sid => S.filter (· ≠ sid)

def streams (S : List CString) (rs : List Request) : List CString := rs.foldl next S

def replies (S : List CString) : List Request → List Reply
  | [] => []
  | r :: rs => reply S r :: replies (next S r) rs

theorem streams_concat (S : List CString) (rs : List Request) (r : Request) :
    streams S (rs ++ [r]) = next (streams S rs) r := by simp [streams]

theorem replies_concat (S : List CString) (rs : List Request) (r : Request) :
    replies S (rs ++ [r]) = replies S rs ++ [reply (streams S rs) r] := by
  induction rs generalizing S with
  | nil => rfl
  | cons r₀ rs ih => simp [replies, ih, streams]

end Sequential

/-- これまでに応えた依頼。 -/
def State.requests (s : State) : List Request := s.replies.map Prod.fst

/-- 応答が、一つずつ実行したときと同じである。 -/
def RepliesSequential (S₀ : List CString) (s : State) : Prop :=
  s.replies.map Prod.snd = Sequential.replies S₀ s.requests

instance (S₀ : List CString) (s : State) : Decidable (RepliesSequential S₀ s) :=
  inferInstanceAs (Decidable (_ = _))

/-- 待っている依頼も、処理中の依頼も無い。 -/
def Drained (s : State) : Prop := s.queue = [] ∧ s.qpc = .idle ∧ s.hpc = .idle

/-- 応答と、queue が空になったときの記録のある stream が、一つずつ実行したときと同じである。 -/
def OutcomeSequential (S₀ : List CString) (s : State) : Prop :=
  RepliesSequential S₀ s ∧
    (Drained s → ∀ sid, sid ∈ s.store.sids ↔ sid ∈ Sequential.streams S₀ s.requests)

/-! ## 依頼が来る時機 -/

/-- 待っている（または実行中の）起動の依頼の stream。 -/
def State.waiting (s : State) : List CString := s.queue.map ProcessInfo.sid

/-- 起動は記録も依頼も無い stream に、停止は起動の依頼が残っていない stream に来る。 -/
def InTurn (s : State) : Act → Prop
  | .start e => e.sid ∉ s.store.sids ∧ e.sid ∉ s.waiting
  | .stop sid => sid ∉ s.waiting
  | _ => True

/-- file の作成と fork は成功する。 -/
def SpawnSucceeds (_ : State) (a : Act) : Prop := a ≠ .queueCreate none ∧ a ≠ .queueFork none

instance (s : State) : (a : Act) → Decidable (InTurn s a)
  | .start _ => inferInstanceAs (Decidable (_ ∧ _))
  | .stop _ => inferInstanceAs (Decidable (¬ _))
  | .killRemove | .killSignal | .queueTake | .queueCheck | .queueCreate _ | .queueFork _
  | .queueInsert | .die _ | .sigReap _ | .sigLookup | .sigFork _ | .sigUpdate | .monScan
  | .monCheck | .monLookup | .monFork _ | .monUpdate => inferInstanceAs (Decidable True)

instance (s : State) (a : Act) : Decidable (SpawnSucceeds s a) :=
  inferInstanceAs (Decidable (_ ∧ _))

/-! ## 不変量 -/

/-- 停止の途中で、記録を消したがまだ応えていない stream。 -/
def HttpPc.unanswered : HttpPc → Option CString
  | .kill p => some p.sid
  | _ => none

/--
一つずつ実行したときに記録のある stream は、今ある記録・待っている起動の依頼・
消したがまだ応えていない停止の stream を合わせたものである。
-/
structure InOrder (S₀ : List CString) (s : State) : Prop where
  replies : RepliesSequential S₀ s
  waiting_nodup : s.waiting.Nodup
  waiting_absent : ∀ sid ∈ s.waiting, sid ∉ s.store.sids
  removing : ∀ p, s.hpc = .remove p → p.sid ∈ s.store.sids ∧ p.sid ∉ s.waiting
  unanswered : ∀ sid ∈ s.hpc.unanswered, sid ∉ s.store.sids ∧ sid ∉ s.waiting
  streams : ∀ sid, sid ∈ Sequential.streams S₀ s.requests ↔
    sid ∈ s.store.sids ∨ sid ∈ s.waiting ∨ sid ∈ s.hpc.unanswered

theorem RepliesSequential.concat {S₀ : List CString} {s s' : State} {r : Request} {x : Reply}
    (hs' : s'.replies = s.replies ++ [(r, x)]) :
    RepliesSequential S₀ s' ↔
      RepliesSequential S₀ s ∧ x = Sequential.reply (Sequential.streams S₀ s.requests) r := by
  have hreq : s'.requests = s.requests ++ [r] := by simp [State.requests, hs']
  unfold RepliesSequential
  rw [hreq, Sequential.replies_concat, hs', List.map_append]
  constructor
  · intro h
    have h₂ := List.append_inj_right' h rfl
    exact ⟨List.append_inj_left' h rfl, by simpa using h₂⟩
  · rintro ⟨h, rfl⟩
    rw [h]
    rfl

theorem requests_concat {s s' : State} {r : Request} {x : Reply}
    (hs' : s'.replies = s.replies ++ [(r, x)]) : s'.requests = s.requests ++ [r] := by
  simp [State.requests, hs']

/-- 待っている依頼は queue の先頭から順に記録になる。 -/
theorem waiting_eq_cons {s : State} {e : ProcessInfo} (hhead : QueueHead s)
    (he : s.qpc.current = some e) : s.waiting = e.sid :: s.queue.tail.map ProcessInfo.sid := by
  obtain ⟨e', q, hq, hs⟩ := hhead e he
  simp [State.waiting, hq, hs]

/-- 応答も queue も collection の stream も変えない一歩。 -/
theorem InOrder.congr {S₀ : List CString} {s s' : State} (h : InOrder S₀ s)
    (hsids : s'.store.sids = s.store.sids) (hq : s'.queue = s.queue) (hpc : s'.hpc = s.hpc)
    (hrep : s'.replies = s.replies) : InOrder S₀ s' := by
  obtain ⟨h1, h2, h3, h4, h5, h6⟩ := h
  constructor
  · simpa [RepliesSequential, State.requests, hrep] using h1
  · simpa [State.waiting, hq] using h2
  · simpa [State.waiting, hq, hsids] using h3
  · simpa [State.waiting, hq, hsids, hpc] using h4
  · simpa [State.waiting, hq, hsids, hpc] using h5
  · simpa [State.waiting, State.requests, hq, hsids, hpc, hrep] using h6

section Step

variable {S₀ : List CString} {s : State}

/-- 起動を受け付ける。stream は queue の末尾に載る。 -/
theorem InOrder.start (hi : InOrder S₀ s) {e : ProcessInfo} (hturn : InTurn s (.start e))
    (hpc : s.hpc = .idle) :
    InOrder S₀ { s with
      queue := s.queue ++ [e]
      replies := s.replies ++ [(.start e.sid, .success)] } := by
  have hnot : e.sid ∉ Sequential.streams S₀ s.requests := by
    rw [hi.streams]
    rintro (hc | hc | hc)
    · exact hturn.1 hc
    · exact hturn.2 hc
    · simp [hpc, HttpPc.unanswered] at hc
  have hw : ∀ (t : State), t.queue = s.queue ++ [e] → t.waiting = s.waiting ++ [e.sid] :=
    fun t ht => by simp [State.waiting, ht]
  refine ⟨?_, ?_, ?_, ?_, ?_, ?_⟩
  · exact (RepliesSequential.concat rfl).mpr ⟨hi.replies, by simp [Sequential.reply, hnot]⟩
  · rw [hw _ rfl]
    exact List.Nodup.append hi.waiting_nodup (List.nodup_singleton _) (by simpa using hturn.2)
  · rw [hw _ rfl]
    intro sid hsid
    rcases List.mem_append.mp hsid with hsid | hsid
    · exact hi.waiting_absent sid hsid
    · rw [List.mem_singleton.mp hsid]
      exact hturn.1
  · simp [hpc]
  · simp [hpc, HttpPc.unanswered]
  · intro sid
    rw [requests_concat rfl, Sequential.streams_concat, hw _ rfl]
    simp only [Sequential.next, hnot, if_false, List.mem_append, List.mem_singleton, hi.streams]
    tauto

/-- 記録の無い stream の停止に応える。 -/
theorem InOrder.stopNone (hi : InOrder S₀ s) {sid : CString} (hturn : InTurn s (.stop sid))
    (hpc : s.hpc = .idle) (hget : getProcessInfo s.store sid = none) :
    InOrder S₀ { s with replies := s.replies ++ [(.stop sid, .streamNotExist)] } := by
  have hno : sid ∉ s.store.sids := findOne_byStream_none.mp hget
  have hnot : sid ∉ Sequential.streams S₀ s.requests := by
    rw [hi.streams]
    rintro (hc | hc | hc)
    · exact hno hc
    · exact hturn hc
    · simp [hpc, HttpPc.unanswered] at hc
  refine ⟨?_, hi.waiting_nodup, hi.waiting_absent, by simp [hpc],
    by simp [hpc, HttpPc.unanswered], fun x => ?_⟩
  · exact (RepliesSequential.concat rfl).mpr ⟨hi.replies, by simp [Sequential.reply, hnot]⟩
  · rw [requests_concat rfl, Sequential.streams_concat]
    have hne : x ∈ Sequential.streams S₀ s.requests → x ≠ sid := fun hx hc => hnot (hc ▸ hx)
    simp only [Sequential.next, List.mem_filter, decide_eq_true_eq]
    exact ⟨fun hx => (hi.streams x).mp hx.1,
      fun hx => ⟨(hi.streams x).mpr hx, hne ((hi.streams x).mpr hx)⟩⟩

/-- 停止する記録を読む。 -/
theorem InOrder.stopSome (hi : InOrder S₀ s) {sid : CString} {p : ProcessInfo}
    (hturn : InTurn s (.stop sid)) (hpc : s.hpc = .idle)
    (hget : getProcessInfo s.store sid = some p) :
    InOrder S₀ { s with hpc := .remove p, killed := p.pid :: s.killed } := by
  obtain ⟨hm, hq⟩ := findOne_some hget
  have hsid : p.sid = sid := byStream_iff.mp hq
  refine ⟨hi.replies, hi.waiting_nodup, hi.waiting_absent, fun q hq => ?_,
    by simp [HttpPc.unanswered], ?_⟩
  · cases hq
    exact ⟨Store.mem_sids.mpr ⟨p, hm, rfl⟩, by rw [hsid]; exact hturn⟩
  · simpa [hpc, HttpPc.unanswered, State.requests, State.waiting] using hi.streams

/-- 記録を消す。stream は、まだ応えていない停止に移る。 -/
theorem InOrder.killRemove (hi : InOrder S₀ s) (hu : UniqueStore s) {p : ProcessInfo}
    (hpc : s.hpc = .remove p) :
    InOrder S₀ { s with store := removeProcessByStream s.store p.sid, hpc := .kill p } := by
  obtain ⟨hin, hnw⟩ := hi.removing p hpc
  have hmem : ∀ sid, sid ∈ (removeProcessByStream s.store p.sid).sids ↔
      sid ≠ p.sid ∧ sid ∈ s.store.sids := fun sid => by
    rw [sids_removeProcessByStream]
    exact hu.nodup.mem_erase_iff
  refine ⟨hi.replies, hi.waiting_nodup, fun x hx => ?_, by simp, fun x hx => ?_, fun x => ?_⟩
  · rw [hmem]
    exact fun hc => hi.waiting_absent x hx hc.2
  · obtain rfl : p.sid = x := by simpa [HttpPc.unanswered] using hx
    exact ⟨by simp [hmem], hnw⟩
  · refine (hi.streams x).trans ?_
    by_cases hx : x = p.sid
    · subst hx
      simp [hin, HttpPc.unanswered]
    · have hx' : p.sid ≠ x := fun hc => hx hc.symm
      simp [hmem, hpc, HttpPc.unanswered, State.waiting, hx, hx']

/-- 停止に応える。 -/
theorem InOrder.killSignal (hi : InOrder S₀ s) {p : ProcessInfo} (hpc : s.hpc = .kill p) :
    InOrder S₀ { s with hpc := .idle, replies := s.replies ++ [(.stop p.sid, .success)] } := by
  obtain ⟨hns, hnw⟩ := hi.unanswered p.sid (by rw [hpc]; rfl)
  have hin : p.sid ∈ Sequential.streams S₀ s.requests := by
    rw [hi.streams, hpc]
    exact .inr (.inr rfl)
  refine ⟨?_, hi.waiting_nodup, hi.waiting_absent, by simp, by simp [HttpPc.unanswered],
    fun x => ?_⟩
  · exact (RepliesSequential.concat rfl).mpr ⟨hi.replies, by simp [Sequential.reply, hin]⟩
  · rw [requests_concat rfl, Sequential.streams_concat]
    simp only [Sequential.next, List.mem_filter, decide_eq_true_eq, hi.streams, hpc,
      HttpPc.unanswered, Option.mem_def, Option.some.injEq, reduceCtorEq, or_false]
    constructor
    · rintro ⟨hx | hx | hx, hne⟩
      · exact .inl hx
      · exact .inr hx
      · exact absurd hx.symm hne
    · rintro (hx | hx)
      · exact ⟨.inl hx, fun hc => hns (hc ▸ hx)⟩
      · exact ⟨.inr (.inl hx), fun hc => hnw (hc ▸ hx)⟩

/-- 記録を足す。stream は queue の先頭から記録へ移る。 -/
theorem InOrder.queueInsert (hi : InOrder S₀ s) (hhead : QueueHead s) {e : ProcessInfo}
    (qpc : s.qpc = .insert e) :
    InOrder S₀ { s with
      store := addProcessToCache s.self s.store e
      queue := s.queue.tail
      qpc := .idle } := by
  obtain ⟨hrep, hnd, habs, hrem, hun, hstr⟩ := hi
  have hw := waiting_eq_cons hhead (e := e) (by rw [qpc]; rfl)
  rw [hw] at hnd habs hrem hun hstr
  obtain ⟨hne, hnd'⟩ := List.nodup_cons.mp hnd
  refine ⟨hrep, hnd', fun x hx => ?_, fun p hp => ?_, fun x hx => ?_, fun x => ?_⟩
  · have hxe : x ≠ e.sid := fun hc => hne (hc ▸ hx)
    simpa [hxe] using habs x (List.mem_cons_of_mem _ hx)
  · obtain ⟨hin, hnw⟩ := hrem p hp
    exact ⟨by simp [hin], fun hc => hnw (List.mem_cons_of_mem _ hc)⟩
  · obtain ⟨hns, hnw⟩ := hun x hx
    have hxe : x ≠ e.sid := fun hc => hnw (by rw [hc]; exact List.mem_cons_self)
    exact ⟨by simp [hns, hxe], fun hc => hnw (List.mem_cons_of_mem _ hc)⟩
  · refine (hstr x).trans ?_
    simp only [sids_addProcessToCache, List.mem_append, List.mem_cons, State.waiting]
    tauto

theorem InOrder.step {s' : State} {a : Act} (hok : SpawnSucceeds s a) (hturn : InTurn s a)
    (h : App.step s a = some s') (hu : UniqueStore s) (hhead : QueueHead s) (hi : InOrder S₀ s) :
    InOrder S₀ s' := by
  cases step_cases h with
  | start e hpc => exact hi.start hturn hpc
  | stopNone sid hpc hget => exact hi.stopNone hturn hpc hget
  | stopSome sid p hpc hget => exact hi.stopSome hturn hpc hget
  | killRemove p hpc => exact hi.killRemove hu hpc
  | killSignal p hpc => exact hi.killSignal hpc
  | queueExist e qpc hex =>
    -- 待っている stream に記録は無いので、この枝は通らない
    have hwait : e.sid ∈ s.waiting := by
      rw [waiting_eq_cons hhead (e := e) (by rw [qpc]; rfl)]
      exact List.mem_cons_self
    exact absurd (isProcessExist_true hex) (hi.waiting_absent e.sid hwait)
  | queueCreateFail => exact absurd rfl hok.1
  | queueForkFail => exact absurd rfl hok.2
  | queueInsert e qpc => exact hi.queueInsert hhead qpc
  | sigUpdate => exact hi.congr (by simp) rfl rfl rfl
  | monUpdate => exact hi.congr (by simp) rfl rfl rfl
  | _ => exact hi.congr rfl rfl rfl rfl

end Step

/-! ## run 全体 -/

theorem InOrder.boot {self : Nat} {store : Store} {procs : Procs} :
    InOrder store.sids (.boot self store procs) where
  replies := rfl
  waiting_nodup := List.nodup_nil
  waiting_absent := by simp [State.waiting, State.boot]
  removing := by simp [State.boot]
  unanswered := by simp [State.boot, HttpPc.unanswered]
  streams := by simp [State.waiting, State.boot, HttpPc.unanswered, State.requests,
    Sequential.streams]

/-- 前の依頼が済んでから来る依頼だけの run は、一つずつ実行したときと同じ結果になる。 -/
theorem InOrder.run {self : Nat} {store : Store} {procs : Procs} (hnd : store.sids.Nodup)
    {as : List Act} {s : State} (hok : Along App.step SpawnSucceeds (.boot self store procs) as)
    (hturn : Along App.step InTurn (.boot self store procs) as)
    (hrun : Infra.run App.step (.boot self store procs) as = some s) : InOrder store.sids s := by
  have h : UniqueStore s ∧ QueueHead s ∧ InOrder store.sids s :=
    run_invariant (I := fun s => UniqueStore s ∧ QueueHead s ∧ InOrder store.sids s)
      (fun _ _ _ ⟨ho, ht⟩ hstep ⟨hu, hq, hi⟩ =>
        ⟨hu.step hstep, hq.step hstep, hi.step ho ht hstep hu hq⟩)
      (hok.and hturn) hrun
      ⟨.of_idle hnd rfl, by simp [QueueHead, State.boot, QueuePc.current], .boot⟩
  exact h.2.2

theorem InOrder.outcome {S₀ : List CString} {s : State} (h : InOrder S₀ s) :
    OutcomeSequential S₀ s := by
  refine ⟨h.replies, fun ⟨hq, _, hpc⟩ sid => ?_⟩
  rw [h.streams]
  simp [State.waiting, hq, hpc, HttpPc.unanswered]

/-- 一歩が足す応答は高々一つである。 -/
theorem replies_step {s s' : State} {a : Act} (h : step s a = some s') :
    s'.replies = s.replies ∨ ∃ r x, s'.replies = s.replies ++ [(r, x)] := by
  cases step_cases h with
  | start | stopNone | killSignal => exact .inr ⟨_, _, rfl⟩
  | _ => exact .inl rfl

theorem RepliesSequential.of_step {S₀ : List CString} {s s' : State} {a : Act}
    (h : step s a = some s') (hs' : RepliesSequential S₀ s') : RepliesSequential S₀ s := by
  rcases replies_step h with he | ⟨r, x, he⟩
  · simpa [RepliesSequential, State.requests, he] using hs'
  · exact ((RepliesSequential.concat he).mp hs').1

/-- 応答が合っている一歩は、時機を外していない。 -/
theorem InOrder.inTurn {S₀ : List CString} {s s' : State} {a : Act} (hi : InOrder S₀ s)
    (h : App.step s a = some s') (hs' : RepliesSequential S₀ s') : InTurn s a := by
  cases step_cases h with
  | start e hpc =>
    have hx := ((RepliesSequential.concat rfl).mp hs').2
    have hnot : e.sid ∉ Sequential.streams S₀ s.requests := by
      intro hc
      simp [Sequential.reply, hc] at hx
    rw [hi.streams] at hnot
    exact ⟨fun hc => hnot (.inl hc), fun hc => hnot (.inr (.inl hc))⟩
  | stopNone sid hpc hget =>
    intro hw
    have hx := ((RepliesSequential.concat rfl).mp hs').2
    have hin : sid ∈ Sequential.streams S₀ s.requests := (hi.streams sid).mpr (.inr (.inl hw))
    simp [Sequential.reply, hin] at hx
  | stopSome sid p hpc hget =>
    intro hw
    obtain ⟨hm, hq⟩ := findOne_some hget
    exact hi.waiting_absent sid hw (Store.mem_sids.mpr ⟨p, hm, byStream_iff.mp hq⟩)
  | _ => exact True.intro

/-- 応答が合っている run は、時機を外していない。 -/
theorem inTurn_of_replies {self : Nat} {store : Store} {procs : Procs} (hnd : store.sids.Nodup)
    (as : List Act) : ∀ s, Along step SpawnSucceeds (.boot self store procs) as →
      Infra.run step (.boot self store procs) as = some s → RepliesSequential store.sids s →
      Along step InTurn (.boot self store procs) as := by
  induction as using List.reverseRecOn with
  | nil => exact fun _ _ _ _ => trivial
  | append_singleton as a ih =>
    intro s hok hrun hs
    obtain ⟨u, hu, hstep⟩ := (run_concat_eq_some step).mp hrun
    have hok' := (Along.append.mp hok).1
    have hturn := ih u hok' hu (hs.of_step hstep)
    refine Along.append.mpr ⟨hturn, fun v hv => ?_⟩
    rw [hu] at hv
    cases hv
    exact ⟨(InOrder.run hnd hok' hturn hu).inTurn hstep hs, fun _ _ => trivial⟩

/--
**応えた順に効くのは、どの依頼も前の依頼が済んでから来るとき、そのときに限る。**

file の作成と fork が成功するどの run についても、応答と最後の記録が
一つずつ実行したときと同じであることと、時機を外した依頼が無いことは同値である。
-/
theorem outcome_sequential_iff (self : Nat) (store : Store) (procs : Procs)
    (hnd : store.sids.Nodup) (as : List Act) (s : State)
    (hok : Along step SpawnSucceeds (.boot self store procs) as)
    (hrun : Infra.run step (.boot self store procs) as = some s) :
    OutcomeSequential store.sids s ↔ Along step InTurn (.boot self store procs) as :=
  ⟨fun h => inTurn_of_replies hnd as s hok hrun h.1,
    fun h => (InOrder.run hnd hok h hrun).outcome⟩

theorem outcome_sequential_start_stop :
    ∃ s, Infra.run step (.boot 1 [] fun _ => none)
        (spawnRun (sampleInfo 97 0 0) 100 ++ [.stopRecord [97], .killRemove, .killSignal]) =
          some s ∧
      OutcomeSequential [] s :=
  ⟨_, rfl, (outcome_sequential_iff 1 [] (fun _ => none) List.nodup_nil
    (spawnRun (sampleInfo 97 0 0) 100 ++ [.stopRecord [97], .killRemove, .killSignal]) _ (by decide)
    rfl).mpr (by decide)⟩

/-- **起動の依頼が残っているうちの停止は「無い」と応え、録画は後から始まる。** -/
theorem stop_overtakes_start :
    ¬ ∀ (self : Nat) (store : Store) (procs : Procs) (as : List Act) (s : State),
      store.sids.Nodup → Along step SpawnSucceeds (.boot self store procs) as →
      Infra.run step (.boot self store procs) as = some s → OutcomeSequential store.sids s := by
  intro h
  have h₂ := (h 1 [] (fun _ => none)
    [.startRecord (sampleInfo 0 0 0) [97] [] [], .stopRecord [97], .queueTake, .queueCheck,
      .queueCreate (some (.ofBytes [])), .queueFork (some 100), .queueInsert] _ List.nodup_nil (by decide) rfl).1
  exact absurd h₂ (by decide)

end RecordServer.App
