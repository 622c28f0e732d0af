import RecordServer.Datas.TaskQueueHistory

/-!
# 一つの thread だけが積む queue

`SINGLE` の queue を、enqueue する thread が一つ、dequeue する thread がいくつでも、
どの順に動かしてもよい。enqueue が古い `m_rdindex` を見ても、空きを少なく見積もるだけである。

* `SingleInv` — 全体の不変量
* `delivered_in_order` — `m_rdindex` を k 回目に進めた dequeue は、k 回目に成功した enqueue の要素を返す
-/

namespace RecordServer.Datas.TaskQueue

open Infra

variable {E : Type*}

/-! ## 不変量 -/

/-- enqueue する thread の local 変数。 -/
def ProducerOk (q : Queue E) : Pc E → Prop
  | .enqLoadRd _ wr => wr = q.claimed.length
  | .enqStore _ wr => wr = q.claimed.length ∧
      (q.claimed.length + 1 < 2 ^ 32 → q.claimed.length + 2 ≤ q.taken.length + q.size)
  | .enqAdd ele => q.elems (q.claimed.length % q.size) = ele ∧
      (q.claimed.length + 1 < 2 ^ 32 → q.claimed.length + 2 ≤ q.taken.length + q.size)
  | .enqCas _ _ => False
  | .enqPublish _ => False
  | _ => True

/-- dequeue が進んでも、enqueue の local 変数は正しいままである。 -/
theorem ProducerOk.consumer {q q' : Queue E} {pc pc₀ pc' : Pc E} (hp : ProducerOk q pc)
    (h : ConsumerStep q pc₀ q' pc') : ProducerOk q' pc := by
  have ht := h.taken
  cases pc with
  | enqLoadRd ele wr => exact hp.trans (by rw [h.claimed])
  | enqStore ele wr =>
    refine ⟨hp.1.trans (by rw [h.claimed]), fun hmax => ?_⟩
    rw [h.claimed] at hmax ⊢
    rw [h.size]
    exact le_trans (hp.2 hmax) (by omega)
  | enqAdd ele =>
    refine ⟨by rw [h.elems, h.claimed, h.size]; exact hp.1, fun hmax => ?_⟩
    rw [h.claimed] at hmax ⊢
    rw [h.size]
    exact le_trans (hp.2 hmax) (by omega)
  | enqCas _ _ => exact hp
  | enqPublish _ => exact hp
  | _ => trivial

theorem producerOk_of_not_enqueue {q : Queue E} {pc : Pc E} (h : pc.isEnqueue = false) :
    ProducerOk q pc := by
  cases pc with
  | idle _ | deqLoadRd | deqLoadWr _ | deqLoadSlot _ | deqCas _ _ => trivial
  | _ => simp [Pc.isEnqueue] at h

/-- enqueue が一つ進んだときに起こること。 -/
structure ProducerStep (q q' : Queue E) (pc' : Pc E) : Prop where
  indices : Indices q'
  slots : Slots q' fun _ => False
  producer : ProducerOk q' pc'
  claimed : q.claimed <+: q'.claimed
  taken : q'.taken = q.taken
  consumer : ConsumerOk q' pc'

/-- `SINGLE` の enqueue の一歩。 -/
theorem producer_micro {q : Queue E} {pc : Pc E} (hi : Indices q) (hs : Slots q fun _ => False)
    (hp : ProducerOk q pc) (hpc : pc.isEnqueue)
    (hmax : (micro .single q pc).1.claimed.length < 2 ^ 32) :
    ProducerStep q (micro .single q pc).1 (micro .single q pc).2 := by
  have same : ∀ pc', ProducerOk q pc' → ConsumerOk q pc' → ProducerStep q q pc' :=
    fun pc' hp' hc' => ⟨hi, hs, hp', List.prefix_rfl, rfl, hc'⟩
  cases pc with
  | enqLoadWr ele => exact same _ hi.wr trivial
  | enqLoadRd ele wr =>
    simp only [micro]
    split
    · exact same _ trivial trivial
    · rename_i hf
      refine same _ ⟨hp, fun hlt => ?_⟩ trivial
      rw [show wr = _ from hp] at hf
      exact hi.room_of_not_isFull (by simpa using hf) hlt
  | enqStore ele wr =>
    obtain ⟨rfl, hroom⟩ := hp
    have hr := hi.room
    refine ⟨⟨hi.wr, hi.rd, hi.le, hi.room, hi.order⟩, ?_, ⟨?_, hroom⟩, List.prefix_rfl, rfl, trivial⟩
    · -- 書き込む場所には、まだ渡していない要素は無い
      intro i e hle hget hp
      have hlt := (List.getElem?_eq_some_iff.mp hget).1
      simp only [micro] at hle hlt ⊢
      rw [Function.update_of_ne (mod_ne_of_lt hlt (by omega))]
      exact hs i e hle hget hp
    · exact Function.update_self _ _ _
  | enqAdd ele =>
    obtain ⟨hele, hroom⟩ := hp
    simp only [micro, List.length_append, List.length_singleton] at hmax
    refine ⟨hi.claim ele (hroom hmax) hmax, ?_, trivial, List.prefix_append _ _, rfl, trivial⟩
    intro i e hle hget hp
    simp only [micro] at hle hget ⊢
    rcases lt_trichotomy i q.claimed.length with hlt | heq | hgt
    · rw [List.getElem?_append_left hlt] at hget
      exact hs i e hle hget hp
    · rw [heq, List.getElem?_append_right le_rfl] at hget
      rw [heq, hele]
      simpa using hget
    · rw [List.getElem?_eq_none (by simp; omega)] at hget
      simp at hget
  | enqCas _ _ => exact hp.elim
  | enqPublish _ => exact hp.elim
  | idle _ | deqLoadRd | deqLoadWr _ | deqLoadSlot _ | deqCas _ _ => simp [Pc.isEnqueue] at hpc

variable {τ : Type*}

/-- `p` だけが enqueue する `SINGLE` の queue の不変量。 -/
structure SingleInv (p : τ) (s : State τ E) : Prop where
  indices : Indices s.q
  slots : Slots s.q fun _ => False
  producer : ProducerOk s.q (s.pc p)
  consumer : ∀ t, ConsumerOk s.q (s.pc t)
  only : ∀ t, t ≠ p → (s.pc t).isEnqueue = false

/-- enqueue を始めるのは `p` だけである。 -/
def OnlyEnqueuer (p : τ) (_ : State τ E) : Act τ E → Prop
  | .enqueue t _ => t = p
  | _ => True

theorem singleInv_init (p : τ) (zero : E) {size : Nat} (hsize : 2 ≤ size) :
    SingleInv p (init zero size) where
  indices := ⟨rfl, rfl, le_rfl, by simp [init, Queue.queueInit]; omega, rfl⟩
  slots := by simp [Slots, init, Queue.queueInit]
  producer := trivial
  consumer := fun _ => trivial
  only := fun _ _ => rfl

variable [DecidableEq τ] {p : τ} {s s' : State τ E} {a : Act τ E}

/-- 呼び出しを始めるだけの一歩。 -/
theorem SingleInv.start (h : SingleInv p s) {t : τ} {pc : Pc E} (hq : s'.q = s.q)
    (hpc : s'.pc = Function.update s.pc t pc) (hprod : ProducerOk s.q pc) (hcons : ConsumerOk s.q pc)
    (honly : t ≠ p → pc.isEnqueue = false) : SingleInv p s' := by
  have hother : ∀ u, u ≠ t → s'.pc u = s.pc u := fun u hu => by rw [hpc, Function.update_of_ne hu]
  have hself : s'.pc t = pc := by rw [hpc, Function.update_self]
  refine ⟨hq ▸ h.indices, hq ▸ h.slots, ?_, fun u => ?_, fun u hu => ?_⟩
  · rw [hq]
    by_cases htp : p = t
    · rw [htp, hself]
      exact hprod
    · rw [hother p htp]
      exact h.producer
  · rw [hq]
    by_cases hut : u = t
    · rw [hut, hself]
      exact hcons
    · rw [hother u hut]
      exact h.consumer u
  · by_cases hut : u = t
    · subst hut
      rw [hself]
      exact honly hu
    · rw [hother u hut]
      exact h.only u hu

/-- 途中の呼び出しを一つ進める一歩。 -/
theorem SingleInv.advance (h : SingleInv p s) {t : τ} (hq : s'.q = (micro .single s.q (s.pc t)).1)
    (hpc : s'.pc = Function.update s.pc t (micro .single s.q (s.pc t)).2)
    (hmax : s'.q.claimed.length < 2 ^ 32) : SingleInv p s' := by
  have hother : ∀ u, u ≠ t → s'.pc u = s.pc u := fun u hu => by rw [hpc, Function.update_of_ne hu]
  have hself : s'.pc t = (micro .single s.q (s.pc t)).2 := by rw [hpc, Function.update_self]
  have hmax₀ : s.q.claimed.length < 2 ^ 32 :=
    lt_of_le_of_lt (hq ▸ (micro_claimed .single s.q (s.pc t)).length_le) hmax
  by_cases henq : (s.pc t).isEnqueue
  · -- enqueue しているのは `p` である
    have htp : t = p := by
      by_contra hne
      rw [h.only t hne] at henq
      simp at henq
    subst htp
    have hstep := producer_micro h.indices h.slots h.producer henq (hq ▸ hmax)
    rw [← hq, ← hself] at hstep
    refine ⟨hstep.indices, hstep.slots, hstep.producer, fun u => ?_, fun u hu => ?_⟩
    · by_cases hut : u = t
      · rw [hut]
        exact hstep.consumer
      · rw [hother u hut]
        exact (h.consumer u).mono hstep.claimed (by rw [hstep.taken])
    · rw [hother u hu]
      exact h.only u hu
  · have hstep := consumer_micro .single h.indices h.slots (h.consumer t) (by simpa using henq)
      (fun _ _ _ hc => hc) hmax₀
    rw [← hq, ← hself] at hstep
    refine ⟨hstep.indices, h.slots.consumer hstep, ?_, fun u => ?_, fun u hu => ?_⟩
    · by_cases htp : p = t
      · rw [htp]
        exact producerOk_of_not_enqueue hstep.notEnqueue
      · rw [hother p htp]
        exact h.producer.consumer hstep
    · by_cases hut : u = t
      · rw [hut]
        exact hstep.consumer
      · rw [hother u hut]
        exact (h.consumer u).mono (hstep.claimed ▸ List.prefix_rfl) hstep.taken
    · by_cases hut : u = t
      · rw [hut]
        exact hstep.notEnqueue
      · rw [hother u hut]
        exact h.only u hu

theorem step_singleInv (ha : OnlyEnqueuer p s a) (hs : step .single s a = some s')
    (h : SingleInv p s) (hmax : s'.q.claimed.length < 2 ^ 32) : SingleInv p s' := by
  obtain ⟨t, ele, rfl, _, hq, hpc⟩ | ⟨t, rfl, _, hq, hpc⟩ | ⟨t, rfl, _, hq, hpc⟩ := step_cases hs
  · exact h.start hq hpc trivial trivial fun hne => absurd ha hne
  · exact h.start hq hpc trivial trivial fun _ => rfl
  · exact h.advance hq hpc hmax

/-- 積んだ要素が 2^32 個に満たない run では、不変量が成り立つ。 -/
theorem run_singleInv {zero : E} {size : Nat} (hsize : 2 ≤ size) {as : List (Act τ E)}
    (honly : Along (step .single) (OnlyEnqueuer p) (init zero size) as)
    (hrun : run (step .single) (init zero size) as = some s) (hmax : s.q.claimed.length < 2 ^ 32) :
    SingleInv p s ∧ s.q.size = size := by
  have hinv := run_invariant
    (I := fun s : State τ E => (s.q.claimed.length < 2 ^ 32 → SingleInv p s) ∧ s.q.size = size)
    (fun u a u' ha hs hu => ⟨fun hlt => step_singleInv ha hs
      (hu.1 (lt_of_le_of_lt (step_claimed hs) hlt)) hlt, (step_size hs).trans hu.2⟩)
    honly hrun ⟨fun _ => singleInv_init p zero hsize, rfl⟩
  exact ⟨hinv.1 hmax, hinv.2⟩

/--
**どの要素も一度だけ、積んだ順に渡る。**

一つの thread `p` だけが enqueue する `SINGLE` の queue では、成功した enqueue が 2^32 回に満たない
限り、どの順に動かしても、k 回目に `m_rdindex` を進めた dequeue は k 回目に成功した enqueue の要素を返す。
index の差はいつも 0 以上 `m_size - 1` 以下である。
-/
theorem delivered_in_order {zero : E} {size : Nat} (hsize : 2 ≤ size) {as : List (Act τ E)}
    (honly : Along (step .single) (OnlyEnqueuer p) (init zero size) as)
    (hrun : run (step .single) (init zero size) as = some s) (hmax : s.q.claimed.length < 2 ^ 32) :
    s.q.taken = s.q.claimed.take s.q.taken.length ∧
    s.q.rdindex = s.q.taken.length ∧ s.q.wrindex = s.q.claimed.length ∧
    s.q.rdindex ≤ s.q.wrindex ∧ s.q.wrindex - s.q.rdindex ≤ size - 1 ∧
    ∀ t s', step .single s (.advance t) = some s' → s'.q.rdindex ≠ s.q.rdindex →
      ∃ ele, s.q.claimed[s.q.taken.length]? = some ele ∧
        s'.pc t = .idle (some (.deq (some ele))) ∧ s'.q.taken = s.q.taken ++ [ele] := by
  obtain ⟨h, hsz⟩ := run_singleInv hsize honly hrun hmax
  obtain ⟨hwr, hrd, hle, hroom, horder⟩ := h.indices
  refine ⟨horder, hrd, hwr, by omega, by omega, fun t s' hs hne => delivers h.indices (h.consumer t) hs hne⟩

/-- thread 0 が積む途中に thread 1 が空を見て、積み終えてから thread 2 が取り出す。 -/
def singleSchedule : List (Act Nat Nat) :=
  [.enqueue 0 7, .advance 0, .advance 0, .advance 0, .dequeue 1, .advance 1, .advance 1, .advance 0,
    .dequeue 2, .advance 2, .advance 2, .advance 2, .advance 2]

theorem delivered_in_order_schedule :
    ∃ s, run (step .single) (init 0 2) singleSchedule = some s ∧ s.q.claimed = [7] ∧
      s.pc 1 = .idle (some (.deq none)) ∧ s.pc 2 = .idle (some (.deq (some 7))) ∧
      s.q.taken = s.q.claimed.take s.q.taken.length ∧ s.q.wrindex - s.q.rdindex ≤ 2 - 1 := by
  have honly : Along (step .single) (OnlyEnqueuer 0) (init 0 2) singleSchedule := by
    simp [singleSchedule, Along, OnlyEnqueuer]
  have h := delivered_in_order (by decide) honly rfl (by decide)
  exact ⟨_, rfl, rfl, rfl, rfl, h.1, h.2.2.2.2.1⟩

end RecordServer.Datas.TaskQueue
