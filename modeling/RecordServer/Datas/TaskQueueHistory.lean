import RecordServer.Datas.TaskQueue

/-!
# queue の index と履歴

`SINGLE` と `MULTI` の dequeue は同じ文面なので、dequeue の一歩についての補題をここで一度だけ示す。
要素の場所を読んでから CAS で index を進めるので、CAS の成功は、読んだときから
`m_rdindex` が動いていないことを保証する。

* `Indices` — index と履歴の対応
* `Slots` — まだ渡していない要素の場所
* `ConsumerOk` — dequeue の途中の local 変数
* `consumer_micro` — dequeue の一歩が保つもの
* `delivers` — `m_rdindex` を進めた一歩は、次の番の要素を渡す
-/

namespace RecordServer.Datas.TaskQueue

open Infra

variable {E : Type*}

/-- index は履歴の長さで、間隔は `m_size - 1` を超えず、渡した要素は積んだ要素の始めの部分である。 -/
structure Indices (q : Queue E) : Prop where
  wr : q.wrindex = q.claimed.length
  rd : q.rdindex = q.taken.length
  le : q.taken.length ≤ q.claimed.length
  room : q.claimed.length + 1 ≤ q.taken.length + q.size
  order : q.taken = q.claimed.take q.taken.length

/-- 積まれて渡していない要素は、場所 `i % m_size` にある。`pending` は書き込みがまだの index である。 -/
def Slots (q : Queue E) (pending : Nat → Prop) : Prop :=
  ∀ i e, q.taken.length ≤ i → q.claimed[i]? = some e → ¬ pending i → q.elems (i % q.size) = e

/-- dequeue の途中の local 変数。渡す要素は、CAS が成功するときには正しい。 -/
def ConsumerOk (q : Queue E) : Pc E → Prop
  | .deqLoadWr rd => rd ≤ q.taken.length
  | .deqLoadSlot rd => rd ≤ q.taken.length ∧ (rd = q.taken.length → rd < q.claimed.length)
  | .deqCas rd ele => rd ≤ q.taken.length ∧ (rd = q.taken.length → q.claimed[rd]? = some ele)
  | _ => True

/-- enqueue の途中か。 -/
def Pc.isEnqueue : Pc E → Bool
  | .enqLoadWr _ | .enqLoadRd _ _ | .enqCas _ _ | .enqStore _ _ | .enqAdd _ | .enqPublish _ => true
  | _ => false

/-- 他の thread が履歴を伸ばしても、dequeue の local 変数は正しいままである。 -/
theorem ConsumerOk.mono {q q' : Queue E} {pc : Pc E} (h : ConsumerOk q pc)
    (hc : q.claimed <+: q'.claimed) (ht : q.taken.length ≤ q'.taken.length) :
    ConsumerOk q' pc := by
  have hlen := hc.length_le
  cases pc with
  | deqLoadWr rd => exact le_trans h ht
  | deqLoadSlot rd =>
    refine ⟨le_trans h.1 ht, fun heq => ?_⟩
    have hlt := h.2 (le_antisymm h.1 (heq ▸ ht))
    omega
  | deqCas rd ele =>
    refine ⟨le_trans h.1 ht, fun heq => ?_⟩
    have hget := h.2 (le_antisymm h.1 (heq ▸ ht))
    obtain ⟨rest, hrest⟩ := hc
    rw [← hrest, List.getElem?_append_left (List.getElem?_eq_some_iff.mp hget).1]
    exact hget
  | _ => trivial

/-- `m_rdindex` の CAS が成功したときの index と履歴。 -/
theorem Indices.take {q : Queue E} (h : Indices q) {ele : E}
    (hget : q.claimed[q.taken.length]? = some ele) (hmax : q.claimed.length < 2 ^ 32) :
    Indices { q with rdindex := u32 (q.rdindex + 1), taken := q.taken ++ [ele] } := by
  obtain ⟨hlt, hele⟩ := List.getElem?_eq_some_iff.mp hget
  have hroom := h.room
  refine ⟨h.wr, ?_, ?_, ?_, ?_⟩
  · simp only [List.length_append, List.length_singleton, h.rd]
    exact u32_of_lt (by omega)
  · simp only [List.length_append, List.length_singleton]
    omega
  · simp only [List.length_append, List.length_singleton]
    omega
  · simp only [List.length_append, List.length_singleton]
    rw [List.take_add_one, hget, ← h.order]
    rfl

/-- `m_wrindex` を進めたときの index と履歴。 -/
theorem Indices.claim {q : Queue E} (h : Indices q) (ele : E)
    (hroom : q.claimed.length + 2 ≤ q.taken.length + q.size)
    (hmax : q.claimed.length + 1 < 2 ^ 32) :
    Indices { q with wrindex := u32 (q.wrindex + 1), claimed := q.claimed ++ [ele] } := by
  have hle := h.le
  refine ⟨?_, h.rd, ?_, ?_, ?_⟩
  · simp only [List.length_append, List.length_singleton, h.wr]
    exact u32_of_lt hmax
  · simp only [List.length_append, List.length_singleton]
    omega
  · simp only [List.length_append, List.length_singleton]
    omega
  · rw [List.take_append_of_le_length hle]
    exact h.order

/-- 空でないと判定した dequeue の index は積まれている。 -/
theorem Indices.lt_of_not_isEmpty {q : Queue E} (h : Indices q)
    (he : q.isEmpty q.wrindex q.taken.length = false) : q.taken.length < q.claimed.length := by
  refine lt_of_le_of_ne h.le fun heq => ?_
  rw [Queue.isEmpty, h.wr, ← heq] at he
  simp at he

/-- 満杯でないと判定した enqueue には空きがある。 -/
theorem Indices.room_of_not_isFull {q : Queue E} (h : Indices q)
    (hf : q.isFull q.claimed.length q.rdindex = false) (hmax : q.claimed.length + 1 < 2 ^ 32) :
    q.claimed.length + 2 ≤ q.taken.length + q.size := by
  by_contra hc
  have hroom := h.room
  have heq : q.claimed.length + 1 = q.taken.length + q.size := by omega
  rw [Queue.isFull, u32_of_lt hmax, heq, h.rd] at hf
  simp at hf

/-- 積んでいない dequeue が一つ進んだときに起こること。 -/
structure ConsumerStep (q : Queue E) (pc : Pc E) (q' : Queue E) (pc' : Pc E) : Prop where
  indices : Indices q'
  claimed : q'.claimed = q.claimed
  taken : q.taken.length ≤ q'.taken.length
  grew : q'.taken.length = q.taken.length ∨
    (q'.taken.length = q.taken.length + 1 ∧ ∃ ele, pc = .deqCas q.taken.length ele)
  read : ∀ rd ele, pc' = .deqCas rd ele → pc = .deqLoadSlot rd
  elems : q'.elems = q.elems
  size : q'.size = q.size
  consumer : ConsumerOk q' pc'
  notEnqueue : pc'.isEnqueue = false

/--
dequeue の一歩。

`pending` は書き込みがまだの index で、CAS が成功しうる dequeue がその場所を読むのでなければよい。
-/
theorem consumer_micro (mode : Mode) {q : Queue E} {pc : Pc E} {pending : Nat → Prop}
    (hi : Indices q) (hs : Slots q pending) (hc : ConsumerOk q pc) (hpc : pc.isEnqueue = false)
    (hread : ∀ rd, pc = .deqLoadSlot rd → rd = q.taken.length → ¬ pending rd)
    (hmax : q.claimed.length < 2 ^ 32) :
    ConsumerStep q pc (micro mode q pc).1 (micro mode q pc).2 := by
  have same : ∀ pc', ConsumerOk q pc' → pc'.isEnqueue = false →
      (∀ rd ele, pc' = .deqCas rd ele → pc = .deqLoadSlot rd) → ConsumerStep q pc q pc' :=
    fun pc' hc' hn hr => ⟨hi, rfl, le_rfl, .inl rfl, hr, rfl, rfl, hc', hn⟩
  cases pc with
  | idle last => exact same _ trivial rfl (by simp [micro])
  | deqLoadRd => exact same _ hi.rd.le rfl (by simp [micro])
  | deqLoadWr rd =>
    simp only [micro]
    split
    · exact same _ trivial rfl (by simp)
    · rename_i he
      refine same _ ⟨hc, fun heq => ?_⟩ rfl (by simp)
      rw [heq] at he ⊢
      exact hi.lt_of_not_isEmpty (by simpa using he)
  | deqLoadSlot rd =>
    refine same _ ⟨hc.1, fun heq => ?_⟩ rfl (by simp [micro])
    have hget := List.getElem?_eq_getElem (hc.2 heq)
    rw [hs rd _ heq.ge hget (hread rd rfl heq)]
    exact hget
  | deqCas rd ele =>
    simp only [micro]
    split
    · rename_i hcas
      have hrd : rd = q.taken.length := hcas.symm.trans hi.rd
      have hget := hc.2 hrd
      rw [hrd] at hget
      have htake := hi.take hget hmax
      rw [hcas] at htake
      exact ⟨htake, rfl, by simp, .inr ⟨by simp, ele, by rw [hrd]⟩, by simp, rfl, rfl, trivial, rfl⟩
    · exact same _ trivial rfl (by simp)
  | enqLoadWr _ | enqLoadRd _ _ | enqCas _ _ | enqStore _ _ | enqAdd _ | enqPublish _ =>
    simp [Pc.isEnqueue] at hpc

/-- 渡していない要素の場所は、dequeue が進んでも変わらない。 -/
theorem Slots.consumer {q q' : Queue E} {pc pc' : Pc E} {pending : Nat → Prop}
    (hs : Slots q pending) (h : ConsumerStep q pc q' pc') : Slots q' pending := by
  intro i e hle hget hp
  rw [h.claimed] at hget
  rw [h.elems, h.size]
  exact hs i e (le_trans h.taken hle) hget hp

/-! ## 渡す要素 -/

section

variable {τ : Type*} [DecidableEq τ] {s s' : State τ E}

/-- `m_rdindex` を進める一歩は、dequeue の CAS だけである。 -/
theorem deqCas_of_rdindex_ne {mode : Mode} {t : τ} (hi : Indices s.q)
    (hs : step mode s (.advance t) = some s') (hrd : s'.q.rdindex ≠ s.q.rdindex) :
    ∃ ele, s.pc t = .deqCas s.q.taken.length ele := by
  obtain ⟨t', _, ha, _⟩ | ⟨t', ha, _⟩ | ⟨t', ha, _, hq, _⟩ := step_cases hs
  · simp at ha
  · simp at ha
  · obtain rfl : t = t' := by simpa using ha
    cases hp : s.pc t with
    | deqCas rd ele =>
      rw [hp] at hq
      simp only [micro] at hq
      split at hq
      · rename_i hcas
        exact ⟨ele, by rw [← hi.rd, hcas]⟩
      · exact absurd (by rw [hq]) hrd
    | _ =>
      exfalso
      apply hrd
      rw [hq, hp]
      simp only [micro]
      repeat' split
      all_goals rfl

/-- `m_rdindex` を進めた一歩は、その dequeue に、次の番の要素を渡す。 -/
theorem delivers {mode : Mode} {t : τ} (hi : Indices s.q) (hcons : ConsumerOk s.q (s.pc t))
    (hs : step mode s (.advance t) = some s') (hrd : s'.q.rdindex ≠ s.q.rdindex) :
    ∃ ele, s.q.claimed[s.q.taken.length]? = some ele ∧
      s'.pc t = .idle (some (.deq (some ele))) ∧ s'.q.taken = s.q.taken ++ [ele] := by
  obtain ⟨ele, hp⟩ := deqCas_of_rdindex_ne hi hs hrd
  obtain ⟨t', _, ha, _⟩ | ⟨t', ha, _⟩ | ⟨t', ha, _, hq, hpc⟩ := step_cases hs
  · simp at ha
  · simp at ha
  · obtain rfl : t = t' := by simpa using ha
    rw [hp] at hcons hq hpc
    simp only [micro, if_pos hi.rd] at hq hpc
    refine ⟨ele, hcons.2 rfl, ?_, ?_⟩
    · rw [hpc, Function.update_self]
    · rw [hq]

end

end RecordServer.Datas.TaskQueue
