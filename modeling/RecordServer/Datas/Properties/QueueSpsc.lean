import RecordServer.Datas.Properties.QueueSingle
import RecordServer.Datas.Properties.QueueFifo
import RecordServer.Infra.Linearize

/-!
# 積む thread と取り出す thread が一つずつの queue

`SINGLE` の queue を、enqueue する thread が一つ、dequeue する thread が一つで使う。二つの呼び出しが
どう混ざっても、呼び出しは、戻る一歩で一度に効いたのと同じである。満杯と空の判定も、その一歩で正しい。

* `Pc.call` / `returned` — 途中の呼び出しと、その戻り値
* `SpscInv` — 取り出す thread の読んだ `m_rdindex` は、戻るまで古くならない
* `spsc_micro` — 戻る一歩は、中身への一度の呼び出しであり、ほかの一歩は中身を変えない
* `linearizable` — どの run で戻った値も、戻った順に一つずつ呼んだ、長さの限られた FIFO の値である
-/

namespace RecordServer.Datas.TaskQueue

open Infra

variable {E : Type*}

/-! ## 呼び出しと戻り値 -/

/-- 途中の呼び出し。公開を待つ enqueue は、要素をもう持っていない。 -/
def Pc.call : Pc E → Option (Call E)
  | .enqLoadWr ele | .enqLoadRd ele _ | .enqCas ele _ | .enqStore ele _ | .enqAdd ele =>
    some (.enqueue ele)
  | .deqLoadRd | .deqLoadWr _ | .deqLoadSlot _ | .deqCas _ _ => some .dequeue
  | .idle _ | .enqPublish _ => none

/-- 戻ったところなら、その戻り値。 -/
def Pc.ret : Pc E → Option (Ret E)
  | .idle last => last
  | _ => none

/-- その一歩で戻った呼び出しと、戻り値。 -/
def returned {τ : Type*} (s : State τ E) (a : Act τ E) (s' : State τ E) :
    Option (Call E × Ret E) :=
  match a with
  | .advance t => (s.pc t).call.bind fun c => (s'.pc t).ret.map fun r => (c, r)
  | _ => none

/-- dequeue の途中か。 -/
def Pc.isDequeue : Pc E → Bool
  | .deqLoadRd | .deqLoadWr _ | .deqLoadSlot _ | .deqCas _ _ => true
  | _ => false

/-! ## 不変量 -/

/-- 取り出す thread の読んだ `m_rdindex` は、いまの値である。 -/
def TakerOk (q : Queue E) : Pc E → Prop
  | .deqLoadWr rd => rd = q.taken.length
  | .deqLoadSlot rd => rd = q.taken.length
  | .deqCas rd _ => rd = q.taken.length
  | _ => True

/-- queue に残っている要素。 -/
def remaining (q : Queue E) : List E := q.claimed.drop q.taken.length

theorem takerOk_of_not_dequeue {q : Queue E} {pc : Pc E} (h : pc.isDequeue = false) :
    TakerOk q pc := by
  cases pc with
  | deqLoadRd | deqLoadWr _ | deqLoadSlot _ | deqCas _ _ => simp [Pc.isDequeue] at h
  | _ => trivial

/-- 取り出さない一歩は、取り出す thread の local 変数を古くしない。 -/
theorem TakerOk.congr {q q' : Queue E} {pc : Pc E} (h : TakerOk q pc)
    (ht : q'.taken = q.taken) : TakerOk q' pc := by
  cases pc with
  | deqLoadWr rd => exact h.trans (by rw [ht])
  | deqLoadSlot rd => exact h.trans (by rw [ht])
  | deqCas rd ele => exact h.trans (by rw [ht])
  | _ => trivial

/-! ## 一歩と中身 -/

/-- 満杯と判定した enqueue には、本当に空きが無い。 -/
theorem Indices.full_of_isFull {q : Queue E} (h : Indices q)
    (hf : q.isFull q.claimed.length q.rdindex = true) (hmax : q.claimed.length + 1 < 2 ^ 32) :
    (remaining q).length = q.size - 1 := by
  have hle := h.le
  have hroom := h.room
  rw [Queue.isFull, u32_of_lt hmax, h.rd, beq_iff_eq] at hf
  unfold remaining
  rw [List.length_drop]
  by_contra hne
  exact mod_ne_of_lt (Nat.lt_succ_of_le hle) (by omega) hf.symm

/-- 空と判定した dequeue には、本当に要素が無い。 -/
theorem Indices.empty_of_isEmpty {q : Queue E} (h : Indices q)
    (he : q.isEmpty q.wrindex q.taken.length = true) : remaining q = [] := by
  have hle := h.le
  have hroom := h.room
  rw [Queue.isEmpty, h.wr, beq_iff_eq] at he
  refine List.drop_eq_nil_of_le ?_
  by_contra hlt
  exact mod_ne_of_lt (not_le.mp hlt) (by omega) he

theorem remaining_claim {q : Queue E} (h : Indices q) (ele : E) (n : Nat) :
    remaining { q with wrindex := n, claimed := q.claimed ++ [ele] } = remaining q ++ [ele] := by
  unfold remaining
  rw [List.drop_append_of_le_length h.le]

/-- 次の番の要素があれば、残りの先頭である。 -/
theorem remaining_cons {q : Queue E} {ele : E} (hget : q.claimed[q.taken.length]? = some ele) :
    remaining q = ele :: q.claimed.drop (q.taken.length + 1) := by
  obtain ⟨hlt, hele⟩ := List.getElem?_eq_some_iff.mp hget
  unfold remaining
  rw [List.drop_eq_getElem_cons hlt, hele]

/-- 一歩で戻った値。 -/
def microReturned (q : Queue E) (pc : Pc E) : Option (Call E × Ret E) :=
  pc.call.bind fun c => (micro .single q pc).2.ret.map fun r => (c, r)

/-- **戻る一歩は、残りの要素への一度の呼び出しであり、ほかの一歩は残りの要素を変えない。** -/
theorem spsc_micro {q : Queue E} {pc : Pc E} (hi : Indices q) (hp : ProducerOk q pc)
    (hc : ConsumerOk q pc) (ht : TakerOk q pc)
    (hmax : (micro .single q pc).1.claimed.length + 1 < 2 ^ 32) :
    Legal (Fifo.call (q.size - 1)) (remaining q) (microReturned q pc).toList
      (remaining (micro .single q pc).1) := by
  have hroom := hi.room
  have hle := hi.le
  cases pc with
  | idle last => exact .none _ _
  | enqLoadWr ele => exact .none _ _
  | enqLoadRd ele wr =>
    obtain rfl : wr = q.claimed.length := hp
    cases hf : q.isFull q.claimed.length q.rdindex with
    | true =>
      have hmax' : q.claimed.length + 1 < 2 ^ 32 := by simpa [micro, hf] using hmax
      have hfull := hi.full_of_isFull hf hmax'
      simp only [microReturned, micro, hf, if_true]
      refine .some ?_
      rw [Fifo.call, if_neg (by omega)]
    | false =>
      simp only [microReturned, micro, hf, Bool.false_eq_true, if_false]
      exact .none _ _
  | enqCas ele wr => exact hp.elim
  | enqStore ele wr => exact .none _ _
  | enqAdd ele =>
    obtain ⟨-, hroom'⟩ := hp
    simp only [micro, List.length_append, List.length_singleton] at hmax
    have hlen : (remaining q).length < q.size - 1 := by
      have := hroom' (by omega)
      unfold remaining
      rw [List.length_drop]
      omega
    refine .some ?_
    rw [Fifo.call, if_pos hlen]
    exact congrArg _ (remaining_claim hi ele _).symm
  | enqPublish wr => exact hp.elim
  | deqLoadRd => exact .none _ _
  | deqLoadWr rd =>
    obtain rfl : rd = q.taken.length := ht
    cases he : q.isEmpty q.wrindex q.taken.length with
    | true =>
      simp only [microReturned, micro, he, if_true]
      refine .some ?_
      rw [hi.empty_of_isEmpty he]
      rfl
    | false =>
      simp only [microReturned, micro, he, Bool.false_eq_true, if_false]
      exact .none _ _
  | deqLoadSlot rd => exact .none _ _
  | deqCas rd ele =>
    obtain rfl : rd = q.taken.length := ht
    have hget := hc.2 rfl
    simp only [microReturned, micro, if_pos hi.rd]
    refine .some ?_
    rw [remaining_cons hget]
    unfold remaining
    simp [Fifo.call]

/-- 取り出す thread が一つ進んでも、読んだ `m_rdindex` は古くならない。 -/
theorem TakerOk.micro {q : Queue E} {pc : Pc E} (hi : Indices q) (h : TakerOk q pc) :
    TakerOk (TaskQueue.micro .single q pc).1 (TaskQueue.micro .single q pc).2 := by
  cases pc with
  | enqLoadRd ele wr =>
    simp only [TaskQueue.micro]
    split <;> trivial
  | enqCas ele wr =>
    simp only [TaskQueue.micro]
    split <;> trivial
  | enqPublish wr =>
    simp only [TaskQueue.micro]
    split <;> trivial
  | deqLoadRd => exact hi.rd
  | deqLoadWr rd =>
    simp only [TaskQueue.micro]
    split
    · trivial
    · exact h
  | deqLoadSlot rd => exact h
  | deqCas rd ele =>
    simp only [TaskQueue.micro]
    split <;> trivial
  | _ => trivial

theorem micro_isDequeue {q : Queue E} {pc : Pc E} (h : pc.isDequeue = false) :
    (micro .single q pc).2.isDequeue = false ∧ (micro .single q pc).1.taken = q.taken := by
  cases pc with
  | enqLoadRd ele wr =>
    simp only [micro]
    split <;> exact ⟨rfl, rfl⟩
  | enqCas ele wr =>
    simp only [micro]
    split <;> exact ⟨rfl, rfl⟩
  | enqPublish wr =>
    simp only [micro]
    split <;> exact ⟨rfl, rfl⟩
  | deqLoadRd | deqLoadWr _ | deqLoadSlot _ | deqCas _ _ => simp [Pc.isDequeue] at h
  | _ => exact ⟨rfl, rfl⟩

/-! ## run -/

variable {τ : Type*}

/-- dequeue を始めるのは `c` だけである。 -/
def OnlyDequeuer (c : τ) (_ : State τ E) : Act τ E → Prop
  | .dequeue t => t = c
  | _ => True

/-- `p` だけが積み、`c` だけが取り出す `SINGLE` の queue の不変量。 -/
structure SpscInv (p c : τ) (s : State τ E) : Prop where
  single : SingleInv p s
  taker : TakerOk s.q (s.pc c)
  onlyTaker : ∀ t, t ≠ c → (s.pc t).isDequeue = false

theorem spscInv_init (p c : τ) (zero : E) {size : Nat} (hsize : 2 ≤ size) :
    SpscInv p c (init zero size) :=
  ⟨singleInv_init p zero hsize, trivial, fun _ _ => rfl⟩

variable [DecidableEq τ] {p c : τ} {s s' : State τ E} {a : Act τ E}

/-- 積む thread も取り出す thread も、local 変数は正しい。 -/
theorem SpscInv.locals (h : SpscInv p c s) (t : τ) :
    ProducerOk s.q (s.pc t) ∧ TakerOk s.q (s.pc t) := by
  refine ⟨?_, ?_⟩
  · by_cases htp : t = p
    · exact htp ▸ h.single.producer
    · exact producerOk_of_not_enqueue (h.single.only t htp)
  · by_cases htc : t = c
    · exact htc ▸ h.taker
    · exact takerOk_of_not_dequeue (h.onlyTaker t htc)

/-- 呼び出しを始めるだけの一歩。 -/
theorem SpscInv.start (h : SpscInv p c s) {t : τ} {pc : Pc E} (hsingle : SingleInv p s')
    (hq : s'.q = s.q) (hpc : s'.pc = Function.update s.pc t pc) (htaker : TakerOk s.q pc)
    (honly : t ≠ c → pc.isDequeue = false) : SpscInv p c s' := by
  refine ⟨hsingle, ?_, fun u hu => ?_⟩
  · rw [hq, hpc, Function.update_apply]
    split
    · exact htaker
    · exact h.taker
  · rw [hpc, Function.update_apply]
    split
    · rename_i hut
      exact honly (hut ▸ hu)
    · exact h.onlyTaker u hu

/-- 途中の呼び出しを一つ進める一歩。 -/
theorem SpscInv.advance (h : SpscInv p c s) {t : τ} (hsingle : SingleInv p s')
    (hq : s'.q = (micro .single s.q (s.pc t)).1)
    (hpc : s'.pc = Function.update s.pc t (micro .single s.q (s.pc t)).2) : SpscInv p c s' := by
  refine ⟨hsingle, ?_, fun u hu => ?_⟩
  · rw [hq, hpc, Function.update_apply]
    split
    · exact (h.locals t).2.micro h.single.indices
    · rename_i htc
      -- 進んだ thread は取り出す thread ではない。
      exact h.taker.congr (micro_isDequeue (h.onlyTaker t (Ne.symm htc))).2
  · rw [hpc, Function.update_apply]
    split
    · rename_i hut
      exact (micro_isDequeue (h.onlyTaker t (hut ▸ hu))).1
    · exact h.onlyTaker u hu

/-- **どの一歩も不変量を保ち、返した値は残りの要素への呼び出しの値である。** -/
theorem SpscInv.step (h : SpscInv p c s) (hp : OnlyEnqueuer p s a) (hc : OnlyDequeuer c s a)
    (hs : TaskQueue.step .single s a = some s') (hmax : s'.q.claimed.length + 1 < 2 ^ 32) :
    SpscInv p c s' ∧ Legal (Fifo.call (s.q.size - 1)) (remaining s.q) (returned s a s').toList
      (remaining s'.q) := by
  have hsingle := step_singleInv hp hs h.single (by omega)
  obtain ⟨t, ele, rfl, _, hq, hpc⟩ | ⟨t, rfl, _, hq, hpc⟩ | ⟨t, rfl, _, hq, hpc⟩ := step_cases hs
  · refine ⟨h.start hsingle hq hpc trivial fun _ => rfl, ?_⟩
    rw [hq]
    exact .none _ _
  · refine ⟨h.start hsingle hq hpc trivial fun hne => absurd hc hne, ?_⟩
    rw [hq]
    exact .none _ _
  · refine ⟨h.advance hsingle hq hpc, ?_⟩
    obtain ⟨hprod, htaker⟩ := h.locals t
    have hreturned : returned s (.advance t) s' = microReturned s.q (s.pc t) := by
      have hself : s'.pc t = (micro .single s.q (s.pc t)).2 := by rw [hpc, Function.update_self]
      simp only [returned, microReturned, hself]
    rw [hreturned, hq]
    exact spsc_micro h.single.indices hprod (h.single.consumer t) htaker (hq ▸ hmax)

/--
**積む thread と取り出す thread が一つずつなら、queue は長さの限られた FIFO に線形化できる。**

二つの呼び出しがどの順に混ざっても、戻った呼び出しを戻った順に並べて一つずつ呼ぶと、要素を高々
`m_size - 1` 個持つ FIFO と同じ値になる。積むのに成功した回数が `2 ^ 32 - 1` に満たない限り成り立つ。
-/
theorem linearizable (zero : E) {size : Nat} (hsize : 2 ≤ size) {as : List (Act τ E)}
    (honly : Along (TaskQueue.step .single) (fun s a => OnlyEnqueuer p s a ∧ OnlyDequeuer c s a)
      (init zero size) as)
    (hrun : run (TaskQueue.step .single) (init zero size) as = some s)
    (hmax : s.q.claimed.length + 1 < 2 ^ 32) :
    Legal (Fifo.call (size - 1)) [] (history (TaskQueue.step .single) returned (init zero size) as)
      (remaining s.q) := by
  have hmono : ∀ (s : State τ E) a s', TaskQueue.step .single s a = some s' →
      s.q.claimed.length ≤ s'.q.claimed.length := fun _ _ _ hs => step_claimed hs
  obtain ⟨hle, -⟩ := along_le hmono hrun
  refine (linearizes (v := fun s => remaining s.q)
    (I := fun s => SpscInv p c s ∧ s.q.size = size)
    (fun s a s' ha hs hI => ?_) (honly.and hle) hrun ⟨spscInv_init p c zero hsize, rfl⟩).2
  obtain ⟨⟨hp, hc⟩, hlt⟩ := ha
  obtain ⟨hinv, hlegal⟩ := hI.1.step hp hc hs (Nat.lt_of_le_of_lt (Nat.succ_le_succ (hlt s' hs)) hmax)
  exact ⟨⟨hinv, (step_size hs).trans hI.2⟩, hI.2 ▸ hlegal⟩

/-- 大きさ 2 の queue。thread 0 が 7 を積む間に thread 1 は空を見て、積み終えてから取り出す。 -/
def spscSchedule : List (Act Nat Nat) :=
  [.enqueue 0 7, .advance 0, .advance 0, .dequeue 1, .advance 1, .advance 1, .advance 0, .advance 0,
    .dequeue 1, .enqueue 0 8, .advance 0, .advance 0, .advance 1, .advance 1, .advance 1, .advance 1]

theorem linearizable_schedule :
    ∃ s, run (TaskQueue.step .single) (init 0 2) spscSchedule = some s ∧
      history (TaskQueue.step .single) returned (init 0 2) spscSchedule =
        [(.dequeue, .deq none), (.enqueue 7, .enq true), (.enqueue 8, .enq false),
          (.dequeue, .deq (some 7))] ∧
      Legal (Fifo.call 1) [] (history (TaskQueue.step .single) returned (init 0 2) spscSchedule)
        (remaining s.q) := by
  have honly : Along (TaskQueue.step .single)
      (fun s a => OnlyEnqueuer 0 s a ∧ OnlyDequeuer 1 s a) (init 0 2) spscSchedule := by
    simp [spscSchedule, Along, OnlyEnqueuer, OnlyDequeuer]
  exact ⟨_, rfl, rfl, linearizable 0 (by decide) honly rfl (by decide)⟩

end RecordServer.Datas.TaskQueue
