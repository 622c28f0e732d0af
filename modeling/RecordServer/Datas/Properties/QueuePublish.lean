import RecordServer.Datas.TaskQueue
import RecordServer.Infra.Linearize

/-!
# 取った index の公開

`MULTI` の enqueue は、`m_wrindex` を進めて index を取り、場所に書いてから、`m_max_rdindex` がその index に
なるまで待って一つ進める。前の index を取った thread を待つだけなので、待ち合いの輪はできない。

* `Holding` — index を取り、まだ公開していない
* `PublishInv` — 公開していない index は、それぞれ一つの thread が持っている
* `PublishInv.publish` — 最も前の index を持つ thread は、二歩以内に公開して戻る
* `enqueues_can_finish` — どの状態からも、index を持つ thread だけを動かして、全部の enqueue が戻れる
-/

namespace RecordServer.Datas.TaskQueue

open Infra

variable {E τ : Type*}

/-- `t` は index `i` を取り、まだ公開していない。 -/
def Holding (s : State τ E) (t : τ) (i : Nat) : Prop :=
  (∃ ele, s.pc t = .enqStore ele i) ∨ s.pc t = .enqPublish i

/-- index を持つ場所。 -/
def Pc.held : Pc E → Option Nat
  | .enqStore _ i => some i
  | .enqPublish i => some i
  | _ => none

theorem held_of_isIdle {pc : Pc E} (h : pc.isIdle) : pc.held = none := by
  cases pc with
  | enqStore _ _ | enqPublish _ => simp [Pc.isIdle] at h
  | _ => rfl

theorem holding_iff {s : State τ E} {t : τ} {i : Nat} :
    Holding s t i ↔ (s.pc t).held = some i := by
  unfold Holding
  cases s.pc t <;> simp [Pc.held]

/-- `m_max_rdindex` から `m_wrindex` までの index は、それぞれ一つの thread が持つ。 -/
structure PublishInv (s : State τ E) : Prop where
  wr : s.q.wrindex = s.q.claimed.length
  le : s.q.maxRdindex ≤ s.q.wrindex
  within : ∀ t i, Holding s t i → s.q.maxRdindex ≤ i ∧ i < s.q.wrindex
  holder : ∀ i, s.q.maxRdindex ≤ i → i < s.q.wrindex → ∃ t, Holding s t i
  single : ∀ t u i, Holding s t i → Holding s u i → t = u
  add : ∀ t ele, s.pc t ≠ .enqAdd ele

theorem publishInv_init (zero : E) (size : Nat) : PublishInv (init zero size : State τ E) := by
  have hnone : ∀ t i, ¬ Holding (init zero size : State τ E) t i := by
    intro t i h
    rw [holding_iff] at h
    cases h
  refine ⟨rfl, le_rfl, fun t i h => absurd h (hnone t i), fun i hle hlt => ?_,
    fun t u i h => absurd h (hnone t i), by simp [init]⟩
  exact absurd hlt (Nat.not_lt_zero i)

section

variable [DecidableEq τ] {s s' : State τ E} {t : τ} {pc : Pc E} {a : Act τ E}

theorem add_update (h : PublishInv s) (hpc : s'.pc = Function.update s.pc t pc)
    (hadd : ∀ ele, pc ≠ .enqAdd ele) (u : τ) (ele : E) : s'.pc u ≠ .enqAdd ele := by
  rw [hpc, Function.update_apply]
  split
  · exact hadd ele
  · exact h.add u ele

theorem holding_update (hpc : s'.pc = Function.update s.pc t pc) {u : τ} {i : Nat} :
    Holding s' u i ↔ if u = t then pc.held = some i else Holding s u i := by
  rw [holding_iff, hpc, Function.update_apply]
  split
  · rfl
  · exact holding_iff.symm

/-- index の持ち主も `m_wrindex` も `m_max_rdindex` も変わらない一歩。 -/
theorem PublishInv.keep (h : PublishInv s) (hpc : s'.pc = Function.update s.pc t pc)
    (hheld : pc.held = (s.pc t).held) (hwr : s'.q.wrindex = s.q.wrindex)
    (hmax : s'.q.maxRdindex = s.q.maxRdindex) (hclaimed : s'.q.claimed = s.q.claimed)
    (hadd : ∀ ele, pc ≠ .enqAdd ele) : PublishInv s' := by
  have hsame : ∀ u i, Holding s' u i ↔ Holding s u i := by
    intro u i
    rw [holding_update hpc]
    split
    · rename_i heq
      rw [hheld, heq, holding_iff]
    · rfl
  refine ⟨by rw [hwr, hclaimed, h.wr], by rw [hwr, hmax]; exact h.le, fun u i hu => ?_,
    fun i hle hlt => ?_, fun u v i hu hv => ?_, add_update h hpc hadd⟩
  · rw [hwr, hmax]
    exact h.within u i ((hsame u i).mp hu)
  · rw [hmax] at hle
    rw [hwr] at hlt
    obtain ⟨u, hu⟩ := h.holder i hle hlt
    exact ⟨u, (hsame u i).mpr hu⟩
  · exact h.single u v i ((hsame u i).mp hu) ((hsame v i).mp hv)

/-- index を取る一歩。 -/
theorem PublishInv.claim (h : PublishInv s) {ele : E} (hfree : (s.pc t).held = none)
    (hpc : s'.pc = Function.update s.pc t (.enqStore ele s.q.wrindex))
    (hwr : s'.q.wrindex = s.q.wrindex + 1) (hmax : s'.q.maxRdindex = s.q.maxRdindex)
    (hclaimed : s'.q.claimed = s.q.claimed ++ [ele]) : PublishInv s' := by
  have hle := h.le
  have hwr₀ := h.wr
  refine ⟨?_, by omega, fun u i hu => ?_, fun i hlo hlt => ?_, fun u v i hu hv => ?_,
    add_update h hpc (by simp)⟩
  · rw [hwr, hclaimed, List.length_append, List.length_singleton, hwr₀]
  · rw [holding_update hpc] at hu
    split at hu
    · obtain rfl := Option.some.inj hu
      omega
    · have hin := h.within u i hu
      omega
  · by_cases hi : i = s.q.wrindex
    · refine ⟨t, (holding_update hpc).mpr ?_⟩
      rw [if_pos rfl, hi]
      rfl
    · obtain ⟨u, hu⟩ := h.holder i (hmax ▸ hlo) (by omega)
      refine ⟨u, (holding_update hpc).mpr ?_⟩
      rw [if_neg]
      · exact hu
      · rintro rfl
        rw [holding_iff, hfree] at hu
        cases hu
  · rw [holding_update hpc] at hu hv
    split at hu <;> split at hv
    · rename_i hut hvt
      rw [hut, hvt]
    · obtain rfl := Option.some.inj hu
      exact absurd (h.within v _ hv).2 (lt_irrefl _)
    · obtain rfl := Option.some.inj hv
      exact absurd (h.within u _ hu).2 (lt_irrefl _)
    · exact h.single u v i hu hv

omit [DecidableEq τ] in
theorem PublishInv.next_lt (h : PublishInv s) {i : Nat} (ht : s.pc t = .enqPublish i)
    (hmax : s.q.claimed.length < 2 ^ 32) : i + 1 < 2 ^ 32 := by
  have hin := h.within t i (.inr ht)
  have hwr := h.wr
  omega

/-- 最も前の index を公開する一歩。 -/
theorem PublishInv.published (h : PublishInv s) (ht : s.pc t = .enqPublish s.q.maxRdindex)
    {last : Option (Ret E)} (hpc : s'.pc = Function.update s.pc t (.idle last))
    (hwr : s'.q.wrindex = s.q.wrindex) (hmax : s'.q.maxRdindex = s.q.maxRdindex + 1)
    (hclaimed : s'.q.claimed = s.q.claimed) : PublishInv s' := by
  have hown : Holding s t s.q.maxRdindex := .inr ht
  have hin := h.within t _ hown
  have hne : ∀ u i, Holding s' u i → u ≠ t ∧ Holding s u i := by
    intro u i hu
    rw [holding_update hpc] at hu
    split at hu
    · cases hu
    · exact ⟨‹_›, hu⟩
  refine ⟨by rw [hwr, hclaimed, h.wr], by omega, fun u i hu => ?_, fun i hlo hlt => ?_,
    fun u v i hu hv => h.single u v i (hne u i hu).2 (hne v i hv).2, add_update h hpc (by simp)⟩
  · obtain ⟨hut, hu⟩ := hne u i hu
    have hi := h.within u i hu
    have hdiff : i ≠ s.q.maxRdindex := by
      rintro rfl
      exact hut (h.single u t _ hu hown)
    omega
  · obtain ⟨u, hu⟩ := h.holder i (by omega) (by omega)
    refine ⟨u, (holding_update hpc).mpr ?_⟩
    rw [if_neg]
    · exact hu
    · rintro rfl
      rw [holding_iff, ht] at hu
      have heq := Option.some.inj hu
      omega

/-- **どの一歩も、公開していない index の持ち主を一つに保つ。** -/
theorem PublishInv.step (h : PublishInv s) (hs : TaskQueue.step .multi s a = some s')
    (hmax : s'.q.claimed.length < 2 ^ 32) : PublishInv s' := by
  obtain ⟨t, ele, rfl, hi, hq, hpc⟩ | ⟨t, rfl, hi, hq, hpc⟩ | ⟨t, rfl, _, hq, hpc⟩ := step_cases hs
  · exact h.keep hpc (held_of_isIdle hi).symm (by rw [hq]) (by rw [hq]) (by rw [hq]) (by simp)
  · exact h.keep hpc (held_of_isIdle hi).symm (by rw [hq]) (by rw [hq]) (by rw [hq]) (by simp)
  · cases hp : s.pc t with
    | enqLoadRd ele wr =>
      rw [hp] at hq hpc
      simp only [micro] at hq hpc
      split at hpc
      all_goals
        rename_i hf
        simp only [hf, if_true, if_false, Bool.false_eq_true] at hq
        exact h.keep hpc (by rw [hp]; rfl) (by rw [hq]) (by rw [hq]) (by rw [hq]) (by simp)
    | enqCas ele wr =>
      rw [hp] at hq hpc
      simp only [micro] at hq hpc
      by_cases hcas : s.q.wrindex = wr
      · rw [if_pos hcas] at hq hpc
        subst hcas
        have hlt : s.q.wrindex + 1 < 2 ^ 32 := by
          rw [h.wr]
          simpa [hq] using hmax
        exact h.claim (by rw [hp]; rfl) hpc (by rw [hq]; exact u32_of_lt hlt) (by rw [hq]) (by rw [hq])
      · rw [if_neg hcas] at hq hpc
        exact h.keep hpc (by rw [hp]; rfl) (by rw [hq]) (by rw [hq]) (by rw [hq]) (by simp)
    | enqAdd ele => exact absurd hp (h.add t ele)
    | enqPublish wr =>
      rw [hp] at hq hpc
      simp only [micro] at hq hpc
      by_cases hcas : s.q.maxRdindex = wr
      · rw [if_pos hcas] at hq hpc
        subst hcas
        exact h.published hp hpc (by rw [hq])
          (by rw [hq]; exact u32_of_lt (h.next_lt hp (by simpa [hq] using hmax))) (by rw [hq])
      · rw [if_neg hcas] at hq hpc
        exact h.keep hpc (by rw [hp]) (by rw [hq]) (by rw [hq]) (by rw [hq]) (by simp)
    | deqLoadWr rd =>
      rw [hp] at hq hpc
      simp only [micro] at hq hpc
      split at hpc
      all_goals
        rename_i he
        simp only [he, if_true, if_false, Bool.false_eq_true] at hq
        exact h.keep hpc (by rw [hp]; rfl) (by rw [hq]) (by rw [hq]) (by rw [hq]) (by simp)
    | deqCas rd ele =>
      rw [hp] at hq hpc
      simp only [micro] at hq hpc
      split at hpc
      all_goals
        rename_i hcas
        simp only [hcas, if_true, if_false] at hq
        exact h.keep hpc (by rw [hp]; rfl) (by rw [hq]) (by rw [hq]) (by rw [hq]) (by simp)
    | idle _ | enqLoadWr _ | enqStore _ _ | deqLoadRd | deqLoadSlot _ =>
      rw [hp] at hq hpc
      exact h.keep hpc (by rw [hp]; rfl) (by rw [hq]; rfl) (by rw [hq]; rfl) (by rw [hq]; rfl)
        (by simp [micro])

/-! ## 全部の公開 -/

/-- `bs` の間に、`t` だけが動き、`enq true` で戻る。 -/
structure Published (s : State τ E) (t : τ) (bs : List (Act τ E)) (u : State τ E) : Prop where
  only : ∀ b ∈ bs, b = .advance t
  length : bs.length ≤ 2
  run : run (TaskQueue.step .multi) s bs = some u
  max : u.q.maxRdindex = s.q.maxRdindex + 1
  wr : u.q.wrindex = s.q.wrindex
  claimed : u.q.claimed = s.q.claimed
  taken : u.q.taken = s.q.taken
  pc : u.pc = Function.update s.pc t (.idle (some (.enq true)))

/-- 公開を待つ最も前の index の持ち主は、一歩で公開して戻る。 -/
theorem PublishInv.publish_ready (h : PublishInv s) (ht : s.pc t = .enqPublish s.q.maxRdindex)
    (hmax : s.q.claimed.length < 2 ^ 32) : ∃ u, Published s t [.advance t] u := by
  have hlt := h.next_lt ht hmax
  refine ⟨⟨{ s.q with maxRdindex := u32 (s.q.maxRdindex + 1) },
    Function.update s.pc t (.idle (some (.enq true)))⟩, by simp, by simp, ?_, u32_of_lt hlt, rfl, rfl,
    rfl, rfl⟩
  rw [run_cons_eq_some]
  refine ⟨_, ?_, rfl⟩
  simp [TaskQueue.step, ht, Pc.isIdle, micro]

/-- 最も前の index の持ち主は、まだ書いていなくても、二歩以内に公開して戻る。 -/
theorem PublishInv.publish (h : PublishInv s) (ht : Holding s t s.q.maxRdindex)
    (hmax : s.q.claimed.length < 2 ^ 32) : ∃ bs u, Published s t bs u := by
  obtain ⟨ele, hstore⟩ | hready := ht
  · -- 書く一歩の後は、公開を待つところにいる。
    have hstep : TaskQueue.step .multi s (.advance t) =
        some ⟨{ s.q with
                elems := Function.update s.q.elems (s.q.maxRdindex % s.q.size) ele },
          Function.update s.pc t (.enqPublish s.q.maxRdindex)⟩ := by
      simp [TaskQueue.step, hstore, Pc.isIdle, micro]
    obtain ⟨u, hu⟩ := (h.step hstep hmax).publish_ready (t := t) (Function.update_self ..) hmax
    refine ⟨[.advance t, .advance t], u, by simp, le_rfl, ?_, hu.max, hu.wr, hu.claimed, hu.taken, ?_⟩
    · exact (run_cons_eq_some _).mpr ⟨_, hstep, hu.run⟩
    · rw [hu.pc, Function.update_idem]
  · obtain ⟨u, hu⟩ := h.publish_ready hready hmax
    exact ⟨_, u, hu⟩

theorem PublishInv.run_publish {bs : List (Act τ E)} (h : PublishInv s)
    (hrun : run (TaskQueue.step .multi) s bs = some s') (hmax : s'.q.claimed.length < 2 ^ 32) :
    PublishInv s' := by
  induction bs generalizing s with
  | nil =>
    obtain rfl := Option.some.inj ((run_nil _ s).symm.trans hrun)
    exact h
  | cons b bs ih =>
    obtain ⟨u, hu, hrest⟩ := (run_cons_eq_some _).mp hrun
    have hle := (along_le (f := fun s : State τ E => s.q.claimed.length)
      (fun _ _ _ hs => step_claimed hs) hrest).2
    exact ih (h.step hu (by omega)) hrest

/-- `bs` の間に、index を持つ thread だけが動き、全部が `enq true` で戻る。 -/
structure Drained (s : State τ E) (bs : List (Act τ E)) (u : State τ E) : Prop where
  only : ∀ b ∈ bs, ∃ t i, Holding s t i ∧ b = .advance t
  length : bs.length ≤ 2 * (s.q.wrindex - s.q.maxRdindex)
  run : run (TaskQueue.step .multi) s bs = some u
  max : u.q.maxRdindex = s.q.wrindex
  wr : u.q.wrindex = s.q.wrindex
  claimed : u.q.claimed = s.q.claimed
  taken : u.q.taken = s.q.taken
  returned : ∀ t i, Holding s t i → u.pc t = .idle (some (.enq true))
  others : ∀ t, (∀ i, ¬ Holding s t i) → u.pc t = s.pc t

/-- 最も前の持ち主が公開した後は、残りの持ち主だけが残る。 -/
theorem Published.holding {bs : List (Act τ E)} {u : State τ E} (hp : Published s t bs u) {v : τ}
    {i : Nat} : Holding u v i ↔ v ≠ t ∧ Holding s v i := by
  rw [holding_update hp.pc]
  split
  · rename_i heq
    simp [heq, Pc.held]
  · rename_i hne
    simp [hne]

/-- **index を持つ thread だけを動かして、全部の enqueue が戻れる。** -/
theorem PublishInv.drain (h : PublishInv s) (hmax : s.q.claimed.length < 2 ^ 32) :
    ∃ bs u, Drained s bs u := by
  -- まだ公開していない index の数についての帰納法。
  generalize hn : s.q.wrindex - s.q.maxRdindex = n
  induction n generalizing s with
  | zero =>
    have hle := h.le
    have hnone : ∀ t i, ¬ Holding s t i := fun t i ht => by
      have hin := h.within t i ht
      omega
    exact ⟨[], s, by simp, by simp, rfl, by omega, rfl, rfl, rfl,
      fun t i ht => absurd ht (hnone t i), fun _ _ => rfl⟩
  | succ n ih =>
    obtain ⟨t, ht⟩ := h.holder s.q.maxRdindex le_rfl (by omega)
    obtain ⟨as, v, hv⟩ := h.publish ht hmax
    have hinv : PublishInv v := h.run_publish hv.run (hv.claimed ▸ hmax)
    obtain ⟨bs, u, hu⟩ := ih hinv (hv.claimed ▸ hmax) (by rw [hv.wr, hv.max]; omega)
    refine ⟨as ++ bs, u, fun b hb => ?_, ?_, (run_append_eq_some _).mpr ⟨v, hv.run, hu.run⟩,
      hu.max.trans hv.wr, hu.wr.trans hv.wr, hu.claimed.trans hv.claimed, hu.taken.trans hv.taken,
      fun w i hw => ?_, fun w hw => ?_⟩
    · rcases List.mem_append.mp hb with hb | hb
      · exact ⟨t, _, ht, hv.only b hb⟩
      · obtain ⟨w, i, hw, rfl⟩ := hu.only b hb
        exact ⟨w, i, (hv.holding.mp hw).2, rfl⟩
    · have has := hv.length
      have hbs := hu.length
      rw [hv.wr, hv.max] at hbs
      rw [List.length_append]
      omega
    · by_cases hwt : w = t
      · rw [hwt, hu.others t fun j hj => (hv.holding.mp hj).1 rfl, hv.pc, Function.update_self]
      · exact hu.returned w i (hv.holding.mpr ⟨hwt, hw⟩)
    · have hwt : w ≠ t := fun heq => hw _ (heq ▸ ht)
      rw [hu.others w fun j hj => hw j (hv.holding.mp hj).2, hv.pc, Function.update_of_ne hwt]

/--
**`MULTI` の enqueue の待ち合いは、どの状態からも解ける。**

いくつの thread がどの順に動いた後でも、`m_max_rdindex` から `m_wrindex` までの index は、途中の enqueue が
一つずつ持つ。ほかの thread を一切動かさずに、持ち主だけを高々二歩ずつ動かして、全部の enqueue を
`true` で戻せる。積んだ回数が `2 ^ 32` に満たない限り成り立つ。
-/
theorem enqueues_can_finish (zero : E) (size : Nat) {as : List (Act τ E)}
    (hrun : run (TaskQueue.step .multi) (init zero size) as = some s)
    (hmax : s.q.claimed.length < 2 ^ 32) :
    (∀ i, (s.q.maxRdindex ≤ i ∧ i < s.q.wrindex) ↔ ∃! t, Holding s t i) ∧
    ∃ bs u, Drained s bs u := by
  have hinv := (publishInv_init zero size).run_publish hrun hmax
  refine ⟨fun i => ⟨fun hi => ?_, fun ⟨t, ht, _⟩ => hinv.within t i ht⟩, hinv.drain hmax⟩
  obtain ⟨t, ht⟩ := hinv.holder i hi.1 hi.2
  exact ⟨t, ht, fun u hu => hinv.single u t i hu ht⟩

/-- 後から index を取った thread 1 が先に書き、thread 0 の公開を待っている。 -/
def waitingSchedule : List (Act Nat Nat) :=
  [.enqueue 0 7, .enqueue 1 8, .advance 0, .advance 0, .advance 0, .advance 1, .advance 1, .advance 1,
    .advance 1, .advance 1]

theorem enqueues_can_finish_waiting :
    ∃ s, run (TaskQueue.step .multi) (init 0 4) waitingSchedule = some s ∧
      s.pc 0 = .enqStore 7 0 ∧ s.pc 1 = .enqPublish 1 ∧ ∃ bs u, Drained s bs u := by
  obtain ⟨s, hs⟩ : ∃ s, run (TaskQueue.step .multi) (init 0 4) waitingSchedule = some s := ⟨_, rfl⟩
  have heq := Option.some.inj (hs.symm.trans (show _ = some _ from rfl))
  have hclaimed : s.q.claimed = [7, 8] := by
    rw [heq]
    rfl
  refine ⟨s, hs, ?_, ?_, (enqueues_can_finish 0 4 hs (by simp [hclaimed])).2⟩
  · rw [heq]
    rfl
  · rw [heq]
    rfl

end

end RecordServer.Datas.TaskQueue
