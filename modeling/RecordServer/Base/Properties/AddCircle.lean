import RecordServer.Base.BaseServer
import Mathlib.Data.Fintype.Card
import Mathlib.Data.Finset.Max

/-!
# 並行な `add_circle`

`m_curthreads` を二度読むあいだに他の呼び出しが値を変えると、`CAS` は検査にならない。
そうならない run では登録は正しい。

* `Validated` — 成功する `CAS` が、slot を決めた値を比べている、という一歩の条件
* `Registered` — 不変量。slot を得た呼び出しと `m_curthreads` 未満の番号が一対一に対応する
* `registered_step` — 条件を満たす一歩は不変量を保つ
* `registration_run` — 条件を満たす run についての結論
-/

namespace RecordServer.Base

open Infra

variable {ι κ : Type*} {circle : ι → Option κ} {sub : Nat}

/-- 呼び出しが `CAS` で得た slot。 -/
def AddPc.slot : AddPc → Option Nat
  | .store c => some c
  | .success c => some c
  | _ => none

/-- 終わった呼び出し。 -/
def AddPc.finished : AddPc → Bool
  | .success _ => true
  | .failure => true
  | _ => false

/-- 成功した呼び出し。 -/
def AddPc.succeeded : AddPc → Bool
  | .success _ => true
  | _ => false

/-- 成功する `CAS` が比べる値は、slot を決めた `cur_threads` である。 -/
def Validated (s : Server ι κ) : AddAct ι → Prop
  | .cas i => ∀ cur old, s.pc i = .cas cur old → s.curthreads = old → old = cur
  | _ => True

/-- 登録の不変量。 -/
structure Registered (circle : ι → Option κ) (sub : Nat) (s : Server ι κ) : Prop where
  subthreads : s.subthreads = sub
  allocated : s.subcircles ≠ none
  curthreads_le : s.curthreads ≤ sub
  cur_lt : ∀ i cur, s.pc i = .reload cur ∨ (∃ old, s.pc i = .cas cur old) → cur < sub
  slot_lt : ∀ i c, (s.pc i).slot = some c → c < s.curthreads
  slot_inj : ∀ i j c, (s.pc i).slot = some c → (s.pc j).slot = some c → i = j
  slot_surj : ∀ c, c < s.curthreads → ∃ i, (s.pc i).slot = some c
  failed : ∀ i, s.pc i = .failure → s.curthreads = sub
  stored : ∀ i c a, s.pc i = .success c → s.subcircles = some a → a c = circle i

theorem registered_start {a : Option (Nat → Option κ)} (ha : a ≠ none) :
    Registered circle sub (Server.start ι sub a) where
  subthreads := rfl
  allocated := ha
  curthreads_le := Nat.zero_le _
  cur_lt := by simp [Server.start]
  slot_lt := by simp [Server.start, AddPc.slot]
  slot_inj := by simp [Server.start, AddPc.slot]
  slot_surj := by simp [Server.start]
  failed := by simp [Server.start]
  stored := by simp [Server.start]

/-! ## 一歩 -/

section Step

variable [DecidableEq ι]

/-- slot も失敗も生まない移動は不変量を保つ。 -/
theorem Registered.goto {s : Server ι κ} (h : Registered circle sub s) {i : ι}
    {p : AddPc} (hi : (s.pc i).slot = none) (hp : p.slot = none)
    (hcur : ∀ cur, p = .reload cur ∨ (∃ old, p = .cas cur old) → cur < sub)
    (hfail : p = .failure → s.curthreads = sub) : Registered circle sub (s.goto i p) := by
  have hslot : ∀ j, ((s.goto i p).pc j).slot = (s.pc j).slot := by
    intro j
    by_cases hj : j = i
    · rw [hj, Server.goto_pc_self, hp, hi]
    · rw [Server.goto_pc_of_ne s hj]
  refine ⟨h.subthreads, h.allocated, h.curthreads_le, ?_, ?_, ?_, ?_, ?_, ?_⟩
  · intro j cur hj
    by_cases hji : j = i
    · subst hji
      exact hcur cur (by simpa using hj)
    · exact h.cur_lt j cur (by simpa [Server.goto_pc_of_ne s hji] using hj)
  · intro j c hj
    exact h.slot_lt j c (by rwa [hslot] at hj)
  · intro j k c hj hk
    rw [hslot] at hj hk
    exact h.slot_inj j k c hj hk
  · intro c hc
    obtain ⟨j, hj⟩ := h.slot_surj c hc
    exact ⟨j, by rw [hslot, hj]⟩
  · intro j hj
    by_cases hji : j = i
    · subst hji
      exact hfail (by simpa using hj)
    · exact h.failed j (by simpa [Server.goto_pc_of_ne s hji] using hj)
  · intro j c a hj ha
    have hsl := congrArg AddPc.slot hj
    rw [hslot] at hsl
    by_cases hji : j = i
    · rw [hji, hi] at hsl
      simp [AddPc.slot] at hsl
    · exact h.stored j c a (by simpa [Server.goto_pc_of_ne s hji] using hj) ha

/-- 検査の通った `CAS` は、次の番号を一つの呼び出しに渡す。 -/
theorem Registered.claim {s : Server ι κ} (h : Registered circle sub s) {i : ι}
    (hi : s.pc i = .cas s.curthreads s.curthreads) :
    Registered circle sub
      ({ s with curthreads := s.curthreads + 1 }.goto i (.store s.curthreads)) := by
  have hlt : s.curthreads < sub := h.cur_lt i _ (.inr ⟨_, hi⟩)
  have hnone : (s.pc i).slot = none := by simp [hi, AddPc.slot]
  refine ⟨h.subthreads, h.allocated, hlt, ?_, ?_, ?_, ?_, ?_, ?_⟩
  · intro j cur hj
    by_cases hji : j = i
    · subst hji
      simp at hj
    · exact h.cur_lt j cur (by simpa [Server.goto_pc_of_ne _ hji] using hj)
  · intro j c hj
    by_cases hji : j = i
    · subst hji
      simp only [Server.goto_pc_self, AddPc.slot, Option.some.injEq] at hj
      simp [← hj]
    · rw [Server.goto_pc_of_ne _ hji] at hj
      exact Nat.lt_succ_of_lt (h.slot_lt j c hj)
  · intro j k c hj hk
    -- 新しい番号 `m_curthreads` は、まだ誰にも渡っていない
    by_cases hji : j = i <;> by_cases hki : k = i
    · rw [hji, hki]
    · subst hji
      rw [Server.goto_pc_of_ne _ hki] at hk
      simp only [Server.goto_pc_self, AddPc.slot, Option.some.injEq] at hj
      have := h.slot_lt k c hk
      omega
    · subst hki
      rw [Server.goto_pc_of_ne _ hji] at hj
      simp only [Server.goto_pc_self, AddPc.slot, Option.some.injEq] at hk
      have := h.slot_lt j c hj
      omega
    · rw [Server.goto_pc_of_ne _ hji] at hj
      rw [Server.goto_pc_of_ne _ hki] at hk
      exact h.slot_inj j k c hj hk
  · intro c hc
    rcases Nat.lt_succ_iff_lt_or_eq.mp hc with hc | rfl
    · obtain ⟨j, hj⟩ := h.slot_surj c hc
      have hji : j ≠ i := by
        rintro rfl
        simp [hnone] at hj
      exact ⟨j, by rw [Server.goto_pc_of_ne _ hji, hj]⟩
    · exact ⟨i, by simp [AddPc.slot]⟩
  · intro j hj
    by_cases hji : j = i
    · subst hji
      simp at hj
    · have := h.failed j (by simpa [Server.goto_pc_of_ne _ hji] using hj)
      omega
  · intro j c a hj ha
    by_cases hji : j = i
    · subst hji
      simp at hj
    · exact h.stored j c a (by simpa [Server.goto_pc_of_ne _ hji] using hj) ha

/-- slot への書き込みは、ほかの呼び出しの slot に触れない。 -/
theorem Registered.publish {s : Server ι κ} (h : Registered circle sub s) {i : ι} {c : Nat}
    (hi : s.pc i = .store c) :
    Registered circle sub
      ({ s with subcircles := s.subcircles.map fun a => Function.update a c (circle i) }.goto i
        (.success c)) := by
  have hslot : ∀ j, ((s.goto i (.success c)).pc j).slot = (s.pc j).slot := by
    intro j
    by_cases hj : j = i
    · rw [hj, Server.goto_pc_self, hi]
      rfl
    · rw [Server.goto_pc_of_ne s hj]
  refine ⟨h.subthreads, by simp [h.allocated], h.curthreads_le, ?_, ?_, ?_, ?_, ?_, ?_⟩
  · intro j cur hj
    by_cases hji : j = i
    · subst hji
      simp at hj
    · exact h.cur_lt j cur (by simpa [Server.goto_pc_of_ne _ hji] using hj)
  · intro j d hj
    exact h.slot_lt j d ((hslot j).symm.trans hj)
  · intro j k d hj hk
    exact h.slot_inj j k d ((hslot j).symm.trans hj) ((hslot k).symm.trans hk)
  · intro d hd
    obtain ⟨j, hj⟩ := h.slot_surj d hd
    exact ⟨j, (hslot j).trans hj⟩
  · intro j hj
    by_cases hji : j = i
    · subst hji
      simp at hj
    · exact h.failed j (by simpa [Server.goto_pc_of_ne _ hji] using hj)
  · intro j d a hj ha
    obtain ⟨b, hb, rfl⟩ := Option.map_eq_some_iff.mp ha
    by_cases hji : j = i
    · subst hji
      simp only [Server.goto_pc_self, AddPc.success.injEq] at hj
      simp [hj]
    · rw [Server.goto_pc_of_ne _ hji] at hj
      have hdc : d ≠ c := by
        rintro rfl
        exact hji (h.slot_inj j i d (by rw [hj, AddPc.slot]) (by rw [hi, AddPc.slot]))
      rw [Function.update_of_ne hdc]
      exact h.stored j d b hj hb

/-- **検査の通る一歩は不変量を保つ。** -/
theorem registered_step (hcircle : ∀ i, circle i ≠ none) {s s' : Server ι κ} {a : AddAct ι}
    (hv : Validated s a) (hs : s.addCircle circle a = some s') (h : Registered circle sub s) :
    Registered circle sub s' := by
  cases a with
  | load i =>
    simp only [Server.addCircle, hcircle i, h.allocated, or_self, if_false] at hs
    split at hs
    · next hpc =>
      split at hs
      · next hge =>
        obtain rfl := Option.some.inj hs
        refine h.goto (by rw [hpc]; rfl) rfl (by simp) fun _ => ?_
        have := h.curthreads_le
        rw [h.subthreads] at hge
        omega
      · next hlt =>
        obtain rfl := Option.some.inj hs
        refine h.goto (by rw [hpc]; rfl) rfl ?_ (by simp)
        rw [h.subthreads] at hlt
        rintro cur (hcur | ⟨old, hcur⟩)
        · simp only [AddPc.reload.injEq] at hcur
          omega
        · simp at hcur
    · simp at hs
  | reload i =>
    simp only [Server.addCircle] at hs
    split at hs
    · next cur hpc =>
      obtain rfl := Option.some.inj hs
      refine h.goto (by rw [hpc]; rfl) rfl ?_ (by simp)
      rintro d (hd | ⟨old, hd⟩)
      · simp at hd
      · simp only [AddPc.cas.injEq] at hd
        exact hd.1 ▸ h.cur_lt i cur (.inl hpc)
    · simp at hs
  | cas i =>
    simp only [Server.addCircle] at hs
    split at hs
    · next cur old hpc =>
      split at hs
      · next hold =>
        have hcur : cur = s.curthreads := (hold.trans (hv cur old hpc hold)).symm
        obtain rfl := Option.some.inj hs
        subst hcur hold
        exact h.claim hpc
      · obtain rfl := Option.some.inj hs
        exact h.goto (by rw [hpc]; rfl) rfl (by simp) (by simp)
    · simp at hs
  | store i =>
    simp only [Server.addCircle] at hs
    split at hs
    · next cur hpc =>
      obtain rfl := Option.some.inj hs
      exact h.publish hpc
    · simp at hs

end Step

/-! ## すべての呼び出しが終わった後 -/

/-- 成功した呼び出しの数。 -/
def Server.successes [Fintype ι] (s : Server ι κ) : Nat :=
  (Finset.univ.filter fun i => (s.pc i).succeeded = true).card

/-- 終わった呼び出しが slot を持つのは、成功したとき、そのときに限る。 -/
theorem slot_of_succeeded {p : AddPc} (h : p.finished = true) :
    p.succeeded = true ↔ ∃ c, p.slot = some c := by
  cases p <;> simp_all [AddPc.finished, AddPc.succeeded, AddPc.slot]

theorem Registered.successes_eq [Fintype ι] {s : Server ι κ} (h : Registered circle sub s)
    (hfin : ∀ i, (s.pc i).finished = true) : s.successes = s.curthreads := by
  rw [← Finset.card_range s.curthreads]
  refine Finset.card_bij (fun i _ => ((s.pc i).slot).getD 0) ?_ ?_ ?_
  · intro i hi
    obtain ⟨c, hc⟩ := (slot_of_succeeded (hfin i)).mp (by simpa using hi)
    simpa [hc] using h.slot_lt i c hc
  · intro i hi j hj hij
    obtain ⟨c, hc⟩ := (slot_of_succeeded (hfin i)).mp (by simpa using hi)
    obtain ⟨d, hd⟩ := (slot_of_succeeded (hfin j)).mp (by simpa using hj)
    simp only [hc, hd, Option.getD_some] at hij
    exact h.slot_inj i j c hc (hij ▸ hd)
  · intro c hc
    obtain ⟨i, hi⟩ := h.slot_surj c (by simpa using hc)
    exact ⟨i, by simpa using (slot_of_succeeded (hfin i)).mpr ⟨c, hi⟩, by simp [hi]⟩

theorem Registered.curthreads_eq [Fintype ι] {s : Server ι κ} (h : Registered circle sub s)
    (hfin : ∀ i, (s.pc i).finished = true) : s.curthreads = min (Fintype.card ι) sub := by
  have hle : s.curthreads ≤ Fintype.card ι := by
    rw [← h.successes_eq hfin]
    exact Finset.card_le_univ _
  by_cases hf : ∃ i, s.pc i = .failure
  · obtain ⟨i, hi⟩ := hf
    have := h.failed i hi
    omega
  · have hall : s.successes = Fintype.card ι := by
      rw [Server.successes, ← Finset.card_univ]
      congr 1
      refine Finset.filter_true_of_mem fun i _ => ?_
      have hi := hfin i
      cases hp : s.pc i <;> simp_all [AddPc.finished, AddPc.succeeded]
    have := h.curthreads_le
    have := h.successes_eq hfin
    omega

/--
**並行な登録。**

成功する `CAS` がどれも slot を決めた値を比べている run では、成功した呼び出しは別々の slot に書く。
すべての呼び出しが終われば、成功は呼び出しの数と `m_subthreads` の小さい方だけあり、`m_curthreads` は
その数で、配列の先頭はちょうど成功した呼び出しの circle である。
-/
theorem registration_run [Fintype ι] [DecidableEq ι] (circle : ι → Option κ)
    (hcircle : ∀ i, circle i ≠ none) (sub : Nat) (a : Option (Nat → Option κ)) (ha : a ≠ none)
    (acts : List (AddAct ι)) (s : Server ι κ)
    (hv : Along (Server.addCircle circle) Validated (Server.start ι sub a) acts)
    (hrun : run (Server.addCircle circle) (Server.start ι sub a) acts = some s) :
    (∀ i j c d, s.pc i = .success c → s.pc j = .success d → i ≠ j → c ≠ d) ∧
      ((∀ i, (s.pc i).finished = true) →
        s.successes = min (Fintype.card ι) sub ∧ s.curthreads = s.successes ∧
          ∃ b, s.subcircles = some b ∧
            (∀ i c, s.pc i = .success c → c < s.curthreads ∧ b c = circle i) ∧
            ∀ c < s.curthreads, ∃ i, s.pc i = .success c) := by
  have h : Registered circle sub s :=
    run_invariant (fun _ _ _ hP hs hI => registered_step hcircle hP hs hI) hv hrun
      (registered_start ha)
  refine ⟨?_, fun hfin => ⟨?_, (h.successes_eq hfin).symm, ?_⟩⟩
  · rintro i j c _ hi hj hij rfl
    exact hij (h.slot_inj i j c (by rw [hi, AddPc.slot]) (by rw [hj, AddPc.slot]))
  · rw [h.successes_eq hfin, h.curthreads_eq hfin]
  · obtain ⟨b, hb⟩ := Option.ne_none_iff_exists'.mp h.allocated
    refine ⟨b, hb, fun i c hi => ⟨h.slot_lt i c (by rw [hi, AddPc.slot]), h.stored i c b hi hb⟩, ?_⟩
    intro c hc
    obtain ⟨i, hi⟩ := h.slot_surj c hc
    have hf := hfin i
    cases hp : s.pc i <;> simp_all [AddPc.finished, AddPc.slot]
    exact ⟨i, hp⟩

instance (s : Server ι κ) [DecidableEq ι] (a : AddAct ι) : Decidable (Validated s a) :=
  match a with
  | .load _ | .reload _ | .store _ => isTrue True.intro
  | .cas i =>
    match h : s.pc i with
    | .cas cur old => decidable_of_iff (s.curthreads = old → old = cur) (by simp [Validated, h])
    | .load | .reload _ | .store _ | .success _ | .failure => isTrue (by simp [Validated, h])

/-- 二つの呼び出しが同じ値を読み、片方の `CAS` が失敗してやり直す run。 -/
def retriedAdds : List (AddAct (Fin 2)) :=
  [.load 0, .reload 0, .load 1, .reload 1, .cas 0, .cas 1, .load 1, .reload 1, .cas 1, .store 1,
    .store 0]

/-- やり直した呼び出しは、次の slot に登録される。 -/
theorem registration_retried :
    ∃ s, run (Server.addCircle fun i : Fin 2 => some i) (Server.start (Fin 2) 2 (some fun _ => none))
        retriedAdds = some s ∧ (∀ i, (s.pc i).finished = true) ∧ s.successes = 2 := by
  refine ⟨_, rfl, by decide, ?_⟩
  exact ((registration_run (fun i : Fin 2 => some i) (by decide) 2 (some fun _ => none) (by simp)
    retriedAdds _ (by decide) rfl).2 (by decide)).1

/-- 二度目の読み出しの前に他の呼び出しが終わると、二つの呼び出しが同じ slot に書き、片方が消える。 -/
theorem registration_overwritten :
    ∃ s, run (Server.addCircle fun i : Fin 2 => some i) (Server.start (Fin 2) 2 (some fun _ => none))
        [.load 0, .load 1, .reload 1, .cas 1, .store 1, .reload 0, .cas 0, .store 0] = some s ∧
      (∀ i, (s.pc i).finished = true) ∧ s.pc 0 = .success 0 ∧ s.pc 1 = .success 0 ∧
        s.successes = 2 ∧ s.curthreads = 1 :=
  ⟨_, rfl, by decide⟩

end RecordServer.Base
