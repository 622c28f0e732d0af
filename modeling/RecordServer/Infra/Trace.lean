import Mathlib.Data.List.Basic

/-!
# 遷移系の run

一歩を `step : σ → α → Option σ` で与える遷移系の一般論。`α` は一歩の名札で、
どの活動が動くか・環境が何を返すかといった非決定性はすべて名札に載せる。
`step` が `none` なら、その名札の一歩はその状態では起こらない。

* `run` — 名札の列を順に実行する
* `Along` — 列のどの一歩でも、その直前の状態と名札が条件を満たす
* `run_invariant` — 条件を満たす一歩が保つ性質は、条件を満たす run 全体が保つ
* `run_simulation` — 一歩ごとに別の遷移系の run が応じるなら、run 全体にも応じる
-/

namespace RecordServer.Infra

variable {σ α : Type*} (step : σ → α → Option σ)

/-- 名札の列を順に実行する。途中で起こらない一歩があれば `none`。 -/
def run : σ → List α → Option σ
  | s, [] => some s
  | s, a :: as => (step s a).bind fun s' => run s' as

/-- run の各歩で、直前の状態と名札が `P` を満たす。 -/
def Along (P : σ → α → Prop) : σ → List α → Prop
  | _, [] => True
  | s, a :: as => P s a ∧ ∀ s', step s a = some s' → Along P s' as

@[simp] theorem run_nil (s : σ) : run step s [] = some s := rfl

theorem run_cons_eq_some {s t : σ} {a : α} {as : List α} :
    run step s (a :: as) = some t ↔ ∃ s', step s a = some s' ∧ run step s' as = some t := by
  simp [run, Option.bind_eq_some_iff]

theorem run_append_eq_some {s t : σ} {as bs : List α} :
    run step s (as ++ bs) = some t ↔ ∃ u, run step s as = some u ∧ run step u bs = some t := by
  induction as generalizing s with
  | nil => simp
  | cons a as ih =>
    simp only [List.cons_append, run_cons_eq_some, ih]
    constructor
    · rintro ⟨s', hs, u, hu, ht⟩
      exact ⟨u, ⟨s', hs, hu⟩, ht⟩
    · rintro ⟨u, ⟨s', hs, hu⟩, ht⟩
      exact ⟨s', hs, u, hu, ht⟩

theorem run_concat_eq_some {s t : σ} {as : List α} {a : α} :
    run step s (as ++ [a]) = some t ↔ ∃ u, run step s as = some u ∧ step u a = some t := by
  simp [run_append_eq_some, run_cons_eq_some]

variable {step}

/-- 連結した run に沿う条件は、前半と後半の条件に分かれる。 -/
theorem Along.append {P : σ → α → Prop} {s : σ} {as bs : List α} :
    Along step P s (as ++ bs) ↔
      Along step P s as ∧ ∀ u, run step s as = some u → Along step P u bs := by
  induction as generalizing s with
  | nil => simp [Along]
  | cons a as ih =>
    simp only [List.cons_append, Along, run_cons_eq_some, ih]
    constructor
    · rintro ⟨hp, h⟩
      exact ⟨⟨hp, fun s' hs => (h s' hs).1⟩, fun u ⟨s', hs, hu⟩ => (h s' hs).2 u hu⟩
    · rintro ⟨⟨hp, h⟩, hb⟩
      exact ⟨hp, fun s' hs => ⟨h s' hs, fun u hu => hb u ⟨s', hs, hu⟩⟩⟩

theorem Along.mono {P Q : σ → α → Prop} (h : ∀ s a, P s a → Q s a) {s : σ} {as : List α}
    (hp : Along step P s as) : Along step Q s as := by
  induction as generalizing s with
  | nil => trivial
  | cons a as ih => exact ⟨h s a hp.1, fun s' hs => ih (hp.2 s' hs)⟩

theorem Along.and {P Q : σ → α → Prop} {s : σ} {as : List α} (hp : Along step P s as)
    (hq : Along step Q s as) : Along step (fun s a => P s a ∧ Q s a) s as := by
  induction as generalizing s with
  | nil => trivial
  | cons a as ih => exact ⟨⟨hp.1, hq.1⟩, fun s' hs => ih (hp.2 s' hs) (hq.2 s' hs)⟩

/-- 一歩の条件が決定できれば、run に沿う条件も走らせて決定できる。 -/
instance Along.decidable {P : σ → α → Prop} [∀ s a, Decidable (P s a)] :
    ∀ (s : σ) (as : List α), Decidable (Along step P s as)
  | _, [] => isTrue True.intro
  | s, a :: as =>
    match h : step s a with
    | none => decidable_of_iff (P s a) (by simp [Along, h])
    | some s' =>
      have : Decidable (Along step P s' as) := Along.decidable s' as
      decidable_of_iff (P s a ∧ Along step P s' as) (by simp [Along, h])

/-- 無条件の run。 -/
theorem Along.trivial (s : σ) (as : List α) : Along step (fun _ _ => True) s as := by
  induction as generalizing s with
  | nil => exact True.intro
  | cons a as ih => exact ⟨True.intro, fun s' _ => ih s'⟩

/--
**run の不変量の規則。**

条件 `P` を満たす一歩が `I` を保つなら、どの歩も `P` を満たす run は `I` を保つ。
-/
theorem run_invariant {P : σ → α → Prop} {I : σ → Prop}
    (hstep : ∀ s a s', P s a → step s a = some s' → I s → I s') {s t : σ} {as : List α}
    (hP : Along step P s as) (hrun : run step s as = some t) (hI : I s) : I t := by
  induction as generalizing s with
  | nil =>
    rw [run_nil] at hrun
    cases hrun
    exact hI
  | cons a as ih =>
    obtain ⟨s', hs, ht⟩ := (run_cons_eq_some step).mp hrun
    exact ih (hP.2 s' hs) ht (hstep s a s' hP.1 hs hI)

/--
**simulation の規則。**

`R` で結ばれた状態から条件 `P` を満たす一歩に、`step'` の零歩以上の run が応じて再び `R` で結ばれるなら、
どの歩も `P` を満たす run 全体にも `step'` の run が応じる。
-/
theorem run_simulation {τ β : Type*} {step' : τ → β → Option τ} {P : σ → α → Prop}
    {R : σ → τ → Prop}
    (hstep : ∀ s a s' t, P s a → step s a = some s' → R s t →
      ∃ bs t', run step' t bs = some t' ∧ R s' t')
    {s s' : σ} {t : τ} {as : List α} (hP : Along step P s as) (hrun : run step s as = some s')
    (hR : R s t) : ∃ bs t', run step' t bs = some t' ∧ R s' t' := by
  induction as generalizing s t with
  | nil =>
    rw [run_nil] at hrun
    cases hrun
    exact ⟨[], t, rfl, hR⟩
  | cons a as ih =>
    obtain ⟨s₁, hs, hrun⟩ := (run_cons_eq_some step).mp hrun
    obtain ⟨bs, t₁, hbs, hR₁⟩ := hstep s a s₁ t hP.1 hs hR
    obtain ⟨cs, t', hcs, hR'⟩ := ih (hP.2 s₁ hs) hrun hR₁
    exact ⟨bs ++ cs, t', (run_append_eq_some step').mpr ⟨t₁, hbs, hcs⟩, hR'⟩

end RecordServer.Infra
