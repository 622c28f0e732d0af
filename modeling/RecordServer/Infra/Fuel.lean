import Mathlib.Data.Nat.Basic

/-!
# 燃料で走らせる loop

止まるかどうかが入力による loop は、回る回数の上限（燃料）を受け取り、足りなければ `none` を返す。
`Converges f b` は、燃料を足りるだけ与えれば必ず `b` で終わることをいい、`Within n f b` と `Yields n f a` は、
`n` で足りることまでいう。
`FuelRuns` は、そのような一手を重ねた run である。燃料を増やしても答えが変わらない一手（`Steady`）なら、
燃料を決めた `execRun` で run を計算できる。
-/

namespace RecordServer.Infra

variable {α β : Type*}

/-- 足りるだけの燃料なら、いつも `b` で終わる。 -/
def Converges (f : Nat → Option β) (b : β) : Prop :=
  ∃ enough, ∀ fuel, enough ≤ fuel → f fuel = some b

theorem Converges.unique {f : Nat → Option β} {b b' : β} (h : Converges f b)
    (h' : Converges f b') : b = b' := by
  obtain ⟨n, hn⟩ := h
  obtain ⟨m, hm⟩ := h'
  have heq := (hn (max n m) (le_max_left n m)).symm.trans (hm (max n m) (le_max_right n m))
  exact Option.some.inj heq

theorem Converges.pure (b : β) : Converges (fun _ => some b) b := ⟨0, fun _ _ => rfl⟩

theorem Converges.of_lt {f : Nat → Option β} {b : β} {n : Nat}
    (h : ∀ fuel, n < fuel → f fuel = some b) : Converges f b := ⟨n + 1, h⟩

theorem Converges.congr {f g : Nat → Option β} {b : β} (h : Converges f b)
    (heq : ∀ fuel, g fuel = f fuel) : Converges g b := by
  obtain ⟨n, hn⟩ := h
  exact ⟨n, fun fuel hfuel => (heq fuel).trans (hn fuel hfuel)⟩

/-- 前半が終わり、その結果から後半が終わるなら、続けても終わる。 -/
theorem Converges.bind {f : Nat → Option α} {g : α → Nat → Option β} {a : α} {b : β}
    (hf : Converges f a) (hg : Converges (g a) b) :
    Converges (fun fuel => (f fuel).bind fun a => g a fuel) b := by
  obtain ⟨n, hn⟩ := hf
  obtain ⟨m, hm⟩ := hg
  refine ⟨max n m, fun fuel hfuel => ?_⟩
  show (f fuel).bind _ = _
  rw [hn fuel (le_trans (le_max_left n m) hfuel)]
  exact hm fuel (le_trans (le_max_right n m) hfuel)

theorem Converges.map {f : Nat → Option α} {a : α} (g : α → β) (hf : Converges f a) :
    Converges (fun fuel => (f fuel).map g) (g a) := by
  obtain ⟨n, hn⟩ := hf
  refine ⟨n, fun fuel hfuel => ?_⟩
  show (f fuel).map g = _
  rw [hn fuel hfuel]
  rfl

/-! ## 燃料を増やす -/

section Steady

variable {f : Nat → Option α}

/-- 燃料を増やしても、答えは変わらない。 -/
def Steady (f : Nat → Option β) : Prop := ∀ ⦃n m b⦄, n ≤ m → f n = some b → f m = some b

theorem Steady.converges {f : Nat → Option β} {b : β} {n : Nat} (h : Steady f)
    (hb : f n = some b) : Converges f b := ⟨n, fun _ hle => h hle hb⟩

theorem Steady.const (o : Option β) : Steady fun _ => o := fun _ _ _ _ hb => hb

theorem Steady.bind {g : α → Nat → Option β} (hf : Steady f) (hg : ∀ a, Steady (g a)) :
    Steady fun fuel => (f fuel).bind fun a => g a fuel := by
  intro n m b hle hb
  obtain ⟨a, ha, hga⟩ := Option.bind_eq_some_iff.mp hb
  exact Option.bind_eq_some_iff.mpr ⟨a, hf hle ha, hg a hle hga⟩

theorem Steady.map (hf : Steady f) (g : α → β) : Steady fun fuel => (f fuel).map g := by
  intro n m b hle hb
  obtain ⟨a, ha, rfl⟩ := Option.map_eq_some_iff.mp hb
  exact Option.map_eq_some_iff.mpr ⟨a, hf hle ha, rfl⟩

/-- 結果を写したものが終わるなら、元も終わる。 -/
theorem Steady.converges_of_map {g : α → β} {b : β} (hf : Steady f)
    (h : Converges (fun fuel => (f fuel).map g) b) : ∃ a, Converges f a ∧ g a = b := by
  obtain ⟨n, hn⟩ := h
  obtain ⟨a, ha, hga⟩ := Option.map_eq_some_iff.mp (hn n le_rfl)
  exact ⟨a, hf.converges ha, hga⟩

/-- 一回りごとに終わるか次へ進む loop は、燃料を増やしても答えが変わらない。 -/
theorem Steady.of_loop {σ : Type*} (loop : Nat → σ → Option β) (body : σ → β ⊕ σ)
    (hzero : ∀ s, loop 0 s = none)
    (hsucc : ∀ fuel s, loop (fuel + 1) s = (body s).elim some (loop fuel)) (s : σ) :
    Steady fun fuel => loop fuel s := by
  intro n m b hle hb
  induction n generalizing s m with
  | zero => simp [hzero] at hb
  | succ n ih =>
    obtain ⟨m, rfl⟩ := Nat.exists_eq_add_one_of_ne_zero (Nat.ne_zero_of_lt hle)
    simp only [hsucc] at hb ⊢
    cases hbody : body s with
    | inl b' => rwa [hbody] at hb
    | inr s' =>
      rw [hbody] at hb
      exact ih s' (Nat.le_of_succ_le_succ hle) hb

end Steady

/-! ## 足りる燃料の量まで言う -/

section Within

variable {f : Nat → Option α} {a : α} {n m : Nat}

/-- 燃料が `n` 以上なら、いつも `a` で終わる。 -/
def Within (n : Nat) (f : Nat → Option α) (a : α) : Prop := ∀ fuel, n ≤ fuel → f fuel = some a

theorem Within.mono (h : Within n f a) (hle : n ≤ m) : Within m f a :=
  fun fuel hfuel => h fuel (le_trans hle hfuel)

theorem Within.congr {g : Nat → Option α} (h : Within n f a) (heq : ∀ fuel, g fuel = f fuel) :
    Within n g a := fun fuel hfuel => (heq fuel).trans (h fuel hfuel)

/-- 前半も後半も `n` で足りるなら、続けても `n` で足りる。 -/
theorem Within.bind {g : α → Nat → Option β} {b : β} (hf : Within n f a) (hg : Within n (g a) b) :
    Within n (fun fuel => (f fuel).bind fun a => g a fuel) b := by
  intro fuel hfuel
  show (f fuel).bind _ = _
  rw [hf fuel hfuel]
  exact hg fuel hfuel

theorem Within.map (g : α → β) (hf : Within n f a) :
    Within n (fun fuel => (f fuel).map g) (g a) := by
  intro fuel hfuel
  show (f fuel).map g = _
  rw [hf fuel hfuel]
  rfl

end Within

section Yields

universe u v

variable {ε : Type u} {α β : Type v} {f : Nat → Except ε α} {a : α} {b : β} {n m : Nat}

/-- 燃料が `n` 以上なら、いつも `a` を返す。 -/
def Yields (n : Nat) (f : Nat → Except ε α) (a : α) : Prop := ∀ fuel, n ≤ fuel → f fuel = .ok a

theorem Yields.pure (n : Nat) (a : α) : Yields n (fun _ => (.ok a : Except ε α)) a := fun _ _ => rfl

theorem Yields.mono (h : Yields n f a) (hle : n ≤ m) : Yields m f a :=
  fun fuel hfuel => h fuel (le_trans hle hfuel)

/-- 燃料を一つ多く渡す。 -/
theorem Yields.succ (h : Yields (n + 1) f a) : Yields n (fun fuel => f (fuel + 1)) a :=
  fun fuel hfuel => h (fuel + 1) (Nat.succ_le_succ hfuel)

/-- 一つ使って先へ進む。 -/
theorem Yields.of_succ (h : Yields n (fun fuel => f (fuel + 1)) a) : Yields (n + 1) f a := by
  intro fuel hfuel
  obtain ⟨fuel, rfl⟩ := Nat.exists_eq_add_one_of_ne_zero (Nat.ne_zero_of_lt hfuel)
  exact h fuel (Nat.le_of_succ_le_succ hfuel)

theorem Yields.bind {g : Nat → α → Except ε β} (hf : Yields n f a)
    (hg : Yields n (fun fuel => g fuel a) b) : Yields n (fun fuel => f fuel >>= g fuel) b := by
  intro fuel hfuel
  show f fuel >>= _ = _
  rw [hf fuel hfuel]
  exact hg fuel hfuel

theorem Yields.map (g : α → β) (hf : Yields n f a) :
    Yields n (fun fuel => (f fuel).map g) (g a) := by
  intro fuel hfuel
  show (f fuel).map g = _
  rw [hf fuel hfuel]
  rfl

end Yields

/-! ## 燃料で走らせる run -/

section Runs

variable {σ : Type*}

/-- `ok` な一手を順に行い、どの一手も終わって `s'` に着く。 -/
inductive FuelRuns (ok : σ → α → Prop) (step : Nat → σ → α → Option σ) : σ → List α → σ → Prop
  | nil {s} : FuelRuns ok step s [] s
  | cons {s s' s'' a as} : ok s a → Converges (fun fuel => step fuel s a) s' →
      FuelRuns ok step s' as s'' → FuelRuns ok step s (a :: as) s''

theorem FuelRuns.append {ok : σ → α → Prop} {step : Nat → σ → α → Option σ} {s s' s'' : σ}
    {as as' : List α} (h : FuelRuns ok step s as s') (h' : FuelRuns ok step s' as' s'') :
    FuelRuns ok step s (as ++ as') s'' := by
  induction h with
  | nil => exact h'
  | cons ha hconv _ ih => exact .cons ha hconv (ih h')

/--
**燃料で走らせる run の不変量の規則。**

`ok` な一手が終わって `I` を保つなら、run の着く状態でも `I` が成り立つ。
-/
theorem FuelRuns.invariant {ok : σ → α → Prop} {step : Nat → σ → α → Option σ} {s s' : σ}
    {as : List α} {I : σ → Prop}
    (hstep : ∀ s a, I s → ok s a → ∃ s', Converges (fun fuel => step fuel s a) s' ∧ I s')
    (hrun : FuelRuns ok step s as s') (hI : I s) : I s' := by
  induction hrun with
  | nil => exact hI
  | cons ha hconv _ ih =>
    obtain ⟨t, ht, hIt⟩ := hstep _ _ hI ha
    obtain rfl := hconv.unique ht
    exact ih hIt

theorem FuelRuns.mono {ok ok' : σ → α → Prop} {step : Nat → σ → α → Option σ} {s s' : σ}
    {as : List α} (h : FuelRuns ok step s as s') (hok : ∀ s a, ok s a → ok' s a) :
    FuelRuns ok' step s as s' := by
  induction h with
  | nil => exact .nil
  | cons ha hconv _ ih => exact .cons (hok _ _ ha) hconv ih

/-- 不変量 `I` の下で `ok` な一手が `ok'` でもあるなら、run の条件を `ok'` に替えられる。 -/
theorem FuelRuns.imp {ok ok' : σ → α → Prop} {step : Nat → σ → α → Option σ} {s s' : σ}
    {as : List α} {I : σ → Prop}
    (hstep : ∀ s a, I s → ok s a → ok' s a ∧ ∃ s', Converges (fun fuel => step fuel s a) s' ∧ I s')
    (hrun : FuelRuns ok step s as s') (hI : I s) : FuelRuns ok' step s as s' := by
  induction hrun with
  | nil => exact .nil
  | cons ha hconv _ ih =>
    obtain ⟨hok, t, ht, hIt⟩ := hstep _ _ hI ha
    obtain rfl := hconv.unique ht
    exact .cons hok hconv (ih hIt)

/-- 燃料を決めて、`ok` な一手を順に行う。 -/
def execRun (ok : σ → α → Prop) [∀ s a, Decidable (ok s a)] (step : Nat → σ → α → Option σ)
    (fuel : Nat) : σ → List α → Option σ
  | s, [] => some s
  | s, a :: as =>
    if ok s a then (step fuel s a).bind fun s' => execRun ok step fuel s' as else none

/-- **計算した run は、燃料によらない run である。** -/
theorem FuelRuns.of_execRun {ok : σ → α → Prop} [∀ s a, Decidable (ok s a)]
    {step : Nat → σ → α → Option σ} {fuel : Nat} {s s' : σ} {as : List α}
    (hsteady : ∀ s a, Steady fun fuel => step fuel s a)
    (h : execRun ok step fuel s as = some s') : FuelRuns ok step s as s' := by
  induction as generalizing s with
  | nil =>
    obtain rfl := Option.some.inj h
    exact .nil
  | cons a as ih =>
    rw [execRun] at h
    split at h
    · next hok =>
      obtain ⟨t, ht, hrest⟩ := Option.bind_eq_some_iff.mp h
      exact .cons hok ((hsteady s a).converges ht) (ih hrest)
    · cases h

end Runs

end RecordServer.Infra
