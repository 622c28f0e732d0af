import Mathlib.Logic.Function.Basic

/-!
# CAS で立てる flag

0 の flag を CAS で 1 にできた者だけが中に入り、出るときに 0 に戻す。誰が中にいるかを `inside` で表すと、
flag が 0 なら誰もおらず、1 ならちょうど一人がいる。

* `FlagLock` — flag と中にいる者の対応
* `FlagLock.unique` — 中にいる者は高々一人である
* `FlagLock.stay`、`acquire`、`release` — 一人が動いた後も対応は保たれる
-/

namespace RecordServer.Infra

/-- flag が 0 なら誰も中におらず、1 ならちょうど一人がいる。 -/
inductive FlagLock {τ : Type*} (inside : τ → Bool) : Nat → Prop
  | free (h : ∀ t, inside t = false) : FlagLock inside 0
  | held (t : τ) (h : inside t = true) (only : ∀ u, inside u = true → u = t) : FlagLock inside 1

variable {τ : Type*} {inside : τ → Bool} {flag : Nat} {t u : τ}

theorem FlagLock.unique (h : FlagLock inside flag) (ht : inside t = true) (hu : inside u = true) :
    t = u := by
  cases h with
  | free h => simp [h] at ht
  | held _ _ only => rw [only t ht, only u hu]

/-- 一人が中にいれば、ほかの者は外にいる。 -/
theorem FlagLock.outside (h : FlagLock inside flag) (ht : inside t = true) (hu : u ≠ t) :
    inside u = false := by
  cases hin : inside u with
  | false => rfl
  | true => exact absurd (h.unique hin ht) hu

variable [DecidableEq τ]

/-- 出入りしない一歩。 -/
theorem FlagLock.stay (h : FlagLock inside flag) {b : Bool} (hb : b = inside t) :
    FlagLock (Function.update inside t b) flag := by
  rw [hb, Function.update_eq_self]
  exact h

/-- flag を立てて入る一歩。 -/
theorem FlagLock.acquire (h : FlagLock inside 0) : FlagLock (Function.update inside t true) 1 := by
  cases h with
  | free h =>
    refine .held t (Function.update_self ..) fun u hu => ?_
    by_contra hne
    rw [Function.update_of_ne hne, h u] at hu
    cases hu

/-- 出て flag を戻す一歩。 -/
theorem FlagLock.release (h : FlagLock inside flag) (ht : inside t = true) :
    FlagLock (Function.update inside t false) 0 := by
  refine .free fun u => ?_
  by_cases hu : u = t
  · rw [hu, Function.update_self]
  · rw [Function.update_of_ne hu]
    exact h.outside ht hu

end RecordServer.Infra
