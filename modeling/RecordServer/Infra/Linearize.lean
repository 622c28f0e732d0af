import RecordServer.Infra.Trace

/-!
# 線形化

遷移系の一歩が、呼び出しを一つ終えて値を返すか、何も返さないかのどちらかであるとする。返す一歩が
そのまま、抽象的な状態への一度の呼び出しであり、返さない一歩が抽象的な状態を変えないなら、run の中で
返された値は、返された順に一つずつ呼んだときの値である。

* `Legal` — 呼び出しと戻り値の列が、抽象的な状態の一つずつの呼び出しとして正しい
* `history` — run の中で返された呼び出しと値の列
* `linearizes` — 一歩ごとの対応から、run 全体の対応を得る
* `along_le` — 増えるだけの量は、run の途中でも終わりの値を越えない
-/

namespace RecordServer.Infra

variable {σ α C R A : Type*}

/-- `a` から一つずつ呼ぶと、列の通りの値を返して `a'` に着く。 -/
def Legal (call : A → C → R × A) : A → List (C × R) → A → Prop
  | a, [], a' => a' = a
  | a, (c, r) :: h, a' => (call a c).1 = r ∧ Legal call (call a c).2 h a'

theorem Legal.append {call : A → C → R × A} {a a' a'' : A} {h h' : List (C × R)}
    (hl : Legal call a h a') (hl' : Legal call a' h' a'') : Legal call a (h ++ h') a'' := by
  induction h generalizing a with
  | nil =>
    obtain rfl : a' = a := hl
    exact hl'
  | cons x h ih => exact ⟨hl.1, ih hl.2⟩

/-- 何も返さない一歩。 -/
theorem Legal.none (call : A → C → R × A) (a : A) : Legal call a (none : Option (C × R)).toList a :=
  rfl

/-- 一つ返す一歩。 -/
theorem Legal.some {call : A → C → R × A} {a a' : A} {c : C} {r : R} (h : call a c = (r, a')) :
    Legal call a (some (c, r)).toList a' := by
  rw [Option.toList_some]
  exact ⟨congrArg Prod.fst h, (congrArg Prod.snd h).symm⟩

/-- run の中で返された呼び出しと値を、返された順に並べる。 -/
def history (step : σ → α → Option σ) (emit : σ → α → σ → Option (C × R)) : σ → List α → List (C × R)
  | _, [] => []
  | s, a :: as =>
    match step s a with
    | none => []
    | some s' => (emit s a s').toList ++ history step emit s' as

variable {step : σ → α → Option σ} {emit : σ → α → σ → Option (C × R)}

theorem history_cons {s s' : σ} {a : α} (h : step s a = some s') (as : List α) :
    history step emit s (a :: as) = (emit s a s').toList ++ history step emit s' as := by
  rw [history, h]

/--
**線形化の規則。**

条件 `P` を満たす一歩が `I` を保ち、その一歩で返す値が `v` で見た状態への呼び出しと合うなら、run の中で
返された値の列も、`v` で見た状態への一つずつの呼び出しと合う。
-/
theorem linearizes {call : A → C → R × A} {v : σ → A} {P : σ → α → Prop} {I : σ → Prop}
    (hstep : ∀ s a s', P s a → step s a = some s' → I s →
      I s' ∧ Legal call (v s) (emit s a s').toList (v s'))
    {s t : σ} {as : List α} (hP : Along step P s as) (hrun : run step s as = some t) (hI : I s) :
    I t ∧ Legal call (v s) (history step emit s as) (v t) := by
  induction as generalizing s with
  | nil =>
    obtain rfl := Option.some.inj ((run_nil step s).symm.trans hrun)
    exact ⟨hI, rfl⟩
  | cons a as ih =>
    obtain ⟨s', hs, ht⟩ := (run_cons_eq_some step).mp hrun
    obtain ⟨hI', hlegal⟩ := hstep s a s' hP.1 hs hI
    obtain ⟨hIt, hrest⟩ := ih (hP.2 s' hs) ht hI'
    refine ⟨hIt, ?_⟩
    rw [history_cons hs]
    exact hlegal.append hrest

/-- 一歩で減らない量は、run のどの一歩の後でも、終わりの値を越えない。 -/
theorem along_le {f : σ → Nat} (hmono : ∀ s a s', step s a = some s' → f s ≤ f s') {s t : σ}
    {as : List α} (hrun : run step s as = some t) :
    Along step (fun s a => ∀ s', step s a = some s' → f s' ≤ f t) s as ∧ f s ≤ f t := by
  induction as generalizing s with
  | nil =>
    obtain rfl := Option.some.inj ((run_nil step s).symm.trans hrun)
    exact ⟨True.intro, Nat.le_refl _⟩
  | cons a as ih =>
    obtain ⟨s', hs, ht⟩ := (run_cons_eq_some step).mp hrun
    obtain ⟨hrest, hle⟩ := ih ht
    refine ⟨⟨fun s'' hs'' => ?_, fun s'' hs'' => ?_⟩, Nat.le_trans (hmono s a s' hs) hle⟩
    · obtain rfl := Option.some.inj (hs.symm.trans hs'')
      exact hle
    · obtain rfl := Option.some.inj (hs.symm.trans hs'')
      exact hrest

end RecordServer.Infra
