import RecordServer.Conf.Lexing

/-!
# 配列を読む loop（`parse_arraylh`）

* `parseArraylh_complete` — 文法どおりの配列は最後まで読まれ、要素の list になる
* `parseArraylh_sound` — 必ず終わり、`NULL` でない位置を返すのは、閉じたときか、
  閉じないままファイルが終わったときである。後の場合は `level` が戻らない
-/

namespace RecordServer.Conf

open Infra

variable {env : Env} {p p₁ p₂ p₃ q v : Bytes} {vs : List Bytes} {s : Pconf}

/-! ## 出来上がる list -/

/-- 配列の要素の節。 -/
def storedArray : List Bytes → CN
  | [] => newNode
  | v :: vs => Fields.link ⟨[], rcStrncpy confVarl v, .arrayEle, .null⟩ (storedArray vs)

/-- loop の一周が読んだ値を、残りの list の前に繋ぐ。 -/
def linkElement (v : Bytes) : Result → Result
  | (r, s, next) => (r, s, Fields.link ⟨[], rcStrncpy confVarl v, .arrayEle, .null⟩ next)

/-! ## 区切りを先に読んでもよい -/

theorem Sep.trans (h : Sep p q) (h' : Sep q p₁) : Sep p p₁ := by
  induction h with
  | refl p => exact h'
  | blank hb _ ih => exact .blank hb (ih h')
  | comment hc _ ih => exact .comment hc (ih h')

theorem MoreValues.of_sep {A : Alphabet} (hsep : Sep p p₁) (h : MoreValues A p₁ vs q) :
    MoreValues A p vs q := by
  rcases h with h | ⟨hcomma, hsep', hv, h⟩
  · exact .close (hsep.trans h)
  · exact .comma (hsep.trans hcomma) hsep' hv h

theorem MoreValues.skip_ne_nil {A : Alphabet} (h : MoreValues A p vs q) : skip p ≠ [] := by
  rcases h with h | ⟨hcomma, -, -, -⟩
  · rw [h.skip_eq (solid_rbracket q)]
    simp
  · rw [hcomma.skip_eq (solid_comma _)]
    simp

/-! ## 一周 -/

/-- 閉じ括弧で返る。 -/
theorem parseArraylhLoop_close (env : Env) (fuel : Nat) (need : Bool) (s : Pconf)
    (h : Sep p (rbracket :: q)) :
    parseArraylhLoop env (fuel + 1) need p s = some (some q, (s.jumped p).levelDown, newNode) := by
  have hskip := h.skip_eq (solid_rbracket q)
  cases p with
  | nil => cases hskip
  | cons b p => simp only [parseArraylhLoop, jumpspace_eq, hskip, if_true]

/-- 閉じ括弧でなければ、要るときは `,` を飛ばして、値を読む。 -/
theorem parseArraylhLoop_step (env : Env) (fuel : Nat) (need : Bool) {b : UInt8} (s : Pconf)
    (hskip : skip p = b :: q) (hb : b ≠ rbracket) (hneed : need = true → b = comma) :
    parseArraylhLoop env (fuel + 1) need p s =
      match findValidArrayValue env (if need then q else b :: q) (s.jumped p) with
      | (p₁, w, s₁) =>
        match w.read none with
        | none => some (none, s₁.report .uncompletedFile p₁, newNode)
        | some v =>
          if p₁ = [] then some (none, s₁.report .uncompletedLine p₁, newNode)
          else (parseArraylhLoop env fuel true p₁ s₁).map (linkElement v) := by
  cases p with
  | nil => cases hskip
  | cons a p =>
    have hc : ¬(need = true ∧ b ≠ comma) := fun h => h.2 (hneed h.1)
    simp only [parseArraylhLoop, jumpspace_eq, hskip, if_neg hb, if_neg hc]
    rfl

/-- 初めの周回は、区切りの後の値を読む。 -/
theorem parseArraylhLoop_first (env : Env) (fuel : Nat) (s : Pconf) (hsep : Sep p p₁)
    (hv : Value env.alphabet p₁ v p₂) (hp₂ : skip p₂ ≠ []) :
    ∃ s', s'.level = s.level ∧ parseArraylhLoop env (fuel + 1) false p s
      = (parseArraylhLoop env fuel true (skip p₂) s').map (linkElement v) := by
  have hskip := hsep.skip_eq hv.solid
  obtain ⟨b, w, -, hp₁, hb⟩ := hv.1.head
  have hne : b ≠ rbracket := Alphabet.value_ne hb (by decide)
  have hread := findValidArrayValue_token (s := s.jumped p) (.refl _) hv
  refine ⟨((s.jumped p).jumped p₁).jumped p₂, by simp, ?_⟩
  rw [parseArraylhLoop_step env fuel false s (hskip.trans hp₁) hne nofun]
  simp only [Bool.false_eq_true, if_false, ← hp₁, hread, Written.read, if_neg hp₂]

/-- 二周目からは、`,` と値を読む。 -/
theorem parseArraylhLoop_more (env : Env) (fuel : Nat) (s : Pconf) (hcomma : Sep p (comma :: p₁))
    (hsep : Sep p₁ p₂) (hv : Value env.alphabet p₂ v p₃) (hp₃ : skip p₃ ≠ []) :
    ∃ s', s'.level = s.level ∧ parseArraylhLoop env (fuel + 1) true p s
      = (parseArraylhLoop env fuel true (skip p₃) s').map (linkElement v) := by
  have hskip := hcomma.skip_eq (solid_comma p₁)
  refine ⟨((s.jumped p).jumped p₁).jumped p₃, by simp, ?_⟩
  rw [parseArraylhLoop_step env fuel true s hskip (by decide) fun _ => rfl]
  simp only [if_true, findValidArrayValue_token hsep hv, Written.read, if_neg hp₃]

/-! ## 文法どおりなら読める -/

/-- 二つ目からの要素。値の後の区切りは、もう読み飛ばされている。 -/
theorem parseArraylhLoop_complete (h : MoreValues env.alphabet p vs q) :
    ∀ fuel s, p.length < fuel → ∃ s', s'.level = s.level - 1 ∧
      parseArraylhLoop env fuel true (skip p) s = some (some q, s', storedArray vs) := by
  induction h with
  | @close p q h =>
    intro fuel s hfuel
    obtain ⟨fuel, rfl⟩ := Nat.exists_eq_add_one_of_ne_zero (Nat.ne_zero_of_lt hfuel)
    rw [h.skip_eq (solid_rbracket q)]
    exact ⟨_, by simp, parseArraylhLoop_close env fuel true s (.refl _)⟩
  | @comma p p₁ p₂ p₃ q v vs hcomma hsep hv hrest ih =>
    intro fuel s hfuel
    obtain ⟨fuel, rfl⟩ := Nat.exists_eq_add_one_of_ne_zero (Nat.ne_zero_of_lt hfuel)
    rw [hcomma.skip_eq (solid_comma p₁)]
    obtain ⟨s₁, hs₁, hloop⟩ :=
      parseArraylhLoop_more env fuel s (.refl _) hsep hv hrest.skip_ne_nil
    have hlen : p₃.length < fuel := by
      have h₁ := hv.1.length_lt
      have h₂ := hsep.length_le
      have h₃ := hcomma.length_le
      rw [List.length_cons] at h₃
      omega
    obtain ⟨s₂, hs₂, hrec⟩ := ih fuel s₁ hlen
    refine ⟨s₂, by rw [hs₂, hs₁], ?_⟩
    rw [hloop, hrec]
    rfl

/-- **文法どおりの配列は閉じ括弧まで読まれ、要素の list になる。** -/
theorem parseArraylh_complete (h : Values env.alphabet p vs q) (fuel : Nat) (s : Pconf)
    (hfuel : p.length < fuel) : ∃ s', s'.level = s.level ∧
      parseArraylh env fuel p s = some (some q, s', storedArray vs) := by
  obtain ⟨fuel, rfl⟩ := Nat.exists_eq_add_one_of_ne_zero (Nat.ne_zero_of_lt hfuel)
  rcases h with h | ⟨hsep, hv, h⟩
  · exact ⟨_, by simp, parseArraylhLoop_close env fuel false s.levelUp h⟩
  · obtain ⟨s₁, hs₁, hloop⟩ :=
      parseArraylhLoop_first env fuel s.levelUp hsep hv h.skip_ne_nil
    have hlen := hv.1.length_lt.trans_le hsep.length_le
    obtain ⟨s₂, hs₂, hrec⟩ := parseArraylhLoop_complete h fuel s₁ (by omega)
    refine ⟨s₂, by rw [hs₂, hs₁, levelUp_level]; omega, ?_⟩
    rw [parseArraylh, hloop, hrec]
    rfl

/-! ## 読めたなら文法どおり -/

/-- 配列の残り。`need` は、次の要素の前に `,` が要ることをいう。 -/
def Elements (A : Alphabet) (need : Bool) (p : Bytes) (vs : List Bytes) (q : Bytes) : Prop :=
  if need then MoreValues A p vs q else Values A p vs q

/-- loop の結果。燃料は切れない。位置を返すのは、閉じたときか、`level` を戻さずに終わりに達したときである。 -/
def ArrayOutcome (A : Alphabet) (need : Bool) (p : Bytes) (s : Pconf) : Option Result → Prop
  | none => False
  | some (none, _, _) => True
  | some (some q, s', cn) =>
    (∃ vs, Elements A need p vs q ∧ s'.level = s.level - 1 ∧ cn = storedArray vs) ∨
      (q = [] ∧ s.level ≤ s'.level)

theorem ArrayOutcome.link {A : Alphabet} {need : Bool} {s s₁ : Pconf} {o : Option Result}
    (h : ArrayOutcome A true p₁ s₁ o) (hs : s₁.level = s.level)
    (hcons : ∀ vs q, MoreValues A p₁ vs q → Elements A need p (v :: vs) q) :
    ArrayOutcome A need p s (o.map (linkElement v)) := by
  match o, h with
  | some (none, s', cn), _ => trivial
  | some (some q, s', cn), Or.inl ⟨vs, helem, hl, hcn⟩ =>
    exact Or.inl ⟨v :: vs, hcons vs q helem, hl.trans (by rw [hs]),
      by rw [hcn]; rfl⟩
  | some (some q, s', cn), Or.inr ⟨hq, hl⟩ => exact Or.inr ⟨hq, hs ▸ hl⟩

theorem parseArraylhLoop_sound (env : Env) (fuel : Nat) (need : Bool) (p : Bytes) (s : Pconf)
    (hfuel : p.length < fuel) :
    ArrayOutcome env.alphabet need p s (parseArraylhLoop env fuel need p s) := by
  -- 燃料についての帰納法。値を一つ読むごとに残りが短くなるので、燃料は切れない
  induction fuel generalizing need p s with
  | zero => cases hfuel
  | succ fuel ih =>
    cases hp : skip p with
    | nil =>
      cases p with
      | nil => exact Or.inr ⟨rfl, Int.le_refl _⟩
      | cons b p =>
        simp only [parseArraylhLoop, jumpspace_eq, hp]
        trivial
    | cons b rest =>
      obtain ⟨hsep, hsolid⟩ := sep_skip (p := p) (by simp [hp])
      rw [hp] at hsep hsolid
      by_cases hb : b = rbracket
      · subst hb
        rw [parseArraylhLoop_close env fuel need s hsep]
        refine Or.inl ⟨[], ?_, by simp, rfl⟩
        cases need with
        | true => exact .close hsep
        | false => exact .close hsep
      · by_cases hneed : need = true → b = comma
        · rw [parseArraylhLoop_step env fuel need s hp hb hneed]
          rcases findValidArrayValue_cases env (if need then rest else b :: rest) (s.jumped p) with
            ⟨q, w, s', h, hw⟩ | ⟨p₁, v, p₂, hsep₁, hv, h⟩
          · simp only [h, hw]
            trivial
          · simp only [h, Written.read]
            by_cases hp₂ : skip p₂ = []
            · rw [if_pos hp₂]
              trivial
            · rw [if_neg hp₂]
              have hlen : (skip p₂).length < fuel := by
                have h₁ := length_skip_le p₂
                have h₂ := hv.1.length_lt
                have h₃ : p₁.length ≤ (b :: rest).length := by
                  refine hsep₁.length_le.trans ?_
                  cases need <;> simp
                have h₄ := hsep.length_le
                omega
              refine (ih true (skip p₂) _ hlen).link ?_ ?_
              · simp
              intro vs q hmore
              have hmore := hmore.of_sep (sep_skip hp₂).1
              cases need with
              | true =>
                cases hneed rfl
                exact .comma hsep hsep₁ hv hmore
              | false => exact .first (hsep.trans hsep₁) hv hmore
        · obtain ⟨rfl, hc⟩ := Classical.not_imp.mp hneed
          cases p with
          | nil => cases hp
          | cons a p =>
            simp only [parseArraylhLoop, jumpspace_eq, hp, if_neg hb, hc, ne_eq, not_false_eq_true,
              and_self, if_true]
            trivial

/-- **`parse_arraylh` は必ず終わり、位置を返すのは閉じたときか、`level` を戻さずに終わりに達したときである。** -/
theorem parseArraylh_sound (env : Env) (fuel : Nat) (p : Bytes) (s : Pconf)
    (hfuel : p.length < fuel) :
    ArrayOutcome env.alphabet false p s.levelUp (parseArraylh env fuel p s) :=
  parseArraylhLoop_sound env fuel false p s.levelUp hfuel

end RecordServer.Conf
