import RecordServer.Conf.Unambiguous

/-!
# 字句を読む関数

`jumpspace` と三つの `find_valid_*` が、文法の区切り・NAME・VALUE をちょうど読むことを示す。
行番号と報告は変わるが、`level` は変わらない。

* `jumpspace_eq` — `jumpspace` は `skip` である
* `findValid_cases` — 並びを取る関数の結果
* `findValidValue_token` / `findValidValue_sound` — 値と `;`
-/

namespace RecordServer.Conf

open Infra

variable {env : Env} {p p₁ p₂ q v : Bytes} {s : Pconf}

/-! ## 表 -/

/-- parser が表を引いて許す文字。 -/
def Env.alphabet (env : Env) : Alphabet where
  name := validname env
  value := validvalue env
  name_delim := by
    simp only [List.forall_mem_cons]
    exact ⟨rfl, rfl, rfl, rfl, rfl, rfl, rfl, rfl, fun _ h => absurd h List.not_mem_nil⟩
  value_delim := by
    simp only [List.forall_mem_cons]
    exact ⟨rfl, rfl, rfl, rfl, rfl, rfl, rfl, rfl, fun _ h => absurd h List.not_mem_nil⟩

/-- ASCII の文字なら、表は範囲の中で引かれる。 -/
theorem lookup_charValue {b : UInt8} (hb : b < 128) (table : List Nat) (outside : Int → Bool) :
    (if charValue b > 127 then false else lookup table outside (charValue b)) = inTable table b := by
  have hlt : b.toNat < 128 := hb
  have hval : charValue b = b.toNat := by rw [charValue, if_pos hb]
  rw [hval, if_neg (by omega), lookup, if_pos (by omega), Int.toNat_natCast, inTable]

/-- **ASCII のファイルでは、parser は二つの表のとおりに文字を許す。** -/
theorem agree_tables (env : Env) (hp : ∀ b ∈ p, b < 128) : Agree env.alphabet tables p := by
  intro b hb
  exact ⟨lookup_charValue (hp b hb) _ _, lookup_charValue (hp b hb) _ _⟩

/-! ## 区切り -/

@[simp] theorem nextLine_level (s : Pconf) : s.nextLine.level = s.level := rfl

@[simp] theorem levelUp_level (s : Pconf) : s.levelUp.level = s.level + 1 := rfl

@[simp] theorem levelDown_level (s : Pconf) : s.levelDown.level = s.level - 1 := rfl

theorem jumpcomment_sharp (p : Bytes) (s : Pconf) :
    jumpcomment false (sharp :: p) s = jumpcomment true p s := by
  simp [jumpcomment]

theorem skip_jumpcomment (inside : Bool) (p : Bytes) (s : Pconf) :
    skip (jumpcomment inside p s).1 = skipFrom inside p := by
  induction p generalizing inside s with
  | nil => cases inside <;> rfl
  | cons b p ih =>
    cases inside with
    | true =>
      by_cases hb : b = newline
      · simp [jumpcomment, hb, ih, skipFrom]
      · simp [jumpcomment, hb, ih, skipFrom_true_cons (Ne.symm hb)]
    | false =>
      by_cases hb : b = sharp
      · subst hb
        rw [jumpcomment_sharp, ih]
        exact (skip_sharp p).symm
      · simp [jumpcomment, hb, skip]

theorem length_jumpcomment_le (inside : Bool) (p : Bytes) (s : Pconf) :
    (jumpcomment inside p s).1.length ≤ p.length := by
  induction p generalizing inside s with
  | nil => simp [jumpcomment]
  | cons b p ih =>
    simp only [jumpcomment]
    split_ifs
    · exact (ih _ _).trans (by simp)
    · exact (ih _ _).trans (by simp)
    · exact (ih _ _).trans (by simp)
    · simp

theorem jumpcomment_level (inside : Bool) (p : Bytes) (s : Pconf) :
    (jumpcomment inside p s).2.level = s.level := by
  induction p generalizing inside s with
  | nil => rfl
  | cons b p ih =>
    simp only [jumpcomment]
    split_ifs <;> simp [ih]

theorem jumpspaceLoop_fst (fuel : Nat) (p : Bytes) (s : Pconf) (hp : p.length ≤ fuel) :
    (jumpspaceLoop fuel p s).1 = skip p := by
  induction fuel generalizing p s with
  | zero =>
    rw [List.length_eq_zero_iff.mp (Nat.le_zero.mp hp)]
    rfl
  | succ fuel ih =>
    cases p with
    | nil => rfl
    | cons b p =>
      have hlen : p.length ≤ fuel := Nat.le_of_succ_le_succ hp
      simp only [jumpspaceLoop]
      split_ifs with h₁ h₂ h₃
      · rw [ih p s hlen, skip_blank]
        simpa [isBlank, or_assoc] using Or.imp_right (Or.imp_right Or.inl) h₁
      · rw [ih p _ hlen, skip_blank (by simp [isBlank, h₂])]
      · -- コメントの後は、行末の次から loop が続く
        subst h₃
        simp only [jumpcomment_sharp]
        rw [ih _ _ ((length_jumpcomment_le _ _ _).trans hlen), skip_jumpcomment, skip_sharp]
      · have hb : isBlank b = false := by
          simp only [not_or] at h₁
          simp [isBlank, h₁, h₂]
        exact (solid_cons.mpr ⟨hb, h₃⟩).skip_eq.symm

theorem jumpspaceLoop_level (fuel : Nat) (p : Bytes) (s : Pconf) :
    (jumpspaceLoop fuel p s).2.level = s.level := by
  induction fuel generalizing p s with
  | zero => rfl
  | succ fuel ih =>
    cases p with
    | nil => rfl
    | cons b p =>
      simp only [jumpspaceLoop]
      split_ifs <;> simp [ih, jumpcomment_level]

/-- 区切りを読み飛ばした後の状態。 -/
def Pconf.jumped (s : Pconf) (p : Bytes) : Pconf := (jumpspace p s).2

@[simp] theorem jumped_level (s : Pconf) (p : Bytes) : (s.jumped p).level = s.level :=
  jumpspaceLoop_level _ _ _

/-- **`jumpspace` は区切りをちょうど読み飛ばす。** -/
theorem jumpspace_eq (p : Bytes) (s : Pconf) : jumpspace p s = (skip p, s.jumped p) :=
  Prod.ext (jumpspaceLoop_fst _ _ _ le_rfl) rfl

/-! ## 並び -/

theorem findValid_token {c : UInt8 → Bool} {w : Bytes} (hsep : Sep p p₁) (hsolid : Solid p₁)
    (hrun : Run c p₁ w q) : findValid c p s = (q, .token w, s.jumped p) := by
  obtain ⟨b, w', -, hp₁, hb⟩ := hrun.head
  have hskip : skip p = b :: (w' ++ q) := (hsep.skip_eq hsolid).trans hp₁
  simp only [findValid, jumpspace_eq, hskip, hb, if_true]
  rw [← hp₁, hrun.dropWhile_eq, hrun.takeWhile_eq]

theorem findValid_end {c : UInt8 → Bool} (hp : skip p = []) :
    findValid c p s = ([], .untouched, s.jumped p) := by
  simp only [findValid, jumpspace_eq, hp]

/-- 並びを取る関数の結果。終わりに達するか、許されない文字に当たるか、並びを得る。 -/
theorem findValid_cases (c : UInt8 → Bool) (p : Bytes) (s : Pconf) :
    (skip p = [] ∧ findValid c p s = ([], .untouched, s.jumped p)) ∨
    (∃ q s', findValid c p s = (q, .null, s')) ∨
    (∃ p₁ w q, Sep p p₁ ∧ Solid p₁ ∧ Run c p₁ w q ∧
      findValid c p s = (q, .token w, s.jumped p)) := by
  cases hp : skip p with
  | nil => exact Or.inl ⟨rfl, findValid_end hp⟩
  | cons b rest =>
    obtain ⟨hsep, hsolid⟩ := sep_skip (p := p) (by simp [hp])
    rw [hp] at hsep hsolid
    by_cases hb : c b = true
    · exact Or.inr (Or.inr ⟨_, _, _, hsep, hsolid, .of_head hb,
        findValid_token hsep hsolid (.of_head hb)⟩)
    · refine Or.inr (Or.inl ⟨b :: rest, (s.jumped p).report .illegalChar (b :: rest), ?_⟩)
      simp [findValid, jumpspace_eq, hp, hb]

theorem deref_eq_iff {b : UInt8} (hb : b ≠ 0) : deref p = b ↔ ∃ rest, p = b :: rest := by
  cases p with
  | nil => simp [deref, Ne.symm hb]
  | cons a p => simp [deref]

/-- 区切りの後から取った値の並びは、`#` で始まらない。 -/
theorem value_of_run (hsolid : Solid p) (hrun : Run (validvalue env) p v q) :
    Value env.alphabet p v q := by
  refine ⟨hrun, ?_⟩
  obtain ⟨b, w, rfl, rfl, -⟩ := hrun.head
  simpa using (solid_cons.mp hsolid).2

theorem findValid_value (hsep : Sep p p₁) (hv : Value env.alphabet p₁ v q) :
    findValid (validvalue env) p s = (q, .token v, s.jumped p) :=
  findValid_token hsep hv.solid hv.1

/-- 区切りの後に値が来るなら、`find_valid_value` は `;` まで読む。 -/
theorem findValidValue_token (hsep : Sep p p₁) (hv : Value env.alphabet p₁ v p₂)
    (hend : Sep p₂ (semicolon :: q)) :
    findValidValue env p s = (q, .token v, (s.jumped p).jumped p₂) := by
  have hskip : skip p₂ = semicolon :: q := hend.skip_eq (solid_semicolon q)
  simp only [findValidValue, findValid_value hsep hv, jumpspace_eq, hskip, deref, if_true,
    List.tail_cons]

/-- `find_valid_value` が値を得たのなら、そこには値と `;` がある。 -/
theorem findValidValue_cases (env : Env) (p : Bytes) (s : Pconf) :
    (∃ q w s', findValidValue env p s = (q, w, s') ∧ w.read none = none) ∨
    (∃ p₁ v p₂ q, Sep p p₁ ∧ Value env.alphabet p₁ v p₂ ∧ Sep p₂ (semicolon :: q) ∧
      findValidValue env p s = (q, .token v, (s.jumped p).jumped p₂)) := by
  -- 並びが取れても、その後が `;` でなければ `*o` は `NULL` に書き直される
  rcases findValid_cases (validvalue env) p s with
    ⟨-, h⟩ | ⟨q, s', h⟩ | ⟨p₁, v, p₂, hsep, hsolid, hrun, h⟩
  · exact Or.inl ⟨[], .untouched, s.jumped p, by simp only [findValidValue, h], rfl⟩
  · exact Or.inl ⟨q, .null, s', by simp only [findValidValue, h], rfl⟩
  · by_cases hend : deref (skip p₂) = semicolon
    · obtain ⟨q, hq⟩ := (deref_eq_iff (by decide)).mp hend
      have hsep₂ : Sep p₂ (semicolon :: q) := hq ▸ (sep_skip (by simp [hq])).1
      have hv := value_of_run hsolid hrun
      exact Or.inr ⟨p₁, v, p₂, q, hsep, hv, hsep₂, findValidValue_token hsep hv hsep₂⟩
    · refine Or.inl ⟨skip p₂, .null, ((s.jumped p).jumped p₂).report .expectSemicolon (skip p₂),
        ?_, rfl⟩
      simp only [findValidValue, h, jumpspace_eq, if_neg hend]

theorem findValidArrayValue_token (hsep : Sep p p₁) (hv : Value env.alphabet p₁ v q) :
    findValidArrayValue env p s = (skip q, .token v, (s.jumped p).jumped q) := by
  simp only [findValidArrayValue, findValid_value hsep hv, jumpspace_eq]

theorem findValidArrayValue_cases (env : Env) (p : Bytes) (s : Pconf) :
    (∃ q w s', findValidArrayValue env p s = (q, w, s') ∧ w.read none = none) ∨
    (∃ p₁ v q, Sep p p₁ ∧ Value env.alphabet p₁ v q ∧
      findValidArrayValue env p s = (skip q, .token v, (s.jumped p).jumped q)) := by
  rcases findValid_cases (validvalue env) p s with
    ⟨-, h⟩ | ⟨q, s', h⟩ | ⟨p₁, v, q, hsep, hsolid, hrun, h⟩
  · exact Or.inl ⟨[], .untouched, s.jumped p, by simp only [findValidArrayValue, h], rfl⟩
  · exact Or.inl ⟨q, .null, s', by simp only [findValidArrayValue, h], rfl⟩
  · have hv := value_of_run hsolid hrun
    exact Or.inr ⟨p₁, v, q, hsep, hv, findValidArrayValue_token hsep hv⟩

/-! ## 先読み -/

theorem isSubNode_eq (p : Bytes) (s : Pconf) :
    isSubNode p s = ((skip p).head? == some lbrace, s.jumped p) := by
  simp only [isSubNode, nextIs, jumpspace_eq]

theorem isArrayNode_eq (p : Bytes) (s : Pconf) :
    isArrayNode p s = ((skip p).head? == some lbracket, s.jumped p) := by
  simp only [isArrayNode, nextIs, jumpspace_eq]

/-- 先読みで見えた文字は、区切りの後にある。 -/
theorem sep_of_head? {b : UInt8} (h : (skip p).head? = some b) :
    ∃ q, skip p = b :: q ∧ Sep p (b :: q) := by
  obtain ⟨q, hq⟩ := List.head?_eq_some_iff.mp h
  exact ⟨q, hq, hq ▸ (sep_skip (by simp [hq])).1⟩

end RecordServer.Conf
