import RecordServer.Conf.ParseBlock

/-!
# parser が受け入れるファイル

`parse` が 0 を返すファイルと文法の違いは、ファイルの終わり方だけにある。

* `parse_complete` / `returnCode_eq_zero_iff` — `parse` が 0 を返すちょうどの条件
* `returns_zero_iff_inGrammar_iff` — ASCII のファイルで、`parse` の返り値が文法と一致するのは、
  値の `;` でも裸の名前でも終わらず、区切りで終わるときは初期化されていない `name` が `NULL` で
  ないときに限る
-/

namespace RecordServer.Conf

open Infra

variable {env : Env} {top : Bool} {buf p q : Bytes} {t : Entries}

/-! ## `parse` の返り値 -/

/-- `parse` の返り値。 -/
def returnCode (env : Env) (buf : Bytes) : Option Int := (parse env buf).map (·.1)

/-- `parse` の中の `parse_main` は必ず終わる。 -/
theorem parseMain_outcome (env : Env) (buf : Bytes) :
    ∃ r s cn, parseMain env (buf.length + 1) buf ⟨1, 0, []⟩ = some (r, s, cn) ∧
      LoopOutcome env true buf ⟨1, 0, []⟩ (some (r, s, cn)) := by
  have h := parseLoop_sound env (buf.length + 1) true buf ⟨1, 0, []⟩ (Nat.lt_succ_self _)
  cases hmain : parseMain env (buf.length + 1) buf ⟨1, 0, []⟩ with
  | none =>
    rw [parseMain] at hmain
    rw [hmain] at h
    exact h.elim
  | some res =>
    rw [parseMain] at hmain
    rw [hmain] at h
    exact ⟨res.1, res.2.1, res.2.2, rfl, h⟩

/-- `parse` は必ず終わり、0 か -1 を返す。 -/
theorem returnCode_total (env : Env) (buf : Bytes) :
    returnCode env buf = some 0 ∨ returnCode env buf = some (-1) := by
  obtain ⟨r, s, cn, hmain, -⟩ := parseMain_outcome env buf
  by_cases hok : r = some [] ∧ s.level = 0
  · simp [returnCode, parse, hmain, hok]
  · simp [returnCode, parse, hmain, hok]

/-- 文法どおりで、終わり方が許すファイルは、その木の list になる。 -/
theorem parse_complete (h : Parses env.alphabet true buf t p) (hstop : Stops env true p [])
    (hp : p = [] → t.endsInValue = false) :
    ∃ s, parse env buf = some (0, s, stored t) := by
  obtain ⟨s, hs, hloop⟩ :=
    parseLoop_complete h (buf.length + 1) ⟨1, 0, []⟩ [] hp hstop (Nat.lt_succ_self _)
  refine ⟨s, ?_⟩
  have hlevel : s.level = 0 := hs
  simp [parse, parseMain, hloop, hlevel]

/-- `parse` が 0 を返したなら、項目を読み切った木の list が出来ている。 -/
theorem parse_sound {s : Pconf} {cn : CN} (h : parse env buf = some (0, s, cn)) :
    ∃ t p, Parses env.alphabet true buf t p ∧ Stops env true p [] ∧
      (p = [] → t.endsInValue = false) ∧ cn = stored t := by
  obtain ⟨r, s', cn', hmain, houtcome⟩ := parseMain_outcome env buf
  by_cases hok : r = some [] ∧ s'.level = 0
  · obtain ⟨rfl, hlevel⟩ := hok
    obtain ⟨-, rfl⟩ : s' = s ∧ cn' = cn := by simpa [parse, hmain, hlevel] using h
    rcases houtcome with ⟨t, p, hparse, hstop, hp, -, hcn⟩ | ⟨-, hlt⟩
    · exact ⟨t, p, hparse, hstop, hp, hcn⟩
    · -- 閉じていない block があれば `level` は 0 に戻らない
      rw [hlevel] at hlt
      cases hlt
  · simp [parse, hmain, hok] at h

/-- **`parse` が 0 を返すのは、項目を読み切り、その終わり方が許されるときに限る。** -/
theorem returnCode_eq_zero_iff (env : Env) (buf : Bytes) :
    returnCode env buf = some 0 ↔ ∃ t p, Parses env.alphabet true buf t p ∧ Stops env true p [] ∧
      (p = [] → t.endsInValue = false) := by
  constructor
  · intro hzero
    obtain ⟨⟨code, s, cn⟩, hparse, rfl⟩ := Option.map_eq_some_iff.mp hzero
    obtain ⟨t, p, hparse, hstop, hp, -⟩ := parse_sound hparse
    exact ⟨t, p, hparse, hstop, hp⟩
  · rintro ⟨t, p, hparse, hstop, hp⟩
    obtain ⟨s, hs⟩ := parse_complete hparse hstop hp
    simp [returnCode, hs]

/-! ## ファイルの終わり方 -/

/-- 値の項目の `;` がファイルの最後の byte である。 -/
def EndsInValue (s : Bytes) : Prop := ∃ t, Parses tables true s t [] ∧ t.endsInValue = true

/-- 項目の後に名前だけがあり、それがファイルの終わりに接している。 -/
def EndsInName (s : Bytes) : Prop := ∃ t q, Parses tables true s t q ∧ BareName tables q

/-- 項目の後が `k` byte の空白とコメントだけである。 -/
def EndsInSep (s : Bytes) (k : Nat) : Prop :=
  ∃ t q, Parses tables true s t q ∧ SepEnd q ∧ q ≠ [] ∧ q.length = k

theorem sepEnd_nil : SepEnd [] := Or.inl (.refl [])

theorem BareName.not_sepEnd {A : Alphabet} (h : BareName A q) : ¬SepEnd q := by
  obtain ⟨p, n, hsep, hname⟩ := h
  have hsolid := solid_of_name hname
  rw [sepEnd_iff, hsep.skip_eq hsolid]
  exact hsolid.ne_nil

theorem BareName.ne_nil {A : Alphabet} (h : BareName A q) : q ≠ [] := by
  rintro rfl
  exact h.not_sepEnd sepEnd_nil

theorem BareName.congr {A B : Alphabet} (h : BareName A q) (hAB : Agree A B q) : BareName B q := by
  obtain ⟨p, n, hsep, hname⟩ := h
  exact ⟨p, n, hsep, (hAB.mono hsep.suffix).run_name hname⟩

/-- ASCII のファイルで `parse` が 0 を返す条件を、二つの表で言う。 -/
theorem returnCode_eq_zero_iff_tables (env : Env) {s : Bytes} (hs : ∀ b ∈ s, b < 128) :
    returnCode env s = some 0 ↔ ∃ t q, Parses tables true s t q ∧ (q = [] → t.endsInValue = false) ∧
      (q = [] ∨ (SepEnd q ∧ env.name q.length ≠ none) ∨ BareName tables q) := by
  have hagree := agree_tables env hs
  rw [returnCode_eq_zero_iff]
  constructor
  · rintro ⟨t, q, hparse, ⟨-, hstop⟩, hq⟩
    have hagree' := hagree.mono hparse.suffix
    exact ⟨t, q, hparse.congr hagree, hq, hstop.imp_right (Or.imp_right (·.congr hagree'))⟩
  · rintro ⟨t, q, hparse, hq, hstop⟩
    have hagree' := hagree.symm.mono hparse.suffix
    exact ⟨t, q, hparse.congr hagree.symm,
      ⟨rfl, hstop.imp_right (Or.imp_right (·.congr hagree'))⟩, hq⟩

theorem done_of_stop {A : Alphabet} {k : Prop} (h : q = [] ∨ (SepEnd q ∧ k) ∨ BareName A q) :
    Done A q := by
  rcases h with rfl | ⟨hend, -⟩ | hbare
  · exact Or.inr (Or.inl sepEnd_nil)
  · exact Or.inr (Or.inl hend)
  · exact Or.inr (Or.inr hbare)

/-- **`parse` の返り値が文法と一致するのは、ファイルが値の `;` でも裸の名前でも終わらず、
区切りで終わるときは、初期化されていない `name` が `NULL` でないときに限る。** -/
theorem returns_zero_iff_inGrammar_iff (env : Env) (s : Bytes) (hs : ∀ b ∈ s, b < 128) :
    (returnCode env s = some 0 ↔ InGrammar s) ↔
      ¬EndsInValue s ∧ ¬EndsInName s ∧ ∀ k, EndsInSep s k → env.name k ≠ none := by
  rw [returnCode_eq_zero_iff_tables env hs]
  constructor
  · intro h
    refine ⟨?_, ?_, ?_⟩
    -- どの場合も、`parse` の読み方と文法の読み方は一意性で同じになる
    · rintro ⟨t, hparse, ht⟩
      obtain ⟨t', q', hparse', hq', hstop⟩ := h.mpr ⟨t, [], hparse, sepEnd_nil⟩
      obtain ⟨rfl, rfl⟩ := hparse.unique hparse' (Or.inr (Or.inl sepEnd_nil)) (done_of_stop hstop)
      rw [hq' rfl] at ht
      cases ht
    · rintro ⟨t, q, hparse, hbare⟩
      obtain ⟨t', q', hparse', hend⟩ :=
        h.mp ⟨t, q, hparse, fun hq => absurd hq hbare.ne_nil, Or.inr (Or.inr hbare)⟩
      obtain ⟨rfl, rfl⟩ := hparse.unique hparse' (Or.inr (Or.inr hbare)) (Or.inr (Or.inl hend))
      exact hbare.not_sepEnd hend
    · rintro k ⟨t, q, hparse, hend, hq, rfl⟩
      obtain ⟨t', q', hparse', -, hstop⟩ := h.mpr ⟨t, q, hparse, hend⟩
      obtain ⟨rfl, rfl⟩ := hparse.unique hparse' (Or.inr (Or.inl hend)) (done_of_stop hstop)
      rcases hstop with hnil | ⟨-, hname⟩ | hbare
      · exact absurd hnil hq
      · exact hname
      · exact absurd hend hbare.not_sepEnd
  · rintro ⟨hvalue, hname, hsep⟩
    constructor
    · rintro ⟨t, q, hparse, -, rfl | ⟨hend, -⟩ | hbare⟩
      · exact ⟨t, [], hparse, sepEnd_nil⟩
      · exact ⟨t, q, hparse, hend⟩
      · exact absurd ⟨t, q, hparse, hbare⟩ hname
    · rintro ⟨t, q, hparse, hend⟩
      by_cases hq : q = []
      · subst hq
        refine ⟨t, [], hparse, fun _ => ?_, Or.inl rfl⟩
        rw [← Bool.not_eq_true]
        exact fun ht => hvalue ⟨t, hparse, ht⟩
      · have hjunk := hsep q.length ⟨t, q, hparse, hend, hq, rfl⟩
        exact ⟨t, q, hparse, fun h => absurd h hq, Or.inr (Or.inl ⟨hend, hjunk⟩)⟩

/-! ## 値の項目一つのファイル -/

/-- `a 1;` で始まるファイルの読み方。 -/
theorem parses_value (q : Bytes) :
    Parses tables true (97 :: 32 :: 49 :: semicolon :: q) (.leaf [97] (.value [49]) .nil) q := by
  have hname :
      Run tables.name (97 :: 32 :: 49 :: semicolon :: q) [97] (32 :: 49 :: semicolon :: q) :=
    ⟨rfl, by decide, by decide +kernel, by rintro b ⟨⟩; decide +kernel⟩
  have hvalue : Value tables (49 :: semicolon :: q) [49] (semicolon :: q) :=
    ⟨⟨rfl, by decide, by decide +kernel, by rintro b ⟨⟩; decide +kernel⟩, by decide⟩
  refine .leaf (.refl _) hname ?_ (.nil q)
  exact .value (by decide +kernel) (.blank (by decide) (.refl _)) hvalue (by decide) (.refl _)

/-- どの変数にも決まった値が残っている環境。 -/
def fixedEnv (name : Option Bytes) : Env := ⟨fun _ => false, fun _ => false, fun _ => name⟩

theorem returns_zero_iff_inGrammar_newline :
    (∀ b ∈ ascii "a 1;\n", b < 128) ∧ ¬EndsInValue (ascii "a 1;\n") ∧
      ¬EndsInName (ascii "a 1;\n") ∧
      ∀ k, EndsInSep (ascii "a 1;\n") k → (fixedEnv (some [])).name k ≠ none := by
  have hs : ∀ b ∈ ascii "a 1;\n", b < 128 := by decide +kernel
  have hzero : returnCode (fixedEnv (some [])) (ascii "a 1;\n") = some 0 := by decide +kernel
  have hgrammar : InGrammar (ascii "a 1;\n") :=
    ⟨_, [newline], parses_value [newline], Or.inl (.blank rfl (.refl []))⟩
  exact ⟨hs, (returns_zero_iff_inGrammar_iff _ _ hs).mp (iff_of_true hzero hgrammar)⟩

/-- **`a 1;` で終わるファイルは文法に合うのに拒まれる。** -/
theorem value_at_end_rejected :
    ¬∀ (env : Env) (s : Bytes), (∀ b ∈ s, b < 128) → s.length < 262144 → ¬SepEnd s →
      (returnCode env s = some 0 ↔ InGrammar s) := by
  intro h
  have hgrammar : InGrammar (ascii "a 1;") := ⟨_, [], parses_value [], sepEnd_nil⟩
  have hcontent : ¬SepEnd (ascii "a 1;") := by
    rw [sepEnd_iff]
    decide +kernel
  have hzero := (h (fixedEnv (some [])) (ascii "a 1;") (by decide +kernel) (by decide +kernel)
    hcontent).mpr hgrammar
  have hreject : returnCode (fixedEnv (some [])) (ascii "a 1;") = some (-1) := by decide +kernel
  rw [hreject] at hzero
  cases hzero

end RecordServer.Conf
