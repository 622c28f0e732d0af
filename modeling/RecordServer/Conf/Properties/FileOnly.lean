import RecordServer.Conf.RawErase
import RecordServer.Conf.Properties.Acceptance

/-!
# `parse` の結果は、初期化されない局所変数によるか

`find_valid_name` は、区切りの後がファイルの終わりなら `name` に書かない。`parse_main` はその前に
`name` を調べるので、返り値が不定の値で決まる。`parse_smodlh` は先に `p >= end` を調べる。

* `parseLoop_false_env` — block の中の並びは、局所変数によらない
* `fileOnly_iff` — 返り値と木がファイルだけで決まるのは、項目の後が空でない区切りだけで
  終わらないときに限る
-/

namespace RecordServer.Conf

open Infra Raw

variable {env : Env} {top : Bool} {p p₁ p₂ q n : Bytes} {s : Pconf}

/-! ## 性質 -/

/-- `parse` の返り値と木。 -/
def Raw.outcome (env : Env) (locals : Locals) (buf : Bytes) : Option (Int × CN) :=
  (Raw.parse env locals buf).map fun r => (r.1, r.2.2)

/-- 局所変数の初めの値が何であっても、返り値と木は同じである。 -/
def FileOnly (env : Env) (buf : Bytes) : Prop :=
  ∀ locals locals' : Locals, Raw.outcome env locals buf = Raw.outcome env locals' buf

/-- 項目の並びの後が、空でない区切りだけである。 -/
def BlankEnd (A : Alphabet) (buf : Bytes) : Prop :=
  ∃ t q, Parses A true buf t q ∧ SepEnd q ∧ q ≠ []

/-! ## block の中 -/

theorem parseArraylhLoop_env (env : Env) (locals : Locals) (fuel : Nat) (need : Bool) (p : Bytes)
    (s : Pconf) :
    Conf.parseArraylhLoop (locals.env env) fuel need p s
      = Conf.parseArraylhLoop env fuel need p s := by
  induction fuel generalizing need p s with
  | zero => rfl
  | succ fuel ih =>
    cases p with
    | nil => rfl
    | cons b p =>
      simp only [Conf.parseArraylhLoop, ih]
      rfl

theorem parseArraylh_env (env : Env) (locals : Locals) (fuel : Nat) :
    Conf.parseArraylh (locals.env env) fuel = Conf.parseArraylh env fuel :=
  funext₂ fun p s => parseArraylhLoop_env env locals fuel false p s.levelUp

theorem parseEntry_env (sub arr : Bytes → Pconf → Option Conf.Result) (env : Env)
    (locals : Locals) (top : Bool) (n p : Bytes) (s : Pconf) :
    Conf.parseEntry sub arr (locals.env env) top n p s = Conf.parseEntry sub arr env top n p s :=
  rfl

/-- 終わりに達しないなら、`find_valid_name` は `name` を書く。 -/
theorem findValidName_written (env : Env) (s : Pconf) (hp : skip p ≠ []) :
    (∃ q s', Conf.findValidName env p s = (q, .null, s')) ∨
    (∃ q w s', Conf.findValidName env p s = (q, .token w, s')) := by
  rcases Conf.findValid_cases (validname env) p s with
    ⟨hend, -⟩ | ⟨q, s', h⟩ | ⟨p₁, w, q, -, -, -, h⟩
  · exact absurd hend hp
  · exact Or.inl ⟨q, s', h⟩
  · exact Or.inr ⟨q, w, _, h⟩

theorem parseMainHead_env (env : Env) (locals : Locals) (s : Pconf) (hp : skip p ≠ []) :
    Conf.parseMainHead (locals.env env) p s = Conf.parseMainHead env p s := by
  have hname : Conf.findValidName (locals.env env) p s = Conf.findValidName env p s := rfl
  simp only [Conf.parseMainHead, hname]
  rcases findValidName_written env s hp with ⟨q, s', h⟩ | ⟨q, w, s', h⟩
  · simp only [h, Written.read]
  · simp only [h, Written.read]

/-- `parse_smodlh` は `p >= end` を先に調べるので、不定の `name` を読まない。 -/
theorem parseSmodlhHead_env (env : Env) (locals : Locals) (p : Bytes) (s : Pconf) :
    Conf.parseSmodlhHead (locals.env env) p s = Conf.parseSmodlhHead env p s := by
  simp only [Conf.parseSmodlhHead, Conf.jumpspace_eq]
  cases hp : skip p with
  | nil => rfl
  | cons b rest =>
    obtain ⟨-, hsolid⟩ := sep_skip (p := p) (by simp [hp])
    rw [hp] at hsolid
    have hname : Conf.findValidName (locals.env env) (b :: rest) (s.jumped p)
      = Conf.findValidName env (b :: rest) (s.jumped p) := rfl
    have hskip : skip (b :: rest) ≠ [] := by
      rw [hsolid.skip_eq]
      exact hsolid.ne_nil
    simp only [hname]
    rcases findValidName_written env (s.jumped p) hskip with ⟨q, s', h⟩ | ⟨q, w, s', h⟩
    · simp only [h, Written.read]
    · simp only [h, Written.read]

/-- **block の中の並びは、局所変数の初めの値によらない。** -/
theorem parseLoop_false_env (env : Env) (locals : Locals) (fuel : Nat) :
    Conf.parseLoop (locals.env env) fuel false = Conf.parseLoop env fuel false := by
  induction fuel with
  | zero => rfl
  | succ fuel ih =>
    funext p s
    cases p with
    | nil => rfl
    | cons b p =>
      have hhead : Conf.parseHead (locals.env env) false (b :: p) s
        = Conf.parseHead env false (b :: p) s := parseSmodlhHead_env env locals (b :: p) s
      simp only [Conf.parseLoop, hhead, ih, parseArraylh_env, parseEntry_env]

/-! ## ファイルの並び -/

/-- 項目を読んで `p` から `q` へ進んだ。`q` の先が読めれば、`p` の先も同じ所まで読める。 -/
structure Advances (A : Alphabet) (p q : Bytes) : Prop where
  length_lt : q.length < p.length
  parses : ∀ t m, Parses A true q t m → ∃ t', Parses A true p t' m

theorem Advances.blankEnd {A : Alphabet} (h : Advances A p q) (hq : BlankEnd A q) :
    BlankEnd A p := by
  obtain ⟨t, m, hparse, hend, hm⟩ := hq
  obtain ⟨t', hparse'⟩ := h.parses t m hparse
  exact ⟨t', m, hparse', hend, hm⟩

/-- 周回の始めが名前を得たなら、そこには名前がある。 -/
theorem name_of_parseHead {s' : Pconf} (hp : p ≠ [])
    (h : Conf.parseHead env top p s = .name n q s') :
    ∃ p₁, Sep p p₁ ∧ Run env.alphabet.name p₁ n q := by
  rcases parseHead_cases env top p s with ⟨s₁, h'⟩ | ⟨r, hstop⟩ | ⟨p₁, n', p₂, hsep, hname, hp₂⟩
  · rw [h'] at h
    cases h
  · obtain ⟨s₁, -, h'⟩ := parseHead_stops (s := s) hp hstop
    rw [h'] at h
    cases h
  · obtain ⟨s₁, -, h'⟩ := parseHead_name top s hsep hname hp₂
    rw [h'] at h
    cases h
    exact ⟨p₁, hsep, hname⟩

/-- 項目を読んだ先の位置は、ファイルの終わりか、文法どおりに一つ進んだ所である。 -/
theorem parseEntry_goOn {fuel : Nat} {s' : Pconf} {f : Fields} (hsep : Sep p p₁)
    (hname : Run env.alphabet.name p₁ n p₂) (hfuel : p.length ≤ fuel)
    (h : Conf.parseEntry (Conf.parseSmodlh env fuel) (Conf.parseArraylh env fuel) env true n p₂ s
      = some (.goOn (some q), s', f)) : q = [] ∨ Advances env.alphabet p q := by
  have hlen₂ := length_lt_of_name hsep hname
  rcases parseEntry_cases (Conf.parseSmodlh env fuel) (Conf.parseArraylh env fuel) env true n p₂ s
    with ⟨s₂, f₂, h'⟩ | ⟨v, q', htail, hq⟩ | ⟨q', hopen⟩ | ⟨k, n', q', hopens⟩
  · rw [h'] at h
    cases h
  · -- 値
    obtain ⟨s₂, -, h'⟩ := parseEntry_value htail hq
    rw [h'] at h
    cases h
    exact Or.inr ⟨htail.suffix.length_le.trans_lt hlen₂,
      fun t m ht => ⟨_, .leaf hsep hname htail ht⟩⟩
  · -- 配列
    obtain ⟨s₂, -, h'⟩ := parseEntry_array hopen
    have hlen := hopen.length_le
    rw [List.length_cons] at hlen
    have hsound := parseArraylh_sound env fuel q' s₂ (by omega)
    rw [h'] at h
    obtain ⟨⟨r, s₃, cn⟩, harr, heq⟩ := Option.map_eq_some_iff.mp h
    cases heq
    rw [harr] at hsound
    rcases hsound with ⟨vs, hvals, -, -⟩ | ⟨hnil, -⟩
    · have hvals : Values env.alphabet q' vs q := hvals
      have hlen₃ := hvals.suffix.length_le
      exact Or.inr ⟨by omega, fun t m ht => ⟨_, .leaf hsep hname (.array hopen hvals) ht⟩⟩
    · exact Or.inl hnil
  · -- block
    obtain ⟨s₂, -, h'⟩ := parseEntry_opens hopens
    have hlen := hopens.suffix.length_le
    have hsound := parseLoop_sound env fuel false q' s₂.levelUp (by omega)
    rw [h'] at h
    obtain ⟨⟨r, s₃, cn⟩, hsub, heq⟩ := Option.map_eq_some_iff.mp h
    cases heq
    rw [Conf.parseSmodlh] at hsub
    rw [hsub] at hsound
    rcases hsound with ⟨t₁, m₁, hparse, hclose, -, -, -⟩ | ⟨hnil, -⟩
    · have hclose : Sep m₁ (rbrace :: q) := hclose
      have hlen₃ := hclose.length_le
      have hlen₄ := hparse.suffix.length_le
      rw [List.length_cons] at hlen₃
      exact Or.inr ⟨by omega, fun t m ht => ⟨_, .block hsep hname hopens hparse hclose ht⟩⟩
    · exact Or.inl hnil

/-- **空でない区切りだけで終わらないなら、ファイルの並びも、局所変数の初めの値によらない。** -/
theorem parseLoop_true_env (env : Env) (locals : Locals) (fuel : Nat) (p : Bytes) (s : Pconf)
    (hfuel : p.length < fuel) (hblank : ¬BlankEnd env.alphabet p) :
    Conf.parseLoop (locals.env env) fuel true p s = Conf.parseLoop env fuel true p s := by
  induction fuel generalizing p s with
  | zero => rfl
  | succ fuel ih =>
    by_cases hp : p = []
    · subst hp
      rfl
    have hskip : skip p ≠ [] := fun h => hblank ⟨.nil, p, .nil p, sepEnd_iff.mpr h, hp⟩
    have hhead : Conf.parseHead (locals.env env) true p s = Conf.parseHead env true p s :=
      parseMainHead_env env locals s hskip
    cases hres : Conf.parseHead env true p s with
    | returns r s' =>
      rw [parseLoop_returns hp fuel (hhead.trans hres), parseLoop_returns hp fuel hres]
    | name n p₂ s' =>
      obtain ⟨p₁, hsep, hname⟩ := name_of_parseHead hp hres
      have hsub : Conf.parseSmodlh (locals.env env) fuel = Conf.parseSmodlh env fuel :=
        funext₂ fun p s => congrFun₂ (parseLoop_false_env env locals fuel) p s.levelUp
      rw [parseLoop_name hp fuel (hhead.trans hres), parseLoop_name hp fuel hres, hsub,
        parseArraylh_env, parseEntry_env]
      refine Option.bind_congr fun x hx => ?_
      obtain ⟨st, s₂, f⟩ := x
      match st, hx with
      | .returnNull, _ => rfl
      | .goOn none, _ => rfl
      | .goOn (some q), hx =>
        simp only [Conf.afterEntry]
        rcases parseEntry_goOn hsep hname (Nat.le_of_lt_succ hfuel) hx with rfl | hadv
        · cases fuel <;> rfl
        · have hlt := hadv.length_lt
          rw [ih q s₂ (by omega) fun hq => hblank (hadv.blankEnd hq)]

/-! ## 返り値と木 -/

theorem outcome_eq (env : Env) (locals : Locals) (buf : Bytes) :
    Raw.outcome env locals buf = (Conf.parse (locals.env env) buf).map fun r => (r.1, r.2.2) := by
  rw [Raw.outcome, ← parse_erase, Option.map_map]
  rfl

theorem outcome_code (env : Env) (locals : Locals) (buf : Bytes) :
    (Raw.outcome env locals buf).map (·.1) = returnCode (locals.env env) buf := by
  rw [outcome_eq, returnCode, Option.map_map]
  rfl

/-- どの周回の `name` も `o` を指し、長さは 0 である。 -/
def pointing (o : Option Bytes) : Locals := ⟨fun _ => o, fun _ => 0, fun _ => 0⟩

/-- 空でない区切りだけで終わるファイルの返り値は、`name` が `NULL` かどうかで決まる。 -/
theorem returnCode_blankEnd {buf : Bytes} (h : BlankEnd env.alphabet buf) :
    returnCode ((pointing none).env env) buf ≠ some 0 ∧
      returnCode ((pointing (some [])).env env) buf = some 0 := by
  obtain ⟨t, q, hparse, hend, hq⟩ := h
  constructor
  · rw [Ne, returnCode_eq_zero_iff]
    rintro ⟨t', q', hparse', ⟨-, hstop⟩, -⟩
    obtain ⟨rfl, rfl⟩ := hparse.unique hparse' (Or.inr (Or.inl hend)) (done_of_stop hstop)
    rcases hstop with hnil | ⟨-, hname⟩ | hbare
    · exact hq hnil
    · exact hname rfl
    · exact hbare.not_sepEnd hend
  · rw [returnCode_eq_zero_iff]
    exact ⟨t, q, hparse, ⟨rfl, Or.inr (Or.inl ⟨hend, nofun⟩)⟩, fun h => absurd h hq⟩

/-- **返り値と木がファイルだけで決まるのは、項目の並びの後が、空でない区切りだけで
終わらないときに限る。** -/
theorem fileOnly_iff (env : Env) (buf : Bytes) :
    FileOnly env buf ↔ ¬BlankEnd env.alphabet buf := by
  constructor
  · intro h hblank
    obtain ⟨hnull, hword⟩ := returnCode_blankEnd hblank
    refine hnull ?_
    rw [← outcome_code, h (pointing none) (pointing (some [])), outcome_code, hword]
  · intro h
    have hname : ∀ locals : Locals, Conf.parse (locals.env env) buf = Conf.parse env buf := by
      intro locals
      rw [Conf.parse, Conf.parse, Conf.parseMain, Conf.parseMain,
        parseLoop_true_env env locals _ buf _ (Nat.lt_succ_self _) h]
    intro locals locals'
    rw [outcome_eq, outcome_eq, hname, hname]

/-- **改行で終わるファイルの返り値は、ファイルだけでは決まらない。** -/
theorem newline_ends_undetermined : ¬∀ (env : Env) (buf : Bytes), FileOnly env buf := by
  intro h
  have hsame := h (fixedEnv none) (ascii "a 1;\n") (pointing none) (pointing (some []))
  revert hsame
  decide +kernel

end RecordServer.Conf
