import RecordServer.Conf.ParseArray

/-!
# 項目の並びを読む loop（`parse_main`・`parse_smodlh`）

* `parseLoop_complete` — 文法どおりの並びは読まれ、その木の list になる
* `parseLoop_sound` — 必ず終わり、`NULL` でない位置を返すのは、文法どおりに読み終えたときか、
  閉じないままファイルが終わったときである。後の場合は `level` が戻らない

`parse_main` の終わり方（`Stops`）は文法どおりではない。区切りだけが残ると初期化されていない
`name` で決まり、終わりに接した名前は捨てて受け入れる。終わりに接した `;` の値は拒む。
-/

namespace RecordServer.Conf

open Infra

variable {env : Env} {top : Bool} {p p₁ p₂ q v n w : Bytes} {s : Pconf}
  {sub arr : Bytes → Pconf → Option Result}

/-! ## 出来上がる list -/

def BlockKind.ntype : BlockKind → NodeType
  | .sub => .subnodeT
  | .proc => .procModT

def storedLeaf (name : Bytes) : Leaf → Fields
  | .value v => ⟨rcStrncpy confNamel name, rcStrncpy confVarl v, .charT, .null⟩
  | .array vs => ⟨rcStrncpy confNamel name, [], .arrayT, storedArray vs⟩

/-- 木から出来る list。名前と値は `rc_strncpy` で切られる。 -/
def stored : Entries → CN
  | .nil => newNode
  | .leaf name x rest => (storedLeaf name x).link (stored rest)
  | .block kind name sub rest =>
    Fields.link ⟨rcStrncpy confNamel name, [], kind.ntype, stored sub⟩ (stored rest)

/-- 中の list を、名前と種類のついた節にする。 -/
def asNode (name : Bytes) (ntype : NodeType) : Result → Step × Pconf × Fields
  | (r, s, smodlh) => (.goOn r, s, ⟨rcStrncpy confNamel name, [], ntype, smodlh⟩)

/-! ## 一つの項目 -/

theorem checkKeyword_proc : checkKeyword (ascii "proc") = .procModT := by decide +kernel

theorem checkKeyword_of_ne (hn : n ≠ ascii "proc") : checkKeyword n = .charT := by
  simp [checkKeyword, keywordList, hn]

/-- 名前の後が括弧でなければ、予約語かどうかで分かれる。 -/
theorem parseEntry_keyword (sub arr : Bytes → Pconf → Option Result) (env : Env) (top : Bool)
    (n p : Bytes) (s : Pconf) (hsub : (skip p).head? ≠ some lbrace)
    (harr : (skip p).head? ≠ some lbracket) :
    parseEntry sub arr env top n p s
      = parseKeyword sub env top n p ((s.jumped p).jumped p) := by
  simp only [parseEntry, isSubNode_eq, isArrayNode_eq, beq_eq_false_iff_ne.mpr hsub,
    beq_eq_false_iff_ne.mpr harr, Bool.false_eq_true, if_false]

theorem parseEntry_array (h : Sep p (lbracket :: q)) :
    ∃ s', s'.level = s.level ∧
      parseEntry sub arr env top n p s = (arr q s').map (asNode n .arrayT) := by
  have hskip := h.skip_eq (solid_lbracket q)
  refine ⟨((s.jumped p).jumped p).jumped p, by simp, ?_⟩
  simp only [parseEntry, isSubNode_eq, isArrayNode_eq, jumpspace_eq, hskip, List.head?_cons]
  rfl

theorem parseEntry_sub (h : Sep p (lbrace :: q)) :
    ∃ s', s'.level = s.level ∧
      parseEntry sub arr env top n p s = (sub q s').map (asNode n .subnodeT) := by
  have hskip := h.skip_eq (solid_lbrace q)
  refine ⟨(s.jumped p).jumped p, by simp, ?_⟩
  simp only [parseEntry, isSubNode_eq, jumpspace_eq, hskip, List.head?_cons]
  rfl

/-- 名前の後の字句の先頭が括弧でない。 -/
theorem head?_skip_ne {b d : UInt8} (h : Sep p (b :: q)) (hsolid : Solid (b :: q)) (hb : b ≠ d) :
    (skip p).head? ≠ some d := by
  rw [h.skip_eq hsolid]
  simpa using hb

theorem parseEntry_value (h : LeafTail env.alphabet n p (.value v) q) (hq : q ≠ []) :
    ∃ s', s'.level = s.level ∧ parseEntry sub arr env top n p s
      = some (.goOn (some q), s', storedLeaf n (.value v)) := by
  cases h with
  | value hn hsep hv hopen hend =>
    have hread := findValidValue_token (s := (s.jumped p).jumped p) hsep hv hend
    have hsolid := hv.solid
    obtain ⟨b, w, rfl, rfl, hb⟩ := hv.1.head
    have hsub := head?_skip_ne hsep hsolid fun h : b = lbrace => hopen (by rw [h]; rfl)
    have harr := head?_skip_ne hsep hsolid (Alphabet.value_ne hb (d := lbracket) (by decide))
    rw [parseEntry_keyword sub arr env top n p s hsub harr]
    simp only [parseKeyword, checkKeyword_of_ne hn, parseValue, hread, Written.read, if_neg hq]
    exact ⟨_, by simp, rfl⟩

theorem parseEntry_proc (hsep : Sep p p₁) (hname : Run env.alphabet.name p₁ n p₂)
    (hopen : Sep p₂ (lbrace :: q)) :
    ∃ s', s'.level = s.level ∧ parseEntry sub arr env true (ascii "proc") p s
      = (sub q s').map (asNode n .procModT) := by
  have hsolid := solid_of_name hname
  have hread : findValidName env p ((s.jumped p).jumped p) = (p₂, .token n, _) :=
    findValid_token hsep hsolid hname
  have hskip := hopen.skip_eq (solid_lbrace q)
  have hp₂ : p₂ ≠ [] := by
    rintro rfl
    cases hskip
  obtain ⟨b, w, -, rfl, hb⟩ := hname.head
  have hsub := head?_skip_ne hsep hsolid (Alphabet.name_ne hb (d := lbrace) (by decide))
  have harr := head?_skip_ne hsep hsolid (Alphabet.name_ne hb (d := lbracket) (by decide))
  rw [parseEntry_keyword sub arr env true _ p s hsub harr]
  simp only [parseKeyword, checkKeyword_proc, parseProc, hread, Written.read, if_neg hp₂,
    jumpspace_eq, hskip, deref, if_true]
  exact ⟨_, by simp, rfl⟩

/-- block を開く項目は、中の並びを読む。 -/
theorem parseEntry_opens {k : BlockKind} (h : Opens env.alphabet top w p k n q) :
    ∃ s', s'.level = s.level ∧
      parseEntry sub arr env top w p s = (sub q s').map (asNode n k.ntype) := by
  cases h with
  | sub hopen => exact parseEntry_sub hopen
  | proc htop hw hsep hname hopen =>
    subst htop hw
    exact parseEntry_proc hsep hname hopen

/-- 予約語でない名前の項目の結果。 -/
theorem parseValue_cases (env : Env) (n p : Bytes) (s : Pconf) :
    (∃ s' f, parseValue env n p s = some (.returnNull, s', f)) ∨
    (∃ p₁ v p₂ q, Sep p p₁ ∧ Value env.alphabet p₁ v p₂ ∧ Sep p₂ (semicolon :: q) ∧ q ≠ []) := by
  rcases findValidValue_cases env p s with ⟨q, w, s', h, hw⟩ | ⟨p₁, v, p₂, q, hsep, hv, hend, h⟩
  · left
    simp only [parseValue, h, hw]
    exact ⟨_, _, rfl⟩
  · by_cases hq : q = []
    · left
      simp only [parseValue, h, Written.read, if_pos hq]
      exact ⟨_, _, rfl⟩
    · exact Or.inr ⟨p₁, v, p₂, q, hsep, hv, hend, hq⟩

/-- `proc` の後の結果。 -/
theorem parseProc_cases (sub : Bytes → Pconf → Option Result) (env : Env) (p : Bytes) (s : Pconf) :
    (∃ s' f, parseProc sub env p s = some (.returnNull, s', f)) ∨
    (∃ p₁ n p₂ q, Sep p p₁ ∧ Run env.alphabet.name p₁ n p₂ ∧ Sep p₂ (lbrace :: q)) := by
  rcases findValid_cases (validname env) p s with
    ⟨-, h⟩ | ⟨q, s', h⟩ | ⟨p₁, n, p₂, hsep, -, hrun, h⟩
  · left
    simp only [parseProc, findValidName, h, Written.read]
    exact ⟨_, _, rfl⟩
  · left
    simp only [parseProc, findValidName, h, Written.read]
    exact ⟨_, _, rfl⟩
  · by_cases hp₂ : p₂ = []
    · left
      simp only [parseProc, findValidName, h, Written.read, if_pos hp₂]
      exact ⟨_, _, rfl⟩
    · by_cases hopen : deref (skip p₂) = lbrace
      · obtain ⟨q, hq⟩ := (deref_eq_iff (by decide)).mp hopen
        have hsep₂ := (sep_skip (p := p₂) (by simp [hq])).1
        exact Or.inr ⟨p₁, n, p₂, q, hsep, hrun, hq ▸ hsep₂⟩
      · left
        simp only [parseProc, findValidName, h, Written.read, if_neg hp₂, jumpspace_eq,
          if_neg hopen]
        exact ⟨_, _, rfl⟩

/-- **名前の後を読んだ結果は、`return NULL` か、文法の四つの形のどれかである。** -/
theorem parseEntry_cases (sub arr : Bytes → Pconf → Option Result) (env : Env) (top : Bool)
    (n p : Bytes) (s : Pconf) :
    (∃ s' f, parseEntry sub arr env top n p s = some (.returnNull, s', f)) ∨
    (∃ v q, LeafTail env.alphabet n p (.value v) q ∧ q ≠ []) ∨
    (∃ q, Sep p (lbracket :: q)) ∨
    (∃ k n' q, Opens env.alphabet top n p k n' q) := by
  by_cases hsub : (skip p).head? = some lbrace
  · obtain ⟨q, -, hsep⟩ := sep_of_head? hsub
    exact Or.inr (Or.inr (Or.inr ⟨.sub, n, q, .sub hsep⟩))
  by_cases harr : (skip p).head? = some lbracket
  · obtain ⟨q, -, hsep⟩ := sep_of_head? harr
    exact Or.inr (Or.inr (Or.inl ⟨q, hsep⟩))
  rw [parseEntry_keyword sub arr env top n p s hsub harr]
  by_cases hn : n = ascii "proc"
  · subst hn
    cases top with
    | false =>
      left
      simp only [parseKeyword, checkKeyword_proc]
      exact ⟨_, _, rfl⟩
    | true =>
      simp only [parseKeyword, checkKeyword_proc]
      rcases parseProc_cases sub env p ((s.jumped p).jumped p) with
        h | ⟨p₁, n', p₂, q, hsep, hname, hopen⟩
      · exact Or.inl h
      · exact Or.inr (Or.inr (Or.inr ⟨.proc, n', q, .proc rfl rfl hsep hname hopen⟩))
  · simp only [parseKeyword, checkKeyword_of_ne hn]
    rcases parseValue_cases env n p ((s.jumped p).jumped p) with
      h | ⟨p₁, v, p₂, q, hsep, hv, hend, hq⟩
    · exact Or.inl h
    · refine Or.inr (Or.inl ⟨v, q, .value hn hsep hv ?_ hend, hq⟩)
      -- 値の先頭は、先読みした文字である
      obtain ⟨b, w, rfl, hp₁, -⟩ := hv.1.head
      rw [hsep.skip_eq hv.solid, hp₁] at hsub
      simpa using hsub

/-! ## 周回の始め -/

/-- `p` で loop が終わり、`q` が返る。 -/
def Stops (env : Env) : Bool → Bytes → Bytes → Prop
  | true, p, q =>
    q = [] ∧ (p = [] ∨ (SepEnd p ∧ env.name p.length ≠ none) ∨ BareName env.alphabet p)
  | false, p, q => Sep p (rbrace :: q)

/-- 終わった後の `level`。`parse_smodlh` は一つ戻す。 -/
def closeLevel (top : Bool) (level : Int) : Int := if top then level else level - 1

theorem parseHead_name (top : Bool) (s : Pconf) (hsep : Sep p p₁)
    (hname : Run env.alphabet.name p₁ n p₂) (hp₂ : p₂ ≠ []) :
    ∃ s', s'.level = s.level ∧ parseHead env top p s = .name n p₂ s' := by
  have hsolid := solid_of_name hname
  cases top with
  | true =>
    have hread : findValidName env p s = (p₂, .token n, s.jumped p) :=
      findValid_token hsep hsolid hname
    refine ⟨s.jumped p, by simp, ?_⟩
    simp only [parseHead, parseMainHead, hread, Written.read, if_neg hp₂, if_true]
  | false =>
    have hread : findValidName env p₁ (s.jumped p) = (p₂, .token n, (s.jumped p).jumped p₁) :=
      findValid_token (.refl p₁) hsolid hname
    have hskip := hsep.skip_eq hsolid
    obtain ⟨b, w, -, rfl, hb⟩ := hname.head
    have hne : b ≠ rbrace := Alphabet.name_ne hb (by decide)
    refine ⟨(s.jumped p).jumped (b :: (w ++ p₂)), by simp, ?_⟩
    simp only [parseHead, parseSmodlhHead, jumpspace_eq, hskip, if_neg hne, hread, Written.read,
      if_neg hp₂, Bool.false_eq_true, if_false]

theorem parseHead_stops (hp : p ≠ []) (h : Stops env top p q) :
    ∃ s', s'.level = closeLevel top s.level ∧ parseHead env top p s = .returns (some q) s' := by
  cases top with
  | true =>
    obtain ⟨rfl, hnil | ⟨hend, hjunk⟩ | ⟨p₁, n, hsep, hname⟩⟩ := h
    · exact absurd hnil hp
    · obtain ⟨junk, hjunk⟩ := Option.ne_none_iff_exists'.mp hjunk
      have hread : findValidName env p s = ([], .untouched, s.jumped p) :=
        findValid_end (sepEnd_iff.mp hend)
      refine ⟨s.jumped p, by simp [closeLevel], ?_⟩
      simp only [parseHead, parseMainHead, hread, Written.read, hjunk, if_true]
    · have hread : findValidName env p s = ([], .token n, s.jumped p) :=
        findValid_token hsep (solid_of_name hname) hname
      refine ⟨s.jumped p, by simp [closeLevel], ?_⟩
      simp only [parseHead, parseMainHead, hread, Written.read, if_true]
  | false =>
    have hskip := Sep.skip_eq h (solid_rbrace q)
    refine ⟨(s.jumped p).levelDown, by simp [closeLevel], ?_⟩
    simp only [parseHead, parseSmodlhHead, jumpspace_eq, hskip, if_true, Bool.false_eq_true,
      if_false]

theorem parseMainHead_cases (env : Env) (p : Bytes) (s : Pconf) :
    (∃ s', parseMainHead env p s = .returns none s') ∨ (∃ q, Stops env true p q) ∨
    (∃ p₁ n p₂, Sep p p₁ ∧ Run env.alphabet.name p₁ n p₂ ∧ p₂ ≠ []) := by
  rcases findValid_cases (validname env) p s with
    ⟨hend, h⟩ | ⟨q, s', h⟩ | ⟨p₁, n, p₂, hsep, -, hrun, h⟩
  · by_cases hjunk : env.name p.length = none
    · left
      simp only [parseMainHead, findValidName, h, Written.read, hjunk]
      exact ⟨_, rfl⟩
    · exact Or.inr (Or.inl ⟨[], rfl, Or.inr (Or.inl ⟨sepEnd_iff.mpr hend, hjunk⟩)⟩)
  · left
    simp only [parseMainHead, findValidName, h, Written.read]
    exact ⟨_, rfl⟩
  · by_cases hp₂ : p₂ = []
    · subst hp₂
      exact Or.inr (Or.inl ⟨[], rfl, Or.inr (Or.inr ⟨p₁, n, hsep, hrun⟩)⟩)
    · exact Or.inr (Or.inr ⟨p₁, n, p₂, hsep, hrun, hp₂⟩)

theorem parseSmodlhHead_cases (env : Env) (p : Bytes) (s : Pconf) :
    (∃ s', parseSmodlhHead env p s = .returns none s') ∨ (∃ q, Stops env false p q) ∨
    (∃ p₁ n p₂, Sep p p₁ ∧ Run env.alphabet.name p₁ n p₂ ∧ p₂ ≠ []) := by
  cases hp : skip p with
  | nil =>
    left
    simp only [parseSmodlhHead, jumpspace_eq, hp]
    exact ⟨_, rfl⟩
  | cons b rest =>
    obtain ⟨hsep, hsolid⟩ := sep_skip (p := p) (by simp [hp])
    rw [hp] at hsep hsolid
    by_cases hb : b = rbrace
    · subst hb
      exact Or.inr (Or.inl ⟨rest, hsep⟩)
    · rcases findValid_cases (validname env) (b :: rest) (s.jumped p) with
        ⟨hend, -⟩ | ⟨q, s', h⟩ | ⟨p₁, n, p₂, hsep₁, -, hrun, h⟩
      · rw [hsolid.skip_eq] at hend
        exact absurd hend hsolid.ne_nil
      · left
        simp only [parseSmodlhHead, jumpspace_eq, hp, if_neg hb, findValidName, h, Written.read]
        exact ⟨_, rfl⟩
      · by_cases hp₂ : p₂ = []
        · left
          simp only [parseSmodlhHead, jumpspace_eq, hp, if_neg hb, findValidName, h, Written.read,
            if_pos hp₂]
          exact ⟨_, rfl⟩
        · exact Or.inr (Or.inr ⟨p₁, n, p₂, hsep.trans hsep₁, hrun, hp₂⟩)

/-- **周回の始めは、`NULL` を返すか、終わり方のどれかであるか、後に何かが続く名前を得る。** -/
theorem parseHead_cases (env : Env) (top : Bool) (p : Bytes) (s : Pconf) :
    (∃ s', parseHead env top p s = .returns none s') ∨ (∃ q, Stops env top p q) ∨
    (∃ p₁ n p₂, Sep p p₁ ∧ Run env.alphabet.name p₁ n p₂ ∧ p₂ ≠ []) := by
  cases top with
  | true => exact parseMainHead_cases env p s
  | false => exact parseSmodlhHead_cases env p s

/-! ## 一周 -/

/-- loop の一周が作った節を、残りの list の前に繋ぐ。 -/
def linkNode (f : Fields) : Result → Result
  | (r, s, next) => (r, s, f.link next)

theorem parseLoop_returns {r : Option Bytes} {s' : Pconf} (hp : p ≠ []) (fuel : Nat)
    (h : parseHead env top p s = .returns r s') :
    parseLoop env (fuel + 1) top p s = some (r, s', newNode) := by
  cases p with
  | nil => exact absurd rfl hp
  | cons b p => simp only [parseLoop, h]

theorem parseLoop_name {s' : Pconf} (hp : p ≠ []) (fuel : Nat)
    (h : parseHead env top p s = .name n q s') :
    parseLoop env (fuel + 1) top p s =
      (parseEntry (parseSmodlh env fuel) (parseArraylh env fuel) env top n q s').bind
        (afterEntry (parseLoop env fuel top)) := by
  cases p with
  | nil => exact absurd rfl hp
  | cons b p =>
    simp only [parseLoop, h]
    rfl

/-- 中の list が位置を返せば、そこから loop が続く。 -/
theorem afterEntry_asNode {loop : Bytes → Pconf → Option Result} {ntype : NodeType} {cn : CN} :
    afterEntry loop (asNode n ntype (some q, s, cn))
      = (loop q s).map (linkNode ⟨rcStrncpy confNamel n, [], ntype, cn⟩) := rfl

/-! ## 文法どおりなら読める -/

theorem endsInValue_leaf {x : Leaf} {rest : Entries} (hrest : rest ≠ .nil) :
    (Entries.leaf n x rest).endsInValue = rest.endsInValue := by
  cases rest with
  | nil => exact absurd rfl hrest
  | leaf => cases x <;> rfl
  | block => cases x <;> rfl

theorem endsInValue_array {vs : List Bytes} (rest : Entries) :
    (Entries.leaf n (.array vs) rest).endsInValue = rest.endsInValue := by
  cases rest <;> rfl

theorem parses_nil {A : Alphabet} {t : Entries} (h : Parses A top [] t q) : t = .nil ∧ q = [] := by
  cases h with
  | nil => exact ⟨rfl, rfl⟩
  | leaf hsep hname _ _ =>
    cases hsep.of_nil
    exact (not_run_nil hname).elim
  | block hsep hword _ _ _ _ =>
    cases hsep.of_nil
    exact (not_run_nil hword).elim

theorem LeafTail.ne_nil {A : Alphabet} {x : Leaf} (h : LeafTail A n p x q) : p ≠ [] := by
  rintro rfl
  exact not_leafTail_nil h

theorem Opens.ne_nil {A : Alphabet} {k : BlockKind} (h : Opens A top w p k n q) : p ≠ [] := by
  rintro rfl
  exact not_opens_nil h

theorem rest_endsInValue {x : Leaf} {rest : Entries} {m : Bytes}
    (hm : m = [] → (Entries.leaf n x rest).endsInValue = false) (hnil : m = []) :
    rest.endsInValue = false := by
  by_cases hrest : rest = .nil
  · rw [hrest]
    rfl
  · rw [← endsInValue_leaf hrest]
    exact hm hnil

/-- 値の項目の後に何かが残るのは、その先か、最後の項目が値でないからである。 -/
theorem LeafTail.rest_ne_nil {A : Alphabet} {rest : Entries} {m : Bytes}
    (hrest : Parses A top q rest m)
    (hm : m = [] → (Entries.leaf n (.value v) rest).endsInValue = false) : q ≠ [] := by
  rintro rfl
  obtain ⟨rfl, rfl⟩ := parses_nil hrest
  cases hm rfl

/-- 中に項目を持たない項目は、読まれて節になり、その先から loop が続く。 -/
theorem parseEntry_leaf {x : Leaf} {loop : Bytes → Pconf → Option Result} {fuel : Nat}
    (h : LeafTail env.alphabet n p x q) (hq : ∀ v, x = .value v → q ≠ [])
    (hfuel : p.length < fuel) :
    ∃ s', s'.level = s.level ∧
      (parseEntry sub (parseArraylh env fuel) env top n p s).bind (afterEntry loop)
        = (loop q s').map (linkNode (storedLeaf n x)) := by
  cases x with
  | value v =>
    obtain ⟨s₁, hs₁, hentry⟩ := parseEntry_value h (hq v rfl)
    refine ⟨s₁, hs₁, ?_⟩
    rw [hentry]
    rfl
  | array vs =>
    cases h with
    | array hopen hvals =>
      obtain ⟨s₁, hs₁, hentry⟩ := parseEntry_array hopen
      have hlen := hopen.length_le
      rw [List.length_cons] at hlen
      obtain ⟨s₂, hs₂, harr⟩ := parseArraylh_complete hvals fuel s₁ (by omega)
      refine ⟨s₂, hs₂.trans hs₁, ?_⟩
      rw [hentry, harr]
      rfl

/-- 一つの名前を読むと、残りは短くなる。 -/
theorem length_lt_of_name {A : Alphabet} (hsep : Sep p p₁) (hname : Run A.name p₁ n p₂) :
    p₂.length < p.length :=
  hname.length_lt.trans_le hsep.length_le

theorem ne_nil_of_name {A : Alphabet} (hsep : Sep p p₁) (hname : Run A.name p₁ n p₂) : p ≠ [] := by
  have h := length_lt_of_name hsep hname
  intro hp
  simp [hp] at h

/-- **文法どおりの並びは、終わり方が許すなら最後まで読まれ、その木の list になる。** -/
theorem parseLoop_complete {t : Entries} {m : Bytes} (h : Parses env.alphabet top p t m) :
    ∀ fuel s q, (m = [] → t.endsInValue = false) → Stops env top m q → p.length < fuel →
      ∃ s', s'.level = closeLevel top s.level ∧
        parseLoop env fuel top p s = some (some q, s', stored t) := by
  -- 読み方についての帰納法。block では中の並びと先の並びの二つの仮定を使う
  induction h with
  | @nil top p =>
    intro fuel s q _ hstop hfuel
    obtain ⟨fuel, rfl⟩ := Nat.exists_eq_add_one_of_ne_zero (Nat.ne_zero_of_lt hfuel)
    by_cases hp : p = []
    · subst hp
      cases top with
      | true =>
        obtain ⟨rfl, -⟩ := hstop
        exact ⟨s, rfl, rfl⟩
      | false => cases Sep.of_nil hstop
    · obtain ⟨s', hs', hhead⟩ := parseHead_stops hp hstop
      exact ⟨s', hs', parseLoop_returns hp fuel hhead⟩
  | @leaf top p p₁ p₂ p₃ m n x rest hsep hname htail hrest ih =>
    intro fuel s q hm hstop hfuel
    obtain ⟨fuel, rfl⟩ := Nat.exists_eq_add_one_of_ne_zero (Nat.ne_zero_of_lt hfuel)
    have hlen₂ := length_lt_of_name hsep hname
    have hlen₃ := htail.suffix.length_le
    obtain ⟨s₁, hs₁, hhead⟩ := parseHead_name top s hsep hname htail.ne_nil
    have hp₃ : ∀ v, x = .value v → p₃ ≠ [] := by
      rintro v rfl
      exact LeafTail.rest_ne_nil hrest hm
    obtain ⟨s₂, hs₂, hentry⟩ := parseEntry_leaf htail hp₃ (show p₂.length < fuel by omega)
    obtain ⟨s₃, hs₃, hloop⟩ :=
      ih fuel s₂ q (rest_endsInValue hm) hstop (by omega)
    refine ⟨s₃, by rw [hs₃, hs₂, hs₁], ?_⟩
    rw [parseLoop_name (ne_nil_of_name hsep hname) fuel hhead, hentry, hloop]
    rfl
  | @block top p p₁ p₂ p₃ p₄ p₅ m w n k sub rest hsep hword hopens hsub hclose hrest ihsub ih =>
    intro fuel s q hm hstop hfuel
    obtain ⟨fuel, rfl⟩ := Nat.exists_eq_add_one_of_ne_zero (Nat.ne_zero_of_lt hfuel)
    have hlen₂ := length_lt_of_name hsep hword
    have hlen₃ := hopens.suffix.length_le
    have hlen₄ := hsub.suffix.length_le
    have hlen₅ := hclose.length_le
    rw [List.length_cons] at hlen₅
    obtain ⟨s₁, hs₁, hhead⟩ := parseHead_name top s hsep hword hopens.ne_nil
    obtain ⟨s₂, hs₂, hentry⟩ := parseEntry_opens hopens
    have hp₄ : p₄ = [] → sub.endsInValue = false := by
      rintro rfl
      cases hclose.of_nil
    obtain ⟨s₃, hs₃, hblock⟩ := ihsub fuel s₂.levelUp p₅ hp₄ hclose (by omega)
    obtain ⟨s₄, hs₄, hloop⟩ := ih fuel s₃ q hm hstop (by omega)
    refine ⟨s₄, ?_, ?_⟩
    · rw [hs₄, hs₃, levelUp_level, hs₂, hs₁]
      simp [closeLevel]
    · rw [parseLoop_name (ne_nil_of_name hsep hword) fuel hhead, hentry, parseSmodlh, hblock]
      simp only [Option.map_some, Option.bind_some, afterEntry_asNode, hloop]
      rfl

/-! ## 読めたなら文法どおり -/

/-- loop の結果。燃料は切れない。位置を返すのは、文法どおりに読み終えたときか、
`level` を戻さずに終わりに達したときである。 -/
def LoopOutcome (env : Env) (top : Bool) (p : Bytes) (s : Pconf) : Option Result → Prop
  | none => False
  | some (none, _, _) => True
  | some (some q, s', cn) =>
    (∃ t m, Parses env.alphabet top p t m ∧ Stops env top m q ∧
      (m = [] → t.endsInValue = false) ∧ s'.level = closeLevel top s.level ∧ cn = stored t) ∨
    (q = [] ∧ closeLevel top s.level < s'.level)

theorem closeLevel_lt {top : Bool} {l l' : Int} (h : l < l') : closeLevel top l < l' := by
  cases top with
  | true => exact h
  | false => exact Int.lt_trans (Int.sub_one_lt_of_le (Int.le_refl l)) h

/-- 項目を一つ読み、残りを読んだ結果。 -/
theorem LoopOutcome.link {s₁ : Pconf} {o : Option Result} {f : Fields} {cons : Entries → Entries}
    (h : LoopOutcome env top q s₁ o) (hs : s₁.level = s.level)
    (hcons : ∀ t m, Parses env.alphabet top q t m → Parses env.alphabet top p (cons t) m)
    (hends : ∀ t m, Parses env.alphabet top q t m → (m = [] → t.endsInValue = false) →
      m = [] → (cons t).endsInValue = false)
    (hstored : ∀ t, stored (cons t) = f.link (stored t)) :
    LoopOutcome env top p s (o.map (linkNode f)) := by
  match o, h with
  | some (none, s', cn), _ => trivial
  | some (some r, s', cn), Or.inl ⟨t, m, hparse, hstop, hm, hl, hcn⟩ =>
    refine Or.inl ⟨cons t, m, hcons t m hparse, hstop, hends t m hparse hm, hs ▸ hl, ?_⟩
    rw [hstored, ← hcn]
  | some (some r, s', cn), Or.inr ⟨hr, hl⟩ => exact Or.inr ⟨hr, hs ▸ hl⟩

/-- 中の list が閉じないまま終わりに達したら、外の loop も終わりで返る。 -/
theorem LoopOutcome.of_unclosed {s₁ : Pconf} {ntype : NodeType} {cn : CN} {fuel : Nat}
    (hfuel : 0 < fuel) (hs : s.level < s₁.level) :
    LoopOutcome env top p s
      (afterEntry (parseLoop env fuel top) (asNode n ntype (some [], s₁, cn))) := by
  obtain ⟨fuel, rfl⟩ := Nat.exists_eq_add_one_of_ne_zero hfuel.ne'
  rw [afterEntry_asNode, parseLoop]
  exact Or.inr ⟨rfl, closeLevel_lt hs⟩

section Entry

variable {fuel : Nat} {s₁ : Pconf} {o : Option Result}

/-- 配列の項目を読んだ結果。 -/
theorem LoopOutcome.of_array (hfuel : 0 < fuel)
    (ih : ∀ r s', r.length ≤ q.length → LoopOutcome env top r s' (parseLoop env fuel top r s'))
    (hs : s₁.level = s.level) (hsep : Sep p p₁) (hname : Run env.alphabet.name p₁ n p₂)
    (hopen : Sep p₂ (lbracket :: q)) (h : ArrayOutcome env.alphabet false q s₁.levelUp o) :
    LoopOutcome env top p s
      ((o.map (asNode n .arrayT)).bind (afterEntry (parseLoop env fuel top))) := by
  match o, h with
  | some (none, s₂, cn), _ => trivial
  | some (some r, s₂, cn), Or.inl ⟨vs, hvals, hl, hcn⟩ =>
    have hvals : Values env.alphabet q vs r := hvals
    subst hcn
    refine (ih r s₂ hvals.suffix.length_le).link ?_
      (fun t m h => .leaf hsep hname (.array hopen hvals) h) ?_ fun _ => rfl
    · rw [hl, levelUp_level, hs]
      omega
    · intro t m _ hm hnil
      rw [endsInValue_array]
      exact hm hnil
  | some (some r, s₂, cn), Or.inr ⟨hr, hl⟩ =>
    subst hr
    rw [levelUp_level] at hl
    exact .of_unclosed hfuel (by omega)

/-- block の項目を読んだ結果。 -/
theorem LoopOutcome.of_block {k : BlockKind} (hfuel : 0 < fuel)
    (ih : ∀ r s', r.length ≤ q.length → LoopOutcome env top r s' (parseLoop env fuel top r s'))
    (hs : s₁.level = s.level) (hsep : Sep p p₁) (hword : Run env.alphabet.name p₁ w p₂)
    (hopens : Opens env.alphabet top w p₂ k n q) (h : LoopOutcome env false q s₁.levelUp o) :
    LoopOutcome env top p s
      ((o.map (asNode n k.ntype)).bind (afterEntry (parseLoop env fuel top))) := by
  match o, h with
  | some (none, s₂, cn), _ => trivial
  | some (some r, s₂, cn), Or.inl ⟨sub, m, hsub, hclose, _, hl, hcn⟩ =>
    have hclose : Sep m (rbrace :: r) := hclose
    subst hcn
    have hlen : r.length ≤ q.length := by
      have h₁ := hclose.length_le
      have h₂ := hsub.suffix.length_le
      rw [List.length_cons] at h₁
      omega
    refine (ih r s₂ hlen).link ?_ (fun t m h => .block hsep hword hopens hsub hclose h) ?_
      fun _ => rfl
    · rw [hl, levelUp_level, hs]
      simp [closeLevel]
    · intro t m _ hm hnil
      exact hm hnil
  | some (some r, s₂, cn), Or.inr ⟨hr, hl⟩ =>
    subst hr
    simp only [closeLevel, levelUp_level, Bool.false_eq_true, if_false] at hl
    exact .of_unclosed hfuel (by omega)

end Entry

/-- **loop は必ず終わり、位置を返すのは、文法どおりに読み終えたときか、`level` を戻さずに
終わりに達したときである。** -/
theorem parseLoop_sound (env : Env) (fuel : Nat) (top : Bool) (p : Bytes) (s : Pconf)
    (hfuel : p.length < fuel) : LoopOutcome env top p s (parseLoop env fuel top p s) := by
  -- 中の block も先の並びも、同じ燃料の帰納法の仮定から読む
  induction fuel generalizing top p s with
  | zero => cases hfuel
  | succ fuel ih =>
    by_cases hp : p = []
    · subst hp
      cases top with
      | true => exact Or.inl ⟨.nil, [], .nil [], ⟨rfl, Or.inl rfl⟩, fun _ => rfl, rfl, rfl⟩
      | false => exact Or.inr ⟨rfl, Int.sub_one_lt_of_le (Int.le_refl _)⟩
    rcases parseHead_cases env top p s with ⟨s₁, h⟩ | ⟨q, hstop⟩ | ⟨p₁, n, p₂, hsep, hname, hp₂⟩
    · rw [parseLoop_returns hp fuel h]
      trivial
    · obtain ⟨s₁, hs₁, h⟩ := parseHead_stops hp hstop
      rw [parseLoop_returns hp fuel h]
      exact Or.inl ⟨.nil, p, .nil p, hstop, fun h => absurd h hp, hs₁, rfl⟩
    obtain ⟨s₁, hs₁, hhead⟩ := parseHead_name top s hsep hname hp₂
    have hlen₂ := length_lt_of_name hsep hname
    rw [parseLoop_name hp fuel hhead]
    rcases parseEntry_cases (parseSmodlh env fuel) (parseArraylh env fuel) env top n p₂ s₁ with
      ⟨s₂, f, h⟩ | ⟨v, q, htail, hq⟩ | ⟨q, hopen⟩ | ⟨k, n', q, hopens⟩
    · rw [h]
      trivial
    · -- 値
      have hlen := htail.suffix.length_le
      obtain ⟨s₂, hs₂, hentry⟩ :=
        parseEntry_leaf htail (fun _ _ => hq) (show p₂.length < fuel by omega)
      rw [hentry]
      refine (ih top q s₂ (by omega)).link (hs₂.trans hs₁)
        (fun t m h => .leaf hsep hname htail h) ?_ fun _ => rfl
      -- 先に項目がなければ残りは `q` のままで、空でない
      intro t m h hm hnil
      by_cases ht : t = .nil
      · subst ht
        cases h
        exact absurd hnil hq
      · rw [endsInValue_leaf ht]
        exact hm hnil
    · -- 配列
      obtain ⟨s₂, hs₂, hentry⟩ := parseEntry_array hopen
      have hlen := hopen.length_le
      rw [List.length_cons] at hlen
      rw [hentry]
      exact .of_array (by omega) (fun r s' _ => ih top r s' (by omega)) (hs₂.trans hs₁) hsep hname
        hopen (parseArraylh_sound env fuel q s₂ (by omega))
    · -- block
      obtain ⟨s₂, hs₂, hentry⟩ := parseEntry_opens hopens
      have hlen := hopens.suffix.length_le
      rw [hentry]
      exact .of_block (by omega) (fun r s' _ => ih top r s' (by omega)) (hs₂.trans hs₁) hsep hname
        hopens (ih false q s₂.levelUp (by omega))

end RecordServer.Conf
