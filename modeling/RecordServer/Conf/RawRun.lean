import RecordServer.Conf.RawReads

/-!
# 読む間に起こること

記録つきの parser の一回の実行で起こることは、文法から書いた `Visits` に等しい。

* `parseEntry_run` — 名前の後を読んだ結果の四つの形と、その前に起こること
* `parseArraylhLoop_run` / `parseLoop_run` — loop が終わるまでに起こることは、ちょうど
  `ArrayVisits`・`Visits` である
* `parse_run` — `parse` は必ず終わり、報告せずに 0 を返すか、ある位置で報告して -1 を返す
-/

namespace RecordServer.Conf.Raw

open Infra

variable {env : Env} {t : Table} {s s₀ s₁ : State} {p₀ p p₁ q n w : Bytes} {evs : List Event}
  {top : Bool}

/-! ## 一つの項目 -/

/-- 項目の途中で報告し、`return NULL` する。 -/
def Halts (s : State) (p : Bytes) (evs : List Event) (o : Option (Step × State × Fields)) : Prop :=
  ∃ s' f, o = some (.returnNull, s', f) ∧ Stuck s p s' evs

/-- 項目を読み切り、`q` から次の周回へ進む。 -/
def GoesOn (s : State) (p q : Bytes) (evs : List Event) (o : Option (Step × State × Fields)) :
    Prop :=
  ∃ s' f, o = some (.goOn (some q), s', f) ∧ Reads s p s' q evs

/-- `q` から中の list を読み、それを節にする。 -/
def Enters (s : State) (p q : Bytes) (evs : List Event) (sub : Bytes → State → Option Result)
    (name : Bytes) (ntype : NodeType) (o : Option (Step × State × Fields)) : Prop :=
  ∃ s', Reads s p s' q evs ∧ o = (sub q s').map fun (r, s, smodlh) =>
    (.goOn r, s, ⟨rcStrncpy confNamel name, [], ntype, smodlh⟩)

theorem parseValue_run (env : Env) (n p : Bytes) (s : State) :
    ((∀ p₁ v p₂ q, Sep p p₁ → Value env.alphabet p₁ v p₂ → Sep p₂ (semicolon :: q) → q = []) ∧
      Halts s p (tests env.alphabet .value p) (parseValue env n p s)) ∨
    (∃ p₁ v p₂ q, Sep p p₁ ∧ Value env.alphabet p₁ v p₂ ∧ Sep p₂ (semicolon :: q) ∧
      GoesOn s p q (tests env.alphabet .value p) (parseValue env n p s)) := by
  rcases findValidValue_run env p 0 s with
    ⟨q, l, s', hno, h, hmiss⟩ | ⟨p₁, v, p₂, q, s', hsep, hv, hend, h, hreads⟩
  · refine Or.inl ⟨?_, ?_⟩
    · intro p₁ v p₂ q hsep hv hend
      exact absurd hend (hno p₁ v p₂ q hsep hv)
    · simp only [parseValue, h]
      exact ⟨_, _, rfl, hmiss.stuck .exceptValue⟩
  · by_cases hq : q = []
    · refine Or.inl ⟨?_, ?_⟩
      · intro r₁ v' r₂ r hsep' hv' hend'
        cases hsep.unique hsep' hv.solid hv'.solid
        obtain ⟨-, rfl⟩ := hv.unique hv'
        cases hend.unique hend' (solid_semicolon q) (solid_semicolon r)
        exact hq
      · simp only [parseValue, h, if_pos hq]
        exact ⟨_, _, rfl, hreads.stuck .exceptValue⟩
    · refine Or.inr ⟨p₁, v, p₂, q, hsep, hv, hend, ?_⟩
      simp only [parseValue, h, if_neg hq]
      exact ⟨_, _, rfl, hreads⟩

theorem parseProc_run (sub : Bytes → State → Option Result) (env : Env) (p : Bytes) (s : State) :
    ((∀ p₁ n p₂ q, Sep p p₁ → Run env.alphabet.name p₁ n p₂ → ¬Sep p₂ (lbrace :: q)) ∧
      Halts s p (tests env.alphabet .name p) (parseProc sub env p s)) ∨
    (∃ p₁ n p₂ q, Sep p p₁ ∧ Run env.alphabet.name p₁ n p₂ ∧ Sep p₂ (lbrace :: q) ∧
      Enters s p q (tests env.alphabet .name p) sub n .procModT (parseProc sub env p s)) := by
  rcases findValid_run env .name p ⟨none, 0⟩ s with
    ⟨s', hp, h, hreads⟩ | ⟨q, s', hno, h, hmiss⟩ | ⟨p₁, n, p₂, s', hsep, hsolid, hrun, h, hreads⟩
  · refine Or.inl ⟨?_, ?_⟩
    · intro p₁ n p₂ q hsep hrun _
      exact no_solid hp hsep (solid_of_name hrun)
    · simp only [parseProc, findValidName, h]
      exact ⟨_, _, rfl, hreads.stuck .emptyFile⟩
  · refine Or.inl ⟨?_, ?_⟩
    · intro p₁ n p₂ q hsep hrun _
      exact hno p₁ n p₂ hsep (solid_of_name hrun) hrun
    · simp only [parseProc, findValidName, h]
      exact ⟨_, _, rfl, hmiss.stuck .emptyFile⟩
  · -- 名前は一つに決まるので、その後だけを見ればよい
    have hno : ¬(∃ q, Sep p₂ (lbrace :: q)) → ∀ r₁ m r₂ q, Sep p r₁ →
        Run env.alphabet.name r₁ m r₂ → ¬Sep r₂ (lbrace :: q) := by
      intro hopen r₁ m r₂ q hsep' hrun' hopen'
      cases hsep.unique hsep' hsolid (solid_of_name hrun')
      obtain ⟨-, rfl⟩ := hrun.unique hrun'
      exact hopen ⟨q, hopen'⟩
    have hskip := hreads.jumped
    by_cases hp₂ : p₂ = []
    · refine Or.inl ⟨hno ?_, ?_⟩
      · rintro ⟨q, hopen⟩
        rw [hp₂] at hopen
        cases hopen.of_nil
      · simp only [parseProc, findValidName, h, if_pos hp₂]
        exact ⟨_, _, rfl, hreads.stuck .uncompletedLine⟩
    · by_cases hopen : deref (skip p₂) = lbrace
      · obtain ⟨q, hq⟩ := (deref_eq_iff (by decide)).mp hopen
        rw [hq] at hskip
        refine Or.inr ⟨p₁, n, p₂, q, hsep, hrun, (sep_iff_skip_eq (solid_lbrace q)).mpr hq,
          s'.jumped p₂, hskip.cons (by decide), ?_⟩
        simp only [parseProc, findValidName, h, if_neg hp₂, jumpspace_eq, hq, deref, if_true,
          List.tail_cons, text_run hrun]
      · refine Or.inl ⟨hno ?_, ?_⟩
        · rintro ⟨q, hopen'⟩
          exact hopen (by rw [hopen'.skip_eq (solid_lbrace q)]; rfl)
        · simp only [parseProc, findValidName, h, if_neg hp₂, jumpspace_eq, if_neg hopen]
          exact ⟨_, _, rfl, hskip.stuck .exceptOpen⟩

theorem Reads.halts {o : Option (Step × State × Fields)} (h : Reads s₀ p₀ s p evs)
    {evs' : List Event} (h' : Halts s p evs' o) : Halts s₀ p₀ (evs ++ evs') o := by
  obtain ⟨s', f, ho, hstuck⟩ := h'
  exact ⟨s', f, ho, h.ends (o := none) hstuck⟩

theorem Reads.goesOn {o : Option (Step × State × Fields)} (h : Reads s₀ p₀ s p evs)
    {evs' : List Event} (h' : GoesOn s p q evs' o) : GoesOn s₀ p₀ q (evs ++ evs') o := by
  obtain ⟨s', f, ho, hreads⟩ := h'
  exact ⟨s', f, ho, h.trans hreads⟩

theorem Reads.enters {o : Option (Step × State × Fields)} {sub : Bytes → State → Option Result}
    {ntype : NodeType} (h : Reads s₀ p₀ s p evs) {evs' : List Event}
    (h' : Enters s p q evs' sub n ntype o) : Enters s₀ p₀ q (evs ++ evs') sub n ntype o := by
  obtain ⟨s', hreads, ho⟩ := h'
  exact ⟨s', h.trans hreads, ho⟩

/-- 名前の後が括弧でないときの結果。 -/
theorem parseKeyword_run (sub : Bytes → State → Option Result) (env : Env) (top : Bool)
    (n p : Bytes) (s : State) (hlb : (skip p).head? ≠ some lbrace) :
    ((∀ v q, LeafTail env.alphabet n p (.value v) q → q = []) ∧
      (∀ k m q, ¬Opens env.alphabet top n p k m q) ∧
      Halts s p (keywordEvents env.alphabet top n p) (parseKeyword sub env top n p s)) ∨
    (∃ v q, LeafTail env.alphabet n p (.value v) q ∧
      GoesOn s p q (keywordEvents env.alphabet top n p) (parseKeyword sub env top n p s)) ∨
    (∃ k m q, Opens env.alphabet top n p k m q ∧
      Enters s p q (keywordEvents env.alphabet top n p) sub m k.ntype
        (parseKeyword sub env top n p s)) := by
  have hbrace : ∀ q, ¬Sep p (lbrace :: q) := by
    intro q hopen
    exact hlb (by rw [hopen.skip_eq (solid_lbrace q)]; rfl)
  by_cases hn : n = ascii "proc"
  · have hvalue : ∀ v q, LeafTail env.alphabet n p (.value v) q → q = [] := by
      rintro v q ⟨⟩
      contradiction
    cases top with
    | false =>
      refine Or.inl ⟨hvalue, ?_, ?_⟩
      · rintro k m q (hopen | ⟨htop, -⟩)
        · exact hbrace q hopen
        · cases htop
      · subst hn
        simp only [parseKeyword, checkKeyword_proc, keywordEvents]
        exact ⟨_, _, rfl, (Reads.refl s p).stuck .unsupportKeyword⟩
    | true =>
      have hkey : parseKeyword sub env true n p s = parseProc sub env p s := by
        subst hn
        simp only [parseKeyword, checkKeyword_proc]
      have hev : keywordEvents env.alphabet true n p = tests env.alphabet .name p := by
        rw [keywordEvents, if_pos hn, if_pos rfl]
      rw [hkey, hev]
      rcases parseProc_run sub env p s with ⟨hno, h⟩ | ⟨p₁, m, p₂, q, hsep, hname, hopen, h⟩
      · refine Or.inl ⟨hvalue, ?_, h⟩
        rintro k m q (hopen | ⟨-, -, hsep, hname, hopen⟩)
        · exact hbrace q hopen
        · exact hno _ _ _ q hsep hname hopen
      · exact Or.inr (Or.inr ⟨.proc, m, q, .proc rfl hn hsep hname hopen, h⟩)
  · have hkey : parseKeyword sub env top n p s = parseValue env n p s := by
      simp only [parseKeyword, checkKeyword_of_ne hn]
    have hev : keywordEvents env.alphabet top n p = tests env.alphabet .value p := by
      rw [keywordEvents, if_neg hn]
    rw [hkey, hev]
    rcases parseValue_run env n p s with ⟨hno, h⟩ | ⟨p₁, v, p₂, q, hsep, hv, hend, h⟩
    · refine Or.inl ⟨?_, ?_, h⟩
      · rintro v q ⟨⟩
        exact hno _ _ _ _ ‹_› ‹_› ‹_›
      · rintro k m q (hopen | ⟨-, hw, -⟩)
        · exact hbrace q hopen
        · exact hn hw
    · refine Or.inr (Or.inl ⟨v, q, .value hn hsep hv ?_ hend, h⟩)
      -- 値の先頭は、先読みした文字である
      obtain ⟨b, w, rfl, hp₁, -⟩ := hv.1.head
      rw [hsep.skip_eq hv.solid, hp₁] at hlb
      simpa using hlb

/-- **名前の後を読むと、報告して止まるか、値を読み切るか、配列か block の中へ入る。その前に
`tailEvents` が起こる。** -/
theorem parseEntry_run (sub arr : Bytes → State → Option Result) (env : Env) (top : Bool)
    (n p : Bytes) (s : State) :
    ((∀ v q, LeafTail env.alphabet n p (.value v) q → q = []) ∧ (∀ q, ¬Sep p (lbracket :: q)) ∧
      (∀ k m q, ¬Opens env.alphabet top n p k m q) ∧
      Halts s p (tailEvents env.alphabet top n p) (parseEntry sub arr env top n p s)) ∨
    (∃ v q, LeafTail env.alphabet n p (.value v) q ∧
      GoesOn s p q (tailEvents env.alphabet top n p) (parseEntry sub arr env top n p s)) ∨
    (∃ q, Sep p (lbracket :: q) ∧ Enters s p q (tailEvents env.alphabet top n p) arr n .arrayT
      (parseEntry sub arr env top n p s)) ∨
    (∃ k m q, Opens env.alphabet top n p k m q ∧
      Enters s p q (tailEvents env.alphabet top n p) sub m k.ntype
        (parseEntry sub arr env top n p s)) := by
  have hahead : Reads s p ((s.record (.ahead p)).jumped p) p [.ahead p] := (Reads.refl s p).ahead
  by_cases hlb : (skip p).head? = some lbrace
  · obtain ⟨q, hq, hsep⟩ := sep_of_head? hlb
    have hjump := hahead.jumped
    rw [hq] at hjump
    rw [tailEvents, if_pos hlb]
    refine Or.inr (Or.inr (Or.inr ⟨.sub, n, q, .sub hsep, _, hjump.cons (by decide), ?_⟩))
    simp only [parseEntry, isSubNode_eq, jumpspace_eq, hq, List.head?_cons]
    rfl
  by_cases hlk : (skip p).head? = some lbracket
  · obtain ⟨q, hq, hsep⟩ := sep_of_head? hlk
    have hjump := hahead.ahead.jumped
    rw [hq] at hjump
    rw [tailEvents, if_neg hlb, if_pos hlk]
    refine Or.inr (Or.inr (Or.inl ⟨q, hsep, _, hjump.cons (by decide), ?_⟩))
    simp only [parseEntry, isSubNode_eq, isArrayNode_eq, jumpspace_eq, hq, List.head?_cons]
    rfl
  have hentry : parseEntry sub arr env top n p s = parseKeyword sub env top n p
      ((((s.record (.ahead p)).jumped p).record (.ahead p)).jumped p) := by
    simp only [parseEntry, isSubNode_eq, isArrayNode_eq, beq_eq_false_iff_ne.mpr hlb,
      beq_eq_false_iff_ne.mpr hlk, Bool.false_eq_true, if_false]
  rw [tailEvents, if_neg hlb, if_neg hlk, hentry]
  rcases parseKeyword_run sub env top n p
    ((((s.record (.ahead p)).jumped p).record (.ahead p)).jumped p) hlb with
    ⟨hvalue, hopens, h⟩ | ⟨v, q, htail, h⟩ | ⟨k, m, q, hopens, h⟩
  · refine Or.inl ⟨hvalue, ?_, hopens, hahead.ahead.halts h⟩
    intro q hopen
    exact hlk (by rw [hopen.skip_eq (solid_lbracket q)]; rfl)
  · exact Or.inr (Or.inl ⟨v, q, htail, hahead.ahead.goesOn h⟩)
  · exact Or.inr (Or.inr (Or.inr ⟨k, m, q, hopens, hahead.ahead.enters h⟩))

/-! ## 配列 -/

/-- loop が終わるまでに起こることは、ちょうど `V` である。 -/
def Runs (s : State) (p : Bytes) (V : Event → Prop) (o : Option Result) : Prop :=
  ∃ r s' cn evs, o = some (r, s', cn) ∧ (∀ e, e ∈ evs ↔ V e) ∧ Ends s p s' evs r

theorem Runs.congr {V V' : Event → Prop} {o : Option Result} (h : Runs s p V o)
    (hV : ∀ e, V e ↔ V' e) : Runs s p V' o := by
  obtain ⟨r, s', cn, evs, ho, hevs, hends⟩ := h
  exact ⟨r, s', cn, evs, ho, fun e => (hevs e).trans (hV e), hends⟩

/-- 報告して終わった。 -/
theorem Stuck.runs {V : Event → Prop} {cn : CN} (h : Stuck s p s₁ evs)
    (hV : ∀ e, e ∈ evs ↔ V e) : Runs s p V (some (none, s₁, cn)) :=
  ⟨none, s₁, cn, evs, rfl, hV, h⟩

/-- 位置 `q` で終わった。 -/
theorem Reads.runs {V : Event → Prop} {cn : CN} (h : Reads s p s₁ q evs)
    (hV : ∀ e, e ∈ evs ↔ V e) : Runs s p V (some (some q, s₁, cn)) :=
  ⟨some q, s₁, cn, evs, rfl, hV, h⟩

theorem Runs.map {V : Event → Prop} {o : Option Result} (h : Runs s p V o) (f : CN → CN) :
    Runs s p V (o.map fun (r, s, next) => (r, s, f next)) := by
  obtain ⟨r, s', cn, evs, rfl, hevs, hends⟩ := h
  exact ⟨r, s', f cn, evs, rfl, hevs, hends⟩

/-- 読み進めてから、残りを loop で読む。 -/
theorem Reads.continue {V : Event → Prop} {o : Option Result} (h : Reads s₀ p₀ s p evs)
    (h' : Runs s p V o) : Runs s₀ p₀ (fun e => e ∈ evs ∨ V e) o := by
  obtain ⟨r, s', cn, evs', rfl, hevs, hends⟩ := h'
  exact ⟨r, s', cn, evs ++ evs', rfl, fun e => by rw [List.mem_append, hevs], h.ends hends⟩

theorem not_expects_nil {need : Bool} (hp : skip p = []) : ¬Expects need p q := by
  intro h
  cases h with
  | first hsep hsolid _ => exact no_solid hp hsep hsolid
  | more hcomma => exact no_solid hp hcomma (solid_comma q)

/-- 配列の loop の周回の始め。終わるか、値を期待する所へ進むか。 -/
theorem parseArraylhLoop_head (env : Env) (locals : Locals) (fuel : Nat) (need : Bool) (p : Bytes)
    (s : State) :
    ((∀ q, ¬Expects need p q) ∧ ∃ r s' cn,
      parseArraylhLoop env locals (fuel + 1) need p s = some (r, s', cn) ∧ Ends s p s' [] r) ∨
    (∃ q s' l, Expects need p q ∧ Reads s p s' q [] ∧
      parseArraylhLoop env locals (fuel + 1) need p s =
        match findValidArrayValue env q l s' with
        | (p₁, value, s₁) =>
          match value.o with
          | none => some (none, s₁.report .uncompletedFile p₁, newNode)
          | some o =>
            if p₁ = [] then some (none, s₁.report .uncompletedLine p₁, newNode)
            else (parseArraylhLoop env locals fuel true p₁ s₁).map fun (r, s, next) =>
              (r, s,
                Fields.link ⟨[], rcStrncpy confVarl (text o value.len), .arrayEle, .null⟩ next)) := by
  have hjump : Reads s p (s.jumped p) (skip p) [] := (Reads.refl s p).jumped
  cases p with
  | nil => exact Or.inl ⟨fun q => not_expects_nil rfl, some [], s, newNode, rfl, Reads.refl s []⟩
  | cons a p =>
    cases hp : skip (a :: p) with
    | nil =>
      rw [hp] at hjump
      refine Or.inl ⟨fun q => not_expects_nil hp, none, (s.jumped (a :: p)).report .exceptBracket [],
        newNode, ?_, hjump.stuck .exceptBracket⟩
      simp only [parseArraylhLoop, jumpspace_eq, hp]
    | cons b rest =>
      obtain ⟨hsep, hsolid⟩ := sep_skip (p := a :: p) (by simp [hp])
      rw [hp] at hsep hsolid hjump
      by_cases hb : b = rbracket
      · subst hb
        refine Or.inl ⟨?_, some rest, (s.jumped (a :: p)).levelDown, newNode, ?_,
          (hjump.cons (by decide)).levelDown⟩
        · rintro q (⟨hsep', hsolid', hclose⟩ | hcomma)
          · cases hsep.unique hsep' hsolid hsolid'
            exact hclose rfl
          · cases hsep.unique hcomma hsolid (solid_comma _)
        · simp only [parseArraylhLoop, jumpspace_eq, hp, if_true]
      · cases need with
        | true =>
          by_cases hc : b = comma
          · subst hc
            refine Or.inr ⟨rest, s.jumped (a :: p), locals.valueLen (a :: p).length, .more hsep,
              hjump.cons (by decide), ?_⟩
            simp only [parseArraylhLoop, jumpspace_eq, hp, if_neg hb]
            rfl
          · refine Or.inl ⟨?_, none, (s.jumped (a :: p)).report .exceptComma (b :: rest), newNode, ?_,
              hjump.stuck .exceptComma⟩
            · rintro q ⟨⟩
              cases hsep.unique ‹_› hsolid (solid_comma _)
              exact hc rfl
            · simp only [parseArraylhLoop, jumpspace_eq, hp, if_neg hb, hc, ne_eq,
                not_false_eq_true, and_self, if_true]
        | false =>
          refine Or.inr ⟨b :: rest, s.jumped (a :: p), locals.valueLen (a :: p).length,
            .first hsep hsolid (by simpa using hb), hjump, ?_⟩
          simp only [parseArraylhLoop, jumpspace_eq, hp, if_neg hb]
          rfl

/-- **配列の loop で起こることは、ちょうど `ArrayVisits` である。** -/
theorem parseArraylhLoop_run (env : Env) (locals : Locals) (fuel : Nat) (need : Bool) (p : Bytes)
    (s : State) (hfuel : p.length < fuel) :
    Runs s p (ArrayVisits env.alphabet need p) (parseArraylhLoop env locals fuel need p s) := by
  -- 燃料についての帰納法。値を一つ読むごとに残りが短くなる
  induction fuel generalizing need p s with
  | zero => cases hfuel
  | succ fuel ih =>
    rcases parseArraylhLoop_head env locals fuel need p s with
      ⟨hno, r, s', cn, h, hends⟩ | ⟨q, s₁, l, hexp, hreads, h⟩
    · exact ⟨r, s', cn, [], h, fun e => by simp [not_arrayVisits hno], hends⟩
    · rw [h]
      rcases findValidArrayValue_run env q l s₁ with
        ⟨q', l', s₂, hno, hfind, hmiss⟩ | ⟨p₁, v, p₂, s₂, hsep, hv, hfind, hread⟩
      · simp only [hfind]
        refine (hreads.ends (o := none) (hmiss.stuck .uncompletedFile)).runs fun e => ?_
        rw [List.nil_append, arrayVisits_iff hexp]
        exact ⟨Or.inl, fun he => he.resolve_right fun ⟨p₁, v, p₂, hsep, hv, _⟩ => hno _ _ _ hsep hv⟩
      · -- 値の次から、また loop を読む
        have hvisits : ∀ e, e ∈ tests env.alphabet .value q ∨ ArrayVisits env.alphabet true (skip p₂) e
            ↔ ArrayVisits env.alphabet need p e := by
          intro e
          rw [arrayVisits_iff hexp, arrayVisits_skip]
          refine or_congr_right ⟨fun h => ⟨p₁, v, p₂, hsep, hv, h⟩, ?_⟩
          rintro ⟨p₁', v', p₂', hsep', hv', h⟩
          cases hsep.unique hsep' hv.solid hv'.solid
          obtain ⟨-, rfl⟩ := hv.unique hv'
          exact h
        simp only [hfind]
        by_cases hp₂ : skip p₂ = []
        · rw [if_pos hp₂]
          refine (hreads.ends (o := none) (hread.stuck .uncompletedLine)).runs fun e => ?_
          rw [List.nil_append, ← hvisits e, hp₂]
          have hno : ¬ArrayVisits env.alphabet true [] e := not_arrayVisits fun q => not_expects_nil rfl
          exact (or_iff_left hno).symm
        · rw [if_neg hp₂]
          have hlen : (skip p₂).length < fuel := by
            have h₁ := length_skip_le p₂
            have h₂ := hv.1.length_lt
            have h₃ := hsep.length_le
            have h₄ := hreads.suffix.length_le
            omega
          exact ((hreads.trans hread).continue ((ih true (skip p₂) s₂ hlen).map _)).congr hvisits

/-! ## 項目の並び -/

/-- 名前がない所では、周回の始めで終わる。 -/
def NoName (A : Alphabet) (p : Bytes) : Prop :=
  ∀ p₁ n p₂, Sep p p₁ → Run A.name p₁ n p₂ → p₂ = []

theorem parseMainHead_run (env : Env) (locals : Locals) (p : Bytes) (s : State) :
    (NoName env.alphabet p ∧ ∃ r s', parseMainHead env locals p s = .returns r s' ∧
      Ends s p s' (tests env.alphabet .name p) r) ∨
    (∃ p₁ n p₂ s', Sep p p₁ ∧ Run env.alphabet.name p₁ n p₂ ∧ p₂ ≠ [] ∧
      parseMainHead env locals p s = .name n p₂ s' ∧
        Reads s p s' p₂ (tests env.alphabet .name p)) := by
  rcases findValid_run env .name p ⟨locals.name p.length, locals.nameLen p.length⟩ s with
    ⟨s', hp, h, hreads⟩ | ⟨q, s', hno, h, hmiss⟩ | ⟨p₁, n, p₂, s', hsep, hsolid, hrun, h, hreads⟩
  · refine Or.inl ⟨fun _ _ _ hsep hrun => (no_solid hp hsep (solid_of_name hrun)).elim, ?_⟩
    -- 不定の `name` が `NULL` なら、ここで空のファイルと報告する
    cases hname : locals.name p.length with
    | none =>
      refine ⟨none, s'.report .emptyFile [], ?_, hreads.stuck .emptyFile⟩
      rw [hname] at h
      simp only [parseMainHead, findValidName, hname, h]
    | some o =>
      refine ⟨some [], s', ?_, hreads⟩
      rw [hname] at h
      simp only [parseMainHead, findValidName, hname, h, if_true]
  · refine Or.inl ⟨fun _ _ _ hsep hrun => (hno _ _ _ hsep (solid_of_name hrun) hrun).elim, none,
      s'.report .emptyFile q, ?_, hmiss.stuck .emptyFile⟩
    simp only [parseMainHead, findValidName, h]
  · by_cases hp₂ : p₂ = []
    · refine Or.inl ⟨?_, some [], s', ?_, hp₂ ▸ hreads⟩
      · intro r₁ m r₂ hsep' hrun'
        cases hsep.unique hsep' hsolid (solid_of_name hrun')
        obtain ⟨-, rfl⟩ := hrun.unique hrun'
        exact hp₂
      · simp only [parseMainHead, findValidName, h, hp₂, if_true]
    · refine Or.inr ⟨p₁, n, p₂, s', hsep, hrun, hp₂, ?_, hreads⟩
      simp only [parseMainHead, findValidName, h, if_neg hp₂, text_run hrun]

theorem tests_skip (A : Alphabet) (t : Table) (p : Bytes) : tests A t (skip p) = tests A t p := by
  simp only [tests, visited, skip_skip]

theorem parseSmodlhHead_run (env : Env) (locals : Locals) (p : Bytes) (s : State) :
    (NoName env.alphabet p ∧ ∃ r s', parseSmodlhHead env locals p s = .returns r s' ∧
      Ends s p s' (headEvents env.alphabet false p) r) ∨
    (∃ p₁ n p₂ s', Sep p p₁ ∧ Run env.alphabet.name p₁ n p₂ ∧ p₂ ≠ [] ∧
      parseSmodlhHead env locals p s = .name n p₂ s' ∧
        Reads s p s' p₂ (headEvents env.alphabet false p)) := by
  have hjump : Reads s p (s.jumped p) (skip p) [] := (Reads.refl s p).jumped
  cases hp : skip p with
  | nil =>
    rw [hp] at hjump
    have hev : headEvents env.alphabet false p = [] := by simp [headEvents, tests, visited, hp]
    refine Or.inl ⟨?_, none, (s.jumped p).report .exceptClose [], ?_, ?_⟩
    · intro p₁ n p₂ hsep hrun
      exact (no_solid hp hsep (solid_of_name hrun)).elim
    · simp only [parseSmodlhHead, jumpspace_eq, hp]
    · rw [hev]
      exact hjump.stuck .exceptClose
  | cons b rest =>
    obtain ⟨hsep, hsolid⟩ := sep_skip (p := p) (by simp [hp])
    rw [hp] at hsep hsolid hjump
    by_cases hb : b = rbrace
    · subst hb
      have hev : headEvents env.alphabet false p = [] := by simp [headEvents, hp]
      refine Or.inl ⟨?_, some rest, (s.jumped p).levelDown, ?_, ?_⟩
      · intro p₁ n p₂ hsep' hrun
        cases hsep.unique hsep' hsolid (solid_of_name hrun)
        exact (name_head_ne hrun (by decide)).elim
      · simp only [parseSmodlhHead, jumpspace_eq, hp, if_true]
      · rw [hev]
        exact (hjump.cons (by decide)).levelDown
    · have hev : headEvents env.alphabet false p = tests env.alphabet .name (b :: rest) := by
        rw [← hp, tests_skip, headEvents, if_neg]
        simp [hp, hb]
      rw [hev]
      rcases findValid_run env .name (b :: rest) ⟨locals.name p.length, locals.nameLen p.length⟩
        (s.jumped p) with
        ⟨s', hend, -, -⟩ | ⟨q, s', hno, h, hmiss⟩ | ⟨p₁, n, p₂, s', hsep₁, hsolid₁, hrun, h, hreads⟩
      · rw [hsolid.skip_eq] at hend
        exact absurd hend hsolid.ne_nil
      · refine Or.inl ⟨?_, none, s'.report .uncompletedFile q, ?_,
          hjump.ends (o := none) (hmiss.stuck .uncompletedFile)⟩
        · intro p₁ n p₂ hsep' hrun
          cases hsep.unique hsep' hsolid (solid_of_name hrun)
          exact (hno _ _ _ (.refl _) hsolid hrun).elim
        · simp only [parseSmodlhHead, jumpspace_eq, hp, if_neg hb, findValidName, h]
      · by_cases hp₂ : p₂ = []
        · refine Or.inl ⟨?_, none, s'.report .uncompletedLine p₂, ?_,
            hjump.ends (o := none) (hreads.stuck .uncompletedLine)⟩
          · intro r₁ m r₂ hsep' hrun'
            cases (hsep.trans hsep₁).unique hsep' hsolid₁ (solid_of_name hrun')
            obtain ⟨-, rfl⟩ := hrun.unique hrun'
            exact hp₂
          · simp only [parseSmodlhHead, jumpspace_eq, hp, if_neg hb, findValidName, h, if_pos hp₂]
        · refine Or.inr ⟨p₁, n, p₂, s', hsep.trans hsep₁, hrun, hp₂, ?_, hjump.trans hreads⟩
          simp only [parseSmodlhHead, jumpspace_eq, hp, if_neg hb, findValidName, h, if_neg hp₂,
            text_run hrun]

/-- 周回の始めは、名前がなければそこで終わり、あればその後へ進む。先に `headEvents` が起こる。 -/
theorem parseHead_run (env : Env) (locals : Locals) (top : Bool) (p : Bytes) (s : State) :
    (NoName env.alphabet p ∧ ∃ r s', parseHead env locals top p s = .returns r s' ∧
      Ends s p s' (headEvents env.alphabet top p) r) ∨
    (∃ p₁ n p₂ s', Sep p p₁ ∧ Run env.alphabet.name p₁ n p₂ ∧ p₂ ≠ [] ∧
      parseHead env locals top p s = .name n p₂ s' ∧
        Reads s p s' p₂ (headEvents env.alphabet top p)) := by
  cases top with
  | true => exact parseMainHead_run env locals p s
  | false => exact parseSmodlhHead_run env locals p s

/-- 配列が閉じた先は、`parse_arraylh` の返した位置である。 -/
theorem array_rest_iff {locals : Locals} {fuel : Nat} {r : Option Bytes} {cn : CN}
    (h : parseArraylh env locals fuel q s = some (r, s₁, cn)) (hfuel : q.length < fuel) (e : Event) :
    (∃ vs m, Values env.alphabet q vs m ∧ Visits env.alphabet top m e) ↔
      ∃ m, r = some m ∧ Visits env.alphabet top m e := by
  have herase := parseArraylh_erase env locals fuel q s
  rw [h] at herase
  constructor
  · rintro ⟨vs, m, hvals, he⟩
    have hvals : Values (locals.env env).alphabet q vs m := hvals
    obtain ⟨s', -, hparse⟩ := parseArraylh_complete hvals fuel s.pconf hfuel
    rw [← herase] at hparse
    cases hparse
    exact ⟨m, rfl, he⟩
  · rintro ⟨m, rfl, he⟩
    have hsound := parseArraylh_sound (locals.env env) fuel q s.pconf hfuel
    rw [← herase] at hsound
    rcases hsound with ⟨vs, hvals, -, -⟩ | ⟨rfl, -⟩
    · exact ⟨vs, m, hvals, he⟩
    · exact (visits_nil he).elim

/-- block が閉じた先は、`parse_smodlh` の返した位置である。 -/
theorem block_rest_iff {locals : Locals} {fuel : Nat} {r : Option Bytes} {cn : CN}
    (h : parseLoop env locals fuel false q s = some (r, s₁, cn)) (hfuel : q.length < fuel)
    (e : Event) :
    (∃ sub p₄ m, Parses env.alphabet false q sub p₄ ∧ Sep p₄ (rbrace :: m) ∧
      Visits env.alphabet top m e) ↔ ∃ m, r = some m ∧ Visits env.alphabet top m e := by
  have herase := parseLoop_erase env locals fuel false q s
  rw [h] at herase
  constructor
  · rintro ⟨sub, p₄, m, hsub, hclose, he⟩
    have hp₄ : p₄ = [] → sub.endsInValue = false := by
      rintro rfl
      cases hclose.of_nil
    have hsub : Parses (locals.env env).alphabet false q sub p₄ := hsub
    obtain ⟨s', -, hparse⟩ := parseLoop_complete hsub fuel s.pconf m hp₄ hclose hfuel
    rw [← herase] at hparse
    cases hparse
    exact ⟨m, rfl, he⟩
  · rintro ⟨m, rfl, he⟩
    have hsound := parseLoop_sound (locals.env env) fuel false q s.pconf hfuel
    rw [← herase] at hsound
    rcases hsound with ⟨sub, p₄, hsub, hclose, -, -, -⟩ | ⟨rfl, -⟩
    · exact ⟨sub, p₄, m, hsub, hclose, he⟩
    · exact (visits_nil he).elim

/-- 中の list を読んだ後、返った位置があればそこから loop を続ける。 -/
theorem afterEntry_run {loop : Bytes → State → Option Result} {f : CN → Fields}
    {o : Option Result} {V : Event → Prop} (h : Runs s p V o)
    (hloop : ∀ m s', m <:+ p → Runs s' m (Visits env.alphabet top m) (loop m s')) :
    ∃ r, (∃ s' cn, o = some (r, s', cn)) ∧
      Runs s p (fun e => V e ∨ ∃ m, r = some m ∧ Visits env.alphabet top m e)
        ((o.map fun (r, s, smodlh) => (Step.goOn r, s, f smodlh)).bind (afterEntry loop)) := by
  obtain ⟨r, s', cn, evs, rfl, hevs, hends⟩ := h
  refine ⟨r, ⟨s', cn, rfl⟩, ?_⟩
  cases r with
  | none => exact ⟨none, s', (f cn).link newNode, evs, rfl, fun e => by simp [hevs], hends⟩
  | some m =>
    have hends : Reads s p s' m evs := hends
    refine (hends.continue ((hloop m s' hends.suffix).map (f cn).link)).congr fun e => ?_
    simp [hevs]

/-- 配列か block の中を読み、その先へ loop を続ける。 -/
theorem Enters.runs {sub loop : Bytes → State → Option Result} {ntype : NodeType}
    {o : Option (Step × State × Fields)} {V : Event → Prop} (h : Enters s p q evs sub n ntype o)
    (hsub : ∀ s', Runs s'.levelUp q V (sub q s'))
    (hloop : ∀ m s', m <:+ q → Runs s' m (Visits env.alphabet top m) (loop m s')) :
    ∃ s' s₁ r cn, sub q s' = some (r, s₁, cn) ∧
      Runs s p (fun e => e ∈ evs ∨ V e ∨ ∃ m, r = some m ∧ Visits env.alphabet top m e)
        (o.bind (afterEntry loop)) := by
  obtain ⟨s', hreads, rfl⟩ := h
  obtain ⟨r, ⟨s₁, cn, hres⟩, hafter⟩ := afterEntry_run
    (f := fun smodlh => ⟨rcStrncpy confNamel n, [], ntype, smodlh⟩) (hsub s') hloop
  exact ⟨s', s₁, r, cn, hres, hreads.levelUp.continue hafter⟩

/-- **loop が終わるまでに起こることは、ちょうど `Visits` である。** -/
theorem parseLoop_run (env : Env) (locals : Locals) (fuel : Nat) (top : Bool) (p : Bytes)
    (s : State) (hfuel : p.length < fuel) :
    Runs s p (Visits env.alphabet top p) (parseLoop env locals fuel top p s) := by
  -- 中の block も先の並びも、同じ燃料の帰納法の仮定から読む
  induction fuel generalizing top p s with
  | zero => cases hfuel
  | succ fuel ih =>
    cases p with
    | nil => exact (Reads.refl s []).runs fun e => by simp [visits_nil]
    | cons b p =>
      rcases parseHead_run env locals top (b :: p) s with
        ⟨hno, r, s₁, hhead, hends⟩ | ⟨p₁, n, p₂, s₁, hsep, hname, hp₂, hhead, hreads⟩
      · rw [parseLoop, hhead]
        exact ⟨r, s₁, newNode, _, rfl, fun e => (visits_head_iff hno).symm, hends⟩
      rw [parseLoop, hhead]
      have hlen₂ := length_lt_of_name hsep hname
      have hvisits : ∀ e, Visits env.alphabet top (b :: p) e ↔ _ :=
        fun e => visits_name_iff hsep hname hp₂
      rcases parseEntry_run (fun p s => parseLoop env locals fuel false p s.levelUp)
        (parseArraylh env locals fuel) env top n p₂ s₁ with
        ⟨hvalue, harray, hopens, s₂, f, hentry, hstuck⟩ | ⟨v, q, htail, s₂, f, hentry, hread⟩ |
        ⟨q, hopen, hentry⟩ | ⟨k, m, q, hopens, hentry⟩
      · simp only [hentry]
        refine (hreads.ends (o := none) hstuck).runs fun e => ?_
        rw [hvisits, List.mem_append]
        simp [not_tailVisits hvalue harray hopens]
      · -- 値
        simp only [hentry]
        have hlen := htail.suffix.length_le
        have hrest := (hreads.trans hread).continue ((ih top q s₂ (by omega)).map f.link)
        refine hrest.congr fun e => ?_
        rw [hvisits, tailVisits_value_iff htail, List.mem_append, or_assoc]
      · -- 配列
        have hlen := hopen.length_le
        rw [List.length_cons] at hlen
        have harr : ∀ s', Runs s'.levelUp q (ArrayVisits env.alphabet false q)
            (parseArraylh env locals fuel q s') := fun s' =>
          parseArraylhLoop_run env locals fuel false q s'.levelUp (by omega)
        obtain ⟨s₂, s₃, r, cn, hres, hruns⟩ := hentry.runs harr fun m s' hm =>
          ih top m s' (by have := hm.length_le; omega)
        refine (hreads.continue hruns).congr fun e => ?_
        rw [hvisits, tailVisits_array_iff hopen, array_rest_iff hres (by omega)]
      · -- block
        have hlen := hopens.suffix.length_le
        obtain ⟨s₂, s₃, r, cn, hres, hruns⟩ := hentry.runs
          (fun s' => ih false q s'.levelUp (by omega)) fun m s' hm =>
            ih top m s' (by have := hm.length_le; omega)
        refine (hreads.continue hruns).congr fun e => ?_
        rw [hvisits, tailVisits_opens_iff hopens, block_rest_iff hres (by omega)]

/-! ## ファイル全体 -/

@[simp] theorem reports_events (s : State) (ms : List Message) (p : Bytes) :
    (s.reports ms p).events = s.events := by
  induction ms generalizing s with
  | nil => rfl
  | cons m ms ih => exact ih (s.report m p)

/-- 続けてした報告は、どれも同じ行と位置である。 -/
theorem reports_log (s : State) (ms : List Message) (p : Bytes) :
    (s.reports ms p).pconf.log
      = s.pconf.log ++ ms.map fun m => ⟨m, s.pconf.linenum, p⟩ := by
  induction ms generalizing s with
  | nil => exact (List.append_nil _).symm
  | cons m ms ih =>
    have h := ih (s.report m p)
    rw [State.reports, List.foldl_cons]
    exact h.trans (List.append_assoc ..)

theorem reports_stopped (s : State) {ms : List Message} (hms : ms ≠ []) (p : Bytes) :
    (s.reports ms p).pconf.stopped = p := by
  obtain ⟨ms, m, rfl⟩ := List.eq_nil_or_concat ms |>.resolve_left hms
  simp [Pconf.stopped, reports_log]

theorem Stuck.events (h : Stuck s p s₁ evs) : s₁.events = s.events ++ evs := by
  obtain ⟨s', q, ms, -, hreads, rfl⟩ := h
  rw [reports_events, hreads.events]

/-- 止まった所で、さらに報告する。 -/
theorem Stuck.report (h : Stuck s p s₁ evs) (m : Message) :
    Stuck s p (s₁.report m s₁.pconf.stopped) evs := by
  obtain ⟨s', q, ms, hms, hreads, rfl⟩ := h
  rw [reports_stopped s' hms]
  exact Misses.stuck ⟨s', ms, hreads, rfl⟩ m

/-- `parse` が始めるときの状態。 -/
def start : State := ⟨⟨1, 0, []⟩, []⟩

/-- **`parse` は必ず終わる。起こることはちょうど `Visits` で、返り値が 0 なら報告はなく、-1 なら、
ある位置で報告して止まっている。** -/
theorem parse_run (env : Env) (locals : Locals) (buf : Bytes) :
    ∃ code s cn, parse env locals buf = some (code, s, cn) ∧
      (∀ e, e ∈ s.events ↔ Visits env.alphabet true buf e) ∧
      ((code = 0 ∧ Reads start buf s [] s.events) ∨ (code = -1 ∧ Stuck start buf s s.events)) := by
  obtain ⟨r, s, cn, evs, hloop, hevs, hends⟩ :=
    parseLoop_run env locals (buf.length + 1) true buf start (Nat.lt_succ_self _)
  have hsound := parseLoop_sound (locals.env env) (buf.length + 1) true buf start.pconf
    (Nat.lt_succ_self _)
  rw [← parseLoop_erase, hloop] at hsound
  have hrejects : ∀ s', Stuck start buf s' evs →
      (∀ e, e ∈ s'.events ↔ Visits env.alphabet true buf e) ∧ Stuck start buf s' s'.events := by
    intro s' hstuck
    have hev : s'.events = evs := hstuck.events
    exact ⟨fun e => by rw [hev, hevs], hev ▸ hstuck⟩
  rw [start] at hloop
  simp only [parse, parseMain, hloop, Option.map_some]
  cases r with
  | none =>
    rw [if_neg (by simp)]
    by_cases hlevel : s.pconf.level > 0
    · obtain ⟨hvisits, hstuck⟩ := hrejects _ (Stuck.report hends .unexceptClose)
      rw [if_pos hlevel]
      exact ⟨_, _, _, rfl, hvisits, Or.inr ⟨rfl, hstuck⟩⟩
    · obtain ⟨hvisits, hstuck⟩ := hrejects s hends
      rw [if_neg hlevel]
      exact ⟨_, _, _, rfl, hvisits, Or.inr ⟨rfl, hstuck⟩⟩
  | some q =>
    have hends : Reads start buf s q evs := hends
    rcases hsound with ⟨t, m, -, ⟨rfl, -⟩, -, hlevel, -⟩ | ⟨rfl, hlevel⟩
    · have hev : s.events = evs := hends.events
      have hlevel : s.pconf.level = 0 := hlevel
      rw [if_pos ⟨rfl, hlevel⟩]
      exact ⟨_, _, _, rfl, fun e => by rw [hev, hevs], Or.inl ⟨rfl, hev ▸ hends⟩⟩
    · -- 閉じないまま終わりに達したら、`level` が残る
      have hlevel : s.pconf.level > 0 := hlevel
      obtain ⟨hvisits, hstuck⟩ := hrejects _ (hends.stuck .unexceptClose)
      rw [if_neg (by omega), if_pos hlevel]
      exact ⟨_, _, _, rfl, hvisits, Or.inr ⟨rfl, hstuck⟩⟩

end RecordServer.Conf.Raw
