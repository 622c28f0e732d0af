import RecordServer.Conf.Visits

/-!
# 読み進めた跡

parser の状態が、位置 `p` から `q` までの間にどう変わったかを言う。

* `jumped_lines` — `jumpspace` は、読み飛ばした改行の数だけ行番号を進める
* `Reads` — 報告せずに `p` から `q` まで読んだ。行番号は、通った改行と、先読みで見た改行
  （`gaps`）の数だけ進む
* `Misses` / `Stuck` — ある位置まで読み、そこで報告した
* `findValid_run` — 並びを取る関数が調べる文字は、ちょうど `tests` である
-/

namespace RecordServer.Conf.Raw

open Infra

/-! ## 改行の数 -/

def newlines (p : Bytes) : Nat := p.count newline

/-- 先読みで見て、また元の位置へ戻った改行の数。 -/
def gap : Event → Nat
  | .test _ _ => 0
  | .ahead p => newlines p - newlines (skip p)

def gaps : List Event → Nat
  | [] => 0
  | e :: evs => gap e + gaps evs

@[simp] theorem newlines_nil : newlines [] = 0 := rfl

theorem newlines_cons {b : UInt8} (hb : b ≠ newline) (p : Bytes) :
    newlines (b :: p) = newlines p := List.count_cons_of_ne hb

@[simp] theorem newlines_newline (p : Bytes) : newlines (newline :: p) = newlines p + 1 :=
  List.count_cons_self

theorem newlines_le_of_suffix {p q : Bytes} (h : q <:+ p) : newlines q ≤ newlines p :=
  h.sublist.count_le newline

/-- 改行を含まない並びを取っても、残りの改行の数は変わらない。 -/
theorem newlines_run {c : UInt8 → Bool} {p w q : Bytes} (h : Run c p w q) (hc : c newline = false) :
    newlines p = newlines q := by
  have hw : w.count newline = 0 := by
    rw [List.count_eq_zero]
    intro hmem
    rw [h.all newline hmem] at hc
    cases hc
  rw [newlines, h.split, List.count_append, hw, Nat.zero_add]
  rfl

@[simp] theorem gaps_nil : gaps [] = 0 := rfl

@[simp] theorem gaps_append (es fs : List Event) : gaps (es ++ fs) = gaps es + gaps fs := by
  induction es with
  | nil => simp [gaps]
  | cons e es ih => simp [gaps, ih, Nat.add_assoc]

theorem gaps_eq_zero_iff {evs : List Event} : gaps evs = 0 ↔ ∀ e ∈ evs, gap e = 0 := by
  induction evs with
  | nil => simp
  | cons e evs ih => simp [gaps, ih]

theorem gaps_tests (t : Table) (bs : Bytes) : gaps (bs.map (.test t)) = 0 := by
  simp [gaps_eq_zero_iff, gap]

/-! ## 区切りを読み飛ばす -/

theorem skip_suffix (p : Bytes) : skip p <:+ p := by
  rcases skip_cases p with ⟨hsep, -⟩ | ⟨-, hnil⟩
  · exact hsep.suffix
  · rw [hnil]
    exact List.nil_suffix

theorem nextLine_linenum (s : Pconf) : s.nextLine.linenum = s.linenum + 1 := rfl

theorem jumpcomment_lines (inside : Bool) (p : Bytes) (s : Pconf) :
    (jumpcomment inside p s).2.linenum + newlines (jumpcomment inside p s).1
      = s.linenum + newlines p := by
  induction p generalizing inside s with
  | nil => rfl
  | cons b p ih =>
    simp only [jumpcomment]
    split_ifs with h₁ h₂ h₃
    · rw [ih, h₂, newlines_newline, nextLine_linenum]
      omega
    · rw [ih, newlines_cons h₂]
    · rw [ih, h₃, newlines_cons (by decide)]
    · rfl

theorem jumpcomment_log (inside : Bool) (p : Bytes) (s : Pconf) :
    (jumpcomment inside p s).2.log = s.log := by
  induction p generalizing inside s with
  | nil => rfl
  | cons b p ih =>
    simp only [jumpcomment]
    split_ifs <;> simp [ih, Pconf.nextLine]

theorem jumpspaceLoop_lines (fuel : Nat) (p : Bytes) (s : Pconf) :
    (jumpspaceLoop fuel p s).2.linenum + newlines (jumpspaceLoop fuel p s).1
      = s.linenum + newlines p := by
  induction fuel generalizing p s with
  | zero => rfl
  | succ fuel ih =>
    cases p with
    | nil => rfl
    | cons b p =>
      simp only [jumpspaceLoop]
      split_ifs with h₁ h₂ h₃
      · have hb : b ≠ newline := by
          rintro rfl
          revert h₁
          decide
        rw [ih, newlines_cons hb]
      · rw [ih, h₂, newlines_newline, nextLine_linenum]
        omega
      · rw [ih, jumpcomment_lines]
      · rfl

theorem jumpspaceLoop_log (fuel : Nat) (p : Bytes) (s : Pconf) :
    (jumpspaceLoop fuel p s).2.log = s.log := by
  induction fuel generalizing p s with
  | zero => rfl
  | succ fuel ih =>
    cases p with
    | nil => rfl
    | cons b p =>
      simp only [jumpspaceLoop]
      split_ifs <;> simp [ih, jumpcomment_log, Pconf.nextLine]

/-- **`jumpspace` は、読み飛ばした改行の数だけ行番号を進める。** -/
theorem jumped_lines (s : Pconf) (p : Bytes) :
    (s.jumped p).linenum + newlines (skip p) = s.linenum + newlines p := by
  have h := jumpspaceLoop_lines p.length p s
  rwa [jumpspaceLoop_fst _ _ _ (Nat.le_refl _)] at h

theorem jumped_log (s : Pconf) (p : Bytes) : (s.jumped p).log = s.log :=
  jumpspaceLoop_log p.length p s

/-! ## 読んだ跡 -/

/-- 報告せずに `p` から `q` まで読み、`evs` が起こった。 -/
structure Reads (s : State) (p : Bytes) (s' : State) (q : Bytes) (evs : List Event) : Prop where
  suffix : q <:+ p
  events : s'.events = s.events ++ evs
  lines : s'.pconf.linenum + newlines q = s.pconf.linenum + newlines p + gaps evs
  log : s'.pconf.log = s.pconf.log

/-- 一つの位置で続けて報告する。 -/
def State.reports (s : State) (ms : List Message) (p : Bytes) : State :=
  ms.foldl (fun s m => s.report m p) s

/-- `q` まで読み、そこでいくつか（0 回でもよい）報告した。 -/
def Misses (s : State) (p : Bytes) (s' : State) (q : Bytes) (evs : List Event) : Prop :=
  ∃ s₁ ms, Reads s p s₁ q evs ∧ s' = s₁.reports ms q

/-- ある位置まで読み、そこで報告して止まった。 -/
def Stuck (s : State) (p : Bytes) (s' : State) (evs : List Event) : Prop :=
  ∃ s₁ q ms, ms ≠ [] ∧ Reads s p s₁ q evs ∧ s' = s₁.reports ms q

/-- `NULL` を返すのは報告したときで、位置を返すのは報告しなかったときである。 -/
def Ends (s : State) (p : Bytes) (s' : State) (evs : List Event) : Option Bytes → Prop
  | none => Stuck s p s' evs
  | some q => Reads s p s' q evs

section

variable {s s₁ s₂ : State} {p q r : Bytes} {evs evs' : List Event}

theorem Reads.refl (s : State) (p : Bytes) : Reads s p s p [] :=
  ⟨List.suffix_refl p, (List.append_nil _).symm, rfl, rfl⟩

theorem Reads.trans (h : Reads s p s₁ q evs) (h' : Reads s₁ q s₂ r evs') :
    Reads s p s₂ r (evs ++ evs') where
  suffix := h'.suffix.trans h.suffix
  events := by rw [h'.events, h.events, List.append_assoc]
  lines := by
    rw [h'.lines, h.lines, gaps_append, Nat.add_assoc]
  log := h'.log.trans h.log

theorem Reads.jumped (h : Reads s p s₁ q evs) : Reads s p (s₁.jumped q) (skip q) evs where
  suffix := (skip_suffix q).trans h.suffix
  events := h.events
  lines := (jumped_lines s₁.pconf q).trans h.lines
  log := (jumped_log s₁.pconf q).trans h.log

/-- 改行でない文字を一つ読む。 -/
theorem Reads.cons {b : UInt8} (h : Reads s p s₁ (b :: q) evs) (hb : b ≠ newline) :
    Reads s p s₁ q evs where
  suffix := (List.suffix_cons b q).trans h.suffix
  events := h.events
  lines := by rw [← newlines_cons hb q, h.lines]
  log := h.log

theorem Reads.levelUp (h : Reads s p s₁ q evs) : Reads s p s₁.levelUp q evs :=
  ⟨h.suffix, h.events, h.lines, h.log⟩

theorem Reads.levelDown (h : Reads s p s₁ q evs) : Reads s p s₁.levelDown q evs :=
  ⟨h.suffix, h.events, h.lines, h.log⟩

/-- 先読みは位置を戻すので、見た改行の分だけ行番号が余計に進む。 -/
theorem Reads.ahead (h : Reads s p s₁ q evs) :
    Reads s p ((s₁.record (.ahead q)).jumped q) q (evs ++ [.ahead q]) where
  suffix := h.suffix
  events := by
    change s₁.events ++ [Event.ahead q] = _
    rw [h.events, List.append_assoc]
  lines := by
    have hjump : ((s₁.record (.ahead q)).jumped q).pconf.linenum + newlines (skip q)
      = s₁.pconf.linenum + newlines q := jumped_lines s₁.pconf q
    have hle := newlines_le_of_suffix (skip_suffix q)
    have hlines := h.lines
    have hgap : gaps [Event.ahead q] = newlines q - newlines (skip q) := by simp [gaps, gap]
    rw [gaps_append, hgap]
    omega
  log := (jumped_log s₁.pconf q).trans h.log

theorem Misses.stuck (h : Misses s p s₁ q evs) (m : Message) : Stuck s p (s₁.report m q) evs := by
  obtain ⟨s', ms, hreads, rfl⟩ := h
  refine ⟨s', q, ms ++ [m], by simp, hreads, ?_⟩
  simp [State.reports]

theorem Reads.misses (h : Reads s p s₁ q evs) : Misses s p s₁ q evs := ⟨s₁, [], h, rfl⟩

theorem Reads.stuck (h : Reads s p s₁ q evs) (m : Message) : Stuck s p (s₁.report m q) evs :=
  h.misses.stuck m

theorem Reads.ends {o : Option Bytes} (h : Reads s p s₁ q evs) (h' : Ends s₁ q s₂ evs' o) :
    Ends s p s₂ (evs ++ evs') o := by
  cases o with
  | none =>
    obtain ⟨s', r, ms, hms, hreads, hs⟩ := h'
    exact ⟨s', r, ms, hms, h.trans hreads, hs⟩
  | some r => exact h.trans h'

end

/-! ## 字句 -/

section

variable {env : Env} {t : Table} {s s₀ s₁ : State} {p₀ p p₁ q n w : Bytes} {evs : List Event}
  {top : Bool}

theorem chars_alphabet (env : Env) (t : Table) : t.chars env.alphabet = t.valid env := by
  cases t <;> rfl

theorem valid_newline (env : Env) (t : Table) : t.valid env newline = false := by
  cases t <;> rfl

theorem Reads.tested (h : Reads s₀ p₀ s p evs) (t : Table) (bs : Bytes) :
    Reads s₀ p₀ (s.tested t bs) p (evs ++ bs.map (.test t)) where
  suffix := h.suffix
  events := by
    change s.events ++ _ = _
    rw [h.events, List.append_assoc]
  lines := by
    rw [gaps_append, gaps_tests]
    exact h.lines
  log := h.log

theorem Reads.run {c : UInt8 → Bool} (h : Reads s₀ p₀ s p evs) (hrun : Run c p w q)
    (hc : c newline = false) : Reads s₀ p₀ s q evs where
  suffix := hrun.suffix.trans h.suffix
  events := h.events
  lines := by rw [← newlines_run hrun hc, h.lines]
  log := h.log

/-- 区切りだけが残っているなら、字句はない。 -/
theorem no_solid (hp : skip p = []) (hsep : Sep p p₁) (hsolid : Solid p₁) : False := by
  rw [hsep.skip_eq hsolid] at hp
  exact hsolid.ne_nil hp

/-- **並びを取る関数は、終わりに達するか、許されない文字を報告するか、並びを得る。調べる文字は `tests` である。** -/
theorem findValid_run (env : Env) (t : Table) (p : Bytes) (out : Out) (s : State) :
    (∃ s', skip p = [] ∧ findValid env t p out s = ([], out, s') ∧
      Reads s p s' [] (tests env.alphabet t p)) ∨
    (∃ q s', (∀ p₁ w q, Sep p p₁ → Solid p₁ → ¬Run (t.valid env) p₁ w q) ∧
      findValid env t p out s = (q, ⟨none, 0⟩, s') ∧ Misses s p s' q (tests env.alphabet t p)) ∨
    (∃ p₁ w q s', Sep p p₁ ∧ Solid p₁ ∧ Run (t.valid env) p₁ w q ∧
      findValid env t p out s = (q, ⟨some p₁, w.length⟩, s') ∧
        Reads s p s' q (tests env.alphabet t p)) := by
  have hjump : Reads s p (s.jumped p) (skip p) [] := (Reads.refl s p).jumped
  cases hp : skip p with
  | nil =>
    refine Or.inl ⟨s.jumped p, rfl, findValid_end hp, ?_⟩
    rw [hp] at hjump
    simpa [tests, visited, hp] using hjump
  | cons b rest =>
    obtain ⟨hsep, hsolid⟩ := sep_skip (p := p) (by simp [hp])
    rw [hp] at hsep hsolid hjump
    by_cases hb : t.valid env b = true
    · have hrun : Run (t.valid env) (b :: rest) _ _ := .of_head hb
      refine Or.inr (Or.inr ⟨_, _, _, _, hsep, hsolid, hrun, findValid_token hsep hsolid hrun, ?_⟩)
      have h := (hjump.tested t ((b :: rest).take 1 ++ looked (t.valid env) (b :: rest))).run hrun
        (valid_newline env t)
      simpa [tests, visited, hp, chars_alphabet, hb] using h
    · have hb : t.valid env b = false := by simpa using hb
      refine Or.inr (Or.inl ⟨b :: rest, _, ?_, findValid_bad hp hb, ?_⟩)
      · intro p₁ w q hsep' hsolid' hrun
        cases hsep.unique hsep' hsolid hsolid'
        obtain ⟨b', w', -, heq, hb'⟩ := hrun.head
        cases heq
        rw [hb'] at hb
        cases hb
      · refine ⟨(s.jumped p).tested t [b], [.illegalChar], ?_, rfl⟩
        have h := hjump.tested t [b]
        simpa [tests, visited, hp, chars_alphabet, hb] using h

theorem findValidValue_run (env : Env) (p : Bytes) (len : Int) (s : State) :
    (∃ q l s', (∀ p₁ v p₂ r, Sep p p₁ → Value env.alphabet p₁ v p₂ → ¬Sep p₂ (semicolon :: r)) ∧
      findValidValue env p len s = (q, ⟨none, l⟩, s') ∧
        Misses s p s' q (tests env.alphabet .value p)) ∨
    (∃ p₁ v p₂ q s', Sep p p₁ ∧ Value env.alphabet p₁ v p₂ ∧ Sep p₂ (semicolon :: q) ∧
      findValidValue env p len s = (q, ⟨some p₁, v.length⟩, s') ∧
        Reads s p s' q (tests env.alphabet .value p)) := by
  rcases findValid_run env .value p ⟨none, len⟩ s with
    ⟨s', hp, h, hreads⟩ | ⟨q, s', hno, h, hmiss⟩ | ⟨p₁, v, p₂, s', hsep, hsolid, hrun, h, hreads⟩
  · refine Or.inl ⟨[], len, s', ?_, by simp only [findValidValue, h], hreads.misses⟩
    intro p₁ v p₂ r hsep hv _
    exact no_solid hp hsep hv.solid
  · refine Or.inl ⟨q, 0, s', ?_, by simp only [findValidValue, h], hmiss⟩
    intro p₁ v p₂ r hsep hv _
    exact hno p₁ v p₂ hsep hv.solid hv.1
  · have hv : Value env.alphabet p₁ v p₂ := value_of_run hsolid hrun
    have hskip := hreads.jumped
    by_cases hend : deref (skip p₂) = semicolon
    · obtain ⟨q, hq⟩ := (deref_eq_iff (by decide)).mp hend
      have hsep₂ : Sep p₂ (semicolon :: q) := (sep_iff_skip_eq (solid_semicolon q)).mpr hq
      refine Or.inr ⟨p₁, v, p₂, q, s'.jumped p₂, hsep, hv, hsep₂, ?_, ?_⟩
      · simp only [findValidValue, h, jumpspace_eq, hq, deref, if_true, List.tail_cons]
      · rw [hq] at hskip
        exact hskip.cons (by decide)
    · refine Or.inl ⟨skip p₂, 0, (s'.jumped p₂).report .expectSemicolon (skip p₂), ?_, ?_,
        ⟨s'.jumped p₂, [.expectSemicolon], hskip, rfl⟩⟩
      · intro r₁ v' r₂ r hsep' hv' hend'
        cases hsep.unique hsep' hsolid hv'.solid
        obtain ⟨-, rfl⟩ := hv.unique hv'
        exact hend (by rw [hend'.skip_eq (solid_semicolon r)]; rfl)
      · simp only [findValidValue, h, jumpspace_eq, if_neg hend]

theorem findValidArrayValue_run (env : Env) (p : Bytes) (len : Int) (s : State) :
    (∃ q l s', (∀ p₁ v p₂, Sep p p₁ → ¬Value env.alphabet p₁ v p₂) ∧
      findValidArrayValue env p len s = (q, ⟨none, l⟩, s') ∧
        Misses s p s' q (tests env.alphabet .value p)) ∨
    (∃ p₁ v p₂ s', Sep p p₁ ∧ Value env.alphabet p₁ v p₂ ∧
      findValidArrayValue env p len s = (skip p₂, ⟨some p₁, v.length⟩, s') ∧
        Reads s p s' (skip p₂) (tests env.alphabet .value p)) := by
  rcases findValid_run env .value p ⟨none, len⟩ s with
    ⟨s', hp, h, hreads⟩ | ⟨q, s', hno, h, hmiss⟩ | ⟨p₁, v, p₂, s', hsep, hsolid, hrun, h, hreads⟩
  · refine Or.inl ⟨[], len, s', ?_, by simp only [findValidArrayValue, h], hreads.misses⟩
    intro p₁ v p₂ hsep hv
    exact no_solid hp hsep hv.solid
  · refine Or.inl ⟨q, 0, s', ?_, by simp only [findValidArrayValue, h], hmiss⟩
    intro p₁ v p₂ hsep hv
    exact hno p₁ v p₂ hsep hv.solid hv.1
  · have hv : Value env.alphabet p₁ v p₂ := value_of_run hsolid hrun
    refine Or.inr ⟨p₁, v, p₂, s'.jumped p₂, hsep, hv, ?_, hreads.jumped⟩
    simp only [findValidArrayValue, h, jumpspace_eq]

end

end RecordServer.Conf.Raw
