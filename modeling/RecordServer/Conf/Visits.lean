import RecordServer.Conf.RawErase

/-!
# parser が調べる文字と、先を見る位置

`Visits A top p e` は、`p` の先頭から項目を読むと `e` が起こることをいう。parser を見ずに、文法と
「どこで名前や値を期待するか」だけから書く。

* `tests` — 区切りの後で並びを期待したときに調べる文字。並びの全部と、その次の文字である
* `Visits` / `ArrayVisits` — 項目の並びと配列の中で起こること
* `visits_value_iff` / `visits_array_iff` / `visits_opens_iff` — 名前の後の形ごとの分け方
-/

namespace RecordServer.Conf.Raw

open Infra

/-! ## 一箇所で起こること -/

def Table.chars (A : Alphabet) : Table → UInt8 → Bool
  | .name => A.name
  | .value => A.value

/-- 区切りの後に並びを期待したときに調べる文字。 -/
def visited (c : UInt8 → Bool) (p : Bytes) : Bytes :=
  match skip p with
  | [] => []
  | b :: rest => if c b then b :: looked c (b :: rest) else [b]

def tests (A : Alphabet) (t : Table) (p : Bytes) : List Event := (visited (t.chars A) p).map (.test t)

/-- 周回の始め。block の中では、閉じ波括弧なら名前を期待しない。 -/
def headEvents (A : Alphabet) (top : Bool) (p : Bytes) : List Event :=
  if top = false ∧ (skip p).head? = some rbrace then [] else tests A .name p

/-- 名前 `n` の後が括弧でないとき。予約語でなければ値を、`proc` なら `top` でだけ名前を期待する。 -/
def keywordEvents (A : Alphabet) (top : Bool) (n p : Bytes) : List Event :=
  if n = ascii "proc" then if top then tests A .name p else [] else tests A .value p

/-- 名前 `n` の後。開き波括弧でなければ、もう一度先を見る。 -/
def tailEvents (A : Alphabet) (top : Bool) (n p : Bytes) : List Event :=
  if (skip p).head? = some lbrace then [.ahead p]
  else if (skip p).head? = some lbracket then [.ahead p, .ahead p]
  else [.ahead p, .ahead p] ++ keywordEvents A top n p

/-! ## 読む間に起こること -/

/-- 配列の一周で値を期待する所 `q`。`need` なら `,` の後、そうでなければ区切りの後である。 -/
inductive Expects : Bool → Bytes → Bytes → Prop
  | first {p q : Bytes} (hsep : Sep p q) (hsolid : Solid q) (hclose : q.head? ≠ some rbracket) :
      Expects false p q
  | more {p q : Bytes} (hcomma : Sep p (comma :: q)) : Expects true p q

inductive ArrayVisits (A : Alphabet) : Bool → Bytes → Event → Prop
  | here {need : Bool} {p q : Bytes} {e : Event} (hexp : Expects need p q)
      (h : e ∈ tests A .value q) : ArrayVisits A need p e
  | next {need : Bool} {p q p₁ p₂ v : Bytes} {e : Event} (hexp : Expects need p q)
      (hsep : Sep q p₁) (hv : Value A p₁ v p₂) (h : ArrayVisits A true p₂ e) :
      ArrayVisits A need p e

inductive Visits (A : Alphabet) : Bool → Bytes → Event → Prop
  | head {top : Bool} {p : Bytes} {e : Event} (h : e ∈ headEvents A top p) : Visits A top p e
  | tail {top : Bool} {p p₁ p₂ n : Bytes} {e : Event} (hsep : Sep p p₁)
      (hname : Run A.name p₁ n p₂) (hp₂ : p₂ ≠ []) (h : e ∈ tailEvents A top n p₂) :
      Visits A top p e
  | inArray {top : Bool} {p p₁ p₂ q n : Bytes} {e : Event} (hsep : Sep p p₁)
      (hname : Run A.name p₁ n p₂) (hopen : Sep p₂ (lbracket :: q)) (h : ArrayVisits A false q e) :
      Visits A top p e
  | inBlock {top : Bool} {p p₁ p₂ q n w : Bytes} {k : BlockKind} {e : Event} (hsep : Sep p p₁)
      (hword : Run A.name p₁ w p₂) (hopens : Opens A top w p₂ k n q) (h : Visits A false q e) :
      Visits A top p e
  | afterLeaf {top : Bool} {p p₁ p₂ q n : Bytes} {x : Leaf} {e : Event} (hsep : Sep p p₁)
      (hname : Run A.name p₁ n p₂) (htail : LeafTail A n p₂ x q) (h : Visits A top q e) :
      Visits A top p e
  | afterBlock {top : Bool} {p p₁ p₂ p₃ p₄ q n w : Bytes} {k : BlockKind} {sub : Entries}
      {e : Event} (hsep : Sep p p₁) (hword : Run A.name p₁ w p₂) (hopens : Opens A top w p₂ k n p₃)
      (hsub : Parses A false p₃ sub p₄) (hclose : Sep p₄ (rbrace :: q)) (h : Visits A top q e) :
      Visits A top p e

variable {A : Alphabet} {top need : Bool} {p p₁ p₂ p₃ q n v w : Bytes} {e : Event}

/-! ## 配列の分け方 -/

theorem skip_skip (p : Bytes) : skip (skip p) = skip p := by
  rcases skip_cases p with ⟨-, hsolid⟩ | ⟨-, hnil⟩
  · exact hsolid.skip_eq
  · rw [hnil]
    rfl

theorem sep_iff_skip_eq (hq : Solid q) : Sep p q ↔ skip p = q := by
  constructor
  · intro h
    exact h.skip_eq hq
  · intro h
    have hsep := (sep_skip (p := p) (h ▸ hq.ne_nil)).1
    rwa [h] at hsep

theorem Expects.unique {q' : Bytes} (h : Expects need p q) (h' : Expects need p q') : q = q' := by
  cases h with
  | first hsep hsolid _ =>
    cases h' with
    | first hsep' hsolid' _ => exact hsep.unique hsep' hsolid hsolid'
  | more hcomma =>
    cases h' with
    | more hcomma' =>
      cases hcomma.unique hcomma' (solid_comma _) (solid_comma _)
      rfl

theorem not_arrayVisits (h : ∀ q, ¬Expects need p q) : ¬ArrayVisits A need p e := by
  intro he
  cases he with
  | here hexp _ => exact h _ hexp
  | next hexp _ _ _ => exact h _ hexp

theorem arrayVisits_iff (hexp : Expects need p q) : ArrayVisits A need p e ↔
    e ∈ tests A .value q ∨
      ∃ p₁ v p₂, Sep q p₁ ∧ Value A p₁ v p₂ ∧ ArrayVisits A true p₂ e := by
  constructor
  · intro he
    cases he with
    | here hexp' h =>
      cases hexp.unique hexp'
      exact Or.inl h
    | next hexp' hsep hv h =>
      cases hexp.unique hexp'
      exact Or.inr ⟨_, _, _, hsep, hv, h⟩
  · rintro (h | ⟨p₁, v, p₂, hsep, hv, h⟩)
    · exact .here hexp h
    · exact .next hexp hsep hv h

theorem expects_skip : Expects true (skip p) q ↔ Expects true p q := by
  have h : Sep (skip p) (comma :: q) ↔ Sep p (comma :: q) := by
    rw [sep_iff_skip_eq (solid_comma q), sep_iff_skip_eq (solid_comma q), skip_skip]
  constructor
  · rintro ⟨⟩
    exact .more (h.mp ‹_›)
  · rintro ⟨⟩
    exact .more (h.mpr ‹_›)

/-- 値の後の区切りは、先に読み飛ばしてよい。 -/
theorem arrayVisits_skip : ArrayVisits A true (skip p) e ↔ ArrayVisits A true p e := by
  constructor
  · intro h
    cases h with
    | here hexp h => exact .here (expects_skip.mp hexp) h
    | next hexp hsep hv h => exact .next (expects_skip.mp hexp) hsep hv h
  · intro h
    cases h with
    | here hexp h => exact .here (expects_skip.mpr hexp) h
    | next hexp hsep hv h => exact .next (expects_skip.mpr hexp) hsep hv h

/-! ## 項目の並びの分け方 -/

/-- 名前 `n` の後を読み、さらにその先を読む間に起こること。 -/
inductive TailVisits (A : Alphabet) (top : Bool) (n p : Bytes) (e : Event) : Prop
  | inArray {q : Bytes} (hopen : Sep p (lbracket :: q)) (h : ArrayVisits A false q e)
  | inBlock {q m : Bytes} {k : BlockKind} (hopens : Opens A top n p k m q) (h : Visits A false q e)
  | afterLeaf {q : Bytes} {x : Leaf} (htail : LeafTail A n p x q) (h : Visits A top q e)
  | afterBlock {p₃ p₄ q m : Bytes} {k : BlockKind} {sub : Entries}
      (hopens : Opens A top n p k m p₃) (hsub : Parses A false p₃ sub p₄)
      (hclose : Sep p₄ (rbrace :: q)) (h : Visits A top q e)

/-- 名前がなければ、周回の始めで終わる。 -/
theorem visits_head_iff (h : ∀ p₁ n p₂, Sep p p₁ → Run A.name p₁ n p₂ → p₂ = []) :
    Visits A top p e ↔ e ∈ headEvents A top p := by
  constructor
  · intro he
    cases he with
    | head he => exact he
    | tail hsep hname hp₂ _ => exact absurd (h _ _ _ hsep hname) hp₂
    | inArray hsep hname hopen _ =>
      cases h _ _ _ hsep hname
      cases hopen.of_nil
    | inBlock hsep hname hopens _ => exact absurd (h _ _ _ hsep hname) hopens.ne_nil
    | afterLeaf hsep hname htail _ => exact absurd (h _ _ _ hsep hname) htail.ne_nil
    | afterBlock hsep hname hopens _ _ _ => exact absurd (h _ _ _ hsep hname) hopens.ne_nil
  · exact .head

theorem visits_name_iff (hsep : Sep p p₁) (hname : Run A.name p₁ n p₂) (hp₂ : p₂ ≠ []) :
    Visits A top p e ↔
      e ∈ headEvents A top p ∨ e ∈ tailEvents A top n p₂ ∨ TailVisits A top n p₂ e := by
  -- 名前の読み方は一つに決まる
  have huniq : ∀ {r m r'}, Sep p r → Run A.name r m r' → n = m ∧ p₂ = r' := by
    intro r m r' hsep' hname'
    cases hsep.unique hsep' (solid_of_name hname) (solid_of_name hname')
    exact hname.unique hname'
  constructor
  · intro he
    cases he with
    | head he => exact Or.inl he
    | tail hsep' hname' _ h =>
      obtain ⟨rfl, rfl⟩ := huniq hsep' hname'
      exact Or.inr (Or.inl h)
    | inArray hsep' hname' hopen h =>
      obtain ⟨rfl, rfl⟩ := huniq hsep' hname'
      exact Or.inr (Or.inr (.inArray hopen h))
    | inBlock hsep' hname' hopens h =>
      obtain ⟨rfl, rfl⟩ := huniq hsep' hname'
      exact Or.inr (Or.inr (.inBlock hopens h))
    | afterLeaf hsep' hname' htail h =>
      obtain ⟨rfl, rfl⟩ := huniq hsep' hname'
      exact Or.inr (Or.inr (.afterLeaf htail h))
    | afterBlock hsep' hname' hopens hsub hclose h =>
      obtain ⟨rfl, rfl⟩ := huniq hsep' hname'
      exact Or.inr (Or.inr (.afterBlock hopens hsub hclose h))
  · rintro (h | h | h)
    · exact .head h
    · exact .tail hsep hname hp₂ h
    · cases h with
      | inArray hopen h => exact .inArray hsep hname hopen h
      | inBlock hopens h => exact .inBlock hsep hname hopens h
      | afterLeaf htail h => exact .afterLeaf hsep hname htail h
      | afterBlock hopens hsub hclose h => exact .afterBlock hsep hname hopens hsub hclose h

theorem visits_nil : ¬Visits A top [] e := by
  rw [visits_head_iff]
  · simp [headEvents, tests, visited, skip, skipFrom]
  · intro p₁ n p₂ hsep hname
    cases hsep.of_nil
    exact (not_run_nil hname).elim

/-- 値の項目の後は、その先だけである。 -/
theorem tailVisits_value_iff (htail : LeafTail A n p (.value v) q) :
    TailVisits A top n p e ↔ Visits A top q e := by
  constructor
  · intro h
    cases h with
    | inArray hopen _ =>
      cases htail with
      | value _ hsep hv _ _ =>
        cases hopen.unique hsep (solid_lbracket _) hv.solid
        exact (value_head_ne hv (by decide)).elim
    | inBlock hopens _ => exact (htail.not_opens hopens).elim
    | afterLeaf htail' h =>
      obtain ⟨-, rfl⟩ := htail.unique htail'
      exact h
    | afterBlock hopens _ _ _ => exact (htail.not_opens hopens).elim
  · exact .afterLeaf htail

theorem Opens.not_lbracket {k : BlockKind} {q' : Bytes} (h : Opens A top w p k n q)
    (hopen : Sep p (lbracket :: q')) : False := by
  cases h with
  | sub h => cases h.unique hopen (solid_lbrace _) (solid_lbracket _)
  | proc _ _ hsep hname _ =>
    cases hopen.unique hsep (solid_lbracket _) (solid_of_name hname)
    exact name_head_ne hname (by decide)

/-- 配列の項目の後は、配列の中と、閉じた先である。 -/
theorem tailVisits_array_iff (hopen : Sep p (lbracket :: q)) :
    TailVisits A top n p e ↔
      ArrayVisits A false q e ∨ ∃ vs r, Values A q vs r ∧ Visits A top r e := by
  constructor
  · intro h
    cases h with
    | inArray hopen' h =>
      cases hopen.unique hopen' (solid_lbracket _) (solid_lbracket _)
      exact Or.inl h
    | inBlock hopens _ => exact (Opens.not_lbracket hopens hopen).elim
    | afterLeaf htail h =>
      cases htail with
      | value _ hsep hv _ _ =>
        cases hopen.unique hsep (solid_lbracket _) hv.solid
        exact (value_head_ne hv (by decide)).elim
      | array hopen' hvals =>
        cases hopen.unique hopen' (solid_lbracket _) (solid_lbracket _)
        exact Or.inr ⟨_, _, hvals, h⟩
    | afterBlock hopens _ _ _ => exact (Opens.not_lbracket hopens hopen).elim
  · rintro (h | ⟨vs, r, hvals, h⟩)
    · exact .inArray hopen h
    · exact .afterLeaf (.array hopen hvals) h

/-- block を開く項目の後は、block の中と、閉じた先である。 -/
theorem tailVisits_opens_iff {k : BlockKind} (hopens : Opens A top w p k n q) :
    TailVisits A top w p e ↔ Visits A false q e ∨
      ∃ sub p₄ r, Parses A false q sub p₄ ∧ Sep p₄ (rbrace :: r) ∧ Visits A top r e := by
  constructor
  · intro h
    cases h with
    | inArray hopen _ => exact (Opens.not_lbracket hopens hopen).elim
    | inBlock hopens' h =>
      obtain ⟨-, -, rfl⟩ := hopens.unique hopens'
      exact Or.inl h
    | afterLeaf htail _ => exact (htail.not_opens hopens).elim
    | afterBlock hopens' hsub hclose h =>
      obtain ⟨-, -, rfl⟩ := hopens.unique hopens'
      exact Or.inr ⟨_, _, _, hsub, hclose, h⟩
  · rintro (h | ⟨sub, p₄, r, hsub, hclose, h⟩)
    · exact .inBlock hopens h
    · exact .afterBlock hopens hsub hclose h

/-- 名前の後が文法の形でないか、値の `;` で終わるなら、そこで終わる。 -/
theorem not_tailVisits (hvalue : ∀ v q, LeafTail A n p (.value v) q → q = [])
    (harray : ∀ q, ¬Sep p (lbracket :: q)) (hopens : ∀ k m q, ¬Opens A top n p k m q) :
    ¬TailVisits A top n p e := by
  intro h
  cases h with
  | inArray hopen _ => exact harray _ hopen
  | inBlock hopens' _ => exact hopens _ _ _ hopens'
  | @afterLeaf q x htail h =>
    cases x with
    | value v =>
      cases hvalue v q htail
      exact visits_nil h
    | array vs =>
      cases htail with
      | array hopen _ => exact harray _ hopen
  | afterBlock hopens' _ _ _ => exact hopens _ _ _ hopens'

end RecordServer.Conf.Raw
