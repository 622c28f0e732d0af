import RecordServer.Conf.Pconf
import RecordServer.Infra.Scan

/-!
# 設定ファイルの文法

`Parses A top p t q` は、`p` の先頭を木 `t` に読むと `q` が残ることをいう。parser を見ずに書いた
文法である。字句の間には空白とコメント（`Sep`）を挟んでよい。

```
file  = entry*
entry = NAME '{' item* '}' | NAME '[' (VALUE (',' VALUE)*)? ']' | NAME VALUE ';'
      | 'proc' NAME '{' item* '}'
item  = entry の初めの三つ
```

* `InGrammar` — ファイル全体が文法に合う
* `Sep.skip_eq` / `sepEnd_iff` — 区切りは `skip` で読み飛ばすものに等しい
* `Parses.unique` — 読み方は一つに決まる
-/

namespace RecordServer.Conf

open Infra

/-! ## 区切り -/

def isBlank (b : UInt8) : Bool := b == 32 || b == 9 || b == 13 || b == newline

/-- `p` の先頭の空白と、行末まで続くコメントをいくつか除くと `q` が残る。 -/
inductive Sep : Bytes → Bytes → Prop
  | refl (p : Bytes) : Sep p p
  | blank {b : UInt8} {p q : Bytes} (hb : isBlank b = true) (h : Sep p q) : Sep (b :: p) q
  | comment {c p q : Bytes} (hc : newline ∉ c) (h : Sep p q) : Sep (sharp :: (c ++ newline :: p)) q

/-- 残りが空白とコメントだけである。最後のコメントは行末がなくてもよい。 -/
def SepEnd (p : Bytes) : Prop := Sep p [] ∨ ∃ c, newline ∉ c ∧ Sep p (sharp :: c)

/-- 区切りを読み飛ばす。`inside` はコメントの中である。 -/
def skipFrom : Bool → Bytes → Bytes
  | _, [] => []
  | true, b :: p => skipFrom (b != newline) p
  | false, b :: p =>
    if isBlank b then skipFrom false p else if b = sharp then skipFrom true p else b :: p

def skip (p : Bytes) : Bytes := skipFrom false p

/-- 区切りでない文字で始まる。 -/
def Solid (p : Bytes) : Prop := ∃ b rest, p = b :: rest ∧ isBlank b = false ∧ b ≠ sharp

theorem skip_blank {b : UInt8} (hb : isBlank b = true) (p : Bytes) : skip (b :: p) = skip p := by
  simp [skip, skipFrom, hb]

theorem skip_sharp (p : Bytes) : skip (sharp :: p) = skipFrom true p := by
  simp [skip, skipFrom, show isBlank sharp = false from rfl]

theorem Solid.skip_eq {p : Bytes} (h : Solid p) : skip p = p := by
  obtain ⟨b, rest, rfl, hb, hs⟩ := h
  simp [skip, skipFrom, hb, hs]

theorem solid_cons {b : UInt8} {p : Bytes} : Solid (b :: p) ↔ isBlank b = false ∧ b ≠ sharp := by
  constructor
  · rintro ⟨_, _, h, hb⟩
    cases h
    exact hb
  · intro hb
    exact ⟨b, p, rfl, hb⟩

theorem solid_semicolon (p : Bytes) : Solid (semicolon :: p) := solid_cons.mpr (by decide)

theorem solid_comma (p : Bytes) : Solid (comma :: p) := solid_cons.mpr (by decide)

theorem solid_lbracket (p : Bytes) : Solid (lbracket :: p) := solid_cons.mpr (by decide)

theorem solid_rbracket (p : Bytes) : Solid (rbracket :: p) := solid_cons.mpr (by decide)

theorem solid_lbrace (p : Bytes) : Solid (lbrace :: p) := solid_cons.mpr (by decide)

theorem solid_rbrace (p : Bytes) : Solid (rbrace :: p) := solid_cons.mpr (by decide)

theorem skipFrom_true_cons {b : UInt8} (hb : newline ≠ b) (p : Bytes) :
    skipFrom true (b :: p) = skipFrom true p := by
  have hne : (b != newline) = true := bne_iff_ne.mpr hb.symm
  rw [skipFrom, hne]

/-- コメントの中身は、行末の次から読み直す。 -/
theorem skipFrom_true_append {c : Bytes} (hc : newline ∉ c) (p : Bytes) :
    skipFrom true (c ++ newline :: p) = skip p := by
  induction c with
  | nil => simp [skipFrom, skip]
  | cons b c ih =>
    simp only [List.mem_cons, not_or] at hc
    obtain ⟨hb, hc⟩ := hc
    rw [List.cons_append, skipFrom_true_cons hb, ih hc]

theorem skipFrom_true_eq_nil {c : Bytes} (hc : newline ∉ c) : skipFrom true c = [] := by
  induction c with
  | nil => rfl
  | cons b c ih =>
    simp only [List.mem_cons, not_or] at hc
    obtain ⟨hb, hc⟩ := hc
    rw [skipFrom_true_cons hb, ih hc]

/-- コメントの中の残りは、行末があるかどうかで二つに分かれる。 -/
theorem comment_cases (p : Bytes) :
    newline ∉ p ∨ ∃ c rest, newline ∉ c ∧ p = c ++ newline :: rest := by
  by_cases h : newline ∈ p
  · obtain ⟨c, rest, hp, hc⟩ := List.eq_append_cons_of_mem h
    exact Or.inr ⟨c, rest, hc, hp⟩
  · exact Or.inl h

theorem Sep.skip_eq_skip {p q : Bytes} (h : Sep p q) : skip p = skip q := by
  induction h with
  | refl p => rfl
  | blank hb _ ih => rw [skip_blank hb, ih]
  | comment hc _ ih => rw [skip_sharp, skipFrom_true_append hc, ih]

/-- **区切りの後が字句なら、`skip` はちょうどそこで止まる。** -/
theorem Sep.skip_eq {p q : Bytes} (h : Sep p q) (hq : Solid q) : skip p = q :=
  h.skip_eq_skip.trans hq.skip_eq

theorem Sep.suffix {p q : Bytes} (h : Sep p q) : q <:+ p := by
  induction h with
  | refl p => exact List.suffix_refl p
  | blank _ _ ih => exact ih.trans (List.suffix_cons _ _)
  | comment _ _ ih =>
    refine ih.trans ?_
    exact (List.suffix_cons _ _).trans ((List.suffix_append _ _).trans (List.suffix_cons _ _))

theorem Sep.length_le {p q : Bytes} (h : Sep p q) : q.length ≤ p.length := h.suffix.length_le

theorem Sep.of_nil {q : Bytes} (h : Sep [] q) : q = [] := List.suffix_nil.mp h.suffix

/-- `skip` は、字句の先頭か、ファイルの終わりで止まる。 -/
theorem skip_cases (p : Bytes) :
    (Sep p (skip p) ∧ Solid (skip p)) ∨ (SepEnd p ∧ skip p = []) := by
  -- コメントを一度に読み飛ばすので、長さについて帰納する
  induction h : p.length using Nat.strong_induction_on generalizing p with
  | _ n ih =>
    subst h
    cases p with
    | nil => exact Or.inr ⟨Or.inl (.refl []), rfl⟩
    | cons b p =>
      by_cases hb : isBlank b = true
      · rw [skip_blank hb]
        rcases ih p.length (by simp) p rfl with ⟨hsep, hsolid⟩ | ⟨hend | ⟨c, hc, hend⟩, hnil⟩
        · exact Or.inl ⟨.blank hb hsep, hsolid⟩
        · exact Or.inr ⟨Or.inl (.blank hb hend), hnil⟩
        · exact Or.inr ⟨Or.inr ⟨c, hc, .blank hb hend⟩, hnil⟩
      · by_cases hs : b = sharp
        · subst hs
          rw [skip_sharp]
          rcases comment_cases p with hp | ⟨c, rest, hc, rfl⟩
          · exact Or.inr ⟨Or.inr ⟨p, hp, .refl _⟩, skipFrom_true_eq_nil hp⟩
          · rw [skipFrom_true_append hc]
            rcases ih rest.length (by simp; omega) rest rfl with
              ⟨hsep, hsolid⟩ | ⟨hend | ⟨c', hc', hend⟩, hnil⟩
            · exact Or.inl ⟨.comment hc hsep, hsolid⟩
            · exact Or.inr ⟨Or.inl (.comment hc hend), hnil⟩
            · exact Or.inr ⟨Or.inr ⟨c', hc', .comment hc hend⟩, hnil⟩
        · have hsolid : Solid (b :: p) := solid_cons.mpr ⟨by simpa using hb, hs⟩
          rw [hsolid.skip_eq]
          exact Or.inl ⟨.refl _, hsolid⟩

theorem Solid.ne_nil {p : Bytes} (h : Solid p) : p ≠ [] := by
  obtain ⟨b, rest, rfl, -⟩ := h
  simp

/-- **残りが区切りだけであることと、`skip` が終わりまで行くことは同じである。** -/
theorem sepEnd_iff {p : Bytes} : SepEnd p ↔ skip p = [] := by
  constructor
  · rintro (h | ⟨c, hc, h⟩)
    · exact h.skip_eq_skip
    · rw [h.skip_eq_skip, skip_sharp, skipFrom_true_eq_nil hc]
  · intro h
    rcases skip_cases p with ⟨_, hsolid⟩ | ⟨hend, _⟩
    · exact absurd h hsolid.ne_nil
    · exact hend

theorem sep_skip {p : Bytes} (h : skip p ≠ []) : Sep p (skip p) ∧ Solid (skip p) :=
  (skip_cases p).resolve_right fun hnil => h hnil.2

theorem length_skip_le (p : Bytes) : (skip p).length ≤ p.length := by
  rcases skip_cases p with ⟨hsep, _⟩ | ⟨_, hnil⟩
  · exact hsep.length_le
  · simp [hnil]

/-! ## 木 -/

/-- 中に項目を持たない項目の中身。 -/
inductive Leaf
  | value (v : Bytes)
  | array (vs : List Bytes)
  deriving DecidableEq, Repr

inductive BlockKind
  | sub
  | proc
  deriving DecidableEq, Repr

/-- 設定の木。項目を並びの順に繋いだものである。 -/
inductive Entries
  | nil
  | leaf (name : Bytes) (x : Leaf) (rest : Entries)
  | block (kind : BlockKind) (name : Bytes) (sub rest : Entries)
  deriving DecidableEq, Repr

/-- 最後の項目が値である。 -/
def Entries.endsInValue : Entries → Bool
  | .nil => false
  | .leaf _ (.value _) .nil => true
  | .leaf _ _ rest => rest.endsInValue
  | .block _ _ _ rest => rest.endsInValue

/-! ## 文法 -/

/-- 名前と値に許す文字。区切りや括弧とは混ざらない。 -/
structure Alphabet where
  name : UInt8 → Bool
  value : UInt8 → Bool
  name_delim : ∀ b ∈ [32, 9, 13, newline, sharp, lbrace, rbrace, lbracket], name b = false
  value_delim : ∀ b ∈ [32, 9, 13, newline, semicolon, comma, lbracket, rbracket], value b = false

/-- VALUE。`#` では始まらない。 -/
def Value (A : Alphabet) (p v q : Bytes) : Prop := Run A.value p v q ∧ v.head? ≠ some sharp

/-- 配列の二つ目からの要素と、閉じ括弧。 -/
inductive MoreValues (A : Alphabet) : Bytes → List Bytes → Bytes → Prop
  | close {p q : Bytes} (h : Sep p (rbracket :: q)) : MoreValues A p [] q
  | comma {p p₁ p₂ p₃ q v : Bytes} {vs : List Bytes} (hcomma : Sep p (comma :: p₁))
      (hsep : Sep p₁ p₂) (hv : Value A p₂ v p₃) (h : MoreValues A p₃ vs q) :
      MoreValues A p (v :: vs) q

/-- 配列の要素と、閉じ括弧。 -/
inductive Values (A : Alphabet) : Bytes → List Bytes → Bytes → Prop
  | close {p q : Bytes} (h : Sep p (rbracket :: q)) : Values A p [] q
  | first {p p₁ p₂ q v : Bytes} {vs : List Bytes} (hsep : Sep p p₁) (hv : Value A p₁ v p₂)
      (h : MoreValues A p₂ vs q) : Values A p (v :: vs) q

/-- `NAME VALUE ';'` と `NAME '[' … ']'` の、名前の後。 -/
inductive LeafTail (A : Alphabet) (name : Bytes) : Bytes → Leaf → Bytes → Prop
  | value {p p₁ p₂ q v : Bytes} (hname : name ≠ ascii "proc") (hsep : Sep p p₁)
      (hv : Value A p₁ v p₂) (hopen : v.head? ≠ some lbrace) (hend : Sep p₂ (semicolon :: q)) :
      LeafTail A name p (.value v) q
  | array {p p₁ q : Bytes} {vs : List Bytes} (hopen : Sep p (lbracket :: p₁))
      (h : Values A p₁ vs q) : LeafTail A name p (.array vs) q

/-- `NAME '{'` と `'proc' NAME '{'` の、初めの NAME の後。後者は `top` だけにある。 -/
inductive Opens (A : Alphabet) (top : Bool) (word : Bytes) :
    Bytes → BlockKind → Bytes → Bytes → Prop
  | sub {p q : Bytes} (hopen : Sep p (lbrace :: q)) : Opens A top word p .sub word q
  | proc {p p₁ p₂ q name : Bytes} (htop : top = true) (hword : word = ascii "proc")
      (hsep : Sep p p₁) (hname : Run A.name p₁ name p₂) (hopen : Sep p₂ (lbrace :: q)) :
      Opens A top word p .proc name q

/-- `p` の先頭の項目の並びを `t` に読むと `q` が残る。 -/
inductive Parses (A : Alphabet) : Bool → Bytes → Entries → Bytes → Prop
  | nil {top : Bool} (p : Bytes) : Parses A top p .nil p
  | leaf {top : Bool} {p p₁ p₂ p₃ q name : Bytes} {x : Leaf} {rest : Entries} (hsep : Sep p p₁)
      (hname : Run A.name p₁ name p₂) (htail : LeafTail A name p₂ x p₃)
      (hrest : Parses A top p₃ rest q) : Parses A top p (.leaf name x rest) q
  | block {top : Bool} {p p₁ p₂ p₃ p₄ p₅ q word name : Bytes} {kind : BlockKind} {sub rest : Entries}
      (hsep : Sep p p₁) (hword : Run A.name p₁ word p₂) (hopens : Opens A top word p₂ kind name p₃)
      (hsub : Parses A false p₃ sub p₄) (hclose : Sep p₄ (rbrace :: p₅))
      (hrest : Parses A top p₅ rest q) : Parses A top p (.block kind name sub rest) q

/-- `bool[128]` の表。範囲の外は許さない。 -/
def inTable (table : List Nat) (b : UInt8) : Bool := table.getD b.toNat 0 != 0

/-- 二つの表が許す文字。 -/
def tables : Alphabet where
  name := inTable bvalidname
  value := inTable bvalidvalue
  name_delim := by decide +kernel
  value_delim := by decide +kernel

/-- ファイル全体が文法に合う。 -/
def InGrammar (s : Bytes) : Prop := ∃ t q, Parses tables true s t q ∧ SepEnd q

end RecordServer.Conf
