import RecordServer.Conf.Lexing
import Mathlib.Data.List.GetD

/-!
# 設定の木を書き出す

木を字句の列にし（`tokens`）、字句の間に空白で始まる区切りを挟み、最後に改行を置く（`Rendering`）。

* `Rendering.parses` — 書き出したものは、文法で元の木に読め、改行だけが残る
-/

namespace RecordServer.Conf

open Infra

variable {A : Alphabet} {top : Bool} {p q r g v w n : Bytes} {ws vs : List Bytes}

/-! ## 書き出せる木 -/

/-- 63 文字までの名前。 -/
structure NameOk (n : Bytes) : Prop where
  nonempty : n ≠ []
  length_le : n.length ≤ 63
  all : ∀ b ∈ n, tables.name b = true

/-- 127 文字までの値。`#` でも開き波括弧でも始まらない。 -/
structure ValueOk (v : Bytes) : Prop where
  nonempty : v ≠ []
  length_le : v.length ≤ 127
  all : ∀ b ∈ v, tables.value b = true
  head_sharp : v.head? ≠ some sharp
  head_lbrace : v.head? ≠ some lbrace

/-- 値の項目の名前は `proc` でない。 -/
def Leaf.Ok (name : Bytes) : Leaf → Prop
  | .value v => name ≠ ascii "proc" ∧ ValueOk v
  | .array vs => ∀ v ∈ vs, ValueOk v

/-- 書き出せる項目の並び。`proc` は `top` だけにある。 -/
def Entries.Ok : Bool → Entries → Prop
  | _, .nil => True
  | top, .leaf name x rest => NameOk name ∧ x.Ok name ∧ rest.Ok top
  | top, .block kind name sub rest =>
    (kind = .proc → top = true) ∧ NameOk name ∧ sub.Ok false ∧ rest.Ok top

/-! ## 字句の列 -/

/-- 配列の二つ目からの要素と、閉じ括弧。 -/
def moreTokens : List Bytes → List Bytes
  | [] => [[rbracket]]
  | v :: vs => [comma] :: v :: moreTokens vs

def valueTokens : List Bytes → List Bytes
  | [] => [[rbracket]]
  | v :: vs => v :: moreTokens vs

def Leaf.tokens : Leaf → List Bytes
  | .value v => [v, [semicolon]]
  | .array vs => [lbracket] :: valueTokens vs

def BlockKind.tokens (name : Bytes) : BlockKind → List Bytes
  | .sub => [name, [lbrace]]
  | .proc => [ascii "proc", name, [lbrace]]

def Entries.tokens : Entries → List Bytes
  | .nil => []
  | .leaf name x rest => name :: (x.tokens ++ rest.tokens)
  | .block kind name sub rest => kind.tokens name ++ (sub.tokens ++ ([rbrace] :: rest.tokens))

/-- 空白で始まり、空白とコメントだけから成る区切り。 -/
def Gap (g : Bytes) : Prop := ∃ b g', g = b :: g' ∧ isBlank b = true ∧ Sep g' []

/-- 字句の後に続く文字列。残りの字句の前には区切りがあり、最後は改行である。 -/
inductive After : List Bytes → Bytes → Prop
  | done : After [] [newline]
  | next {g w q : Bytes} {ws : List Bytes} (hg : Gap g) (h : After ws q) :
      After (w :: ws) (g ++ (w ++ q))

/-- 字句の列を書き出した文字列。 -/
inductive Spaced : List Bytes → Bytes → Prop
  | empty : Spaced [] [newline]
  | first {w q : Bytes} {ws : List Bytes} (h : After ws q) : Spaced (w :: ws) (w ++ q)

/-- `s` は木 `t` を書き出したものである。 -/
def Rendering (t : Entries) (s : Bytes) : Prop := Spaced t.tokens s

/-! ## 読み戻す -/

theorem Sep.append (h : Sep p q) (r : Bytes) : Sep (p ++ r) (q ++ r) := by
  induction h with
  | refl p => exact .refl _
  | blank hb _ ih => exact .blank hb ih
  | comment hc _ ih =>
    rw [List.cons_append, List.append_assoc, List.cons_append]
    exact .comment hc ih

theorem Gap.sep (h : Gap g) (q : Bytes) : Sep (g ++ q) q := by
  obtain ⟨b, g, rfl, hb, hg⟩ := h
  exact .blank hb (hg.append q)

/-- 字句の後は空白で始まる。 -/
theorem After.blank (h : After ws q) : ∃ b rest, q = b :: rest ∧ isBlank b = true := by
  cases h with
  | done => exact ⟨newline, [], rfl, rfl⟩
  | next hg _ =>
    obtain ⟨b, g, rfl, hb, -⟩ := hg
    exact ⟨b, _, rfl, hb⟩

/-- これから読む文字列。区切りの後に次の字句がある。 -/
inductive Before : List Bytes → Bytes → Prop
  | done : Before [] [newline]
  | token {p q w : Bytes} {ws : List Bytes} (hsep : Sep p (w ++ q)) (h : After ws q) :
      Before (w :: ws) p

theorem After.before (h : After ws q) : Before ws q := by
  cases h with
  | done => exact .done
  | next hg h => exact .token (hg.sep _) h

theorem Spaced.before (h : Spaced ws q) : Before ws q := by
  cases h with
  | empty => exact .done
  | first h => exact .token (.refl _) h

/-- 次の字句を読む。 -/
theorem Before.next (h : Before (w :: ws) p) : ∃ q, Sep p (w ++ q) ∧ After ws q := by
  cases h with
  | token hsep h => exact ⟨_, hsep, h⟩

/-- 一文字の字句を読む。 -/
theorem Before.delim {d : UInt8} (h : Before ([d] :: ws) p) :
    ∃ q, Sep p (d :: q) ∧ After ws q := h.next

/-- 二つの表が許す文字を、`A` も許す。 -/
structure Extends (A : Alphabet) : Prop where
  name : ∀ b, tables.name b = true → A.name b = true
  value : ∀ b, tables.value b = true → A.value b = true

/-- 名前の後に空白が続くので、名前はちょうど一つの並びになる。 -/
theorem NameOk.run (hA : Extends A) (hn : NameOk n) (h : After ws q) : Run A.name (n ++ q) n q where
  split := rfl
  nonempty := hn.nonempty
  all := fun b hb => hA.name b (hn.all b hb)
  maximal := by
    obtain ⟨b, rest, rfl, hb⟩ := h.blank
    rintro _ ⟨⟩
    exact A.name_delim b (List.mem_append_left [sharp, lbrace, rbrace, lbracket] (isBlank_iff.mp hb))

theorem ValueOk.value (hA : Extends A) (hv : ValueOk v) (h : After ws q) :
    Value A (v ++ q) v q := by
  refine ⟨⟨rfl, hv.nonempty, fun b hb => hA.value b (hv.all b hb), ?_⟩, hv.head_sharp⟩
  obtain ⟨b, rest, rfl, hb⟩ := h.blank
  rintro _ ⟨⟩
  exact A.value_delim b
    (List.mem_append_left [semicolon, comma, lbracket, rbracket] (isBlank_iff.mp hb))

theorem After.moreValues (hA : Extends A) (hvs : ∀ v ∈ vs, ValueOk v) :
    ∀ {p}, After (moreTokens vs ++ ws) p → ∃ q, MoreValues A p vs q ∧ After ws q := by
  induction vs with
  | nil =>
    intro p h
    obtain ⟨q, hclose, hq⟩ := h.before.delim
    exact ⟨q, .close hclose, hq⟩
  | cons v vs ih =>
    intro p h
    obtain ⟨q₁, hcomma, h₁⟩ := h.before.delim
    obtain ⟨q₂, hsep, h₂⟩ := h₁.before.next
    obtain ⟨hv, hvs⟩ := List.forall_mem_cons.mp hvs
    obtain ⟨q, hmore, hq⟩ := ih hvs h₂
    exact ⟨q, .comma hcomma hsep (hv.value hA h₂) hmore, hq⟩

theorem After.values (hA : Extends A) (hvs : ∀ v ∈ vs, ValueOk v)
    (h : After (valueTokens vs ++ ws) p) : ∃ q, Values A p vs q ∧ After ws q := by
  cases vs with
  | nil =>
    obtain ⟨q, hclose, hq⟩ := h.before.delim
    exact ⟨q, .close hclose, hq⟩
  | cons v vs =>
    obtain ⟨q₁, hsep, h₁⟩ := h.before.next
    obtain ⟨hv, hvs⟩ := List.forall_mem_cons.mp hvs
    obtain ⟨q, hmore, hq⟩ := h₁.moreValues hA hvs
    exact ⟨q, .first hsep (hv.value hA h₁) hmore, hq⟩

/-- 値や配列の、名前の後を読み戻す。 -/
theorem After.leafTail {x : Leaf} (hA : Extends A) (hx : x.Ok n) (h : After (x.tokens ++ ws) p) :
    ∃ q, LeafTail A n p x q ∧ After ws q := by
  cases x with
  | value v =>
    obtain ⟨hn, hv⟩ := hx
    obtain ⟨q₁, hsep, h₁⟩ := h.before.next
    obtain ⟨q, hend, hq⟩ := h₁.before.delim
    exact ⟨q, .value hn hsep (hv.value hA h₁) hv.head_lbrace hend, hq⟩
  | array vs =>
    obtain ⟨q₁, hopen, h₁⟩ := h.before.delim
    obtain ⟨q, hvals, hq⟩ := h₁.values hA hx
    exact ⟨q, .array hopen hvals, hq⟩

theorem nameOk_proc : NameOk (ascii "proc") :=
  ⟨by decide +kernel, by decide +kernel, by decide +kernel⟩

/-- block の始まりを読み戻す。 -/
theorem Before.opens {k : BlockKind} (hA : Extends A) (hk : k = .proc → top = true) (hn : NameOk n)
    (h : Before (k.tokens n ++ ws) p) :
    ∃ p₁ w p₂ q, Sep p p₁ ∧ Run A.name p₁ w p₂ ∧ Opens A top w p₂ k n q ∧ After ws q := by
  cases k with
  | sub =>
    obtain ⟨q₁, hsep, h₁⟩ := h.next
    obtain ⟨q, hopen, hq⟩ := h₁.before.delim
    exact ⟨_, n, q₁, q, hsep, hn.run hA h₁, .sub hopen, hq⟩
  | proc =>
    obtain ⟨q₁, hsep, h₁⟩ := h.next
    obtain ⟨q₂, hsep₂, h₂⟩ := h₁.before.next
    obtain ⟨q, hopen, hq⟩ := h₂.before.delim
    exact ⟨_, ascii "proc", q₁, q, hsep, nameOk_proc.run hA h₁,
      .proc (hk rfl) rfl hsep₂ (hn.run hA h₂) hopen, hq⟩

/-- **書き出した項目の並びは、元の木に読める。** -/
theorem Before.parses (hA : Extends A) (t : Entries) :
    ∀ {top ws p}, t.Ok top → Before (t.tokens ++ ws) p →
      ∃ q, Parses A top p t q ∧ Before ws q := by
  induction t with
  | nil =>
    intro top ws p _ h
    exact ⟨p, .nil p, h⟩
  | leaf n x rest ih =>
    intro top ws p hok h
    obtain ⟨hn, hx, hrest⟩ := hok
    rw [Entries.tokens, List.cons_append, List.append_assoc] at h
    obtain ⟨q₁, hsep, h₁⟩ := h.next
    obtain ⟨q₂, htail, h₂⟩ := h₁.leafTail hA hx
    obtain ⟨q, hparse, hq⟩ := ih hrest h₂.before
    exact ⟨q, .leaf hsep (hn.run hA h₁) htail hparse, hq⟩
  | block k n sub rest ihsub ih =>
    intro top ws p hok h
    obtain ⟨hk, hn, hsub, hrest⟩ := hok
    rw [Entries.tokens, List.append_assoc, List.append_assoc, List.cons_append] at h
    obtain ⟨p₁, w, p₂, q₁, hsep, hword, hopens, h₁⟩ := h.opens hA hk hn
    -- 中の並びの後には、閉じ波括弧と先の並びの字句が続く
    obtain ⟨q₂, hparse, h₂⟩ := ihsub hsub h₁.before
    obtain ⟨q₃, hclose, h₃⟩ := h₂.delim
    obtain ⟨q, hparse', hq⟩ := ih hrest h₃.before
    exact ⟨q, .block hsep hword hopens hparse hclose hparse', hq⟩

/-- **木を書き出したものは元の木に読め、改行だけが残る。** -/
theorem Rendering.parses {t : Entries} {s : Bytes} (hA : Extends A) (ht : t.Ok top)
    (h : Rendering t s) : Parses A top s t [newline] := by
  have hbefore : Before (t.tokens ++ []) s := by
    rw [List.append_nil]
    exact Spaced.before h
  obtain ⟨q, hparse, hq⟩ := Before.parses hA t ht hbefore
  cases hq
  exact hparse

theorem lt_of_inTable {table : List Nat} (hlen : table.length = 128) {b : UInt8}
    (h : inTable table b = true) : b < 128 := by
  by_contra hb
  have hge : table.length ≤ b.toNat := hlen ▸ Nat.le_of_not_lt hb
  rw [inTable, List.getD_eq_default _ _ hge] at h
  cases h

/-- parser の表は、二つの表の文字を許す。 -/
theorem extends_env (env : Env) : Extends env.alphabet where
  name := by
    intro b hb
    exact (lookup_charValue (lt_of_inTable rfl hb) _ _).trans hb
  value := by
    intro b hb
    exact (lookup_charValue (lt_of_inTable rfl hb) _ _).trans hb

end RecordServer.Conf
