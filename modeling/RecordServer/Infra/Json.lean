import RecordServer.Infra.Bytes
import Mathlib.Data.List.TakeWhile

/-!
# JSON の文

文字は符号位置の数で表す。文法は RFC 8259 のもので、object の同じ名前の member は最後のものを採る。

* `Value` / `parse` — 値と、文全体の読み取り。読み取りは燃料を受け取る
* `readChars_plain` — 避ける必要のない文字だけの文字列は、そのまま読まれる
* `readChars_length` — 読まれた文字列は、文より長くならない。同じ長さなら避けた文字は無い
* `mem_readMembers` — 文字列の member は、その名前と値の長さだけ文を使う
-/

namespace RecordServer.Infra.Json

inductive Value where
  | null
  | bool (b : Bool)
  | num (text : List Nat)
  | str (s : List Nat)
  | arr (vs : List Value)
  | obj (ms : List (List Nat × Value))

/-- 最後の member の値。 -/
def member (ms : List (List Nat × Value)) (k : List Nat) : Option Value :=
  (ms.reverse.find? fun m => m.1 = k).map Prod.snd

/-- 文字列の中にそのまま書ける文字。 -/
def Plain (c : Nat) : Prop := 32 ≤ c ∧ c ≠ 34 ∧ c ≠ 92

instance (c : Nat) : Decidable (Plain c) := inferInstanceAs (Decidable (_ ∧ _))

/-! ## 字句 -/

def isSpace (c : Nat) : Bool := c == 32 || c == 9 || c == 10 || c == 13

def skip (s : List Nat) : List Nat := s.dropWhile isSpace

def isDigit (c : Nat) : Bool := 48 ≤ c && c ≤ 57

def hexDigit (c : Nat) : Option Nat :=
  if 48 ≤ c ∧ c ≤ 57 then some (c - 48)
  else if 65 ≤ c ∧ c ≤ 70 then some (c - 55)
  else if 97 ≤ c ∧ c ≤ 102 then some (c - 87)
  else none

/-- `\u` の後の四桁。 -/
def hex4 : List Nat → Option (Nat × List Nat)
  | a :: b :: c :: d :: s => do
    let a ← hexDigit a
    let b ← hexDigit b
    let c ← hexDigit c
    let d ← hexDigit d
    return (((a * 16 + b) * 16 + c) * 16 + d, s)
  | _ => none

/-- 上位の surrogate `n` に下位のものが続けば、一つの文字にする。 -/
def joinSurrogate (n : Nat) (s : List Nat) : Nat × List Nat :=
  match s with
  | 92 :: 117 :: s' =>
    match hex4 s' with
    | some (m, s'') =>
      if 0xD800 ≤ n ∧ n < 0xDC00 ∧ 0xDC00 ≤ m ∧ m < 0xE000 then
        (0x10000 + (n - 0xD800) * 0x400 + (m - 0xDC00), s'')
      else (n, s)
    | none => (n, s)
  | _ => (n, s)

/-- `\` の後。 -/
def readEscape : List Nat → Option (Nat × List Nat)
  | 34 :: s => some (34, s)
  | 92 :: s => some (92, s)
  | 47 :: s => some (47, s)
  | 98 :: s => some (8, s)
  | 102 :: s => some (12, s)
  | 110 :: s => some (10, s)
  | 114 :: s => some (13, s)
  | 116 :: s => some (9, s)
  | 117 :: s => (hex4 s).map fun (n, s) => joinSurrogate n s
  | _ => none

/-- 開く `"` の後から、閉じる `"` まで。 -/
def readChars : Nat → List Nat → Option (List Nat × List Nat)
  | 0, _ => none
  | _, [] => none
  | fuel + 1, c :: s =>
    if c = 34 then some ([], s)
    else if c = 92 then
      (readEscape s).bind fun (e, s) => (readChars fuel s).map fun (cs, r) => (e :: cs, r)
    else if c < 32 then none
    else (readChars fuel s).map fun (cs, r) => (c :: cs, r)

/-- 数字の列。一つは要る。 -/
def readDigits : List Nat → Option (List Nat)
  | c :: s => if isDigit c then some (s.dropWhile isDigit) else none
  | [] => none

/-- 整数部。`0` の後に数字は続かない。 -/
def readInt : List Nat → Option (List Nat)
  | 48 :: s => some s
  | s => readDigits s

def readFrac : List Nat → Option (List Nat)
  | 46 :: s => readDigits s
  | s => some s

def readExp : List Nat → Option (List Nat)
  | c :: s =>
    if c = 101 ∨ c = 69 then
      match s with
      | 43 :: s => readDigits s
      | 45 :: s => readDigits s
      | s => readDigits s
    else some (c :: s)
  | [] => some []

/-- 数。残りだけを返す。 -/
def readNumber (s : List Nat) : Option (List Nat) :=
  let unsigned := match s with
    | 45 :: s => s
    | s => s
  (readInt unsigned).bind fun s => (readFrac s).bind readExp

/-! ## 値 -/

mutual

def readValue : Nat → List Nat → Option (Value × List Nat)
  | 0, _ => none
  | fuel + 1, s =>
    match skip s with
    | 34 :: s => (readChars fuel s).map fun (cs, r) => (.str cs, r)
    | 123 :: s =>
      match skip s with
      | 125 :: r => some (.obj [], r)
      | s => (readMembers fuel s).map fun (ms, r) => (.obj ms, r)
    | 91 :: s =>
      match skip s with
      | 93 :: r => some (.arr [], r)
      | s => (readElements fuel s).map fun (vs, r) => (.arr vs, r)
    | 116 :: 114 :: 117 :: 101 :: r => some (.bool true, r)
    | 102 :: 97 :: 108 :: 115 :: 101 :: r => some (.bool false, r)
    | 110 :: 117 :: 108 :: 108 :: r => some (.null, r)
    | s => (readNumber s).map fun r => (.num (s.take (s.length - r.length)), r)

/-- `{` の後から `}` まで。一つは member がある。 -/
def readMembers : Nat → List Nat → Option (List (List Nat × Value) × List Nat)
  | 0, _ => none
  | fuel + 1, s =>
    match skip s with
    | 34 :: s =>
      (readChars fuel s).bind fun (k, s) =>
        match skip s with
        | 58 :: s =>
          (readValue fuel s).bind fun (v, s) =>
            match skip s with
            | 44 :: s => (readMembers fuel s).map fun (ms, r) => ((k, v) :: ms, r)
            | 125 :: r => some ([(k, v)], r)
            | _ => none
        | _ => none
    | _ => none

/-- `[` の後から `]` まで。一つは要素がある。 -/
def readElements : Nat → List Nat → Option (List Value × List Nat)
  | 0, _ => none
  | fuel + 1, s =>
    (readValue fuel s).bind fun (v, s) =>
      match skip s with
      | 44 :: s => (readElements fuel s).map fun (vs, r) => (v :: vs, r)
      | 93 :: r => some ([v], r)
      | _ => none

end

/-- 文全体。値の後には空白しか続かない。 -/
def parse (s : List Nat) : Option Value :=
  (readValue (s.length + 1) s).bind fun (v, r) => if skip r = [] then some v else none

/-! ## 長さ -/

theorem skip_length (s : List Nat) : (skip s).length ≤ s.length :=
  (List.dropWhile_suffix isSpace).length_le

theorem hex4_length {s r : List Nat} {n : Nat} (h : hex4 s = some (n, r)) :
    r.length + 4 = s.length := by
  match s, h with
  | a :: b :: c :: d :: s, h =>
    simp only [hex4, Option.bind_eq_bind, Option.bind_eq_some_iff, Option.pure_def,
      Option.some.injEq, Prod.mk.injEq] at h
    obtain ⟨_, -, _, -, _, -, _, -, -, rfl⟩ := h
    simp

theorem joinSurrogate_length (n : Nat) (s : List Nat) :
    (joinSurrogate n s).2.length ≤ s.length := by
  unfold joinSurrogate
  split
  · split
    · rename_i heq
      have hlen := hex4_length heq
      split
      · simp only [List.length_cons]
        omega
      · exact le_refl _
    · exact le_refl _
  · exact le_refl _

theorem readEscape_length {s r : List Nat} {c : Nat} (h : readEscape s = some (c, r)) :
    r.length < s.length := by
  unfold readEscape at h
  split at h
  case h_9 s =>
    obtain ⟨⟨n, s'⟩, hhex, heq⟩ := Option.map_eq_some_iff.mp h
    have hlen := hex4_length hhex
    have hjoin := joinSurrogate_length n s'
    rw [show joinSurrogate n s' = (c, r) from heq] at hjoin
    have hle : r.length ≤ s'.length := hjoin
    simp only [List.length_cons]
    omega
  case h_10 => cases h
  all_goals
    obtain ⟨-, rfl⟩ := Prod.mk.inj (Option.some.inj h)
    simp

/-- 避ける必要のない文字だけの文字列は、そのまま読まれる。 -/
theorem readChars_plain {k : List Nat} (hk : ∀ c ∈ k, Plain c) {fuel : Nat}
    (hfuel : k.length < fuel) (r : List Nat) : readChars fuel (k ++ 34 :: r) = some (k, r) := by
  induction k generalizing fuel with
  | nil =>
    obtain ⟨f, rfl⟩ : ∃ f, fuel = f + 1 := ⟨fuel - 1, by simp at hfuel; omega⟩
    rfl
  | cons c k ih =>
    obtain ⟨f, rfl⟩ : ∃ f, fuel = f + 1 := ⟨fuel - 1, by simp at hfuel; omega⟩
    obtain ⟨hlow, hquote, hslash⟩ := hk c (.head _)
    rw [List.cons_append, readChars, if_neg hquote, if_neg hslash, if_neg (by omega),
      ih (fun c hc => hk c (.tail _ hc)) (by simpa using hfuel)]
    rfl

/-- 読まれた文字列は、文より長くならない。同じ長さなら、避けた文字は無い。 -/
theorem readChars_length {fuel : Nat} {s g r : List Nat} (h : readChars fuel s = some (g, r)) :
    g.length + 1 + r.length ≤ s.length ∧
      (g.length + 1 + r.length = s.length → s = g ++ 34 :: r ∧ ∀ c ∈ g, Plain c) := by
  induction fuel generalizing s g with
  | zero => cases h
  | succ fuel ih =>
    cases s with
    | nil => cases h
    | cons c s =>
      rw [readChars] at h
      split at h
      · rename_i hc
        obtain ⟨rfl, rfl⟩ := Prod.mk.inj (Option.some.inj h)
        exact ⟨by simp; omega, fun _ => ⟨by simp [hc], by simp⟩⟩
      split at h
      · obtain ⟨⟨e, s'⟩, hesc, hrest⟩ := Option.bind_eq_some_iff.mp h
        obtain ⟨⟨cs, r'⟩, hcs, heq⟩ := Option.map_eq_some_iff.mp hrest
        obtain ⟨rfl, rfl⟩ := Prod.mk.inj heq
        have hlt := readEscape_length hesc
        have hle := (ih hcs).1
        -- 避けた文字は、二文字以上を一文字にする。
        constructor
        · simp only [List.length_cons]
          omega
        · intro hlen
          simp only [List.length_cons] at hlen
          omega
      split at h
      · cases h
      · rename_i hquote hslash hlow
        obtain ⟨⟨cs, r'⟩, hcs, heq⟩ := Option.map_eq_some_iff.mp h
        obtain ⟨rfl, rfl⟩ := Prod.mk.inj heq
        obtain ⟨hle, hplain⟩ := ih hcs
        refine ⟨by simp only [List.length_cons]; omega, fun hlen => ?_⟩
        obtain ⟨rfl, hall⟩ := hplain (by simp only [List.length_cons] at hlen; omega)
        refine ⟨rfl, fun d hd => ?_⟩
        rcases List.mem_cons.mp hd with rfl | hd
        · exact ⟨by omega, hquote, hslash⟩
        · exact hall d hd

/-- 空白でない文字の前には、飛ばすものが無い。 -/
theorem skip_cons {c : Nat} (hc : isSpace c = false) (s : List Nat) : skip (c :: s) = c :: s := by
  simp [skip, hc]

theorem readValue_str {k : List Nat} (hk : ∀ c ∈ k, Plain c) {fuel : Nat} (hfuel : k.length < fuel)
    (s : List Nat) : readValue (fuel + 1) (34 :: (k ++ 34 :: s)) = some (.str k, s) := by
  rw [readValue, skip_cons rfl]
  simp only [readChars_plain hk hfuel, Option.map_some]

/-- `"` で始まる値は文字列である。 -/
theorem readValue_quote {fuel : Nat} {s r : List Nat} {v : Value}
    (h : readValue (fuel + 1) (34 :: s) = some (v, r)) :
    ∃ g, v = .str g ∧ readChars fuel s = some (g, r) := by
  rw [readValue, skip_cons rfl] at h
  obtain ⟨⟨g, r'⟩, hg, hpair⟩ := Option.map_eq_some_iff.mp h
  simp only [Prod.mk.injEq] at hpair
  obtain ⟨rfl, rfl⟩ := hpair
  exact ⟨g, rfl, hg⟩

/-- `{` の後に member が続く。 -/
theorem readValue_obj (fuel : Nat) (s : List Nat) :
    readValue (fuel + 1) (123 :: 34 :: s) =
      (readMembers fuel (34 :: s)).map fun (ms, r) => (.obj ms, r) := by
  rw [readValue, skip_cons rfl]
  simp only [skip_cons (show isSpace 34 = false from rfl)]

/-- 値の後に `,` が続く member。 -/
theorem readMembers_comma {k : List Nat} (hk : ∀ c ∈ k, Plain c) {fuel : Nat}
    (hfuel : k.length < fuel) {s r : List Nat} {v : Value}
    (hv : readValue fuel s = some (v, 44 :: r)) :
    readMembers (fuel + 1) (34 :: (k ++ 34 :: 58 :: s)) =
      (readMembers fuel r).map fun (ms, r) => ((k, v) :: ms, r) := by
  rw [readMembers, skip_cons rfl]
  simp only [readChars_plain hk hfuel, Option.bind_some, skip_cons (show isSpace 58 = false from rfl),
    hv, skip_cons (show isSpace 44 = false from rfl)]

/-- 値の後に `}` が続く member。 -/
theorem readMembers_close {k : List Nat} (hk : ∀ c ∈ k, Plain c) {fuel : Nat}
    (hfuel : k.length < fuel) {s r : List Nat} {v : Value}
    (hv : readValue fuel s = some (v, 125 :: r)) :
    readMembers (fuel + 1) (34 :: (k ++ 34 :: 58 :: s)) = some ([(k, v)], r) := by
  rw [readMembers, skip_cons rfl]
  simp only [readChars_plain hk hfuel, Option.bind_some, skip_cons (show isSpace 58 = false from rfl),
    hv, skip_cons (show isSpace 125 = false from rfl)]

/-- 名前が読めた member の、最初の値。 -/
theorem readMembers_first {k : List Nat} (hk : ∀ c ∈ k, Plain c) {fuel : Nat}
    (hfuel : k.length < fuel) {s r : List Nat} {ms : List (List Nat × Value)}
    (h : readMembers (fuel + 1) (34 :: (k ++ 34 :: 58 :: s)) = some (ms, r)) :
    ∃ v s', readValue fuel s = some (v, s') ∧
      ((∃ s'' ms', skip s' = 44 :: s'' ∧ readMembers fuel s'' = some (ms', r) ∧
          ms = (k, v) :: ms') ∨
        (skip s' = 125 :: r ∧ ms = [(k, v)])) := by
  rw [readMembers, skip_cons rfl] at h
  simp only [readChars_plain hk hfuel, Option.bind_some,
    skip_cons (show isSpace 58 = false from rfl)] at h
  obtain ⟨⟨v, s'⟩, hv, h⟩ := Option.bind_eq_some_iff.mp h
  refine ⟨v, s', hv, ?_⟩
  simp only at h
  split at h
  · rename_i s'' heq
    obtain ⟨⟨ms', r'⟩, hms, hpair⟩ := Option.map_eq_some_iff.mp h
    simp only [Prod.mk.injEq] at hpair
    obtain ⟨rfl, rfl⟩ := hpair
    exact .inl ⟨s'', ms', heq, hms, rfl⟩
  · rename_i r' heq
    obtain ⟨rfl, rfl⟩ := Prod.mk.inj (Option.some.inj h)
    exact .inr ⟨heq, rfl⟩
  · cases h

theorem readDigits_length {s r : List Nat} (h : readDigits s = some r) : r.length ≤ s.length := by
  cases s with
  | nil => cases h
  | cons c s =>
    rw [readDigits] at h
    split at h
    · obtain rfl := Option.some.inj h
      have hle := (List.dropWhile_suffix (l := s) isDigit).length_le
      simp only [List.length_cons]
      omega
    · cases h

theorem readInt_length {s r : List Nat} (h : readInt s = some r) : r.length ≤ s.length := by
  unfold readInt at h
  split at h
  · obtain rfl := Option.some.inj h
    simp
  · exact readDigits_length h

theorem readFrac_length {s r : List Nat} (h : readFrac s = some r) : r.length ≤ s.length := by
  unfold readFrac at h
  split at h
  · have hle := readDigits_length h
    simp only [List.length_cons]
    omega
  · exact (Option.some.inj h) ▸ le_refl _

theorem readExp_length {s r : List Nat} (h : readExp s = some r) : r.length ≤ s.length := by
  unfold readExp at h
  split at h
  · split at h
    · split at h <;>
        · have hle := readDigits_length h
          simp only [List.length_cons] at hle ⊢
          omega
    · exact (Option.some.inj h) ▸ le_refl _
  · exact (Option.some.inj h) ▸ le_refl _

theorem readNumber_length {s r : List Nat} (h : readNumber s = some r) : r.length ≤ s.length := by
  unfold readNumber at h
  obtain ⟨s₁, hint, h⟩ := Option.bind_eq_some_iff.mp h
  obtain ⟨s₂, hfrac, hexp⟩ := Option.bind_eq_some_iff.mp h
  have h₁ := readInt_length hint
  have h₂ := readFrac_length hfrac
  have h₃ := readExp_length hexp
  have h₀ : (match s with
    | 45 :: s => s
    | s => s).length ≤ s.length := by
    split
    · simp
    · exact le_refl _
  omega

/-- 三つの読み取りは、残りを短くする。文字列の値と、文字列の member は、その長さだけ文を使う。 -/
structure Shrinks (fuel : Nat) : Prop where
  value : ∀ {s v r}, readValue fuel s = some (v, r) → r.length ≤ s.length ∧
    ∀ g, v = .str g → g.length + 2 + r.length ≤ s.length
  members : ∀ {s ms r}, readMembers fuel s = some (ms, r) → r.length + 1 ≤ s.length ∧
    ∀ k g, (k, .str g) ∈ ms → k.length + g.length + 6 ≤ s.length
  elements : ∀ {s vs r}, readElements fuel s = some (vs, r) → r.length ≤ s.length

theorem value_shrinks {fuel : Nat} (ih : Shrinks fuel) {s r : List Nat} {v : Value}
    (h : readValue (fuel + 1) s = some (v, r)) : r.length ≤ s.length ∧
      ∀ g, v = .str g → g.length + 2 + r.length ≤ s.length := by
  have hskip := skip_length s
  rw [readValue] at h
  split at h
  · rename_i s' heq
    rw [heq, List.length_cons] at hskip
    obtain ⟨⟨cs, r'⟩, hcs, hpair⟩ := Option.map_eq_some_iff.mp h
    obtain ⟨rfl, rfl⟩ := Prod.mk.inj hpair
    have hle := (readChars_length hcs).1
    refine ⟨by omega, fun g hg => ?_⟩
    obtain rfl := Value.str.inj hg
    omega
  · rename_i s' heq
    rw [heq, List.length_cons] at hskip
    have hskip' := skip_length s'
    split at h
    · rename_i r' heq'
      obtain ⟨rfl, rfl⟩ := Prod.mk.inj (Option.some.inj h)
      rw [heq', List.length_cons] at hskip'
      exact ⟨by omega, nofun⟩
    · obtain ⟨⟨ms, r'⟩, hms, hpair⟩ := Option.map_eq_some_iff.mp h
      obtain ⟨rfl, rfl⟩ := Prod.mk.inj hpair
      have hle := (ih.members hms).1
      exact ⟨by omega, nofun⟩
  · rename_i s' heq
    rw [heq, List.length_cons] at hskip
    have hskip' := skip_length s'
    split at h
    · rename_i r' heq'
      obtain ⟨rfl, rfl⟩ := Prod.mk.inj (Option.some.inj h)
      rw [heq', List.length_cons] at hskip'
      exact ⟨by omega, nofun⟩
    · obtain ⟨⟨vs, r'⟩, hvs, hpair⟩ := Option.map_eq_some_iff.mp h
      obtain ⟨rfl, rfl⟩ := Prod.mk.inj hpair
      have hle := ih.elements hvs
      exact ⟨by omega, nofun⟩
  iterate 3
    · rename_i r' heq
      rw [heq] at hskip
      simp only [List.length_cons] at hskip
      obtain ⟨rfl, rfl⟩ := Prod.mk.inj (Option.some.inj h)
      exact ⟨by omega, nofun⟩
  · obtain ⟨r', hnum, hpair⟩ := Option.map_eq_some_iff.mp h
    obtain ⟨rfl, rfl⟩ := Prod.mk.inj hpair
    have hle := readNumber_length hnum
    exact ⟨by omega, nofun⟩

theorem members_shrinks {fuel : Nat} (ih : Shrinks fuel) {s r : List Nat}
    {ms : List (List Nat × Value)} (h : readMembers (fuel + 1) s = some (ms, r)) :
    r.length + 1 ≤ s.length ∧
      ∀ k g, (k, .str g) ∈ ms → k.length + g.length + 6 ≤ s.length := by
  have hskip := skip_length s
  rw [readMembers] at h
  split at h
  · rename_i s₁ heq
    rw [heq, List.length_cons] at hskip
    obtain ⟨⟨k, s₂⟩, hk, h⟩ := Option.bind_eq_some_iff.mp h
    have hklen := (readChars_length hk).1
    have hskip₂ := skip_length s₂
    simp only at h
    split at h
    · rename_i s₃ heq₃
      rw [heq₃, List.length_cons] at hskip₂
      obtain ⟨⟨v, s₄⟩, hv, h⟩ := Option.bind_eq_some_iff.mp h
      obtain ⟨hvlen, hvstr⟩ := ih.value hv
      have hskip₄ := skip_length s₄
      simp only at h
      split at h
      · rename_i s₅ heq₅
        rw [heq₅, List.length_cons] at hskip₄
        obtain ⟨⟨ms', r'⟩, hms, hpair⟩ := Option.map_eq_some_iff.mp h
        simp only [Prod.mk.injEq] at hpair
        obtain ⟨rfl, rfl⟩ := hpair
        obtain ⟨hrlen, hmem⟩ := ih.members hms
        refine ⟨by omega, fun k' g hin => ?_⟩
        rcases List.mem_cons.mp hin with heq' | hin
        · obtain ⟨rfl, rfl⟩ := Prod.mk.inj heq'
          have hg := hvstr g rfl
          omega
        · have hg := hmem k' g hin
          omega
      · rename_i r' heq₅
        rw [heq₅, List.length_cons] at hskip₄
        obtain ⟨rfl, rfl⟩ := Prod.mk.inj (Option.some.inj h)
        refine ⟨by omega, fun k' g hin => ?_⟩
        obtain ⟨rfl, rfl⟩ := Prod.mk.inj (List.mem_singleton.mp hin)
        have hg := hvstr g rfl
        omega
      · cases h
    · cases h
  · cases h

theorem elements_shrinks {fuel : Nat} (ih : Shrinks fuel) {s r : List Nat} {vs : List Value}
    (h : readElements (fuel + 1) s = some (vs, r)) : r.length ≤ s.length := by
  rw [readElements] at h
  obtain ⟨⟨v, s₁⟩, hv, h⟩ := Option.bind_eq_some_iff.mp h
  have hvlen := (ih.value hv).1
  have hskip := skip_length s₁
  simp only at h
  split at h
  · rename_i s₂ heq
    rw [heq, List.length_cons] at hskip
    obtain ⟨⟨vs', r'⟩, hvs, hpair⟩ := Option.map_eq_some_iff.mp h
    simp only [Prod.mk.injEq] at hpair
    obtain ⟨rfl, rfl⟩ := hpair
    have hle := ih.elements hvs
    omega
  · rename_i r' heq
    rw [heq, List.length_cons] at hskip
    obtain ⟨rfl, rfl⟩ := Prod.mk.inj (Option.some.inj h)
    omega
  · cases h

theorem shrinks (fuel : Nat) : Shrinks fuel := by
  induction fuel with
  | zero => exact ⟨fun h => (by cases h), fun h => (by cases h), fun h => (by cases h)⟩
  | succ fuel ih => exact ⟨value_shrinks ih, members_shrinks ih, elements_shrinks ih⟩

/-- 文字列の member は、その名前と値の長さだけ文を使う。 -/
theorem mem_readMembers {fuel : Nat} {s r k g : List Nat} {ms : List (List Nat × Value)}
    (h : readMembers fuel s = some (ms, r)) (hmem : (k, .str g) ∈ ms) :
    k.length + g.length + 6 ≤ s.length := ((shrinks fuel).members h).2 k g hmem

/-- 名前の member があれば、列の中にその組がある。 -/
theorem mem_of_member {ms : List (List Nat × Value)} {k : List Nat} {v : Value}
    (h : member ms k = some v) : (k, v) ∈ ms := by
  obtain ⟨⟨k', v'⟩, hfind, rfl⟩ := Option.map_eq_some_iff.mp h
  have hk : k' = k := by simpa using List.find?_some hfind
  subst hk
  exact List.mem_reverse.mp (List.mem_of_find?_eq_some hfind)

end RecordServer.Infra.Json
