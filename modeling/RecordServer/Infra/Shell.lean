import RecordServer.Infra.Bytes
import RecordServer.Infra.Trace
import Mathlib.Algebra.BigOperators.Group.List.Basic
import Mathlib.Algebra.Order.Ring.Nat

/-!
# 引用の無い文字列の字句分割（POSIX shell）

`sh -c` に渡った文字列のうち、引用も展開も無い部分の読み方である。
一 byte ずつ状態を進め、`Trace` の `run` で列全体に広げる。

* `Token` — 語と演算子
* `tokens` — 字句の列。引用・展開・照合が絡めば `none`
* `PlainWord` — そのまま一語に読まれる byte 列
* `word_mem_plain` — 読めた語はどれも `PlainWord` である
* `wordLength_le` — 語の長さの和は、空白でない byte の数を超えない
-/

namespace RecordServer.Infra

namespace Shell

/-- 語を区切る空白。改行は演算子である。 -/
def isBlank (b : UInt8) : Bool := b == 32 || b == 9

/-- 命令や語を終える byte（改行 `;` `&` `|` `<` `>` `(` `)`）。 -/
def isOperator (b : UInt8) : Bool := [10, 59, 38, 124, 60, 62, 40, 41].contains b

/-- 引用・展開・照合を起こす byte（`$` `` ` `` `"` `'` `\` `*` `?` `[`）。 -/
def isSpecial (b : UInt8) : Bool := [36, 96, 34, 39, 92, 42, 63, 91].contains b

/-- 語の中でそのまま読まれる byte。 -/
def isPlain (b : UInt8) : Bool := !isBlank b && !isOperator b && !isSpecial b

/-- 語頭でだけ意味を持つ byte。`#` は注釈、`~` は home directory になる。 -/
def isLeading (b : UInt8) : Bool := b == 35 || b == 126

inductive Token where
  | word (w : Bytes)
  | op (b : UInt8)
deriving DecidableEq, Repr

/-- 読んでいる場所。語の途中ならそれまでの byte を持つ。 -/
inductive Mode where
  | between
  | word (w : Bytes)
  | comment
deriving DecidableEq, Repr

structure State where
  mode : Mode
  out : List Token
deriving DecidableEq, Repr

/-- 語の途中なら語を出す。 -/
def State.flush (s : State) : List Token :=
  match s.mode with
  | .word w => s.out ++ [.word w]
  | _ => s.out

/-- 語の外で一 byte を読む。 -/
def stepBetween (out : List Token) (b : UInt8) : Option State :=
  if isBlank b then some ⟨.between, out⟩
  else if isOperator b then some ⟨.between, out ++ [.op b]⟩
  else if isSpecial b then none
  else if b = 35 then some ⟨.comment, out⟩
  else if isLeading b then none
  else some ⟨.word [b], out⟩

/-- 語 `w` の続きを一 byte 読む。 -/
def stepWord (w : Bytes) (out : List Token) (b : UInt8) : Option State :=
  if isBlank b then some ⟨.between, out ++ [.word w]⟩
  else if isOperator b then some ⟨.between, out ++ [.word w, .op b]⟩
  else if isSpecial b then none
  else some ⟨.word (w ++ [b]), out⟩

/-- 注釈は改行の手前まで続く。 -/
def stepComment (out : List Token) (b : UInt8) : Option State :=
  if b = 10 then some ⟨.between, out ++ [.op b]⟩ else some ⟨.comment, out⟩

def step (s : State) (b : UInt8) : Option State :=
  match s.mode with
  | .between => stepBetween s.out b
  | .word w => stepWord w s.out b
  | .comment => stepComment s.out b

/-- 文字列の字句の列。 -/
def tokens (s : Bytes) : Option (List Token) := (run step ⟨.between, []⟩ s).map State.flush

/-- そのまま一語に読まれる byte 列。 -/
def PlainWord (w : Bytes) : Prop :=
  w ≠ [] ∧ (∀ b ∈ w, isPlain b = true) ∧ ∀ b, w.head? = some b → isLeading b = false

instance (w : Bytes) : Decidable (PlainWord w) :=
  match w with
  | [] => isFalse fun h => h.1 rfl
  | b :: w =>
    decidable_of_iff ((b :: w).all isPlain = true ∧ isLeading b = false)
      (by simp [PlainWord])

theorem isPlain_iff {b : UInt8} :
    isPlain b = true ↔ isBlank b = false ∧ isOperator b = false ∧ isSpecial b = false := by
  simp [isPlain, and_assoc]

theorem plainWord_concat {w : Bytes} {b : UInt8} (hw : PlainWord w) (hb : isPlain b = true) :
    PlainWord (w ++ [b]) := by
  obtain ⟨hne, hall, hhead⟩ := hw
  refine ⟨by simp, ?_, ?_⟩
  · intro c hc
    rcases List.mem_append.mp hc with hc | hc
    · exact hall c hc
    · rw [List.mem_singleton.mp hc]
      exact hb
  · intro c hc
    rw [List.head?_append_of_ne_nil _ hne] at hc
    exact hhead c hc

/-! ## 一歩の場合分け -/

/-- 一歩で起こることのすべて。 -/
inductive Step : State → UInt8 → State → Prop
  | blank {out b} : isBlank b = true → Step ⟨.between, out⟩ b ⟨.between, out⟩
  | op {out b} : isBlank b = false → isOperator b = true →
      Step ⟨.between, out⟩ b ⟨.between, out ++ [.op b]⟩
  | hash {out} : Step ⟨.between, out⟩ 35 ⟨.comment, out⟩
  | first {out b} : isPlain b = true → isLeading b = false →
      Step ⟨.between, out⟩ b ⟨.word [b], out⟩
  | wordBlank {w out b} : isBlank b = true → Step ⟨.word w, out⟩ b ⟨.between, out ++ [.word w]⟩
  | wordOp {w out b} : isBlank b = false → isOperator b = true →
      Step ⟨.word w, out⟩ b ⟨.between, out ++ [.word w, .op b]⟩
  | next {w out b} : isPlain b = true → Step ⟨.word w, out⟩ b ⟨.word (w ++ [b]), out⟩
  | newline {out} : Step ⟨.comment, out⟩ 10 ⟨.between, out ++ [.op 10]⟩
  | skip {out b} : Step ⟨.comment, out⟩ b ⟨.comment, out⟩

theorem step_cases {s s' : State} {b : UInt8} (h : step s b = some s') : Step s b s' := by
  obtain ⟨mode, out⟩ := s
  cases mode with
  | between =>
    simp only [step, stepBetween] at h
    split at h
    · cases h; exact .blank ‹_›
    · split at h
      · cases h; exact .op (by simpa using ‹¬isBlank b = true›) ‹_›
      · split at h
        · cases h
        · split at h
          · subst b; cases h; exact .hash
          · split at h
            · cases h
            · cases h
              exact .first (isPlain_iff.mpr (by simp_all)) (by simp_all)
  | word w =>
    simp only [step, stepWord] at h
    split at h
    · cases h; exact .wordBlank ‹_›
    · split at h
      · cases h; exact .wordOp (by simpa using ‹¬isBlank b = true›) ‹_›
      · split at h
        · cases h
        · cases h
          exact .next (isPlain_iff.mpr (by simp_all))
  | comment =>
    simp only [step, stepComment] at h
    split at h
    · subst b; cases h; exact .newline
    · cases h; exact .skip

/-- 出した字句の前に `pre` を付ける。 -/
def State.after (pre : List Token) (s : State) : State := ⟨s.mode, pre ++ s.out⟩

theorem step_after (pre : List Token) (s : State) (b : UInt8) :
    step (s.after pre) b = (step s b).map (State.after pre) := by
  obtain ⟨mode, out⟩ := s
  cases mode with
  | between => simp only [step, stepBetween, State.after]; split_ifs <;> simp [State.after]
  | word w => simp only [step, stepWord, State.after]; split_ifs <;> simp [State.after]
  | comment => simp only [step, stepComment, State.after]; split_ifs <;> simp [State.after]

/-- 読み方は、それまでに出した字句によらない。 -/
theorem run_after {p : List Token} {s t : State} {bs : Bytes} (h : run step s bs = some t) :
    run step (s.after p) bs = some (t.after p) := by
  induction bs generalizing s with
  | nil =>
    rw [run_nil] at h
    cases h
    rfl
  | cons b bs ih =>
    obtain ⟨u, hu, hrun⟩ := (run_cons_eq_some step).mp h
    rw [run_cons_eq_some]
    exact ⟨u.after p, by rw [step_after, hu]; rfl, ih hrun⟩

/-! ## 読めた語 -/

/-- 出した語も読みかけの語も `PlainWord` である。 -/
def AllPlain (s : State) : Prop := ∀ w, .word w ∈ s.flush → PlainWord w

theorem AllPlain.step {s s' : State} {b : UInt8} (h : Shell.step s b = some s')
    (hs : AllPlain s) : AllPlain s' := by
  intro w hw
  unfold AllPlain at hs
  cases step_cases h with
  | first hp hl =>
    rename_i out
    simp only [State.flush, List.mem_append, List.mem_singleton, Token.word.injEq] at hw hs
    rcases hw with hw | rfl
    · exact hs w hw
    · exact ⟨by simp, by simpa using hp, by simpa using hl⟩
  | next hp =>
    rename_i w₀ out
    simp only [State.flush, List.mem_append, List.mem_singleton, Token.word.injEq] at hw hs
    rcases hw with hw | rfl
    · exact hs w (.inl hw)
    · exact plainWord_concat (hs w₀ (.inr rfl)) hp
  | _ => simp_all [State.flush]

/-- **読めた語はどれも空でなく、そのまま読まれる byte からなる。** -/
theorem word_mem_plain {s : Bytes} {ts : List Token} (h : tokens s = some ts) {w : Bytes}
    (hw : .word w ∈ ts) : PlainWord w := by
  unfold tokens at h
  obtain ⟨st, hst, rfl⟩ := Option.map_eq_some_iff.mp h
  have hinit : AllPlain ⟨.between, []⟩ := by simp [AllPlain, State.flush]
  have hfinal : AllPlain st :=
    run_invariant (I := AllPlain) (fun _ _ _ _ hstep hI => hI.step hstep)
      (Along.trivial _ s) hst hinit
  exact hfinal w hw

/-! ## 語の長さの和 -/

def Token.wordLength : Token → Nat
  | .word w => w.length
  | .op _ => 0

/-- 語の長さの和。 -/
def wordLength (ts : List Token) : Nat := (ts.map Token.wordLength).sum

/-- 空白でない byte の数。 -/
def inkLength (s : Bytes) : Nat := (s.filter fun b => !isBlank b).length

@[simp] theorem wordLength_append (ts us : List Token) :
    wordLength (ts ++ us) = wordLength ts + wordLength us := by simp [wordLength]

@[simp] theorem wordLength_word (w : Bytes) : wordLength [.word w] = w.length := by
  simp [wordLength, Token.wordLength]

@[simp] theorem wordLength_nil : wordLength [] = 0 := rfl

@[simp] theorem wordLength_op (b : UInt8) (ts : List Token) :
    wordLength (.op b :: ts) = wordLength ts := by simp [wordLength, Token.wordLength]

theorem wordLength_cons_word (w : Bytes) (ts : List Token) :
    wordLength (.word w :: ts) = w.length + wordLength ts := by
  simp [wordLength, Token.wordLength]

@[simp] theorem inkLength_append (s t : Bytes) : inkLength (s ++ t) = inkLength s + inkLength t := by
  simp [inkLength]

theorem inkLength_singleton {b : UInt8} (hb : isBlank b = false) : inkLength [b] = 1 := by
  simp [inkLength, hb]

/-- 一 byte で語が伸びるのは高々一で、空白では伸びない。 -/
theorem wordLength_step {s s' : State} {b : UInt8} (h : step s b = some s') :
    wordLength s'.flush ≤ wordLength s.flush + inkLength [b] := by
  cases step_cases h with
  | first hp =>
    have hb := inkLength_singleton (isPlain_iff.mp hp).1
    simp [State.flush, hb]
  | next hp =>
    have hb := inkLength_singleton (isPlain_iff.mp hp).1
    simp only [State.flush, wordLength_append, wordLength_word, List.length_append,
      List.length_singleton]
    omega
  | _ => simp [State.flush, wordLength_cons_word]

theorem wordLength_run {s s' : State} {bs : Bytes} (h : run step s bs = some s') :
    wordLength s'.flush ≤ wordLength s.flush + inkLength bs := by
  induction bs generalizing s with
  | nil =>
    rw [run_nil] at h
    cases h
    omega
  | cons b bs ih =>
    obtain ⟨u, hu, hrun⟩ := (run_cons_eq_some step).mp h
    have h₁ := wordLength_step hu
    have h₂ := ih hrun
    have h₃ : inkLength (b :: bs) = inkLength [b] + inkLength bs := inkLength_append [b] bs
    omega

/-- **語の長さの和は、空白でない byte の数を超えない。** -/
theorem wordLength_le {s : Bytes} {ts : List Token} (h : tokens s = some ts) :
    wordLength ts ≤ inkLength s := by
  unfold tokens at h
  obtain ⟨st, hst, rfl⟩ := Option.map_eq_some_iff.mp h
  simpa [State.flush] using wordLength_run hst

/-! ## `PlainWord` の読み方 -/

theorem step_next {w : Bytes} {out : List Token} {b : UInt8} (hb : isPlain b = true) :
    step ⟨.word w, out⟩ b = some ⟨.word (w ++ [b]), out⟩ := by
  obtain ⟨h₁, h₂, h₃⟩ := isPlain_iff.mp hb
  simp [step, stepWord, h₁, h₂, h₃]

theorem step_first {out : List Token} {b : UInt8} (hb : isPlain b = true)
    (hl : isLeading b = false) : step ⟨.between, out⟩ b = some ⟨.word [b], out⟩ := by
  obtain ⟨h₁, h₂, h₃⟩ := isPlain_iff.mp hb
  have hne : b ≠ 35 := by
    rintro rfl
    cases hl
  simp [step, stepBetween, h₁, h₂, h₃, hne, hl]

theorem run_plain {w v : Bytes} {out : List Token} (hv : ∀ b ∈ v, isPlain b = true) :
    run step ⟨.word w, out⟩ v = some ⟨.word (w ++ v), out⟩ := by
  induction v generalizing w with
  | nil => simp
  | cons b v ih =>
    rw [run_cons_eq_some]
    refine ⟨_, step_next (hv b List.mem_cons_self), ?_⟩
    simpa using ih (w := w ++ [b]) fun c hc => hv c (List.mem_cons_of_mem _ hc)

/-- **語の外で `PlainWord` を読むと、その語の途中になる。** -/
theorem run_plainWord {w : Bytes} {out : List Token} (hw : PlainWord w) :
    run step ⟨.between, out⟩ w = some ⟨.word w, out⟩ := by
  obtain ⟨hne, hall, hhead⟩ := hw
  cases w with
  | nil => exact absurd rfl hne
  | cons b w =>
    rw [run_cons_eq_some]
    refine ⟨_, step_first (hall b List.mem_cons_self) (hhead b rfl), ?_⟩
    simpa using run_plain (w := [b]) fun c hc => hall c (List.mem_cons_of_mem _ hc)

end Shell

end RecordServer.Infra
