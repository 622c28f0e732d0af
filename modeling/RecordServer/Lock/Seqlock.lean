import RecordServer.Infra.Trace
import RecordServer.Infra.Word
import Mathlib.Algebra.Group.Nat.Defs
import Mathlib.Logic.Function.Basic

/-!
# 順序 lock（`seqlock.h`）

一人の書き手と何人もの読み手が、番号 `sequence` と、それが守る語の列を共有する。共有の場所への
load・store・atomic な加算を一つの一歩とし、その間の local な計算は直前の load に含める。

* `writeSeqlock` / `writeSequnlock` — 書き手が番号を一つ進める
* `readSeqbegin` — 番号の load 一回分。奇数なら読み直す
* `readSeqretry` — 番号がまだ同じかどうか
* `step` — 書き手か読み手を一人選んで一つ進める

`completed`・`contents`・`begun`・`ended` は履歴で、code は読まない。
-/

namespace RecordServer.Lock

open Infra

/-- `seqlock_t`。 -/
structure SeqlockT where
  sequence : Nat
  deriving DecidableEq, Repr

def initSeqlock : SeqlockT := ⟨0⟩

def writeSeqlock (pl : SeqlockT) : SeqlockT := ⟨u32 (pl.sequence + 1)⟩

def writeSequnlock (pl : SeqlockT) : SeqlockT := ⟨u32 (pl.sequence + 1)⟩

/-- `repeat` からの一回分。奇数のうちは `none` で、`goto repeat` する。 -/
def readSeqbegin (pl : SeqlockT) : Option Nat :=
  if pl.sequence % 2 = 1 then none else some pl.sequence

def readSeqretry (pl : SeqlockT) (start : Nat) : Int := if pl.sequence ≠ start then 1 else 0

/-! ## 書き手と読み手 -/

/-- 読み手の現在地。引数は local 変数で、`loaded` は読んだ語である。 -/
inductive ReaderPc (ω ν : Type*)
  | idle
  | seqbegin
  | reading (start : Nat) (loaded : ω → Option ν)
  | done (ret : Int) (loaded : ω → Option ν)

structure State (ρ ω ν : Type*) where
  lock : SeqlockT
  words : ω → ν
  /-- 書き手が `write_seqlock` と `write_sequnlock` の間にいる。 -/
  writing : Bool
  reader : ρ → ReaderPc ω ν
  /-- 書き終えた回数 -/
  completed : Nat
  /-- `k` 回書き終えたときの語。`0` は初めの語である。 -/
  contents : Nat → ω → ν
  /-- 最後の `read_seqbegin` が返ったときまでに、書き終えていた回数 -/
  begun : ρ → Nat
  /-- 最後の `read_seqretry` が番号を読んだときまでに、書き終えていた回数 -/
  ended : ρ → Nat

/-- 一歩の名札。 -/
inductive Act (ρ ω ν : Type*)
  | lock
  | store (w : ω) (v : ν)
  | unlock
  | start (r : ρ)
  | seqbegin (r : ρ)
  | load (r : ρ) (w : ω)
  | seqretry (r : ρ)

section

variable {ρ ω ν : Type*} [DecidableEq ρ] [DecidableEq ω]

def init (words : ω → ν) : State ρ ω ν where
  lock := initSeqlock
  words := words
  writing := false
  reader := fun _ => .idle
  completed := 0
  contents := fun _ => words
  begun := fun _ => 0
  ended := fun _ => 0

/-- 読み手 `r` を `pc` へ進める。 -/
def State.move (s : State ρ ω ν) (r : ρ) (pc : ReaderPc ω ν) : State ρ ω ν :=
  { s with reader := Function.update s.reader r pc }

def step (s : State ρ ω ν) : Act ρ ω ν → Option (State ρ ω ν)
  | .lock =>
    if s.writing then none else some { s with lock := writeSeqlock s.lock, writing := true }
  | .store w v =>
    if s.writing then some { s with words := Function.update s.words w v } else none
  | .unlock =>
    if s.writing then
      some { s with
        lock := writeSequnlock s.lock
        writing := false
        completed := s.completed + 1
        contents := Function.update s.contents (s.completed + 1) s.words }
    else none
  | .start r =>
    match s.reader r with
    | .idle | .done _ _ => some (s.move r .seqbegin)
    | _ => none
  | .seqbegin r =>
    match s.reader r with
    | .seqbegin =>
      match readSeqbegin s.lock with
      | none => some s
      | some start =>
        some { s.move r (.reading start fun _ => none) with
          begun := Function.update s.begun r s.completed }
    | _ => none
  | .load r w =>
    match s.reader r with
    | .reading start loaded =>
      some (s.move r (.reading start (Function.update loaded w (some (s.words w)))))
    | _ => none
  | .seqretry r =>
    match s.reader r with
    | .reading start loaded =>
      some { s.move r (.done (readSeqretry s.lock start) loaded) with
        ended := Function.update s.ended r s.completed }
    | _ => none

/-- 一歩で起こりうることのすべて。 -/
theorem step_cases {s s' : State ρ ω ν} {a : Act ρ ω ν} (h : step s a = some s') :
    (s.writing = false ∧ s' = { s with lock := writeSeqlock s.lock, writing := true }) ∨
    (∃ w v, s.writing = true ∧ s' = { s with words := Function.update s.words w v }) ∨
    (s.writing = true ∧ s' = { s with
      lock := writeSequnlock s.lock
      writing := false
      completed := s.completed + 1
      contents := Function.update s.contents (s.completed + 1) s.words }) ∨
    (∃ r, s' = s.move r .seqbegin) ∨
    s' = s ∨
    (∃ r start, readSeqbegin s.lock = some start ∧
      s' = { s.move r (.reading start fun _ => none) with
        begun := Function.update s.begun r s.completed }) ∨
    (∃ r w start loaded, s.reader r = .reading start loaded ∧
      s' = s.move r (.reading start (Function.update loaded w (some (s.words w))))) ∨
    ∃ r start loaded, s.reader r = .reading start loaded ∧
      s' = { s.move r (.done (readSeqretry s.lock start) loaded) with
        ended := Function.update s.ended r s.completed } := by
  cases a with
  | lock =>
    simp only [step] at h
    split at h
    · cases h
    · rename_i hw
      exact .inl ⟨by simpa using hw, (Option.some.inj h).symm⟩
  | store w v =>
    simp only [step] at h
    split at h
    · rename_i hw
      exact .inr (.inl ⟨w, v, hw, (Option.some.inj h).symm⟩)
    · cases h
  | unlock =>
    simp only [step] at h
    split at h
    · rename_i hw
      exact .inr (.inr (.inl ⟨hw, (Option.some.inj h).symm⟩))
    · cases h
  | start r =>
    refine .inr (.inr (.inr (.inl ⟨r, ?_⟩)))
    simp only [step] at h
    split at h
    · exact (Option.some.inj h).symm
    · exact (Option.some.inj h).symm
    · cases h
  | seqbegin r =>
    simp only [step] at h
    split at h
    · split at h
      · exact .inr (.inr (.inr (.inr (.inl (Option.some.inj h).symm))))
      · rename_i start hstart
        exact .inr (.inr (.inr (.inr (.inr (.inl ⟨r, start, hstart, (Option.some.inj h).symm⟩)))))
    · cases h
  | load r w =>
    simp only [step] at h
    split at h
    · rename_i start loaded hr
      exact .inr (.inr (.inr (.inr (.inr (.inr (.inl
        ⟨r, w, start, loaded, hr, (Option.some.inj h).symm⟩))))))
    · cases h
  | seqretry r =>
    simp only [step] at h
    split at h
    · rename_i start loaded hr
      exact .inr (.inr (.inr (.inr (.inr (.inr (.inr
        ⟨r, start, loaded, hr, (Option.some.inj h).symm⟩))))))
    · cases h

end

end RecordServer.Lock
