import RecordServer.Conf.Lexing
import RecordServer.Conf.Pointer
import RecordServer.Infra.Fuel

/-!
# 番地で読む字句

どの関数も、始まりから `end` までの byte の数に応じた燃料で終わり、`end` を越えて読まず、`Conf.Pconf` の同じ関数と
同じ位置で止まる。

* `Memory.rest_cons` / `Memory.deref_rest` — 位置と、残りの byte 列
* `jumpcomment_spec` / `jumpspace_yields` — 区切り
* `Lexed` — 並びを取る関数が返すもの
* `findValid_spec` / `findValidValue_spec` / `findValidArrayValue_spec`
-/

namespace RecordServer.Conf.Pointer

open Infra

variable {m : Memory} {env : Env} {p q n : Nat} {s : Pconf}

/-! ## 位置と残り -/

@[simp] theorem ok_bind {α β : Type} (a : α) (f : α → Except Stop β) :
    (Except.ok a >>= f) = f a := rfl

namespace Memory

theorem read_ok (hp : p ≤ m.fin) : m.read p = .ok (m.byte p) := if_pos hp

@[simp] theorem length_slice (m : Memory) (p n : Nat) : (m.slice p n).length = n := by
  induction n generalizing p with
  | zero => rfl
  | succ n ih => rw [slice, List.length_cons, ih]

theorem length_rest (m : Memory) (p : Nat) : (m.rest p).length = m.fin - p := m.length_slice p _

theorem rest_cons (hp : p < m.fin) : m.rest p = m.byte p :: m.rest (p + 1) := by
  rw [rest, show m.fin - p = (m.fin - (p + 1)) + 1 by omega, slice, rest]

theorem rest_end (hp : m.fin ≤ p) : m.rest p = [] := by
  rw [rest, Nat.sub_eq_zero_of_le hp, slice]

/-- `end` にある 0 の byte が、残りが無いときの `deref` である。 -/
theorem deref_rest (hp : p ≤ m.fin) : deref (m.rest p) = m.byte p := by
  rcases Nat.lt_or_ge p m.fin with hlt | hge
  · rw [rest_cons hlt, deref]
  · rw [rest_end hge, deref, Nat.le_antisymm hp hge, m.zero]

theorem tail_rest (hp : p < m.fin) : (m.rest p).tail = m.rest (p + 1) := by
  rw [rest_cons hp, List.tail_cons]

theorem rest_eq_nil : m.rest p = [] ↔ m.fin ≤ p := by
  refine ⟨fun h => ?_, rest_end⟩
  have hlen := m.length_rest p
  rw [h] at hlen
  exact Nat.le_of_sub_eq_zero hlen.symm

theorem slice_eq_take (hn : p + n ≤ m.fin) : m.slice p n = (m.rest p).take n := by
  induction n generalizing p with
  | zero => rw [slice, List.take_zero]
  | succ n ih => rw [slice, rest_cons (by omega), List.take_succ_cons, ih (by omega)]

end Memory

/-! ## 区切り -/

theorem lineEnd_spec (hp : p ≤ m.fin) : ∃ q,
    Yields (m.fin - p + 1) (fun fuel => lineEnd m fuel p) q ∧ p ≤ q ∧ q ≤ m.fin ∧ (p < m.fin → m.byte p ≠ newline → p < q) ∧
    ∀ s, Conf.jumpcomment true (m.rest p) s =
      if q < m.fin then Conf.jumpcomment false (m.rest (q + 1)) s.nextLine else (m.rest q, s) := by
  induction hn : m.fin - p generalizing p with
  | zero =>
    have hend : m.fin ≤ p := by omega
    refine ⟨p, Yields.of_succ fun fuel _ => ?_, Nat.le_refl p, hp, fun h => by omega, fun s => ?_⟩
    · show lineEnd m (fuel + 1) p = _
      rw [lineEnd, if_neg (Nat.not_lt.mpr hend)]
    · rw [if_neg (Nat.not_lt.mpr hend), Memory.rest_end hend]
      rfl
  | succ n ih =>
    have hlt : p < m.fin := by omega
    by_cases hb : m.byte p = newline
    · refine ⟨p, Yields.of_succ fun fuel _ => ?_, Nat.le_refl p, hp, fun _ h => absurd hb h,
        fun s => ?_⟩
      · show lineEnd m (fuel + 1) p = _
        rw [lineEnd, if_pos hlt, Memory.read_ok hp, ok_bind, if_neg (not_not.mpr hb)]
      · rw [if_pos hlt, Memory.rest_cons hlt, Conf.jumpcomment, if_pos rfl, if_pos hb]
    · obtain ⟨q, hq, hle, hfin, -, hsim⟩ := ih (p := p + 1) hlt (by omega)
      refine ⟨q, Yields.of_succ fun fuel hfuel => ?_, by omega, hfin, fun _ _ => hle, fun s => ?_⟩
      · show lineEnd m (fuel + 1) p = _
        rw [lineEnd, if_pos hlt, Memory.read_ok hp, ok_bind, if_pos hb]
        exact hq fuel hfuel
      · rw [Memory.rest_cons hlt, Conf.jumpcomment, if_pos rfl, if_neg hb]
        exact hsim s

/-- `jumpcomment` は終わり、コメントの始まりなら一つ以上進む。 -/
theorem jumpcomment_spec (hp : p ≤ m.fin) (s : Pconf) : ∃ q s',
    Yields (m.fin - p + 1) (fun fuel => jumpcomment m fuel p s) (q, s') ∧ p ≤ q ∧ q ≤ m.fin ∧
    (m.byte p = sharp → p < q) ∧ Conf.jumpcomment false (m.rest p) s = (m.rest q, s') := by
  induction hn : m.fin - p using Nat.strong_induction_on generalizing p s with
  | _ n ih =>
    subst hn
    by_cases hb : m.byte p = sharp
    · have hlt : p < m.fin := by
        refine Nat.lt_of_le_of_ne hp ?_
        rintro rfl
        rw [m.zero] at hb
        cases hb
      have hne : m.byte p ≠ newline := by
        rw [hb]
        decide
      obtain ⟨q, hq, hle, hfin, hpos, hsim⟩ := lineEnd_spec hp
      have hpq := hpos hlt hne
      have hstart : Conf.jumpcomment false (m.rest p) s = Conf.jumpcomment true (m.rest p) s := by
        rw [Memory.rest_cons hlt, hb, jumpcomment_sharp, Conf.jumpcomment, if_pos rfl,
          if_neg (by decide)]
      rw [hstart, hsim s]
      by_cases hend : q < m.fin
      · obtain ⟨q', s', hq', hle', hfin', -, hsim'⟩ :=
          ih (m.fin - (q + 1)) (by omega) (p := q + 1) hend s.nextLine rfl
        refine ⟨q', s', Yields.of_succ fun fuel hfuel => ?_, by omega, hfin', fun _ => by omega, ?_⟩
        · have hline : lineEnd m (fuel + 1) p = .ok q := hq (fuel + 1) (by omega)
          show jumpcomment m (fuel + 1) p s = _
          rw [jumpcomment, Memory.read_ok hp, ok_bind, if_pos hb, hline, ok_bind, if_neg (by omega)]
          exact hq' fuel (by omega)
        · rw [if_pos hend, hsim']
      · refine ⟨q, s, Yields.of_succ fun fuel hfuel => ?_, hle, hfin, fun _ => hpq, if_neg hend⟩
        have hline : lineEnd m (fuel + 1) p = .ok q := hq (fuel + 1) (by omega)
        show jumpcomment m (fuel + 1) p s = _
        rw [jumpcomment, Memory.read_ok hp, ok_bind, if_pos hb, hline, ok_bind, if_pos (by omega)]
    · refine ⟨p, s, Yields.of_succ fun fuel _ => ?_, Nat.le_refl p, hp, fun h => absurd h hb, ?_⟩
      · show jumpcomment m (fuel + 1) p s = _
        rw [jumpcomment, Memory.read_ok hp, ok_bind, if_neg hb]
      · rcases Nat.lt_or_ge p m.fin with hlt | hge
        · rw [Memory.rest_cons hlt, Conf.jumpcomment, if_neg (by decide), if_neg hb]
        · rw [Memory.rest_end hge]
          rfl

/-- 燃料は、残りの長さから後は結果を変えない。 -/
theorem jumpspaceLoop_congr {f g : Nat} {w : Bytes} (hf : w.length ≤ f) (hg : w.length ≤ g)
    (s : Pconf) : jumpspaceLoop f w s = jumpspaceLoop g w s := by
  induction f generalizing g w s with
  | zero =>
    rw [List.length_eq_zero_iff.mp (Nat.le_zero.mp hf)]
    cases g <;> rfl
  | succ f ih =>
    cases w with
    | nil => cases g <;> rfl
    | cons b w =>
      obtain ⟨g, rfl⟩ := Nat.exists_eq_add_one_of_ne_zero (Nat.ne_zero_of_lt hg)
      rw [List.length_cons] at hf hg
      simp only [jumpspaceLoop]
      split_ifs with h₁ h₂ h₃
      · exact ih (by omega) (by omega) _
      · exact ih (by omega) (by omega) _
      · subst h₃
        simp only [jumpcomment_sharp]
        have hlen := length_jumpcomment_le true w s
        exact ih (by omega) (by omega) _
      · rfl

theorem jumpspace_spec (hp : p ≤ m.fin) (s : Pconf) : ∃ q s',
    Yields (m.fin - p + 1) (fun fuel => jumpspace m fuel p s) (q, s') ∧ p ≤ q ∧ q ≤ m.fin ∧
    Conf.jumpspace (m.rest p) s = (m.rest q, s') := by
  induction hn : m.fin - p using Nat.strong_induction_on generalizing p s with
  | _ n ih =>
    subst hn
    rcases Nat.lt_or_ge p m.fin with hlt | hge
    · have hread := Memory.read_ok hp
      have hlen : (m.rest (p + 1)).length < m.fin - p := by
        rw [Memory.length_rest]
        omega
      by_cases h₁ : m.byte p = 32 ∨ m.byte p = 9 ∨ m.byte p = 13
      · obtain ⟨q, s', hq, hle, hfin, hsim⟩ := ih (m.fin - (p + 1)) (by omega) hlt s rfl
        refine ⟨q, s', Yields.of_succ fun fuel hfuel => ?_, by omega, hfin, ?_⟩
        · show jumpspace m (fuel + 1) p s = _
          rw [jumpspace, if_pos hlt, hread, ok_bind, if_pos h₁]
          exact hq fuel (by omega)
        · rw [← hsim, Memory.rest_cons hlt, Conf.jumpspace, List.length_cons, jumpspaceLoop,
            if_pos h₁, Conf.jumpspace]
      by_cases h₂ : m.byte p = newline
      · obtain ⟨q, s', hq, hle, hfin, hsim⟩ := ih (m.fin - (p + 1)) (by omega) hlt s.nextLine rfl
        refine ⟨q, s', Yields.of_succ fun fuel hfuel => ?_, by omega, hfin, ?_⟩
        · show jumpspace m (fuel + 1) p s = _
          rw [jumpspace, if_pos hlt, hread, ok_bind, if_neg h₁, if_pos h₂]
          exact hq fuel (by omega)
        · rw [← hsim, Memory.rest_cons hlt, Conf.jumpspace, List.length_cons, jumpspaceLoop,
            if_neg h₁, if_pos h₂, Conf.jumpspace]
      by_cases h₃ : m.byte p = sharp
      · obtain ⟨c, s₁, hc, -, hcfin, hpos, hcsim⟩ := jumpcomment_spec hp s
        have hpc := hpos h₃
        obtain ⟨q, s', hq, hle, hfin, hsim⟩ := ih (m.fin - c) (by omega) hcfin s₁ rfl
        refine ⟨q, s', Yields.of_succ fun fuel hfuel => ?_, by omega, hfin, ?_⟩
        · have hcomment : jumpcomment m (fuel + 1) p s = .ok (c, s₁) := hc (fuel + 1) (by omega)
          show jumpspace m (fuel + 1) p s = _
          rw [jumpspace, if_pos hlt, hread, ok_bind, if_neg h₁, if_neg h₂, if_pos h₃, hcomment,
            ok_bind]
          exact hq fuel (by omega)
        · rw [Memory.rest_cons hlt] at hcsim ⊢
          rw [Conf.jumpspace, List.length_cons, jumpspaceLoop, if_neg h₁, if_neg h₂, if_pos h₃,
            hcsim, ← hsim]
          exact jumpspaceLoop_congr (by rw [Memory.length_rest, Memory.length_rest]; omega)
            (Nat.le_refl _) s₁
      · refine ⟨p, s, Yields.of_succ fun fuel _ => ?_, Nat.le_refl p, hp, ?_⟩
        · show jumpspace m (fuel + 1) p s = _
          rw [jumpspace, if_pos hlt, hread, ok_bind, if_neg h₁, if_neg h₂, if_neg h₃]
        · rw [Memory.rest_cons hlt, Conf.jumpspace, List.length_cons, jumpspaceLoop, if_neg h₁,
            if_neg h₂, if_neg h₃]
    · refine ⟨p, s, Yields.of_succ fun fuel _ => ?_, Nat.le_refl p, hp, ?_⟩
      · show jumpspace m (fuel + 1) p s = _
        rw [jumpspace, if_neg (Nat.not_lt.mpr hge)]
      · rw [Memory.rest_end hge]
        rfl

/-- 区切りの後の位置。 -/
def Memory.skipPos (m : Memory) (p : Nat) : Nat := m.fin - (skip (m.rest p)).length

theorem jumpspace_skipPos (hp : p ≤ m.fin) (s : Pconf) :
    Yields (m.fin - p + 1) (fun fuel => jumpspace m fuel p s) (m.skipPos p, s.jumped (m.rest p)) ∧
      p ≤ m.skipPos p ∧ m.skipPos p ≤ m.fin ∧ m.rest (m.skipPos p) = skip (m.rest p) := by
  obtain ⟨q, s', hq, hle, hfin, hsim⟩ := jumpspace_spec hp s
  rw [jumpspace_eq] at hsim
  obtain ⟨hskip, rfl⟩ := Prod.mk.inj hsim
  obtain rfl : q = m.skipPos p := by
    rw [Memory.skipPos, hskip, Memory.length_rest]
    omega
  exact ⟨hq, hle, hfin, hskip.symm⟩

theorem jumpspace_yields (hp : p ≤ m.fin) (s : Pconf) :
    Yields (m.fin - p + 1) (fun fuel => jumpspace m fuel p s) (m.skipPos p, s.jumped (m.rest p)) :=
  (jumpspace_skipPos hp s).1

theorem le_skipPos (hp : p ≤ m.fin) : p ≤ m.skipPos p := (jumpspace_skipPos hp ⟨0, 0, []⟩).2.1

theorem skipPos_le (hp : p ≤ m.fin) : m.skipPos p ≤ m.fin := (jumpspace_skipPos hp ⟨0, 0, []⟩).2.2.1

theorem rest_skipPos (hp : p ≤ m.fin) : m.rest (m.skipPos p) = skip (m.rest p) :=
  (jumpspace_skipPos hp ⟨0, 0, []⟩).2.2.2

theorem conf_jumpspace (hp : p ≤ m.fin) (s : Pconf) :
    Conf.jumpspace (m.rest p) s = (m.rest (m.skipPos p), s.jumped (m.rest p)) := by
  rw [jumpspace_eq, rest_skipPos hp]

/-! ## 並び -/

theorem scan_spec (valid : UInt8 → Bool) (hp : p ≤ m.fin) : ∃ q,
    Yields (m.fin - p + 1) (fun fuel => scan valid m fuel p) q ∧ p ≤ q ∧ q ≤ m.fin ∧
    (p < m.fin → valid (m.byte p) = true → p < q) ∧
    (m.rest p).dropWhile valid = m.rest q ∧ (m.rest p).takeWhile valid = m.slice p (q - p) := by
  induction hn : m.fin - p generalizing p with
  | zero =>
    have hend : m.fin ≤ p := by omega
    refine ⟨p, Yields.of_succ fun fuel _ => ?_, Nat.le_refl p, hp, fun h => by omega, ?_, ?_⟩
    · show scan valid m (fuel + 1) p = _
      rw [scan, if_neg (Nat.not_lt.mpr hend)]
    · rw [Memory.rest_end hend, List.dropWhile_nil]
    · rw [Memory.rest_end hend, List.takeWhile_nil, Nat.sub_self, Memory.slice]
  | succ n ih =>
    have hlt : p < m.fin := by omega
    have hrest := Memory.rest_cons hlt
    by_cases hb : valid (m.byte p) = true
    · obtain ⟨q, hq, hle, hfin, -, hdrop, htake⟩ := ih (p := p + 1) hlt (by omega)
      refine ⟨q, Yields.of_succ fun fuel hfuel => ?_, by omega, hfin, fun _ _ => hle, ?_, ?_⟩
      · show scan valid m (fuel + 1) p = _
        rw [scan, if_pos hlt, Memory.read_ok hp, ok_bind, if_pos hb]
        exact hq fuel hfuel
      · rw [hrest, List.dropWhile_cons_of_pos hb, hdrop]
      · rw [hrest, List.takeWhile_cons_of_pos hb, htake, show q - p = (q - (p + 1)) + 1 by omega,
          Memory.slice]
    · refine ⟨p, Yields.of_succ fun fuel _ => ?_, Nat.le_refl p, hp, fun _ h => absurd h hb, ?_, ?_⟩
      · show scan valid m (fuel + 1) p = _
        rw [scan, if_pos hlt, Memory.read_ok hp, ok_bind, if_neg hb]
      · rw [hrest, List.dropWhile_cons_of_neg hb]
      · rw [hrest, List.takeWhile_cons_of_neg hb, Nat.sub_self, Memory.slice]

/-- 位置 `p` から読んだ `find_valid_*` が返すもの。 -/
structure Lexed (m : Memory) (p : Nat) (s : Pconf) (r : Nat × Written × Pconf) : Prop where
  le : p ≤ r.1
  le_fin : r.1 ≤ m.fin
  level : r.2.2.level = s.level
  untouched : r.2.1 = .untouched → r.1 = m.fin
  token : ∀ t, r.2.1 = .token t → p ≤ t.start ∧ 0 < t.len ∧ t.start + t.len ≤ r.1

/-- 並びの位置を、並びの文字に替える。 -/
def Memory.written (m : Memory) : Written → Conf.Written
  | .untouched => .untouched
  | .null => .null
  | .token t => .token (m.slice t.start t.len)

@[simp] theorem report_level (s : Pconf) (msg : Message) (w : Bytes) :
    (s.report msg w).level = s.level := rfl

theorem findValid_spec (valid : UInt8 → Bool) (hp : p ≤ m.fin) (s : Pconf) : ∃ r,
    Yields (m.fin - p + 1) (fun fuel => findValid valid m fuel p s) r ∧ Lexed m p s r ∧
      Conf.findValid valid (m.rest p) s = (m.rest r.1, m.written r.2.1, r.2.2) := by
  have hle := le_skipPos hp
  have hfin := skipPos_le hp
  have hjump := conf_jumpspace hp s
  have hyield := jumpspace_yields hp s
  generalize m.skipPos p = q at hle hfin hjump hyield
  rcases Nat.lt_or_ge q m.fin with hlt | hge
  · have hrest := Memory.rest_cons hlt
    rw [hrest] at hjump
    by_cases hb : valid (m.byte q) = true
    · obtain ⟨e, he, hqe, hefin, hpos, hdrop, htake⟩ := scan_spec valid hfin
      have hadv := hpos hlt hb
      refine ⟨(e, .token ⟨q, e - q⟩, s.jumped (m.rest p)), hyield.bind ?_,
        ⟨by omega, hefin, by simp, by simp, ?_⟩, ?_⟩
      · intro fuel hfuel
        have hscan : scan valid m fuel q = .ok e := he fuel (by omega)
        show (if q ≥ m.fin then _ else _) = _
        rw [if_neg (by omega), Memory.read_ok hfin, ok_bind, if_pos hb, hscan, ok_bind]
      · rintro t ⟨⟩
        exact ⟨hle, by simp only; omega, by simp only; omega⟩
      · rw [Conf.findValid, hjump]
        simp only [hb, if_true]
        rw [← hrest, hdrop, htake]
        rfl
    · refine ⟨(q, .null, (s.jumped (m.rest p)).report .illegalChar (m.rest q)), hyield.bind ?_,
        ⟨hle, hfin, by simp, by simp, by simp⟩, ?_⟩
      · intro fuel _
        show (if q ≥ m.fin then _ else _) = _
        rw [if_neg (by omega), Memory.read_ok hfin, ok_bind, if_neg hb]
      · rw [Conf.findValid, hjump]
        simp only [hb, hrest]
        rfl
  · have hend : q = m.fin := Nat.le_antisymm hfin hge
    refine ⟨(q, .untouched, s.jumped (m.rest p)), hyield.bind ?_,
      ⟨hle, hfin, by simp, fun _ => hend, by simp⟩, ?_⟩
    · intro fuel _
      show (if q ≥ m.fin then _ else _) = _
      rw [if_pos hge]
    · rw [Conf.findValid, hjump, Memory.rest_end hge]
      rfl

/-- 0 でない文字を読めたなら、まだ `end` ではない。 -/
theorem lt_fin_of_byte {b : UInt8} (hb : b ≠ 0) (hp : p ≤ m.fin) (h : m.byte p = b) :
    p < m.fin := by
  refine Nat.lt_of_le_of_ne hp ?_
  rintro rfl
  exact hb (h.symm.trans m.zero)

theorem findValidValue_spec (env : Env) (hp : p ≤ m.fin) (s : Pconf) : ∃ r,
    Yields (m.fin - p + 1) (fun fuel => findValidValue env m fuel p s) r ∧ Lexed m p s r ∧
      Conf.findValidValue env (m.rest p) s = (m.rest r.1, m.written r.2.1, r.2.2) := by
  obtain ⟨⟨q, w, s₁⟩, hq, hlex, hsim⟩ := findValid_spec (validvalue env) hp s
  obtain ⟨hle, hfin, hlevel, -, htoken⟩ := id hlex
  cases w with
  | untouched => exact ⟨_, hq.bind (.pure _ _), hlex, by rw [Conf.findValidValue, hsim]; rfl⟩
  | null => exact ⟨_, hq.bind (.pure _ _), hlex, by rw [Conf.findValidValue, hsim]; rfl⟩
  | token t =>
    obtain ⟨hstart, hlen, hend⟩ := htoken t rfl
    have hqe := le_skipPos (m := m) (p := q) hfin
    have hefin := skipPos_le (m := m) (p := q) hfin
    have hjump := conf_jumpspace (m := m) (p := q) hfin s₁
    have hyield := (jumpspace_yields (m := m) (p := q) hfin s₁).mono
      (show m.fin - q + 1 ≤ m.fin - p + 1 by omega)
    generalize m.skipPos q = e at hqe hefin hjump hyield
    have hstep : Conf.findValidValue env (m.rest p) s =
        if deref (m.rest e) = semicolon then
          ((m.rest e).tail, .token (m.slice t.start t.len), s₁.jumped (m.rest q))
        else (m.rest e, .null, (s₁.jumped (m.rest q)).report .expectSemicolon (m.rest e)) := by
      rw [Conf.findValidValue, hsim]
      simp only [Memory.written, hjump]
    rw [hstep, Memory.deref_rest hefin]
    by_cases hb : m.byte e = semicolon
    · have hlt := lt_fin_of_byte (by decide) hefin hb
      refine ⟨(e + 1, .token t, s₁.jumped (m.rest q)), hq.bind (hyield.bind ?_),
        ⟨by omega, hlt, by simpa using hlevel, by simp, ?_⟩, ?_⟩
      · intro fuel _
        show (m.read e >>= fun b => _) = _
        rw [Memory.read_ok hefin, ok_bind, if_pos hb]
      · rintro _ ⟨⟩
        exact ⟨hstart, hlen, by simp only; omega⟩
      · rw [if_pos hb, Memory.tail_rest hlt]
        rfl
    · refine ⟨(e, .null, (s₁.jumped (m.rest q)).report .expectSemicolon (m.rest e)),
        hq.bind (hyield.bind ?_), ⟨by omega, hefin, by simpa using hlevel, by simp, by simp⟩, if_neg hb⟩
      intro fuel _
      show (m.read e >>= fun b => _) = _
      rw [Memory.read_ok hefin, ok_bind, if_neg hb]

theorem findValidArrayValue_spec (env : Env) (hp : p ≤ m.fin) (s : Pconf) : ∃ r,
    Yields (m.fin - p + 1) (fun fuel => findValidArrayValue env m fuel p s) r ∧ Lexed m p s r ∧
      Conf.findValidArrayValue env (m.rest p) s = (m.rest r.1, m.written r.2.1, r.2.2) := by
  obtain ⟨⟨q, w, s₁⟩, hq, hlex, hsim⟩ := findValid_spec (validvalue env) hp s
  obtain ⟨hle, hfin, hlevel, -, htoken⟩ := id hlex
  cases w with
  | untouched => exact ⟨_, hq.bind (.pure _ _), hlex, by rw [Conf.findValidArrayValue, hsim]; rfl⟩
  | null => exact ⟨_, hq.bind (.pure _ _), hlex, by rw [Conf.findValidArrayValue, hsim]; rfl⟩
  | token t =>
    obtain ⟨hstart, hlen, hend⟩ := htoken t rfl
    have hqe := le_skipPos (m := m) (p := q) hfin
    have hefin := skipPos_le (m := m) (p := q) hfin
    have hyield := (jumpspace_yields (m := m) (p := q) hfin s₁).mono
      (show m.fin - q + 1 ≤ m.fin - p + 1 by omega)
    refine ⟨(m.skipPos q, .token t, s₁.jumped (m.rest q)), hq.bind (hyield.bind (.pure _ _)),
      ⟨by omega, hefin, by simpa using hlevel, by simp, ?_⟩, ?_⟩
    · rintro _ ⟨⟩
      exact ⟨hstart, hlen, by simp only; omega⟩
    · rw [Conf.findValidArrayValue, hsim]
      simp only [Memory.written, conf_jumpspace (m := m) (p := q) hfin]

/-- 先読みした文字が `c` なら、区切りの後はまだ `end` でない。 -/
theorem nextIs_spec {c : UInt8} (hp : p ≤ m.fin) (s : Pconf) : ∃ b,
    Yields (m.fin - p + 1) (fun fuel => nextIs c m fuel p s) (b, s.jumped (m.rest p)) ∧
      (b = true → m.skipPos p < m.fin ∧ m.byte (m.skipPos p) = c) ∧
      Conf.nextIs c (m.rest p) s = (b, s.jumped (m.rest p)) := by
  have hfin := skipPos_le hp
  have hjump := conf_jumpspace hp s
  have hyield := jumpspace_yields hp s
  rcases Nat.lt_or_ge (m.skipPos p) m.fin with hlt | hge
  · refine ⟨decide (m.byte (m.skipPos p) = c), hyield.bind ?_,
      fun h => ⟨hlt, of_decide_eq_true h⟩, ?_⟩
    · intro fuel _
      show (if m.skipPos p < m.fin then _ else _) = _
      rw [if_pos hlt, Memory.read_ok hfin, ok_bind]
    · rw [Conf.nextIs, hjump, Memory.rest_cons hlt]
      simp only [List.head?_cons, Prod.mk.injEq, and_true]
      exact Bool.eq_iff_iff.mpr (by simp)
  · refine ⟨false, hyield.bind ?_, by simp, ?_⟩
    · intro fuel _
      show (if m.skipPos p < m.fin then _ else _) = _
      rw [if_neg (Nat.not_lt.mpr hge)]
    · rw [Conf.nextIs, hjump, Memory.rest_end hge]
      rfl

/-! ## 名前と値の写し -/

theorem readBytes_eq (hn : p + n ≤ m.fin + 1) : readBytes m p n = .ok (m.slice p n) := by
  induction n generalizing p with
  | zero => rfl
  | succ n ih =>
    rw [readBytes, Memory.read_ok (by omega), ok_bind, ih (by omega), ok_bind, Memory.slice]

theorem readText_eq (hn : p + n ≤ m.fin + 1) :
    readText m p n = .ok ((m.slice p n).takeWhile (· != 0)) := by
  induction n generalizing p with
  | zero => rfl
  | succ n ih =>
    rw [readText, Memory.read_ok (by omega), ok_bind, Memory.slice]
    by_cases hb : m.byte p = 0
    · rw [if_pos hb, List.takeWhile_cons_of_neg (by simp [hb])]
    · rw [if_neg hb, ih (by omega), ok_bind, List.takeWhile_cons_of_pos (by simp [hb])]

theorem rcStrncpy_eq {t : Token} (ht : t.start + t.len ≤ m.fin) (dl : Nat) :
    rcStrncpy m dl t = .ok (Conf.rcStrncpy dl (m.slice t.start t.len)) := by
  unfold rcStrncpy Conf.rcStrncpy
  rw [Memory.length_slice]
  split
  · rw [readText_eq (by omega), List.take_of_length_le (Nat.le_of_eq (m.length_slice _ _))]
  · rename_i hlong
    rw [readText_eq (by omega), Memory.slice_eq_take (by omega), Memory.slice_eq_take ht,
      List.take_take, Nat.min_eq_left (by omega)]

theorem checkKeyword_eq {t : Token} (ht : t.start + t.len ≤ m.fin) :
    checkKeyword m t = .ok (Conf.checkKeyword (m.slice t.start t.len)) := by
  unfold checkKeyword
  split
  · rw [readBytes_eq (by omega), ok_bind]
  · rename_i hlen
    have hnot : keywordList.contains (m.slice t.start t.len) = false := by
      rw [Bool.eq_false_iff]
      intro hmem
      refine hlen (List.contains_iff_mem.mpr ?_)
      exact List.mem_map.mpr ⟨_, List.contains_iff_mem.mp hmem, m.length_slice _ _⟩
    rw [Conf.checkKeyword, if_neg (by rw [hnot]; decide)]

/-- 名前の後に書いた 0 までを印字する。 -/
theorem printText_ok (m' : Memory) (hfin : m'.fin = m.fin) {e : Nat} (he : e ≤ m.fin)
    (hzero : m'.byte e = 0) (hpe : p ≤ e) :
    Yields (e - p + 1) (fun fuel => printText m' fuel p) () := by
  induction hn : e - p generalizing p with
  | zero =>
    obtain rfl : p = e := by omega
    refine Yields.of_succ fun fuel _ => ?_
    show printText m' (fuel + 1) p = _
    rw [printText, Memory.read_ok (by omega), ok_bind, if_pos hzero]
  | succ n ih =>
    refine Yields.of_succ fun fuel hfuel => ?_
    show printText m' (fuel + 1) p = _
    rw [printText, Memory.read_ok (by omega), ok_bind]
    split
    · rfl
    · exact ih (p := p + 1) (by omega) (by omega) fuel hfuel

end RecordServer.Conf.Pointer
