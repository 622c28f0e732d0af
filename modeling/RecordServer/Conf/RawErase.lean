import RecordServer.Conf.RawParser

/-!
# 記録を忘れる

記録と、局所変数の指す先と長さの区別を忘れると、`Conf.Pconf` の parser になる。

* `findValid_end` / `findValid_bad` / `findValid_token` — 並びを取る関数の三つの結果
* `parseLoop_erase` / `parse_erase` — 忘れると、`name` の文字列だけを見る parser に等しい
-/

namespace RecordServer.Conf.Raw

open Infra

/-! ## 対応 -/

/-- `name` と `name_len` から出来る文字列だけを残した環境。 -/
def Locals.env (locals : Locals) (env : Env) : Env :=
  { env with name := fun n => (locals.name n).map (text · (locals.nameLen n)) }

/-- 指している文字列。`none` は `NULL` である。 -/
def Out.word (out : Out) : Option Bytes := out.o.map (text · out.len)

def eraseToken : Bytes × Out × State → Bytes × Option Bytes × Pconf
  | (p, out, s) => (p, out.word, s.pconf)

/-- 出力引数を、呼ぶ前の値 `old` から読む。 -/
def readToken (old : Option Bytes) : Bytes × Written × Pconf → Bytes × Option Bytes × Pconf
  | (p, w, s) => (p, w.read old, s)

def eraseResult : Result → Conf.Result
  | (r, s, cn) => (r, s.pconf, cn)

def eraseEntry : Step × State × Fields → Step × Pconf × Fields
  | (st, s, f) => (st, s.pconf, f)

def Head.erase : Head → Conf.Head
  | .returns r s => .returns r s.pconf
  | .name n p s => .name n p s.pconf

/-! ## 字句 -/

variable {env : Env} {locals : Locals} {t : Table} {p p₁ q w : Bytes} {out : Out} {s : State}

/-- 区切りを読み飛ばした後の状態。 -/
def State.jumped (s : State) (p : Bytes) : State := { s with pconf := s.pconf.jumped p }

@[simp] theorem jumped_pconf (s : State) (p : Bytes) :
    (s.jumped p).pconf = s.pconf.jumped p := rfl

@[simp] theorem record_pconf (s : State) (e : Event) : (s.record e).pconf = s.pconf := rfl

theorem jumpspace_eq (p : Bytes) (s : State) : jumpspace p s = (skip p, s.jumped p) := by
  simp only [jumpspace, Conf.jumpspace_eq, State.jumped]

/-- 並びを読む loop が調べる文字。並びと、その次の文字である。 -/
def looked (c : UInt8 → Bool) (p : Bytes) : Bytes := p.takeWhile c ++ (p.dropWhile c).take 1

def State.tested (s : State) (t : Table) (bs : Bytes) : State :=
  { s with events := s.events ++ bs.map (.test t) }

theorem scan_eq (env : Env) (t : Table) (p : Bytes) (s : State) :
    scan env t p s = (p.dropWhile (t.valid env), s.tested t (looked (t.valid env) p)) := by
  induction p generalizing s with
  | nil => simp [scan, looked, State.tested]
  | cons b p ih =>
    by_cases hb : t.valid env b = true
    · simp [scan, test, hb, ih, looked, State.tested, State.record]
    · simp [scan, test, hb, looked, State.tested, State.record]

theorem findValid_end (hp : skip p = []) : findValid env t p out s = ([], out, s.jumped p) := by
  simp only [findValid, jumpspace_eq, hp]

theorem findValid_bad {b : UInt8} (hp : skip p = b :: q) (hb : t.valid env b = false) :
    findValid env t p out s = (b :: q, ⟨none, 0⟩,
      ((s.jumped p).tested t [b]).report .illegalChar (b :: q)) := by
  simp [findValid, jumpspace_eq, hp, test, hb, State.tested, State.record]

theorem findValid_token (hsep : Sep p p₁) (hsolid : Solid p₁) (hrun : Run (t.valid env) p₁ w q) :
    findValid env t p out s = (q, ⟨some p₁, w.length⟩,
      (s.jumped p).tested t (p₁.take 1 ++ looked (t.valid env) p₁)) := by
  obtain ⟨b, w', hw, hp₁, hb⟩ := hrun.head
  have hskip := hsep.skip_eq hsolid
  have hlen : (p₁.length : Int) - q.length = w.length := by
    rw [hrun.split, List.length_append]
    omega
  rw [hp₁] at hskip
  simp only [findValid, jumpspace_eq, hskip, test, hb, if_true]
  rw [← hp₁, scan_eq, hrun.dropWhile_eq, hlen, hp₁]
  simp [State.tested, State.record]

theorem text_run (hrun : Run (t.valid env) p w q) : text p w.length = w := by
  rw [text, Int.toNat_natCast, hrun.split, List.take_left]

theorem findValid_erase (env : Env) (t : Table) (p : Bytes) (out : Out) (s : State) :
    eraseToken (findValid env t p out s)
      = readToken out.word (Conf.findValid (t.valid env) p s.pconf) := by
  cases hp : skip p with
  | nil =>
    rw [findValid_end hp, Conf.findValid_end hp]
    rfl
  | cons b q =>
    obtain ⟨hsep, hsolid⟩ := sep_skip (p := p) (by simp [hp])
    rw [hp] at hsep hsolid
    by_cases hb : t.valid env b = true
    · have hrun : Run (t.valid env) (b :: q) _ _ := .of_head hb
      rw [findValid_token hsep hsolid hrun, Conf.findValid_token hsep hsolid hrun]
      simp [eraseToken, readToken, Out.word, text_run hrun, Written.read, State.tested,
        State.jumped]
    · rw [findValid_bad hp (by simpa using hb)]
      simp [Conf.findValid, Conf.jumpspace_eq, hp, hb, eraseToken, readToken, Out.word,
        Written.read, State.tested, State.jumped, State.report]

/-- 対応する二つの結果は、どちらも文字列を得たか、どちらも `NULL` である。 -/
theorem token_cases {old : Option Bytes} {x : Bytes × Out × State} {y : Bytes × Written × Pconf}
    (h : eraseToken x = readToken old y) :
    (∃ q o len s' w, x = (q, ⟨some o, len⟩, s') ∧ y = (q, w, s'.pconf) ∧
      w.read old = some (text o len)) ∨
    (∃ q len s' w, x = (q, ⟨none, len⟩, s') ∧ y = (q, w, s'.pconf) ∧ w.read old = none) := by
  obtain ⟨q, ⟨o, len⟩, s'⟩ := x
  obtain ⟨q', w, c⟩ := y
  simp only [eraseToken, readToken, Prod.mk.injEq] at h
  obtain ⟨rfl, hw, rfl⟩ := h
  cases o with
  | some o => exact Or.inl ⟨q, o, len, s', w, rfl, rfl, hw.symm⟩
  | none => exact Or.inr ⟨q, len, s', w, rfl, rfl, hw.symm⟩

/-- `NULL` だった変数が文字列になるのは、書かれたときだけである。 -/
theorem token_of_read {w : Written} {v : Bytes} (h : w.read none = some v) : w = .token v := by
  cases w with
  | untouched => cases h
  | null => cases h
  | token v' =>
    cases h
    rfl

theorem findValidName_erase (env : Env) (locals : Locals) (p : Bytes) (out : Out) (s : State) :
    eraseToken (findValidName env p out s)
      = readToken out.word (Conf.findValidName (locals.env env) p s.pconf) :=
  findValid_erase env .name p out s

theorem findValidValue_erase (env : Env) (locals : Locals) (p : Bytes) (len : Int) (s : State) :
    eraseToken (findValidValue env p len s)
      = readToken none (Conf.findValidValue (locals.env env) p s.pconf) := by
  have h : _ = readToken none (Conf.findValid (validvalue (locals.env env)) p s.pconf) :=
    findValid_erase env .value p ⟨none, len⟩ s
  simp only [findValidValue, Conf.findValidValue]
  rcases token_cases h with ⟨q, o, l, s', w, hx, hy, hw⟩ | ⟨q, l, s', w, hx, hy, hw⟩
  · cases token_of_read hw
    simp only [hx, hy, jumpspace_eq, Conf.jumpspace_eq]
    by_cases hend : deref (skip q) = semicolon
    · simp only [if_pos hend]
      rfl
    · simp only [if_neg hend]
      rfl
  · rw [hx, hy]
    cases w with
    | untouched => rfl
    | null => rfl
    | token v => cases hw

theorem findValidArrayValue_erase (env : Env) (locals : Locals) (p : Bytes) (len : Int)
    (s : State) :
    eraseToken (findValidArrayValue env p len s)
      = readToken none (Conf.findValidArrayValue (locals.env env) p s.pconf) := by
  have h : _ = readToken none (Conf.findValid (validvalue (locals.env env)) p s.pconf) :=
    findValid_erase env .value p ⟨none, len⟩ s
  simp only [findValidArrayValue, Conf.findValidArrayValue]
  rcases token_cases h with ⟨q, o, l, s', w, hx, hy, hw⟩ | ⟨q, l, s', w, hx, hy, hw⟩
  · cases token_of_read hw
    simp only [hx, hy, jumpspace_eq, Conf.jumpspace_eq]
    rfl
  · rw [hx, hy]
    cases w with
    | untouched => rfl
    | null => rfl
    | token v => cases hw

theorem isSubNode_eq (p : Bytes) (s : State) :
    isSubNode p s = ((skip p).head? == some lbrace, (s.record (.ahead p)).jumped p) := by
  simp only [isSubNode, nextIs, jumpspace_eq]

theorem isArrayNode_eq (p : Bytes) (s : State) :
    isArrayNode p s = ((skip p).head? == some lbracket, (s.record (.ahead p)).jumped p) := by
  simp only [isArrayNode, nextIs, jumpspace_eq]

/-! ## 構文 -/

variable {sub arr : Bytes → State → Option Result}
  {sub' arr' : Bytes → Pconf → Option Conf.Result}

theorem parseArraylhLoop_erase (env : Env) (locals : Locals) (fuel : Nat) (need : Bool) (p : Bytes)
    (s : State) :
    (parseArraylhLoop env locals fuel need p s).map eraseResult
      = Conf.parseArraylhLoop (locals.env env) fuel need p s.pconf := by
  induction fuel generalizing need p s with
  | zero => rfl
  | succ fuel ih =>
    cases p with
    | nil => rfl
    | cons a p =>
      simp only [parseArraylhLoop, Conf.parseArraylhLoop, jumpspace_eq, Conf.jumpspace_eq]
      cases skip (a :: p) with
      | nil => rfl
      | cons b rest =>
        by_cases hb : b = rbracket
        · simp only [if_pos hb]
          rfl
        · by_cases hneed : need = true ∧ b ≠ comma
          · simp only [if_neg hb, if_pos hneed]
            rfl
          · simp only [if_neg hb, if_neg hneed]
            rcases token_cases (findValidArrayValue_erase env locals (if need then rest else b :: rest)
              (locals.valueLen (a :: p).length) (s.jumped (a :: p))) with
              ⟨q, o, l, s', w, hx, hy, hw⟩ | ⟨q, l, s', w, hx, hy, hw⟩
            · rw [jumped_pconf] at hy
              simp only [hx, hy, hw]
              by_cases hq : q = []
              · simp only [if_pos hq]
                rfl
              · simp only [if_neg hq, ← ih, Option.map_map]
                rfl
            · rw [jumped_pconf] at hy
              simp only [hx, hy, hw]
              rfl

theorem parseArraylh_erase (env : Env) (locals : Locals) (fuel : Nat) (p : Bytes) (s : State) :
    (parseArraylh env locals fuel p s).map eraseResult
      = Conf.parseArraylh (locals.env env) fuel p s.pconf :=
  parseArraylhLoop_erase env locals fuel false p s.levelUp

theorem parseValue_erase (env : Env) (locals : Locals) (name p : Bytes) (s : State) :
    (parseValue env name p s).map eraseEntry
      = Conf.parseValue (locals.env env) name p s.pconf := by
  simp only [parseValue, Conf.parseValue]
  rcases token_cases (findValidValue_erase env locals p 0 s) with
    ⟨q, o, l, s', w, hx, hy, hw⟩ | ⟨q, l, s', w, hx, hy, hw⟩
  · simp only [hx, hy, hw]
    by_cases hq : q = []
    · simp only [if_pos hq]
      rfl
    · simp only [if_neg hq]
      rfl
  · simp only [hx, hy, hw]
    rfl

/-- 中の並びを読む関数の対応。 -/
def Erases (sub : Bytes → State → Option Result) (sub' : Bytes → Pconf → Option Conf.Result) :
    Prop := ∀ p s, (sub p s).map eraseResult = sub' p s.pconf

theorem parseProc_erase (hsub : Erases sub sub') (env : Env) (locals : Locals) (p : Bytes)
    (s : State) :
    (parseProc sub env p s).map eraseEntry
      = Conf.parseProc sub' (locals.env env) p s.pconf := by
  simp only [parseProc, Conf.parseProc]
  rcases token_cases (findValidName_erase env locals p ⟨none, 0⟩ s) with
    ⟨q, o, l, s', w, hx, hy, hw⟩ | ⟨q, l, s', w, hx, hy, hw⟩
  · have hw : w.read none = some (text o l) := hw
    simp only [hx, hy, hw, jumpspace_eq, Conf.jumpspace_eq]
    by_cases hq : q = []
    · simp only [if_pos hq]
      rfl
    · by_cases hopen : deref (skip q) = lbrace
      · have h := hsub (skip q).tail (s'.jumped q)
        rw [jumped_pconf] at h
        simp only [if_neg hq, if_pos hopen, ← h, Option.map_map]
        rfl
      · simp only [if_neg hq, if_neg hopen]
        rfl
  · have hw : w.read none = none := hw
    simp only [hx, hy, hw]
    rfl

theorem parseKeyword_erase (hsub : Erases sub sub') (env : Env) (locals : Locals) (top : Bool)
    (name p : Bytes) (s : State) :
    (parseKeyword sub env top name p s).map eraseEntry
      = Conf.parseKeyword sub' (locals.env env) top name p s.pconf := by
  simp only [parseKeyword, Conf.parseKeyword]
  cases checkKeyword name with
  | charT => exact parseValue_erase env locals name p s
  | procModT =>
    cases top with
    | true => exact parseProc_erase hsub env locals p s
    | false => rfl
  | _ => rfl

theorem parseEntry_erase (hsub : Erases sub sub') (harr : Erases arr arr') (env : Env)
    (locals : Locals) (top : Bool) (name p : Bytes) (s : State) :
    (parseEntry sub arr env top name p s).map eraseEntry
      = Conf.parseEntry sub' arr' (locals.env env) top name p s.pconf := by
  simp only [parseEntry, Conf.parseEntry, isSubNode_eq, isArrayNode_eq, Conf.isSubNode_eq,
    Conf.isArrayNode_eq, jumpspace_eq, Conf.jumpspace_eq]
  by_cases hlb : (skip p).head? = some lbrace
  · simp only [beq_iff_eq.mpr hlb, if_true, Option.map_map]
    have h := hsub (skip p).tail (((s.record (.ahead p)).jumped p).jumped p)
    simp only [jumped_pconf, record_pconf] at h
    rw [← h, Option.map_map]
    rfl
  · simp only [beq_eq_false_iff_ne.mpr hlb, Bool.false_eq_true, if_false]
    by_cases hlk : (skip p).head? = some lbracket
    · simp only [beq_iff_eq.mpr hlk, if_true, Option.map_map]
      have h := harr (skip p).tail
        (((((s.record (.ahead p)).jumped p).record (.ahead p)).jumped p).jumped p)
      simp only [jumped_pconf, record_pconf] at h
      rw [← h, Option.map_map]
      rfl
    · simp only [beq_eq_false_iff_ne.mpr hlk, Bool.false_eq_true, if_false]
      exact parseKeyword_erase hsub env locals top name p _

theorem parseMainHead_erase (env : Env) (locals : Locals) (p : Bytes) (s : State) :
    (parseMainHead env locals p s).erase = Conf.parseMainHead (locals.env env) p s.pconf := by
  simp only [parseMainHead, Conf.parseMainHead]
  rcases token_cases (findValidName_erase env locals p
    ⟨locals.name p.length, locals.nameLen p.length⟩ s) with
    ⟨q, o, l, s', w, hx, hy, hw⟩ | ⟨q, l, s', w, hx, hy, hw⟩
  · have hw : w.read ((locals.env env).name p.length) = some (text o l) := hw
    simp only [hx, hy, hw]
    by_cases hq : q = []
    · simp only [if_pos hq]
      rfl
    · simp only [if_neg hq]
      rfl
  · have hw : w.read ((locals.env env).name p.length) = none := hw
    simp only [hx, hy, hw]
    rfl

theorem parseSmodlhHead_erase (env : Env) (locals : Locals) (p : Bytes) (s : State) :
    (parseSmodlhHead env locals p s).erase = Conf.parseSmodlhHead (locals.env env) p s.pconf := by
  simp only [parseSmodlhHead, Conf.parseSmodlhHead, jumpspace_eq, Conf.jumpspace_eq]
  cases skip p with
  | nil => rfl
  | cons b rest =>
    by_cases hb : b = rbrace
    · simp only [if_pos hb]
      rfl
    · simp only [if_neg hb]
      rcases token_cases (findValidName_erase env locals (b :: rest)
        ⟨locals.name p.length, locals.nameLen p.length⟩ (s.jumped p)) with
        ⟨q, o, l, s', w, hx, hy, hw⟩ | ⟨q, l, s', w, hx, hy, hw⟩
      · have hw : w.read ((locals.env env).name p.length) = some (text o l) := hw
        rw [jumped_pconf] at hy
        simp only [hx, hy, hw]
        by_cases hq : q = []
        · simp only [if_pos hq]
          rfl
        · simp only [if_neg hq]
          rfl
      · have hw : w.read ((locals.env env).name p.length) = none := hw
        rw [jumped_pconf] at hy
        simp only [hx, hy, hw]
        rfl

theorem parseHead_erase (env : Env) (locals : Locals) (top : Bool) (p : Bytes) (s : State) :
    (parseHead env locals top p s).erase = Conf.parseHead (locals.env env) top p s.pconf := by
  cases top with
  | true => exact parseMainHead_erase env locals p s
  | false => exact parseSmodlhHead_erase env locals p s

theorem afterEntry_erase {loop : Bytes → State → Option Result}
    {loop' : Bytes → Pconf → Option Conf.Result} (hloop : Erases loop loop')
    (x : Step × State × Fields) :
    (afterEntry loop x).map eraseResult = Conf.afterEntry loop' (eraseEntry x) := by
  obtain ⟨st, s, f⟩ := x
  match st with
  | .returnNull => rfl
  | .goOn none => rfl
  | .goOn (some p) =>
    simp only [afterEntry, eraseEntry, Conf.afterEntry, ← hloop p s, Option.map_map]
    rfl

/-- **記録を忘れると、`name` の指す文字列だけを見る loop に等しい。** -/
theorem parseLoop_erase (env : Env) (locals : Locals) (fuel : Nat) (top : Bool) (p : Bytes)
    (s : State) :
    (parseLoop env locals fuel top p s).map eraseResult
      = Conf.parseLoop (locals.env env) fuel top p s.pconf := by
  induction fuel generalizing top p s with
  | zero => rfl
  | succ fuel ih =>
    cases p with
    | nil => rfl
    | cons b p =>
      have hhead := parseHead_erase env locals top (b :: p) s
      simp only [parseLoop, Conf.parseLoop, ← hhead]
      cases parseHead env locals top (b :: p) s with
      | returns r s' => rfl
      | name n q s' =>
        have hsub : Erases (fun p s => parseLoop env locals fuel false p s.levelUp)
            (fun p s => Conf.parseLoop (locals.env env) fuel false p s.levelUp) :=
          fun p s => ih false p s.levelUp
        have hentry := parseEntry_erase hsub (parseArraylh_erase env locals fuel) env locals top n q s'
        simp only [Head.erase, ← hentry, Option.map_bind, Option.bind_map]
        refine Option.bind_congr fun x _ => ?_
        exact afterEntry_erase (ih top) x

/-- **記録を忘れると、`parse` の返り値・状態・木は、`name` の指す文字列だけで決まる。** -/
theorem parse_erase (env : Env) (locals : Locals) (buf : Bytes) :
    (parse env locals buf).map (fun r => (r.1, r.2.1.pconf, r.2.2))
      = Conf.parse (locals.env env) buf := by
  have h : _ = Conf.parseMain (locals.env env) (buf.length + 1) buf ⟨1, 0, []⟩ :=
    parseLoop_erase env locals (buf.length + 1) true buf ⟨⟨1, 0, []⟩, []⟩
  rw [parse, Conf.parse, ← h, Option.map_map, Option.map_map]
  refine Option.map_congr fun x _ => ?_
  obtain ⟨r, s, cn⟩ := x
  by_cases hok : r = some [] ∧ s.pconf.level = 0
  · simp [eraseResult, hok]
  · by_cases hlevel : s.pconf.level > 0
    · simp [eraseResult, hok, hlevel, State.report]
    · simp [eraseResult, hok, hlevel]

end RecordServer.Conf.Raw
