import RecordServer.Conf.PointerBlock

/-!
# 読み進み

どの関数も `end` を越えて読まずに終わり、返す位置は `p` と `end` の間にある。loop の一周が続けるなら一つ以上進み、閉じ括弧で
返る `parse_smodlh` と `parse_arraylh` は `level` を呼ばれたときの値に戻す。

* `parseMain_suffix` — 番地の parser と、残りの byte 列の parser は同じ結果になる
* `Progress` — 一つの位置から始めた全ての関数
* `scans_progress` — どの buffer のどの位置でも `Progress`
-/

namespace RecordServer.Conf.Pointer

open Infra

variable {m : Memory} {env : Env} {old : Nat → Option Token} {p : Nat} {s : Pconf}

/--
**番地の parser は、残りの byte 列の parser と同じ結果になる。**

位置は残りの byte 列に、出力の節と状態はそのまま対応する。
-/
theorem parseMain_suffix (env : Env) (old : Nat → Option Token) (hp : p ≤ m.fin) (s : Pconf) :
    ∃ r, parseMain env old m (m.fin - p + 1) p s = .ok r ∧
      Conf.parseMain (m.suffixEnv env old) (m.fin - p + 1) (m.rest p) s = some (m.result r) := by
  obtain ⟨r, hr⟩ := parseMain_reads env old hp s
  exact ⟨r, hr.yields _ (Nat.le_refl _), hr.suffix _ (Nat.le_refl _)⟩

/-! ## 述べること -/

/-- 終わって、`p` と `end` の間の位置を返す。`end` より後ろを読めば、この結果にはならない。 -/
def Scanned {α : Type} (m : Memory) (p : Nat) (f : Nat → Except Stop (Nat × α)) : Prop :=
  ∃ r, Yields (m.fin - p + 1) f r ∧ p ≤ r.1 ∧ r.1 ≤ m.fin

/-- 終わって、`NULL` か、`p` と `end` の間の位置を返す。返したものは `P` を満たす。 -/
def Returned (m : Memory) (p : Nat) (f : Nat → Except Stop Result) (P : Result → Prop) : Prop :=
  ∃ r, Yields (m.fin - p + 1) f r ∧ (∀ q, r.1.pos = some q → p ≤ q ∧ q ≤ m.fin) ∧ P r

/-- 閉じ括弧で返るなら、`level` は `level` に戻っている。 -/
def Closes (level : Int) (r : Result) : Prop := ∀ q, r.1 = .closed q → r.2.1.level = level

/-- 一周が終わり、続けるなら一つ以上進んでいる。 -/
def Advances (m : Memory) (p : Nat) (turn : Nat → Except Stop Turn) : Prop :=
  ∃ t, Yields (m.fin - p) turn t ∧ ∀ q s' node, t = .next q s' node → p < q ∧ q ≤ m.fin

/-- 位置 `p`、状態 `s` から始めた関数と loop の一周。 -/
structure Progress (env : Env) (old : Nat → Option Token) (m : Memory) (p : Nat) (s : Pconf) :
    Prop where
  jumpspace : Scanned m p fun fuel => jumpspace m fuel p s
  jumpcomment : Scanned m p fun fuel => jumpcomment m fuel p s
  findValidName : Scanned m p fun fuel => findValidName env m fuel p s
  findValidValue : Scanned m p fun fuel => findValidValue env m fuel p s
  findValidArrayValue : Scanned m p fun fuel => findValidArrayValue env m fuel p s
  parseMain : Returned m p (fun fuel => parseMain env old m fuel p s) fun _ => True
  parseSmodlh : Returned m p (fun fuel => parseSmodlh env old m fuel p s) (Closes s.level)
  parseArraylh : Returned m p (fun fuel => parseArraylh env m fuel p s) (Closes s.level)
  /-- `parse_main`（`top`）と `parse_smodlh` の一周 -/
  turn : ∀ top, p < m.fin → Advances m p fun fuel =>
    parseTurn (fun p s => parseLoop env old m fuel false p s.levelUp)
      (Pointer.parseArraylh env m fuel) env old m (fuel + 1) top p s
  arraylhTurn : ∀ need, p < m.fin → Advances m p fun fuel => arraylhTurn env m (fuel + 1) need p s

/-! ## 部品から -/

theorem Lexed.scanned {f : Nat → Except Stop (Nat × Written × Pconf)} {r : Nat × Written × Pconf}
    (h : Lexed m p s r) (hf : Yields (m.fin - p + 1) f r) : Scanned m p f :=
  ⟨r, hf, h.le, h.le_fin⟩

theorem Reads.returned {level : Int} {f : Nat → Except Stop Result}
    {g : Nat → Option Conf.Result} {r : Result} (h : Reads m p level f g r) :
    Returned m p f (Closes level) :=
  ⟨r, h.yields, h.parsed.bounds, fun q hq => (h.parsed.closed q hq).2⟩

theorem TurnOk.advances {turn : Nat → Except Stop Turn} {t : Turn} (h : TurnOk m p s t)
    (hturn : Yields (m.fin - p) turn t) : Advances m p turn := by
  refine ⟨t, hturn, fun q s' node hnext => ?_⟩
  obtain ⟨hlt, hfin, -⟩ := h.next q s' node hnext
  exact ⟨hlt, hfin⟩

theorem parseTurn_advances (env : Env) (old : Nat → Option Token) (top : Bool) (hp : p < m.fin)
    (s : Pconf) : Advances m p fun fuel =>
      parseTurn (fun p s => parseLoop env old m fuel false p s.levelUp) (parseArraylh env m fuel)
        env old m (fuel + 1) top p s := by
  have hsub : Calls m (p + 1) (parseSmodlh env old m) (Conf.parseSmodlh (m.suffixEnv env old)) :=
    fun q s' _ hq => parseSmodlh_reads env old hq s'
  have harr : Calls m (p + 1) (parseArraylh env m) (Conf.parseArraylh env) :=
    fun q s' _ hq => parseArraylh_reads env hq s'
  obtain ⟨t, ht, hok, -⟩ := parseTurn_spec hsub harr env old top hp s
  exact hok.advances ht

/--
**どの関数も、`end` を越えて読まずに終わり、進む。**

buffer の中身も、初期化されない `name` も、表の外を引いた値も問わない。
-/
theorem scans_progress (env : Env) (old : Nat → Option Token) (m : Memory) (p : Nat) (s : Pconf)
    (hp : p ≤ m.fin) : Progress env old m p s where
  jumpspace := ⟨_, jumpspace_yields hp s, le_skipPos hp, skipPos_le hp⟩
  jumpcomment := by
    obtain ⟨q, s', hq, hle, hfin, -⟩ := jumpcomment_spec hp s
    exact ⟨(q, s'), hq, hle, hfin⟩
  findValidName := by
    obtain ⟨r, hr, hlex, -⟩ := findValid_spec (validname env) hp s
    exact hlex.scanned hr
  findValidValue := by
    obtain ⟨r, hr, hlex, -⟩ := findValidValue_spec env hp s
    exact hlex.scanned hr
  findValidArrayValue := by
    obtain ⟨r, hr, hlex, -⟩ := findValidArrayValue_spec env hp s
    exact hlex.scanned hr
  parseMain := by
    obtain ⟨r, hr⟩ := parseMain_reads env old hp s
    exact ⟨r, hr.yields, hr.parsed.bounds, trivial⟩
  parseSmodlh := by
    obtain ⟨r, hr⟩ := parseSmodlh_reads env old hp s
    exact hr.returned
  parseArraylh := by
    obtain ⟨r, hr⟩ := parseArraylh_reads env hp s
    exact hr.returned
  turn top hlt := parseTurn_advances env old top hlt s
  arraylhTurn need hlt := by
    obtain ⟨t, ht, hok, -⟩ := arraylhTurn_spec env hlt need s
    exact hok.advances (Yields.succ ht)

/-- `a{b c;}` と改行の入った buffer。 -/
def blockMemory : Memory where
  byte i := (ascii "a{b c;}" ++ [newline]).getD i 0
  fin := 8
  zero := rfl

theorem scans_progress_block :
    Progress ⟨fun _ => false, fun _ => false, fun _ => none⟩ (fun _ => none) blockMemory 0
      ⟨1, 0, []⟩ :=
  scans_progress _ _ _ _ _ (Nat.zero_le _)

example : (parseSmodlh ⟨fun _ => false, fun _ => false, fun _ => none⟩ (fun _ => none) blockMemory
    7 2 ⟨1, 0, []⟩).map (fun r => (r.1, r.2.1.level)) = .ok (.closed 7, 0) := by decide

end RecordServer.Conf.Pointer
