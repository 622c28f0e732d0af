import RecordServer.Conf.PointerRun

/-!
# 番地で読む loop

`parse_main` と `parse_smodlh` の一周は、名前を読んで一つ以上進み、そこから項目を読む。内側の loop はその先から始まるので、
残りの長さについての帰納法で、入れ子の loop も外側の loop も終わる。

* `Memory.suffixEnv` — 初期化されない `name` を、残りの byte の数で引く
* `HeadOk` / `parseHead_spec` — 周回の始め
* `parseTurn_spec` — 一周
* `parseLoop_reads` / `parseMain_reads` / `parseSmodlh_reads`
-/

namespace RecordServer.Conf.Pointer

open Infra

variable {m : Memory} {env : Env} {old : Nat → Option Token} {p q : Nat} {s : Pconf}

/-- `end` からの隔たりで引いた、初期化されない `name`。指している文字は、どの結果にも現れない。 -/
def Memory.suffixEnv (m : Memory) (env : Env) (old : Nat → Option Token) : Env :=
  { env with name := fun n => (old (m.fin - n)).map fun _ => [] }

theorem Memory.suffixEnv_name (env : Env) (old : Nat → Option Token) (hp : p ≤ m.fin) :
    (m.suffixEnv env old).name (m.rest p).length = (old p).map fun _ => [] := by
  show (old (m.fin - (m.rest p).length)).map _ = _
  rw [length_rest, Nat.sub_sub_self hp]

/-! ## 周回の始め -/

/-- 周回の始めが、名前とその後の位置を得るか、そのまま返るか。 -/
structure HeadOk (m : Memory) (p : Nat) (s : Pconf) (h : Head) : Prop where
  name : ∀ t q s', h = .name t q s' →
    p < q ∧ q < m.fin ∧ t.len ≤ q - p ∧ t.start + t.len ≤ q ∧ s'.level = s.level
  returns : ∀ e s', h = .returns e s' → TurnOk m p s (.returns (e, s', newNode))

theorem HeadOk.null (s' : Pconf) : HeadOk m p s (.returns .null s') := by
  refine ⟨nofun, ?_⟩
  rintro _ _ ⟨⟩
  exact .null _ _

/-- 位置を残りの byte 列に替える。 -/
def Memory.head (m : Memory) : Head → Conf.Head
  | .returns e s => .returns (e.pos.map m.rest) s
  | .name t p s => .name (m.slice t.start t.len) (m.rest p) s

/-- 名前を読めて `end` に達していなければ、名前の分だけ進んでいる。 -/
theorem Lexed.head {t : Token} {s₁ s₂ : Pconf} {e : Nat} (h : Lexed m q s₁ (e, .token t, s₂))
    (hpq : p ≤ q) (hlevel : s₁.level = s.level) (hlt : e < m.fin) :
    HeadOk m p s (.name t e s₂) := by
  obtain ⟨hstart, hlen, hend⟩ := h.token t rfl
  have hlevel₂ : s₂.level = s₁.level := h.level
  simp only at hend
  refine ⟨?_, nofun⟩
  rintro _ _ _ ⟨⟩
  exact ⟨by omega, hlt, by omega, hend, hlevel₂.trans hlevel⟩

theorem HeadOk.atEnd (hp : p ≤ m.fin) (s' : Pconf) : HeadOk m p s (.returns (.atEnd m.fin) s') := by
  refine ⟨nofun, ?_⟩
  rintro _ _ ⟨⟩
  refine ⟨?_, nofun⟩
  rintro _ ⟨⟩
  refine ⟨?_, ?_, nofun⟩
  · rintro _ ⟨⟩
    exact ⟨hp, Nat.le_refl _⟩
  · rintro _ ⟨⟩
    rfl

theorem parseMainHead_spec (env : Env) (old : Nat → Option Token) (hp : p ≤ m.fin) (s : Pconf) :
    ∃ h, Yields (m.fin - p + 1) (fun fuel => parseMainHead env old m fuel p s) h ∧ HeadOk m p s h ∧
      Conf.parseMainHead (m.suffixEnv env old) (m.rest p) s = m.head h := by
  obtain ⟨⟨q, w, s₂⟩, hq, hlex, hsim⟩ := findValid_spec (validname env) hp s
  have hsim' : Conf.findValidName (m.suffixEnv env old) (m.rest p) s =
      (m.rest q, m.written w, s₂) := hsim
  have hname := Memory.suffixEnv_name env old hp
  cases w with
  | untouched =>
    obtain rfl : q = m.fin := hlex.untouched rfl
    cases hold : old p with
    | none =>
      refine ⟨.returns .null (s₂.report .emptyFile (m.rest m.fin)), hq.bind fun _ _ => ?_,
        .null _, ?_⟩
      · simp only [Written.read, hold]
      · rw [Conf.parseMainHead, hsim', hname, hold]
        rfl
    | some t =>
      refine ⟨.returns (.atEnd m.fin) s₂, hq.bind fun _ _ => ?_, .atEnd hp _, ?_⟩
      · simp only [Written.read, hold, if_pos (Nat.le_refl m.fin)]
      · rw [Conf.parseMainHead, hsim', hname, hold, Memory.rest_end (Nat.le_refl _)]
        simp only [Memory.written, Conf.Written.read, Option.map_some, if_true, Memory.head,
          Exit.pos, Memory.rest_end (Nat.le_refl _)]
  | null =>
    refine ⟨.returns .null (s₂.report .emptyFile (m.rest q)), hq.bind fun _ _ => ?_, .null _, ?_⟩
    · simp only [Written.read]
    · rw [Conf.parseMainHead, hsim']
      rfl
  | token t =>
    rcases Nat.lt_or_ge q m.fin with hlt | hge
    · refine ⟨.name t q s₂, hq.bind fun _ _ => ?_, hlex.head (Nat.le_refl p) rfl hlt, ?_⟩
      · simp only [Written.read, if_neg (Nat.not_le.mpr hlt)]
      · rw [Conf.parseMainHead, hsim']
        simp only [Memory.written, Conf.Written.read, Memory.rest_eq_nil,
          if_neg (Nat.not_le.mpr hlt)]
        rfl
    · obtain rfl : q = m.fin := Nat.le_antisymm hlex.le_fin hge
      refine ⟨.returns (.atEnd m.fin) s₂, hq.bind fun _ _ => ?_, .atEnd hp _, ?_⟩
      · simp only [Written.read, if_pos (Nat.le_refl m.fin)]
      · rw [Conf.parseMainHead, hsim']
        simp only [Memory.written, Conf.Written.read, Memory.rest_eq_nil,
          if_pos (Nat.le_refl m.fin)]
        rfl

/-- `parse_smodlh` の周回の始めの、名前を読んだ後。 -/
theorem smodlhName_spec {w : Written} {s₁ s₂ : Pconf} {e : Nat} (hlex : Lexed m q s₁ (e, w, s₂))
    (old : Nat → Option Token) (hpq : p ≤ q) (hlevel : s₁.level = s.level) : ∃ h,
    ((w.read (old p)).elim (.returns .null (s₂.report .uncompletedFile (m.rest e))) fun name =>
      if e ≥ m.fin then .returns .null (s₂.report .uncompletedLine (m.rest e))
      else Head.name name e s₂) = h ∧ HeadOk m p s h ∧
    (((m.written w).read ((old p).map fun _ => [])).elim
      (.returns none (s₂.report .uncompletedFile (m.rest e))) fun name =>
        if m.rest e = [] then .returns none (s₂.report .uncompletedLine (m.rest e))
        else Conf.Head.name name (m.rest e) s₂) = m.head h := by
  cases w with
  | untouched =>
    obtain rfl : e = m.fin := hlex.untouched rfl
    cases hold : old p with
    | none =>
      refine ⟨.returns .null (s₂.report .uncompletedFile (m.rest m.fin)), ?_, .null _, rfl⟩
      simp only [Written.read, Option.elim]
    | some t =>
      refine ⟨.returns .null (s₂.report .uncompletedLine (m.rest m.fin)), ?_, .null _, ?_⟩
      · simp only [Written.read, Option.elim, if_pos (Nat.le_refl m.fin)]
      · exact if_pos (Memory.rest_end (Nat.le_refl _))
  | null => exact ⟨.returns .null (s₂.report .uncompletedFile (m.rest e)), rfl, .null _, rfl⟩
  | token t =>
    rcases Nat.lt_or_ge e m.fin with hlt | hge
    · refine ⟨.name t e s₂, if_neg (Nat.not_le.mpr hlt), hlex.head hpq hlevel hlt, ?_⟩
      exact if_neg fun h => Nat.not_le.mpr hlt (Memory.rest_eq_nil.mp h)
    · refine ⟨.returns .null (s₂.report .uncompletedLine (m.rest e)), if_pos hge, .null _, ?_⟩
      exact if_pos (Memory.rest_end hge)

theorem parseSmodlhHead_spec (env : Env) (old : Nat → Option Token) (hp : p ≤ m.fin) (s : Pconf) :
    ∃ h, Yields (m.fin - p + 1) (fun fuel => parseSmodlhHead env old m fuel p s) h ∧
      HeadOk m p s h ∧ Conf.parseSmodlhHead (m.suffixEnv env old) (m.rest p) s = m.head h := by
  have hle := le_skipPos hp
  have hfin := skipPos_le hp
  have hjump := conf_jumpspace hp s
  have hyield := jumpspace_yields hp s
  have hlevel := jumped_level s (m.rest p)
  generalize s.jumped (m.rest p) = s₁ at hjump hyield hlevel
  generalize m.skipPos p = q at hle hfin hjump hyield
  rcases Nat.lt_or_ge q m.fin with hlt | hge
  · have hread := Memory.read_ok (m := m) hfin
    have hrest := Memory.rest_cons hlt
    by_cases hclose : m.byte q = rbrace
    · refine ⟨.returns (.closed (q + 1)) s₁.levelDown, hyield.bind fun _ _ => ?_, ⟨nofun, ?_⟩, ?_⟩
      · show (if q ≥ m.fin then _ else _) = _
        rw [if_neg (by omega), hread, ok_bind, if_pos hclose]
      · rintro _ _ ⟨⟩
        exact .closed (by omega) hlt (by simp [hlevel]) newNode
      · rw [Conf.parseSmodlhHead, hjump]
        simp only [hrest, if_pos hclose]
        rfl
    obtain ⟨⟨e, w, s₂⟩, he, hlex, hsim⟩ := findValid_spec (validname env) hfin s₁
    obtain ⟨h, hhead, hok, hhead'⟩ := smodlhName_spec hlex old hle hlevel
    refine ⟨h, hyield.bind fun fuel hfuel => ?_, hok, ?_⟩
    · have hfind : findValidName env m fuel q s₁ = .ok (e, w, s₂) := he fuel (by omega)
      show (if q ≥ m.fin then _ else _) = _
      rw [if_neg (by omega), hread, ok_bind, if_neg hclose, hfind, ok_bind, ← hhead]
      simp only
      cases w.read (old p) with
      | none => rfl
      | some name => exact (apply_ite Except.ok _ _ _).symm
    · have hsim' : Conf.findValidName (m.suffixEnv env old) (m.byte q :: m.rest (q + 1)) s₁ =
          (m.rest e, m.written w, s₂) := by
        rw [← hrest]
        exact hsim
      rw [Conf.parseSmodlhHead, hjump, Memory.suffixEnv_name env old hp, ← hhead']
      simp only [hrest, if_neg hclose, hsim']
      cases (m.written w).read ((old p).map fun _ => []) <;> rfl
  · refine ⟨.returns .null (s₁.report .exceptClose []), hyield.bind fun _ _ => ?_, .null _, ?_⟩
    · show (if q ≥ m.fin then _ else _) = _
      rw [if_pos hge]
    · rw [Conf.parseSmodlhHead, hjump]
      simp only [Memory.rest_end hge]
      rfl

theorem parseHead_spec (env : Env) (old : Nat → Option Token) (top : Bool) (hp : p ≤ m.fin)
    (s : Pconf) : ∃ h, Yields (m.fin - p + 1) (fun fuel => parseHead env old m fuel top p s) h ∧
      HeadOk m p s h ∧ Conf.parseHead (m.suffixEnv env old) top (m.rest p) s = m.head h := by
  cases top with
  | true => exact parseMainHead_spec env old hp s
  | false => exact parseSmodlhHead_spec env old hp s

/-! ## 一周 -/

/-- 項目を読んで続けるなら、名前の後よりも先へ進んでいる。 -/
theorem afterEntry_ok {n : Nat} {s₁ : Pconf} {f : Nat → Except Stop (Step × Pconf × Fields)}
    {g : Nat → Option (Conf.Step × Pconf × Fields)} {r : Step × Pconf × Fields}
    (h : EntryReads m n q s₁ f g r) (hpq : p < q) (hlevel : s₁.level = s.level) :
    TurnOk m p s (afterEntry r) := by
  obtain ⟨step, s₂, node⟩ := r
  cases step with
  | returnNull => exact .null _ _
  | goOn e =>
    cases e with
    | none => exact .null _ _
    | some e =>
      obtain ⟨hqe, hfin, he⟩ := h.goOn e rfl
      exact .goOn (by omega) hfin (fun hlt => (he hlt).trans hlevel) node

theorem afterEntry_turned (loop : Bytes → Pconf → Option Conf.Result)
    (r : Step × Pconf × Fields) :
    Conf.afterEntry loop (m.step r.1, r.2.1, r.2.2) = m.turned loop (afterEntry r) := by
  obtain ⟨step, s₂, node⟩ := r
  cases step with
  | returnNull => rfl
  | goOn e => cases e <;> rfl

theorem parseTurn_spec {sub arr : Nat → Nat → Pconf → Except Stop Result}
    {sub' arr' : Nat → Bytes → Pconf → Option Conf.Result} (hsub : Calls m (p + 1) sub sub')
    (harr : Calls m (p + 1) arr arr') (env : Env) (old : Nat → Option Token) (top : Bool)
    (hp : p < m.fin) (s : Pconf) : ∃ t,
    Yields (m.fin - p)
      (fun fuel => parseTurn (sub fuel) (arr fuel) env old m (fuel + 1) top p s) t ∧
    TurnOk m p s t ∧ ∀ fuel loop, m.fin - p ≤ fuel →
      (match Conf.parseHead (m.suffixEnv env old) top (m.rest p) s with
        | .returns r s => some (r, s, newNode)
        | .name name p s =>
          (Conf.parseEntry (sub' fuel) (arr' fuel) (m.suffixEnv env old) top name p s).bind
            (Conf.afterEntry loop)) = m.turned loop t := by
  obtain ⟨h, hh, hok, hsim⟩ := parseHead_spec env old top (Nat.le_of_lt hp) s
  have hhead := Yields.succ hh
  cases h with
  | returns e s₁ =>
    refine ⟨.returns (e, s₁, newNode), hhead.bind (.pure _ _), hok.returns e s₁ rfl,
      fun _ _ _ => ?_⟩
    rw [hsim]
    rfl
  | name t q s₁ =>
    obtain ⟨hpq, hq, hlen, hend, hlevel⟩ := hok.name t q s₁ rfl
    obtain ⟨r, hr⟩ := parseEntry_spec (n := m.fin - p) hsub harr (m.suffixEnv env old) top hpq
      (Nat.le_of_lt hq) (show t.start + t.len ≤ m.fin by omega) (by omega) (by omega) s₁
    refine ⟨afterEntry r, hhead.bind (Yields.bind hr.yields (.pure _ _)),
      afterEntry_ok hr hpq hlevel, fun fuel loop hfuel => ?_⟩
    rw [hsim]
    show (Conf.parseEntry (sub' fuel) (arr' fuel) (m.suffixEnv env old) top _ (m.rest q) s₁).bind _ =
      _
    rw [hr.suffix fuel hfuel]
    exact afterEntry_turned loop r

/-! ## loop -/

/-- 配列は名前を読まない。 -/
theorem parseArraylh_suffixEnv (env : Env) (old : Nat → Option Token) :
    parseArraylh (m.suffixEnv env old) m = parseArraylh env m := by
  have hloop : ∀ fuel need p s, parseArraylhLoop (m.suffixEnv env old) m fuel need p s =
      parseArraylhLoop env m fuel need p s := fun fuel => by
    induction fuel with
    | zero => exact fun _ _ _ => rfl
    | succ fuel ih =>
      intro need p s
      have hrest : parseArraylhLoop (m.suffixEnv env old) m fuel true =
          parseArraylhLoop env m fuel true := funext fun p => funext fun s => ih true p s
      have hturn : arraylhTurn (m.suffixEnv env old) m (fuel + 1) need p s =
          arraylhTurn env m (fuel + 1) need p s := rfl
      rw [parseArraylhLoop, parseArraylhLoop, hturn, hrest]
  exact funext fun fuel => funext fun p => funext fun s => hloop fuel false p s.levelUp

theorem conf_parseLoop_succ (env : Env) (fuel : Nat) (top : Bool) {w : Bytes} (hw : w ≠ [])
    (s : Pconf) : Conf.parseLoop env (fuel + 1) top w s =
      match Conf.parseHead env top w s with
      | .returns r s => some (r, s, newNode)
      | .name name p s =>
        (Conf.parseEntry (fun p s => Conf.parseLoop env fuel false p s.levelUp)
          (Conf.parseArraylh env fuel) env top name p s).bind
            (Conf.afterEntry (Conf.parseLoop env fuel top)) := by
  obtain ⟨b, w, rfl⟩ := List.exists_cons_of_ne_nil hw
  rfl

theorem parseLoop_reads (env : Env) (old : Nat → Option Token) (top : Bool) (hp : p ≤ m.fin)
    (s : Pconf) : ∃ r, Reads m p (s.level - 1) (fun fuel => parseLoop env old m fuel top p s)
      (fun fuel => Conf.parseLoop (m.suffixEnv env old) fuel top (m.rest p) s) r := by
  induction hn : m.fin - p using Nat.strong_induction_on generalizing p top s with
  | _ n ih =>
    subst hn
    rcases Nat.lt_or_ge p m.fin with hlt | hge
    · have hsub : Calls m (p + 1) (fun fuel q s => parseLoop env old m fuel false q s.levelUp)
          fun fuel w s => Conf.parseLoop (m.suffixEnv env old) fuel false w s.levelUp := by
        intro q s' hpq hq
        obtain ⟨r, hr⟩ := ih (m.fin - q) (by omega) false hq s'.levelUp rfl
        rw [levelUp_level, Int.add_sub_cancel] at hr
        exact ⟨r, hr⟩
      have harr : Calls m (p + 1) (parseArraylh env m) (Conf.parseArraylh (m.suffixEnv env old)) :=
        fun q s' _ hq => by
          rw [← parseArraylh_suffixEnv]
          exact parseArraylh_reads (m.suffixEnv env old) hq s'
      obtain ⟨t, ht, hok, hturn⟩ := parseTurn_spec hsub harr env old top hlt s
      obtain ⟨r, hr, hparsed, hsim⟩ := hok.reads fun q s' hpq hq =>
        ih (m.fin - q) (by omega) top hq s' rfl
      refine ⟨r, Yields.of_succ fun fuel hfuel => ?_, hparsed, fun fuel hfuel => ?_⟩
      · show parseLoop env old m (fuel + 1) top p s = _
        rw [parseLoop, if_pos hlt]
        exact ht.bind hr fuel hfuel
      · obtain ⟨fuel, rfl⟩ := Nat.exists_eq_add_one_of_ne_zero (Nat.ne_zero_of_lt hfuel)
        rw [conf_parseLoop_succ _ _ _ (fun h => Nat.not_le.mpr hlt (Memory.rest_eq_nil.mp h)),
          hturn fuel _ (by omega)]
        exact hsim fuel (by omega)
    · obtain rfl := Nat.le_antisymm hp hge
      refine ⟨(.atEnd m.fin, s, newNode), .atEnd (fun fuel => ?_) fun fuel => ?_⟩
      · rw [parseLoop, if_neg (Nat.lt_irrefl _)]
      · rw [Memory.rest_end (Nat.le_refl _), Conf.parseLoop]

theorem parseMain_reads (env : Env) (old : Nat → Option Token) (hp : p ≤ m.fin) (s : Pconf) :
    ∃ r, Reads m p (s.level - 1) (fun fuel => parseMain env old m fuel p s)
      (fun fuel => Conf.parseMain (m.suffixEnv env old) fuel (m.rest p) s) r :=
  parseLoop_reads env old true hp s

theorem parseSmodlh_reads (env : Env) (old : Nat → Option Token) (hp : p ≤ m.fin) (s : Pconf) :
    ∃ r, Reads m p s.level (fun fuel => parseSmodlh env old m fuel p s)
      (fun fuel => Conf.parseSmodlh (m.suffixEnv env old) fuel (m.rest p) s) r := by
  obtain ⟨r, h⟩ := parseLoop_reads env old false hp s.levelUp
  rw [levelUp_level, Int.add_sub_cancel] at h
  exact ⟨r, h⟩

end RecordServer.Conf.Pointer
