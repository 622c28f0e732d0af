import RecordServer.Conf.PointerLexing

/-!
# 番地で読む構文

loop の一周は、続けるなら一つ以上進み、`level` を変えない。閉じ括弧で返るときだけ `level` が一つ戻る。これを一周ごとに示し、
残りの長さについての帰納法で、loop の全体に及ぼす。

* `Parsed` — 返った位置と `level`
* `TurnOk` — 一周の後
* `Reads` — loop が終わり、`Conf.Pconf` の loop と同じ結果になる
* `parseArraylh_reads` — 配列
* `Calls` / `parseEntry_spec` — 内側の loop を呼ぶ項目
-/

namespace RecordServer.Conf.Pointer

open Infra

variable {m : Memory} {env : Env} {old : Nat → Option Token} {p q : Nat} {s : Pconf} {level : Int}

/-! ## 返るもの -/

/-- `p` から始めて返ったもの。閉じ括弧で返るときは、それを読んだ分だけ進み、`level` は `level` になっている。 -/
structure Parsed (m : Memory) (p : Nat) (level : Int) (r : Result) : Prop where
  bounds : ∀ q, r.1.pos = some q → p ≤ q ∧ q ≤ m.fin
  atEnd : ∀ q, r.1 = .atEnd q → q = m.fin
  closed : ∀ q, r.1 = .closed q → p < q ∧ r.2.1.level = level

/-- `p` から始めた一周の後。 -/
structure TurnOk (m : Memory) (p : Nat) (s : Pconf) (t : Turn) : Prop where
  returns : ∀ r, t = .returns r → Parsed m p (s.level - 1) r
  next : ∀ q s' node, t = .next q s' node →
    p < q ∧ q ≤ m.fin ∧ (q < m.fin → s'.level = s.level)

theorem Parsed.null (s : Pconf) (node : CN) : Parsed m p level (.null, s, node) :=
  ⟨nofun, nofun, nofun⟩

theorem TurnOk.null (s' : Pconf) (node : CN) : TurnOk m p s (.returns (.null, s', node)) :=
  ⟨fun _ h => Turn.returns.inj h ▸ .null s' node, nofun⟩

theorem TurnOk.closed (hlt : p < q) (hfin : q ≤ m.fin) {s' : Pconf}
    (hlevel : s'.level = s.level - 1) (node : CN) : TurnOk m p s (.returns (.closed q, s', node)) := by
  refine ⟨fun r h => ?_, nofun⟩
  obtain rfl := Turn.returns.inj h
  refine ⟨?_, nofun, ?_⟩
  · rintro _ ⟨⟩
    exact ⟨Nat.le_of_lt hlt, hfin⟩
  · rintro _ ⟨⟩
    exact ⟨hlt, hlevel⟩

theorem TurnOk.goOn (hlt : p < q) (hfin : q ≤ m.fin) {s' : Pconf}
    (hlevel : q < m.fin → s'.level = s.level) (node : Fields) : TurnOk m p s (.next q s' node) := by
  refine ⟨nofun, ?_⟩
  rintro _ _ _ ⟨⟩
  exact ⟨hlt, hfin, hlevel⟩

/-- 位置を残りの byte 列に替える。 -/
def Memory.result (m : Memory) (r : Result) : Conf.Result := (r.1.pos.map m.rest, r.2.1, r.2.2)

/-- 一周の後を、残りの loop `loop` に繋ぐ。 -/
def Memory.turned (m : Memory) (loop : Bytes → Pconf → Option Conf.Result) :
    Turn → Option Conf.Result
  | .returns r => some (m.result r)
  | .next p s node => (loop (m.rest p) s).map fun (r, s, next) => (r, s, node.link next)

/-- 足りる燃料で `r` を返し、残りの byte 列を読む parser も同じ結果を返す。 -/
structure Reads (m : Memory) (p : Nat) (level : Int) (f : Nat → Except Stop Result)
    (g : Nat → Option Conf.Result) (r : Result) : Prop where
  yields : Yields (m.fin - p + 1) f r
  parsed : Parsed m p level r
  suffix : ∀ fuel, m.fin - p + 1 ≤ fuel → g fuel = some (m.result r)

/-- 一周の後、残りの loop が終わるなら全体も終わる。 -/
theorem TurnOk.reads {loop : Nat → Nat → Pconf → Except Stop Result}
    {loop' : Nat → Bytes → Pconf → Option Conf.Result} {t : Turn} (h : TurnOk m p s t)
    (ih : ∀ q s', p < q → q ≤ m.fin → ∃ r, Reads m q (s'.level - 1) (fun fuel => loop fuel q s')
      (fun fuel => loop' fuel (m.rest q) s') r) :
    ∃ r, Yields (m.fin - p) (fun fuel => Turn.goOn (loop fuel) t) r ∧ Parsed m p (s.level - 1) r ∧
      ∀ fuel, m.fin - p ≤ fuel → m.turned (loop' fuel) t = some (m.result r) := by
  cases t with
  | returns r => exact ⟨r, .pure _ r, h.returns r rfl, fun _ _ => rfl⟩
  | next q s' node =>
    obtain ⟨hlt, hfin, hlevel⟩ := h.next q s' node rfl
    obtain ⟨⟨e, s'', cn⟩, hread⟩ := ih q s' hlt hfin
    obtain ⟨hbounds, hend, hclosed⟩ := hread.parsed
    refine ⟨(e, s'', node.link cn), ?_, ⟨fun x hx => ?_, hend, fun x hx => ?_⟩,
      fun fuel hfuel => ?_⟩
    · exact (hread.yields.mono (by omega)).bind (.pure _ _)
    · obtain ⟨hqx, hx⟩ := hbounds x hx
      exact ⟨by omega, hx⟩
    · -- 閉じ括弧を読めたのだから、`q` はまだ `end` でない
      obtain ⟨hqx, hx'⟩ := hclosed x hx
      have hxfin := (hbounds x (by rw [show e = .closed x from hx]; rfl)).2
      exact ⟨by omega, hx'.trans (by rw [hlevel (by omega)])⟩
    · show (loop' fuel (m.rest q) s').map _ = _
      rw [hread.suffix fuel (by omega)]
      rfl

/-- `end` では、loop はすぐに終わる。 -/
theorem Reads.atEnd {f : Nat → Except Stop Result} {g : Nat → Option Conf.Result}
    (hf : ∀ fuel, f (fuel + 1) = .ok (.atEnd m.fin, s, newNode))
    (hg : ∀ fuel, g (fuel + 1) = some (some [], s, newNode)) :
    Reads m m.fin level f g (.atEnd m.fin, s, newNode) := by
  refine ⟨Yields.of_succ fun fuel _ => hf fuel, ⟨?_, ?_, nofun⟩, fun fuel hfuel => ?_⟩
  · rintro _ ⟨⟩
    exact ⟨Nat.le_refl _, Nat.le_refl _⟩
  · rintro _ ⟨⟩
    rfl
  · obtain ⟨fuel, rfl⟩ := Nat.exists_eq_add_one_of_ne_zero (Nat.ne_zero_of_lt hfuel)
    rw [hg fuel, Memory.result, Exit.pos, Option.map_some, Memory.rest_end (Nat.le_refl _)]

/-! ## 配列 -/

/-- 値を読んだ後。値があれば、読んだ分だけ進んでいる。 -/
theorem arrayElement_spec {r : Nat × Written × Pconf} (hpq : p ≤ q) {s₁ : Pconf}
    (hlevel : s₁.level = s.level) (hlex : Lexed m q s₁ r) : ∃ t, arrayElement m r = .ok t ∧
      TurnOk m p s t ∧ ∀ loop : Bytes → Pconf → Option Conf.Result,
        (match (m.written r.2.1).read none with
        | none => some (none, r.2.2.report .uncompletedFile (m.rest r.1), newNode)
        | some value =>
          if m.rest r.1 = [] then some (none, r.2.2.report .uncompletedLine (m.rest r.1), newNode)
          else
            (loop (m.rest r.1) r.2.2).map fun (r, s, next) =>
              (r, s, Fields.link ⟨[], Conf.rcStrncpy confVarl value, .arrayEle, .null⟩ next)) =
          m.turned loop t := by
  obtain ⟨e, w, s₂⟩ := r
  obtain ⟨hle, hfin, hlevel₂, -, htoken⟩ := hlex
  simp only at hle hfin hlevel₂ htoken ⊢
  cases w with
  | untouched => exact ⟨_, rfl, .null _ _, fun loop => rfl⟩
  | null => exact ⟨_, rfl, .null _ _, fun loop => rfl⟩
  | token t =>
    obtain ⟨hstart, hlen, hend⟩ := htoken t rfl
    by_cases hge : e ≥ m.fin
    · refine ⟨.returns (.null, s₂.report .uncompletedLine (m.rest e), newNode), ?_, .null _ _,
        fun loop => ?_⟩
      · show (if e ≥ m.fin then _ else _) = _
        rw [if_pos hge]
      · show (if m.rest e = [] then _ else _) = _
        rw [if_pos (Memory.rest_end hge)]
        rfl
    · refine ⟨.next e s₂ ⟨[], Conf.rcStrncpy confVarl (m.slice t.start t.len), .arrayEle, .null⟩,
        ?_, .goOn (by omega) hfin (fun _ => hlevel₂.trans hlevel) _, fun loop => ?_⟩
      · show (if e ≥ m.fin then _ else rcStrncpy m confVarl t >>= fun var => _) = _
        rw [if_neg hge, rcStrncpy_eq (by omega), ok_bind]
      · show (if m.rest e = [] then _ else _) = _
        rw [if_neg (fun h => hge (Memory.rest_eq_nil.mp h))]
        rfl

theorem arraylhTurn_spec (env : Env) (hp : p < m.fin) (need : Bool) (s : Pconf) : ∃ t,
    Yields (m.fin - p + 1) (fun fuel => arraylhTurn env m fuel need p s) t ∧ TurnOk m p s t ∧
      ∀ fuel, Conf.parseArraylhLoop env (fuel + 1) need (m.rest p) s =
        m.turned (Conf.parseArraylhLoop env fuel true) t := by
  have hple := Nat.le_of_lt hp
  have hle := le_skipPos hple
  have hfin := skipPos_le hple
  have hjump := conf_jumpspace hple s
  have hyield := jumpspace_yields hple s
  have hlevel := jumped_level s (m.rest p)
  have hsuffix : ∀ fuel, Conf.parseArraylhLoop env (fuel + 1) need (m.rest p) s =
      Conf.parseArraylhLoop env (fuel + 1) need (m.byte p :: m.rest (p + 1)) s := fun fuel => by
    rw [← Memory.rest_cons hp]
  rw [Memory.rest_cons hp] at hjump hyield hlevel
  generalize s.jumped (m.byte p :: m.rest (p + 1)) = s₁ at hjump hyield hlevel
  generalize m.skipPos p = q at hle hfin hjump hyield
  rcases Nat.lt_or_ge q m.fin with hlt | hge
  · have hread := Memory.read_ok (m := m) hfin
    have hrest := Memory.rest_cons hlt
    by_cases hclose : m.byte q = rbracket
    · refine ⟨.returns (.closed (q + 1), s₁.levelDown, newNode), hyield.bind fun fuel _ => ?_,
        .closed (by omega) hlt (by simp [hlevel]) newNode, fun fuel => ?_⟩
      · show (if q ≥ m.fin then _ else _) = _
        rw [if_neg (by omega), hread, ok_bind, if_pos hclose]
      · rw [hsuffix, Conf.parseArraylhLoop, hjump]
        simp only [hrest, if_pos hclose]
        rfl
    by_cases hneed : need = true ∧ m.byte q ≠ comma
    · refine ⟨.returns (.null, s₁.report .exceptComma (m.rest q), newNode),
        hyield.bind fun fuel _ => ?_, .null _ _, fun fuel => ?_⟩
      · show (if q ≥ m.fin then _ else _) = _
        rw [if_neg (by omega), hread, ok_bind, if_neg hclose, if_pos hneed]
      · rw [hsuffix, Conf.parseArraylhLoop, hjump]
        simp only [hrest, if_neg hclose, if_pos hneed]
        rfl
    -- `,` を飛ばした所 `v` から値を読む
    have hvle : q ≤ (if need then q + 1 else q) ∧ (if need then q + 1 else q) ≤ m.fin := by
      split <;> omega
    have hvrest : (if need = true then m.rest (q + 1) else m.byte q :: m.rest (q + 1)) =
        m.rest (if need then q + 1 else q) := by
      split
      · rfl
      · exact hrest.symm
    obtain ⟨r, hr, hlex, hsim⟩ := findValidArrayValue_spec env hvle.2 s₁
    obtain ⟨t, ht, hok, hloop⟩ := arrayElement_spec (Nat.le_trans hle hvle.1) hlevel hlex
    refine ⟨t, hyield.bind fun fuel hfuel => ?_, hok, fun fuel => ?_⟩
    · have hfind : findValidArrayValue env m fuel (if need then q + 1 else q) s₁ = .ok r :=
        hr fuel (by omega)
      show (if q ≥ m.fin then _ else _) = _
      rw [if_neg (by omega), hread, ok_bind, if_neg hclose, if_neg hneed, hfind, ok_bind, ht]
    · rw [hsuffix, Conf.parseArraylhLoop, hjump]
      simp only [hrest, if_neg hclose, if_neg hneed, hvrest, hsim]
      exact hloop _
  · refine ⟨.returns (.null, s₁.report .exceptBracket [], newNode), hyield.bind fun fuel _ => ?_,
      .null _ _, fun fuel => ?_⟩
    · show (if q ≥ m.fin then _ else _) = _
      rw [if_pos hge]
    · rw [hsuffix, Conf.parseArraylhLoop, hjump]
      simp only [Memory.rest_end hge]
      rfl

theorem parseArraylhLoop_reads (env : Env) (hp : p ≤ m.fin) (need : Bool) (s : Pconf) :
    ∃ r, Reads m p (s.level - 1) (fun fuel => parseArraylhLoop env m fuel need p s)
      (fun fuel => Conf.parseArraylhLoop env fuel need (m.rest p) s) r := by
  induction hn : m.fin - p using Nat.strong_induction_on generalizing p need s with
  | _ n ih =>
    subst hn
    rcases Nat.lt_or_ge p m.fin with hlt | hge
    · obtain ⟨t, ht, hok, hturn⟩ := arraylhTurn_spec env hlt need s
      obtain ⟨r, hr, hparsed, hsim⟩ := hok.reads fun q s' hpq hq =>
        ih (m.fin - q) (by omega) hq true s' rfl
      refine ⟨r, Yields.of_succ fun fuel hfuel => ?_, hparsed, fun fuel hfuel => ?_⟩
      · show parseArraylhLoop env m (fuel + 1) need p s = _
        have hstep : arraylhTurn env m (fuel + 1) need p s = .ok t := ht (fuel + 1) (by omega)
        rw [parseArraylhLoop, if_pos hlt, hstep, ok_bind]
        exact hr fuel hfuel
      · obtain ⟨fuel, rfl⟩ := Nat.exists_eq_add_one_of_ne_zero (Nat.ne_zero_of_lt hfuel)
        rw [hturn fuel]
        exact hsim fuel (by omega)
    · obtain rfl := Nat.le_antisymm hp hge
      refine ⟨(.atEnd m.fin, s, newNode), .atEnd (fun fuel => ?_) fun fuel => ?_⟩
      · rw [parseArraylhLoop, if_neg (Nat.lt_irrefl _)]
      · rw [Memory.rest_end (Nat.le_refl _), Conf.parseArraylhLoop]

theorem parseArraylh_reads (env : Env) (hp : p ≤ m.fin) (s : Pconf) :
    ∃ r, Reads m p s.level (fun fuel => parseArraylh env m fuel p s)
      (fun fuel => Conf.parseArraylh env fuel (m.rest p) s) r := by
  obtain ⟨r, h⟩ := parseArraylhLoop_reads env hp false s.levelUp
  rw [levelUp_level, Int.add_sub_cancel] at h
  exact ⟨r, h⟩

/-! ## 項目 -/

/-- `lo` から後で呼ばれる内側の loop。 -/
def Calls (m : Memory) (lo : Nat) (f : Nat → Nat → Pconf → Except Stop Result)
    (g : Nat → Bytes → Pconf → Option Conf.Result) : Prop :=
  ∀ q s, lo ≤ q → q ≤ m.fin →
    ∃ r, Reads m q s.level (fun fuel => f fuel q s) (fun fuel => g fuel (m.rest q) s) r

def Memory.step (m : Memory) : Step → Conf.Step
  | .returnNull => .returnNull
  | .goOn p => .goOn (p.map m.rest)

/-- 名前の後の位置 `p` から項目を読んだ後。 -/
structure EntryReads (m : Memory) (n p : Nat) (s : Pconf)
    (f : Nat → Except Stop (Step × Pconf × Fields))
    (g : Nat → Option (Conf.Step × Pconf × Fields)) (r : Step × Pconf × Fields) : Prop where
  yields : Yields n f r
  goOn : ∀ q, r.1 = .goOn (some q) → p < q ∧ q ≤ m.fin ∧ (q < m.fin → r.2.1.level = s.level)
  suffix : ∀ fuel, n ≤ fuel → g fuel = some (m.step r.1, r.2.1, r.2.2)

section Entry

variable {n lo : Nat} {s₁ : Pconf} {t : Token}

/-- 括弧の次から内側の loop を呼ぶ。 -/
theorem Calls.entry {f : Nat → Nat → Pconf → Except Stop Result}
    {g : Nat → Bytes → Pconf → Option Conf.Result} (h : Calls m lo f g) (hlo : lo ≤ q + 1)
    (hpq : p ≤ q) (hq : q < m.fin) (hn : m.fin - q ≤ n) (hlevel : s₁.level = s.level)
    (node : CN → Fields) :
    ∃ r, EntryReads m n p s
      (fun fuel => f fuel (q + 1) s₁ >>= fun r => .ok (.goOn r.1.pos, r.2.1, node r.2.2))
      (fun fuel => (g fuel (m.rest (q + 1)) s₁).map fun r => (.goOn r.1, r.2.1, node r.2.2)) r := by
  obtain ⟨⟨e, s₂, cn⟩, hread⟩ := h (q + 1) s₁ hlo hq
  obtain ⟨hbounds, hend, hclosed⟩ := hread.parsed
  refine ⟨(.goOn e.pos, s₂, node cn), (hread.yields.mono (by omega)).bind (.pure _ _), ?_,
    fun fuel hfuel => ?_⟩
  · intro x hx
    have hpos : e.pos = some x := Step.goOn.inj hx
    obtain ⟨hqx, hxfin⟩ := hbounds x hpos
    refine ⟨by omega, hxfin, fun hlt => ?_⟩
    cases e with
    | closed y => exact (hclosed y rfl).2.trans hlevel
    | atEnd y =>
      have hy := hend y rfl
      obtain rfl : y = x := Option.some.inj hpos
      omega
    | null => cases hpos
  · show (g fuel (m.rest (q + 1)) s₁).map _ = _
    rw [hread.suffix fuel (by omega)]
    rfl

/-- `NULL` を返した項目。 -/
theorem EntryReads.null {f : Nat → Except Stop (Step × Pconf × Fields)}
    {g : Nat → Option (Conf.Step × Pconf × Fields)} {s' : Pconf} {node : Fields}
    (hf : Yields n f (.returnNull, s', node))
    (hg : ∀ fuel, g fuel = some (.returnNull, s', node)) :
    EntryReads m n p s f g (.returnNull, s', node) :=
  ⟨hf, nofun, fun fuel _ => hg fuel⟩

theorem written_read (m : Memory) (w : Written) :
    (m.written w).read none = (w.read none).map fun t => m.slice t.start t.len := by
  cases w <;> rfl

theorem Lexed.token_of_read {r : Nat × Written × Pconf} (h : Lexed m p s r)
    (hread : r.2.1.read none = some t) : p ≤ t.start ∧ 0 < t.len ∧ t.start + t.len ≤ r.1 := by
  obtain ⟨q, w, s₂⟩ := r
  cases w with
  | untouched => cases hread
  | null => cases hread
  | token u => exact h.token t (by rw [show u = t from Option.some.inj hread])

theorem parseValue_spec (env : Env) (hp : p ≤ m.fin) (ht : t.start + t.len ≤ m.fin)
    (hn : m.fin - p ≤ n) (s : Pconf) : ∃ r,
    EntryReads m n p s (fun fuel => parseValue env m (fuel + 1) t p s)
      (fun _ => Conf.parseValue env (m.slice t.start t.len) (m.rest p) s) r := by
  obtain ⟨⟨q, w, s₂⟩, hq, hlex, hsim⟩ := findValidValue_spec env hp s
  have hread := written_read m w
  have hfind : ∀ fuel, n ≤ fuel → findValidValue env m (fuel + 1) p s = .ok (q, w, s₂) :=
    fun fuel hfuel => hq (fuel + 1) (by omega)
  obtain ⟨hle, hfin, hlevel, -⟩ := id hlex
  simp only at hle hfin hlevel hsim
  cases hw : w.read none with
  | none =>
    rw [hw, Option.map_none] at hread
    refine ⟨(.returnNull, s₂.report .exceptValue (m.rest q),
      ⟨Conf.rcStrncpy confNamel (m.slice t.start t.len), [], .charT, .null⟩),
      .null (fun fuel hfuel => ?_) fun _ => ?_⟩
    · show parseValue env m (fuel + 1) t p s = _
      rw [parseValue, rcStrncpy_eq ht, ok_bind, hfind fuel hfuel, ok_bind]
      simp only [hw]
    · rw [Conf.parseValue, hsim]
      simp only [hread]
  | some v =>
    rw [hw, Option.map_some] at hread
    obtain ⟨hstart, hlen, hend⟩ := hlex.token_of_read hw
    simp only at hend
    by_cases hge : q ≥ m.fin
    · refine ⟨(.returnNull, s₂.report .exceptValue (m.rest q),
        ⟨Conf.rcStrncpy confNamel (m.slice t.start t.len), [], .charT, .null⟩),
        .null (fun fuel hfuel => ?_) fun _ => ?_⟩
      · show parseValue env m (fuel + 1) t p s = _
        rw [parseValue, rcStrncpy_eq ht, ok_bind, hfind fuel hfuel, ok_bind]
        simp only [hw, if_pos hge]
      · rw [Conf.parseValue, hsim]
        simp only [hread, if_pos (Memory.rest_end hge)]
    · refine ⟨(.goOn (some q), s₂, ⟨Conf.rcStrncpy confNamel (m.slice t.start t.len),
        Conf.rcStrncpy confVarl (m.slice v.start v.len), .charT, .null⟩),
        fun fuel hfuel => ?_, ?_, fun _ _ => ?_⟩
      · show parseValue env m (fuel + 1) t p s = _
        rw [parseValue, rcStrncpy_eq ht, ok_bind, hfind fuel hfuel, ok_bind]
        simp only [hw, if_neg hge, rcStrncpy_eq (Nat.le_trans hend hfin), ok_bind]
      · rintro _ ⟨⟩
        exact ⟨by omega, hfin, fun _ => hlevel⟩
      · show Conf.parseValue env _ (m.rest p) s = _
        rw [Conf.parseValue, hsim]
        simp only [hread, if_neg fun h => hge (Memory.rest_eq_nil.mp h)]
        rfl

theorem parseProc_spec {sub : Nat → Nat → Pconf → Except Stop Result}
    {sub' : Nat → Bytes → Pconf → Option Conf.Result} (hsub : Calls m lo sub sub') (env : Env)
    (hlo : lo ≤ p) (hp : p ≤ m.fin) (hn : m.fin - p ≤ n) (s : Pconf) : ∃ r,
    EntryReads m n p s (fun fuel => parseProc (sub fuel) env m (fuel + 1) p s)
      (fun fuel => Conf.parseProc (sub' fuel) env (m.rest p) s) r := by
  obtain ⟨⟨q, w, s₂⟩, hq, hlex, hsim⟩ := findValid_spec (validname env) hp s
  have hread := written_read m w
  have hfind : ∀ fuel, n ≤ fuel → findValidName env m (fuel + 1) p s = .ok (q, w, s₂) :=
    fun fuel hfuel => hq (fuel + 1) (by omega)
  have hsim' : Conf.findValidName env (m.rest p) s = (m.rest q, m.written w, s₂) := hsim
  obtain ⟨hle, hfin, hlevel, -⟩ := id hlex
  simp only at hle hfin hlevel
  cases hw : w.read none with
  | none =>
    rw [hw, Option.map_none] at hread
    refine ⟨(.returnNull, s₂.report .emptyFile (m.rest q), ⟨[], [], .procModT, .null⟩),
      .null (fun fuel hfuel => ?_) fun fuel => ?_⟩
    · show parseProc (sub fuel) env m (fuel + 1) p s = _
      rw [parseProc, hfind fuel hfuel, ok_bind]
      simp only [hw]
    · rw [Conf.parseProc, hsim']
      simp only [hread]
  | some v =>
    rw [hw, Option.map_some] at hread
    obtain ⟨hstart, hlen, hend⟩ := hlex.token_of_read hw
    simp only at hend
    by_cases hge : q ≥ m.fin
    · refine ⟨(.returnNull, s₂.report .uncompletedLine (m.rest q), ⟨[], [], .procModT, .null⟩),
        .null (fun fuel hfuel => ?_) fun fuel => ?_⟩
      · show parseProc (sub fuel) env m (fuel + 1) p s = _
        rw [parseProc, hfind fuel hfuel, ok_bind]
        simp only [hw, if_pos hge]
      · rw [Conf.parseProc, hsim']
        simp only [hread, if_pos (Memory.rest_end hge)]
    · have hcopy := rcStrncpy_eq (m := m) (t := v) (Nat.le_trans hend hfin) confNamel
      have hqe := le_skipPos (m := m) hfin
      have hefin := skipPos_le (m := m) hfin
      have hjump := conf_jumpspace (m := m) hfin s₂
      have hyield : ∀ fuel, n ≤ fuel →
          jumpspace m (fuel + 1) q s₂ = .ok (m.skipPos q, s₂.jumped (m.rest q)) := fun fuel hfuel =>
        jumpspace_yields (m := m) hfin s₂ (fuel + 1) (by omega)
      generalize m.skipPos q = e at hqe hefin hjump hyield
      have hread' := Memory.read_ok (m := m) hefin
      have hnil : ¬ m.rest q = [] := fun h => hge (Memory.rest_eq_nil.mp h)
      by_cases hopen : m.byte e = lbrace
      · have helt := lt_fin_of_byte (by decide) hefin hopen
        have hlevel' : (s₂.jumped (m.rest q)).level = s.level := (jumped_level _ _).trans hlevel
        obtain ⟨r, hr⟩ := hsub.entry (n := n) (show lo ≤ e + 1 by omega) (show p ≤ e by omega) helt
          (by omega) hlevel' fun cn =>
            ⟨Conf.rcStrncpy confNamel (m.slice v.start v.len), [], .procModT, cn⟩
        refine ⟨r, fun fuel hfuel => ?_, hr.goOn, fun fuel hfuel => ?_⟩
        · show parseProc (sub fuel) env m (fuel + 1) p s = _
          rw [parseProc, hfind fuel hfuel, ok_bind]
          simp only [hw, if_neg hge, hcopy, ok_bind, hyield fuel hfuel, hread', if_pos hopen]
          exact hr.yields fuel hfuel
        · rw [← hr.suffix fuel hfuel]
          show Conf.parseProc (sub' fuel) env (m.rest p) s = _
          rw [Conf.parseProc, hsim']
          simp only [hread, if_neg hnil, hjump, Memory.deref_rest hefin, if_pos hopen,
            Memory.tail_rest helt]
      · refine ⟨(.returnNull, (s₂.jumped (m.rest q)).report .exceptOpen (m.rest e),
          ⟨Conf.rcStrncpy confNamel (m.slice v.start v.len), [], .procModT, newNode⟩),
          .null (fun fuel hfuel => ?_) fun fuel => ?_⟩
        · show parseProc (sub fuel) env m (fuel + 1) p s = _
          rw [parseProc, hfind fuel hfuel, ok_bind]
          simp only [hw, if_neg hge, hcopy, ok_bind, hyield fuel hfuel, hread', if_neg hopen]
        · rw [Conf.parseProc, hsim']
          simp only [hread, if_neg hnil, hjump, Memory.deref_rest hefin, if_neg hopen]

theorem checkKeyword_cases (w : Bytes) :
    Conf.checkKeyword w = .charT ∨ Conf.checkKeyword w = .procModT := by
  unfold Conf.checkKeyword
  split
  · exact .inr rfl
  · exact .inl rfl

/-- 名前の後に 0 を書いて印字しても、buffer を越えない。 -/
theorem printName_ok (ht : t.start + t.len ≤ m.fin) (hn : t.len ≤ n) : ∃ m',
    m.writeZero (t.start + t.len) = .ok m' ∧
      Yields n (fun fuel => printText m' (fuel + 1) t.start) () := by
  have hprint := printText_ok (m.zeroed (t.start + t.len)) rfl ht (if_pos rfl)
    (Nat.le_add_right t.start t.len)
  exact ⟨_, if_pos ht, Yields.mono hprint.succ (by omega)⟩

theorem parseKeyword_spec {sub : Nat → Nat → Pconf → Except Stop Result}
    {sub' : Nat → Bytes → Pconf → Option Conf.Result} (hsub : Calls m lo sub sub') (env : Env)
    (top : Bool) (hlo : lo ≤ p) (hp : p ≤ m.fin) (ht : t.start + t.len ≤ m.fin) (htn : t.len ≤ n)
    (hn : m.fin - p ≤ n) (s : Pconf) : ∃ r,
    EntryReads m n p s (fun fuel => parseKeyword (sub fuel) env m (fuel + 1) top t p s)
      (fun fuel =>
        Conf.parseKeyword (sub' fuel) env top (m.slice t.start t.len) (m.rest p) s) r := by
  have hkey := checkKeyword_eq ht
  rcases checkKeyword_cases (m.slice t.start t.len) with hchar | hproc
  · rw [hchar] at hkey
    obtain ⟨r, hr⟩ := parseValue_spec env hp ht hn s
    refine ⟨r, fun fuel hfuel => ?_, hr.goOn, fun fuel hfuel => ?_⟩
    · show parseKeyword (sub fuel) env m (fuel + 1) top t p s = _
      rw [parseKeyword, hkey, ok_bind]
      exact hr.yields fuel hfuel
    · show Conf.parseKeyword (sub' fuel) env top (m.slice t.start t.len) (m.rest p) s = _
      unfold Conf.parseKeyword
      rw [hchar]
      exact hr.suffix fuel hfuel
  · rw [hproc] at hkey
    cases top with
    | true =>
      obtain ⟨r, hr⟩ := parseProc_spec hsub env hlo hp hn s
      refine ⟨r, fun fuel hfuel => ?_, hr.goOn, fun fuel hfuel => ?_⟩
      · show parseKeyword (sub fuel) env m (fuel + 1) true t p s = _
        rw [parseKeyword, hkey, ok_bind]
        exact hr.yields fuel hfuel
      · show Conf.parseKeyword (sub' fuel) env true (m.slice t.start t.len) (m.rest p) s = _
        unfold Conf.parseKeyword
        rw [hproc]
        exact hr.suffix fuel hfuel
    | false =>
      obtain ⟨m', hwrite, hprint⟩ := printName_ok ht htn
      refine ⟨(.returnNull, s.report .unsupportKeyword (m.rest p), ⟨[], [], .procModT, .null⟩),
        .null (fun fuel hfuel => ?_) fun fuel => ?_⟩
      · have hdone : printText m' (fuel + 1) t.start = .ok () := hprint fuel hfuel
        show parseKeyword (sub fuel) env m (fuel + 1) false t p s = _
        rw [parseKeyword, hkey, ok_bind]
        simp only [hwrite, ok_bind, hdone]
      · unfold Conf.parseKeyword
        rw [hproc]

/-- 名前を写し、先読みした括弧を飛ばして、内側の loop を呼ぶ。 -/
theorem Calls.block {f : Nat → Nat → Pconf → Except Stop Result}
    {g : Nat → Bytes → Pconf → Option Conf.Result} (h : Calls m lo f g) (hlo : lo ≤ p)
    (hp : p ≤ m.fin) (hlt : m.skipPos p < m.fin) (ht : t.start + t.len ≤ m.fin)
    (hn : m.fin - p ≤ n) (hlevel : s₁.level = s.level) (ntype : NodeType) : ∃ r,
    EntryReads m n p s
      (fun fuel => rcStrncpy m confNamel t >>= fun modn =>
        jumpspace m (fuel + 1) p s₁ >>= fun (p, s) =>
        f fuel (p + 1) s >>= fun (e, s, smodlh) =>
        .ok (.goOn e.pos, s, ⟨modn, [], ntype, smodlh⟩))
      (fun fuel => (g fuel (m.rest (m.skipPos p)).tail (s₁.jumped (m.rest p))).map
        fun (r, s, smodlh) =>
          (.goOn r, s, ⟨Conf.rcStrncpy confNamel (m.slice t.start t.len), [], ntype, smodlh⟩))
      r := by
  have hle := le_skipPos hp
  have hyield := jumpspace_yields hp s₁
  obtain ⟨r, hr⟩ := h.entry (n := n) (by omega) hle hlt (by omega)
    ((jumped_level _ _).trans hlevel : (s₁.jumped (m.rest p)).level = s.level) fun cn =>
      ⟨Conf.rcStrncpy confNamel (m.slice t.start t.len), [], ntype, cn⟩
  refine ⟨r, fun fuel hfuel => ?_, hr.goOn, fun fuel hfuel => ?_⟩
  · have hjump : jumpspace m (fuel + 1) p s₁ = .ok (m.skipPos p, s₁.jumped (m.rest p)) :=
      hyield (fuel + 1) (by omega)
    show rcStrncpy m confNamel t >>= _ = _
    rw [rcStrncpy_eq ht, ok_bind, hjump]
    exact hr.yields fuel hfuel
  · rw [← hr.suffix fuel hfuel, Memory.tail_rest hlt]

theorem parseEntry_spec {sub arr : Nat → Nat → Pconf → Except Stop Result}
    {sub' arr' : Nat → Bytes → Pconf → Option Conf.Result} (hsub : Calls m lo sub sub')
    (harr : Calls m lo arr arr') (env : Env) (top : Bool) (hlo : lo ≤ p) (hp : p ≤ m.fin)
    (ht : t.start + t.len ≤ m.fin) (htn : t.len ≤ n) (hn : m.fin - p ≤ n) (s : Pconf) : ∃ r,
    EntryReads m n p s (fun fuel => parseEntry (sub fuel) (arr fuel) env m (fuel + 1) top t p s)
      (fun fuel => Conf.parseEntry (sub' fuel) (arr' fuel) env top (m.slice t.start t.len)
        (m.rest p) s) r := by
  obtain ⟨isSub, hsubYield, hsubByte, hsubSim⟩ := nextIs_spec (c := lbrace) hp s
  have hisSub : ∀ fuel, n ≤ fuel →
      nextIs lbrace m (fuel + 1) p s = .ok (isSub, s.jumped (m.rest p)) := fun fuel hfuel =>
    hsubYield (fuel + 1) (by omega)
  have hsubSim' : isSubNode (m.rest p) s = (isSub, s.jumped (m.rest p)) := hsubSim
  have hlevel₁ := jumped_level s (m.rest p)
  generalize s.jumped (m.rest p) = s₁ at hisSub hsubSim' hlevel₁
  cases isSub with
  | true =>
    obtain ⟨r, hr⟩ := hsub.block hlo hp (hsubByte rfl).1 ht hn hlevel₁ .subnodeT
    refine ⟨r, fun fuel hfuel => ?_, hr.goOn, fun fuel hfuel => ?_⟩
    · show parseEntry (sub fuel) (arr fuel) env m (fuel + 1) top t p s = _
      rw [parseEntry, hisSub fuel hfuel, ok_bind]
      exact hr.yields fuel hfuel
    · rw [← hr.suffix fuel hfuel]
      show Conf.parseEntry _ _ env top _ (m.rest p) s = _
      rw [Conf.parseEntry, hsubSim']
      simp only [if_true, conf_jumpspace hp]
  | false =>
    obtain ⟨isArray, harrYield, harrByte, harrSim⟩ := nextIs_spec (c := lbracket) hp s₁
    have hisArray : ∀ fuel, n ≤ fuel →
        nextIs lbracket m (fuel + 1) p s₁ = .ok (isArray, s₁.jumped (m.rest p)) :=
      fun fuel hfuel => harrYield (fuel + 1) (by omega)
    have harrSim' : isArrayNode (m.rest p) s₁ = (isArray, s₁.jumped (m.rest p)) := harrSim
    have hlevel₂ := (jumped_level s₁ (m.rest p)).trans hlevel₁
    generalize s₁.jumped (m.rest p) = s₂ at hisArray harrSim' hlevel₂
    cases isArray with
    | true =>
      obtain ⟨r, hr⟩ := harr.block hlo hp (harrByte rfl).1 ht hn hlevel₂ .arrayT
      refine ⟨r, fun fuel hfuel => ?_, hr.goOn, fun fuel hfuel => ?_⟩
      · show parseEntry (sub fuel) (arr fuel) env m (fuel + 1) top t p s = _
        rw [parseEntry, hisSub fuel hfuel, ok_bind]
        simp only [Bool.false_eq_true, if_false, hisArray fuel hfuel, ok_bind, if_true]
        exact hr.yields fuel hfuel
      · rw [← hr.suffix fuel hfuel]
        show Conf.parseEntry _ _ env top _ (m.rest p) s = _
        rw [Conf.parseEntry, hsubSim']
        simp only [Bool.false_eq_true, if_false, harrSim', if_true, conf_jumpspace hp]
    | false =>
      obtain ⟨r, hr⟩ := parseKeyword_spec hsub env top hlo hp ht htn hn s₂
      refine ⟨r, fun fuel hfuel => ?_, fun x hx => ?_, fun fuel hfuel => ?_⟩
      · show parseEntry (sub fuel) (arr fuel) env m (fuel + 1) top t p s = _
        rw [parseEntry, hisSub fuel hfuel, ok_bind]
        simp only [Bool.false_eq_true, if_false, hisArray fuel hfuel, ok_bind]
        exact hr.yields fuel hfuel
      · obtain ⟨h₁, h₂, h₃⟩ := hr.goOn x hx
        exact ⟨h₁, h₂, fun hlt => (h₃ hlt).trans hlevel₂⟩
      · rw [← hr.suffix fuel hfuel]
        show Conf.parseEntry _ _ env top _ (m.rest p) s = _
        rw [Conf.parseEntry, hsubSim']
        simp only [Bool.false_eq_true, if_false, harrSim']

end Entry

end RecordServer.Conf.Pointer
