import RecordServer.Conf.Pconf
import RecordServer.Infra.NodeHeap

/-!
# 節を作りながら読む parser

`pconf.cpp` の parser は木を返さない。渡された節 `mc` に名前や値を書き、`new_node` で作った節を `mc->smodlh` や
`mc->next` に繋いでいく。節は `NodeHeap` の cell に置く。

* `Item` — 節の、pointer でない欄
* `parseArraylhLoop` / `parseLoop` / `parse` — `mc` に書く parser
* `deleteNode` — `delete_node`
* `parseLoop_places` / `parse_places` — 書き終えた節は、`Conf.Pconf` の parser の返す木を `place` したものである
-/

namespace RecordServer.Conf.Linked

open Infra

/-- 節の `modn`・`var`・`ntype`。 -/
structure Item where
  modn : Bytes
  var : Bytes
  ntype : NodeType
deriving DecidableEq, Repr

/-- `memset` した節。 -/
def Item.zero : Item := ⟨[], [], .emptyT⟩

abbrev Nodes := NodeHeap Item

/-- `new_node`。返る番地は、呼ぶ前の `fresh` である。 -/
def newNode (h : Nodes) : Nodes := h.alloc .zero

def setModn (h : Nodes) (mc : Nat) (w : Bytes) : Nodes :=
  h.modify mc fun n => { n with data := { n.data with modn := w } }

def setVar (h : Nodes) (mc : Nat) (w : Bytes) : Nodes :=
  h.modify mc fun n => { n with data := { n.data with var := w } }

def setNtype (h : Nodes) (mc : Nat) (t : NodeType) : Nodes :=
  h.modify mc fun n => { n with data := { n.data with ntype := t } }

/-! ## 構文 -/

/-- 返す位置（`none` は `NULL`）、parser の状態、節。 -/
abbrev Result := Option Bytes × Pconf × Nodes

/-- `parse_arraylh` の loop。 -/
def parseArraylhLoop (env : Env) : Nat → Bool → Nat → Bytes → Pconf → Nodes → Option Result
  | 0, _, _, _, _, _ => none
  | _ + 1, _, _, [], s, h => some (some [], s, h)
  | fuel + 1, commonNeed, mc, b :: p, s, h =>
    let (p, s) := jumpspace (b :: p) s
    match p with
    | [] => some (none, s.report .exceptBracket [], h)
    | b :: rest =>
      if b = rbracket then some (some rest, s.levelDown, h)
      else if commonNeed ∧ b ≠ comma then some (none, s.report .exceptComma (b :: rest), h)
      else
        let p := if commonNeed then rest else b :: rest
        let (p, w, s) := findValidArrayValue env p s
        match w.read none with
        | none => some (none, s.report .uncompletedFile p, h)
        | some value =>
          if p = [] then some (none, s.report .uncompletedLine p, h)
          else
            let h := setVar h mc (rcStrncpy confVarl value)
            let h := setNtype h mc .arrayEle
            parseArraylhLoop env fuel true h.fresh p s ((newNode h).setNext mc h.fresh)

def parseArraylh (env : Env) (fuel mc : Nat) (p : Bytes) (s : Pconf) (h : Nodes) : Option Result :=
  parseArraylhLoop env fuel false mc p s.levelUp h

/-- 作った節を `mc->smodlh` に繋いで、そこへ読む。 -/
def intoChild (sub : Nat → Bytes → Pconf → Nodes → Option Result) (mc : Nat) (p : Bytes) (s : Pconf)
    (h : Nodes) : Option (Step × Pconf × Nodes) :=
  (sub h.fresh p s ((newNode h).setChild mc h.fresh)).map fun (r, s, h) => (.goOn r, s, h)

/-- `parse_main` の `case proc_mod_t`。 -/
def parseProc (sub : Nat → Bytes → Pconf → Nodes → Option Result) (env : Env) (mc : Nat) (p : Bytes)
    (s : Pconf) (h : Nodes) : Option (Step × Pconf × Nodes) :=
  let (p, w, s) := findValidName env p s
  match w.read none with
  | none => some (.returnNull, s.report .emptyFile p, h)
  | some modName =>
    if p = [] then some (.returnNull, s.report .uncompletedLine p, h)
    else
      let h := setModn h mc (rcStrncpy confNamel modName)
      let (p, s) := jumpspace p s
      -- `smodlh` の節は、開き括弧を確かめる前に作る
      if deref p = lbrace then intoChild sub mc p.tail s h
      else some (.returnNull, s.report .exceptOpen p, (newNode h).setChild mc h.fresh)

/-- `case char_t`。 -/
def parseValue (env : Env) (name : Bytes) (mc : Nat) (p : Bytes) (s : Pconf) (h : Nodes) :
    Option (Step × Pconf × Nodes) :=
  let h := setModn h mc (rcStrncpy confNamel name)
  let (p, w, s) := findValidValue env p s
  match w.read none with
  | none => some (.returnNull, s.report .exceptValue p, h)
  | some value =>
    if p = [] then some (.returnNull, s.report .exceptValue p, h)
    else some (.goOn (some p), s, setVar h mc (rcStrncpy confVarl value))

def parseKeyword (sub : Nat → Bytes → Pconf → Nodes → Option Result) (env : Env) (top : Bool)
    (name : Bytes) (mc : Nat) (p : Bytes) (s : Pconf) (h : Nodes) : Option (Step × Pconf × Nodes) :=
  let h := setNtype h mc (checkKeyword name)
  match checkKeyword name, top with
  | .charT, _ => parseValue env name mc p s h
  | .procModT, true => parseProc sub env mc p s h
  | _, _ => some (.returnNull, s.report .unsupportKeyword p, h)

/-- 名前を読んだ後の本体。 -/
def parseEntry (sub arr : Nat → Bytes → Pconf → Nodes → Option Result) (env : Env) (top : Bool)
    (name : Bytes) (mc : Nat) (p : Bytes) (s : Pconf) (h : Nodes) : Option (Step × Pconf × Nodes) :=
  let (isSub, s) := isSubNode p s
  if isSub then
    let h := setModn h mc (rcStrncpy confNamel name)
    let h := setNtype h mc .subnodeT
    let (p, s) := jumpspace p s
    intoChild sub mc p.tail s h
  else
    let (isArray, s) := isArrayNode p s
    if isArray then
      let h := setModn h mc (rcStrncpy confNamel name)
      let h := setNtype h mc .arrayT
      let (p, s) := jumpspace p s
      intoChild arr mc p.tail s h
    else parseKeyword sub env top name mc p s h

/-- 項目を読んだ後。`mc->next` を作り、そこへ進む。 -/
def afterEntry (loop : Nat → Bytes → Pconf → Nodes → Option Result) (mc : Nat) :
    Step × Pconf × Nodes → Option Result
  | (.returnNull, s, h) => some (none, s, h)
  | (.goOn none, s, h) => some (none, s, (newNode h).setNext mc h.fresh)
  | (.goOn (some p), s, h) => loop h.fresh p s ((newNode h).setNext mc h.fresh)

/-- `parse_main`（`top`）と `parse_smodlh` の loop。 -/
def parseLoop (env : Env) : Nat → Bool → Nat → Bytes → Pconf → Nodes → Option Result
  | 0, _, _, _, _, _ => none
  | _ + 1, _, _, [], s, h => some (some [], s, h)
  | fuel + 1, top, mc, b :: p, s, h =>
    match parseHead env top (b :: p) s with
    | .returns r s => some (r, s, h)
    | .name name p s =>
      (parseEntry (fun mc p s h => parseLoop env fuel false mc p s.levelUp h)
        (parseArraylh env fuel) env top name mc p s h).bind
        (afterEntry (parseLoop env fuel top) mc)

/-- `parse`。`mch` は渡された節である。 -/
def parse (env : Env) (buf : Bytes) (mch : Nat) (h : Nodes) : Option (Int × Pconf × Nodes) :=
  (parseLoop env (buf.length + 1) true mch buf ⟨1, 0, []⟩ h).map fun (p, s, h) =>
    if p = some [] ∧ s.level = 0 then (0, s, h)
    else (-1, if s.level > 0 then s.report .unexceptClose (p.getD s.stopped) else s, h)

/-- `delete_node`。 -/
def deleteNode (fuel : Nat) (h : Nodes) (node : Nat) : Except NodeHeap.HeapFault Nodes :=
  h.destroy fuel node

/-! ## 返る木を書いたものである -/

/-- `CN_S` の list を、指す節の木とみる。 -/
def forest : CN → Forest Item
  | .null => .null
  | .node modn var ntype smodlh next => .node ⟨modn, var, ntype⟩ (forest smodlh) (forest next)

/-- `mc` は、`memset` したままの節である。 -/
structure Blank (h : Nodes) (mc : Nat) : Prop where
  cell : h.cell mc = some ⟨.zero, 0, 0⟩
  le : mc ≤ h.count

variable {h : Nodes} {mc : Nat} {sub arr : Bytes → Pconf → Option Conf.Result}
  {subAt arrAt : Nat → Bytes → Pconf → Nodes → Option Result}

/-- 返る木を `mc` から書く。 -/
def placed (h : Nodes) (mc : Nat) : Conf.Result → Result
  | (r, s, cn) => (r, s, h.place .zero mc (forest cn))

/-- `next` を繋ぐ前の節と、その中の list を書く。 -/
def placeFields (h : Nodes) (mc : Nat) (f : Fields) : Nodes :=
  (h.setData mc ⟨f.modn, f.var, f.ntype⟩).placeChild .zero mc (forest f.smodlh)

def placedFields (h : Nodes) (mc : Nat) : Step × Pconf × Fields → Step × Pconf × Nodes
  | (st, s, f) => (st, s, placeFields h mc f)

/-- 空の節 `mc` へ読んだ結果 `x` は、返る木 `y` を書いたものである。返る木は空でない。 -/
structure Written (h : Nodes) (mc : Nat) (x : Option Result) (y : Option Conf.Result) : Prop where
  eq : x = y.map (placed h mc)
  node : ∀ r, y = some r → (forest r.2.2).isNull = false

/-- 空の節へ読めば、返る木が書かれている。 -/
def Places (subAt : Nat → Bytes → Pconf → Nodes → Option Result)
    (sub : Bytes → Pconf → Option Conf.Result) : Prop :=
  ∀ mc p s h, Blank h mc → Written h mc (subAt mc p s h) (sub p s)

/-! ### 節を書く -/

/-- 繋いだばかりの節は、`memset` したままである。 -/
theorem blank_fresh (hmc : mc ≤ h.count) (f : HeapNode Item → HeapNode Item) :
    Blank ((newNode h).modify mc f) h.fresh where
  cell := by
    have hne : h.count + 1 ≠ mc := by omega
    simp [newNode, NodeHeap.fresh, hne]
  le := by simp [newNode, NodeHeap.fresh]

theorem placeChild_eq (h : Nodes) (mc : Nat) {c : Forest Item} (hc : c.isNull = false) :
    h.placeChild .zero mc c = ((newNode h).setChild mc h.fresh).place .zero h.fresh c := by
  simp [NodeHeap.placeChild, newNode, hc]

theorem placeNext_eq (h : Nodes) (mc : Nat) {n : Forest Item} (hn : n.isNull = false) :
    h.placeNext .zero mc n = ((newNode h).setNext mc h.fresh).place .zero h.fresh n := by
  simp [NodeHeap.placeNext, newNode, hn]

/-- 何も書かない。 -/
theorem place_newNode (hblank : Blank h mc) : h.place .zero mc (forest Conf.newNode) = h :=
  NodeHeap.modify_of_eq hblank.cell rfl

theorem place_link (h : Nodes) (mc : Nat) (f : Fields) (next : CN) :
    h.place .zero mc (forest (f.link next)) = (placeFields h mc f).placeNext .zero mc (forest next) :=
  rfl

theorem le_placeFields (h : Nodes) (mc : Nat) (f : Fields) : h.count ≤ (placeFields h mc f).count :=
  (NodeHeap.grows Item.zero (forest f.smodlh)).placeChild
    (h.setData mc ⟨f.modn, f.var, f.ntype⟩) mc

/-- 書いた節に `next` を繋ぐ。 -/
theorem blank_next (hblank : Blank h mc) (f : Fields) :
    Blank ((newNode (placeFields h mc f)).setNext mc (placeFields h mc f).fresh)
      (placeFields h mc f).fresh :=
  blank_fresh (le_trans hblank.le (le_placeFields h mc f)) _

/-- 空の節の欄を順に書くのと、まとめて書くのは同じである。 -/
theorem setNtype_eq (hblank : Blank h mc) (t : NodeType) :
    setNtype h mc t = placeFields h mc ⟨[], [], t, .null⟩ :=
  NodeHeap.modify_congr hblank.cell rfl

theorem setModn_setNtype (hblank : Blank h mc) (w : Bytes) (t : NodeType) :
    setModn (setNtype h mc t) mc w = placeFields h mc ⟨w, [], t, .null⟩ := by
  rw [setModn, setNtype, NodeHeap.modify_modify]
  exact NodeHeap.modify_congr hblank.cell rfl

theorem setNtype_setModn (hblank : Blank h mc) (w : Bytes) (t : NodeType) :
    setNtype (setModn h mc w) mc t = placeFields h mc ⟨w, [], t, .null⟩ := by
  rw [setModn, setNtype, NodeHeap.modify_modify]
  exact NodeHeap.modify_congr hblank.cell rfl

theorem setNtype_setVar (hblank : Blank h mc) (v : Bytes) (t : NodeType) :
    setNtype (setVar h mc v) mc t = placeFields h mc ⟨[], v, t, .null⟩ := by
  rw [setVar, setNtype, NodeHeap.modify_modify]
  exact NodeHeap.modify_congr hblank.cell rfl

theorem setVar_placeFields (h : Nodes) (mc : Nat) (w v : Bytes) (t : NodeType) :
    setVar (placeFields h mc ⟨w, [], t, .null⟩) mc v = placeFields h mc ⟨w, v, t, .null⟩ :=
  NodeHeap.modify_modify

/-- 名前と種類を書いた節の子を作り、中の list を書く。 -/
theorem placeFields_child (h : Nodes) (mc : Nat) (w : Bytes) (t : NodeType) {c : CN}
    (hc : (forest c).isNull = false) :
    placeFields h mc ⟨w, [], t, c⟩ =
      ((newNode (placeFields h mc ⟨w, [], t, .null⟩)).setChild mc
        (placeFields h mc ⟨w, [], t, .null⟩).fresh).place .zero
          (placeFields h mc ⟨w, [], t, .null⟩).fresh (forest c) :=
  placeChild_eq (h.setData mc ⟨w, [], t⟩) mc hc

/-- 名前と種類を書いた節に、子を繋ぐ。 -/
theorem blank_child (hblank : Blank h mc) (w : Bytes) (t : NodeType) :
    Blank ((newNode (placeFields h mc ⟨w, [], t, .null⟩)).setChild mc
      (placeFields h mc ⟨w, [], t, .null⟩).fresh) (placeFields h mc ⟨w, [], t, .null⟩).fresh :=
  blank_fresh (le_trans hblank.le (le_placeFields h mc _)) _

/-! ### 一つの結果 -/

variable {r : Option Bytes} {s : Pconf}

/-- 何も書かずに返る。 -/
theorem written_newNode (hblank : Blank h mc) (r : Option Bytes) (s : Pconf) :
    Written h mc (some (r, s, h)) (some (r, s, Conf.newNode)) where
  eq := by simp [placed, place_newNode hblank]
  node x hx := by
    cases hx
    rfl

/-- 書いた節の `next` を作り、そこから先を読む。 -/
theorem written_link {f : Fields} {x : Option Result} {y : Option Conf.Result}
    (hnext : Written ((newNode (placeFields h mc f)).setNext mc (placeFields h mc f).fresh)
      (placeFields h mc f).fresh x y) :
    Written h mc x (y.map fun (r, s, next) => (r, s, f.link next)) where
  eq := by
    rw [hnext.eq, Option.map_map]
    refine Option.map_congr fun x hx => ?_
    simp only [placed, Function.comp_apply, place_link, placeNext_eq _ _ (hnext.node x hx)]
  node x hx := by
    obtain ⟨y, -, rfl⟩ := Option.map_eq_some_iff.mp hx
    rfl

/-! ### 配列 -/

theorem parseArraylhLoop_places (env : Env) (fuel : Nat) (need : Bool) :
    Places (parseArraylhLoop env fuel need) (Conf.parseArraylhLoop env fuel need) := by
  intro mc p s h hblank
  induction fuel generalizing need mc p s h with
  | zero => exact ⟨rfl, nofun⟩
  | succ fuel ih =>
    cases p with
    | nil => exact written_newNode hblank _ _
    | cons b p =>
      simp only [parseArraylhLoop, Conf.parseArraylhLoop]
      obtain ⟨q, s⟩ := jumpspace (b :: p) s
      cases q with
      | nil => exact written_newNode hblank _ _
      | cons b rest =>
        by_cases hclose : b = rbracket
        · simp only [if_pos hclose]
          exact written_newNode hblank _ _
        by_cases hcomma : need ∧ b ≠ comma
        · simp only [if_neg hclose, if_pos hcomma]
          exact written_newNode hblank _ _
        simp only [if_neg hclose, if_neg hcomma]
        obtain ⟨q, w, s⟩ := findValidArrayValue env (if need then rest else b :: rest) s
        cases w.read none with
        | none => exact written_newNode hblank _ _
        | some value =>
          by_cases hq : q = []
          · simp only [if_pos hq]
            exact written_newNode hblank _ _
          · simp only [if_neg hq, setNtype_setVar hblank]
            exact written_link (ih _ _ _ _ _ (blank_next hblank _))

/-! ### 項目 -/

/-- 項目を読んだ結果は、返る節を、`next` の手前まで書いたものである。 -/
def Entered (h : Nodes) (mc : Nat) (x : Option (Step × Pconf × Nodes))
    (y : Option (Step × Pconf × Fields)) : Prop := x = y.map (placedFields h mc)

/-- 名前と種類を書いた節の子へ読む。 -/
theorem intoChild_entered (hsub : Places subAt sub) (hblank : Blank h mc) (w : Bytes) (t : NodeType)
    (p : Bytes) (s : Pconf) :
    Entered h mc (intoChild subAt mc p s (placeFields h mc ⟨w, [], t, .null⟩))
      ((sub p s).map fun (r, s, smodlh) => (.goOn r, s, ⟨w, [], t, smodlh⟩)) := by
  have hwritten := hsub _ p s _ (blank_child hblank w t)
  rw [Entered, intoChild, hwritten.eq, Option.map_map, Option.map_map]
  refine Option.map_congr fun x hx => ?_
  simp only [Function.comp_apply, placed, placedFields, placeFields_child h mc w t (hwritten.node x hx)]

theorem parseProc_entered (hsub : Places subAt sub) (hblank : Blank h mc) (env : Env) (p : Bytes)
    (s : Pconf) :
    Entered h mc (parseProc subAt env mc p s (setNtype h mc .procModT)) (Conf.parseProc sub env p s) := by
  simp only [parseProc, Conf.parseProc, setModn_setNtype hblank]
  obtain ⟨q, w, s⟩ := findValidName env p s
  cases w.read none with
  | none => simp [Entered, placedFields, setNtype_eq hblank]
  | some modName =>
    by_cases hq : q = []
    · simp [Entered, placedFields, setNtype_eq hblank, hq]
    · simp only [if_neg hq]
      obtain ⟨q', s⟩ := jumpspace q s
      by_cases hopen : deref q' = lbrace
      · simp only [if_pos hopen]
        exact intoChild_entered hsub hblank _ _ _ _
      · simp only [if_neg hopen]
        -- 開き括弧が無くても、子の節は作られている
        rw [Entered, Option.map_some, placedFields, placeFields_child (c := Conf.newNode) h mc _ _ rfl,
          place_newNode (blank_child hblank _ _)]

theorem parseValue_entered (hblank : Blank h mc) (env : Env) (name p : Bytes) (s : Pconf) :
    Entered h mc (parseValue env name mc p s (setNtype h mc .charT))
      (Conf.parseValue env name p s) := by
  simp only [parseValue, Conf.parseValue, setModn_setNtype hblank]
  obtain ⟨q, w, s⟩ := findValidValue env p s
  cases w.read none with
  | none => rfl
  | some value =>
    by_cases hq : q = []
    · simp only [if_pos hq]
      rfl
    · simp only [if_neg hq, setVar_placeFields]
      rfl

theorem parseKeyword_entered (hsub : Places subAt sub) (hblank : Blank h mc) (env : Env) (top : Bool)
    (name p : Bytes) (s : Pconf) :
    Entered h mc (parseKeyword subAt env top name mc p s h)
      (Conf.parseKeyword sub env top name p s) := by
  simp only [parseKeyword, Conf.parseKeyword]
  generalize checkKeyword name = t
  have hunsupport (t : NodeType) : Entered h mc
      (some (.returnNull, s.report .unsupportKeyword p, setNtype h mc t))
      (some (.returnNull, s.report .unsupportKeyword p, ⟨[], [], t, .null⟩)) := by
    simp only [Entered, Option.map_some, placedFields, setNtype_eq hblank]
  cases t with
  | charT => exact parseValue_entered hblank env name p s
  | procModT =>
    cases top with
    | true => exact parseProc_entered hsub hblank env p s
    | false => exact hunsupport .procModT
  | emptyT => exact hunsupport .emptyT
  | subnodeT => exact hunsupport .subnodeT
  | arrayT => exact hunsupport .arrayT
  | arrayEle => exact hunsupport .arrayEle
  | cmdT => exact hunsupport .cmdT

theorem parseEntry_entered (hsub : Places subAt sub) (harr : Places arrAt arr) (hblank : Blank h mc)
    (env : Env) (top : Bool) (name p : Bytes) (s : Pconf) :
    Entered h mc (parseEntry subAt arrAt env top name mc p s h)
      (Conf.parseEntry sub arr env top name p s) := by
  simp only [parseEntry, Conf.parseEntry]
  obtain ⟨isSub, s⟩ := isSubNode p s
  cases isSub with
  | true =>
    simp only [if_true, setNtype_setModn hblank]
    exact intoChild_entered hsub hblank _ _ _ _
  | false =>
    simp only [Bool.false_eq_true, if_false]
    obtain ⟨isArray, s⟩ := isArrayNode p s
    cases isArray with
    | true =>
      simp only [if_true, setNtype_setModn hblank]
      exact intoChild_entered harr hblank _ _ _ _
    | false => exact parseKeyword_entered hsub hblank env top name p s

/-! ### 全体 -/

/-- 書き終えた項目の次の節を作り、loop を続ける。 -/
theorem afterEntry_written {loopAt : Nat → Bytes → Pconf → Nodes → Option Result}
    {loop : Bytes → Pconf → Option Conf.Result} (hloop : Places loopAt loop) (hblank : Blank h mc)
    (x : Step × Pconf × Fields) :
    Written h mc (afterEntry loopAt mc (placedFields h mc x)) (Conf.afterEntry loop x) := by
  obtain ⟨st, s, f⟩ := x
  cases st with
  | returnNull =>
    refine ⟨rfl, fun x hx => ?_⟩
    cases hx
    rfl
  | goOn r =>
    cases r with
    | none =>
      exact written_link (y := some (none, s, Conf.newNode))
        (written_newNode (blank_next hblank f) none s)
    | some p => exact written_link (hloop _ p s _ (blank_next hblank f))

/-- **`mc` に書く loop が作る節は、返る木を書いたものである。** -/
theorem parseLoop_places (env : Env) (fuel : Nat) (top : Bool) :
    Places (parseLoop env fuel top) (Conf.parseLoop env fuel top) := by
  induction fuel generalizing top with
  | zero => exact fun mc p s h _ => ⟨rfl, nofun⟩
  | succ fuel ih =>
    intro mc p s h hblank
    cases p with
    | nil => exact written_newNode hblank _ _
    | cons b p =>
      simp only [parseLoop, Conf.parseLoop]
      cases parseHead env top (b :: p) s with
      | returns r s => exact written_newNode hblank r s
      | name name p s =>
        have hsub : Places (fun mc p s h => parseLoop env fuel false mc p s.levelUp h)
            (fun p s => Conf.parseLoop env fuel false p s.levelUp) :=
          fun mc p s h hblank => ih false mc p s.levelUp h hblank
        have harr : Places (parseArraylh env fuel) (Conf.parseArraylh env fuel) :=
          fun mc p s h hblank => parseArraylhLoop_places env fuel false mc p s.levelUp h hblank
        have hentry := parseEntry_entered hsub harr hblank env top name p s
        simp only
        rw [hentry]
        cases Conf.parseEntry (fun p s => Conf.parseLoop env fuel false p s.levelUp)
            (Conf.parseArraylh env fuel) env top name p s with
        | none => exact ⟨rfl, nofun⟩
        | some x => exact afterEntry_written (ih top) hblank x

/-- **`parse` の返り値と状態は変わらず、節は、返る木を `mch` から書いたものである。** -/
theorem parse_places (env : Env) (buf : Bytes) (hblank : Blank h mc) {code : Int} {s : Pconf} {cn : CN}
    (hparse : Conf.parse env buf = some (code, s, cn)) :
    parse env buf mc h = some (code, s, h.place .zero mc (forest cn)) ∧
      (forest cn).isNull = false := by
  have hloop := parseLoop_places env (buf.length + 1) true mc buf ⟨1, 0, []⟩ h hblank
  simp only [Conf.parse, Conf.parseMain, Option.map_eq_some_iff] at hparse
  obtain ⟨⟨r, s', cn'⟩, hmain, hres⟩ := hparse
  rw [parse, hloop.eq, hmain]
  have hnode := hloop.node _ hmain
  by_cases hok : r = some [] ∧ s'.level = 0
  · simp only [if_pos hok] at hres
    cases hres
    exact ⟨by simp [placed, hok], hnode⟩
  · simp only [if_neg hok] at hres
    cases hres
    exact ⟨by simp [placed, hok], hnode⟩

end RecordServer.Conf.Linked
