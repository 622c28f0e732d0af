import RecordServer.Conf.LinkedParser

/-!
# 節を辿る取り出し

`get_*` は節の pointer を受け取り、`next` を辿る。`get_size_from_array` と `get_value_from_array_by_index` は
`NULL` を確かめずに `psub->ntype` を読む。止まるのは、`array_ele` でない節に着いたときである。

* `getProcMod` … `getValueFromArrayByIndex` — 節を辿る `get_*`
* `Ended` — どの配列の並びも、`array_ele` でない節で終わる
* `parse_ended` — `parse` の作る木は、途中で拒まれても `Ended` である
* `Answers` — 節を辿る `get_*` は、無い節に触れずに終わり、木から取り出したものを返す
-/

namespace RecordServer.Conf.Linked

open Infra NodeHeap

/-! ## 取り出し -/

/-- `next` を辿り、`pick` が答える最初の節の答えを得る。 -/
def findNode {β : Type} (pick : Nat → HeapNode Item → Option β) :
    Nat → Nodes → Nat → Except HeapFault (Option β)
  | 0, _, _ => .error .fuel
  | fuel + 1, h, p =>
    if p = 0 then .ok none
    else do
      let n ← h.read p
      match pick p n with
      | some b => .ok (some b)
      | none => findNode pick fuel h n.next

def getProcMod (fuel : Nat) (h : Nodes) (mc : Nat) : Except HeapFault Nat :=
  (findNode (fun p n => if n.data.ntype = .procModT then some p else none) fuel h mc).map (·.getD 0)

def getValueFromNode (vn : Bytes) (fuel : Nat) (h : Nodes) (mc : Nat) :
    Except HeapFault (Option Bytes) :=
  findNode (fun _ n => if n.data.ntype = .charT ∧ strmatch vn n.data.modn then some n.data.var
    else none) fuel h mc

def getSubmodFromNode (mn : Bytes) (fuel : Nat) (h : Nodes) (mc : Nat) : Except HeapFault Nat :=
  (findNode (fun _ n => if n.data.ntype = .subnodeT ∧ strmatch mn n.data.modn then some n.child
    else none) fuel h mc).map (·.getD 0)

def getArrayFromNode (mn : Bytes) (fuel : Nat) (h : Nodes) (mc : Nat) : Except HeapFault Nat :=
  (findNode (fun p n => if n.data.ntype = .arrayT ∧ strmatch mn n.data.modn then some p
    else none) fuel h mc).map (·.getD 0)

/-- `array_ele` の節を数える loop。`psub` が `NULL` でないことは確かめない。 -/
def countElements : Nat → Nodes → Nat → Except HeapFault Nat
  | 0, _, _ => .error .fuel
  | fuel + 1, h, psub => do
    let n ← h.read psub
    if n.data.ntype = .arrayEle then
      let size ← countElements fuel h n.next
      .ok (size + 1)
    else .ok 0

def getSizeFromArray (fuel : Nat) (h : Nodes) (mc : Nat) : Except HeapFault Nat :=
  if mc = 0 then .ok 0
  else do
    let n ← h.read mc
    if n.data.ntype = .arrayT then countElements fuel h n.child else .ok 0

/-- `index` 番目の `array_ele` を探す loop。ここでも `psub` は確かめない。 -/
def elementAt (index : Int) : Nat → Int → Nodes → Nat → Except HeapFault (Option Bytes)
  | 0, _, _, _ => .error .fuel
  | fuel + 1, inpos, h, psub => do
    let n ← h.read psub
    if n.data.ntype = .arrayEle then
      if index = inpos then .ok (some n.data.var)
      else elementAt index fuel (inpos + 1) h n.next
    else .ok none

def getValueFromArrayByIndex (index : Int) (fuel : Nat) (h : Nodes) (mc : Nat) :
    Except HeapFault (Option Bytes) :=
  if mc = 0 then .ok none
  else do
    let n ← h.read mc
    if n.data.ntype = .arrayT then elementAt index fuel 0 h n.child else .ok none

/-! ## 配列の終わり -/

/-- `array_ele` の節が続いた後に、`array_ele` でない節がある。 -/
def Elements : CN → Prop
  | .null => False
  | .node _ _ ntype _ next => ntype = .arrayEle → Elements next

/-- どの `array_t` の節の並びも `Elements` である。 -/
def Ended : CN → Prop
  | .null => True
  | .node _ _ ntype smodlh next => (ntype = .arrayT → Elements smodlh) ∧ Ended smodlh ∧ Ended next

/-- `next` を繋ぐ前の節。 -/
def EndedFields (f : Fields) : Prop := (f.ntype = .arrayT → Elements f.smodlh) ∧ Ended f.smodlh

theorem ended_newNode : Ended Conf.newNode := ⟨nofun, trivial, trivial⟩

theorem elements_newNode : Elements Conf.newNode := nofun

theorem EndedFields.link {f : Fields} {next : CN} (hf : EndedFields f) (hnext : Ended next) :
    Ended (f.link next) := ⟨hf.1, hf.2, hnext⟩

/-- 返す list がいつも `Q` を満たす。 -/
def Yielding (Q : CN → Prop) (sub : Bytes → Pconf → Option Conf.Result) : Prop :=
  ∀ p s x, sub p s = some x → Q x.2.2

theorem parseArraylhLoop_elements (env : Env) (fuel : Nat) (need : Bool) :
    Yielding (fun cn => Elements cn ∧ Ended cn) (Conf.parseArraylhLoop env fuel need) := by
  have hlast : Elements Conf.newNode ∧ Ended Conf.newNode := ⟨elements_newNode, ended_newNode⟩
  induction fuel generalizing need with
  | zero => exact fun p s x hx => by cases hx
  | succ fuel ih =>
    intro p s x hx
    cases p with
    | nil =>
      cases hx
      exact hlast
    | cons b p =>
      simp only [Conf.parseArraylhLoop] at hx
      generalize jumpspace (b :: p) s = j at hx
      obtain ⟨q, s⟩ := j
      cases q with
      | nil =>
        cases hx
        exact hlast
      | cons b rest =>
        by_cases hclose : b = rbracket
        · simp only [if_pos hclose] at hx
          cases hx
          exact hlast
        by_cases hcomma : need ∧ b ≠ comma
        · simp only [if_neg hclose, if_pos hcomma] at hx
          cases hx
          exact hlast
        simp only [if_neg hclose, if_neg hcomma] at hx
        generalize findValidArrayValue env (if need then rest else b :: rest) s = r at hx
        obtain ⟨q, w, s⟩ := r
        cases hw : w.read none with
        | none =>
          simp only [hw] at hx
          cases hx
          exact hlast
        | some value =>
          by_cases hq : q = []
          · simp only [hw, if_pos hq] at hx
            cases hx
            exact hlast
          · simp only [hw, if_neg hq] at hx
            obtain ⟨y, hy, rfl⟩ := Option.map_eq_some_iff.mp hx
            obtain ⟨helements, hended⟩ := ih true q s y hy
            exact ⟨fun _ => helements, by simp, trivial, hended⟩

variable {sub arr : Bytes → Pconf → Option Conf.Result}

/-- 読んだ項目がいつも `EndedFields` である。 -/
def YieldingFields (x : Option (Step × Pconf × Fields)) : Prop :=
  ∀ y, x = some y → EndedFields y.2.2

theorem yieldingFields_some {st : Step} {s : Pconf} {f : Fields} (hf : EndedFields f) :
    YieldingFields (some (st, s, f)) := fun y hy => by
  cases hy
  exact hf

theorem endedFields_leaf {n v : Bytes} {t : NodeType} (ht : t ≠ .arrayT) :
    EndedFields ⟨n, v, t, .null⟩ := ⟨fun h => absurd h ht, trivial⟩

theorem endedFields_block {n : Bytes} {t : NodeType} {c : CN} (ht : t ≠ .arrayT) (hc : Ended c) :
    EndedFields ⟨n, [], t, c⟩ := ⟨fun h => absurd h ht, hc⟩

theorem parseProc_ended (hsub : Yielding Ended sub) (env : Env) (p : Bytes) (s : Pconf) :
    YieldingFields (Conf.parseProc sub env p s) := by
  simp only [Conf.parseProc]
  obtain ⟨q, w, s⟩ := findValidName env p s
  cases w.read none with
  | none => exact yieldingFields_some (endedFields_leaf (by decide))
  | some modName =>
    by_cases hq : q = []
    · simp only [if_pos hq]
      exact yieldingFields_some (endedFields_leaf (by decide))
    · simp only [if_neg hq]
      obtain ⟨q', s⟩ := jumpspace q s
      by_cases hopen : deref q' = lbrace
      · simp only [if_pos hopen]
        intro y hy
        obtain ⟨x, hx, rfl⟩ := Option.map_eq_some_iff.mp hy
        exact endedFields_block (by decide) (hsub _ _ x hx)
      · simp only [if_neg hopen]
        exact yieldingFields_some (endedFields_block (by decide) ended_newNode)

theorem parseValue_ended (env : Env) (name p : Bytes) (s : Pconf) :
    YieldingFields (Conf.parseValue env name p s) := by
  simp only [Conf.parseValue]
  obtain ⟨q, w, s⟩ := findValidValue env p s
  cases w.read none with
  | none => exact yieldingFields_some (endedFields_leaf (by decide))
  | some value =>
    by_cases hq : q = []
    · simp only [if_pos hq]
      exact yieldingFields_some (endedFields_leaf (by decide))
    · simp only [if_neg hq]
      exact yieldingFields_some (endedFields_leaf (by decide))

/-- `check_keyword` が `array_t` を返すことはない。 -/
theorem parseKeyword_ended (hsub : Yielding Ended sub) (env : Env) (top : Bool) (name p : Bytes)
    (s : Pconf) : YieldingFields (Conf.parseKeyword sub env top name p s) := by
  have hkeyword : checkKeyword name = .procModT ∨ checkKeyword name = .charT := by
    unfold checkKeyword
    split
    · exact Or.inl rfl
    · exact Or.inr rfl
  simp only [Conf.parseKeyword]
  rcases hkeyword with h | h
  · cases top with
    | true =>
      simp only [h]
      exact parseProc_ended hsub env p s
    | false =>
      simp only [h]
      exact yieldingFields_some (endedFields_leaf (by decide))
  · simp only [h]
    exact parseValue_ended env name p s

theorem parseEntry_ended (hsub : Yielding Ended sub)
    (harr : Yielding (fun cn => Elements cn ∧ Ended cn) arr) (env : Env) (top : Bool)
    (name p : Bytes) (s : Pconf) : YieldingFields (Conf.parseEntry sub arr env top name p s) := by
  simp only [Conf.parseEntry]
  obtain ⟨isSub, s⟩ := isSubNode p s
  cases isSub with
  | true =>
    intro y hy
    obtain ⟨x, hx, rfl⟩ := Option.map_eq_some_iff.mp hy
    exact endedFields_block (by decide) (hsub _ _ x hx)
  | false =>
    simp only [Bool.false_eq_true, if_false]
    obtain ⟨isArray, s⟩ := isArrayNode p s
    cases isArray with
    | true =>
      intro y hy
      obtain ⟨x, hx, rfl⟩ := Option.map_eq_some_iff.mp hy
      obtain ⟨helements, hended⟩ := harr _ _ x hx
      exact ⟨fun _ => helements, hended⟩
    | false => exact parseKeyword_ended hsub env top name p s

theorem afterEntry_ended {loop : Bytes → Pconf → Option Conf.Result} (hloop : Yielding Ended loop)
    {x : Step × Pconf × Fields} (hx : EndedFields x.2.2) {y : Conf.Result}
    (hy : Conf.afterEntry loop x = some y) : Ended y.2.2 := by
  obtain ⟨st, s, f⟩ := x
  cases st with
  | returnNull =>
    cases hy
    exact hx.link trivial
  | goOn r =>
    cases r with
    | none =>
      cases hy
      exact hx.link ended_newNode
    | some p =>
      obtain ⟨z, hz, rfl⟩ := Option.map_eq_some_iff.mp hy
      exact hx.link (hloop p s z hz)

/-- **読み切っても、途中で返っても、どの配列も `array_ele` でない節で終わる。** -/
theorem parseLoop_ended (env : Env) (fuel : Nat) (top : Bool) :
    Yielding Ended (Conf.parseLoop env fuel top) := by
  induction fuel generalizing top with
  | zero => exact fun p s x hx => by cases hx
  | succ fuel ih =>
    intro p s x hx
    cases p with
    | nil =>
      cases hx
      exact ended_newNode
    | cons b p =>
      simp only [Conf.parseLoop] at hx
      cases hhead : parseHead env top (b :: p) s with
      | returns r s =>
        rw [hhead] at hx
        cases hx
        exact ended_newNode
      | name name p s =>
        simp only [hhead] at hx
        obtain ⟨y, hy, hafter⟩ := Option.bind_eq_some_iff.mp hx
        have hsub : Yielding Ended fun p s => Conf.parseLoop env fuel false p s.levelUp :=
          fun p s x hx => ih false p s.levelUp x hx
        have harr : Yielding (fun cn => Elements cn ∧ Ended cn) (Conf.parseArraylh env fuel) :=
          fun p s x hx => parseArraylhLoop_elements env fuel false p s.levelUp x hx
        exact afterEntry_ended (ih top) (parseEntry_ended hsub harr env top name p s y hy) hafter

theorem parse_ended {env : Env} {buf : Bytes} {code : Int} {s : Pconf} {cn : CN}
    (hparse : Conf.parse env buf = some (code, s, cn)) : Ended cn := by
  simp only [Conf.parse, Conf.parseMain, Option.map_eq_some_iff] at hparse
  obtain ⟨⟨r, s', cn'⟩, hmain, hres⟩ := hparse
  have hended := parseLoop_ended env (buf.length + 1) true buf ⟨1, 0, []⟩ _ hmain
  by_cases hok : r = some [] ∧ s'.level = 0
  · simp only [if_pos hok] at hres
    cases hres
    exact hended
  · simp only [if_neg hok] at hres
    cases hres
    exact hended

/-! ## 取り出した答え -/

variable {h : Nodes} {p : Nat} {cn u : CN}

/-- `p` から辿れる節が、list `cn` をなす。 -/
def At (h : Nodes) (p : Nat) (cn : CN) : Prop := ∃ ps, h.Rep p (forest cn) ps

theorem At.null (h : Nodes) : At h 0 .null := ⟨[], rfl, rfl⟩

theorem At.node {modn var : Bytes} {ntype : NodeType} {smodlh next : CN}
    (hat : At h p (.node modn var ntype smodlh next)) :
    p ≠ 0 ∧ ∃ pc pn, h.cell p = some ⟨⟨modn, var, ntype⟩, pc, pn⟩ ∧ At h pc smodlh ∧ At h pn next := by
  obtain ⟨ps, hp, pc, pn, cs, ns, hcell, hc, hn, -⟩ := hat
  exact ⟨hp, pc, pn, hcell, ⟨cs, hc⟩, ⟨ns, hn⟩⟩

/-- 辿って着く節からも、`Ended` な list が続く。 -/
theorem At.reaches {q : Nat} (hat : At h p cn) (hended : Ended cn) (hq : h.Reaches p q) :
    ∃ u, At h q u ∧ Ended u := by
  induction hq with
  | root => exact ⟨cn, hat, hended⟩
  | child _ hne hcell ih =>
    obtain ⟨u, hu, hendedu⟩ := ih
    cases u with
    | null =>
      obtain ⟨ps, hzero, -⟩ := hu
      exact absurd hzero hne
    | node modn var ntype smodlh next =>
      obtain ⟨-, pc, pn, hcell', hc, -⟩ := hu.node
      obtain rfl := Option.some.inj (hcell.symm.trans hcell')
      exact ⟨smodlh, hc, hendedu.2.1⟩
  | next _ hne hcell ih =>
    obtain ⟨u, hu, hendedu⟩ := ih
    cases u with
    | null =>
      obtain ⟨ps, hzero, -⟩ := hu
      exact absurd hzero hne
    | node modn var ntype smodlh next =>
      obtain ⟨-, pc, pn, hcell', -, hn⟩ := hu.node
      obtain rfl := Option.some.inj (hcell.symm.trans hcell')
      exact ⟨next, hn, hendedu.2.2⟩

/--
**`next` を辿る loop の規則。**

`pick` の答えが一つの節で `g` と合い、答えないときは `g` も次の節に同じなら、loop の答えは `g` と合う。
-/
theorem findNode_yields {β γ : Type} {pick : Nat → HeapNode Item → Option β} {g : CN → γ}
    {R : Option β → γ → Prop} (hnull : R none (g .null))
    (hnode : ∀ p modn var ntype smodlh next pc pn,
      At h p (.node modn var ntype smodlh next) → At h pc smodlh →
      (∃ b, pick p ⟨⟨modn, var, ntype⟩, pc, pn⟩ = some b ∧
        R (some b) (g (.node modn var ntype smodlh next))) ∨
      (pick p ⟨⟨modn, var, ntype⟩, pc, pn⟩ = none ∧
        g (.node modn var ntype smodlh next) = g next))
    (hat : At h p u) :
    ∃ r, Yields ((forest u).size + 1) (fun fuel => findNode pick fuel h p) r ∧ R r (g u) := by
  induction u generalizing p with
  | null =>
    obtain ⟨ps, rfl, -⟩ := hat
    exact ⟨none, .of_succ fun fuel _ => rfl, hnull⟩
  | node modn var ntype smodlh next _ ih =>
    obtain ⟨hp, pc, pn, hcell, hc, hn⟩ := hat.node
    rcases hnode p modn var ntype smodlh next pc pn hat hc with ⟨b, hpick, hR⟩ | ⟨hpick, hg⟩
    · refine ⟨some b, .of_succ fun fuel _ => ?_, hR⟩
      simp [findNode, hp, read_eq h hp hcell, hpick, bind, Except.bind]
    · obtain ⟨r, hr, hR⟩ := ih hn
      refine ⟨r, .of_succ fun fuel hfuel => ?_, hg ▸ hR⟩
      have hnext := hr fuel (le_trans (by simp only [forest, Forest.size]; omega) hfuel)
      simp [findNode, hp, read_eq h hp hcell, hpick, bind, Except.bind, hnext]

/-- 節を得る loop は、木から得る節の pointer を返す。 -/
theorem findPointer_yields {pick : Nat → HeapNode Item → Option Nat} {g : CN → CN}
    (hnull : g .null = .null)
    (hnode : ∀ p modn var ntype smodlh next pc pn,
      At h p (.node modn var ntype smodlh next) → At h pc smodlh →
      (∃ q, pick p ⟨⟨modn, var, ntype⟩, pc, pn⟩ = some q ∧
        At h q (g (.node modn var ntype smodlh next))) ∨
      (pick p ⟨⟨modn, var, ntype⟩, pc, pn⟩ = none ∧
        g (.node modn var ntype smodlh next) = g next))
    (hat : At h p u) :
    ∃ q, Yields ((forest u).size + 1) (fun fuel => (findNode pick fuel h p).map (·.getD 0)) q ∧
      At h q (g u) := by
  obtain ⟨r, hr, hR⟩ := findNode_yields (R := fun r c => At h (r.getD 0) c)
    (by rw [hnull]; exact At.null h) hnode hat
  exact ⟨_, hr.map _, hR⟩

theorem getProcMod_yields (hat : At h p u) :
    ∃ q, Yields ((forest u).size + 1) (fun fuel => getProcMod fuel h p) q ∧
      At h q (Conf.getProcMod u) := by
  refine findPointer_yields rfl (fun p modn var ntype smodlh next pc pn hp _ => ?_) hat
  by_cases ht : ntype = .procModT
  · exact Or.inl ⟨p, by simp [ht], by simpa [Conf.getProcMod, ht] using hp⟩
  · exact Or.inr ⟨by simp [ht], by simp [Conf.getProcMod, ht]⟩

theorem getSubmodFromNode_yields (mn : Bytes) (hat : At h p u) :
    ∃ q, Yields ((forest u).size + 1) (fun fuel => getSubmodFromNode mn fuel h p) q ∧
      At h q (Conf.getSubmodFromNode mn u) := by
  refine findPointer_yields rfl (fun p modn var ntype smodlh next pc pn _ hc => ?_) hat
  by_cases ht : ntype = .subnodeT ∧ strmatch mn modn
  · exact Or.inl ⟨pc, by simp [ht], by simpa [Conf.getSubmodFromNode, ht] using hc⟩
  · exact Or.inr ⟨by simp [ht], by simp [Conf.getSubmodFromNode, ht]⟩

theorem getArrayFromNode_yields (mn : Bytes) (hat : At h p u) :
    ∃ q, Yields ((forest u).size + 1) (fun fuel => getArrayFromNode mn fuel h p) q ∧
      At h q (Conf.getArrayFromNode mn u) := by
  refine findPointer_yields rfl (fun p modn var ntype smodlh next pc pn hp _ => ?_) hat
  by_cases ht : ntype = .arrayT ∧ strmatch mn modn
  · exact Or.inl ⟨p, by simp [ht], by simpa [Conf.getArrayFromNode, ht] using hp⟩
  · exact Or.inr ⟨by simp [ht], by simp [Conf.getArrayFromNode, ht]⟩

theorem getValueFromNode_yields (vn : Bytes) (hat : At h p u) :
    Yields ((forest u).size + 1) (fun fuel => getValueFromNode vn fuel h p)
      (Conf.getValueFromNode vn u) := by
  suffices h : ∃ r, Yields ((forest u).size + 1) (fun fuel => getValueFromNode vn fuel h p) r ∧
      r = Conf.getValueFromNode vn u by
    obtain ⟨r, hr, rfl⟩ := h
    exact hr
  refine findNode_yields (R := fun r c => r = c) rfl
    (fun p modn var ntype smodlh next pc pn _ _ => ?_) hat
  by_cases ht : ntype = .charT ∧ strmatch vn modn
  · exact Or.inl ⟨var, by simp [ht], by simp [Conf.getValueFromNode, ht]⟩
  · exact Or.inr ⟨by simp [ht], by simp [Conf.getValueFromNode, ht]⟩

/-- 終わりのある並びでは、`psub` は `NULL` にならない。 -/
theorem countElements_yields (hat : At h p u) (hu : Elements u) :
    Yields (forest u).size (fun fuel => countElements fuel h p) (Conf.countElements u) := by
  induction u generalizing p with
  | null => exact hu.elim
  | node modn var ntype smodlh next _ ih =>
    obtain ⟨hp, pc, pn, hcell, -, hn⟩ := hat.node
    refine .of_succ fun fuel hfuel => ?_
    by_cases ht : ntype = .arrayEle
    · have hnext := ih hn (hu ht) fuel (le_trans (by omega) hfuel)
      simp [countElements, read_eq h hp hcell, ht, bind, Except.bind, hnext, Conf.countElements]
    · simp [countElements, read_eq h hp hcell, ht, bind, Except.bind, Conf.countElements]

theorem elementAt_yields (index inpos : Int) (hat : At h p u) (hu : Elements u) :
    Yields (forest u).size (fun fuel => elementAt index fuel inpos h p)
      (Conf.elementAt index inpos u) := by
  induction u generalizing p inpos with
  | null => exact hu.elim
  | node modn var ntype smodlh next _ ih =>
    obtain ⟨hp, pc, pn, hcell, -, hn⟩ := hat.node
    refine .of_succ fun fuel hfuel => ?_
    by_cases ht : ntype = .arrayEle
    · by_cases hindex : index = inpos
      · simp [elementAt, read_eq h hp hcell, ht, bind, Except.bind, Conf.elementAt, hindex]
      · have hnext := ih (inpos + 1) hn (hu ht) fuel (le_trans (by omega) hfuel)
        simp [elementAt, read_eq h hp hcell, ht, bind, Except.bind, hnext, Conf.elementAt, hindex]
    · simp [elementAt, read_eq h hp hcell, ht, bind, Except.bind, Conf.elementAt]

theorem getSizeFromArray_yields (hat : At h p u) (hended : Ended u) :
    Yields ((forest u).size + 1) (fun fuel => getSizeFromArray fuel h p)
      (Conf.getSizeFromArray u) := by
  intro fuel hfuel
  cases u with
  | null =>
    obtain ⟨ps, rfl, -⟩ := hat
    rfl
  | node modn var ntype smodlh next =>
    obtain ⟨hp, pc, pn, hcell, hc, -⟩ := hat.node
    by_cases ht : ntype = .arrayT
    · have hsize : (forest smodlh).size ≤ fuel :=
        le_trans (by simp only [forest, Forest.size]; omega) hfuel
      have hcount := countElements_yields hc (hended.1 ht) fuel hsize
      simp [getSizeFromArray, hp, read_eq h hp hcell, ht, bind, Except.bind, hcount,
        Conf.getSizeFromArray]
    · simp [getSizeFromArray, hp, read_eq h hp hcell, ht, bind, Except.bind, Conf.getSizeFromArray]

theorem getValueFromArrayByIndex_yields (index : Int) (hat : At h p u) (hended : Ended u) :
    Yields ((forest u).size + 1) (fun fuel => getValueFromArrayByIndex index fuel h p)
      (Conf.getValueFromArrayByIndex index u) := by
  intro fuel hfuel
  cases u with
  | null =>
    obtain ⟨ps, rfl, -⟩ := hat
    rfl
  | node modn var ntype smodlh next =>
    obtain ⟨hp, pc, pn, hcell, hc, -⟩ := hat.node
    by_cases ht : ntype = .arrayT
    · have hsize : (forest smodlh).size ≤ fuel :=
        le_trans (by simp only [forest, Forest.size]; omega) hfuel
      have helement := elementAt_yields index 0 hc (hended.1 ht) fuel hsize
      simp [getValueFromArrayByIndex, hp, read_eq h hp hcell, ht, bind, Except.bind, helement,
        Conf.getValueFromArrayByIndex]
    · simp [getValueFromArrayByIndex, hp, read_eq h hp hcell, ht, bind, Except.bind,
        Conf.getValueFromArrayByIndex]

/-- 節 `p` への取り出しは、無い節に触れずに終わり、list `u` から取り出したものを返す。 -/
structure Answers (h : Nodes) (p : Nat) (u : CN) : Prop where
  procMod : ∃ q, Yields ((forest u).size + 1) (fun fuel => getProcMod fuel h p) q ∧
    At h q (Conf.getProcMod u)
  value : ∀ vn, Yields ((forest u).size + 1) (fun fuel => getValueFromNode vn fuel h p)
    (Conf.getValueFromNode vn u)
  submod : ∀ mn, ∃ q, Yields ((forest u).size + 1) (fun fuel => getSubmodFromNode mn fuel h p) q ∧
    At h q (Conf.getSubmodFromNode mn u)
  array : ∀ mn, ∃ q, Yields ((forest u).size + 1) (fun fuel => getArrayFromNode mn fuel h p) q ∧
    At h q (Conf.getArrayFromNode mn u)
  size : Yields ((forest u).size + 1) (fun fuel => getSizeFromArray fuel h p)
    (Conf.getSizeFromArray u)
  index : ∀ i, Yields ((forest u).size + 1) (fun fuel => getValueFromArrayByIndex i fuel h p)
    (Conf.getValueFromArrayByIndex i u)

theorem answers (hat : At h p u) (hended : Ended u) : Answers h p u where
  procMod := getProcMod_yields hat
  value vn := getValueFromNode_yields vn hat
  submod mn := getSubmodFromNode_yields mn hat
  array mn := getArrayFromNode_yields mn hat
  size := getSizeFromArray_yields hat hended
  index i := getValueFromArrayByIndex_yields i hat hended

end RecordServer.Conf.Linked
