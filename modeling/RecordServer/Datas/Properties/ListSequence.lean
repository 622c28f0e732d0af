import RecordServer.Datas.TDlistLinks

/-!
# `TDList` は節の列である

`Ref` は list に載っている節の列と、作られている節の集まりだけを持つ。`for_each` はその列の畳み込み
（`List.foldl`）であり、callback が節を外しても、始めに載っていた節を順に一度ずつ呼ぶ。

* `Ref.step` — 列に対する操作。載っていない節だけを足し、載っている節だけを外す
* `Simulates` — callback が列に対しても同じことをする
* `Represents.forEachUntilFrom` — loop の一回りごとに、残りの列が一つ減る
* `implements_sequence` — どんな操作の列でも、list は節の列を表し続ける

`m_num_nodes` は `u32` なので、列の長さを 2^32 で割った余りである。
-/

namespace RecordServer.Datas.TDList

open Infra

variable {ν σ : Type*}

/-! ## 列に対する操作 -/

namespace Ref

def init : Ref ν := ⟨[], ∅, []⟩

/-- `true` の返る節まで、順に一度ずつ渡す。 -/
def untilFrom {τ : Type*} (g : ν → τ → Ref ν → Bool × τ × Ref ν) :
    List ν → τ → Ref ν → Option ν × τ × Ref ν
  | [], u, r => (none, u, r)
  | x :: xs, u, r =>
    if (g x u r).1 then (some x, (g x u r).2) else untilFrom g xs (g x u r).2.1 (g x u r).2.2

section Ops

variable [DecidableEq ν]

def perform (r : Ref ν) (x : ν) : Act → Ref ν
  | .keep => r
  | .remove => { r with nodes := r.nodes.erase x }
  | .removeDelete =>
    { nodes := r.nodes.erase x, live := r.live.erase x, deleted := r.deleted ++ [x] }

def callback (f : ν → σ → Act × σ) (u : (σ × List (ν × Ref ν)) × Ref ν) (x : ν) :
    (σ × List (ν × Ref ν)) × Ref ν :=
  (((f x u.1.1).2, u.1.2 ++ [(x, u.2)]), u.2.perform x (f x u.1.1).1)

/-- 載っている節を順に一度ずつ callback に渡す。 -/
def forEach (f : ν → σ → Act × σ) (userdata : σ) (r : Ref ν) : (σ × List (ν × Ref ν)) × Ref ν :=
  r.nodes.foldl (callback f) ((userdata, []), r)

def callbackUntil (f : ν → σ → Act × Bool × σ) (x : ν) (u : σ × List (ν × Ref ν)) (r : Ref ν) :
    Bool × (σ × List (ν × Ref ν)) × Ref ν :=
  ((f x u.1).2.1, ((f x u.1).2.2, u.2 ++ [(x, r)]), r.perform x (f x u.1).1)

def forEachUntil (f : ν → σ → Act × Bool × σ) (userdata : σ) (r : Ref ν) :
    Option ν × (σ × List (ν × Ref ν)) × Ref ν :=
  untilFrom (callbackUntil f) r.nodes (userdata, []) r

/-- 載っている節をすべて消す。 -/
def clearList (r : Ref ν) : Ref ν :=
  { nodes := [], live := r.live \ r.nodes.toFinset, deleted := r.deleted ++ r.nodes }

/-- 列に対する操作。作られていない節を使うことや、載っている節を足すことはない。 -/
def step (r : Ref ν) : Op ν σ → Option (Ref ν)
  | .create x => if x ∈ r.live then none else some { r with live := insert x r.live }
  | .delete x =>
    if x ∈ r.live ∧ x ∉ r.nodes then
      some { r with live := r.live.erase x, deleted := r.deleted ++ [x] }
    else none
  | .addNode x =>
    if x ∈ r.live ∧ x ∉ r.nodes then some { r with nodes := x :: r.nodes } else none
  | .addNodeToTail x =>
    if x ∈ r.live ∧ x ∉ r.nodes then some { r with nodes := r.nodes ++ [x] } else none
  | .removeNode x => if x ∈ r.nodes then some { r with nodes := r.nodes.erase x } else none
  | .forEach f u => some (r.forEach f u).2
  | .forEachUntil f u => some (r.forEachUntil f u).2.2
  | .clearList => some r.clearList

end Ops

end Ref

variable [DecidableEq ν] {s s' : TDList ν} {r : Ref ν} {x : ν}

/-! ## 一巡り -/

/-- callback が節について行うことは、載っている節の列に同じことを行う。 -/
theorem Represents.perform (h : Represents s r) (hx : x ∈ r.nodes) (act : Act) :
    ∃ s', s.perform x act = some s' ∧ Represents s' (r.perform x act) := by
  cases act with
  | keep => exact ⟨s, rfl, h⟩
  | remove => exact h.removeNode hx
  | removeDelete =>
    obtain ⟨s₁, hrun₁, h₁⟩ := h.removeNode hx
    have hnot : x ∉ r.nodes.erase x := h.forward.nodup.not_mem_erase
    obtain ⟨s₂, hrun₂, h₂⟩ := h₁.delete (h.member x hx) hnot
    exact ⟨s₂, by rw [TDList.perform, hrun₁, Option.bind_some, hrun₂], h₂⟩

theorem Ref.perform_nodes (r : Ref ν) (x : ν) (act : Act) :
    (r.perform x act).nodes = r.nodes ∨ (r.perform x act).nodes = r.nodes.erase x := by
  cases act
  · exact .inl rfl
  · exact .inr rfl
  · exact .inr rfl

variable {τ τ' : Type*}

/-- 載っている節について呼ぶと、`doFunc` は `g` と同じことをする。 -/
def Simulates (R : τ → τ' → Prop) (doFunc : ν → τ → TDList ν → Option (Bool × τ × TDList ν))
    (g : ν → τ' → Ref ν → Bool × τ' × Ref ν) : Prop :=
  ∀ x u v s r, Represents s r → x ∈ r.nodes → R u v →
    ∃ u' s', doFunc x u s = some ((g x v r).1, u', s') ∧ R u' (g x v r).2.1 ∧
      Represents s' (g x v r).2.2 ∧
      ((g x v r).2.2.nodes = r.nodes ∨ (g x v r).2.2.nodes = r.nodes.erase x)

/-- loop は残りの節 `rest` を順に呼ぶ。`kept` は、呼び終えて外されなかった節である。 -/
theorem Represents.forEachUntilFrom {R : τ → τ' → Prop}
    {doFunc : ν → τ → TDList ν → Option (Bool × τ × TDList ν)}
    {g : ν → τ' → Ref ν → Bool × τ' × Ref ν} (hsim : Simulates R doFunc g) {u : τ} {v : τ'}
    {kept rest : List ν} (h : Represents s r) (hnodes : r.nodes = kept ++ rest) (huv : R u v) :
    ∃ u' s', (∀ fuel, rest.length < fuel → TDList.forEachUntilFrom doFunc fuel rest.head? u s =
        some ((Ref.untilFrom g rest v r).1, u', s')) ∧
      R u' (Ref.untilFrom g rest v r).2.1 ∧ Represents s' (Ref.untilFrom g rest v r).2.2 := by
  induction rest generalizing s r u v kept with
  | nil =>
    refine ⟨u, s, fun fuel hfuel => ?_, huv, h⟩
    obtain ⟨fuel, rfl⟩ := Nat.exists_eq_add_one_of_ne_zero (Nat.ne_of_gt hfuel)
    rfl
  | cons x xs ih =>
    have hx : x ∈ r.nodes := by simp [hnodes]
    obtain ⟨n, hn⟩ := Option.isSome_iff_exists.mp (h.isSome hx)
    have hnext : n.mNext = xs.head? := by
      have hfwd := h.forward
      rw [hnodes] at hfwd
      have heq := hfwd.next_eq
      simpa [TDList.next, hn] using heq
    obtain ⟨u', s', hrun, hR, h', hnodes'⟩ := hsim x u v s r h hx huv
    have hturn : ∀ fuel, TDList.forEachUntilFrom doFunc (fuel + 1) (some x) u s =
        if (g x v r).1 then some (some x, u', s')
        else TDList.forEachUntilFrom doFunc fuel xs.head? u' s' := by
      intro fuel
      rw [TDList.forEachUntilFrom, hn, Option.bind_some, hrun, Option.bind_some, hnext]
    by_cases hstop : (g x v r).1 = true
    · rw [Ref.untilFrom, if_pos hstop]
      refine ⟨u', s', fun fuel hfuel => ?_, hR, h'⟩
      obtain ⟨fuel, rfl⟩ := Nat.exists_eq_add_one_of_ne_zero (Nat.ne_of_gt (Nat.zero_lt_of_lt hfuel))
      rw [List.head?_cons, hturn, if_pos hstop]
    · -- 外されても外されなくても、残りの列は `xs` である
      have hkept : ∃ kept', (g x v r).2.2.nodes = kept' ++ xs := by
        rcases hnodes' with heq | heq
        · exact ⟨kept ++ [x], by rw [heq, hnodes]; simp⟩
        · have hnd := h.forward.nodup
          rw [hnodes] at hnd
          have hxk : x ∉ kept := fun hc => (List.nodup_append.mp hnd).2.2 x hc x (by simp) rfl
          exact ⟨kept, by rw [heq, hnodes, List.erase_append_right _ hxk, List.erase_cons_head]⟩
      obtain ⟨kept', hkept'⟩ := hkept
      obtain ⟨u'', s'', hrest, hR', h''⟩ := ih h' hkept' hR
      rw [Ref.untilFrom, if_neg hstop]
      refine ⟨u'', s'', fun fuel hfuel => ?_, hR', h''⟩
      obtain ⟨fuel, rfl⟩ := Nat.exists_eq_add_one_of_ne_zero (Nat.ne_of_gt (Nat.zero_lt_of_lt hfuel))
      rw [List.head?_cons, hturn, if_neg hstop, hrest fuel (Nat.lt_of_succ_lt_succ hfuel)]

/-- `for_each_until` は、止まる節まで列を順に呼ぶ。 -/
theorem Represents.forEachUntil {R : τ → τ' → Prop}
    {doFunc : ν → τ → TDList ν → Option (Bool × τ × TDList ν)}
    {g : ν → τ' → Ref ν → Bool × τ' × Ref ν} (hsim : Simulates R doFunc g) {u : τ} {v : τ'}
    (h : Represents s r) (huv : R u v) :
    ∃ u' s', Converges (fun fuel => TDList.forEachUntil doFunc fuel u s)
        ((Ref.untilFrom g r.nodes v r).1, u', s') ∧
      R u' (Ref.untilFrom g r.nodes v r).2.1 ∧
      Represents s' (Ref.untilFrom g r.nodes v r).2.2 := by
  obtain ⟨u', s', hrun, hR, h'⟩ := h.forEachUntilFrom hsim (show r.nodes = [] ++ r.nodes from rfl) huv
  rw [← h.forward.head_eq] at hrun
  exact ⟨u', s', .of_lt hrun, hR, h'⟩

omit [DecidableEq ν] in
/-- `for_each` は、いつも `false` を返す callback での `for_each_until` である。 -/
theorem forEachFrom_eq (doFunc : ν → τ → TDList ν → Option (τ × TDList ν)) (fuel : Nat)
    (cur : Option ν) (u : τ) (s : TDList ν) :
    forEachFrom doFunc fuel cur u s =
      (forEachUntilFrom (fun x u s => (doFunc x u s).map fun p => (false, p)) fuel cur u s).map
        Prod.snd := by
  induction fuel generalizing cur u s with
  | zero => rfl
  | succ fuel ih =>
    cases cur with
    | none => rfl
    | some x =>
      simp only [forEachFrom, forEachUntilFrom]
      cases s.node x with
      | none => rfl
      | some n =>
        cases doFunc x u s with
        | none => rfl
        | some p => simp [ih]

omit [DecidableEq ν] in
theorem Ref.untilFrom_never (g : ν → τ → Ref ν → τ × Ref ν) (l : List ν) (u : τ) (r : Ref ν) :
    untilFrom (fun x u r => (false, g x u r)) l u r =
      (none, l.foldl (fun p x => g x p.1 p.2) (u, r)) := by
  induction l generalizing u r with
  | nil => rfl
  | cons x xs ih =>
    rw [untilFrom, if_neg (by simp), ih]
    rfl

/-- `for_each` は、始めに載っていた節の列の畳み込みである。 -/
theorem Represents.forEach {R : τ → τ' → Prop} {doFunc : ν → τ → TDList ν → Option (τ × TDList ν)}
    {g : ν → τ' → Ref ν → τ' × Ref ν}
    (hsim : Simulates R (fun x u s => (doFunc x u s).map fun p => (false, p))
      fun x v r => (false, g x v r)) {u : τ} {v : τ'} (h : Represents s r) (huv : R u v) :
    ∃ u' s', Converges (fun fuel => TDList.forEach doFunc fuel u s) (u', s') ∧
      R u' (r.nodes.foldl (fun p x => g x p.1 p.2) (v, r)).1 ∧
      Represents s' (r.nodes.foldl (fun p x => g x p.1 p.2) (v, r)).2 := by
  obtain ⟨u', s', hrun, hR, h'⟩ := h.forEachUntil hsim huv
  rw [Ref.untilFrom_never] at hrun hR h'
  refine ⟨u', s', ?_, hR, h'⟩
  exact (hrun.map Prod.snd).congr fun fuel => forEachFrom_eq doFunc fuel s.mHead u s

/-! ## callback -/

/-- 同じ節について、同じ列を表す list で呼ばれた。 -/
def SameCalls (calls : List (ν × TDList ν)) (refCalls : List (ν × Ref ν)) : Prop :=
  List.Forall₂ (fun c d => c.1 = d.1 ∧ Represents c.2 d.2) calls refCalls

theorem simulates_callbackUntil (f : ν → σ → Act × Bool × σ) :
    Simulates (fun u v => u.1 = v.1 ∧ SameCalls u.2 v.2) (callbackUntil f)
      (Ref.callbackUntil f) := by
  rintro x ⟨u, calls⟩ ⟨_, refCalls⟩ s r h hx ⟨rfl, hcalls⟩
  obtain ⟨s', hrun, h'⟩ := h.perform hx (f x u).1
  refine ⟨((f x u).2.2, calls ++ [(x, s)]), s', ?_, ⟨rfl, ?_⟩, h', r.perform_nodes x _⟩
  · simp only [callbackUntil, hrun, Option.map_some, Ref.callbackUntil]
  · exact List.rel_append hcalls (.cons ⟨rfl, h⟩ .nil)

theorem simulates_callback (f : ν → σ → Act × σ) :
    Simulates (fun u v => u.1 = v.1 ∧ SameCalls u.2 v.2)
      (fun x u s => (callback f x u s).map fun p => (false, p))
      fun x v r => (false, Ref.callback f (v, r) x) := by
  rintro x ⟨u, calls⟩ ⟨_, refCalls⟩ s r h hx ⟨rfl, hcalls⟩
  obtain ⟨s', hrun, h'⟩ := h.perform hx (f x u).1
  refine ⟨((f x u).2, calls ++ [(x, s)]), s', ?_, ⟨rfl, ?_⟩, h', r.perform_nodes x _⟩
  · simp only [callback, hrun, Option.map_some]
  · exact List.rel_append hcalls (.cons ⟨rfl, h⟩ .nil)

theorem simulates_doClearList :
    Simulates (fun _ _ => True) (fun x u s => (doClearList x u s).map fun p => (false, p))
      fun (x : ν) (_ : Unit) r => (false, (), r.perform x .removeDelete) := by
  intro x u v s r h hx _
  obtain ⟨s', hrun, h'⟩ := h.perform hx .removeDelete
  refine ⟨(), s', ?_, trivial, h', r.perform_nodes x _⟩
  rw [perform] at hrun
  simp only [doClearList, hrun, Option.map_some]

/-- 残りの数が 0 になる節まで数える。 -/
def Ref.countdown (_ : ν) (v : Nat) (r : Ref ν) : Bool × Nat × Ref ν :=
  if v = 0 then (true, 0, r) else (false, v - 1, r)

theorem simulates_compareIndexToZero :
    Simulates (fun (u : Int) (v : Nat) => u = v) compareIndexToZero (Ref.countdown (ν := ν)) := by
  rintro x _ v s r h hx rfl
  cases v with
  | zero => exact ⟨0, s, by rw [compareIndexToZero, if_pos Int.natCast_zero]; rfl, rfl, h, .inl rfl⟩
  | succ v =>
    have hmin : ((v + 1 : Nat) : Int) ≠ -2 ^ 31 := by omega
    have hzero : ((v + 1 : Nat) : Int) ≠ 0 := by omega
    refine ⟨(v : Int), s, ?_, rfl, h, .inl rfl⟩
    rw [compareIndexToZero, if_neg hzero, if_neg hmin, Int.natCast_succ, Int.add_sub_cancel]
    rfl

omit [DecidableEq ν] in
theorem Ref.untilFrom_nth (l : List ν) (v : Nat) (r : Ref ν) :
    (untilFrom countdown l v r).1 = l[v]? := by
  induction l generalizing v with
  | nil => rfl
  | cons x xs ih =>
    cases v with
    | zero => rfl
    | succ v => exact ih v

/-- 載っている節を順に消すと、空の列になる。 -/
theorem Ref.foldl_removeDelete {l : List ν} {r : Ref ν} (h : r.nodes = l) :
    l.foldl (fun p x => ((), p.2.perform x .removeDelete)) ((), r) = ((), r.clearList) := by
  subst h
  obtain ⟨l, live, deleted⟩ := r
  induction l generalizing live deleted with
  | nil => simp [clearList]
  | cons x xs ih =>
    have hstep : perform ⟨x :: xs, live, deleted⟩ x .removeDelete =
        ⟨xs, live.erase x, deleted ++ [x]⟩ := by simp [perform]
    rw [List.foldl_cons, hstep, ih]
    simp only [clearList, List.append_assoc, List.singleton_append, List.toFinset_cons,
      Finset.sdiff_insert, Finset.erase_sdiff_comm]

/-! ## 操作の列 -/

theorem Represents.clearList (h : Represents s r) :
    ∃ s', Converges (fun fuel => TDList.clearList fuel s) s' ∧ Represents s' r.clearList := by
  obtain ⟨u', s', hrun, -, h'⟩ := h.forEach simulates_doClearList (u := ()) (v := ()) trivial
  rw [Ref.foldl_removeDelete rfl] at h'
  exact ⟨s', hrun.map Prod.snd, h'⟩

/-- 列の操作が許す操作は、必ず終わって、list は同じ列を表す。 -/
theorem Represents.step (h : Represents s r) {op : Op ν σ} {r' : Ref ν}
    (hop : Ref.step r op = some r') :
    ∃ s', Converges (fun fuel => TDList.step fuel s op) s' ∧ Represents s' r' := by
  cases op with
  | create x =>
    obtain ⟨hx, hr⟩ := Option.ite_none_left_eq_some.mp hop
    cases hr
    obtain ⟨s', hrun, h'⟩ := h.create hx
    exact ⟨s', ⟨0, fun _ _ => hrun⟩, h'⟩
  | delete x =>
    obtain ⟨⟨hx, hnot⟩, hr⟩ := Option.ite_none_right_eq_some.mp hop
    cases hr
    obtain ⟨s', hrun, h'⟩ := h.delete hx hnot
    exact ⟨s', ⟨0, fun _ _ => hrun⟩, h'⟩
  | addNode x =>
    obtain ⟨⟨hx, hnot⟩, hr⟩ := Option.ite_none_right_eq_some.mp hop
    cases hr
    obtain ⟨s', hrun, h'⟩ := h.addNode hx hnot
    exact ⟨s', ⟨0, fun _ _ => hrun⟩, h'⟩
  | addNodeToTail x =>
    obtain ⟨⟨hx, hnot⟩, hr⟩ := Option.ite_none_right_eq_some.mp hop
    cases hr
    obtain ⟨s', hrun, h'⟩ := h.addNodeToTail hx hnot
    exact ⟨s', ⟨0, fun _ _ => hrun⟩, h'⟩
  | removeNode x =>
    obtain ⟨hx, hr⟩ := Option.ite_none_right_eq_some.mp hop
    cases hr
    obtain ⟨s', hrun, h'⟩ := h.removeNode hx
    exact ⟨s', ⟨0, fun _ _ => hrun⟩, h'⟩
  | forEach f u =>
    cases hop
    obtain ⟨u', s', hrun, -, h'⟩ := h.forEach (simulates_callback f) (u := (u, [])) (v := (u, []))
      ⟨rfl, .nil⟩
    exact ⟨s', hrun.map Prod.snd, h'⟩
  | forEachUntil f u =>
    cases hop
    obtain ⟨u', s', hrun, -, h'⟩ := h.forEachUntil (simulates_callbackUntil f) (u := (u, []))
      (v := (u, [])) ⟨rfl, .nil⟩
    exact ⟨s', hrun.map (fun p : Option ν × (σ × List (ν × TDList ν)) × TDList ν => p.2.2), h'⟩
  | clearList =>
    cases hop
    exact h.clearList

/-- 操作の列についての帰納法。 -/
theorem Represents.run (h : Represents s r) {ops : List (Op ν σ)} {r' : Ref ν}
    (hops : Infra.run Ref.step r ops = some r') :
    ∃ s', Converges (fun fuel => Infra.run (TDList.step fuel) s ops) s' ∧ Represents s' r' := by
  induction ops generalizing s r with
  | nil =>
    cases hops
    exact ⟨s, .pure s, h⟩
  | cons op ops ih =>
    obtain ⟨r₁, hop, hrest⟩ := (run_cons_eq_some _).mp hops
    obtain ⟨s₁, hrun₁, h₁⟩ := h.step hop
    obtain ⟨s', hrun, h'⟩ := ih h₁ hrest
    exact ⟨s', hrun₁.bind hrun, h'⟩

theorem Ref.map_fst_forEach (f : ν → σ → Act × σ) (l : List ν) (u : (σ × List (ν × Ref ν)) × Ref ν) :
    (l.foldl (callback f) u).1.2.map Prod.fst = u.1.2.map Prod.fst ++ l := by
  induction l generalizing u with
  | nil => simp
  | cons x xs ih =>
    rw [List.foldl_cons, ih]
    simp [callback]

/--
**`TDList` は節の列である。**

どんな操作の列の後でも、list は同じ操作を列に行った結果を、どちら向きにも辿れる形で表す。`get_nth_node`
は列の `i` 番目を返し、`for_each` は始めに載っていた節を順に一度ずつ、そのときの列を表す list で呼び、
`for_each_until` は止まるまで同じように呼び、`clear_list` は載っていた節を順に一度ずつ消して空にする。
-/
theorem implements_sequence (ops : List (Op ν σ)) (r : Ref ν)
    (hops : Infra.run Ref.step Ref.init ops = some r) :
    ∃ s, Converges (fun fuel => Infra.run (TDList.step fuel) TDList.init ops) s ∧
      Represents s r ∧
      (∀ i : Int, 0 ≤ i → Converges (fun fuel => s.getNthNode fuel i) r.nodes[i.toNat]?) ∧
      (∀ (f : ν → σ → Act × σ) u, ∃ u' calls s',
        Converges (fun fuel => s.forEach (callback f) fuel (u, []))
          ((u', calls), s') ∧
        calls.map Prod.fst = r.nodes ∧ SameCalls calls (r.forEach f u).1.2 ∧
        Represents s' (r.forEach f u).2) ∧
      (∀ (f : ν → σ → Act × Bool × σ) u, ∃ u' calls s',
        Converges (fun fuel => s.forEachUntil (callbackUntil f) fuel (u, []))
          ((r.forEachUntil f u).1, (u', calls), s') ∧
        SameCalls calls (r.forEachUntil f u).2.1.2 ∧ Represents s' (r.forEachUntil f u).2.2) ∧
      ∃ s', Converges (fun fuel => s.clearList fuel) s' ∧
        s'.deleted = s.deleted ++ r.nodes ∧ Represents s' r.clearList := by
  obtain ⟨s, hrun, h⟩ := represents_init.run hops
  refine ⟨s, hrun, h, fun i hi => ?_, fun f u => ?_, fun f u => ?_, ?_⟩
  · obtain ⟨n, rfl⟩ := Int.eq_ofNat_of_zero_le hi
    obtain ⟨u', s', hrun, -, -⟩ := h.forEachUntil simulates_compareIndexToZero (v := n) rfl
    rw [Ref.untilFrom_nth] at hrun
    exact hrun.map Prod.fst
  · obtain ⟨⟨u', calls⟩, s', hrun, ⟨-, hcalls⟩, h'⟩ := h.forEach (simulates_callback f)
      (u := (u, [])) (v := (u, [])) ⟨rfl, .nil⟩
    refine ⟨u', calls, s', hrun, ?_, hcalls, h'⟩
    have hfst : calls.map Prod.fst = ((r.forEach f u).1.2).map Prod.fst :=
      List.forall₂_eq_eq_eq ▸ List.forall₂_map_left_iff.mpr
        (List.forall₂_map_right_iff.mpr (hcalls.imp fun _ _ hc => hc.1))
    rw [hfst, Ref.forEach, Ref.map_fst_forEach]
    rfl
  · obtain ⟨⟨u', calls⟩, s', hrun, ⟨-, hcalls⟩, h'⟩ := h.forEachUntil (simulates_callbackUntil f)
      (u := (u, [])) (v := (u, [])) ⟨rfl, .nil⟩
    exact ⟨u', calls, s', hrun, hcalls, h'⟩
  · obtain ⟨s', hrun, h'⟩ := h.clearList
    refine ⟨s', hrun, ?_, h'⟩
    rw [h'.deleted, h.deleted]
    rfl

/-- 二つ足して始めの節を外した list は、後の節だけの列を表す。 -/
theorem implements_sequence_two :
    ∃ s : TDList Nat, Converges (fun fuel => Infra.run (TDList.step (σ := Unit) fuel) TDList.init
        [.create 1, .create 2, .addNode 1, .addNodeToTail 2, .removeNode 1]) s ∧
      s.mHead = some 2 ∧ s.mTail = some 2 ∧ s.mNumNodes = 1 := by
  obtain ⟨s, hrun, h, -⟩ := implements_sequence (ν := Nat) (σ := Unit)
    [.create 1, .create 2, .addNode 1, .addNodeToTail 2, .removeNode 1] ⟨[2], {2, 1}, []⟩ rfl
  exact ⟨s, hrun, h.forward.head_eq, h.tail_eq, h.count⟩

/-! ## 数は一周する -/

/-- `n` 個の節を作り、先頭に足す。 -/
def fill (n : Nat) : List (Op Nat Unit) := (List.range n).flatMap fun x => [.create x, .addNode x]

theorem run_fill (n : Nat) :
    Infra.run Ref.step Ref.init (fill n) = some ⟨(List.range n).reverse, Finset.range n, []⟩ := by
  induction n with
  | zero => rfl
  | succ n ih =>
    rw [fill, List.range_succ, List.flatMap_append, run_append_eq_some]
    refine ⟨_, ih, ?_⟩
    simp [Infra.run, Ref.step, Finset.range_add_one]

theorem represents_fill (n : Nat) :
    ∃ r s, Infra.run Ref.step Ref.init (fill n) = some r ∧
      Converges (fun fuel => Infra.run (TDList.step fuel) TDList.init (fill n)) s ∧
      s.mNumNodes = n % 2 ^ 32 ∧ r.nodes.length = n := by
  obtain ⟨s, hrun, h⟩ := represents_init.run (run_fill n)
  have hlen : (List.range n).reverse.length = n := by rw [List.length_reverse, List.length_range]
  exact ⟨_, s, run_fill n, hrun, by rw [h.count, hlen], hlen⟩

/-- 2^32 個の節を足すと、`m_num_nodes` は 0 に戻る。 -/
theorem count_wraps :
    ∃ r s, Infra.run Ref.step Ref.init (fill (2 ^ 32)) = some r ∧
      Converges (fun fuel => Infra.run (TDList.step fuel) TDList.init (fill (2 ^ 32))) s ∧
      s.mNumNodes = 0 ∧ r.nodes.length = 2 ^ 32 := by
  obtain ⟨r, s, href, hrun, hnum, hlen⟩ := represents_fill (2 ^ 32)
  exact ⟨r, s, href, hrun, hnum.trans (Nat.mod_self _), hlen⟩

end RecordServer.Datas.TDList
