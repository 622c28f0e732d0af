import RecordServer.Infra.Fuel
import Mathlib.Data.List.Nodup
import Mathlib.Logic.Function.Basic
import Mathlib.Tactic.Tauto

/-!
# heap に置いた、子と次を指す節

一つの節は、中身と、最初の子と次の節への pointer を持つ。節を作ると、まだ使われていない番地が返る。番地は作った順の
番号で、`NULL` は `0` である。消した節の cell は読めない。

* `Forest` — pointer を辿って着く節の作る木
* `NodeHeap.place` — 空の節 `p` から始めて、木を一つずつ作りながら書く
* `Rep` — `p` から辿れる節が木 `t` をなし、その番地を消す順に並べたものが `ps` である
* `place_spec` — 書いた木は辿れ、その節は `p` と、書く間に作られた節のすべてである
* `Reaches` — 子と次を辿って得る pointer
* `NodeHeap.destroy` — 子、次、自分の順に消す再帰
* `destroy_yields` — 辿れる節を一度ずつ消し、消した節には触れない
-/

namespace RecordServer.Infra

variable {α : Type*}

inductive Forest (α : Type*) where
  | null
  | node (a : α) (child next : Forest α)

namespace Forest

/-- 節の数。 -/
def size : Forest α → Nat
  | .null => 0
  | .node _ c n => c.size + n.size + 1

def isNull : Forest α → Bool
  | .null => true
  | .node _ _ _ => false

theorem eq_null {t : Forest α} (h : t.isNull = true) : t = .null := by
  cases t with
  | null => rfl
  | node a c n => cases h

end Forest

structure HeapNode (α : Type*) where
  data : α
  child : Nat
  next : Nat
deriving DecidableEq, Repr

/-- `count` は、これまでに作った節の数である。 -/
structure NodeHeap (α : Type*) where
  cell : Nat → Option (HeapNode α)
  count : Nat
  freed : List Nat

namespace NodeHeap

/-- 節の一つも無い heap。 -/
def empty (α : Type*) : NodeHeap α := ⟨fun _ => none, 0, []⟩

/-- 次に作る節の番地。 -/
def fresh (h : NodeHeap α) : Nat := h.count + 1

/-- 中身が `a` で、子も次も無い節を作る。 -/
def alloc (h : NodeHeap α) (a : α) : NodeHeap α :=
  { h with cell := Function.update h.cell h.fresh (some ⟨a, 0, 0⟩), count := h.count + 1 }

/-- 節 `p` を書き換える。 -/
def modify (h : NodeHeap α) (p : Nat) (f : HeapNode α → HeapNode α) : NodeHeap α :=
  { h with cell := Function.update h.cell p ((h.cell p).map f) }

def setData (h : NodeHeap α) (p : Nat) (a : α) : NodeHeap α := h.modify p fun n => { n with data := a }

def setChild (h : NodeHeap α) (p c : Nat) : NodeHeap α := h.modify p fun n => { n with child := c }

def setNext (h : NodeHeap α) (p c : Nat) : NodeHeap α := h.modify p fun n => { n with next := c }

/-- 節を消す。 -/
def delete (h : NodeHeap α) (p : Nat) : NodeHeap α :=
  { h with cell := Function.update h.cell p none, freed := h.freed ++ [p] }

variable {h : NodeHeap α} {p q : Nat} {a : α} {f g : HeapNode α → HeapNode α}

@[simp] theorem alloc_count : (h.alloc a).count = h.count + 1 := rfl

@[simp] theorem alloc_freed : (h.alloc a).freed = h.freed := rfl

@[simp] theorem modify_count : (h.modify p f).count = h.count := rfl

@[simp] theorem modify_freed : (h.modify p f).freed = h.freed := rfl

@[simp] theorem alloc_cell :
    (h.alloc a).cell q = if q = h.count + 1 then some ⟨a, 0, 0⟩ else h.cell q := by
  simp [alloc, fresh, Function.update_apply]

@[simp] theorem modify_cell :
    (h.modify p f).cell q = if q = p then (h.cell p).map f else h.cell q := by
  simp [modify, Function.update_apply]

theorem eq_of_cell {h h' : NodeHeap α} (hcell : ∀ q, h.cell q = h'.cell q)
    (hcount : h.count = h'.count) (hfreed : h.freed = h'.freed) : h = h' := by
  obtain ⟨cell, count, freed⟩ := h
  obtain ⟨cell', count', freed'⟩ := h'
  obtain rfl : cell = cell' := funext hcell
  subst hcount hfreed
  rfl

/-- 同じ節への二度の書き込みは、一度にまとめられる。 -/
theorem modify_modify : (h.modify p f).modify p g = h.modify p (g ∘ f) := by
  refine eq_of_cell (fun q => ?_) rfl rfl
  by_cases hq : q = p <;> simp [hq]

/-- 節の中身が分かっていれば、そこでの値だけが効く。 -/
theorem modify_congr {n : HeapNode α} (hp : h.cell p = some n) (heq : f n = g n) :
    h.modify p f = h.modify p g := by
  refine eq_of_cell (fun q => ?_) rfl rfl
  simp [hp, heq]

theorem modify_of_eq {n : HeapNode α} (hp : h.cell p = some n) (heq : f n = n) :
    h.modify p f = h := by
  refine eq_of_cell (fun q => ?_) rfl rfl
  by_cases hq : q = p <;> simp [hq, hp, heq]

/-! ## 辿る -/

/-- 辿り終わらない訳。 -/
inductive HeapFault where
  | fuel
  /-- `NULL` の指す先に触れた。 -/
  | null
  /-- 無い節に触れた。 -/
  | dead
deriving DecidableEq, Repr

def read (h : NodeHeap α) (p : Nat) : Except HeapFault (HeapNode α) :=
  if p = 0 then .error .null
  else
    match h.cell p with
    | some n => .ok n
    | none => .error .dead

theorem read_eq (h : NodeHeap α) {n : HeapNode α} (hp : p ≠ 0) (hcell : h.cell p = some n) :
    h.read p = .ok n := by
  simp only [read, if_neg hp, hcell]

/-- `root` から子と次を辿って得る pointer。`NULL` も含む。 -/
inductive Reaches (h : NodeHeap α) (root : Nat) : Nat → Prop
  | root : Reaches h root root
  | child {p : Nat} {n : HeapNode α} :
    Reaches h root p → p ≠ 0 → h.cell p = some n → Reaches h root n.child
  | next {p : Nat} {n : HeapNode α} :
    Reaches h root p → p ≠ 0 → h.cell p = some n → Reaches h root n.next

/-! ## 木を書く -/

/-- 節 `p` から木を書く。子も次も、指す節を作ってから書く。 -/
def place (blank : α) (h : NodeHeap α) (p : Nat) : Forest α → NodeHeap α
  | .null => h
  | .node a c n =>
    let h := h.setData p a
    let h :=
      if c.isNull then h else place blank ((h.alloc blank).setChild p h.fresh) h.fresh c
    if n.isNull then h else place blank ((h.alloc blank).setNext p h.fresh) h.fresh n

/-- `p` の子を書く。 -/
def placeChild (blank : α) (h : NodeHeap α) (p : Nat) (c : Forest α) : NodeHeap α :=
  if c.isNull then h else ((h.alloc blank).setChild p h.fresh).place blank h.fresh c

/-- `p` の次を書く。 -/
def placeNext (blank : α) (h : NodeHeap α) (p : Nat) (n : Forest α) : NodeHeap α :=
  if n.isNull then h else ((h.alloc blank).setNext p h.fresh).place blank h.fresh n

theorem place_node (blank : α) (h : NodeHeap α) (p : Nat) (a : α) (c n : Forest α) :
    h.place blank p (.node a c n)
      = ((h.setData p a).placeChild blank p c).placeNext blank p n := rfl

/-- 書く間に、節は増えるだけである。 -/
def Grows (blank : α) (t : Forest α) : Prop :=
  ∀ (h : NodeHeap α) (p : Nat), h.count ≤ (h.place blank p t).count

theorem Grows.placeChild {blank : α} {c : Forest α} (hc : Grows blank c) (h : NodeHeap α) (p : Nat) :
    h.count ≤ (h.placeChild blank p c).count := by
  unfold NodeHeap.placeChild
  split
  · exact Nat.le_refl _
  · have hplaced := hc ((h.alloc blank).setChild p h.fresh) h.fresh
    exact le_trans (Nat.le_succ _) hplaced

theorem Grows.placeNext {blank : α} {n : Forest α} (hn : Grows blank n) (h : NodeHeap α) (p : Nat) :
    h.count ≤ (h.placeNext blank p n).count := by
  unfold NodeHeap.placeNext
  split
  · exact Nat.le_refl _
  · have hplaced := hn ((h.alloc blank).setNext p h.fresh) h.fresh
    exact le_trans (Nat.le_succ _) hplaced

theorem grows (blank : α) (t : Forest α) : Grows blank t := by
  induction t with
  | null => exact fun _ _ => Nat.le_refl _
  | node a c n ihc ihn =>
    intro h p
    exact le_trans (ihc.placeChild (h.setData p a) p) (ihn.placeNext _ p)

/-- `p` から辿れる節が木をなす。列は、子、次、自分の順に番地を並べたものである。 -/
def Rep (h : NodeHeap α) : Nat → Forest α → List Nat → Prop
  | p, .null, ps => p = 0 ∧ ps = []
  | p, .node a c n, ps => p ≠ 0 ∧ ∃ pc pn cs ns, h.cell p = some ⟨a, pc, pn⟩ ∧
      Rep h pc c cs ∧ Rep h pn n ns ∧ ps = cs ++ ns ++ [p]

/-- 辿れる節の cell だけで決まる。 -/
theorem Rep.congr {h h' : NodeHeap α} {p : Nat} {t : Forest α} {ps : List Nat} (hr : Rep h p t ps)
    (hcell : ∀ q ∈ ps, h'.cell q = h.cell q) : Rep h' p t ps := by
  induction t generalizing p ps with
  | null => exact hr
  | node a c n ihc ihn =>
    obtain ⟨hp, pc, pn, cs, ns, hnode, hc, hn, rfl⟩ := hr
    refine ⟨hp, pc, pn, cs, ns, ?_, ihc hc fun q hq => hcell q ?_, ihn hn fun q hq => hcell q ?_, rfl⟩
    · rw [hcell p (by simp), hnode]
    · simp [hq]
    · simp [hq]

theorem Rep.length {p : Nat} {t : Forest α} {ps : List Nat} (hr : Rep h p t ps) :
    ps.length = t.size := by
  induction t generalizing p ps with
  | null => simp [hr.2, Forest.size]
  | node a c n ihc ihn =>
    obtain ⟨-, pc, pn, cs, ns, -, hc, hn, rfl⟩ := hr
    simp [Forest.size, ihc hc, ihn hn, Nat.add_assoc]

/-- `h` から `h'` までに新しく作った節 `ps` が、`q` から辿れる木 `t` をなす。 -/
structure Grown (h h' : NodeHeap α) (q : Nat) (t : Forest α) (ps : List Nat) : Prop where
  rep : Rep h' q t ps
  nodup : ps.Nodup
  mem : ∀ x, x ∈ ps ↔ h.count < x ∧ x ≤ h'.count
  count : h.count ≤ h'.count
  freed : h'.freed = h.freed

/-- 空の節 `p` から木 `t` を書き終えた。 -/
structure Placed (h h' : NodeHeap α) (p : Nat) (t : Forest α) (ps : List Nat) : Prop where
  rep : Rep h' p t ps
  nodup : ps.Nodup
  mem : ∀ x, x ∈ ps ↔ x = p ∨ (h.count < x ∧ x ≤ h'.count)
  count : h.count ≤ h'.count
  freed : h'.freed = h.freed
  others : ∀ x, x ≠ p → x ≤ h.count → h'.cell x = h.cell x

variable {blank : α} {t : Forest α}

/-- 新しい節を作って `p` から指し、そこから木を書く。変わるのは `p` と新しい節だけである。 -/
theorem grown_link {h h' : NodeHeap α} {p : Nat} {f : HeapNode α → HeapNode α} {ps : List Nat}
    (hp : p ≤ h.count)
    (hplaced : Placed ((h.alloc blank).modify p f) h' h.fresh t ps) :
    Grown h h' h.fresh t ps ∧ h'.cell p = (h.cell p).map f ∧
      ∀ x, x ≠ p → x ≤ h.count → h'.cell x = h.cell x := by
  obtain ⟨hrep, hnodup, hmem, hcount, hfreed, hothers⟩ := hplaced
  simp only [modify_count, alloc_count, modify_freed, alloc_freed] at hmem hcount hfreed hothers
  have hne : ∀ x ≤ h.count, x ≠ h.fresh := fun x hx => by
    unfold fresh
    omega
  refine ⟨⟨hrep, hnodup, fun x => ?_, by omega, hfreed⟩, ?_, fun x hxp hx => ?_⟩
  · rw [hmem]
    unfold fresh
    omega
  · rw [hothers p (hne p hp) (by omega)]
    simp [show p ≠ h.count + 1 by omega]
  · rw [hothers x (hne x hx) (by omega)]
    simp [hxp, show x ≠ h.count + 1 by omega]

/-- 何も作らなければ、何も増えない。 -/
theorem grown_refl (h : NodeHeap α) : Grown h h 0 .null [] :=
  ⟨⟨rfl, rfl⟩, List.nodup_nil, fun x => by simp, Nat.le_refl _, rfl⟩

/-- 空の節から書けば `Placed` になる。 -/
def Places (blank : α) (t : Forest α) : Prop :=
  ∀ (h : NodeHeap α) (p : Nat) (b : α), h.cell p = some ⟨b, 0, 0⟩ → p ≠ 0 → p ≤ h.count →
    ∃ ps, Placed h (h.place blank p t) p t ps

/-- `p` の先を書く。書かれるのは `p` の一つの欄と、新しい節だけである。 -/
theorem link_spec {c : Forest α} {f : Nat → HeapNode α → HeapNode α} {b : HeapNode α}
    (hplaces : c.isNull = false → Places blank c) (hf : f 0 b = b) {h : NodeHeap α} {p : Nat} (hp : h.cell p = some b) (hple : p ≤ h.count) :
    ∃ h' pc cs, (if c.isNull then h
        else ((h.alloc blank).modify p (f h.fresh)).place blank h.fresh c) = h' ∧
      Grown h h' pc c cs ∧ h'.cell p = some (f pc b) ∧
        ∀ x, x ≠ p → x ≤ h.count → h'.cell x = h.cell x := by
  by_cases hc : c.isNull = true
  · obtain rfl := Forest.eq_null hc
    exact ⟨h, 0, [], if_pos hc, grown_refl h, by rw [hp, hf], fun _ _ _ => rfl⟩
  · have hne : h.count + 1 ≠ p := by omega
    obtain ⟨cs, hplaced⟩ := hplaces (by simpa using hc) ((h.alloc blank).modify p (f h.fresh)) h.fresh blank
      (by simp [fresh, hne]) (by simp [fresh]) (by simp [fresh])
    obtain ⟨hgrown, hcell, hothers⟩ := grown_link hple hplaced
    exact ⟨_, _, cs, if_neg hc, hgrown, by rw [hcell, hp, Option.map_some], hothers⟩

/--
**書いた木は、節 `p` から辿れる。**

その節は `p` と、書く間に作った節のすべてで、どれも一度だけ現れる。ほかの節は変わらない。
-/
theorem place_spec (blank : α) (t : Forest α) (ht : t.isNull = false) : Places blank t := by
  induction t with
  | null => cases ht
  | node a c n ihc ihn =>
    intro h p b hp hp0 hple
    have hdata : (h.setData p a).cell p = some ⟨a, 0, 0⟩ := by simp [setData, hp]
    obtain ⟨h₁, pc, cs, hh₁, hgrown₁, hcell₁, hothers₁⟩ :=
      link_spec (f := fun q n => { n with child := q }) ihc rfl hdata hple
    have hle₁ := hgrown₁.count
    have hple₁ : p ≤ h₁.count := le_trans hple hle₁
    obtain ⟨h₂, pn, ns, hh₂, hgrown₂, hcell₂, hothers₂⟩ :=
      link_spec (f := fun q n => { n with next := q }) ihn rfl hcell₁ hple₁
    have hle₂ := hgrown₂.count
    have hplace : h.place blank p (.node a c n) = h₂ := by
      rw [place_node, placeChild, setChild, hh₁, placeNext, setNext, hh₂]
    rw [hplace]
    -- 次を書く間、子の木は変わらない
    have hrep : Rep h₂ pc c cs := hgrown₁.rep.congr fun q hq => by
      have hq' := (hgrown₁.mem q).mp hq
      simp only [setData, modify_count] at hq'
      exact hothers₂ q (by omega) hq'.2
    have hcs : ∀ x, x ∈ cs ↔ h.count < x ∧ x ≤ h₁.count := hgrown₁.mem
    refine ⟨cs ++ ns ++ [p], ⟨⟨hp0, pc, pn, cs, ns, hcell₂, hrep, hgrown₂.rep, rfl⟩, ?_,
      fun x => ?_, le_trans hle₁ hle₂, hgrown₂.freed.trans hgrown₁.freed, fun x hx hxle => ?_⟩⟩
    · rw [List.nodup_append, List.nodup_append]
      refine ⟨⟨hgrown₁.nodup, hgrown₂.nodup, fun x hx y hy => ?_⟩, List.nodup_singleton p,
        fun x hx y hy => ?_⟩
      · have hx' := (hcs x).mp hx
        have hy' := (hgrown₂.mem y).mp hy
        omega
      · obtain rfl := List.mem_singleton.mp hy
        rcases List.mem_append.mp hx with hx | hx
        · have hx' := (hcs x).mp hx
          omega
        · have hx' := (hgrown₂.mem x).mp hx
          omega
    · simp only [List.mem_append, List.mem_singleton, hcs, hgrown₂.mem]
      have hle : h.count ≤ h₁.count := hle₁
      omega
    · have hdx : (h.setData p a).cell x = h.cell x := by simp [setData, hx]
      rw [hothers₂ x hx (le_trans hxle hle₁), hothers₁ x hx hxle, hdx]

/-! ## 木を消す -/

def remove (h : NodeHeap α) (p : Nat) : Except HeapFault (NodeHeap α) :=
  match h.cell p with
  | some _ => .ok (h.delete p)
  | none => .error .dead

/-- 指す先 `q` があれば消して、指していた `p` の欄を `f` で書き換える。 -/
def clear (destroy : NodeHeap α → Nat → Except HeapFault (NodeHeap α)) (h : NodeHeap α) (p q : Nat)
    (f : HeapNode α → HeapNode α) : Except HeapFault (NodeHeap α) :=
  if q ≠ 0 then do
    let h ← destroy h q
    .ok (h.modify p f)
  else .ok h

/-- 子、次、自分の順に消す。消した子と次への pointer は `NULL` にする。 -/
def destroy : Nat → NodeHeap α → Nat → Except HeapFault (NodeHeap α)
  | 0, _, _ => .error .fuel
  | fuel + 1, h, p =>
    if p = 0 then .ok h
    else do
      let n ← h.read p
      let h ← clear (destroy fuel) h p n.child fun n => { n with child := 0 }
      let n ← h.read p
      let h ← clear (destroy fuel) h p n.next fun n => { n with next := 0 }
      h.remove p

/-- 節 `ps` を消した後。 -/
def without (h : NodeHeap α) (ps : List Nat) : NodeHeap α :=
  ⟨fun x => if x ∈ ps then none else h.cell x, h.count, h.freed ++ ps⟩

@[simp] theorem without_cell {ps : List Nat} {x : Nat} :
    (h.without ps).cell x = if x ∈ ps then none else h.cell x := rfl

@[simp] theorem without_freed {ps : List Nat} : (h.without ps).freed = h.freed ++ ps := rfl

@[simp] theorem without_nil : h.without [] = h := eq_of_cell (fun x => by simp) rfl (by simp)

/-- 先を消して、それを指していた `p` の欄を `NULL` にした。 -/
structure Cleared (h h' : NodeHeap α) (p : Nat) (n : HeapNode α) (qs : List Nat) : Prop where
  cell : h'.cell p = some n
  others : ∀ x, x ≠ p → h'.cell x = (h.without qs).cell x
  count : h'.count = h.count
  freed : h'.freed = h.freed ++ qs

/-- `p` の一つの欄の先を消す。 -/
theorem clear_yields {m : Nat} {q : Nat} {qs : List Nat} {n : HeapNode α} (hrep : Rep h q t qs)
    (hdestroy : Yields m (fun fuel => h.destroy fuel q) (h.without qs)) (hp : h.cell p = some n)
    (hnotin : p ∉ qs) (hf : q = 0 → f n = n) :
    ∃ h', Yields m (fun fuel => clear (destroy fuel) h p q f) h' ∧ Cleared h h' p (f n) qs := by
  by_cases hq : q = 0
  · have hqs : qs = [] := by
      cases t with
      | null => exact hrep.2
      | node a c n => exact absurd hq hrep.1
    subst hqs
    simp only [clear, if_neg (not_not.mpr hq)]
    exact ⟨h, .pure m h, by rw [hp, hf hq], fun x _ => by simp, rfl, by simp⟩
  · simp only [clear, if_pos hq]
    exact ⟨_, hdestroy.bind (.pure m _), by simp [hnotin, hp], fun x hx => by simp [hx], rfl, by simp⟩

theorem remove_eq (h : NodeHeap α) {n : HeapNode α} (hp : h.cell p = some n) :
    h.remove p = .ok (h.delete p) := by
  simp only [remove, hp]

/--
**辿れる節は、一度ずつ消える。**

消した節にも、無い節にも触れずに終わり、ほかの節は変わらない。
-/
theorem destroy_yields {ps : List Nat} (hrep : Rep h p t ps) (hnodup : ps.Nodup) :
    Yields (t.size + 1) (fun fuel => h.destroy fuel p) (h.without ps) := by
  induction t generalizing h p ps with
  | null =>
    obtain ⟨rfl, rfl⟩ := hrep
    refine Yields.of_succ fun fuel _ => ?_
    simp [destroy]
  | node a c n ihc ihn =>
    obtain ⟨hp, pc, pn, cs, ns, hcell, hc, hn, rfl⟩ := hrep
    rw [List.nodup_append, List.nodup_append] at hnodup
    obtain ⟨⟨hcs, hns, hdisj⟩, -, hself⟩ := hnodup
    have hpcs : p ∉ cs := fun hmem => hself p (by simp [hmem]) p (by simp) rfl
    have hpns : p ∉ ns := fun hmem => hself p (by simp [hmem]) p (by simp) rfl
    have hsize : c.size + 1 ≤ (Forest.node a c n).size ∧ n.size + 1 ≤ (Forest.node a c n).size := by
      simp only [Forest.size]
      omega
    obtain ⟨h₁, hyields₁, hcleared₁⟩ := clear_yields (f := fun n => { n with child := 0 }) hc
      ((ihc hc hcs).mono hsize.1) hcell hpcs fun hzero => by rw [hzero]
    -- 子を消しても、次の木は変わらない
    have hn₁ : Rep h₁ pn n ns := hn.congr fun q hq => by
      have hqp : q ≠ p := fun heq => hpns (heq ▸ hq)
      have hqcs : q ∉ cs := fun hmem => hdisj q hmem q hq rfl
      rw [hcleared₁.others q hqp, without_cell, if_neg hqcs]
    obtain ⟨h₂, hyields₂, hcleared₂⟩ := clear_yields (f := fun n => { n with next := 0 }) hn₁
      ((ihn hn₁ hns).mono hsize.2) hcleared₁.cell hpns fun hzero => by rw [hzero]
    have hdelete : h₂.delete p = h.without (cs ++ ns ++ [p]) := by
      refine eq_of_cell (fun x => ?_) (hcleared₂.count.trans hcleared₁.count) ?_
      · by_cases hx : x = p
        · simp [delete, hx]
        · simp only [delete, Function.update_of_ne hx, hcleared₂.others x hx, without_cell,
            hcleared₁.others x hx, List.mem_append, List.mem_singleton, hx, or_false]
          by_cases hmem : x ∈ ns <;> simp [hmem]
      · simp only [delete, without_freed, hcleared₂.freed, hcleared₁.freed, List.append_assoc]
    refine Yields.of_succ fun fuel hfuel => ?_
    simp only [destroy, if_neg hp, bind, Except.bind, read_eq h hp hcell, hyields₁ fuel hfuel,
      read_eq h₁ hp hcleared₁.cell, hyields₂ fuel hfuel, remove_eq h₂ hcleared₂.cell, hdelete]

end NodeHeap

end RecordServer.Infra
