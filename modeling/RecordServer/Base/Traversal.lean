import RecordServer.Base.BaseCircle
import RecordServer.Infra.Fuel

/-!
# event の一覧の巡回（`CBase_circle::traversal`）

巡回は一覧の先頭から順に `io_process` を呼ぶ。handler は一覧を好きに変えるので、次に呼ぶ event は
member の `m_next` に置き、`remove_event` がそれを外すときに付け替える。

* `Handler` — 何回目に、どの event で、どんな一覧で呼ばれたかに応じて、行う操作と戻り値を決める
* `traversal` — 巡回の全体。呼んだ `io_process` の記録を返す
* `Added`、`Lawful` — 操作の列が残すものと、許された操作の列
* `Cursor` — `m_next` が、まだ呼んでいない残りの先頭を指す
* `Cursor.execs` — 操作の列が残りを保つ
-/

namespace RecordServer.Base

open Infra

/-- handler が一覧に対して行う操作。 -/
inductive Op (ε : Type*)
  | add (e : ε)
  | remove (e : ε)
  deriving DecidableEq

/-- `io_process` の戻り値。 -/
inductive IoResult
  | success
  | failure
  | retry
  deriving DecidableEq

/-- `io_process` の行う操作と戻り値を、その場の一覧から決める。 -/
abbrev Handler (ε : Type*) := Nat → ε → Circle ε → List (Op ε) × IoResult

/-- 呼んだ `io_process` の記録。 -/
structure Visit (ε : Type*) where
  node : ε
  /-- `io_process` に入ったときの一覧。 -/
  start : Circle ε
  /-- handler の行った操作。 -/
  ops : List (Op ε)
  ret : IoResult

section Model

variable {ε : Type*} [DecidableEq ε]

def Circle.exec (c : Circle ε) : Op ε → Circle ε
  | .add e => c.addEvent e
  | .remove e => c.removeEvent e

def Circle.execs (c : Circle ε) : List (Op ε) → Circle ε
  | [] => c
  | op :: ops => (c.exec op).execs ops

/-- 戻り値に応じた後始末。`close` は `node->mp_connect->connect_close()` である。 -/
def Circle.settle (close : ε → Circle ε → Circle ε) (c : Circle ε) (node : ε) :
    IoResult → Circle ε
  | .failure => close node c
  | .retry => c
  | .success => c.removeEvent node

/-- 巡回の loop。`n` はそれまでに呼んだ `io_process` の数である。`assert` に反すれば戻らない。 -/
def traverse (close : ε → Circle ε → Circle ε) (handler : Handler ε) :
    Nat → Nat → ε → Circle ε → Option (List (Visit ε) × Circle ε)
  | 0, _, _, _ => none
  | fuel + 1, n, node, c =>
    if c.next = some node then none
    else
      let (ops, ret) := handler n node c
      let c' := (c.execs ops).settle close node ret
      match c'.next with
      | none => some ([⟨node, c, ops, ret⟩], c')
      | some node' =>
        (traverse close handler fuel (n + 1) node' { c' with next := (c'.event node').next }).map
          fun out => (⟨node, c, ops, ret⟩ :: out.1, out.2)

/-- `CBase_circle::traversal`。 -/
def traversal (close : ε → Circle ε → Circle ε) (handler : Handler ε) (fuel : Nat)
    (c : Circle ε) : Option (List (Visit ε) × Circle ε) :=
  let c := { c with next := c.header }
  match c.header with
  | none => some ([], c)
  | some node => traverse close handler fuel 0 node { c with next := (c.event node).next }

/-- 載っていない event だけを足し、載っている event だけを外す。 -/
def Lawful : Circle ε → List (Op ε) → Prop
  | _, [] => True
  | c, .add e :: ops => (c.event e).linked = false ∧ Lawful (c.exec (.add e)) ops
  | c, .remove e :: ops => (c.event e).linked = true ∧ Lawful (c.exec (.remove e)) ops

end Model

/-! ## 操作の列が残すもの -/

section Ops

variable {ε : Type*}

/-- 足してから後、外していない。 -/
def Added (ops : List (Op ε)) (e : ε) : Prop :=
  ∃ before after, ops = before ++ .add e :: after ∧ .remove e ∉ after

@[simp] theorem not_added_nil (e : ε) : ¬ Added [] e := by
  rintro ⟨before, after, h, -⟩
  cases before <;> simp at h

theorem added_cons {op : Op ε} {ops : List (Op ε)} {e : ε} :
    Added (op :: ops) e ↔ Added ops e ∨ (op = .add e ∧ .remove e ∉ ops) := by
  constructor
  · rintro ⟨before, after, h, hr⟩
    cases before with
    | nil =>
      obtain ⟨rfl, rfl⟩ := List.cons.inj h
      exact .inr ⟨rfl, hr⟩
    | cons x before =>
      obtain ⟨rfl, rfl⟩ := List.cons.inj h
      exact .inl ⟨before, after, rfl, hr⟩
  · rintro (⟨before, after, rfl, hr⟩ | ⟨rfl, hr⟩)
    · exact ⟨op :: before, after, rfl, hr⟩
    · exact ⟨[], ops, rfl, hr⟩

/-- 操作の列の後に載っている event。 -/
def Remains (l : List ε) (ops : List (Op ε)) (e : ε) : Prop :=
  Added ops e ∨ (e ∈ l ∧ .remove e ∉ ops)

@[simp] theorem remains_nil {l : List ε} {e : ε} : Remains l [] e ↔ e ∈ l := by simp [Remains]

theorem remains_cons_add {l : List ε} {ops : List (Op ε)} {x e : ε} :
    Remains l (.add x :: ops) e ↔ Remains (x :: l) ops e := by
  unfold Remains
  rw [added_cons, Op.add.injEq, List.mem_cons, List.mem_cons]
  constructor
  · rintro ((ha | ⟨rfl, hr⟩) | ⟨he, hr⟩)
    · exact .inl ha
    · exact .inr ⟨.inl rfl, hr⟩
    · exact .inr ⟨.inr he, fun hc => hr (.inr hc)⟩
  · rintro (ha | ⟨rfl | he, hr⟩)
    · exact .inl (.inl ha)
    · exact .inl (.inr ⟨rfl, hr⟩)
    · exact .inr ⟨he, by simpa using hr⟩

theorem remains_cons_remove [DecidableEq ε] {l : List ε} (hnd : l.Nodup) {ops : List (Op ε)}
    {x e : ε} : Remains l (.remove x :: ops) e ↔ Remains (l.erase x) ops e := by
  unfold Remains
  rw [added_cons, hnd.mem_erase_iff, List.mem_cons, Op.remove.injEq]
  simp only [reduceCtorEq, false_and, or_false, not_or]
  constructor
  · rintro (ha | ⟨he, hne, hr⟩)
    · exact .inl ha
    · exact .inr ⟨⟨hne, he⟩, hr⟩
  · rintro (ha | ⟨⟨hne, he⟩, hr⟩)
    · exact .inl ha
    · exact .inr ⟨he, hne, hr⟩

theorem added_append {a b : List (Op ε)} {e : ε} :
    Added (a ++ b) e ↔ Added b e ∨ (Added a e ∧ .remove e ∉ b) := by
  induction a with
  | nil => simp
  | cons op a ih =>
    rw [List.cons_append, added_cons, added_cons, ih, List.mem_append, not_or]
    constructor
    · rintro ((hb | ⟨ha, hr⟩) | ⟨hop, hra, hrb⟩)
      · exact .inl hb
      · exact .inr ⟨.inl ha, hr⟩
      · exact .inr ⟨.inr ⟨hop, hra⟩, hrb⟩
    · rintro (hb | ⟨ha | ⟨hop, hra⟩, hr⟩)
      · exact .inl (.inl hb)
      · exact .inl (.inr ⟨ha, hr⟩)
      · exact .inr ⟨hop, hra, hr⟩

/-- 前半の後の一覧から後半を見ても同じである。 -/
theorem remains_append {l l' : List ε} {a b : List (Op ε)} (h : ∀ e, e ∈ l' ↔ Remains l a e)
    {e : ε} : Remains l (a ++ b) e ↔ Remains l' b e := by
  rw [Remains, Remains, h e, Remains, added_append, List.mem_append, not_or]
  constructor
  · rintro ((hb | ⟨ha, hr⟩) | ⟨he, hra, hrb⟩)
    · exact .inl hb
    · exact .inr ⟨.inl ha, hr⟩
    · exact .inr ⟨.inr ⟨he, hra⟩, hrb⟩
  · rintro (hb | ⟨ha | ⟨he, hra⟩, hr⟩)
    · exact .inl (.inl hb)
    · exact .inl (.inr ⟨ha, hr⟩)
    · exact .inr ⟨he, hra, hr⟩

end Ops

/-! ## 残りの先頭を指す `m_next` -/

/-- 一覧は、もう呼んだか後から足した `done` と、まだ呼んでいない `todo` からなる。 -/
structure Cursor {ε : Type*} (c : Circle ε) (done todo : List ε) : Prop where
  list : WellFormed c (done ++ todo)
  next : c.next = todo.head?

section Cursor

variable {ε : Type*} [DecidableEq ε] {c : Circle ε} {done todo : List ε} {e : ε}

@[simp] theorem Circle.modifyOpt_next (c : Circle ε) (e : Option ε) (f : IoEvent ε → IoEvent ε) :
    (c.modifyOpt e f).next = c.next := by cases e <;> rfl

theorem Circle.addEvent_next (c : Circle ε) (e : ε) : (c.addEvent e).next = c.next := by
  unfold addEvent
  cases c.header <;> rfl

/-- 外す event を `m_next` が指していれば、その次に付け替わる。 -/
theorem Circle.removeEvent_next (c : Circle ε) (e : ε) :
    (c.removeEvent e).next = if c.next = some e then (c.event e).next else c.next := by
  unfold removeEvent
  by_cases hn : c.next = some e
  · cases hp : (c.event e).prev <;> simp [hn, hp, modify]
  · cases hp : (c.event e).prev <;> simp [hn, hp, modify]

theorem Cursor.add (h : Cursor c done todo) (he : e ∉ done ++ todo) :
    Cursor (c.addEvent e) (e :: done) todo :=
  ⟨Circle.wellFormed_addEvent h.list he, (Circle.addEvent_next c e).trans h.next⟩

theorem Cursor.remove (h : Cursor c done todo) (he : e ∈ done ++ todo) :
    Cursor (c.removeEvent e) (done.erase e) (todo.erase e) := by
  have hnd := h.list.list.nodup
  obtain ⟨-, hndt, hdisj⟩ := List.nodup_append.mp hnd
  refine ⟨?_, ?_⟩
  · have hwf := Circle.wellFormed_removeEvent h.list he
    rw [List.erase_append] at hwf
    split at hwf
    · next hd =>
      rwa [List.erase_of_not_mem fun ht => hdisj e hd e ht rfl]
    · next hd => rwa [List.erase_of_not_mem hd]
  · rw [Circle.removeEvent_next, h.next]
    cases todo with
    | nil => simp
    | cons y ys =>
      by_cases hy : y = e
      · subst hy
        rw [List.head?_cons, if_pos rfl, List.erase_cons_head]
        exact h.list.next_eq_head?
      · rw [List.head?_cons, if_neg (by simpa using hy), List.erase_cons_tail (by simpa using hy),
          List.head?_cons]

/--
**操作の列は残りの順を変えず、外した event だけを残りから除く。**

足した event は一覧の先頭に入るので、残りには入らない。残りの event は載ったままなので、足されもしない。
-/
theorem Cursor.execs {ops : List (Op ε)} (h : Cursor c done todo) (hlaw : Lawful c ops) :
    ∃ done', Cursor (c.execs ops) done' (todo.filter (.remove · ∉ ops)) ∧
      (∀ e, e ∈ done' ++ todo.filter (.remove · ∉ ops) ↔ Remains (done ++ todo) ops e) ∧
      ∀ e ∈ todo, .remove e ∉ ops → .add e ∉ ops := by
  induction ops generalizing c done todo with
  | nil => exact ⟨done, by simpa [Circle.execs] using h, by simp, by simp⟩
  | cons op ops ih =>
    cases op with
    | add x =>
      obtain ⟨hx, hlaw⟩ := hlaw
      have hmem : x ∉ done ++ todo := fun hc => by
        rw [(h.list.linked x).mpr hc] at hx
        cases hx
      obtain ⟨done', hc, hiff, hadd⟩ := ih (h.add hmem) hlaw
      have hfilter : todo.filter (.remove · ∉ Op.add x :: ops) =
          todo.filter (.remove · ∉ ops) := by simp
      refine ⟨done', hfilter ▸ hc, fun e => ?_, fun e he hr hin => ?_⟩
      · rw [hfilter, hiff e, remains_cons_add]
        rfl
      · rcases List.mem_cons.mp hin with heq | hin
        · exact hmem (Op.add.inj heq ▸ List.mem_append_right done he)
        · exact hadd e he (fun hc => hr (List.mem_cons_of_mem _ hc)) hin
    | remove x =>
      obtain ⟨hx, hlaw⟩ := hlaw
      have hmem : x ∈ done ++ todo := (h.list.linked x).mp hx
      have hnd := h.list.list.nodup
      have herase := (h.remove hmem).list.unique (Circle.wellFormed_removeEvent h.list hmem)
      obtain ⟨done', hc, hiff, hadd⟩ := ih (h.remove hmem) hlaw
      have hfilter : todo.filter (.remove · ∉ Op.remove x :: ops) =
          (todo.erase x).filter (.remove · ∉ ops) := by
        rw [(List.nodup_append.mp hnd).2.1.erase_eq_filter, List.filter_filter]
        refine List.filter_congr fun y _ => ?_
        by_cases hy : y = x
        · simp [hy]
        · simp [hy]
      refine ⟨done', hfilter ▸ hc, fun e => ?_, fun e he hr hin => ?_⟩
      · rw [hfilter, hiff e, herase, remains_cons_remove hnd]
      · obtain ⟨hne, hr⟩ := not_or.mp (mt List.mem_cons.mpr hr)
        have hne' : e ≠ x := fun heq => hne (heq ▸ rfl)
        rcases List.mem_cons.mp hin with heq | hin
        · cases heq
        · exact hadd e ((List.mem_erase_of_ne hne').mpr he) hr hin

end Cursor

end RecordServer.Base
