import Mathlib.Data.List.Basic
import Mathlib.Data.List.Count

/-!
# descriptor の表

process の descriptor の表を、番号の順に並べた持ち主の列で表す。空きは `none` で、列の長さが開ける数の上限である。
開くときは最も小さい空きを取り、空きが無ければ開けない。

* `FdTable.alloc` / `FdTable.close` — 開く、閉じる
* `free` / `count` — 空きの数と、ある種の持ち主の数
* `free_alloc` / `count_alloc` / `count_close` — 一度に動くのは一つである
* `close_alloc` — 開いてすぐ閉じれば元の表に戻る
-/

namespace RecordServer.Infra

structure FdTable (α : Type*) where
  slots : List (Option α)

namespace FdTable

variable {α : Type*} {t t' : FdTable α} {a b : α} {fd : Nat} {p : α → Bool}

/-- `fd` の持ち主。 -/
def owner (t : FdTable α) (fd : Nat) : Option α := t.slots[fd]?.join

/-- 開ける数の上限。 -/
def limit (t : FdTable α) : Nat := t.slots.length

/-- 最も小さい空きを取る。 -/
def alloc (t : FdTable α) (a : α) : Option (Nat × FdTable α) :=
  (t.slots.findIdx? Option.isNone).map fun fd => (fd, ⟨t.slots.set fd (some a)⟩)

def close (t : FdTable α) (fd : Nat) : FdTable α := ⟨t.slots.set fd none⟩

/-- 空きの数。 -/
def free (t : FdTable α) : Nat := t.slots.countP Option.isNone

/-- `p` にあたる持ち主の数。 -/
def count (p : α → Bool) (t : FdTable α) : Nat := t.slots.countP fun o => o.any p

theorem owner_eq_some : t.owner fd = some a ↔ t.slots[fd]? = some (some a) := by
  simp [owner, Option.join_eq_some_iff]

/-! ## 開く -/

/-- 取れるのは空きで、表はそこだけが変わる。 -/
theorem alloc_spec (h : t.alloc a = some (fd, t')) :
    ∃ hfd : fd < t.slots.length, t.slots[fd] = none ∧ t' = ⟨t.slots.set fd (some a)⟩ := by
  obtain ⟨i, hi, heq⟩ := Option.map_eq_some_iff.mp h
  obtain ⟨rfl, rfl⟩ := Prod.mk.inj heq
  obtain ⟨hlt, hnone, -⟩ := List.findIdx?_eq_some_iff_getElem.mp hi
  exact ⟨hlt, Option.isNone_iff_eq_none.mp hnone, rfl⟩

/-- 開けないのは、空きが無いときに限る。 -/
theorem alloc_eq_none_iff : t.alloc a = none ↔ t.free = 0 := by
  rw [alloc, Option.map_eq_none_iff, List.findIdx?_eq_none_iff, free, List.countP_eq_zero]
  simp only [Bool.not_eq_true]

/-- 空きがあれば開ける。 -/
theorem exists_alloc (h : 0 < t.free) (a : α) : ∃ fd t', t.alloc a = some (fd, t') := by
  have hne : t.alloc a ≠ none := mt alloc_eq_none_iff.mp (by omega)
  obtain ⟨⟨fd, t'⟩, hal⟩ := Option.ne_none_iff_exists'.mp hne
  exact ⟨fd, t', hal⟩

theorem free_alloc (h : t.alloc a = some (fd, t')) : t.free = t'.free + 1 := by
  obtain ⟨hfd, hnone, rfl⟩ := alloc_spec h
  have hpos : 0 < t.slots.countP Option.isNone :=
    List.countP_pos_iff.mpr ⟨_, List.getElem_mem hfd, by simp [hnone]⟩
  simp only [free, List.countP_set hfd, hnone, Option.isNone_none, Option.isNone_some]
  simp only [if_true, Bool.false_eq_true, if_false]
  omega

theorem count_alloc (h : t.alloc a = some (fd, t')) :
    t'.count p = t.count p + if p a then 1 else 0 := by
  obtain ⟨hfd, hnone, rfl⟩ := alloc_spec h
  simp [count, List.countP_set hfd, hnone]

theorem owner_alloc (h : t.alloc a = some (fd, t')) (i : Nat) :
    t'.owner i = if i = fd then some a else t.owner i := by
  obtain ⟨hfd, -, rfl⟩ := alloc_spec h
  unfold owner
  by_cases hi : i = fd
  · subst hi
    simp [hfd]
  · simp [hi, List.getElem?_set_ne (Ne.symm hi)]

theorem owner_of_alloc (h : t.alloc a = some (fd, t')) : t.owner fd = none := by
  obtain ⟨hfd, hnone, -⟩ := alloc_spec h
  simp [owner, hfd, hnone]

/-! ## 閉じる -/

theorem count_close (h : t.owner fd = some b) :
    t.count p = (t.close fd).count p + if p b then 1 else 0 := by
  obtain ⟨hfd, hget⟩ := List.getElem?_eq_some_iff.mp (owner_eq_some.mp h)
  simp only [count, close, List.countP_set hfd, hget, Option.any_some, Option.any_none]
  by_cases hb : p b = true
  · have hpos : 0 < t.slots.countP fun o => o.any p :=
      List.countP_pos_iff.mpr ⟨_, List.getElem_mem hfd, by simp [hget, hb]⟩
    simp only [hb, if_true, Bool.false_eq_true, if_false]
    omega
  · simp [hb]

theorem owner_close (i : Nat) : (t.close fd).owner i = if i = fd then none else t.owner i := by
  unfold owner close
  by_cases hi : i = fd
  · subst hi
    by_cases hlt : i < t.slots.length
    · simp [hlt]
    · simp [hlt]
  · simp [hi, List.getElem?_set_ne (Ne.symm hi)]

/-- 開いてすぐ閉じれば、元の表に戻る。 -/
theorem close_alloc (h : t.alloc a = some (fd, t')) : t'.close fd = t := by
  obtain ⟨hfd, hnone, rfl⟩ := alloc_spec h
  have hself : t.slots.set fd none = t.slots := by
    conv_rhs => rw [← List.set_getElem_self hfd]
    rw [hnone]
  rw [close, List.set_set, hself]

/-! ## 上限 -/

@[simp] theorem limit_close : (t.close fd).limit = t.limit := by simp [limit, close]

theorem limit_alloc (h : t.alloc a = some (fd, t')) : t'.limit = t.limit := by
  obtain ⟨-, -, rfl⟩ := alloc_spec h
  simp [limit]

/-- どの種の持ち主も、空きと合わせて上限を超えない。 -/
theorem count_add_free_le (p : α → Bool) (t : FdTable α) : t.count p + t.free ≤ t.limit := by
  unfold count free limit
  induction t.slots with
  | nil => simp
  | cons o slots ih =>
    rw [List.countP_cons, List.countP_cons, List.length_cons]
    cases o with
    | none => simp; omega
    | some b =>
      simp only [Option.any_some, Option.isNone_some, Bool.false_eq_true, if_false]
      split <;> omega

end FdTable

end RecordServer.Infra
