import Mathlib.Data.List.Dedup
import Mathlib.Logic.Function.Basic
import Mathlib.Tactic.Ring

/-!
# 参照の数

object は、自分への参照の数を `w` bit の counter に持つ。参照を一つ増やす側も減らす側も、参照を一つ
持っている。減らして `0` になった object は、それを見た者が片付ける。

* `Counted` — counter は、いま持たれている参照の数に等しい
* `Counted.create`、`Counted.retain`、`Counted.drop`、`Counted.last`、`Counted.bury` — 操作ごとに保たれる
* `occupied` — まだ片付いていない object。手放しても変わらず、`create` と `bury` だけが変える
-/

namespace RecordServer.Infra

variable {α : Type*} [DecidableEq α]

/--
`refs` は持たれている参照の列で、同じ object への参照は参照の数だけ並ぶ。`dying` は、最後の参照が
無くなり、これから片付けられる object である。
-/
structure Counted (w : Nat) (count : α → Nat) (refs dying : List α) : Prop where
  exact : ∀ p ∈ refs, count p = refs.count p
  fits : ∀ p, refs.count p < 2 ^ w
  apart : ∀ p ∈ dying, p ∉ refs
  nodup : dying.Nodup

/-- まだ片付いていない object。 -/
def occupied (refs dying : List α) : List α := refs.dedup ++ dying

variable {w : Nat} {count : α → Nat} {refs dying : List α} {p : α}

theorem mem_occupied : p ∈ occupied refs dying ↔ p ∈ refs ∨ p ∈ dying := by simp [occupied]

/-- 何も作っていないとき。 -/
theorem Counted.nil : Counted w count ([] : List α) [] :=
  ⟨by simp, fun _ => Nat.two_pow_pos w, by simp, List.nodup_nil⟩

theorem Counted.occupied_nodup (h : Counted w count refs dying) : (occupied refs dying).Nodup :=
  List.nodup_append.mpr ⟨List.nodup_dedup _, h.nodup, fun _ hx y hy heq =>
    h.apart y hy (heq ▸ List.mem_dedup.mp hx)⟩

/-- 作られた object への参照は一つである。 -/
theorem Counted.create (h : Counted w count refs dying) (hw : 0 < w)
    (hnew : p ∉ occupied refs dying) :
    Counted w (Function.update count p 1) (p :: refs) dying := by
  obtain ⟨hrefs, hdying⟩ := not_or.mp (mt mem_occupied.mpr hnew)
  have hzero : refs.count p = 0 := List.count_eq_zero.mpr hrefs
  constructor
  · intro q hq
    by_cases hqp : q = p
    · rw [hqp, Function.update_self, List.count_cons_self, hzero]
    · rw [Function.update_of_ne hqp, List.count_cons_of_ne (Ne.symm hqp)]
      exact h.exact q ((List.mem_cons.mp hq).resolve_left hqp)
  · intro q
    by_cases hqp : q = p
    · rw [hqp, List.count_cons_self, hzero]
      exact Nat.one_lt_two_pow (Nat.pos_iff_ne_zero.mp hw)
    · rw [List.count_cons_of_ne (Ne.symm hqp)]
      exact h.fits q
  · intro q hq hin
    rcases List.mem_cons.mp hin with rfl | hin
    · exact hdying hq
    · exact h.apart q hq hin
  · exact h.nodup

theorem occupied_create (hnew : p ∉ occupied refs dying) :
    occupied (p :: refs) dying = p :: occupied refs dying := by
  have hrefs := (not_or.mp (mt mem_occupied.mpr hnew)).1
  rw [occupied, List.dedup_cons_of_notMem hrefs]
  rfl

/-- 参照を持つ者が、もう一つ増やす。 -/
theorem Counted.retain (h : Counted w count refs dying) (hp : p ∈ refs)
    (hlt : refs.count p < 2 ^ w - 1) :
    Counted w (Function.update count p ((count p + 1) % 2 ^ w)) (p :: refs) dying := by
  constructor
  · intro q hq
    by_cases hqp : q = p
    · rw [hqp, Function.update_self, List.count_cons_self, h.exact p hp,
        Nat.mod_eq_of_lt (by omega)]
    · rw [Function.update_of_ne hqp, List.count_cons_of_ne (Ne.symm hqp)]
      exact h.exact q ((List.mem_cons.mp hq).resolve_left hqp)
  · intro q
    by_cases hqp : q = p
    · rw [hqp, List.count_cons_self]
      omega
    · rw [List.count_cons_of_ne (Ne.symm hqp)]
      exact h.fits q
  · intro q hq hin
    rcases List.mem_cons.mp hin with rfl | hin
    · exact h.apart q hq hp
    · exact h.apart q hq hin
  · exact h.nodup

theorem occupied_retain (hp : p ∈ refs) :
    occupied (p :: refs) dying = occupied refs dying := by
  rw [occupied, List.dedup_cons_of_mem hp]
  rfl

theorem Counted.drop_fits (h : Counted w count refs dying) (q : α) :
    (refs.erase p).count q < 2 ^ w :=
  Nat.lt_of_le_of_lt (List.Sublist.count_le q List.erase_sublist) (h.fits q)

section Drop

variable (h : Counted w count refs dying) (hp : p ∈ refs)
include h hp

theorem Counted.pos : 0 < count p := by
  rw [h.exact p hp]
  exact List.count_pos_iff.mpr hp

/-- 減らした counter が `0` になるのは、最後の参照を手放したときに限る。 -/
theorem Counted.sub_eq_zero : count p - 1 = 0 ↔ p ∉ refs.erase p := by
  have hpos := h.pos hp
  have hexact := h.exact p hp
  rw [← List.count_eq_zero, List.count_erase_self]
  omega

theorem Counted.drop_exact (q : α) (hq : q ∈ refs.erase p) :
    Function.update count p (count p - 1) q = (refs.erase p).count q := by
  by_cases hqp : q = p
  · rw [hqp, Function.update_self, List.count_erase_self, h.exact p hp]
  · rw [Function.update_of_ne hqp, List.count_erase_of_ne hqp]
    exact h.exact q (List.mem_of_mem_erase hq)

/-- 参照を一つ手放す。まだ残っていれば片付けない。 -/
theorem Counted.drop (hmore : p ∈ refs.erase p) :
    Counted w (Function.update count p (count p - 1)) (refs.erase p) dying ∧
      (occupied (refs.erase p) dying).Perm (occupied refs dying) := by
  refine ⟨⟨h.drop_exact hp, h.drop_fits, fun q hq hin => ?_, h.nodup⟩, ?_⟩
  · exact h.apart q hq (List.mem_of_mem_erase hin)
  · refine List.Perm.append_right _ ((List.perm_ext_iff_of_nodup (List.nodup_dedup _)
      (List.nodup_dedup _)).mpr fun q => ?_)
    rw [List.mem_dedup, List.mem_dedup]
    refine ⟨List.mem_of_mem_erase, fun hq => ?_⟩
    by_cases hqp : q = p
    · exact hqp ▸ hmore
    · exact (List.mem_erase_of_ne hqp).mpr hq

/-- 最後の参照を手放した object は、片付けられるのを待つ。 -/
theorem Counted.last (hlast : p ∉ refs.erase p) :
    Counted w (Function.update count p (count p - 1)) (refs.erase p) (p :: dying) ∧
      (occupied (refs.erase p) (p :: dying)).Perm (occupied refs dying) := by
  have hapart : ∀ q ∈ p :: dying, q ∉ refs.erase p := by
    intro q hq hin
    rcases List.mem_cons.mp hq with rfl | hq
    · exact hlast hin
    · exact h.apart q hq (List.mem_of_mem_erase hin)
  have hnd : (p :: dying).Nodup := List.nodup_cons.mpr ⟨fun hin => h.apart p hin hp, h.nodup⟩
  have hcounted : Counted w (Function.update count p (count p - 1)) (refs.erase p) (p :: dying) :=
    ⟨h.drop_exact hp, h.drop_fits, hapart, hnd⟩
  refine ⟨hcounted, (List.perm_ext_iff_of_nodup hcounted.occupied_nodup h.occupied_nodup).mpr
    fun q => ?_⟩
  rw [mem_occupied, mem_occupied, List.mem_cons]
  by_cases hqp : q = p
  · simp [hqp, hp]
  · rw [List.mem_erase_of_ne hqp]
    simp [hqp]

end Drop

/-- 待っていた object を片付ける。 -/
theorem Counted.bury (h : Counted w count refs dying) :
    Counted w count refs (dying.erase p) :=
  ⟨h.exact, h.fits, fun q hq => h.apart q (List.mem_of_mem_erase hq), h.nodup.erase p⟩

theorem Counted.occupied_bury (h : Counted w count refs dying) (hp : p ∈ dying) :
    occupied refs (dying.erase p) = (occupied refs dying).erase p := by
  have hrefs : p ∉ refs.dedup := fun hin => h.apart p hp (List.mem_dedup.mp hin)
  rw [occupied, occupied, List.erase_append_right _ hrefs]

end RecordServer.Infra
