import RecordServer.MemPool.BuddyLists
import Mathlib.Tactic.Ring

/-!
# 初期化した直後の block

* `Carved` — `[0, n)` を空いた block だけで敷き詰めた状態
* `Carved.carve` / `Carved.carveOrders` — loop が守ること
* `carved_of_init` — 初期化に成功すれば、buffer の終わりまでの 64 byte の単位が全部 block になる
* `bytepos_in_area` — bit の byte は、自分の `free_area` に収まる
-/

namespace RecordServer.MemPool

open Infra

section Mem

variable {fl : Nat → List Nat} {k b l c : Nat}

theorem mem_update_cons :
    c ∈ Function.update fl k (b :: fl k) l ↔ (l = k ∧ c = b) ∨ c ∈ fl l := by
  by_cases h : l = k
  · subst h
    simp
  · simp [h]

theorem mem_update_erase (hnd : (fl k).Nodup) :
    c ∈ Function.update fl k ((fl k).erase b) l ↔ c ∈ fl l ∧ ¬ (l = k ∧ c = b) := by
  by_cases h : l = k
  · subst h
    simp [hnd.mem_erase_iff, and_comm]
  · simp [h]

end Mem

/-- 次数が 9 より小さい隣同士の block は、両方が空いていることはない。 -/
def FreeSettled (fl : Nat → List Nat) : Prop :=
  ∀ k b, k < 9 → 2 ^ (k + 1) ∣ b → ¬ (b ∈ fl k ∧ b + 2 ^ k ∈ fl k)

theorem FreeSettled.mono {fl fl' : Nat → List Nat} (h : FreeSettled fl)
    (hsub : ∀ k b, b ∈ fl' k → b ∈ fl k) : FreeSettled fl' :=
  fun k b hk hdvd hboth => h k b hk hdvd ⟨hsub k b hboth.1, hsub k _ hboth.2⟩

/-- 隣が空いていない block を足す。 -/
theorem FreeSettled.insert {fl : Nat → List Nat} (h : FreeSettled fl) {k b : Nat}
    (hright : k < 9 → 2 ^ (k + 1) ∣ b → b + 2 ^ k ∉ fl k)
    (hleft : ∀ c, k < 9 → 2 ^ (k + 1) ∣ c → b = c + 2 ^ k → c ∉ fl k) :
    FreeSettled (Function.update fl k (b :: fl k)) := by
  rintro l c hl hc ⟨hl₁, hl₂⟩
  rw [mem_update_cons] at hl₁ hl₂
  rcases hl₁ with ⟨rfl, rfl⟩ | hl₁ <;> rcases hl₂ with ⟨heq, hb⟩ | hl₂
  · have := Nat.two_pow_pos l
    omega
  · exact hright hl hc hl₂
  · subst heq
    exact hleft c hl hc hb.symm hl₁
  · exact h l c hl hc ⟨hl₁, hl₂⟩

structure Carved (s : BuddyMem) (lo : Nat) (fl : Nat → List Nat) (n : Nat) : Prop where
  lists : Lists s lo fl
  tiling : Tiling n (fun (_ : Unit) k b => b ∈ fl k)
  settled : FreeSettled fl
  /-- まだ並べていない order の `free_area`。 -/
  blank : ∀ k < lo, s.area k = ⟨none, 0, fun _ => 0⟩

variable {s : BuddyMem} {k n : Nat} {fl : Nat → List Nat}

/-- 末尾の次の block は、どの list にも載っていない。 -/
theorem Carved.end_not_mem (h : Carved s k fl n) (k' : Nat) : n ∉ fl k' := by
  intro hmem
  have hin := h.tiling.inside (i := ()) hmem
  have := Nat.two_pow_pos k'
  omega

/-- 末尾に block を一つ並べる。 -/
theorem Carved.snoc (h : Carved s k fl n) (hk : k ≤ 9) (hdvd : 2 ^ k ∣ n)
    (hempty : k < 9 → fl k = []) :
    Carved (s.insertFree n k n) k (Function.update fl k (n :: fl k)) (n + 2 ^ k) := by
  constructor
  · exact h.lists.insertFree le_rfl hk h.end_not_mem hdvd rfl
  · refine h.tiling.extend (i := ()) hdvd fun j l c => ?_
    rw [mem_update_cons]
    simp
  · -- 次数が 9 より小さい block は、いま並べた一つだけである。
    exact h.settled.insert (fun hk9 _ => by simp [hempty hk9]) (fun c hk9 _ _ => by simp [hempty hk9])
  · intro k' hk'
    rw [BuddyMem.insertFree_area, if_neg (Nat.ne_of_lt hk')]
    exact h.blank k' hk'

/-- 一つの order の loop を終えた状態。 -/
structure CarvedTo (s : BuddyMem) (k n : Nat) (r : BuddyMem × Nat × Nat) : Prop where
  carved : ∃ fl, Carved r.1 k fl r.2.2
  aligned : 2 ^ k ∣ r.2.2
  total : r.2.2 + r.2.1 / 64 = n
  short : r.2.1 / 64 < 2 ^ k
  layout : BuddyMem.SameLayout s r.1

theorem Carved.carve (h : Carved s k fl n) (hk : k ≤ 9) (hdvd : 2 ^ k ∣ n) (remain : Nat)
    (hempty : k < 9 → remain / 64 < 2 ^ (k + 1) ∧ (fl k = [] ∨ remain / 64 < 2 ^ k)) :
    CarvedTo s k (n + remain / 64) (BuddyMem.carve k s remain n) := by
  induction remain using Nat.strong_induction_on generalizing s fl n with
  | _ remain ih =>
    rw [BuddyMem.carve]
    by_cases hfit : 64 <<< k ≤ remain
    · rw [if_pos hfit]
      have hsub : (remain - 64 <<< k) / 64 = remain / 64 - 2 ^ k := by omega
      have hsnoc := h.snoc hk hdvd fun hk9 => (hempty hk9).2.resolve_right (by omega)
      have hnext := ih (remain - 64 <<< k) (by omega) hsnoc (Nat.dvd_add hdvd (dvd_refl _))
        fun hk9 => ⟨by have := (hempty hk9).1; omega, .inr (by have := (hempty hk9).1; omega)⟩
      rw [Nat.one_shiftLeft]
      rw [hsub, show n + 2 ^ k + (remain / 64 - 2 ^ k) = n + remain / 64 by omega] at hnext
      exact ⟨hnext.carved, hnext.aligned, hnext.total, hnext.short,
        (BuddyMem.insertFree_layout n k n).trans hnext.layout⟩
    · rw [if_neg hfit]
      exact ⟨⟨fl, h⟩, hdvd, rfl, by show remain / 64 < 2 ^ k; omega, rfl, rfl, rfl⟩

/-- 次の order の `free_area` を使い始める。 -/
theorem Carved.begin (h : Carved s (k + 1) fl n) :
    Carved (s.modifyArea k fun a => { a with order := k }) k fl n := by
  have hempty : fl k = [] :=
    List.eq_nil_iff_forall_not_mem.mpr fun b hb => by have := (h.lists.range hb).1; omega
  refine ⟨⟨fun k' hk' hk9 => ?_, fun hb => ?_, h.lists.apart⟩, h.tiling, h.settled, fun k' hk' => ?_⟩
  · by_cases hkk : k' = k
    · subst hkk
      rw [BuddyMem.modifyArea_area, if_pos rfl, h.blank k' (Nat.lt_succ_self k'), hempty]
      exact ⟨rfl, rfl, fun j => by simp [FreeArea.bit], by simp⟩
    · rw [BuddyMem.modifyArea_area, if_neg hkk]
      exact h.lists.ok k' (by omega) hk9
  · exact ⟨Nat.le_of_succ_le (h.lists.range hb).1, (h.lists.range hb).2⟩
  · rw [BuddyMem.modifyArea_area, if_neg (Nat.ne_of_lt hk')]
    exact h.blank k' (by omega)

theorem Carved.carveOrders (h : Carved s k fl n) (hk : k ≤ 10) (hdvd : 2 ^ k ∣ n) (remain : Nat)
    (hshort : k ≤ 9 → remain / 64 < 2 ^ k) :
    (∃ fl', Carved (BuddyMem.carveOrders k s remain n) 0 fl' (n + remain / 64)) ∧
      BuddyMem.SameLayout s (BuddyMem.carveOrders k s remain n) := by
  induction k generalizing s fl n remain with
  | zero =>
    have hzero : remain / 64 = 0 := by have := hshort (by omega); omega
    rw [hzero]
    exact ⟨⟨fl, h⟩, rfl, rfl, rfl⟩
  | succ k ih =>
    have hempty : fl k = [] :=
      List.eq_nil_iff_forall_not_mem.mpr fun b hb => by have := (h.lists.range hb).1; omega
    have hto := h.begin.carve (by omega) (dvd_of_le (Nat.le_succ k) hdvd) remain
      fun hk9 => ⟨hshort hk9, .inl hempty⟩
    rw [BuddyMem.carveOrders]
    obtain ⟨⟨fl', hcarved⟩, hdvd', htotal, hshort', hlayout⟩ := hto
    obtain ⟨hres, hlayout'⟩ := ih hcarved (by omega) hdvd' _ fun _ => hshort'
    rw [htotal] at hres
    exact ⟨hres, (BuddyMem.SameLayout.trans ⟨rfl, rfl, rfl⟩ hlayout).trans hlayout'⟩

/-- 何も並べていない状態。 -/
theorem Carved.start (hblank : ∀ k ≤ 9, s.area k = ⟨none, 0, fun _ => 0⟩) :
    Carved s 10 (fun _ => []) 0 where
  lists := ⟨fun k hlo hk => by omega, by simp, by simp⟩
  tiling := by simpa using (Tiling.empty : Tiling 0 fun (_ : Unit) _ _ => False)
  settled := fun k b hk hdvd h => by simp at h
  blank := fun k hk => hblank k (by omega)

/-! ## `init_buddy_mem` -/

/-- block に使える長さは `s32` に収まる。 -/
theorem remain_eq {b l freeStart : Nat} (hle : b ≤ freeStart) (hfree : freeStart < b + 256)
    (hl : l < 2 ^ 32) (h : ¬ Int.bmod ((l : Int) - (freeStart - b)) (2 ^ 32) < 64) :
    (Int.bmod ((l : Int) - (freeStart - b)) (2 ^ 32)).toNat + freeStart = b + l ∧
      (Int.bmod ((l : Int) - (freeStart - b)) (2 ^ 32)).toNat < 2 ^ 31 := by
  rw [Int.bmod_def] at h ⊢
  split at h <;> omega

/-- 初期化に成功したときの、`free_area` の大きさと、block に使えるようになった長さ。 -/
theorem init_cases {s₀ : BuddyMem} {b l : Nat} (hl : l < 2 ^ 32)
    (hinit : s₀.initBuddyMem b l = some s) :
    ∃ t remain, s = BuddyMem.carveOrders 10 t remain 0 ∧ t.blockStart + remain = b + l ∧
      (∀ k ≤ 9, t.area k = ⟨none, 0, fun _ => 0⟩) ∧ t.alignBlockSize = 24 ∧
      ∃ all, remain ≤ all ∧ all < 2 ^ 31 ∧
        t.alignAreaSize = alignU32 (sizeofFreeArea + (all / 64 + 15) >>> (3 + 1)) 64 := by
  have hpm := alignPtr_bounds b
  have hfree := alignPtr_bounds (alignPtr b 64 + sizeofMem)
  unfold BuddyMem.initBuddyMem BuddyMem.initFree at hinit
  simp only at hinit
  generalize alignPtr (alignPtr b 64 + sizeofMem) 64 = freeStart at hinit hfree
  generalize alignPtr b 64 = pm at hinit hpm hfree
  unfold sizeofMem at hfree hinit
  rw [show (l : Int) - (pm - b) - (freeStart - pm) = l - (freeStart - b) by ring] at hinit
  split at hinit
  · cases hinit
  · split at hinit
    · cases hinit
    · next hlarge =>
      obtain ⟨hsum, hlt⟩ := remain_eq (by omega) (by omega) hl hlarge
      split at hinit
      · cases hinit
      · next hfits =>
        obtain rfl := Option.some.inj hinit
        refine ⟨_, _, rfl, ?_, fun k hk => if_pos hk, rfl, _, Nat.sub_le _ _, hlt, rfl⟩
        show freeStart + _ + _ = _
        omega

/--
**初期化に成功すれば、`block_start` から buffer の終わりまでの 64 byte の単位が全部 block になる。**
-/
theorem carved_of_init {s₀ : BuddyMem} {b l : Nat} (hl : l < 2 ^ 32)
    (hinit : s₀.initBuddyMem b l = some s) :
    ∃ fl, Carved s 0 fl ((b + l - s.blockStart) / 64) := by
  obtain ⟨t, remain, rfl, hsum, hblank, -⟩ := init_cases hl hinit
  obtain ⟨⟨fl, hcarved⟩, hlayout⟩ :=
    (Carved.start hblank).carveOrders le_rfl (Nat.dvd_zero _) remain (by omega)
  refine ⟨fl, ?_⟩
  rw [hlayout.1, show b + l - t.blockStart = remain by omega]
  simpa using hcarved

theorem alignBlockSize_of_init {s₀ : BuddyMem} {b l : Nat} (hl : l < 2 ^ 32)
    (hinit : s₀.initBuddyMem b l = some s) : s.alignBlockSize = 24 := by
  obtain ⟨t, remain, rfl, hsum, hblank, hsize, -⟩ := init_cases hl hinit
  obtain ⟨-, hlayout⟩ :=
    (Carved.start hblank).carveOrders le_rfl (Nat.dvd_zero _) remain (by omega)
  exact hlayout.2.1.trans hsize

/-- **bit の byte は、52 byte 目からの自分の `free_area` に収まる。** -/
theorem bytepos_in_area {s₀ : BuddyMem} {b l : Nat} (hl : l < 2 ^ 32)
    (hinit : s₀.initBuddyMem b l = some s) {index : Nat}
    (hindex : index < (b + l - s.blockStart) / 64) (order : Nat) :
    52 + index >>> (order + 1 + 3) < s.alignAreaSize := by
  obtain ⟨t, remain, rfl, hsum, hblank, -, all, hle, hall, harea⟩ := init_cases hl hinit
  obtain ⟨-, hlayout⟩ :=
    (Carved.start hblank).carveOrders le_rfl (Nat.dvd_zero _) remain (by omega)
  rw [hlayout.1] at hindex
  rw [hlayout.2.2, harea]
  have hpow : 2 ^ 4 ≤ 2 ^ (order + 1 + 3) := Nat.pow_le_pow_right (by decide) (by omega)
  have hbyte : index >>> (order + 1 + 3) ≤ index / 2 ^ 4 := by
    rw [Nat.shiftRight_eq_div_pow]
    exact Nat.div_le_div_left hpow (by decide)
  rw [Nat.shiftRight_eq_div_pow]
  unfold alignU32 sizeofFreeArea
  omega

end RecordServer.MemPool
