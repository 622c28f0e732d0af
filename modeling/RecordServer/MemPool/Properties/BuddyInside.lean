import RecordServer.MemPool.BuddyInit
import RecordServer.MemPool.BuddyWrites

/-!
# 初期化は渡された buffer の中だけに書くか

`init_buddy_mem` は `l` が `sizeof(mem)` に足りるかを先に見るが、`pm` を 64 の倍数に切り上げるので、`mem_t` は `b` から 63 byte まで
後ろにずれる。`len`、`remain_len`、`free_start` の 16 byte は、残りの長さを見る前に書かれる。

* `InitLayout` — `free_area` と block が buffer に収まる
* `carveWrites_within` / `carveOrdersWrites_within` — loop の書き込みは収まる
* `InitInside` — 書き込みはみな buffer の中で、成功すれば bit の byte も自分の `free_area` の中にある
* `init_inside_iff` — そうなるのは、何も書かないか、切り上げた先から 16 byte が入るときに限る
* `header_past_end` — 64 の倍数の次から 32 byte の buffer では、buffer の外に書く
-/

namespace RecordServer.MemPool

open Infra

/-- 渡された buffer。終わりまでが番地として数えられる。 -/
structure GivenBuffer where
  b : Nat
  l : Nat
  l_lt : l < 2 ^ 32
  end_le : b + l ≤ 2 ^ 64

/-- 書き込みはみな buffer の中で、成功したなら、どの block の bit も自分の `free_area` の中にある。 -/
def InitInside (s : BuddyMem) (g : GivenBuffer) : Prop :=
  AllWithin g.b (g.b + g.l : Nat) (s.initBuddyMemWrites g.b g.l) ∧
    ∀ s', s.initBuddyMem g.b g.l = some s' → ∀ index < (g.b + g.l - s'.blockStart) / 64,
      ∀ order, 52 + index >>> (order + 1 + 3) < s'.alignAreaSize

/-! ## 収まる書き込み -/

section Within

variable {s : BuddyMem} {lo hi units pm a n : Nat}

theorem spanAt_within (hlo : lo ≤ a) (hhi : a + n ≤ hi) (hend : hi ≤ 2 ^ 64) :
    (spanAt a n).Within lo hi := by
  refine Span.within_iff.mpr ?_
  by_cases hn : n = 0
  · exact .inl hn
  · right
    show (lo : Int) ≤ (a % 2 ^ 64 : Nat) ∧ ((a % 2 ^ 64 : Nat) : Int) + n ≤ hi
    rw [Nat.mod_eq_of_lt (by omega)]
    omega

/-- `free_area` が十個と、64 byte の block が `units` 個、`[lo, hi)` に収まる。 -/
structure InitLayout (s : BuddyMem) (pm lo hi units : Nat) : Prop where
  end_le : hi ≤ 2 ^ 64
  header : lo ≤ pm ∧ pm + 32 ≤ hi
  areas : lo ≤ s.freeStart ∧ s.freeStart + s.alignAreaSize * 10 ≤ hi
  blocks : lo ≤ s.blockStart ∧ s.blockStart + 64 * units ≤ hi
  areaSize : 56 ≤ s.alignAreaSize
  bitmap : ∀ index < units, ∀ order, 52 + index >>> (order + 1 + 3) < s.alignAreaSize
  heads : ∀ k ≤ 9, ∀ b, (s.area k).freelist = some b → b < units

theorem InitLayout.area_within (h : InitLayout s pm lo hi units) {k i : Nat} (hk : k ≤ 9)
    (hin : i + n ≤ s.alignAreaSize) : (spanAt (s.areaAddr k + i) n).Within lo hi := by
  have hareas := h.areas
  have hmul : s.alignAreaSize * k + s.alignAreaSize ≤ s.alignAreaSize * 10 := by
    rw [← Nat.mul_succ]
    exact Nat.mul_le_mul_left _ (by omega)
  unfold BuddyMem.areaAddr
  exact spanAt_within (by omega) (by omega) h.end_le

theorem InitLayout.block_within (h : InitLayout s pm lo hi units) {b i : Nat} (hb : b < units)
    (hin : i + n ≤ 64) : (spanAt (s.blockAddr b + i) n).Within lo hi := by
  have hblocks := h.blocks
  unfold BuddyMem.blockAddr
  exact spanAt_within (by omega) (by omega) h.end_le

theorem InitLayout.addBlock_within (h : InitLayout s pm lo hi units) {b k : Nat} (hk : k ≤ 9)
    (hb : b < units) : AllWithin lo hi (s.addBlockWrites b k) := by
  have hsize := h.areaSize
  rw [BuddyMem.addBlockWrites, allWithin_append]
  constructor
  · split
    · rename_i tempb hhead
      simpa using h.block_within (i := 0) (h.heads k hk tempb hhead) (by omega)
    · exact allWithin_nil
  · have hpre := h.block_within (n := 8) (i := 0) hb (by omega)
    simp only [allWithin_cons, allWithin_nil, and_true]
    exact ⟨h.area_within hk (by omega), hpre, h.block_within hb (by omega),
      h.block_within hb (by omega)⟩

theorem insertFree_freeStart (b k index : Nat) :
    (s.insertFree b k index).freeStart = s.freeStart := by
  unfold BuddyMem.insertFree BuddyMem.addBlock
  rw [BuddyMem.setBitmap_snd]
  cases (s.area k).freelist <;> rfl

theorem addBlock_areaAddr (b k fa : Nat) : (s.addBlock b k).areaAddr fa = s.areaAddr fa := by
  unfold BuddyMem.addBlock BuddyMem.areaAddr
  cases (s.area k).freelist <;> rfl

/-- block を一つ並べても収まる。 -/
theorem InitLayout.insertFree (h : InitLayout s pm lo hi units) {b : Nat} (hb : b < units)
    (k index : Nat) : InitLayout (s.insertFree b k index) pm lo hi units := by
  obtain ⟨hstart, -, hsize⟩ := BuddyMem.insertFree_layout (s := s) b k index
  refine ⟨h.end_le, h.header, ?_, ?_, ?_, ?_, fun k' hk' x hx => ?_⟩
  · rw [insertFree_freeStart, hsize]
    exact h.areas
  · rw [hstart]
    exact h.blocks
  · rw [hsize]
    exact h.areaSize
  · rw [hsize]
    exact h.bitmap
  · rw [BuddyMem.insertFree_area] at hx
    split at hx
    · obtain rfl : b = x := by simpa using hx
      exact hb
    · exact h.heads k' hk' x hx

theorem InitLayout.modifyOrder (h : InitLayout s pm lo hi units) (k : Nat) :
    InitLayout (s.modifyArea k fun a => { a with order := k }) pm lo hi units := by
  refine ⟨h.end_le, h.header, h.areas, h.blocks, h.areaSize, h.bitmap, fun k' hk' x hx => ?_⟩
  rw [BuddyMem.modifyArea_area] at hx
  split at hx
  · rename_i heq
    exact h.heads k (heq ▸ hk') x hx
  · exact h.heads k' hk' x hx

theorem InitLayout.header_within (h : InitLayout s pm lo hi units) {i : Nat}
    (hin : i + n ≤ 32) : (spanAt (pm + i) n).Within lo hi := by
  have hheader := h.header
  exact spanAt_within (by omega) (by omega) h.end_le

/-! ## loop -/

variable {k remain pblock : Nat}

/-- 一つの order の loop の後。 -/
structure CarveInside (s : BuddyMem) (pm lo hi units k remain pblock : Nat) : Prop where
  writes : AllWithin lo hi (s.carveWrites pm k remain pblock)
  layout : InitLayout (s.carve k remain pblock).1 pm lo hi units
  fits : (s.carve k remain pblock).2.2 + (s.carve k remain pblock).2.1 / 64 ≤ units

theorem carveWrites_within (h : InitLayout s pm lo hi units) (hk : k ≤ 9)
    (hfit : pblock + remain / 64 ≤ units) : CarveInside s pm lo hi units k remain pblock := by
  induction remain using Nat.strong_induction_on generalizing s pblock with
  | _ remain ih =>
    by_cases hroom : 64 <<< k ≤ remain
    · have hpow := Nat.two_pow_pos k
      have hshift : 64 <<< k = 64 * 2 ^ k := Nat.shiftLeft_eq 64 k
      have hb : pblock < units := by omega
      have hnext := ih (remain - 64 <<< k) (by omega) (h.insertFree hb k pblock)
        (show pblock + 1 <<< k + _ ≤ _ by rw [Nat.one_shiftLeft]; omega)
      have hadd := h.addBlock_within hk hb
      have hbit : ((s.addBlock pblock k).setBitmapWrite pblock k).Within lo hi := by
        rw [BuddyMem.setBitmapWrite, addBlock_areaAddr, Nat.add_assoc]
        exact h.area_within hk (h.bitmap pblock hb _)
      have hremain := h.header_within (i := 4) (n := 4) (by omega)
      constructor
      · rw [BuddyMem.carveWrites, if_pos hroom]
        simp only [allWithin_append, allWithin_cons, allWithin_nil, and_true]
        exact ⟨⟨hadd, hbit, hremain⟩, hnext.writes⟩
      · rw [BuddyMem.carve, if_pos hroom]
        exact hnext.layout
      · rw [BuddyMem.carve, if_pos hroom]
        exact hnext.fits
    · constructor
      · rw [BuddyMem.carveWrites, if_neg hroom]
        exact allWithin_nil
      · rw [BuddyMem.carve, if_neg hroom]
        exact h
      · rw [BuddyMem.carve, if_neg hroom]
        exact hfit

theorem carveOrdersWrites_within (h : InitLayout s pm lo hi units) (hk : k ≤ 10)
    (hfit : pblock + remain / 64 ≤ units) :
    AllWithin lo hi (s.carveOrdersWrites pm k remain pblock) := by
  induction k generalizing s remain pblock with
  | zero => exact allWithin_nil
  | succ k ih =>
    have hsize := h.areaSize
    have hcarve := carveWrites_within (k := k) (h.modifyOrder k) (by omega) hfit
    have hlock := h.area_within (k := k) (i := 0) (n := sizeofLock) (by omega)
      (by unfold sizeofLock; omega)
    have horder := h.area_within (k := k) (i := 48) (n := 4) (by omega) (by omega)
    rw [BuddyMem.carveOrdersWrites]
    simp only [allWithin_append, allWithin_cons, allWithin_nil, and_true]
    exact ⟨⟨⟨hlock, horder⟩, hcarve.writes⟩, ih hcarve.layout (by omega) hcarve.fits⟩

end Within

/-! ## `init_buddy_mem` -/

section Init

variable {s : BuddyMem} {lo hi pm remain b l : Nat}

/-- 残りから見積もった `free_area` の大きさ。 -/
theorem areaSize_bounds (hremain : remain < 2 ^ 31) :
    sizeofFreeArea + (remain / 64 + 15) >>> (3 + 1)
        ≤ alignU32 (sizeofFreeArea + (remain / 64 + 15) >>> (3 + 1)) 64 ∧
      alignU32 (sizeofFreeArea + (remain / 64 + 15) >>> (3 + 1)) 64 * 10 < 2 ^ 32 := by
  rw [Nat.shiftRight_eq_div_pow]
  unfold alignU32 sizeofFreeArea
  omega

/-- 見積もりより後に `free_area` の分だけ残りが減るので、bit の byte は足りる。 -/
theorem bytepos_lt {size index : Nat} (hsize : sizeofFreeArea + (remain / 64 + 15) >>> (3 + 1) ≤ size)
    (hindex : index < remain / 64) (order : Nat) : 52 + index >>> (order + 1 + 3) < size := by
  have hpow : 2 ^ 4 ≤ 2 ^ (order + 1 + 3) := Nat.pow_le_pow_right (by decide) (by omega)
  have hbyte : index / 2 ^ (order + 1 + 3) ≤ index / 2 ^ 4 := Nat.div_le_div_left hpow (by decide)
  rw [Nat.shiftRight_eq_div_pow] at hsize ⊢
  unfold sizeofFreeArea at hsize
  omega

/-- `free_start` から残りの終わりまでが収まれば、`init_free` の書き込みは収まる。 -/
theorem initFreeWrites_within (hend : hi ≤ 2 ^ 64) (hpm : lo ≤ pm ∧ pm + 32 ≤ s.freeStart)
    (hfree : s.freeStart + remain = hi) (hremain : remain < 2 ^ 31) :
    AllWithin lo hi (s.initFreeWrites pm remain) := by
  obtain ⟨hsize, hareas⟩ := areaSize_bounds hremain
  unfold BuddyMem.initFreeWrites
  simp only [Nat.mod_eq_of_lt hareas]
  generalize alignU32 (sizeofFreeArea + (remain / 64 + 15) >>> (3 + 1)) 64 = size at hsize hareas ⊢
  have hsize56 : 56 ≤ size := Nat.le_trans (Nat.le_add_right 56 _) hsize
  have hheader : ∀ {i n : Nat}, i + n ≤ 32 → (spanAt (pm + i) n).Within lo hi := fun hin =>
    spanAt_within (by omega) (by omega) hend
  rw [allWithin_cons]
  refine ⟨hheader (by omega), ?_⟩
  split
  · exact allWithin_nil
  · rename_i hroom
    have hclear : (spanAt s.freeStart (size * 10)).Within lo hi :=
      spanAt_within (by omega) (by omega) hend
    simp only [allWithin_append, allWithin_cons, allWithin_nil, and_true]
    refine ⟨⟨hclear, hheader (by omega), hheader (by omega)⟩, ?_⟩
    refine carveOrdersWrites_within
      (show InitLayout _ pm lo hi ((remain - size * 10) / 64) from ?_) (by omega) (by omega)
    refine ⟨hend, ⟨hpm.1, by omega⟩, ⟨by show lo ≤ s.freeStart; omega, ?_⟩, ⟨?_, ?_⟩, hsize56, ?_, ?_⟩
    · show s.freeStart + size * 10 ≤ hi
      omega
    · show lo ≤ s.freeStart + size * 10
      omega
    · show s.freeStart + size * 10 + 64 * ((remain - size * 10) / 64) ≤ hi
      omega
    · exact fun index hindex => bytepos_lt hsize (by omega)
    · intro k hk x hx
      simp only [if_pos hk] at hx
      cases hx

end Init

/-! ## 先頭の 16 byte -/

/-- `free_start` は `pm` の次の 64 byte の境目である。 -/
theorem freeStart_eq (b : Nat) : alignPtr (alignPtr b 64 + sizeofMem) 64 = alignPtr b 64 + 64 := by
  have hdvd : alignPtr b 64 % 64 = 0 := Nat.mul_mod_left _ 64
  generalize alignPtr b 64 = pm at hdvd ⊢
  unfold alignPtr sizeofMem
  omega

/-- 残りを調べる前に書く `free_start` が収まるなら、先頭の 16 byte が入る。 -/
theorem header_fits {s : BuddyMem} (g : GivenBuffer) (hlong : ¬g.l < sizeofMem)
    (h : AllWithin g.b (g.b + g.l : Nat) (s.initBuddyMemWrites g.b g.l)) :
    alignPtr g.b 64 + 16 ≤ g.b + g.l := by
  have hend := g.end_le
  have hpm := alignPtr_bounds g.b
  unfold BuddyMem.initBuddyMemWrites at h
  rw [if_neg hlong] at h
  simp only [allWithin_append, allWithin_cons, allWithin_nil, and_true] at h
  obtain ⟨⟨-, hstart, -⟩, -⟩ := h
  -- `pm` が番地の終わりを越えて 0 に戻ると、書き込みは `b` より前に落ちる
  rcases Span.within_iff.mp hstart with h0 | ⟨h₁, h₂⟩
  · cases h0
  · unfold spanAt at h₁ h₂
    simp only at h₁ h₂
    omega

/-- 先頭の 16 byte が入れば、残りが足りるかどうかによらず、書き込みは収まる。 -/
theorem initBuddyMemWrites_within {s : BuddyMem} (g : GivenBuffer) (hlong : ¬g.l < sizeofMem)
    (hfits : alignPtr g.b 64 + 16 ≤ g.b + g.l) :
    AllWithin g.b (g.b + g.l : Nat) (s.initBuddyMemWrites g.b g.l) := by
  have hl := g.l_lt
  have hend := g.end_le
  have hpm := alignPtr_bounds g.b
  unfold BuddyMem.initBuddyMemWrites
  simp only [if_neg hlong, freeStart_eq, allWithin_append, allWithin_cons, allWithin_nil, and_true]
  generalize alignPtr g.b 64 = pm at hpm hfits ⊢
  have hheader : ∀ {i n : Nat}, i + n ≤ 16 →
      (spanAt (pm + i) n).Within g.b (g.b + g.l : Nat) := fun hin =>
    spanAt_within (by omega) (by omega) hend
  refine ⟨⟨hheader (i := 0) (by omega), hheader (by omega), hheader (by omega)⟩, ?_⟩
  split
  · exact allWithin_nil
  · rename_i hlarge
    unfold sizeofMem at hlong
    rw [show (g.l : Int) - (pm - g.b) - ((pm + 64 : Nat) - pm) = g.l - ((pm + 64 : Nat) - g.b) by
      omega] at hlarge ⊢
    obtain ⟨hsum, hlt⟩ := remain_eq (by omega) (by omega) hl hlarge
    refine initFreeWrites_within hend ⟨hpm.1, ?_⟩ ?_ hlt
    · show pm + 32 ≤ pm + 64
      omega
    · show pm + 64 + _ = g.b + g.l
      omega

/-- **書き込みが buffer の中に収まるのは、何も書かないか、切り上げた先から 16 byte が入るときに限る。** -/
theorem init_inside_iff (s : BuddyMem) (g : GivenBuffer) :
    InitInside s g ↔ g.l < sizeofMem ∨ alignPtr g.b 64 + 16 ≤ g.b + g.l := by
  have hbit : ∀ s', s.initBuddyMem g.b g.l = some s' →
      ∀ index < (g.b + g.l - s'.blockStart) / 64,
      ∀ order, 52 + index >>> (order + 1 + 3) < s'.alignAreaSize :=
    fun s' hinit index hindex order => bytepos_in_area g.l_lt hinit hindex order
  have hinside : InitInside s g ↔ AllWithin g.b (g.b + g.l : Nat) (s.initBuddyMemWrites g.b g.l) :=
    and_iff_left hbit
  rw [hinside]
  by_cases hshort : g.l < sizeofMem
  · refine iff_of_true ?_ (.inl hshort)
    unfold BuddyMem.initBuddyMemWrites
    rw [if_pos hshort]
    exact allWithin_nil
  · constructor
    · exact fun h => .inr (header_fits g hshort h)
    · rintro (hlt | hfits)
      · exact absurd hlt hshort
      · exact initBuddyMemWrites_within g hshort hfits

/-- 何も置かれていない memory。 -/
def blankBuddy : BuddyMem := ⟨0, 0, 0, 0, fun _ => ⟨none, 0, fun _ => 0⟩, fun _ => ⟨none, none, 0⟩⟩

/-- 64 の倍数の次から 32 byte の buffer。`pm` はその終わりから 31 byte 後ろに置かれる。 -/
theorem header_past_end :
    ¬InitInside blankBuddy ⟨0x100001, 32, by decide, by decide⟩ := by
  rintro ⟨hwrites, -⟩
  have hmem : spanAt 0x100040 4 ∈ blankBuddy.initBuddyMemWrites 0x100001 32 := by
    unfold BuddyMem.initBuddyMemWrites
    simp [alignPtr, sizeofMem]
  exact absurd (hwrites _ hmem) (by decide)

end RecordServer.MemPool
