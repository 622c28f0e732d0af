import RecordServer.Infra.DList
import RecordServer.Infra.Fuel
import RecordServer.Infra.Tiling
import RecordServer.MemPool.PureBuddyMem
import Mathlib.Data.Nat.Bitwise
import Mathlib.Algebra.Ring.Parity

/-!
# 空いた block の list と bit

* `ListOk` — 一つの order の list と、隣り合う二つの block の片方だけが空いていることを表す bit
* `Lists` — order ごとの list。一つの block は二つの list に載らない
* `Lists.insertFree` / `Lists.removeFree` — 一つ足し、一つ外す
* `Lists.upgrade` — `Free` の一区切り
-/

namespace RecordServer.MemPool

open Infra

/-! ## bit -/

namespace FreeArea

variable {a : FreeArea} {k index j : Nat}

/-- `pbmap` の `j` 番目の bit。 -/
def bit (a : FreeArea) (j : Nat) : Bool := (a.pbmap (j / 8)).testBit (j % 8)

/-- `set_bitmap` の後の `free_area`。 -/
def toggle (a : FreeArea) (index : Nat) : FreeArea :=
  let bitpos := index >>> (a.order + 1) &&& 7
  let bytepos := index >>> (a.order + 1 + 3)
  { a with pbmap := Function.update a.pbmap bytepos ((a.pbmap bytepos ^^^ 1 <<< bitpos) % 2 ^ 8) }

@[simp] theorem toggle_freelist (a : FreeArea) (index : Nat) :
    (a.toggle index).freelist = a.freelist := rfl

theorem bitpos_eq (index n : Nat) : index >>> n &&& 7 = index / 2 ^ n % 8 := by
  rw [Nat.shiftRight_eq_div_pow]
  exact Nat.and_two_pow_sub_one_eq_mod _ 3

theorem bytepos_eq (index n : Nat) : index >>> (n + 3) = index / 2 ^ n / 8 := by
  rw [Nat.shiftRight_eq_div_pow, Nat.pow_add, Nat.div_div_eq_div_mul]

/-- 反転するのは、組の番号の bit 一つだけである。 -/
theorem toggle_bit (horder : a.order = k) (index j : Nat) :
    (a.toggle index).bit j = if j = index / 2 ^ (k + 1) then !a.bit j else a.bit j := by
  have hlt : j % 8 < 8 := Nat.mod_lt _ (by decide)
  unfold toggle bit
  simp only [horder, bitpos_eq, bytepos_eq]
  generalize index / 2 ^ (k + 1) = i
  by_cases hbyte : j / 8 = i / 8
  · rw [hbyte, Function.update_self, Nat.testBit_mod_two_pow, Nat.testBit_xor,
      Nat.one_shiftLeft, Nat.testBit_two_pow]
    by_cases hj : j = i
    · subst hj
      simp [hlt]
    · have hne : ¬ i % 8 = j % 8 := by omega
      simp [hj, hne, hlt]
  · have hj : j ≠ i := fun h => hbyte (by rw [h])
    rw [Function.update_of_ne hbyte, if_neg hj]

end FreeArea

namespace BuddyMem

variable {s : BuddyMem} {k index fa b x : Nat}

theorem setBitmap_snd (s : BuddyMem) (index fa : Nat) :
    (s.setBitmap index fa).2 = s.modifyArea fa (·.toggle index) := rfl

/-- `set_bitmap` の返す値は、反転した後の bit である。 -/
theorem setBitmap_fst (horder : (s.area k).order = k) (index : Nat) :
    (s.setBitmap index k).1 = (!(s.area k).bit (index / 2 ^ (k + 1))).toNat := by
  have h := FreeArea.toggle_bit horder index (index / 2 ^ (k + 1))
  rw [if_pos rfl] at h
  rw [← h]
  unfold setBitmap FreeArea.toggle FreeArea.bit
  simp only [horder, FreeArea.bitpos_eq, FreeArea.bytepos_eq, Function.update_self]
  rw [Nat.toNat_testBit, Nat.and_one_is_mod, Nat.shiftRight_eq_div_pow]

/-! ## field ごとの読み -/

variable (s) (f : FreeArea → FreeArea) (g : BuddyBlock → BuddyBlock) (o : Option Nat)

@[simp] theorem modifyArea_area (k k' : Nat) :
    (s.modifyArea k f).area k' = if k' = k then f (s.area k) else s.area k' := by
  unfold modifyArea
  by_cases h : k' = k
  · subst h
    simp
  · simp [h]

@[simp] theorem modifyArea_block (k : Nat) : (s.modifyArea k f).block = s.block := rfl

@[simp] theorem modifyBlock_area (b : Nat) : (s.modifyBlock b g).area = s.area := rfl

@[simp] theorem modifyBlock_block (b x : Nat) :
    (s.modifyBlock b g).block x = if x = b then g (s.block b) else s.block x := by
  unfold modifyBlock
  by_cases h : x = b
  · subst h
    simp
  · simp [h]

@[simp] theorem modifyBlockOpt_area : (s.modifyBlockOpt o g).area = s.area := by cases o <;> rfl

@[simp] theorem modifyBlockOpt_block (x : Nat) :
    (s.modifyBlockOpt o g).block x = if o = some x then g (s.block x) else s.block x := by
  cases o with
  | none => simp [modifyBlockOpt]
  | some b =>
    by_cases h : b = x
    · subst h
      simp [modifyBlockOpt]
    · simp [modifyBlockOpt, h, Ne.symm h]

@[simp] theorem modifyArea_blockStart (k : Nat) :
    (s.modifyArea k f).blockStart = s.blockStart := rfl

@[simp] theorem modifyArea_alignBlockSize (k : Nat) :
    (s.modifyArea k f).alignBlockSize = s.alignBlockSize := rfl

@[simp] theorem modifyArea_alignAreaSize (k : Nat) :
    (s.modifyArea k f).alignAreaSize = s.alignAreaSize := rfl

@[simp] theorem modifyBlock_blockStart (b : Nat) :
    (s.modifyBlock b g).blockStart = s.blockStart := rfl

@[simp] theorem modifyBlock_alignBlockSize (b : Nat) :
    (s.modifyBlock b g).alignBlockSize = s.alignBlockSize := rfl

@[simp] theorem modifyBlock_alignAreaSize (b : Nat) :
    (s.modifyBlock b g).alignAreaSize = s.alignAreaSize := rfl

@[simp] theorem modifyBlockOpt_blockStart :
    (s.modifyBlockOpt o g).blockStart = s.blockStart := by cases o <;> rfl

@[simp] theorem modifyBlockOpt_alignBlockSize :
    (s.modifyBlockOpt o g).alignBlockSize = s.alignBlockSize := by cases o <;> rfl

@[simp] theorem modifyBlockOpt_alignAreaSize :
    (s.modifyBlockOpt o g).alignAreaSize = s.alignAreaSize := by cases o <;> rfl

/-- 番地の決め方は変わらない。 -/
def SameLayout (s s' : BuddyMem) : Prop :=
  s'.blockStart = s.blockStart ∧ s'.alignBlockSize = s.alignBlockSize ∧
    s'.alignAreaSize = s.alignAreaSize

variable {s}

theorem SameLayout.trans {s' s'' : BuddyMem} (h : SameLayout s s') (h' : SameLayout s' s'') :
    SameLayout s s'' := ⟨h'.1.trans h.1, h'.2.1.trans h.2.1, h'.2.2.trans h.2.2⟩

/-! ## 一つ足す・一つ外す -/

/-- block `b` を足し、`index` の bit を反転した状態。 -/
def insertFree (s : BuddyMem) (b k index : Nat) : BuddyMem :=
  ((s.addBlock b k).setBitmap index k).2

/-- block `x` を外し、`index` の bit を反転した状態。 -/
def removeFree (s : BuddyMem) (x k index : Nat) : BuddyMem :=
  ((s.unlink x k).setBitmap index k).2

theorem insertFree_area (b k index k' : Nat) : (s.insertFree b k index).area k' =
    if k' = k then ({ s.area k with freelist := some b } : FreeArea).toggle index else s.area k' := by
  by_cases h : k' = k
  · subst h
    simp [insertFree, addBlock, setBitmap_snd]
  · simp [insertFree, addBlock, setBitmap_snd, h]

theorem insertFree_block (b k index x : Nat) : (s.insertFree b k index).block x =
    if x = b then ⟨none, (s.area k).freelist, k⟩
    else if (s.area k).freelist = some x then { s.block x with pre := some b }
    else s.block x := by
  simp [insertFree, addBlock, setBitmap_snd]

theorem removeFree_area (x k index k' : Nat) : (s.removeFree x k index).area k' =
    if k' = k then
      ({ s.area k with
          freelist := if (s.area k).freelist = some x then (s.block x).next
            else (s.area k).freelist } : FreeArea).toggle index
    else s.area k' := by
  by_cases h : k' = k
  · subst h
    by_cases hx : (s.area k').freelist = some x
    · simp [removeFree, unlink, setBitmap_snd, hx]
    · simp [removeFree, unlink, setBitmap_snd, hx]
  · by_cases hx : (s.area k).freelist = some x
    · simp [removeFree, unlink, setBitmap_snd, hx, h]
    · simp [removeFree, unlink, setBitmap_snd, hx, h]

theorem removeFree_block (hself : (s.block x).pre ≠ some x) (k index y : Nat) :
    (s.removeFree x k index).block y =
      { s.block y with
        pre := if (s.block x).next = some y then (s.block x).pre else (s.block y).pre
        next := if (s.block x).pre = some y then (s.block x).next else (s.block y).next } := by
  unfold removeFree unlink
  rw [setBitmap_snd, modifyArea_block]
  have hhead : (if (s.area k).freelist = some x then
      s.modifyArea k fun a => { a with freelist := (s.block x).next } else s).block = s.block := by
    split <;> rfl
  generalize (if (s.area k).freelist = some x then
      s.modifyArea k fun a => { a with freelist := (s.block x).next } else s) = t at hhead ⊢
  simp only [modifyBlockOpt_block, hhead, if_neg hself]
  by_cases hp : (s.block x).pre = some y <;> by_cases hn : (s.block x).next = some y <;>
    simp [hp, hn]

theorem insertFree_layout (b k index : Nat) : SameLayout s (s.insertFree b k index) := by
  simp [SameLayout, insertFree, addBlock, setBitmap_snd]

theorem removeFree_layout (x k index : Nat) : SameLayout s (s.removeFree x k index) := by
  unfold removeFree unlink SameLayout
  by_cases hhead : (s.area k).freelist = some x <;> simp [setBitmap_snd, hhead]

/-! ## 区切りの中身 -/

theorem degrade_eq (s : BuddyMem) (pb d : Nat) :
    s.degrade pb d = s.insertFree (pb + 2 ^ d) d (pb + 2 ^ d) := by
  unfold degrade insertFree
  rw [Nat.one_shiftLeft]

/-- 先頭を取るのは、先頭を list から外すことである。 -/
theorem takeFirst_eq {pb : Nat} (hhead : (s.area k).freelist = some pb)
    (hpre : (s.block pb).pre = none) :
    s.takeFirst k = (some pb, s.removeFree pb k pb) := by
  unfold takeFirst removeFree unlink
  simp [hhead, hpre, modifyBlockOpt]

/-! bit の反転は、list の書き換えの前にしても後にしても同じである。 -/

theorem modifyBlockOpt_toggle (s : BuddyMem) (k index : Nat) (o : Option Nat)
    (g : BuddyBlock → BuddyBlock) :
    (s.modifyArea k (·.toggle index)).modifyBlockOpt o g =
      (s.modifyBlockOpt o g).modifyArea k (·.toggle index) := by
  cases o <;> rfl

theorem modifyArea_toggle (s : BuddyMem) (k index : Nat) (o : Option Nat) :
    (s.modifyArea k (·.toggle index)).modifyArea k (fun a => { a with freelist := o }) =
      (s.modifyArea k fun a => { a with freelist := o }).modifyArea k (·.toggle index) := by
  simp [modifyArea, FreeArea.toggle]

theorem addBlock_setBitmap (s : BuddyMem) (b k index : Nat) :
    (s.setBitmap index k).2.addBlock b k = s.insertFree b k index := by
  unfold insertFree addBlock
  simp only [setBitmap_snd, modifyBlockOpt_toggle, modifyArea_toggle, modifyArea_area, if_pos,
    FreeArea.toggle_freelist]
  rfl

theorem unlink_setBitmap (s : BuddyMem) (x k index : Nat) :
    (s.setBitmap index k).2.unlink x k = s.removeFree x k index := by
  unfold removeFree unlink
  by_cases hhead : (s.area k).freelist = some x <;>
    simp only [setBitmap_snd, modifyBlockOpt_toggle, modifyArea_toggle, modifyArea_area, if_pos,
      FreeArea.toggle_freelist, modifyArea_block, hhead, if_false]

end BuddyMem

/-! ## 一つの order -/

/-- block の前後の pointer で繋がった list。 -/
def FreeList (block : Nat → BuddyBlock) : Option Nat → List Nat → Prop :=
  DList (fun b => (block b).pre) (fun b => (block b).next)

/-- 次数 `k` の `j` 番目の組の bit は、前半と後半の片方だけが `l` に載っていることを表す。 -/
def PairBit (bit : Nat → Bool) (k : Nat) (l : List Nat) : Prop :=
  ∀ j, bit j = true ↔ Xor (j * 2 ^ (k + 1) ∈ l) (j * 2 ^ (k + 1) + 2 ^ k ∈ l)

structure ListOk (a : FreeArea) (block : Nat → BuddyBlock) (k : Nat) (l : List Nat) : Prop where
  order : a.order = k
  list : FreeList block a.freelist l
  bits : PairBit a.bit k l
  aligned : ∀ b ∈ l, 2 ^ k ∣ b

section ListOk

variable {a a' : FreeArea} {block block' : Nat → BuddyBlock} {k b x index : Nat} {l l' : List Nat}

/-- 一つの block の出入りで、その組の bit だけが反転する。 -/
theorem PairBit.flip {bit bit' : Nat → Bool} (h : PairBit bit k l) (hdvd : 2 ^ k ∣ b)
    (hbit : ∀ j, bit' j = if j = b / 2 ^ (k + 1) then !bit j else bit j)
    (hmem : ∀ y, y ∈ l' ↔ Xor (y ∈ l) (y = b)) : PairBit bit' k l' := by
  intro j
  have hj := h j
  rw [hbit j, hmem, hmem]
  by_cases hjb : j = b / 2 ^ (k + 1)
  · -- 同じ組の前半か後半が `b` である。
    have hhalf : b = j * 2 ^ (k + 1) ∨ b = j * 2 ^ (k + 1) + 2 ^ k := by
      rw [hjb]
      exact halves_of_dvd hdvd
    rw [if_pos hjb]
    generalize j * 2 ^ (k + 1) = left at hj hhalf ⊢
    rcases hhalf with rfl | rfl
    · have hne : b + 2 ^ k ≠ b := by omega
      by_cases hl : b ∈ l <;> by_cases hr : b + 2 ^ k ∈ l <;>
        simp_all [xor_def]
    · have hne : left ≠ left + 2 ^ k := by omega
      by_cases hl : left ∈ l <;> by_cases hr : left + 2 ^ k ∈ l <;>
        simp_all [xor_def]
  · have hleft : j * 2 ^ (k + 1) ≠ b := by
      rintro rfl
      exact hjb (Nat.mul_div_cancel _ (Nat.two_pow_pos _)).symm
    have hright : j * 2 ^ (k + 1) + 2 ^ k ≠ b := by
      rintro rfl
      exact hjb (half_div k j).symm
    rw [if_neg hjb, hj]
    simp [xor_def, hleft, hright]

/-- bit の値が分かれば、片方が空いていないとき、もう片方が空いているかどうかが分かる。 -/
theorem PairBit.other {bit : Nat → Bool} (h : PairBit bit k l) (hb : b ∉ l) {y : Nat}
    (hpair : (b = base (k + 1) b ∧ y = base (k + 1) b + 2 ^ k) ∨
      (b = base (k + 1) b + 2 ^ k ∧ y = base (k + 1) b)) :
    bit (b / 2 ^ (k + 1)) = true ↔ y ∈ l := by
  have hj := h (b / 2 ^ (k + 1))
  rw [show b / 2 ^ (k + 1) * 2 ^ (k + 1) = base (k + 1) b from rfl] at hj
  rw [hj]
  rcases hpair with ⟨heq, rfl⟩ | ⟨heq, rfl⟩
  · rw [heq] at hb
    simp [xor_def, hb]
  · rw [heq] at hb
    simp [xor_def, hb]

/-- 先頭に一つ足す。 -/
theorem ListOk.push (h : ListOk a block k l) (hb : b ∉ l) (hdvd : 2 ^ k ∣ b)
    (hindex : index / 2 ^ (k + 1) = b / 2 ^ (k + 1)) (hself : block' b = ⟨none, a.freelist, k⟩)
    (hother : ∀ y ∈ l,
      block' y = if a.freelist = some y then { block y with pre := some b } else block y) :
    ListOk (({ a with freelist := some b } : FreeArea).toggle index) block' k (b :: l) := by
  refine ⟨h.order, ?_, h.bits.flip hdvd (fun j => ?_) (fun y => ?_), fun y hy => ?_⟩
  · refine h.list.push (fun y hy => ?_) (by rw [hself]) (by rw [hself]) (fun y hy => ?_)
    · rw [hother y hy]
      split <;> rfl
    · rw [hother y hy]
      split <;> rfl
  · rw [← hindex]
    exact FreeArea.toggle_bit (a := { a with freelist := some b }) h.order index j
  · by_cases hyb : y = b
    · subst hyb
      simp [xor_def, hb]
    · simp [xor_def, hyb]
  · rcases List.mem_cons.mp hy with rfl | hy
    · exact hdvd
    · exact h.aligned y hy

/-- 一つ外す。 -/
theorem ListOk.erase (h : ListOk a block k l) (hx : x ∈ l)
    (hindex : index / 2 ^ (k + 1) = x / 2 ^ (k + 1))
    (hother : ∀ y ∈ l, block' y =
      { block y with
        pre := if (block x).next = some y then (block x).pre else (block y).pre
        next := if (block x).pre = some y then (block x).next else (block y).next }) :
    ListOk
      (({ a with
          freelist := if a.freelist = some x then (block x).next else a.freelist } :
            FreeArea).toggle index) block' k (l.erase x) := by
  have hnd := h.list.nodup
  refine ⟨h.order, ?_, h.bits.flip (h.aligned x hx) (fun j => ?_) (fun y => ?_), fun y hy => ?_⟩
  · refine h.list.remove hx ?_ (fun y hy _ => by rw [hother y hy]) (fun y hy _ => by rw [hother y hy])
    by_cases hpre : (block x).pre = none
    · have hhead := (h.list.pre_eq_none_iff hx).mp hpre
      rw [if_pos hpre]
      exact if_pos hhead
    · have hhead := fun hc => hpre ((h.list.pre_eq_none_iff hx).mpr hc)
      rw [if_neg hpre]
      exact if_neg hhead
  · rw [← hindex]
    exact FreeArea.toggle_bit (a := { a with
      freelist := if a.freelist = some x then (block x).next else a.freelist }) h.order index j
  · rw [hnd.mem_erase_iff]
    by_cases hyx : y = x
    · subst hyx
      simp [hx]
    · simp [xor_def, hyx]
  · exact h.aligned y (List.mem_of_mem_erase hy)

theorem ListOk.congr (h : ListOk a block k l) (hblock : ∀ y ∈ l, block' y = block y) :
    ListOk a block' k l :=
  ⟨h.order, h.list.congr (fun y hy => by rw [hblock y hy]) (fun y hy => by rw [hblock y hy]),
    h.bits, h.aligned⟩

end ListOk

/-! ## order ごとの list -/

/-- 次数が `lo` から 9 までの list。ほかの次数には何も載っていない。 -/
structure Lists (s : BuddyMem) (lo : Nat) (fl : Nat → List Nat) : Prop where
  ok : ∀ k, lo ≤ k → k ≤ 9 → ListOk (s.area k) s.block k (fl k)
  range : ∀ {k b}, b ∈ fl k → lo ≤ k ∧ k ≤ 9
  apart : ∀ {k k' b}, b ∈ fl k → b ∈ fl k' → k = k'

section Lists

variable {s t : BuddyMem} {lo k b x index : Nat} {fl : Nat → List Nat} {l : List Nat}

/-- 一つの order の list を差し替える。 -/
theorem Lists.update (h : Lists s lo fl) (hlo : lo ≤ k) (hk : k ≤ 9)
    (hok : ListOk (t.area k) t.block k l) (harea : ∀ k', k' ≠ k → t.area k' = s.area k')
    (hblock : ∀ k', k' ≠ k → ∀ y ∈ fl k', t.block y = s.block y)
    (hl : ∀ y ∈ l, ∀ k', k' ≠ k → y ∉ fl k') : Lists t lo (Function.update fl k l) := by
  constructor
  · intro k' hlo' hk'
    by_cases hkk : k' = k
    · subst hkk
      rwa [Function.update_self]
    · rw [Function.update_of_ne hkk, harea k' hkk]
      exact (h.ok k' hlo' hk').congr (hblock k' hkk)
  · intro k' y hy
    by_cases hkk : k' = k
    · subst hkk
      exact ⟨hlo, hk⟩
    · rw [Function.update_of_ne hkk] at hy
      exact h.range hy
  · intro k₁ k₂ y hy₁ hy₂
    by_cases h₁ : k₁ = k <;> by_cases h₂ : k₂ = k
    · rw [h₁, h₂]
    · subst h₁
      rw [Function.update_self] at hy₁
      rw [Function.update_of_ne h₂] at hy₂
      exact absurd hy₂ (hl y hy₁ k₂ h₂)
    · subst h₂
      rw [Function.update_self] at hy₂
      rw [Function.update_of_ne h₁] at hy₁
      exact absurd hy₁ (hl y hy₂ k₁ h₁)
    · rw [Function.update_of_ne h₁] at hy₁
      rw [Function.update_of_ne h₂] at hy₂
      exact h.apart hy₁ hy₂

/-- list に載っている block に触らない書き換え。 -/
theorem Lists.congr (h : Lists s lo fl) (harea : t.area = s.area)
    (hblock : ∀ k, ∀ y ∈ fl k, t.block y = s.block y) : Lists t lo fl := by
  refine ⟨fun k hlo hk => ?_, h.range, h.apart⟩
  rw [harea]
  exact (h.ok k hlo hk).congr (hblock k)

/-- **どの list にも載っていない block を足す。** -/
theorem Lists.insertFree (h : Lists s lo fl) (hlo : lo ≤ k) (hk : k ≤ 9) (hb : ∀ k', b ∉ fl k')
    (hdvd : 2 ^ k ∣ b) (hindex : index / 2 ^ (k + 1) = b / 2 ^ (k + 1)) :
    Lists (s.insertFree b k index) lo (Function.update fl k (b :: fl k)) := by
  have hok := h.ok k hlo hk
  refine h.update hlo hk ?_ (fun k' hk' => ?_) (fun k' hk' y hy => ?_) (fun y hy k' hk' => ?_)
  · rw [BuddyMem.insertFree_area, if_pos rfl]
    refine hok.push (hb k) hdvd hindex ?_ (fun y hy => ?_)
    · rw [BuddyMem.insertFree_block, if_pos rfl]
    · rw [BuddyMem.insertFree_block, if_neg (fun heq : y = b => hb k (heq ▸ hy))]
  · rw [BuddyMem.insertFree_area, if_neg hk']
  · -- 書き換わるのは、`b` と、同じ list の先頭だけである。
    rw [BuddyMem.insertFree_block, if_neg (fun heq : y = b => hb k' (heq ▸ hy)), if_neg]
    intro hhead
    rw [hok.list.head_eq] at hhead
    exact hk' (h.apart hy (List.mem_of_mem_head? hhead))
  · rcases List.mem_cons.mp hy with rfl | hy
    · exact hb k'
    · exact fun hy' => hk' (h.apart hy' hy)

/-- **list に載っている block を外す。** -/
theorem Lists.removeFree (h : Lists s lo fl) (hx : x ∈ fl k)
    (hindex : index / 2 ^ (k + 1) = x / 2 ^ (k + 1)) :
    Lists (s.removeFree x k index) lo (Function.update fl k ((fl k).erase x)) := by
  obtain ⟨hlo, hk⟩ := h.range hx
  have hok := h.ok k hlo hk
  have hself := hok.list.pre_ne_self hx
  refine h.update hlo hk ?_ (fun k' hk' => ?_) (fun k' hk' y hy => ?_) (fun y hy k' hk' => ?_)
  · rw [BuddyMem.removeFree_area, if_pos rfl]
    exact hok.erase hx hindex (fun y _ => BuddyMem.removeFree_block hself k index y)
  · rw [BuddyMem.removeFree_area, if_neg hk']
  · -- 書き換わるのは、同じ list で隣り合う block だけである。
    have hnext : (s.block x).next ≠ some y := fun hn => hk' (h.apart hy (hok.list.next_mem hx hn))
    have hpre : (s.block x).pre ≠ some y := fun hp => hk' (h.apart hy (hok.list.pre_mem hx hp))
    rw [BuddyMem.removeFree_block hself, if_neg hnext, if_neg hpre]
  · exact fun hy' => hk' (h.apart hy' (List.mem_of_mem_erase hy))

theorem insertFree_freeArea (b k index y : Nat) (hy : y ≠ b) :
    ((s.insertFree b k index).block y).freeArea = (s.block y).freeArea := by
  rw [BuddyMem.insertFree_block, if_neg hy]
  split <;> rfl

theorem Lists.removeFree_freeArea (h : Lists s lo fl) (hx : x ∈ fl k) (index y : Nat) :
    ((s.removeFree x k index).block y).freeArea = (s.block y).freeArea := by
  obtain ⟨hlo, hk⟩ := h.range hx
  rw [BuddyMem.removeFree_block ((h.ok k hlo hk).list.pre_ne_self hx)]

/-- 先頭を取る。 -/
theorem Lists.takeFirst (h : Lists s lo fl) (hlo : lo ≤ k) (hk : k ≤ 9) :
    (fl k = [] ∧ s.takeFirst k = (none, s)) ∨
      ∃ pb ∈ fl k, s.takeFirst k = (some pb, s.removeFree pb k pb) := by
  have hlist := (h.ok k hlo hk).list
  have hhead := hlist.head_eq
  cases hl : fl k with
  | nil =>
    left
    rw [hl, List.head?_nil] at hhead
    refine ⟨rfl, ?_⟩
    unfold BuddyMem.takeFirst
    rw [hhead]
  | cons pb rest =>
    right
    rw [hl, List.head?_cons] at hhead
    refine ⟨pb, List.mem_cons_self, BuddyMem.takeFirst_eq hhead ?_⟩
    refine (hlist.pre_eq_none_iff ?_).mpr hhead
    rw [hl]
    exact List.mem_cons_self

/-! ## `Free` の一区切り -/

theorem delFrom_spec {p head : Option Nat} (fa : Nat)
    (hseg : Seg (fun b => (s.block b).pre) (fun b => (s.block b).next) p head l) (hx : x ∈ l) :
    Converges (fun fuel => s.delFrom x fa fuel head) (0, s.unlink x fa) := by
  induction l generalizing p head with
  | nil => simp at hx
  | cons y ys ih =>
    obtain ⟨rfl, -, hs⟩ := hseg
    by_cases hyx : y = x
    · refine Converges.of_lt (n := 0) fun fuel hfuel => ?_
      obtain ⟨fuel, rfl⟩ := Nat.exists_eq_succ_of_ne_zero hfuel.ne'
      rw [BuddyMem.delFrom, if_pos hyx, hyx]
    · obtain ⟨n, hn⟩ := ih hs ((List.mem_cons.mp hx).resolve_left (Ne.symm hyx))
      refine ⟨n + 1, fun fuel hfuel => ?_⟩
      obtain ⟨fuel, rfl⟩ := Nat.exists_eq_succ_of_ne_zero (by omega : fuel ≠ 0)
      show s.delFrom x fa (fuel + 1) (some y) = _
      rw [BuddyMem.delFrom, if_neg hyx]
      exact hn fuel (by omega)

/-- **list に載っている block なら、`del_block` は必ず見つけて `0` を返す。** -/
theorem Lists.delBlock (h : Lists s lo fl) (hx : x ∈ fl k) (hblock : t.block = s.block)
    (hhead : (t.area k).freelist = (s.area k).freelist) :
    Converges (fun fuel => t.delBlock fuel x k) (0, t.unlink x k) := by
  obtain ⟨hlo, hk⟩ := h.range hx
  have hlist := (h.ok k hlo hk).list
  rw [← hhead, ← hblock] at hlist
  exact delFrom_spec k hlist hx

/-- `buddy_index` は、`index` を含む block と同じ組のもう片方である。 -/
theorem buddyIndex_cases (k index : Nat) :
    (base k index = base (k + 1) index ∧
      (index >>> k ^^^ 1) <<< k = base (k + 1) index + 2 ^ k) ∨
    (base k index = base (k + 1) index + 2 ^ k ∧
      (index >>> k ^^^ 1) <<< k = base (k + 1) index) := by
  have hbase : base (k + 1) index = index / 2 ^ k / 2 * 2 * 2 ^ k := by
    unfold base
    rw [Nat.pow_succ, Nat.div_div_eq_div_mul, Nat.mul_assoc (index / (2 ^ k * 2)), Nat.mul_comm 2]
  rw [hbase, Nat.shiftRight_eq_div_pow, Nat.shiftLeft_eq]
  unfold base
  generalize index / 2 ^ k = q
  rcases Nat.even_or_odd q with heven | hodd
  · left
    have hq : q / 2 * 2 = q := Nat.div_two_mul_two_of_even heven
    rw [Nat.xor_one_of_even heven, hq, Nat.succ_mul]
    exact ⟨rfl, rfl⟩
  · right
    have hq : q / 2 * 2 + 1 = q := Nat.div_two_mul_two_add_one_of_odd hodd
    rw [Nat.xor_one_of_odd hodd, ← Nat.succ_mul]
    refine ⟨by rw [Nat.succ_eq_add_one, hq], ?_⟩
    congr 1
    omega

theorem buddyIndex_div (k index : Nat) :
    index / 2 ^ (k + 1) = (index >>> k ^^^ 1) <<< k / 2 ^ (k + 1) := by
  rcases buddyIndex_cases k index with ⟨-, hbuddy⟩ | ⟨-, hbuddy⟩ <;> rw [hbuddy]
  · exact (half_div k _).symm
  · exact (base_div le_rfl index).symm

/-- `upgrade_index` は、一つ大きい block の番地である。 -/
theorem upgradeIndex_eq (k index : Nat) : index >>> (k + 1) <<< (k + 1) = base (k + 1) index := by
  rw [Nat.shiftRight_eq_div_pow, Nat.shiftLeft_eq]
  rfl

/-- 抱えている block の組の bit は、隣が空いているかどうかを表す。 -/
theorem ListOk.bit_iff {a : FreeArea} {block : Nat → BuddyBlock} (h : ListOk a block k l)
    (index : Nat) (hfree : base k index ∉ l) :
    a.bit (index / 2 ^ (k + 1)) = true ↔ (index >>> k ^^^ 1) <<< k ∈ l := by
  have hother := h.bits.other (y := (index >>> k ^^^ 1) <<< k) hfree
  rw [base_base (Nat.le_succ k), base_div (Nat.le_succ k)] at hother
  exact hother (buddyIndex_cases k index)

/--
**`Free` の一区切り。**

隣が空いていれば必ず見つけて外し、一つ大きい block にする。空いていないか、次数が 9 なら足して終わる。
-/
theorem Lists.upgrade (h : Lists s 0 fl) (hk : k ≤ 9) (index : Nat)
    (hfree : base k index ∉ fl k) :
    (k < 9 ∧ (index >>> k ^^^ 1) <<< k ∈ fl k ∧
      Converges (fun fuel => s.upgrade fuel index (base k index) k)
        (0, base (k + 1) index, s.removeFree ((index >>> k ^^^ 1) <<< k) k index)) ∨
    ∃ ret, (k < 9 → ret ≠ 0 ∧ (index >>> k ^^^ 1) <<< k ∉ fl k) ∧
      Converges (fun fuel => s.upgrade fuel index (base k index) k)
        (ret, base k index, s.insertFree (base k index) k index) := by
  have hok := h.ok k (Nat.zero_le k) hk
  have hret := BuddyMem.setBitmap_fst hok.order index
  have hbit := hok.bit_iff index hfree
  by_cases hin : (index >>> k ^^^ 1) <<< k ∈ fl k
  · rw [hbit.mpr hin] at hret
    by_cases hk9 : k < 9
    · left
      refine ⟨hk9, hin, ?_⟩
      have hdel := h.delBlock (t := (s.setBitmap index k).2) hin rfl
        (by rw [BuddyMem.setBitmap_snd, BuddyMem.modifyArea_area, if_pos rfl]; rfl)
      rw [BuddyMem.unlink_setBitmap] at hdel
      refine (hdel.map fun r => (0, base (k + 1) index, r.2)).congr fun fuel => ?_
      unfold BuddyMem.upgrade
      simp [hok.order, hret, hk9, upgradeIndex_eq]
    · right
      refine ⟨0, fun hlt => absurd hlt hk9, (Converges.pure _).congr fun fuel => ?_⟩
      unfold BuddyMem.upgrade
      simp [hok.order, hret, hk9, BuddyMem.addBlock_setBitmap]
  · right
    rw [show (s.area k).bit (index / 2 ^ (k + 1)) = false by simpa using mt hbit.mp hin] at hret
    refine ⟨1, fun _ => ⟨one_ne_zero, hin⟩, (Converges.pure _).congr fun fuel => ?_⟩
    unfold BuddyMem.upgrade
    simp [hok.order, hret, BuddyMem.addBlock_setBitmap]

end Lists

end RecordServer.MemPool
