import RecordServer.MemPool.SlabChain

/-!
# 固定長の block の分割

構築子から始まる `slab_alloc` と `slab_free` の列で、block は pool の二つの list のどちらかに
一度だけ現れ、渡した block は二度渡されない。

* `Machine` / `step` — 呼ぶ側が持っている block も数える
* `Runs` — 許された列。`m_alloced_num` が `s32` に収まる間に限る
* `partition_along_run` — どの run の後でも分割は保たれ、次の呼び出しは正しく終わる
-/

namespace RecordServer.MemPool

open Infra

/-- `out` は、`slab_alloc` が返してまだ `slab_free` されていない番地である。 -/
structure Machine where
  slab : Slab
  out : List Nat

inductive Act where
  /-- `new_zone` を呼べば `zone` が返る。 -/
  | alloc (zone : Option Nat)
  | free (data : Nat)

/-- `new_zone` の返す領域は新しく、block が一つは入る。返すのは渡された block だけである。 -/
def Allowed (m : Machine) : Act → Prop
  | .alloc zone => ∀ a, zone = some a → Fresh m.slab a ∧ Fits m.slab a
  | .free data => data ∈ m.out

/-- 上限の無い pool では、渡した block の数が `s32` に収まる。 -/
def Counts (m : Machine) : Act → Prop
  | .alloc _ => m.slab.maxNum = -1 → m.slab.allocedNum < 2 ^ 31 - 1
  | .free _ => True

def step (fuel : Nat) (m : Machine) : Act → Option Machine
  | .alloc zone => (m.slab.slabAlloc fuel zone).map fun r => ⟨r.2, r.1.toList ++ m.out⟩
  | .free data => (m.slab.slabFree data).map fun s => ⟨s, m.out.erase data⟩

inductive Runs : Machine → List Act → Machine → Prop
  | nil {m} : Runs m [] m
  | cons {m m' m'' a as} : Allowed m a → Counts m a → Converges (fun fuel => step fuel m a) m' →
      Runs m' as m'' → Runs m (a :: as) m''

/-- 整った pool の列と、渡した block。 -/
structure Partition (m : Machine) (ps : List Nat) (free used : Nat → List Nat) : Prop where
  ok : SlabOk m.slab ps free used
  /-- 使用中の block は、渡してまだ返されていない block にほかならない。 -/
  out : m.out.Perm ((ps.flatMap used).map (· + m.slab.alignedsize))

variable {m m' : Machine} {ps : List Nat} {free used : Nat → List Nat}

/-- 空いていた block は渡されていない。 -/
theorem Partition.not_out (h : Partition m ps free used) {b : Nat} (hb : b ∉ ps.flatMap used) :
    b + m.slab.alignedsize ∉ m.out := by
  intro hin
  obtain ⟨x, hx, heq⟩ := List.mem_map.mp (h.out.mem_iff.mp hin)
  exact hb (Nat.add_right_cancel heq ▸ hx)

/-- **一手は必ず終わり、分割を保つ。** -/
theorem Partition.step (h : Partition m ps free used) {a : Act} (ha : Allowed m a)
    (hc : Counts m a) : ∃ m' ps' free' used', Converges (fun fuel => step fuel m a) m' ∧
      Partition m' ps' free' used' ∧ m.slab.SameFields m'.slab := by
  cases a with
  | alloc zone =>
    obtain ⟨r, s', hrun, hres⟩ := h.ok.alloc zone ha hc
    have hstep := hrun.map fun r => (⟨r.2, r.1.toList ++ m.out⟩ : Machine)
    cases r with
    | none =>
      obtain ⟨rfl, -⟩ := hres
      exact ⟨_, ps, free, used, hstep, ⟨h.ok, h.out⟩, ⟨rfl, rfl, rfl, rfl, rfl⟩⟩
    | some data =>
      obtain ⟨b, ps', free', used', rfl, hok, hperm, hfields, -⟩ := hres
      refine ⟨_, ps', free', used', hstep, ⟨hok, ?_⟩, hfields⟩
      have hmap := hperm.map (· + m.slab.alignedsize)
      rw [List.map_cons] at hmap
      rw [show s'.alignedsize = m.slab.alignedsize from hfields.2.2.2.2]
      exact (h.out.cons _).trans hmap.symm
  | free data =>
    obtain ⟨b, hb, rfl⟩ := List.mem_map.mp (h.out.mem_iff.mp ha)
    obtain ⟨s', free', used', hrun, hok, hperm, hfields⟩ := h.ok.slabFree hb
    refine ⟨⟨s', m.out.erase (b + m.slab.alignedsize)⟩, ps, free', used',
      (Converges.pure _).congr fun fuel => ?_, ⟨hok, ?_⟩, hfields⟩
    · simp [MemPool.step, hrun]
    · have hmap := (hperm.map (· + m.slab.alignedsize)).erase (b + m.slab.alignedsize)
      rw [List.map_cons, List.erase_cons_head] at hmap
      show (m.out.erase _).Perm ((ps.flatMap used').map (· + s'.alignedsize))
      rw [show s'.alignedsize = m.slab.alignedsize from hfields.2.2.2.2]
      exact (h.out.erase _).trans hmap

theorem Partition.runs {as : List Act} (h : Partition m ps free used) (hrun : Runs m as m') :
    ∃ ps' free' used', Partition m' ps' free' used' ∧ m.slab.SameFields m'.slab := by
  induction hrun generalizing ps free used with
  | nil => exact ⟨ps, free, used, h, ⟨rfl, rfl, rfl, rfl, rfl⟩⟩
  | cons ha hc hstep _ ih =>
    obtain ⟨m₁, ps₁, free₁, used₁, hstep₁, h₁, hfields⟩ := h.step ha hc
    obtain rfl := hstep.unique hstep₁
    obtain ⟨ps', free', used', h', hfields'⟩ := ih h₁
    exact ⟨ps', free', used', h', hfields.trans hfields'⟩

/-- 次の `slab_alloc` の結果。 -/
def AllocAnswers (m : Machine) (ps : List Nat) (free used : Nat → List Nat)
    (zone : Option Nat) : Prop :=
  ∃ r s', Converges (fun fuel => m.slab.slabAlloc fuel zone) (r, s') ∧
    Allocated m.slab ps free used zone r s' ∧ ∀ data, r = some data → data ∉ m.out

theorem Partition.alloc (h : Partition m ps free used) {zone : Option Nat}
    (ha : Allowed m (.alloc zone)) (hc : Counts m (.alloc zone)) :
    AllocAnswers m ps free used zone := by
  obtain ⟨r, s', hrun, hres⟩ := h.ok.alloc zone ha hc
  refine ⟨r, s', hrun, hres, ?_⟩
  rintro data rfl
  obtain ⟨b, ps', free', used', rfl, hok, hperm, -⟩ := hres
  refine h.not_out ?_
  -- 渡した block は、渡した後の使用中の list にも一度しか現れない。
  have hnd : (ps'.flatMap used').Nodup := by
    refine List.nodup_flatMap.mpr ⟨fun p hp => ?_, ?_⟩
    · exact (List.nodup_append.mp ((hok.pools p hp).nodup hok.mbsize)).2.1
    · refine hok.nodup.imp_of_mem fun {p q} hp hq hne => ?_
      intro x hx hx'
      refine hok.blocks_disjoint hp hq hne (x := x) ?_ ?_
      · exact (hok.pools p hp).all.mem_iff.mp (List.mem_append_right _ hx)
      · exact (hok.pools q hq).all.mem_iff.mp (List.mem_append_right _ hx')
  exact (List.nodup_cons.mp (hperm.nodup_iff.mp hnd)).1

/--
**初めの領域が取れれば、どの run の後でも block は分割されている。**

上限 `n` があれば渡した block は `n` を越えない。次の `slab_alloc` は、空いていた block を渡すか、
上限か領域の不足で `NULL` を返して何も変えない。`m_mbsize` は `u32` で溢れず、block の header を含む。
-/
theorem partition_along_run (pool : Nat → Mempool) (block : Nat → Memblock)
    (blockSize poolSize : Nat) (num : Option Nat) (hnum : ∀ n, num = some n → 1 ≤ n ∧ n < 2 ^ 31)
    (hsize : sizeofMemblock ≤ (Slab.initial pool block blockSize poolSize num).mbsize) (a : Nat)
    (hfits : Fits (.initial pool block blockSize poolSize num) a) (s : Slab)
    (hs : Converges (fun fuel =>
      (Slab.initial pool block blockSize poolSize num).construct fuel (some a)) s)
    (as : List Act) (m : Machine) (hrun : Runs ⟨s, []⟩ as m) :
    ∃ ps free used, Partition m ps free used ∧
      (∀ n, num = some n → m.out.length ≤ n) ∧
      (∀ zone, Allowed m (.alloc zone) → Counts m (.alloc zone) →
        AllocAnswers m ps free used zone) ∧
      ∀ data ∈ m.out, ∃ s', m.slab.slabFree data = some s' := by
  have hmax : ∀ n, num = some n →
      (Slab.initial pool block blockSize poolSize num).maxNum = (n : Int) := by
    rintro n rfl
    obtain ⟨hpos, hlt⟩ := hnum n rfl
    simp only [Slab.initial]
    exact Int.bmod_eq_of_le (by omega) (by omega)
  have hlimit : (Slab.initial pool block blockSize poolSize num).maxNum = -1 ∨
      (0 ≤ (Slab.initial pool block blockSize poolSize num).maxNum ∧
        (Slab.initial pool block blockSize poolSize num).maxNum < 2 ^ 31) := by
    cases hn : num with
    | none => exact .inl rfl
    | some n =>
      have hlt := (hnum n hn).2
      have heq := hmax n hn
      rw [hn] at heq
      exact .inr (by rw [heq]; omega)
  obtain ⟨s₁, ps₁, free₁, hs₁, hok, hmax₁, hal⟩ := construct_spec (a := a)
    (s := .initial pool block blockSize poolSize num) rfl hlimit
    (lt_of_lt_of_le (by decide) hsize) (alignU32_lt poolSize 4096) hfits
  obtain rfl := hs.unique hs₁
  have h₀ : Partition ⟨s, []⟩ ps₁ free₁ (fun _ => []) := ⟨hok, by simp⟩
  obtain ⟨ps, free, used, h, hfields⟩ := h₀.runs hrun
  refine ⟨ps, free, used, h, fun n hn => ?_, fun zone ha hc => h.alloc ha hc, fun data hdata => ?_⟩
  · have hlen := h.out.length_eq
    rw [List.length_map] at hlen
    have hcount := h.ok.count
    have hbound := h.ok.limit
    have hmaxm : m.slab.maxNum = n := hfields.2.1.trans (hmax₁.trans (hmax n hn))
    omega
  · obtain ⟨b, hb, rfl⟩ := List.mem_map.mp (h.out.mem_iff.mp hdata)
    obtain ⟨s', -, -, hrun', -⟩ := h.ok.slabFree hb
    exact ⟨s', hrun'⟩

/-- 試す大きさ。block は data を 8 byte、pool は 4096 byte とする。 -/
def sample (num : Option Nat) : Slab :=
  .initial (fun _ => ⟨none, none, none, 0, 0⟩) (fun _ => ⟨none, none, none⟩) 8 4096 num

/-- 上限 `2` の pool の領域が取れて、一つ渡す。 -/
theorem partition_after_alloc :
    ∃ s m, Converges (fun fuel => (sample (some 2)).construct fuel (some 4096)) s ∧
      Runs ⟨s, []⟩ [.alloc none] m ∧ m.out.length ≤ 2 ∧ ∃ ps free used, Partition m ps free used := by
  have hfits : Fits (sample (some 2)) 4096 := by
    unfold Fits
    decide
  have hsize : sizeofMemblock ≤ (sample (some 2)).mbsize := by decide
  obtain ⟨s, ps₀, free₀, hs, hok, -⟩ :=
    construct_spec (s := sample (some 2)) rfl (.inr ⟨by decide, by decide⟩) (by decide) (by decide)
      hfits
  have h₀ : Partition ⟨s, []⟩ ps₀ free₀ (fun _ => []) := ⟨hok, by simp⟩
  have ha : Allowed ⟨s, []⟩ (.alloc none) := by simp [Allowed]
  have hc : Counts ⟨s, []⟩ (.alloc none) := by
    intro _
    show s.allocedNum < _
    rw [hok.count]
    simp
  obtain ⟨m, -, -, -, hstep, -⟩ := h₀.step ha hc
  have hrun : Runs ⟨s, []⟩ [.alloc none] m := .cons ha hc hstep .nil
  obtain ⟨ps, free, used, h, hle, -⟩ := partition_along_run _ _ 8 4096 (some 2) (by
    rintro n ⟨⟩
    decide) hsize 4096 hfits s hs [.alloc none] m hrun
  exact ⟨s, m, hs, hrun, hle 2 rfl, ps, free, used, h⟩

/-- 構築子が領域を取れなかった pool の `slab_alloc` は、`NULL` を辿って戻らない。 -/
theorem stuck_without_first_zone :
    ∃ s, Converges (fun fuel => (sample none).construct fuel none) s ∧
      ∀ zone, ¬ ∃ out, Converges (fun fuel => s.slabAlloc fuel zone) out := by
  refine ⟨_, Converges.pure _, fun zone hstuck => ?_⟩
  obtain ⟨out, n, hn⟩ := hstuck
  cases hn n le_rfl

end RecordServer.MemPool
