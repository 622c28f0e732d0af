import RecordServer.MemPool.BuddyMachine

/-!
# `Alloc` の返す block は足りるか

求める order は、header を足し、左に 2 bit ずらして 1 を引き、6 bit 戻した値の最上位の bit である。どの
計算も `u32` なので、header を足した長さが `2 ^ 30` に届くと、上の bit が失われて小さい order になる。

* `allocOrder_spec` — 求める order と、失われた後の長さの関係
* `AllocReturns` — 他の thread の手と混ざりながら、`Alloc(l)` が番地を返す
* `enough_iff` — 返す block がいつも足りるのは、`l` が `Representable` のときに限る
-/

namespace RecordServer.MemPool.Buddy

open Infra

/-! ## 求める order -/

/-- 上の bit が失われた後の長さ。 -/
def lostLength (l : Nat) : Nat := (l + 24) % 2 ^ 30

/-- header を足した長さが失われないか、失われても、返せる大きさにならない。 -/
def Representable (l : Nat) : Prop :=
  l + 24 < 2 ^ 30 ∨ lostLength l = 0 ∨ 2 ^ 14 < lostLength l

/-- `bsr` に渡す値。 -/
theorem allocOrder_eq {s : BuddyMem} (hs : s.alignBlockSize = 24) (l : Nat) :
    s.allocOrder l =
      if lostLength l = 0 then 25
      else if (4 * lostLength l - 1) / 64 = 0 then 0 else ((4 * lostLength l - 1) / 64).log2 := by
  have hshift : ((l + 24) % 2 ^ 32) <<< 2 % 2 ^ 32 = 4 * lostLength l := by
    rw [lostLength, Nat.shiftLeft_eq]
    omega
  unfold BuddyMem.allocOrder
  simp only [hs, hshift, Nat.shiftRight_eq_div_pow]
  by_cases h0 : lostLength l = 0
  · rw [h0]
    decide
  · have hlost : 4 * lostLength l < 2 ^ 32 := hshift ▸ Nat.mod_lt _ (by decide)
    rw [subU32_of_le (by omega) hlost, if_neg h0]
    by_cases hi : (4 * lostLength l - 1) / 64 = 0
    · simp [hi]
    · simp [hi, Nat.pos_of_ne_zero hi]

/-- 求める order が 9 以下なのは、失われた後の長さが 1 から `2 ^ 14` までのときで、その長さは block に収まる。 -/
theorem allocOrder_spec {s : BuddyMem} (hs : s.alignBlockSize = 24) (l : Nat) :
    (s.allocOrder l ≤ 9 ↔ 1 ≤ lostLength l ∧ lostLength l ≤ 2 ^ 14) ∧
      (s.allocOrder l ≤ 9 → lostLength l ≤ 64 * 2 ^ s.allocOrder l) := by
  rw [allocOrder_eq hs]
  by_cases h0 : lostLength l = 0
  · simp [h0]
  · rw [if_neg h0]
    by_cases hi : (4 * lostLength l - 1) / 64 = 0
    · rw [if_pos hi]
      exact ⟨iff_of_true (by omega) (by omega), fun _ => by omega⟩
    · rw [if_neg hi]
      have hlt : (4 * lostLength l - 1) / 64 < 2 * 2 ^ ((4 * lostLength l - 1) / 64).log2 := by
        rw [← Nat.pow_succ']
        exact Nat.lt_log2_self
      refine ⟨?_, fun _ => by omega⟩
      have h9 := Nat.log2_lt (k := 10) hi
      constructor
      · intro hle
        have := h9.mp (by omega)
        omega
      · intro hle
        have := h9.mpr (by omega)
        omega

/-! ## `Alloc` の呼び出し -/

/--
thread `t` が `m` で `Alloc(l)` に入り、他の thread の手と混ざりながら進んで、`p` を返して `m'` に着く。

`mid` は、入ってから返す一手の手前までの手で、`t` はその間に他の呼び出しに入らない。
-/
def AllocReturns (m : Machine) (t l p : Nat) (m' : Machine) : Prop :=
  ∃ mid m₁ c, FuelRuns Enabled step m (.alloc t l :: mid) m₁ ∧
    (∀ l', .alloc t l' ∉ mid) ∧ (∀ p', .free t p' ∉ mid) ∧
    Converges (fun fuel => (m₁.thread t).advance fuel m₁.mem) (c, some p, m'.mem) ∧
    Converges (fun fuel => step fuel m₁ (.run t)) m'

/-- 渡した block は order が求めたとおりで、header と `l` byte を収める。 -/
structure Enough (m : Machine) (l p k : Nat) : Prop where
  held : ∃ b, p = m.mem.data b ∧ Held m .client k b ∧
    p + l ≤ m.mem.blockStart + 64 * (b + 2 ^ k)
  size : l + m.mem.alignBlockSize ≤ 64 * 2 ^ k

/-- `l` byte を求める `Alloc` が満たすべきこと。 -/
structure AlwaysEnough (l : Nat) : Prop where
  /-- 初期化に成功した buffer の、どの run でも、返した block は足りる。 -/
  returned : ∀ {s₀ s : BuddyMem} {b len as m t p m'}, len < 2 ^ 32 →
    s₀.initBuddyMem b len = some s →
    FuelRuns Enabled step (.init s) as m → AllocReturns m t l p m' →
    Enough m' l p (s.allocOrder l)
  /-- header を足して 8192 byte までの求めは、`MAX_ORDER` を越えない。 -/
  mapped : ∀ {s₀ s : BuddyMem} {b len}, len < 2 ^ 32 → s₀.initBuddyMem b len = some s →
    l + s.alignBlockSize ≤ 8192 → s.allocOrder l ≤ 9

variable {s s' : BuddyMem} {m m' : Machine} {t l p k : Nat}

/-! ## header の大きさは変わらない -/

theorem setBitmap_alignBlockSize (s : BuddyMem) (index fa : Nat) :
    (s.setBitmap index fa).2.alignBlockSize = s.alignBlockSize := rfl

theorem addBlock_alignBlockSize (s : BuddyMem) (b fa : Nat) :
    (s.addBlock b fa).alignBlockSize = s.alignBlockSize := by simp [BuddyMem.addBlock]

theorem delFrom_alignBlockSize {b fa fuel : Nat} {o : Option Nat} {r : Int × BuddyMem}
    (h : s.delFrom b fa fuel o = some r) : r.2.alignBlockSize = s.alignBlockSize := by
  induction fuel generalizing o with
  | zero => cases h
  | succ fuel ih =>
    cases o with
    | none =>
      cases h
      rfl
    | some x =>
      simp only [BuddyMem.delFrom] at h
      split at h
      · cases h
        simp only [BuddyMem.unlink]
        split <;> simp
      · exact ih h

theorem upgrade_alignBlockSize {index freeBlock fa fuel : Nat} {r : Nat × Nat × BuddyMem}
    (h : s.upgrade fuel index freeBlock fa = some r) :
    r.2.2.alignBlockSize = s.alignBlockSize := by
  simp only [BuddyMem.upgrade] at h
  split at h
  · obtain ⟨r', hr', rfl⟩ := Option.map_eq_some_iff.mp h
    exact (delFrom_alignBlockSize hr').trans (setBitmap_alignBlockSize s index fa)
  · cases h
    exact addBlock_alignBlockSize _ _ _

theorem takeFirst_alignBlockSize (s : BuddyMem) (fa : Nat) :
    (s.takeFirst fa).2.alignBlockSize = s.alignBlockSize := by
  unfold BuddyMem.takeFirst
  split
  · rfl
  · simp [setBitmap_alignBlockSize]

theorem advance_alignBlockSize {c : BuddyCall} {fuel : Nat}
    {r : BuddyCall × Option Nat × BuddyMem} (h : c.advance fuel s = some r) :
    r.2.2.alignBlockSize = s.alignBlockSize := by
  cases c with
  | idle =>
    cases h
    rfl
  | search bitp order =>
    simp only [BuddyCall.advance] at h
    have htake := takeFirst_alignBlockSize s order
    split at h
    · split at h
      · next heq =>
        cases h
        rwa [heq] at htake
      · next heq =>
        cases h
        rwa [heq] at htake
    · cases h
      rfl
  | split bitp order pb =>
    simp only [BuddyCall.advance] at h
    split at h
    · cases h
      simp [BuddyMem.degrade_eq, (BuddyMem.insertFree_layout _ _ _).2.1]
    · cases h
      rfl
  | free ret index freeBlock fa =>
    simp only [BuddyCall.advance] at h
    split at h
    · obtain ⟨r', hr', rfl⟩ := Option.map_eq_some_iff.mp h
      exact upgrade_alignBlockSize hr'
    · cases h
      rfl

theorem step_alignBlockSize {a : Act} {fuel : Nat} (h : step fuel m a = some m') :
    m'.mem.alignBlockSize = m.mem.alignBlockSize := by
  cases a with
  | alloc t l | free t p | write p u v =>
    cases h
    rfl
  | run t =>
    obtain ⟨r, hr, rfl⟩ := Option.map_eq_some_iff.mp h
    exact advance_alignBlockSize hr

theorem runs_alignBlockSize {as : List Act} (h : FuelRuns Enabled step m as m') :
    m'.mem.alignBlockSize = m.mem.alignBlockSize := by
  induction h with
  | nil => rfl
  | cons _ hconv _ ih =>
    obtain ⟨n, hn⟩ := hconv
    exact ih.trans (step_alignBlockSize (hn n le_rfl))

/-! ## `Alloc` の途中 -/

/-- `Alloc` の途中は、返すまで求める order を変えない。 -/
def Seeks (k : Nat) : BuddyCall → Prop
  | .idle => True
  | .search bitp _ => bitp = k ∧ k ≤ 9
  | .split bitp _ _ => bitp = k ∧ k ≤ 9
  | .free _ _ _ _ => False

theorem Seeks.advance {c : BuddyCall} {fuel : Nat} {r : BuddyCall × Option Nat × BuddyMem}
    (hc : Seeks k c) (h : c.advance fuel s = some r) : Seeks k r.1 := by
  cases c with
  | idle =>
    cases h
    exact hc
  | search bitp order =>
    simp only [BuddyCall.advance] at h
    split at h
    · split at h
      · cases h
        exact hc
      · cases h
        exact hc
    · cases h
      trivial
  | split bitp order pb =>
    simp only [BuddyCall.advance] at h
    split at h
    · cases h
      exact hc
    · cases h
      trivial
  | free ret index freeBlock fa => exact hc.elim

theorem Seeks.runs {mid : List Act} (h : FuelRuns Enabled step m mid m')
    (halloc : ∀ l', .alloc t l' ∉ mid) (hfree : ∀ p', .free t p' ∉ mid)
    (hc : Seeks k (m.thread t)) : Seeks k (m'.thread t) := by
  induction h with
  | nil => exact hc
  | @cons m m₁ m₂ a as _ hconv _ ih =>
    refine ih (fun l' hin => halloc l' (List.mem_cons_of_mem _ hin))
      (fun p' hin => hfree p' (List.mem_cons_of_mem _ hin)) ?_
    obtain ⟨n, hn⟩ := hconv
    have hstep := hn n le_rfl
    cases a with
    | alloc t' l' =>
      have hne : t ≠ t' := by
        rintro rfl
        exact halloc l' (by simp)
      cases hstep
      simpa [hne] using hc
    | free t' p' =>
      have hne : t ≠ t' := by
        rintro rfl
        exact hfree p' (by simp)
      cases hstep
      simpa [hne] using hc
    | run t' =>
      obtain ⟨r, hr, rfl⟩ := Option.map_eq_some_iff.mp hstep
      by_cases ht : t = t'
      · subst ht
        simpa using hc.advance hr
      · simpa [ht] using hc
    | write p' u v =>
      cases hstep
      exact hc

/-- 返す一手の前は、取った block を求める order まで分け終えたところである。 -/
theorem Seeks.returns {c c' : BuddyCall} (hc : Seeks k c)
    (h : Converges (fun fuel => c.advance fuel s) (c', some p, s')) :
    k ≤ 9 ∧ ∃ pb, p = s.data pb ∧ s' = s.modifyBlock pb fun b => { b with freeArea := k } := by
  obtain ⟨n, hn⟩ := h
  have hstep := hn n le_rfl
  cases c with
  | idle => cases hstep
  | search bitp order =>
    simp only [BuddyCall.advance] at hstep
    split at hstep
    · split at hstep <;> cases hstep
    · cases hstep
  | split bitp order pb =>
    obtain ⟨rfl, hk⟩ := hc
    simp only [BuddyCall.advance] at hstep
    split at hstep
    · cases hstep
    · cases hstep
      exact ⟨hk, pb, rfl, rfl⟩
  | free ret index freeBlock fa => exact hc.elim

/-- 返した block の order は求めたとおりで、`MAX_ORDER` を越えない。 -/
theorem AllocReturns.held (h : AllocReturns m t l p m') :
    m.mem.allocOrder l ≤ 9 ∧ m'.mem.alignBlockSize = m.mem.alignBlockSize ∧
      ∃ b, p = m'.mem.data b ∧ Held m' .client (m.mem.allocOrder l) b := by
  obtain ⟨mid, m₁, c, hrun, halloc, hfree, hadv, hstep⟩ := h
  have hsize := runs_alignBlockSize hrun
  cases hrun with
  | cons _ hconv hmid =>
    obtain ⟨n, hn⟩ := hconv
    cases hn n le_rfl
    have hseeks : Seeks (m.mem.allocOrder l) (m₁.thread t) := by
      refine Seeks.runs hmid halloc hfree ?_
      simp only [Function.update_self, BuddyCall.ofAlloc]
      split
      · trivial
      · exact ⟨rfl, by omega⟩
    obtain ⟨hk, pb, rfl, hmem⟩ := hseeks.returns hadv
    have hout : m'.out = Function.update m₁.out (m₁.mem.data pb) true := by
      obtain ⟨a, ha⟩ := hadv
      obtain ⟨b, hb⟩ := hstep
      have hrun := hb (max a b) (le_max_right a b)
      have hcall := ha (max a b) (le_max_left a b)
      simp only at hcall
      simp only [step, hcall, Option.map_some, Option.some.injEq] at hrun
      rw [← hrun]
    have hdata : m'.mem.data pb = m₁.mem.data pb := by
      rw [hmem]
      rfl
    refine ⟨hk, ?_, pb, hdata.symm, ?_, ?_⟩
    · rw [hmem]
      exact hsize
    · rw [hdata, hout, Function.update_self]
    · rw [hmem]
      simp

/-! ## 足りるための条件 -/

theorem Representable.alwaysEnough (h : Representable l) : AlwaysEnough l := by
  constructor
  · intro s₀ s b len as m t p m' hlen hinit hrun hret
    have hs := alignBlockSize_of_init hlen hinit
    have hm : m.mem.alignBlockSize = 24 := (runs_alignBlockSize hrun).trans hs
    obtain ⟨hk, hsize, b, rfl, hheld⟩ := hret.held
    have hspec := allocOrder_spec hm l
    have hsame : s.allocOrder l = m.mem.allocOrder l := by
      unfold BuddyMem.allocOrder
      rw [hs, hm]
    have hfits := hspec.2 hk
    have hlong : l + 24 ≤ 64 * 2 ^ m.mem.allocOrder l := by
      rcases h with hlt | h0 | hbig
      · rwa [lostLength, Nat.mod_eq_of_lt hlt] at hfits
      · omega
      · omega
    rw [hsame]
    refine ⟨⟨b, rfl, hheld, ?_⟩, by rw [hsize, hm]; exact hlong⟩
    unfold BuddyMem.data
    rw [hsize, hm]
    omega
  · intro s₀ s b len hlen hinit hle
    have hs := alignBlockSize_of_init hlen hinit
    rw [hs] at hle
    refine (allocOrder_spec hs l).1.mpr ?_
    unfold lostLength
    omega

/-! ## どの order の list も空でない buffer -/

theorem carve_area {order j : Nat} (hj : j ≠ order) (s : BuddyMem) (remain pblock : Nat) :
    (BuddyMem.carve order s remain pblock).1.area j = s.area j := by
  induction remain using Nat.strong_induction_on generalizing s pblock with
  | _ remain ih =>
    have hpos : 0 < 64 <<< order := by
      rw [Nat.shiftLeft_eq]
      exact Nat.mul_pos (by decide) (Nat.two_pow_pos order)
    rw [BuddyMem.carve]
    split
    · rw [ih _ (by omega)]
      simp [BuddyMem.setBitmap_snd, BuddyMem.addBlock, hj]
    · rfl

theorem carveOrders_area {n j : Nat} (hj : n ≤ j) (s : BuddyMem) (remain pblock : Nat) :
    (BuddyMem.carveOrders n s remain pblock).area j = s.area j := by
  induction n generalizing s remain pblock with
  | zero => rfl
  | succ n ih =>
    have hne : j ≠ n := by omega
    rw [BuddyMem.carveOrders, ih (by omega), carve_area hne, BuddyMem.modifyArea_area, if_neg hne]

/-- 残りが一つ分以上、二つ分未満なら、一つだけ並べる。 -/
theorem carve_one {order rest : Nat} (hrest : rest < 64 * 2 ^ order) (s : BuddyMem)
    (pblock : Nat) : BuddyMem.carve order s (64 * 2 ^ order + rest) pblock =
      (s.insertFree pblock order pblock, rest, pblock + 2 ^ order) := by
  rw [BuddyMem.carve, Nat.shiftLeft_eq, if_pos (by omega)]
  simp only
  rw [BuddyMem.carve, Nat.shiftLeft_eq, Nat.one_shiftLeft, if_neg (by omega), Nat.add_sub_cancel_left]
  rfl

/-- 64 byte の `2 ^ n - 1` 倍を並べると、`n` より小さい order の list に一つずつ載る。 -/
theorem freelist_of_carveOrders {n k : Nat} (hk : k < n) (s : BuddyMem) (pblock : Nat) :
    ∃ pb, ((BuddyMem.carveOrders n s (64 * (2 ^ n - 1)) pblock).area k).freelist = some pb := by
  induction n generalizing s pblock with
  | zero => omega
  | succ n ih =>
    have hpos := Nat.two_pow_pos n
    have hsplit : 64 * (2 ^ (n + 1) - 1) = 64 * 2 ^ n + 64 * (2 ^ n - 1) := by
      rw [Nat.pow_succ]
      omega
    rw [BuddyMem.carveOrders, hsplit, carve_one (by omega)]
    rcases Nat.lt_succ_iff_lt_or_eq.mp hk with hlt | rfl
    · exact ih hlt _ _
    · refine ⟨pblock, ?_⟩
      rw [carveOrders_area le_rfl, BuddyMem.insertFree_area, if_pos rfl, FreeArea.toggle_freelist]

/-- 66816 byte の buffer は、block に使える長さが 64 byte のちょうど 1023 倍になる。 -/
theorem init_buffer (s₀ : BuddyMem) : ∃ t : BuddyMem,
    s₀.initBuddyMem 64 66816 = some (t.carveOrders 10 (64 * (2 ^ 10 - 1)) 0) := by
  have hpm : alignPtr 64 64 = 64 := by decide
  have hfree : alignPtr (64 + sizeofMem) 64 = 128 := by decide
  have hremain : (Int.bmod (((66816 : Nat) : Int) - ((64 : Nat) - (64 : Nat)) -
      ((128 : Nat) - (64 : Nat))) (2 ^ 32)).toNat = 66752 := by decide
  have harea : alignU32 (sizeofFreeArea + (66752 / 64 + 15) >>> (3 + 1)) 64 * 10 % 2 ^ 32 =
      1280 := by decide
  unfold BuddyMem.initBuddyMem BuddyMem.initFree
  simp only [hpm, hfree, hremain, harea]
  rw [if_neg (by decide), if_neg (by decide), if_neg (by decide)]
  exact ⟨_, rfl⟩

theorem step_run {c : BuddyCall} {o : Option Nat}
    (h : ∀ fuel, (m.thread t).advance fuel m.mem = some (c, o, s)) :
    ∃ m', Converges (fun fuel => step fuel m (.run t)) m' ∧ m'.mem = s ∧ m'.thread t = c := by
  have hadv : Converges (fun fuel => (m.thread t).advance fuel m.mem) (c, o, s) :=
    (Converges.pure _).congr h
  exact ⟨_, hadv.map _, rfl, Function.update_self ..⟩

/-- 求める order の list が空でなければ、`Alloc` はその先頭を返す。 -/
theorem returns_of_freelist {pb : Nat} (hthread : m.thread t = .search k k) (hk : k ≤ 9)
    (hpb : (m.mem.area k).freelist = some pb) :
    ∃ m₁ m' p, Converges (fun fuel => step fuel m (.run t)) m₁ ∧
      Converges (fun fuel => (m₁.thread t).advance fuel m₁.mem) (.idle, some p, m'.mem) ∧
      Converges (fun fuel => step fuel m₁ (.run t)) m' := by
  obtain ⟨s₁, htake⟩ : ∃ s₁, m.mem.takeFirst k = (some pb, s₁) := by
    unfold BuddyMem.takeFirst
    rw [hpb]
    exact ⟨_, rfl⟩
  have hfound : ∀ fuel, (m.thread t).advance fuel m.mem = some (.split k k pb, none, s₁) :=
    fun fuel => by simp [hthread, BuddyCall.advance, hk, htake]
  obtain ⟨m₁, hstep₁, hmem₁, hthread₁⟩ := step_run hfound
  have hdone : ∀ fuel, (m₁.thread t).advance fuel m₁.mem = some (.idle, some (s₁.data pb),
      s₁.modifyBlock pb fun b => { b with freeArea := k }) := fun fuel => by
    simp [hthread₁, hmem₁, BuddyCall.advance]
  obtain ⟨m', hstep', hmem', -⟩ := step_run hdone
  refine ⟨m₁, m', s₁.data pb, hstep₁, (Converges.pure _).congr fun fuel => ?_, hstep'⟩
  rw [hmem']
  exact hdone fuel

theorem allocReturns_of_freelist {pb : Nat} (hk : s.allocOrder l ≤ 9)
    (hpb : (s.area (s.allocOrder l)).freelist = some pb) :
    ∃ p m', AllocReturns (.init s) 0 l p m' := by
  have hcall : BuddyCall.ofAlloc s l = .search (s.allocOrder l) (s.allocOrder l) := by
    unfold BuddyCall.ofAlloc
    rw [if_neg (by omega)]
  obtain ⟨m₀, henter, hthread, hmem⟩ : ∃ m₀,
      Converges (fun fuel => step fuel (.init s) (.alloc 0 l)) m₀ ∧
      m₀.thread 0 = .search (s.allocOrder l) (s.allocOrder l) ∧ m₀.mem = s := by
    refine ⟨_, .pure _, ?_, rfl⟩
    simp only [Machine.init, Function.update_self]
    exact hcall
  obtain ⟨m₁, m', p, hstep, hadv, hstep'⟩ := returns_of_freelist hthread hk (by rw [hmem, hpb])
  refine ⟨p, m', [.run 0], m₁, .idle, .cons rfl henter (.cons ?_ hstep .nil), by simp, by simp,
    hadv, hstep'⟩
  simp [Enabled, hthread]

theorem AlwaysEnough.representable (h : AlwaysEnough l) : Representable l := by
  by_contra hnot
  obtain ⟨hlong, hpos, hshort⟩ : 2 ^ 30 ≤ l + 24 ∧ lostLength l ≠ 0 ∧ lostLength l ≤ 2 ^ 14 := by
    simpa [Representable, not_or] using hnot
  obtain ⟨t, hinit⟩ := init_buffer
    ⟨0, 0, 0, 0, fun _ => ⟨none, 0, fun _ => 0⟩, fun _ => ⟨none, none, 0⟩⟩
  have hs := alignBlockSize_of_init (by decide) hinit
  have hk : (t.carveOrders 10 (64 * (2 ^ 10 - 1)) 0).allocOrder l ≤ 9 :=
    (allocOrder_spec hs l).1.mpr ⟨Nat.pos_of_ne_zero hpos, hshort⟩
  obtain ⟨pb, hpb⟩ := freelist_of_carveOrders (Nat.lt_succ_of_le hk) t 0
  obtain ⟨p, m', hret⟩ := allocReturns_of_freelist hk hpb
  have hsize := (h.returned (by decide) hinit .nil hret).size
  have hpow : 2 ^ (t.carveOrders 10 (64 * (2 ^ 10 - 1)) 0).allocOrder l ≤ 2 ^ 9 :=
    Nat.pow_le_pow_right (by decide) hk
  rw [hret.held.2.1] at hsize
  omega

/--
**`Alloc(l)` の返す block がいつも足りるのは、`l` が `Representable` のときに限る。**

header を足した長さが `2 ^ 30` の正の倍数を越えて `2 ^ 14` 以内にあるときだけ、order が小さくなり過ぎる。
-/
theorem enough_iff (l : Nat) : AlwaysEnough l ↔ Representable l :=
  ⟨AlwaysEnough.representable, Representable.alwaysEnough⟩

/-- `2 ^ 30 - 23` byte を求めると、64 byte の block が返る。 -/
theorem gigabyte_in_smallest_block : ∃ s₀ s : BuddyMem, s₀.initBuddyMem 64 66816 = some s ∧
    (∃ p m', AllocReturns (.init s) 0 (2 ^ 30 - 23) p m') ∧ s.allocOrder (2 ^ 30 - 23) = 0 ∧
    ¬ AlwaysEnough (2 ^ 30 - 23) := by
  obtain ⟨t, hinit⟩ := init_buffer
    ⟨0, 0, 0, 0, fun _ => ⟨none, 0, fun _ => 0⟩, fun _ => ⟨none, none, 0⟩⟩
  have hs := alignBlockSize_of_init (by decide) hinit
  have horder : (t.carveOrders 10 (64 * (2 ^ 10 - 1)) 0).allocOrder (2 ^ 30 - 23) = 0 := by
    rw [allocOrder_eq hs]
    decide
  have hk : (t.carveOrders 10 (64 * (2 ^ 10 - 1)) 0).allocOrder (2 ^ 30 - 23) < 10 := by
    rw [horder]
    decide
  obtain ⟨pb, hpb⟩ := freelist_of_carveOrders hk t 0
  refine ⟨_, _, hinit, allocReturns_of_freelist (Nat.le_of_lt_succ hk) hpb, horder, fun h => ?_⟩
  exact absurd h.representable (by unfold Representable lostLength; decide)

end RecordServer.MemPool.Buddy
