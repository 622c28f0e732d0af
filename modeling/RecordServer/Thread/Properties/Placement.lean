import RecordServer.Infra.Balance
import RecordServer.Thread.Ppthread

/-!
# thread は範囲の中に偏りなく載るか

* `Placed` — 範囲は CPU の中にあり、載った数は偏らず、範囲の外は 0 のままである
* `selectCpu_minimal` — 数が溢れていなければ、loop は最も少ない CPU を選ぶ
* `Counts.spawn` / `Counts.spawns` — 一回の呼び出しと、呼び出しの列が守ること
* `placed_iff` — `Placed` が成り立つのは、`low` が 0 でなく、数が `s32` に収まるときに限る
-/

namespace RecordServer.Thread

open Infra

variable {cpuNums low high : Int} {heap : Int → Int} {pinfo : ThrdInfo} {as : List Int}

/-- 使う CPU の番号。 -/
def ThrdInfo.cpus (pinfo : ThrdInfo) : Finset Int :=
  (Finset.range (pinfo.highTh - pinfo.lowTh + 1).toNat).image fun n : Nat => pinfo.lowTh + n

theorem mem_cpus {i : Int} : i ∈ pinfo.cpus ↔ pinfo.lowTh ≤ i ∧ i ≤ pinfo.highTh := by
  rw [ThrdInfo.cpus, Finset.mem_image]
  constructor
  · rintro ⟨n, hn, rfl⟩
    have := Finset.mem_range.mp hn
    omega
  · rintro ⟨hlo, hhi⟩
    exact ⟨(i - pinfo.lowTh).toNat, Finset.mem_range.mpr (by omega), by omega⟩

/-- `pinfo` から `spawn_thread` を順に呼んだ後。affinity の設定に成功した呼び出しの数は `as.count 0` である。 -/
structure Placed (pinfo : ThrdInfo) (as : List Int) : Prop where
  range : 0 ≤ pinfo.lowTh ∧ pinfo.lowTh ≤ pinfo.highTh ∧ pinfo.highTh < pinfo.cpuNums
  used : ∀ i ∈ (spawnThreads pinfo as).2, i ∈ pinfo.cpus
  total : ∑ i ∈ pinfo.cpus, (spawnThreads pinfo as).1.threadsOnCpu i = as.count 0
  balanced : WithinOne pinfo.cpus (spawnThreads pinfo as).1.threadsOnCpu
  outside : ∀ i, 0 ≤ i → i < pinfo.cpuNums → i ∉ pinfo.cpus →
    (spawnThreads pinfo as).1.threadsOnCpu i = 0

/-- `low` と `high` の求める CPU の数。求め方が使えない端は、両端の CPU にする。 -/
def rangeWidth (cpuNums low high : Int) : Nat :=
  let first := if 0 < low ∧ low < cpuNums then low - 1 else 0
  let last := if first < high ∧ high < cpuNums then high else cpuNums - 1
  (last - first + 1).toNat

/-! ## 範囲 -/

theorem threadInfoInit_range (heap : Int → Int) (high : Int) (hcpu : 1 ≤ cpuNums) (hlow : low ≠ 0)
    (bindsig : Bool) :
    let pinfo := threadInfoInit cpuNums heap low high bindsig
    0 ≤ pinfo.lowTh ∧ pinfo.lowTh ≤ pinfo.highTh ∧ pinfo.highTh < cpuNums := by
  simp only [threadInfoInit]
  split_ifs <;> omega

theorem threadInfoInit_zero (hcpu : 1 ≤ cpuNums) (bindsig : Bool) :
    (threadInfoInit cpuNums heap 0 high bindsig).lowTh = -1 := by
  rw [threadInfoInit]
  simp only
  rw [if_neg (by omega)]
  rfl

theorem card_cpus (hlow : low ≠ 0) (bindsig : Bool) :
    (threadInfoInit cpuNums heap low high bindsig).cpus.card = rangeWidth cpuNums low high := by
  rw [ThrdInfo.cpus, Finset.card_image_of_injective _ fun a b h => by simpa using h,
    Finset.card_range, rangeWidth]
  congr 1
  simp only [threadInfoInit]
  split_ifs <;> omega

/-! ## 探す loop -/

/-- 探している途中。`i` より前の CPU を調べ終えている。 -/
structure Searched (counts : Int → Int) (low i : Int) (s : Selection) : Prop where
  best : ∀ j, low ≤ j → j < i → (s.min : Int) ≤ counts j
  found : low < i → low ≤ s.index ∧ s.index < i ∧ counts s.index = s.min
  used : ∀ j ∈ s.used, low ≤ j ∧ j < i

theorem Searched.step {counts : Int → Int} {i : Int} {s : Selection} (h : Searched counts low i s)
    (hi : low ≤ i) (hcount : 0 ≤ counts i ∧ counts i < 2 ^ 31)
    (hfirst : i = low → s.min = 0xffffffff) :
    Searched counts low (i + 1)
      (if s32ToU32 (counts i) < s.min then ⟨s32ToU32 (counts i), i, s.used ++ [i, i]⟩
        else { s with used := s.used ++ [i] }) := by
  have hu : (s32ToU32 (counts i) : Int) = counts i := by
    rw [s32ToU32_of_nonneg hcount.1 hcount.2, Int.toNat_of_nonneg hcount.1]
  have hused : ∀ j ∈ s.used, low ≤ j ∧ j < i + 1 := fun j hj => by
    have := h.used j hj
    omega
  split
  · next hlt =>
    refine ⟨fun j hlo hj => ?_, fun _ => ⟨hi, by simp, hu.symm⟩, ?_⟩
    · show (s32ToU32 (counts i) : Int) ≤ counts j
      by_cases hji : j = i
      · rw [hji, hu]
      · have := h.best j hlo (by omega)
        omega
    · simp only [List.mem_append, List.mem_cons, List.not_mem_nil, or_false, or_self]
      rintro j (hj | rfl)
      · exact hused j hj
      · omega
  · next hge =>
    have hlow : low < i := by
      by_contra hnot
      have hmin := hfirst (by omega)
      omega
    obtain ⟨h₁, h₂, h₃⟩ := h.found hlow
    refine ⟨fun j hlo hj => ?_, fun _ => ⟨h₁, by simp only; omega, h₃⟩, ?_⟩
    · show (s.min : Int) ≤ counts j
      by_cases hji : j = i
      · rw [hji]
        omega
      · exact h.best j hlo (by omega)
    · simp only [List.mem_append, List.mem_cons, List.not_mem_nil, or_false]
      rintro j (hj | rfl)
      · exact hused j hj
      · omega

theorem selectLoop_searched {counts : Int → Int} (n : Nat) {i : Int} {s : Selection}
    (h : Searched counts low i s) (hi : low ≤ i)
    (hcount : ∀ j, i ≤ j → j < i + n → 0 ≤ counts j ∧ counts j < 2 ^ 31)
    (hfirst : i = low → s.min = 0xffffffff) :
    Searched counts low (i + n) (selectLoop counts n i s) := by
  induction n generalizing i s with
  | zero => simpa [selectLoop] using h
  | succ n ih =>
    have hstep := h.step hi (hcount i (by omega) (by omega)) hfirst
    have hnext := ih hstep (by omega) (fun j hlo hj => hcount j (by omega) (by omega))
      (fun heq => by omega)
    rw [show i + ((n + 1 : Nat) : Int) = i + 1 + n by omega]
    rw [selectLoop]
    split <;> simpa [*] using hnext

/-- 数が溢れていなければ、loop は最も少ない CPU を選び、範囲の中だけを見る。 -/
theorem selectCpu_minimal (hrange : pinfo.lowTh ≤ pinfo.highTh)
    (hcount : ∀ i ∈ pinfo.cpus, 0 ≤ pinfo.threadsOnCpu i ∧ pinfo.threadsOnCpu i < 2 ^ 31) :
    LeastAt pinfo.cpus pinfo.threadsOnCpu (selectCpu pinfo).index ∧
      ∀ i ∈ (selectCpu pinfo).used, i ∈ pinfo.cpus := by
  have hn : ((pinfo.highTh + 1 - pinfo.lowTh).toNat : Int) = pinfo.highTh + 1 - pinfo.lowTh :=
    Int.toNat_of_nonneg (by omega)
  have hstart : Searched pinfo.threadsOnCpu pinfo.lowTh pinfo.lowTh ⟨0xffffffff, 0, []⟩ :=
    ⟨fun j h₁ h₂ => by omega, fun h => by omega, by simp⟩
  have hloop := selectLoop_searched (pinfo.highTh + 1 - pinfo.lowTh).toNat hstart le_rfl
    (fun j h₁ h₂ => hcount j (mem_cpus.mpr ⟨h₁, by omega⟩)) (fun _ => rfl)
  rw [hn] at hloop
  have hloop : Searched pinfo.threadsOnCpu pinfo.lowTh _ (selectCpu pinfo) := hloop
  obtain ⟨h₁, h₂, h₃⟩ := hloop.found (by omega)
  refine ⟨⟨mem_cpus.mpr ⟨h₁, by omega⟩, fun j hj => ?_⟩, fun i hi => ?_⟩
  · obtain ⟨hlo, hhi⟩ := mem_cpus.mp hj
    have hbest := hloop.best j hlo (by omega)
    exact h₃.trans_le hbest
  · obtain ⟨hlo, hhi⟩ := hloop.used i hi
    exact mem_cpus.mpr ⟨hlo, by omega⟩

/-! ## 呼び出し -/

/-- 範囲の中の数は負でなく偏らず、和は `calls` である。範囲の外は 0 である。 -/
structure Counts (pinfo : ThrdInfo) (calls : Nat) : Prop where
  nonneg : ∀ i ∈ pinfo.cpus, 0 ≤ pinfo.threadsOnCpu i
  fits : ∀ i ∈ pinfo.cpus, pinfo.threadsOnCpu i < 2 ^ 31
  total : ∑ i ∈ pinfo.cpus, pinfo.threadsOnCpu i = calls
  balanced : WithinOne pinfo.cpus pinfo.threadsOnCpu
  outside : ∀ i, 0 ≤ i → i < pinfo.cpuNums → i ∉ pinfo.cpus → pinfo.threadsOnCpu i = 0

/-- 範囲を変えない。 -/
def SameRange (pinfo pinfo' : ThrdInfo) : Prop :=
  pinfo'.cpuNums = pinfo.cpuNums ∧ pinfo'.lowTh = pinfo.lowTh ∧ pinfo'.highTh = pinfo.highTh ∧
    pinfo'.bindcpu = pinfo.bindcpu

theorem spawnThread_sameRange (pinfo : ThrdInfo) (affinity : Int) :
    SameRange pinfo (spawnThread pinfo affinity).1 := by
  unfold spawnThread
  simp only
  split_ifs <;> exact ⟨rfl, rfl, rfl, rfl⟩

theorem spawnThreads_sameRange (pinfo : ThrdInfo) (as : List Int) :
    SameRange pinfo (spawnThreads pinfo as).1 := by
  induction as generalizing pinfo with
  | nil => exact ⟨rfl, rfl, rfl, rfl⟩
  | cons affinity as ih =>
    obtain ⟨h₁, h₂, h₃, h₄⟩ := spawnThread_sameRange pinfo affinity
    obtain ⟨h₁', h₂', h₃', h₄'⟩ := ih (spawnThread pinfo affinity).1
    exact ⟨h₁'.trans h₁, h₂'.trans h₂, h₃'.trans h₃, h₄'.trans h₄⟩

theorem SameRange.cpus {pinfo pinfo' : ThrdInfo} (h : SameRange pinfo pinfo') :
    pinfo'.cpus = pinfo.cpus := by
  rw [ThrdInfo.cpus, ThrdInfo.cpus, h.2.1, h.2.2.1]

/-- affinity の設定に成功した呼び出し。 -/
theorem Counts.spawn {calls : Nat} (h : Counts pinfo calls) (hbind : pinfo.bindcpu = true)
    (hrange : pinfo.lowTh ≤ pinfo.highTh)
    (hroom : (calls : Int) < (2 ^ 31 - 1) * pinfo.cpus.card) :
    Counts (spawnThread pinfo 0).1 (calls + 1) ∧
      ∀ i ∈ (spawnThread pinfo 0).2, i ∈ pinfo.cpus := by
  obtain ⟨hmin, hused⟩ := selectCpu_minimal hrange fun i hi => ⟨h.nonneg i hi, h.fits i hi⟩
  have hnonneg := h.nonneg _ hmin.1
  have hfits := h.fits _ hmin.1
  -- 最小の数は平均を超えないので、足しても溢れない
  have hlt : pinfo.threadsOnCpu (selectCpu pinfo).index + 1 < 2 ^ 31 := by
    have hmean := card_mul_min_le hmin
    rw [h.total] at hmean
    by_contra hge
    have hmax : pinfo.threadsOnCpu (selectCpu pinfo).index = 2 ^ 31 - 1 := by omega
    rw [hmax, mul_comm] at hmean
    omega
  have hstep : spawnThread pinfo 0 =
      ({ pinfo with
          threadsOnCpu := Function.update pinfo.threadsOnCpu (selectCpu pinfo).index
            (pinfo.threadsOnCpu (selectCpu pinfo).index + 1) },
        (selectCpu pinfo).used ++ [(selectCpu pinfo).index]) := by
    have hbmod : Int.bmod (pinfo.threadsOnCpu (selectCpu pinfo).index + 1) (2 ^ 32)
        = pinfo.threadsOnCpu (selectCpu pinfo).index + 1 :=
      Int.bmod_eq_of_le (by omega) (by omega)
    simp only [spawnThread, hbind, if_true, ne_eq, not_true_eq_false, if_false, hbmod]
  have hin := hmin.1
  generalize (selectCpu pinfo).index = k at hmin hnonneg hfits hlt hstep hin
  rw [hstep]
  refine ⟨⟨fun i hi => ?_, fun i hi => ?_, ?_, h.balanced.bump hmin, fun i h₁ h₂ hi => ?_⟩,
    fun i hi => ?_⟩
  · by_cases hik : i = k
    · simp only [hik, Function.update_self]
      omega
    · simp only [Function.update_of_ne hik]
      exact h.nonneg i hi
  · by_cases hik : i = k
    · simp only [hik, Function.update_self]
      omega
    · simp only [Function.update_of_ne hik]
      exact h.fits i hi
  · refine (sum_bump hin).trans ?_
    rw [h.total]
    omega
  · have hik : i ≠ k := fun heq => hi (heq ▸ hin)
    simp only [Function.update_of_ne hik]
    exact h.outside i h₁ h₂ hi
  · rcases List.mem_append.mp hi with hi | hi
    · exact hused i hi
    · rw [List.mem_singleton.mp hi]
      exact hin

/-- affinity の設定に失敗した呼び出しは、何も変えない。 -/
theorem spawnThread_failed {affinity : Int} (hfail : affinity ≠ 0) :
    (spawnThread pinfo affinity).1 = pinfo := by
  unfold spawnThread
  simp only [hfail, ne_eq, not_false_eq_true, if_true]
  split_ifs <;> rfl

theorem spawnThread_failed_used {affinity : Int} (hfail : affinity ≠ 0) {i : Int}
    (hi : i ∈ (spawnThread pinfo affinity).2) : i ∈ (selectCpu pinfo).used := by
  unfold spawnThread at hi
  simp only [hfail, ne_eq, not_false_eq_true, if_true] at hi
  split_ifs at hi
  · exact hi
  · cases hi

/-- 呼び出しの列が守ること。 -/
theorem Counts.spawns {calls : Nat} (h : Counts pinfo calls) (hbind : pinfo.bindcpu = true)
    (hrange : pinfo.lowTh ≤ pinfo.highTh)
    (hroom : ((calls + as.count 0 : Nat) : Int) ≤ (2 ^ 31 - 1) * pinfo.cpus.card) :
    Counts (spawnThreads pinfo as).1 (calls + as.count 0) ∧
      ∀ i ∈ (spawnThreads pinfo as).2, i ∈ pinfo.cpus := by
  -- 呼び出しの列についての帰納法
  induction as generalizing pinfo calls with
  | nil => exact ⟨h, fun i hi => absurd hi List.not_mem_nil⟩
  | cons affinity as ih =>
    have hsame := spawnThread_sameRange pinfo affinity
    have hstep : Counts (spawnThread pinfo affinity).1 (calls + [affinity].count 0) ∧
        ∀ i ∈ (spawnThread pinfo affinity).2, i ∈ pinfo.cpus := by
      by_cases hok : affinity = 0
      · subst hok
        rw [List.count_cons_self] at hroom
        exact h.spawn hbind hrange (by omega)
      · rw [spawnThread_failed hok, List.count_cons_of_ne hok]
        refine ⟨h, fun i hi => ?_⟩
        exact (selectCpu_minimal hrange fun i hi => ⟨h.nonneg i hi, h.fits i hi⟩).2 i
          (spawnThread_failed_used hok hi)
    have hcount : (affinity :: as).count 0 = [affinity].count 0 + as.count 0 := by
      rw [← List.singleton_append, List.count_append]
    rw [hcount, ← Nat.add_assoc] at hroom ⊢
    obtain ⟨hcounts, hused⟩ := ih hstep.1 (hsame.2.2.2.trans hbind)
      (by rw [hsame.2.1, hsame.2.2.1]; exact hrange) (by rw [hsame.cpus]; exact hroom)
    refine ⟨hcounts, fun i hi => ?_⟩
    rcases List.mem_append.mp hi with hi | hi
    · exact hstep.2 i hi
    · rw [← hsame.cpus]
      exact hused i hi

/-! ## 数は `s32` に収まる -/

theorem spawnThread_le {affinity : Int} (h : ∀ i ∈ pinfo.cpus, pinfo.threadsOnCpu i ≤ 2 ^ 31 - 1) :
    ∀ i ∈ pinfo.cpus, (spawnThread pinfo affinity).1.threadsOnCpu i ≤ 2 ^ 31 - 1 := by
  intro i hi
  unfold spawnThread
  simp only
  split_ifs
  · exact h i hi
  · by_cases hik : i = (selectCpu pinfo).index
    · simp only [hik, Function.update_self]
      have := Int.bmod_lt (x := pinfo.threadsOnCpu (selectCpu pinfo).index + 1) (m := 2 ^ 32) (by decide)
      omega
    · simp only [Function.update_of_ne hik]
      exact h i hi
  · exact h i hi

theorem spawnThreads_le (as : List Int)
    (h : ∀ i ∈ pinfo.cpus, pinfo.threadsOnCpu i ≤ 2 ^ 31 - 1) :
    ∀ i ∈ pinfo.cpus, (spawnThreads pinfo as).1.threadsOnCpu i ≤ 2 ^ 31 - 1 := by
  induction as generalizing pinfo with
  | nil => exact h
  | cons affinity as ih =>
    have hcpus := (spawnThread_sameRange pinfo affinity).cpus
    rw [← hcpus]
    exact ih (by rw [hcpus]; exact spawnThread_le h)

/-- 範囲を決めた直後。 -/
theorem Counts.start (heap : Int → Int) (high : Int) (hcpu : 1 ≤ cpuNums) (hlow : low ≠ 0)
    (bindsig : Bool) :
    Counts (threadInfoInit cpuNums heap low high bindsig) 0 := by
  obtain ⟨h₁, h₂, h₃⟩ := threadInfoInit_range heap high hcpu hlow bindsig
  have hzero : ∀ i ∈ (threadInfoInit cpuNums heap low high bindsig).cpus,
      (threadInfoInit cpuNums heap low high bindsig).threadsOnCpu i = 0 := by
    intro i hi
    obtain ⟨hlo, hhi⟩ := mem_cpus.mp hi
    exact if_pos ⟨by omega, by omega⟩
  refine ⟨fun i hi => (hzero i hi).ge, fun i hi => ?_, Finset.sum_eq_zero hzero, ?_, ?_⟩
  · rw [hzero i hi]
    decide
  · intro i hi j hj
    rw [hzero i hi, hzero j hj]
    decide
  · intro i hlo hhi _
    exact if_pos ⟨hlo, hhi⟩

/-- **thread が正しく載るのは、`low` が 0 でなく、どの CPU の数も `s32` に収まるだけしか呼ばないときに限る。** -/
theorem placed_iff (hcpu : 1 ≤ cpuNums) (heap : Int → Int) (low high : Int) (as : List Int) :
    Placed (threadInfoInit cpuNums heap low high true) as ↔
      low ≠ 0 ∧ (as.count 0 : Int) ≤ (2 ^ 31 - 1) * rangeWidth cpuNums low high := by
  constructor
  · intro h
    have hlow : low ≠ 0 := by
      rintro rfl
      have hrange := h.range.1
      rw [threadInfoInit_zero hcpu] at hrange
      omega
    refine ⟨hlow, ?_⟩
    have hstart := Counts.start heap high hcpu hlow true
    have hle := spawnThreads_le as fun i hi => by
      have := hstart.fits i hi
      omega
    have hsum := sum_le_card_mul hle
    rw [h.total, card_cpus hlow, mul_comm] at hsum
    exact hsum
  · rintro ⟨hlow, hcalls⟩
    have hrange := threadInfoInit_range heap high hcpu hlow true
    have hstart := Counts.start heap high hcpu hlow true
    have hroom : ((0 + as.count 0 : Nat) : Int)
        ≤ (2 ^ 31 - 1) * (threadInfoInit cpuNums heap low high true).cpus.card := by
      rw [card_cpus hlow, Nat.zero_add]
      exact hcalls
    obtain ⟨hcounts, hused⟩ := hstart.spawns rfl hrange.2.1 hroom
    rw [Nat.zero_add] at hcounts
    have hsame := spawnThreads_sameRange (threadInfoInit cpuNums heap low high true) as
    refine ⟨hrange, hused, ?_, ?_, fun i h₁ h₂ hi => ?_⟩
    · rw [← hcounts.total, hsame.cpus]
    · rw [← hsame.cpus]
      exact hcounts.balanced
    · exact hcounts.outside i h₁ (by rw [hsame.1]; exact h₂) (by rw [hsame.cpus]; exact hi)

theorem placed_on_two :
    (1 : Int) ≤ 4 ∧ Placed (threadInfoInit 4 (fun _ => 0) 2 3 true) [0, 0, -1, 0] :=
  ⟨by decide, (placed_iff (by decide) _ 2 3 [0, 0, -1, 0]).mpr ⟨by decide, by decide⟩⟩

/-- `low` が 0 なら、範囲は -1 から始まる。 -/
theorem zero_low_out_of_range : ¬Placed (threadInfoInit 4 (fun _ => 0) 0 3 true) [] :=
  fun h => absurd h.range.1 (by decide)

end RecordServer.Thread
