import RecordServer.MemPool.PureSlabPool

/-!
# 段ごとの pool の block は足りるか

段は、求める長さを header 込みの最小の block で割った商の最上位の bit である。段を一つ上げるには商が
倍になるまで待つので、最小の block の data を越える求めには、いつも小さ過ぎる段が選ばれる。

* `Sized` — 大きさが構築子の決めたとおりである
* `Serves` — 返した block の data が求めた長さ以上で、最大の段に収まる求めは断られない
* `serves_iff` — それが成り立つのは、求めが最小の段に収まるか、大き過ぎて断られるときに限る
-/

namespace RecordServer.MemPool.SlabPool

open Infra

/-- 大きさは、構築子が決めたとおりである。 -/
structure Sized (size lvl : Nat) (s : Pool) : Prop where
  mbsize : s.mbsize = (initial size lvl).mbsize
  lvl : s.lvl = lvl

theorem sized_construct {size lvl fuel : Nat} {zone : Nat → Option Int} {s : Pool}
    (h : construct fuel size lvl zone = some s) : Sized size lvl s := by
  obtain ⟨pools, -, rfl⟩ := Option.map_eq_some_iff.mp h
  exact ⟨rfl, rfl⟩

/-- どの段の大きさも `u32` に収まる。 -/
def NoOverflow (size lvl : Nat) : Prop :=
  size + 7 < 2 ^ 32 ∧ ∀ i ≤ lvl, alignU32 size 8 <<< i + sizeofMB < 2 ^ 32

/-- 段 `i` の block の data の長さ。 -/
def payload (size i : Nat) : Nat := alignU32 size 8 <<< i

/-- `l` byte の求めが満たすべきこと。 -/
structure Serves (size lvl l : Nat) : Prop where
  /-- 返した block は、選んだ段の使用中の block で、その data は `l` byte 以上である。 -/
  enough : ∀ {s : Pool} {zone p s'}, Sized size lvl s →
    Converges (fun fuel => alloc fuel s l zone) (some p, s') →
    (∃ mp ∈ s'.pmpool (allocLevel s l), p - sizeofMB ∈ mp.usedhead) ∧
      l ≤ payload size (allocLevel s l)
  /-- 最大の段の data に収まる求めは、長さのために断られることがない。 -/
  notRefused : ∀ {s : Pool}, Sized size lvl s → l ≤ payload size lvl → allocLevel s l ≤ s.lvl

variable {size lvl l : Nat} {s s' : Pool}

/-! ## 選ぶ段 -/

theorem Sized.mbsize_eq (h : Sized size lvl s) (hno : NoOverflow size lvl) {i : Nat}
    (hi : i ≤ lvl) : s.mbsize i = payload size i + 24 := by
  have hlt := hno.2 i hi
  unfold sizeofMB at hlt
  rw [h.mbsize]
  simp only [initial, payload, sizeofMB]
  rw [Nat.mod_eq_of_lt (show alignU32 size 8 <<< i < 2 ^ 32 by omega), Nat.mod_eq_of_lt hlt]

theorem Sized.allocLevel_eq (h : Sized size lvl s) (hno : NoOverflow size lvl) (l : Nat) :
    allocLevel s l = ((l + 23) / (alignU32 size 8 + 24)).log2 := by
  have h0 : s.mbsize 0 = alignU32 size 8 + 24 := by
    rw [h.mbsize_eq hno (Nat.zero_le lvl)]
    simp [payload]
  unfold allocLevel
  rw [h0, sizeofMB, show l + 24 - 1 = l + 23 by omega]
  simp only
  split
  · rfl
  · next hi => simp [Nat.eq_zero_of_not_pos hi]

/-- 商が 0 でなければ、選んだ段の data は求めより短い。 -/
theorem payload_lt {a l : Nat} (h : a < l) : a * 2 ^ ((l + 23) / (a + 24)).log2 < l := by
  have hpos : (l + 23) / (a + 24) ≠ 0 := by
    have := Nat.div_pos (show a + 24 ≤ l + 23 by omega) (by omega)
    omega
  have hlog := Nat.log2_self_le hpos
  generalize ((l + 23) / (a + 24)).log2 = k at hlog
  have hk := Nat.two_pow_pos k
  have hmul : 2 ^ k * (a + 24) ≤ l + 23 :=
    (Nat.le_div_iff_mul_le (by omega)).mp hlog
  rw [Nat.mul_add, Nat.mul_comm (2 ^ k) a] at hmul
  omega

/-- 段が `lvl` を越えるのは、商が `2 ^ (lvl + 1)` に届くときである。 -/
theorem lvl_lt_log2_iff {a l : Nat} :
    lvl < ((l + 23) / (a + 24)).log2 ↔ 2 ^ (lvl + 1) * (a + 24) ≤ l + 23 := by
  rw [← Nat.le_div_iff_mul_le (by omega)]
  by_cases h0 : (l + 23) / (a + 24) = 0
  · rw [h0]
    simp
  · exact Nat.le_log2 h0

/-! ## 返る block -/

/-- 取った block は、列のどれかの pool の使用中の block になる。 -/
theorem takeFirst_used {create : Option MP} {chain chain' : List MP} {b : Int}
    (h : takeFirst create chain = some (b, chain')) : ∃ mp ∈ chain', b ∈ mp.usedhead := by
  have htake : ∀ {p q : MP} {b : Int}, p.take = some (b, q) → b ∈ q.usedhead := by
    intro p q b hp
    unfold MP.take at hp
    split at hp
    · cases hp
    · cases hp
      simp
  fun_induction takeFirst create chain generalizing b chain' with
  | case1 => cases h
  | case2 p b' p' hp =>
    cases h
    exact ⟨p', by simp, htake hp⟩
  | case3 p hp =>
    obtain ⟨⟨b', q⟩, hq, heq⟩ := Option.map_eq_some_iff.mp h
    cases heq
    obtain ⟨q₀, -, hq⟩ := Option.bind_eq_some_iff.mp hq
    exact ⟨q, by simp, htake hq⟩
  | case4 p q rest b' p' hp =>
    cases h
    exact ⟨p', by simp, htake hp⟩
  | case5 p q rest hp ih =>
    obtain ⟨⟨b', tail⟩, htail, heq⟩ := Option.map_eq_some_iff.mp h
    cases heq
    obtain ⟨mp, hmp, hin⟩ := ih htail
    exact ⟨mp, List.mem_cons_of_mem _ hmp, hin⟩

/-- `Alloc` が block を返すのは段が `lvl` 以下のときで、その block は選んだ段の使用中の block になる。 -/
theorem alloc_some {zone : Option Int} {p : Int}
    (h : Converges (fun fuel => alloc fuel s l zone) (some p, s')) :
    allocLevel s l ≤ s.lvl ∧ ∃ mp ∈ s'.pmpool (allocLevel s l), p - sizeofMB ∈ mp.usedhead := by
  obtain ⟨n, hn⟩ := h
  have hrun := hn n le_rfl
  simp only [alloc] at hrun
  split at hrun
  · cases hrun
  · next hle =>
    obtain ⟨⟨p', s₁⟩, hmp, heq⟩ := Option.map_eq_some_iff.mp hrun
    cases heq
    obtain ⟨⟨b, chain⟩, htake, heq⟩ := Option.map_eq_some_iff.mp hmp
    cases heq
    obtain ⟨mp, hmp, hin⟩ := takeFirst_used htake
    refine ⟨by omega, mp, by simpa using hmp, by simpa using hin⟩

/-- 段が `lvl` 以下で、その段に空きがあれば、`Alloc` は block を返す。 -/
theorem alloc_of_free {b : Int} {rest : List Int} {a len : Int} (hle : allocLevel s l ≤ s.lvl)
    (hfree : s.pmpool (allocLevel s l) = [⟨a, len, b :: rest, []⟩]) :
    ∃ s', Converges (fun fuel => alloc fuel s l none) (some (b + sizeofMB), s') := by
  refine ⟨{ s with pmpool := Function.update s.pmpool (allocLevel s l) [⟨a, len, rest, [b]⟩] },
    (Converges.pure _).congr fun fuel => ?_⟩
  simp only [alloc, mpAlloc, hfree, takeFirst, MP.take, Nat.not_lt.mpr hle, if_false,
    Option.map_some]

/--
**段ごとの pool が求めに応えるのは、求めが最小の段の data に収まるか、大き過ぎて断られるときに限る。**
-/
theorem serves_iff (hno : NoOverflow size lvl) (l : Nat) :
    Serves size lvl l ↔
      l ≤ payload size 0 ∨ 2 ^ (lvl + 1) * (payload size 0 + 24) ≤ l + 23 := by
  have hzero : payload size 0 = alignU32 size 8 := by simp [payload]
  rw [hzero]
  constructor
  · intro h
    by_contra hnot
    obtain ⟨hbig, hsmall⟩ := not_or.mp hnot
    -- どの段にも空きが一つある pool
    have hs : Sized size lvl { initial size lvl with pmpool := fun _ => [⟨0, 0, [32], []⟩] } :=
      ⟨rfl, rfl⟩
    have hlevel := hs.allocLevel_eq hno l
    obtain ⟨s', hrun⟩ := alloc_of_free (l := l) (s := { initial size lvl with
      pmpool := fun _ => [⟨0, 0, [32], []⟩] }) (by
        rw [hs.lvl, hlevel]
        exact Nat.not_lt.mp (mt lvl_lt_log2_iff.mp hsmall)) rfl
    have hle := (h.enough hs hrun).2
    rw [payload, hlevel, Nat.shiftLeft_eq] at hle
    exact absurd (payload_lt (Nat.not_le.mp hbig)) (by omega)
  · intro hcond
    constructor
    · intro s zone p s' hs hrun
      obtain ⟨hle, hused⟩ := alloc_some hrun
      refine ⟨hused, ?_⟩
      rw [hs.allocLevel_eq hno, hs.lvl] at hle
      rcases hcond with hsmall | hbig
      · exact le_trans hsmall (by
          rw [payload, Nat.shiftLeft_eq]
          exact Nat.le_mul_of_pos_right _ (Nat.two_pow_pos _))
      · exact absurd (lvl_lt_log2_iff.mpr hbig) (Nat.not_lt.mpr hle)
    · intro s hs hle
      rw [hs.lvl, hs.allocLevel_eq hno, ← Nat.not_lt, lvl_lt_log2_iff]
      rw [payload, Nat.shiftLeft_eq] at hle
      have hpow := Nat.two_pow_pos lvl
      rw [Nat.pow_succ, Nat.mul_add]
      have : alignU32 size 8 * 2 ^ lvl ≤ 2 ^ lvl * 2 * alignU32 size 8 := by
        rw [Nat.mul_right_comm, Nat.mul_comm (alignU32 size 8)]
        omega
      omega

/-- 60 byte を単位とする 11 段の pool は、60 byte の求めに応える。 -/
theorem serves_unit : Serves 60 10 60 :=
  (serves_iff ⟨by decide, by decide⟩ 60).mpr (.inl (by decide))

/-! ## 構築子の作る pool -/

theorem initBlocks_mono {ul len pos : Int} {offs fuel fuel' : Nat} {bs : List Int}
    (hle : fuel ≤ fuel') (h : initBlocks ul len fuel pos offs = some bs) :
    initBlocks ul len fuel' pos offs = some bs := by
  induction fuel generalizing fuel' pos offs bs with
  | zero => cases h
  | succ fuel ih =>
    obtain ⟨k, rfl⟩ : ∃ k, fuel' = k + 1 := ⟨fuel' - 1, by omega⟩
    simp only [initBlocks] at h ⊢
    split at h
    · next hin =>
      obtain ⟨rest, hrest, rfl⟩ := Option.map_eq_some_iff.mp h
      rw [if_pos hin, ih (by omega) hrest]
      rfl
    · next hout => rwa [if_neg hout]

theorem createPool_mono {l ul fuel fuel' : Nat} {zone : Option Int} {mp : MP} (hle : fuel ≤ fuel')
    (h : createPool fuel l ul zone = some mp) : createPool fuel' l ul zone = some mp := by
  obtain ⟨a, rfl, h⟩ := Option.bind_eq_some_iff.mp h
  obtain ⟨blocks, hblocks, rfl⟩ := Option.map_eq_some_iff.mp h
  simp only [createPool, Option.bind_some, initBlocks_mono hle hblocks, Option.map_some]

/-- 作ったばかりの pool には空きがある。 -/
theorem createPool_free {l ul fuel : Nat} {zone : Option Int} {mp : MP}
    (h : createPool fuel l ul zone = some mp) : ∃ a len b rest, mp = ⟨a, len, b :: rest, []⟩ := by
  obtain ⟨a, rfl, h⟩ := Option.bind_eq_some_iff.mp h
  obtain ⟨blocks, -, rfl⟩ := Option.map_eq_some_iff.mp h
  cases blocks with
  | nil => exact ⟨_, _, _, _, rfl⟩
  | cons b rest => exact ⟨_, _, _, _, rfl⟩

theorem createPools_spec {zone : Nat → Option Int} {fuel n : Nat} {pools : Nat → List MP}
    (h : createPools fuel s zone n = some pools) :
    (∀ fuel', fuel ≤ fuel' → createPools fuel' s zone n = some pools) ∧
      ∀ i < n, ∃ a len b rest, pools i = [⟨a, len, b :: rest, []⟩] := by
  induction n generalizing pools with
  | zero => exact ⟨fun _ _ => h, by simp⟩
  | succ n ih =>
    obtain ⟨before, hbefore, h⟩ := Option.bind_eq_some_iff.mp h
    obtain ⟨mp, hmp, rfl⟩ := Option.map_eq_some_iff.mp h
    obtain ⟨hmono, hfree⟩ := ih hbefore
    refine ⟨fun fuel' hle => ?_, fun i hi => ?_⟩
    · simp only [createPools, hmono fuel' hle, Option.bind_some, createPool_mono hle hmp,
        Option.map_some]
    · rcases Nat.lt_succ_iff_lt_or_eq.mp hi with hlt | rfl
      · rw [Function.update_of_ne (Nat.ne_of_lt hlt)]
        exact hfree i hlt
      · obtain ⟨a, len, b, rest, rfl⟩ := createPool_free hmp
        exact ⟨a, len, b, rest, Function.update_self ..⟩

/-- 構築子が終われば、どの段にも空きがある。 -/
theorem construct_spec {zone : Nat → Option Int} {fuel : Nat}
    (h : construct fuel size lvl zone = some s) :
    Converges (fun fuel => construct fuel size lvl zone) s ∧
      ∀ i ≤ lvl, ∃ a len b rest, s.pmpool i = [⟨a, len, b :: rest, []⟩] := by
  obtain ⟨pools, hpools, rfl⟩ := Option.map_eq_some_iff.mp h
  obtain ⟨hmono, hfree⟩ := createPools_spec hpools
  refine ⟨⟨fuel, fun fuel' hle => ?_⟩, fun i hi => hfree i (Nat.lt_succ_of_le hi)⟩
  simp only [construct, hmono fuel' hle, Option.map_some]

/-- 60 byte を単位とする 11 段の pool を作って 100 byte を求めると、64 byte の block が返る。 -/
theorem hundred_in_sixty_four :
    ∃ s p s', Converges (fun fuel => construct fuel 60 10 fun i => some (2 ^ 20 * (i + 1))) s ∧
      Converges (fun fuel => alloc fuel s 100 none) (some p, s') ∧
      payload 60 (allocLevel s 100) = 64 ∧ ¬ Serves 60 10 100 := by
  have hno : NoOverflow 60 10 := ⟨by decide, by decide⟩
  obtain ⟨s, hs⟩ : ∃ s, construct 80 60 10 (fun i => some (2 ^ 20 * (i + 1))) = some s :=
    Option.isSome_iff_exists.mp (by decide +kernel)
  obtain ⟨hconv, hfree⟩ := construct_spec hs
  have hsized := sized_construct hs
  have hlevel : allocLevel s 100 = 0 := by
    rw [hsized.allocLevel_eq hno]
    decide
  obtain ⟨a, len, b, rest, hpool⟩ := hfree 0 (by decide)
  obtain ⟨s', hrun⟩ := alloc_of_free (l := 100) (s := s) (by rw [hlevel]; exact Nat.zero_le _)
    (by rw [hlevel, hpool])
  have hpay : payload 60 (allocLevel s 100) = 64 := by
    rw [hlevel]
    decide
  refine ⟨s, _, s', hconv, hrun, hpay, fun h => ?_⟩
  have hle := (h.enough hsized hrun).2
  rw [hpay] at hle
  exact absurd hle (by decide)

end RecordServer.MemPool.SlabPool
