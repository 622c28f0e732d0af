import RecordServer.MemPool.Properties.BuddyEnough
import RecordServer.MemPool.Properties.BuddyTiling

/-!
# `Alloc` はいつ失敗するか

ほかの thread が止まっているときの `Alloc` は、求める order 以上の list がどれも空のときに失敗する。block は
隣同士の両方が空くことがないので、それは、求める大きさに揃った空きがどこにも残っていないことと同じである。
細切れの空きのせいで失敗することはない。

* `Room` — 揃った所が、渡した block と重ならずに残っている
* `AllocAlone` — ほかの thread が動かない間の `Alloc` の結果
* `Inv.room_iff` — `Room` があることと、求める order 以上の空いた block があることは同じである
* `alloc_iff_room` — 番地を返すのは `Room` があるときに限り、失敗した `Alloc` は何も変えない
-/

namespace RecordServer.MemPool.Buddy

open Infra

/-- 次数 `k` に揃った `b` からの所が領域の中にあり、渡した block と重ならない。 -/
structure Room (n : Nat) (m : Machine) (k b : Nat) : Prop where
  aligned : 2 ^ k ∣ b
  inside : b + 2 ^ k ≤ n
  apart : ∀ {l c u}, Held m .client l c → Covers l c u → ¬ Covers k b u

/-- ほかの thread が動かない間に、`t` の `Alloc(l)` が `r` を返して `m'` に着く。 -/
structure AllocAlone (m : Machine) (t l : Nat) (r : Option Nat) (m' : Machine) : Prop where
  run : ∃ count, FuelRuns Enabled step m (.alloc t l :: List.replicate count (.run t)) m'
  idle : m'.thread t = .idle
  /-- 返す番地は、まだ渡していないものである。 -/
  fresh : ∀ p, r = some p → m.out p = false
  out : m'.out = match r with
    | none => m.out
    | some p => Function.update m.out p true

variable {s₀ s : BuddyMem} {m m' : Machine} {fl : Nat → List Nat} {n t k o b l : Nat}
  {as : List Act}

/-! ## 揃った空きと、空いた block -/

/-- 空いた block の中には、それより小さい次数の揃った空きがある。 -/
theorem Inv.room (h : Inv n m fl) (hb : b ∈ fl o) (hko : k ≤ o) : Room n m k b := by
  have hheld : Held m .free o b := (onList_iff h.lists).mpr hb
  have hpow : 2 ^ k ≤ 2 ^ o := Nat.pow_le_pow_right (by decide) hko
  refine ⟨dvd_of_le hko (h.tiling.aligned hheld), ?_, fun {l c u} hc hu hin => ?_⟩
  · have := h.tiling.inside hheld
    omega
  · have hcov : Covers o b u := ⟨hin.1, by have := hin.2; omega⟩
    obtain ⟨heq, -⟩ := h.tiling.disjoint hheld hc hcov hu
    exact absurd heq (by simp)

/-- 誰も途中に無ければ、揃った空きを覆うのは、それ以上の次数の一つの空いた block である。 -/
theorem Inv.exists_free (h : Inv n m fl) (hidle : ∀ t, m.thread t = .idle) (hk : k ≤ 9)
    (hroom : Room n m k b) : ∃ o c, k ≤ o ∧ c ∈ fl o := by
  have hfree : ∀ {i j c u}, Held m i j c → Covers j c u → Covers k b u → c ∈ fl j := by
    rintro (_ | _ | t) j c u hc hu hin
    · exact (onList_iff h.lists).mp hc
    · exact absurd hin (hroom.apart hc hu)
    · exact absurd hc (by simp [Held, hidle, Carries])
  have hself : Covers k b b := covers_self k b
  obtain ⟨i, o, hko, hc⟩ := h.tiling.exists_ge hroom.aligned hroom.inside
    fun j x hj hx hin hboth => by
      obtain ⟨⟨i₁, h₁⟩, i₂, h₂⟩ := hboth
      -- 隣も、揃った所の中に始まる。
      have hnest := (base_nested (k := j + 1) (m := k) hj x).2
      rw [base_eq_of_dvd hx, ← eq_base_of_covers hroom.aligned hin] at hnest
      have hpos := Nat.two_pow_pos j
      have hin' : Covers k b (x + 2 ^ j) := ⟨hin.1.trans (Nat.le_add_right x _), by
        have : 2 ^ (j + 1) = 2 ^ j + 2 ^ j := by ring
        omega⟩
      exact h.settled j x (by omega) hx
        ⟨hfree h₁ (covers_self j x) hin, hfree h₂ (covers_self j _) hin'⟩
  exact ⟨o, base o b, hko, hfree hc (covers_base o b) hself⟩

theorem Inv.room_iff (h : Inv n m fl) (hidle : ∀ t, m.thread t = .idle) (hk : k ≤ 9) :
    (∃ b, Room n m k b) ↔ ∃ o, k ≤ o ∧ fl o ≠ [] := by
  constructor
  · rintro ⟨b, hroom⟩
    obtain ⟨o, c, hko, hc⟩ := h.exists_free hidle hk hroom
    exact ⟨o, hko, List.ne_nil_of_mem hc⟩
  · rintro ⟨o, hko, hne⟩
    obtain ⟨b, hb⟩ := List.exists_mem_of_ne_nil _ hne
    exact ⟨b, h.room hb hko⟩

/-! ## 一人で進む `Alloc` -/

/-- `t` だけが進んで、呼び出しを終える。 -/
def Finishes (m : Machine) (t : Nat) (m' : Machine) : Prop :=
  ∃ count, FuelRuns Enabled step m (List.replicate count (.run t)) m' ∧ m'.thread t = .idle

theorem Finishes.of_idle (h : m.thread t = .idle) : Finishes m t m := ⟨0, .nil, h⟩

theorem Finishes.cons {m₁ : Machine} (hbusy : m.thread t ≠ .idle)
    (hstep : Converges (fun fuel => step fuel m (.run t)) m₁) (h : Finishes m₁ t m') :
    Finishes m t m' := by
  obtain ⟨count, hrun, hidle⟩ := h
  exact ⟨count + 1, .cons hbusy hstep hrun, hidle⟩

/-- 番地を返さない一手。 -/
theorem step_silent {c : BuddyCall}
    (h : ∀ fuel, (m.thread t).advance fuel m.mem = some (c, none, s)) :
    Converges (fun fuel => step fuel m (.run t)) ⟨s, Function.update m.thread t c, m.out⟩ :=
  ((Converges.pure (c, none, s)).congr h).map _

/-- 番地を返す一手。 -/
theorem step_returns {c : BuddyCall} {p : Nat}
    (h : ∀ fuel, (m.thread t).advance fuel m.mem = some (c, some p, s)) :
    Converges (fun fuel => step fuel m (.run t))
      ⟨s, Function.update m.thread t c, Function.update m.out p true⟩ :=
  ((Converges.pure (c, some p, s)).congr h).map _

/-- `o` 以上の list がどれも空なら、何も変えずに終わる。`d` は残りの order の数である。 -/
theorem finishes_empty (h : Lists m.mem 0 fl) {d : Nat} (hd : o + d = 10)
    (hempty : ∀ j, o ≤ j → fl j = []) (hthread : m.thread t = .search k o) :
    Finishes m t { m with thread := Function.update m.thread t .idle } := by
  have hbusy : m.thread t ≠ .idle := by simp [hthread]
  induction d generalizing o m with
  | zero =>
    refine .cons hbusy (step_silent fun fuel => ?_) (.of_idle (Function.update_self ..))
    rw [hthread]
    simp only [BuddyCall.advance]
    rw [if_neg (by omega)]
  | succ d ih =>
    have hnone : m.mem.takeFirst o = (none, m.mem) := by
      rcases h.takeFirst (Nat.zero_le o) (by omega) with ⟨-, htake⟩ | ⟨pb, hpb, -⟩
      · exact htake
      · rw [hempty o le_rfl] at hpb
        exact absurd hpb List.not_mem_nil
    have hadv : ∀ fuel, (m.thread t).advance fuel m.mem =
        some (.search k (o + 1), none, m.mem) := fun fuel => by
      rw [hthread]
      simp only [BuddyCall.advance, hnone]
      rw [if_pos (by omega)]
    have hrest := ih (m := ⟨m.mem, Function.update m.thread t (.search k (o + 1)), m.out⟩) h
      (by omega) (fun j hj => hempty j (by omega)) (Function.update_self ..)
      (by simp [Function.update_self])
    rw [Function.update_idem] at hrest
    exact .cons hbusy (step_silent hadv) hrest

/-- 取った block を求める order まで分け、その番地を返す。 -/
theorem finishes_split {d pb : Nat} (hthread : m.thread t = .split k (k + d) pb) :
    ∃ s', Finishes m t ⟨s', Function.update m.thread t .idle,
      Function.update m.out (m.mem.data pb) true⟩ := by
  have hbusy : m.thread t ≠ .idle := by simp [hthread]
  induction d generalizing m with
  | zero =>
    refine ⟨_, .cons hbusy (step_returns (s := m.mem.modifyBlock pb fun b => { b with freeArea := k })
      fun fuel => ?_) (.of_idle (Function.update_self ..))⟩
    rw [hthread]
    simp only [BuddyCall.advance]
    rw [if_neg (by omega)]
  | succ d ih =>
    have hadv : ∀ fuel, (m.thread t).advance fuel m.mem =
        some (.split k (k + d) pb, none, m.mem.degrade pb (k + d)) := fun fuel => by
      rw [hthread]
      simp only [BuddyCall.advance]
      rw [if_pos (by omega)]
      rfl
    have hlayout : BuddyMem.SameLayout m.mem (m.mem.degrade pb (k + d)) := by
      rw [BuddyMem.degrade_eq]
      exact BuddyMem.insertFree_layout _ _ _
    obtain ⟨s', hrest⟩ := ih
      (m := ⟨m.mem.degrade pb (k + d), Function.update m.thread t (.split k (k + d) pb), m.out⟩)
      (Function.update_self ..) (by simp [Function.update_self])
    rw [Function.update_idem, data_layout hlayout] at hrest
    exact ⟨s', .cons hbusy (step_silent hadv) hrest⟩

/-- 空でない list があれば、その先頭の block から番地を返す。 -/
theorem finishes_found (h : Lists m.mem 0 fl) {d : Nat} (hd : o + d = 10) (hko : k ≤ o)
    (hne : ∃ j, o ≤ j ∧ fl j ≠ []) (hthread : m.thread t = .search k o) :
    ∃ s' j pb, pb ∈ fl j ∧ Finishes m t ⟨s', Function.update m.thread t .idle,
      Function.update m.out (m.mem.data pb) true⟩ := by
  have hbusy : m.thread t ≠ .idle := by simp [hthread]
  induction d generalizing o m with
  | zero =>
    obtain ⟨j, hj, hne⟩ := hne
    obtain ⟨b, hb⟩ := List.exists_mem_of_ne_nil _ hne
    have := (h.range hb).2
    omega
  | succ d ih =>
    rcases h.takeFirst (Nat.zero_le o) (by omega) with ⟨hnil, htake⟩ | ⟨pb, hpb, htake⟩
    · have hadv : ∀ fuel, (m.thread t).advance fuel m.mem =
          some (.search k (o + 1), none, m.mem) := fun fuel => by
        rw [hthread]
        simp only [BuddyCall.advance, htake]
        rw [if_pos (by omega)]
      have hne' : ∃ j, o + 1 ≤ j ∧ fl j ≠ [] := by
        obtain ⟨j, hj, hne⟩ := hne
        rcases Nat.eq_or_lt_of_le hj with rfl | hlt
        · exact absurd hnil hne
        · exact ⟨j, hlt, hne⟩
      obtain ⟨s', j, pb, hpb, hrest⟩ := ih
        (m := ⟨m.mem, Function.update m.thread t (.search k (o + 1)), m.out⟩) h
        (by omega) (by omega) hne' (Function.update_self ..) (by simp [Function.update_self])
      rw [Function.update_idem] at hrest
      exact ⟨s', j, pb, hpb, .cons hbusy (step_silent hadv) hrest⟩
    · have hadv : ∀ fuel, (m.thread t).advance fuel m.mem =
          some (.split k o pb, none, m.mem.removeFree pb o pb) := fun fuel => by
        rw [hthread]
        simp only [BuddyCall.advance, htake]
        rw [if_pos (by omega)]
      obtain ⟨d', rfl⟩ := Nat.exists_eq_add_of_le hko
      obtain ⟨s', hrest⟩ := finishes_split (t := t)
        (m := ⟨m.mem.removeFree pb (k + d') pb,
          Function.update m.thread t (.split k (k + d') pb), m.out⟩) (Function.update_self ..)
      rw [Function.update_idem, data_layout (BuddyMem.removeFree_layout _ _ _)] at hrest
      exact ⟨s', k + d', pb, hpb, .cons hbusy (step_silent hadv) hrest⟩

/-! ## 失敗する条件 -/

/-- 誰も途中に無い状態で入った `Alloc` は、終わったところの状態で言える。 -/
theorem Finishes.allocAlone {r : Option Nat} (hidle : m.thread t = .idle)
    (h : Finishes { m with thread := Function.update m.thread t (.ofAlloc m.mem l) } t m')
    (hfresh : ∀ p, r = some p → m.out p = false)
    (hout : m'.out = match r with
      | none => m.out
      | some p => Function.update m.out p true) : AllocAlone m t l r m' := by
  obtain ⟨count, hrun, hend⟩ := h
  exact ⟨⟨count, .cons hidle (.pure _) hrun⟩, hend, hfresh, hout⟩

theorem update_idle {f : Nat → BuddyCall} (h : f t = .idle) : Function.update f t .idle = f := by
  rw [← h, Function.update_eq_self]

/--
**一人で進む `Alloc` が番地を返すのは、求める大きさに揃った空きが残っているときに限る。**

ほかの thread がどれも呼び出しの途中に無い、どの状態でも成り立つ。失敗した `Alloc` は何も変えない。
-/
theorem alloc_iff_room (hlen : l < 2 ^ 32) (hinit : s₀.initBuddyMem b l = some s)
    (hrun : FuelRuns Enabled step (.init s) as m) (hidle : ∀ t, m.thread t = .idle)
    (t len : Nat) : ∃ r m', AllocAlone m t len r m' ∧ (r = none → m' = m) ∧
      (r ≠ none ↔ m.mem.allocOrder len ≤ 9 ∧
        ∃ c, Room ((b + l - s.blockStart) / 64) m (m.mem.allocOrder len) c) := by
  obtain ⟨fl₀, hcarved⟩ := carved_of_init hlen hinit
  obtain ⟨fl, h⟩ := (Inv.init hcarved).runs hrun
  let entered : Machine := { m with thread := Function.update m.thread t (.ofAlloc m.mem len) }
  have henter : ∀ {c}, BuddyCall.ofAlloc m.mem len = c → entered.thread t = c :=
    fun hc => (Function.update_self ..).trans hc
  rcases Nat.lt_or_ge 9 (m.mem.allocOrder len) with hbig | hk
  · -- 求める order が大き過ぎれば、list を見ずに断る。
    have hcall : BuddyCall.ofAlloc m.mem len = .idle := by simp [BuddyCall.ofAlloc, hbig]
    refine ⟨none, _, Finishes.allocAlone (hidle t) (.of_idle (henter hcall)) (by simp) rfl,
      fun _ => ?_, by simp [Nat.not_le.mpr hbig]⟩
    rw [hcall, update_idle (hidle t)]
  have hcall : BuddyCall.ofAlloc m.mem len =
      .search (m.mem.allocOrder len) (m.mem.allocOrder len) := by
    simp [BuddyCall.ofAlloc, Nat.not_lt.mpr hk]
  have hroom := h.room_iff hidle hk
  by_cases hne : ∃ o, m.mem.allocOrder len ≤ o ∧ fl o ≠ []
  · obtain ⟨s', j, pb, hpb, hend⟩ := finishes_found (m := entered) h.lists
      (Nat.add_sub_of_le (by omega)) le_rfl hne (henter hcall)
    have hfree : Held m .free j pb := (onList_iff h.lists).mpr hpb
    rw [Function.update_idem] at hend
    refine ⟨some (m.mem.data pb), _, hend.allocAlone (hidle t) ?_ rfl, by simp,
      by simpa [hk] using hroom.mpr hne⟩
    rintro p ⟨rfl⟩
    exact h.not_out_of_covers hfree (covers_self j pb) (by simp)
  · have hempty : ∀ j, m.mem.allocOrder len ≤ j → fl j = [] := fun j hj =>
      by_contra fun hj' => hne ⟨j, hj, hj'⟩
    have hend := finishes_empty (m := entered) h.lists (Nat.add_sub_of_le (by omega)) hempty
      (henter hcall)
    refine ⟨none, _, hend.allocAlone (hidle t) (by simp) rfl, fun _ => ?_,
      by simpa [hk] using mt hroom.mp hne⟩
    rw [Function.update_idem, update_idle (hidle t)]

/-- 隣同士の block を分けて渡し、返させて合わせた後の `Alloc(8)`。 -/
theorem alloc_iff_room_after_merge :
    ∃ s m, sampleMem.initBuddyMem 8 4096 = some s ∧
      FuelRuns Enabled step (.init s) (splitRun ++ mergeRun) m ∧
      ∃ r m', AllocAlone m 0 8 r m' ∧ (r = none → m' = m) ∧
        (r ≠ none ↔ m.mem.allocOrder 8 ≤ 9 ∧ ∃ c, Room 52 m (m.mem.allocOrder 8) c) := by
  obtain ⟨s, m₁, m₂, hs, hstart, h₁, h₂, -, -, hquiet⟩ := split_merge_runs
  have halloc := alloc_iff_room (by decide) hs (h₁.append h₂) hquiet.1 0 8
  rw [hstart] at halloc
  exact ⟨s, m₂, hs, h₁.append h₂, halloc⟩

end RecordServer.MemPool.Buddy
