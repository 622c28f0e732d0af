import RecordServer.Timer.Process
import Mathlib.Tactic.NormNum.Basic

/-!
# 期限と時計の比べ方

`pure_timer_process` は期限と時計の差を `s32` に縮めて調べ、`pure_find_timer` は `ul64` のまま比べる。
差が `2 ^ 31` を越えると二つは食い違い、event は早く走るか、いつまでも走らない。

* `InRange` — 縮めても正しく調べられる距離
* `OnTime` — 期限の最も早い event が、期限の来たときに限って走り、`pure_find_timer` もそれに合う
* `onTime_iff` — `OnTime` になるのは、距離が `InRange` のときちょうどである
-/

namespace RecordServer.Timer

open Infra Datas

/-- 縮めた差の正負が、期限 `k` と時計 `now` の前後と同じになる距離。 -/
def InRange (k now : Nat) : Prop :=
  (k ≤ now → (now - k) % 2 ^ 32 ≤ 2 ^ 31) ∧
    (now < k → 0 < (k - now) % 2 ^ 32 ∧ (k - now) % 2 ^ 32 < 2 ^ 31)

/-- 縮めた差の調べが正しいのは、距離が `InRange` のときちょうどである。 -/
theorem s32_iff (k now : Key) :
    (PureTimer.s32 (k - now) ≤ 0 ↔ k ≤ now) ↔ InRange k.val now.val := by
  have hval : (k - now).val = (2 ^ 64 - now.val + k.val) % 2 ^ 64 := Fin.val_sub k now
  have hn := now.isLt
  unfold PureTimer.s32 InRange
  rw [Fin.le_def, Int.bmod_def, hval]
  generalize k.val = a at *
  generalize now.val = b at *
  norm_num only at *
  by_cases hab : a ≤ b
  · omega
  · omega

/-! ## 期限の控え -/

/-- `timer` と時計の和が `ul64` に収まる。 -/
def NoWrap : Act → Prop
  | .call (.add timer clock _) => timer.val + clock.val < 2 ^ 64
  | _ => True

theorem given_lt_step {m m' : Machine} {a : Act} {fuel : Nat} (hstep : step fuel m a = some m')
    (ha : NoWrap a) (h : ∀ p, m.world.given p < 2 ^ 64) : ∀ p, m'.world.given p < 2 ^ 64 := by
  cases a with
  | call c =>
    obtain ⟨w, hexec, rfl⟩ := Option.map_eq_some_iff.mp hstep
    cases c with
    | construct ev =>
      obtain rfl := Option.some.inj hexec
      exact h
    | destroy ev =>
      obtain ⟨t, -, rfl⟩ := Option.map_eq_some_iff.mp hexec
      exact h
    | add timer clock ev =>
      obtain ⟨t, -, rfl⟩ := Option.map_eq_some_iff.mp hexec
      intro p
      show (if _ then Function.update _ _ _ else _ : Ptr → Nat) p < _
      split
      · by_cases hp : p = ev
        · subst hp
          rw [Function.update_self]
          exact ha
        · rw [Function.update_of_ne hp]
          exact h p
      · exact h p
    | delete ev =>
      obtain ⟨t, -, rfl⟩ := Option.map_eq_some_iff.mp hexec
      exact h
  | find curTime =>
    obtain ⟨r, -, rfl⟩ := Option.map_eq_some_iff.mp hstep
    exact h
  | enter now =>
    obtain rfl := Option.some.inj hstep
    exact h
  | turn =>
    cases hphase : m.phase with
    | head now =>
      simp only [step, hphase] at hstep
      obtain ⟨r, hturn, rfl⟩ := Option.map_eq_some_iff.mp hstep
      obtain ⟨r', -, rfl⟩ := Option.map_eq_some_iff.mp hturn
      exact h
    | idle => simp [step, hphase] at hstep
    | handler now => simp [step, hphase] at hstep
  | ret =>
    cases hphase : m.phase with
    | handler now =>
      simp only [step, hphase] at hstep
      obtain rfl := Option.some.inj hstep
      exact h
    | idle => simp [step, hphase] at hstep
    | head now => simp [step, hphase] at hstep

theorem given_lt_runs {m m' : Machine} {as : List Act} (hrun : Runs m as m')
    (has : ∀ a ∈ as, NoWrap a) (h : ∀ p, m.world.given p < 2 ^ 64) :
    ∀ p, m'.world.given p < 2 ^ 64 := by
  induction hrun with
  | nil => exact h
  | cons _ hstep _ ih =>
    obtain ⟨n, hn⟩ := hstep
    refine ih (fun a ha => has a (List.mem_cons_of_mem _ ha)) ?_
    exact given_lt_step (hn n le_rfl) (has _ (List.mem_cons_self ..)) h

/-! ## 走る event -/

/-- 木の中の event の、最も早い期限。 -/
def EarliestDeadline (w : World) (k : Nat) : Prop :=
  (∃ ev, InTree w.timer.prbt ev ∧ w.given ev = k) ∧ ∀ p, InTree w.timer.prbt p → k ≤ w.given p

/-- 時計が `now` の `pure_timer_process` が、まず `ev` の handler に入る。 -/
def Fires (w : World) (now : Key) (ev : Ptr) : Prop :=
  ∃ w', Converges (fun fuel => w.turn fuel now) (some ev, w')

/-- 最も早い期限が `k` の timer を、時計が `now` のときに調べた結果が正しい。 -/
structure OnTime (w : World) (now : Key) (k : Nat) : Prop where
  /-- 期限が来たときに限り、期限の最も早い event が走る。 -/
  fires : (∃ ev, w.given ev = k ∧ Fires w now ev) ↔ k ≤ now.val
  /-- `pure_find_timer` は、走る event があるときに限り `0` を、無ければ期限までの時間を返す。 -/
  find : ∃ r t, Converges (fun fuel => w.timer.pureFindTimer fuel now) (r, t) ∧
    (r = 0 ↔ ∃ ev, Fires w now ev) ∧
    ((¬ ∃ ev, Fires w now ev) → (r.val : Int) = (k : Int) - now.val)

variable {w : World} {rb : RBTree Entry}

/-- 溢れていなければ、木の節の `key` は期限そのものである。 -/
theorem Holds.key_eq (h : Holds w rb) (hlt : ∀ p, w.given p < 2 ^ 64) {e : Entry}
    (he : e ∈ rb.toList) : e.key.val = w.given e.ptr := by
  rw [h.due e he, Nat.mod_eq_of_lt (hlt e.ptr)]

/-- 溢れていなければ、最小の節の event が最も早い期限を持ち、縮めた差の符号で走るかが決まる。 -/
theorem Holds.fires_iff (h : Holds w rb) (hlt : ∀ p, w.given p < 2 ^ 64) (now : Key) {k : Nat}
    (hk : EarliestDeadline w k) :
    ∃ e ∈ rb.toList, e.key.val = k ∧ w.given e.ptr = k ∧
      Converges (fun fuel => w.timer.prbt.treeMinimumKey fuel) (e.key, some e.ptr) ∧
      ∀ ev, Fires w now ev ↔ ev = e.ptr ∧ PureTimer.s32 (e.key - now) ≤ 0 := by
  obtain ⟨⟨p, hp, rfl⟩, hmin⟩ := hk
  have hiff := inTree_iff h.valid.shows
  obtain ⟨x, hx, rfl⟩ := List.mem_map.mp ((hiff p).mp hp)
  have hne : rb ≠ .leaf := by
    rintro rfl
    simp at hx
  obtain ⟨e, he, hleast, hkey, hlate, hdue⟩ := h.turn hne now
  have hgiven : w.given e.ptr = w.given x.ptr := by
    have hle : e.key ≤ x.key := hleast x hx
    rw [Fin.le_def, h.key_eq hlt he, h.key_eq hlt hx] at hle
    exact le_antisymm hle (hmin e.ptr ((hiff _).mpr (List.mem_map.mpr ⟨e, he, rfl⟩)))
  refine ⟨e, he, (h.key_eq hlt he).trans hgiven, hgiven, hkey, fun ev => ?_⟩
  by_cases htest : PureTimer.s32 (e.key - now) ≤ 0
  · obtain ⟨w', -, hrun, -⟩ := hdue htest
    constructor
    · rintro ⟨w'', hrun'⟩
      exact ⟨Option.some.inj (congrArg Prod.fst (hrun'.unique hrun)), htest⟩
    · rintro ⟨rfl, -⟩
      exact ⟨w', hrun⟩
  · constructor
    · rintro ⟨w'', hrun'⟩
      cases congrArg Prod.fst (hrun'.unique (hlate htest))
    · rintro ⟨-, hdue'⟩
      exact absurd hdue' htest

theorem Holds.onTime_iff_inRange (h : Holds w rb) (hlt : ∀ p, w.given p < 2 ^ 64) (now : Key)
    {k : Nat} (hk : EarliestDeadline w k) : OnTime w now k ↔ InRange k now.val := by
  obtain ⟨e, -, rfl, hgiven, hkey, hfires⟩ := h.fires_iff hlt now hk
  have hsome : (∃ ev, Fires w now ev) ↔ PureTimer.s32 (e.key - now) ≤ 0 := by
    simp [hfires]
  have hfirst : (∃ ev, w.given ev = e.key.val ∧ Fires w now ev) ↔
      PureTimer.s32 (e.key - now) ≤ 0 := by
    constructor
    · rintro ⟨ev, -, hev⟩
      exact ((hfires ev).mp hev).2
    · exact fun htest => ⟨e.ptr, hgiven, (hfires _).mpr ⟨rfl, htest⟩⟩
  have hsub : now < e.key → (e.key - now).val = e.key.val - now.val :=
    fun hlt' => Fin.sub_val_of_le hlt'.le
  rw [← s32_iff]
  constructor
  · intro hon
    rw [← hfirst]
    exact hon.fires
  · intro htest
    refine ⟨hfirst.trans htest, _, _, hkey.map _, ?_, ?_⟩
    · rw [hsome, htest]
      by_cases hlate : now < e.key
      · have hne : (e.key - now).val ≠ 0 := by
          rw [hsub hlate]
          have := Fin.lt_def.mp hlate
          omega
        rw [if_pos hlate, ← not_lt]
        simpa [hlate] using fun heq => hne (congrArg Fin.val heq)
      · rw [if_neg hlate]
        simpa using hlate
    · rw [hsome, htest, not_le]
      intro hlate
      have := Fin.lt_def.mp hlate
      rw [if_pos hlate, hsub hlate]
      omega

/-- 一つだけ加えた event の期限が、最も早い期限である。 -/
theorem earliestDeadline_armed (timer clock : Key) (hwrap : timer.val + clock.val < 2 ^ 64) :
    ∃ m rb, Runs (.init blankHeap 1) [.call (.construct 2), .call (.add timer clock 2)] m ∧
      (∀ a ∈ [Act.call (.construct 2), .call (.add timer clock 2)], NoWrap a) ∧
      Holds m.world rb ∧ (∀ p, m.world.given p < 2 ^ 64) ∧
      EarliestDeadline m.world (timer.val + clock.val) := by
  obtain ⟨m, rb, hrun, -, h, hmem⟩ := runs_armed timer clock
  have has : ∀ a ∈ [Act.call (.construct 2), .call (.add timer clock 2)], NoWrap a := by
    simpa [NoWrap] using hwrap
  have hlt : ∀ p, m.world.given p < 2 ^ 64 := by
    refine given_lt_runs hrun has fun p => ?_
    simp [Machine.init, World.init]
  have hiff := inTree_iff h.valid.shows
  have he : (⟨2, timer + clock, 2⟩ : Entry) ∈ rb.toList := (hmem _).mpr rfl
  have hgiven : m.world.given 2 = timer.val + clock.val := by
    rw [← h.key_eq hlt he]
    exact (Fin.val_add timer clock).trans (Nat.mod_eq_of_lt hwrap)
  refine ⟨m, rb, hrun, has, h, hlt, ⟨2, (hiff 2).mpr (List.mem_map.mpr ⟨_, he, rfl⟩), hgiven⟩, ?_⟩
  intro p hp
  obtain ⟨x, hx, rfl⟩ := List.mem_map.mp ((hiff p).mp hp)
  rw [(hmem x).mp hx]
  exact hgiven.ge

/--
**期限の来た event がちょうど走るのは、期限と時計の距離が `InRange` のときに限る。**

新しい timer から始まるどの run の後でも、和が溢れていない限り成り立つ。
`pure_find_timer` と食い違うのも、`InRange` でないときに限る。
-/
theorem onTime_iff (heap : Ptr → RbNode) (nil : Ptr) (as : List Act) (m : Machine)
    (hrun : Runs (.init heap nil) as m) (has : ∀ a ∈ as, NoWrap a) (now : Key) (k : Nat)
    (hk : EarliestDeadline m.world k) : OnTime m.world now k ↔ InRange k now.val := by
  obtain ⟨rb, h⟩ := Machine.holds_along_run hrun
  refine h.onTime_iff_inRange (given_lt_runs hrun has ?_) now hk
  intro p
  simp [Machine.init, World.init]

theorem onTime_at_deadline :
    ∃ m, Runs (.init blankHeap 1) [.call (.construct 2), .call (.add 5 1000 2)] m ∧
      EarliestDeadline m.world 1005 ∧ OnTime m.world 1005 1005 := by
  obtain ⟨m, -, hrun, has, -, -, hk⟩ := earliestDeadline_armed 5 1000 (by decide)
  refine ⟨m, hrun, hk, (onTime_iff _ _ _ m hrun has 1005 1005 hk).mpr ?_⟩
  simp [InRange]

/-- 時計が `1000` のときに `2 ^ 31` ミリ秒後を頼んだ event が、その場で走る。 -/
theorem fires_early :
    ∃ m, Runs (.init blankHeap 1) [.call (.construct 2), .call (.add 2147483648 1000 2)] m ∧
      EarliestDeadline m.world 2147484648 ∧ (∃ ev, Fires m.world 1000 ev) ∧
      ¬ OnTime m.world 1000 2147484648 := by
  obtain ⟨m, rb, hrun, -, h, hlt, hk⟩ := earliestDeadline_armed 2147483648 1000 (by decide)
  refine ⟨m, hrun, hk, ?_, ?_⟩
  · obtain ⟨e, -, hval, -, -, hfires⟩ := h.fires_iff hlt 1000 hk
    have hkey : e.key = 2147484648 := Fin.ext hval
    exact ⟨e.ptr, (hfires _).mpr ⟨rfl, by rw [hkey]; decide⟩⟩
  · have hk' : EarliestDeadline m.world 2147484648 := hk
    rw [h.onTime_iff_inRange hlt 1000 hk']
    exact fun hrange => absurd (hrange.2 (by decide)).2 (by decide)

end RecordServer.Timer
