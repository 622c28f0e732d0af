import RecordServer.Base.CircleProcess
import Mathlib.Data.Fintype.Card
import Mathlib.Data.List.Induction

/-!
# listen する socket を見張る circle の数

`listenfd_inepoll_lock` には、socket が epoll に入る circle を二つまでにすると書いてある。
lock は circle ごとに別なので、他の circle を妨げない。さらに lock の返却は `lock_held` を見ず、
返した後の再取得は登録済みかどうかを見ない。

そこで、環境が circle に渡す時刻と `conns_to_unlock` の値の列に条件を置く。

* `Calm` — 一つの circle に渡される値の条件
* `Flagged` — 一つの circle の不変量。`lock_held` と `epoll_in_sign` が実際の状態を表す
* `Tracked` — 渡された値の列が、circle の状態を決める
* `listen_polling_run` — 条件を満たす run についての結論
-/

namespace RecordServer.Base

open Infra

/-! ## 環境の渡す値 -/

/-- 回の始めに読んだ時刻が `t` を過ぎている。 -/
def LoopAct.late (t : Nat) : LoopAct → Bool
  | .top stop now => !stop && t < now
  | _ => false

/-- `conns_to_unlock` を 0 以下にする。 -/
def LoopAct.unlocks : LoopAct → Bool
  | .poll n _ => n ≤ 0
  | _ => false

/-- `next_trylock_time` の初めの値が `t` の circle に渡される値の条件。 -/
structure Calm (t : Nat) (as : List LoopAct) : Prop where
  /-- 時刻が `t` を過ぎるまで、`conns_to_unlock` は正である。 -/
  early : ∀ a ∈ as.takeWhile fun a => !a.late t, a.unlocks = false
  /-- 一度 0 以下になった後は、`conns_to_unlock` は正で、時刻も `t` を過ぎない。 -/
  once : as.Pairwise fun a b => a.unlocks = true → b.unlocks = false ∧ b.late t = false

instance (t : Nat) (as : List LoopAct) : Decidable (Calm t as) :=
  decidable_of_iff (_ ∧ _) ⟨fun h => ⟨h.1, h.2⟩, fun h => ⟨h.early, h.once⟩⟩

section Calm

variable {t : Nat} {as as' : List LoopAct} {a : LoopAct}

theorem LoopAct.not_late_of_unlocks (h : a.unlocks = true) : a.late t = false := by
  cases a with
  | poll n m => rfl
  | _ => cases h

theorem Calm.initial (h : Calm t as') (hle : as <+: as') : Calm t as := by
  obtain ⟨rest, rfl⟩ := hle
  refine ⟨fun a ha => h.early a ?_, (List.pairwise_append.mp h.once).1⟩
  rw [List.takeWhile_append]
  split
  · exact List.mem_append_left _ ((List.takeWhile_subset _) ha)
  · exact ha

/-- 最後に渡された値と、それまでの値の関係。 -/
theorem Calm.last (h : Calm t (as ++ [a])) {b : LoopAct} (hb : b ∈ as) (hbu : b.unlocks = true) :
    a.unlocks = false ∧ a.late t = false :=
  (List.pairwise_append.mp h.once).2.2 b hb a (List.mem_singleton_self a) hbu

/-- `conns_to_unlock` が 0 以下になる前に、時刻は `t` を過ぎている。 -/
theorem Calm.late (h : Calm t (as ++ [a])) (ha : a.unlocks = true) :
    ∃ b ∈ as, b.late t = true := by
  by_contra hnone
  have hall : ∀ b ∈ as, (!b.late t) = true := fun b hb => by
    cases hlate : b.late t with
    | false => rfl
    | true => exact absurd ⟨b, hb, hlate⟩ hnone
  have hmem : a ∈ (as ++ [a]).takeWhile fun a => !a.late t := by
    rw [List.takeWhile_append_of_pos hall]
    simp [LoopAct.not_late_of_unlocks ha]
  rw [h.early a hmem] at ha
  cases ha

end Calm

/-! ## 一つの circle -/

/-- `lock_held` が lock を、`epoll_in_sign` が登録を表す。登録の直前だけは lock が先に取られている。 -/
structure Flagged (c : Polling) : Prop where
  locked : c.locked = true ↔ c.lockHeld = true ∨ c.pc = .register
  sign : c.registered = c.epollInSign
  register : c.pc = .register → c.lockHeld = false ∧ c.epollInSign = false
  trylock : ∀ now, c.pc = .trylock now → c.lockHeld = false
  unlock : c.pc = .unlock → c.lockHeld = true

/-- lock を返すのも、取れた lock で登録に進むのも、flag の言うとおりのときだけである。 -/
def Guarded (c : Polling) : LoopAct → Prop
  | .trylock => c.locked = false → c.epollInSign = false
  | .test => c.connsToUnlock ≤ 0 → c.lockHeld = true
  | _ => True

theorem flagged_init (connsToUnlock conns : Int) (nextTrylockTime : Nat) :
    Flagged (Polling.init false false connsToUnlock conns nextTrylockTime) := by
  constructor <;> simp [Polling.init]

/-- 検査の通る一歩は flag と実際の状態の対応を保つ。 -/
theorem flagged_step {c c' : Polling} {a : LoopAct} (hg : Guarded c a)
    (hs : c.process a = some c') (h : Flagged c) : Flagged c' := by
  obtain ⟨h1, h2, h3, h4, h5⟩ := h
  cases process_cases hs with
  | stop now hpc => constructor <;> simp_all
  | tries now hpc hheld hnow => constructor <;> simp_all
  | skips now hpc hno => constructor <;> simp_all
  | takes now hpc hfree =>
    have hsign := hg hfree
    have hheld := h4 now hpc
    constructor <;> simp_all
  | leaves now hpc hl hsign => constructor <;> simp_all
  | waits now hpc hl hsign => constructor <;> simp_all
  | register n hpc => constructor <;> simp_all
  | logout t now hpc => constructor <;> simp_all
  | poll n m hpc => constructor <;> simp_all
  | releases hpc hle =>
    have hheld := hg hle
    constructor <;> simp_all
  | keeps hpc hle => constructor <;> simp_all
  | unlock hpc => constructor <;> simp_all

/-! ## 渡された値と circle の状態 -/

/-- `past` の値を渡された circle。lock は自分だけのものなので、`trylock` は失敗せず、`logout` には来ない。 -/
structure Tracked (t : Nat) (past : List LoopAct) (c : Polling) : Prop where
  flagged : Flagged c
  next : c.nextTrylockTime = t
  held : c.lockHeld = true → c.epollInSign = true
  logout : ∀ now, c.pc ≠ .logout now
  /-- 登録に向かうのは、時刻が `t` を過ぎた後である。 -/
  engaged : (∃ a ∈ past, a.late t = true) ↔
    c.epollInSign = true ∨ c.pc = .register ∨ ∃ now, c.pc = .trylock now
  trylock : ∀ now, c.pc = .trylock now → c.epollInSign = false
  /-- 登録したまま lock を返したのは、`conns_to_unlock` が 0 以下になった後である。 -/
  released : c.epollInSign = true → c.lockHeld = false → ∃ a ∈ past, a.unlocks = true
  test : c.pc = .test → c.connsToUnlock ≤ 0 → c.lockHeld = true ∧ ∃ a ∈ past, a.unlocks = true
  unlock : c.pc = .unlock → ∃ a ∈ past, a.unlocks = true

section Tracked

variable {t : Nat} {past : List LoopAct} {c c' : Polling} {a : LoopAct}

theorem tracked_init (connsToUnlock conns : Int) (nextTrylockTime : Nat) :
    Tracked nextTrylockTime []
      (Polling.init false false connsToUnlock conns nextTrylockTime) where
  flagged := flagged_init _ _ _
  next := rfl
  held := nofun
  logout := nofun
  engaged := by simp [Polling.init]
  trylock := nofun
  released := nofun
  test := nofun
  unlock := nofun

theorem Tracked.guarded (h : Tracked t past c) (hs : c.process a = some c') : Guarded c a := by
  cases process_cases hs with
  | takes now hpc hfree => exact fun _ => h.trylock now hpc
  | leaves now hpc hl hsign => exact fun _ => h.trylock now hpc
  | waits now hpc hl hsign => exact fun _ => h.trylock now hpc
  | releases hpc hle => exact fun hle => (h.test hpc hle).1
  | keeps hpc hle => exact fun hle => (h.test hpc hle).1
  | _ => trivial

/-- 時刻も `conns_to_unlock` も渡さない一歩では、列の性質は変わらない。 -/
theorem exists_mem_concat {f : LoopAct → Bool} (ha : f a = false) :
    (∃ b ∈ past ++ [a], f b = true) ↔ ∃ b ∈ past, f b = true := by
  simp [or_and_right, exists_or, ha]

theorem exists_mem_concat_of_mem {f : LoopAct → Bool} (h : ∃ b ∈ past, f b = true) :
    ∃ b ∈ past ++ [a], f b = true := by
  obtain ⟨b, hb, hf⟩ := h
  exact ⟨b, List.mem_append_left _ hb, hf⟩

/-- `next_trylock_time` を過ぎて `trylock` へ進む circle は、まだ登録していない。 -/
theorem Tracked.sign_of_tries (h : Tracked t past c) (hcalm : Calm t (past ++ [a]))
    (hlate : a.late t = true) (hheld : c.lockHeld = false) : c.epollInSign = false := by
  by_contra hsign
  obtain ⟨b, hb, hbu⟩ := h.released (by simpa using hsign) hheld
  rw [(hcalm.last hb hbu).2] at hlate
  cases hlate

/-- `conns_to_unlock` が 0 以下になるとき、circle は lock を持っている。 -/
theorem Tracked.held_of_unlocks (h : Tracked t past c) (hcalm : Calm t (past ++ [a]))
    (ha : a.unlocks = true) (hpc : c.pc = .poll) : c.lockHeld = true := by
  have hsign : c.epollInSign = true := by simpa [hpc] using h.engaged.mp (hcalm.late ha)
  by_contra hheld
  obtain ⟨b, hb, hbu⟩ := h.released hsign (by simpa using hheld)
  rw [(hcalm.last hb hbu).1] at ha
  cases ha

/-- 穏やかな値を渡された一歩は、列と状態の対応を保つ。 -/
theorem Tracked.step (h : Tracked t past c) (hcalm : Calm t (past ++ [a]))
    (hs : c.process a = some c') : Tracked t (past ++ [a]) c' := by
  have hflagged := flagged_step (h.guarded hs) hs h.flagged
  have hprev := h
  obtain ⟨hf, hnext, hheld, hlogout, hengaged, htry, hreleased, htest, hunlock⟩ := h
  -- `trylock` に来た circle の lock は、いつも空いている。
  have hfree : ∀ now, c.pc = .trylock now → c.locked = false := fun now hpc => by
    rw [← Bool.not_eq_true, hf.locked, hf.trylock now hpc, hpc]
    simp
  -- 前に lock を返したことは、列が延びても変わらない。
  have hpast : c.epollInSign = true → c.lockHeld = false → ∃ b ∈ past ++ [a], b.unlocks = true :=
    fun h₁ h₂ => exists_mem_concat_of_mem (hreleased h₁ h₂)
  cases process_cases hs with
  | stop now hpc =>
    have hlate : (LoopAct.top true now).late t = false := rfl
    refine ⟨hflagged, hnext, hheld, nofun, ?_, nofun, hpast, nofun, nofun⟩
    rw [exists_mem_concat hlate, hengaged]
    simp [hpc]
  | tries now hpc hno hnow =>
    have hlate : (LoopAct.top false now).late t = true := by simpa [LoopAct.late, hnext] using hnow
    have hsign := hprev.sign_of_tries hcalm hlate hno
    refine ⟨hflagged, hnext, hheld, nofun, ?_, fun _ _ => hsign, hpast, nofun, nofun⟩
    exact ⟨fun _ => .inr (.inr ⟨now, rfl⟩), fun _ => ⟨_, by simp, hlate⟩⟩
  | skips now hpc hno =>
    refine ⟨hflagged, hnext, hheld, nofun, ?_, nofun, hpast, nofun, nofun⟩
    cases hlate : (LoopAct.top false now).late t with
    | false =>
      rw [exists_mem_concat hlate, hengaged]
      simp [hpc]
    | true =>
      -- 時刻が過ぎても `trylock` しないのは、lock を持っているからである。
      have hnow : now > c.nextTrylockTime := by simpa [LoopAct.late, hnext] using hlate
      have hsign : c.epollInSign = true := hheld (by
        by_contra hh
        exact hno ⟨by simpa using hh, hnow⟩)
      exact ⟨fun _ => .inl hsign, fun _ => ⟨_, by simp, hlate⟩⟩
  | takes now hpc _ =>
    refine ⟨hflagged, hnext, hheld, nofun, ?_, nofun, hpast, nofun, nofun⟩
    rw [exists_mem_concat rfl, hengaged]
    simp [hpc]
  | leaves now hpc hl _ =>
    rw [hfree now hpc] at hl
    cases hl
  | waits now hpc hl _ =>
    rw [hfree now hpc] at hl
    cases hl
  | register n hpc =>
    refine ⟨hflagged, hnext, fun _ => rfl, nofun, ?_, nofun, nofun, nofun, nofun⟩
    rw [exists_mem_concat rfl, hengaged]
    simp [hpc]
  | logout t now hpc => exact absurd hpc (hlogout now)
  | poll n m hpc =>
    refine ⟨hflagged, hnext, hheld, nofun, ?_, nofun, hpast, fun _ hle => ?_, nofun⟩
    · rw [exists_mem_concat rfl, hengaged]
      simp [hpc]
    · have hu : (LoopAct.poll n m).unlocks = true := by simpa [LoopAct.unlocks] using hle
      exact ⟨hprev.held_of_unlocks hcalm hu hpc, _, by simp, hu⟩
  | releases hpc hle =>
    refine ⟨hflagged, hnext, hheld, nofun, ?_, nofun, hpast, nofun,
      fun _ => exists_mem_concat_of_mem (htest hpc hle).2⟩
    rw [exists_mem_concat rfl, hengaged]
    simp [hpc]
  | keeps hpc hle =>
    refine ⟨hflagged, hnext, hheld, nofun, ?_, nofun, hpast, nofun, nofun⟩
    rw [exists_mem_concat rfl, hengaged]
    simp [hpc]
  | unlock hpc =>
    refine ⟨hflagged, hnext, nofun, nofun, ?_, nofun,
      fun _ _ => exists_mem_concat_of_mem (hunlock hpc), nofun, nofun⟩
    rw [exists_mem_concat rfl, hengaged]
    simp [hpc]

end Tracked

/-! ## circle たち -/

section Circles

variable {ι : Type*} [Fintype ι] [DecidableEq ι]

/-- circle `i` に渡された値。 -/
def actsOf (i : ι) (acts : List (ι × LoopAct)) : List LoopAct :=
  (acts.filter fun a => a.1 = i).map Prod.snd

omit [Fintype ι] in
theorem actsOf_concat (i : ι) (acts : List (ι × LoopAct)) (a : ι × LoopAct) :
    actsOf i (acts ++ [a]) = if a.1 = i then actsOf i acts ++ [a.2] else actsOf i acts := by
  unfold actsOf
  rw [List.filter_append, List.map_append]
  split
  · next h => simp [h]
  · next h => simp [h]

omit [Fintype ι] in
theorem actsOf_initial (i : ι) {acts acts' : List (ι × LoopAct)} (h : acts <+: acts') :
    actsOf i acts <+: actsOf i acts' := (h.filter _).map _

/-- 回の始めに、`next_trylock_time` を過ぎた時刻を読む circle。 -/
def lateCircles (t : ι → Nat) (acts : List (ι × LoopAct)) : Finset ι :=
  Finset.univ.filter fun i => ∃ a ∈ actsOf i acts, a.late (t i) = true

omit [Fintype ι] in
/-- **穏やかな値を渡された circle たちは、どれも列と状態の対応を保つ。** -/
theorem tracked_run {connsToUnlock conns : ι → Int} {t : ι → Nat} {acts : List (ι × LoopAct)}
    {cs : ι → Polling} (hcalm : ∀ i, Calm (t i) (actsOf i acts))
    (hrun : run processStep
      (fun i => Polling.init false false (connsToUnlock i) (conns i) (t i)) acts = some cs) (i : ι) :
    Tracked (t i) (actsOf i acts) (cs i) := by
  induction acts using List.reverseRecOn generalizing cs with
  | nil =>
    obtain rfl := Option.some.inj hrun
    exact tracked_init _ _ _
  | append_singleton acts a ih =>
    obtain ⟨mid, hmid, hstep⟩ := (run_concat_eq_some processStep).mp hrun
    obtain ⟨c', hc, rfl⟩ := processStep_cases hstep
    have hprev := ih (fun j => (hcalm j).initial (actsOf_initial j (List.prefix_append _ _))) hmid
    have hi := hcalm i
    rw [actsOf_concat] at hi ⊢
    by_cases hai : a.1 = i
    · subst hai
      rw [if_pos rfl] at hi ⊢
      rw [Function.update_self]
      exact hprev.step hi hc
    · rw [if_neg hai, Function.update_of_ne (Ne.symm hai)]
      exact hprev

/--
**socket を見張る circle は二つまでである。**

`next_trylock_time` を過ぎた時刻を読む circle が二つまでで、どの circle に渡される値も `Calm` なら、
途中のどの状態でも socket が epoll に入っている circle は二つ以下で、`pure_lock_unlock` を呼ぶ circle は
lock を持ち、`circle_register` を呼ぶ circle はまだ登録していない。
-/
theorem listen_polling_run (connsToUnlock conns : ι → Int) (nextTrylockTime : ι → Nat)
    (acts done : List (ι × LoopAct)) (cs : ι → Polling)
    (hcircles : (lateCircles nextTrylockTime acts).card ≤ 2)
    (hcalm : ∀ i, Calm (nextTrylockTime i) (actsOf i acts)) (hdone : done <+: acts)
    (hrun : run processStep
      (fun i => Polling.init false false (connsToUnlock i) (conns i) (nextTrylockTime i)) done
        = some cs) :
    (Finset.univ.filter fun i => (cs i).registered = true).card ≤ 2 ∧
      (∀ i, (cs i).pc = .unlock → (cs i).locked = true) ∧
      ∀ i, (cs i).pc = .register → (cs i).registered = false := by
  have h := tracked_run (fun i => (hcalm i).initial (actsOf_initial i hdone)) hrun
  refine ⟨(Finset.card_le_card fun i hi => ?_).trans hcircles, fun i hi => ?_, fun i hi => ?_⟩
  · have hsign : (cs i).epollInSign = true := by
      rw [← (h i).flagged.sign]
      simpa using hi
    obtain ⟨a, ha, hlate⟩ := (h i).engaged.mpr (.inl hsign)
    simp only [lateCircles, Finset.mem_filter, Finset.mem_univ, true_and]
    exact ⟨a, (actsOf_initial i hdone).mem ha, hlate⟩
  · exact (h i).flagged.locked.mpr (.inl ((h i).flagged.unlock hi))
  · rw [(h i).flagged.sign, ((h i).flagged.register hi).2]

/-- lock を取って socket を登録するまで。 -/
def joins (i : ι) : List (ι × LoopAct) :=
  [(i, .top false 1), (i, .trylock), (i, .register)]

end Circles

/-- 二つの circle が登録し、三つ目は時刻を待ち、一つ目が lock を返す。 -/
theorem listen_polling_two :
    ∃ cs : Fin 3 → Polling, run processStep (fun _ => Polling.init false false 0 0 0)
        (joins 0 ++ joins 1 ++
          [(2, .top false 0), (2, .poll 5 0), (2, .test), (0, .poll 0 1), (0, .test)]) = some cs ∧
      (cs 1).registered = true ∧ (cs 0).pc = .unlock ∧ (cs 0).locked = true := by
  refine ⟨_, rfl, rfl, rfl, (listen_polling_run (fun _ : Fin 3 => 0) (fun _ => 0) (fun _ => 0)
    (joins 0 ++ joins 1 ++
      [(2, .top false 0), (2, .poll 5 0), (2, .test), (0, .poll 0 1), (0, .test)])
    (joins 0 ++ joins 1 ++
      [(2, .top false 0), (2, .poll 5 0), (2, .test), (0, .poll 0 1), (0, .test)])
    _ (by decide) (by decide) (List.prefix_refl _) rfl).2.1 0 rfl⟩

/-- 三つの circle がそれぞれ自分の lock を取り、三つとも socket を登録する。一つの circle でも、lock を取らずに
返したり、lock を返した後に重ねて登録したりする。 -/
theorem three_circles_polling :
    (∃ cs : Fin 3 → Polling, run processStep (fun _ => Polling.init false false 0 0 0)
        (joins 0 ++ joins 1 ++ joins 2) = some cs ∧
      ¬(Finset.univ.filter fun i => (cs i).registered = true).card ≤ 2) ∧
    (∃ cs : Unit → Polling, run processStep (fun _ => Polling.init false false 0 0 0)
        [((), .top false 0), ((), .poll 0 0), ((), .test)] = some cs ∧
      (cs ()).pc = .unlock ∧ (cs ()).locked = false) ∧
    ∃ cs : Unit → Polling, run processStep (fun _ => Polling.init false false 0 0 0)
        (joins () ++ [((), .poll 0 1), ((), .test), ((), .unlock), ((), .top false 2),
          ((), .trylock)]) = some cs ∧
      (cs ()).pc = .register ∧ (cs ()).registered = true :=
  ⟨⟨_, rfl, by decide⟩, ⟨_, rfl, rfl, rfl⟩, _, rfl, rfl, rfl⟩

end RecordServer.Base
