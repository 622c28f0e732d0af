import RecordServer.Timer.Pass
import RecordServer.Timer.Properties.Deadline
import Mathlib.Data.List.Basic

/-!
# 一回の `pure_timer_process` は、期限の来た event をちょうど一度ずつ走らせる

期限の来た event の数が測度である。handler が新しく加える event の期限は `now` より後なので、
一回まわるたびに一つずつ減る。

* `PassSpec` — 一回の `pure_timer_process` が満たすべきこと
* `HeadSound` — loop の頭で、最も早い期限の調べが正しい
* `Holds.process` — どの頭でも `HeadSound` なら、loop は終わって `PassSpec` を満たす
* `passOk_iff` — それはちょうどそのときに限る
-/

namespace RecordServer.Timer

open Infra Datas

/-- 記録 `log` を残して `w` から `w'` に移る `pure_timer_process` が満たすべきこと。 -/
structure PassSpec (w : World) (now : Key) (log : List Fired) (w' : World) : Prop where
  /-- 期限の早い順に走る。 -/
  ordered : log.Pairwise fun a b => a.deadline ≤ b.deadline
  /-- 走るのは、入ったときに期限の来ていた event だけである。 -/
  onlyDue : ∀ f ∈ log, Pending w f.ev f.deadline ∧ f.deadline ≤ now
  /-- 同じ event は二度走らない。 -/
  once : (log.map Fired.ev).Nodup
  /-- 期限の来ていた event は、先に走った handler に消されない限り走る。 -/
  due : ∀ ev k, Pending w ev k → k ≤ now →
    (∃ before f after, log = before ++ f :: after ∧ f.ev = ev ∧
        ∀ g ∈ before, ∀ c ∈ g.calls, ¬ Deletes ev c) ∨
      (ev ∉ log.map Fired.ev ∧ ∃ g ∈ log, ∃ c ∈ g.calls, Deletes ev c)
  /-- handler に入ったとき、その event は木の外にある。 -/
  out : ∀ f ∈ log, ¬ InTree f.start.timer.prbt f.ev
  /-- 期限のまだ来ない event は、handler に消されない限り、同じ期限で残る。 -/
  later : ∀ ev k, Pending w ev k → now < k →
    (∀ g ∈ log, ∀ c ∈ g.calls, ¬ Deletes ev c) → Pending w' ev k

/-- `w` での `pure_timer_process` は終わり、`PassSpec` を満たす。 -/
def PassOk (handler : Handler) (now : Key) (w : World) : Prop :=
  ∃ log w', Converges (fun fuel => process handler now fuel 0 w) (log, w') ∧
    PassSpec w now log w'

/-- 最も早い期限と時計との距離が、縮めても正しく調べられる。 -/
def HeadSound (now : Key) (w : World) : Prop :=
  ∀ ev k, Pending w ev k → (∀ p k', Pending w p k' → k ≤ k') → InRange k.val now.val

variable {w w' w₂ w₃ : World} {rb : RBTree Entry} {now : Key} {handler : Handler} {n : Nat}
  {ev : Ptr} {log : List Fired}

/-! ## loop の一回分と残り -/

theorem process_stop (hturn : Converges (fun fuel => w.turn fuel now) (none, w')) :
    Converges (fun fuel => process handler now fuel n w) ([], w') := by
  obtain ⟨a, ha⟩ := hturn
  refine ⟨a + 1, fun fuel hfuel => ?_⟩
  obtain ⟨k, rfl⟩ : ∃ k, fuel = k + 1 := ⟨fuel - 1, by omega⟩
  simp [process, ha k (by omega)]

/-- handler に入る回では、loop の残りは handler の後の状態から始まる。 -/
theorem process_succ (hturn : Converges (fun fuel => w.turn fuel now) (some ev, w₂))
    (hcalls : Converges (fun fuel => execs fuel w₂ (handler n ev w₂)) w₃) :
    ∃ enough, ∀ fuel, enough ≤ fuel → process handler now (fuel + 1) n w =
      (process handler now fuel (n + 1) w₃).map fun out =>
        (⟨ev, w.timer.prbt.key ev, w₂, handler n ev w₂⟩ :: out.1, out.2) := by
  obtain ⟨a, ha⟩ := hturn
  obtain ⟨b, hb⟩ := hcalls
  refine ⟨max a b, fun fuel hfuel => ?_⟩
  have hb' := hb fuel (le_trans (le_max_right a b) hfuel)
  simp only at hb'
  simp [process, ha fuel (le_trans (le_max_left a b) hfuel), hb']

theorem process_fire (hturn : Converges (fun fuel => w.turn fuel now) (some ev, w₂))
    (hcalls : Converges (fun fuel => execs fuel w₂ (handler n ev w₂)) w₃)
    (hrest : Converges (fun fuel => process handler now fuel (n + 1) w₃) (log, w')) :
    Converges (fun fuel => process handler now fuel n w)
      (⟨ev, w.timer.prbt.key ev, w₂, handler n ev w₂⟩ :: log, w') := by
  obtain ⟨a, ha⟩ := process_succ hturn hcalls
  obtain ⟨b, hb⟩ := hrest
  refine ⟨max a b + 1, fun fuel hfuel => ?_⟩
  obtain ⟨k, rfl⟩ : ∃ k, fuel = k + 1 := ⟨fuel - 1, by omega⟩
  have hb' := hb k (by omega)
  simp only at hb' ⊢
  rw [ha k (by omega), hb']
  rfl

theorem process_fire_inv (hturn : Converges (fun fuel => w.turn fuel now) (some ev, w₂))
    (hcalls : Converges (fun fuel => execs fuel w₂ (handler n ev w₂)) w₃)
    (hall : Converges (fun fuel => process handler now fuel n w) (log, w')) :
    ∃ rest, log = ⟨ev, w.timer.prbt.key ev, w₂, handler n ev w₂⟩ :: rest ∧
      Converges (fun fuel => process handler now fuel (n + 1) w₃) (rest, w') := by
  obtain ⟨a, ha⟩ := process_succ hturn hcalls
  obtain ⟨b, hb⟩ := hall
  have hrest : ∀ fuel, max a b ≤ fuel → ∃ rest,
      process handler now fuel (n + 1) w₃ = some (rest, w') ∧
        ⟨ev, w.timer.prbt.key ev, w₂, handler n ev w₂⟩ :: rest = log := by
    intro fuel hfuel
    have hb' := hb (fuel + 1) (by omega)
    simp only at hb'
    rw [ha fuel (by omega)] at hb'
    obtain ⟨out, hout, heq⟩ := Option.map_eq_some_iff.mp hb'
    obtain ⟨rfl, rfl⟩ := Prod.mk.inj heq
    exact ⟨out.1, hout, rfl⟩
  obtain ⟨rest, -, rfl⟩ := hrest (max a b) le_rfl
  refine ⟨rest, rfl, max a b, fun fuel hfuel => ?_⟩
  obtain ⟨rest', hrun, heq⟩ := hrest fuel hfuel
  rw [(List.cons.inj heq).2] at hrun
  exact hrun

/-! ## 記録を一つ前に足す -/

theorem PassSpec.nil (hlate : ∀ ev k, Pending w ev k → now < k) : PassSpec w now [] w where
  ordered := .nil
  onlyDue := by simp
  once := by simp
  due ev k hp hle := absurd hle (not_le.mpr (hlate ev k hp))
  out := by simp
  later _ _ hp _ _ := hp

/--
最も早い event を走らせた後の記録から、全体の記録へ。

`w₃` の期限の来た event は、どれも `w` に `ev` のほかとしてあり、handler に消されていない。
-/
theorem PassSpec.cons {f : Fired} (hrest : PassSpec w₃ now log w')
    (hev : Pending w f.ev f.deadline) (hdue : f.deadline ≤ now)
    (hmin : ∀ p k, Pending w p k → f.deadline ≤ k) (hout : ¬ InTree f.start.timer.prbt f.ev)
    (hold : ∀ p k, Pending w₃ p k → k ≤ now →
      Pending w p k ∧ p ≠ f.ev ∧ ∀ c ∈ f.calls, ¬ Deletes p c)
    (hkeep : ∀ p k, Pending w p k → p ≠ f.ev → (∀ c ∈ f.calls, ¬ Deletes p c) → Pending w₃ p k) :
    PassSpec w now (f :: log) w' := by
  have hlog : ∀ g ∈ log, Pending w g.ev g.deadline ∧ g.ev ≠ f.ev ∧
      ∀ c ∈ f.calls, ¬ Deletes g.ev c := by
    intro g hg
    obtain ⟨hp, hle⟩ := hrest.onlyDue g hg
    exact hold g.ev g.deadline hp hle
  constructor
  · refine List.Pairwise.cons (fun g hg => ?_) hrest.ordered
    exact hmin g.ev g.deadline (hlog g hg).1
  · intro g hg
    rcases List.mem_cons.mp hg with rfl | hg
    · exact ⟨hev, hdue⟩
    · exact ⟨(hlog g hg).1, (hrest.onlyDue g hg).2⟩
  · refine List.nodup_cons.mpr ⟨fun hin => ?_, hrest.once⟩
    obtain ⟨g, hg, heq⟩ := List.mem_map.mp hin
    exact (hlog g hg).2.1 heq
  · intro p k hp hle
    by_cases hne : p = f.ev
    · exact .inl ⟨[], f, log, rfl, hne.symm, by simp⟩
    by_cases hdel : ∃ c ∈ f.calls, Deletes p c
    · -- 消された event は、`w₃` では期限の来た event ではないので、後でも走らない。
      refine .inr ⟨fun hin => ?_, f, by simp, hdel⟩
      obtain ⟨c, hc, hdel⟩ := hdel
      rcases List.mem_cons.mp hin with heq | hin
      · exact hne heq
      · obtain ⟨g, hg, rfl⟩ := List.mem_map.mp hin
        exact (hlog g hg).2.2 c hc hdel
    · have hnot : ∀ c ∈ f.calls, ¬ Deletes p c := fun c hc hd => hdel ⟨c, hc, hd⟩
      rcases hrest.due p k (hkeep p k hp hne hnot) hle with
        ⟨before, g, after, rfl, hg, hbefore⟩ | ⟨hnin, g, hg, hgdel⟩
      · refine .inl ⟨f :: before, g, after, rfl, hg, fun x hx => ?_⟩
        rcases List.mem_cons.mp hx with rfl | hx
        · exact hnot
        · exact hbefore x hx
      · refine .inr ⟨fun hin => ?_, g, List.mem_cons_of_mem _ hg, hgdel⟩
        rcases List.mem_cons.mp hin with heq | hin
        · exact hne heq
        · exact hnin hin
  · intro g hg
    rcases List.mem_cons.mp hg with rfl | hg
    · exact hout
    · exact hrest.out g hg
  · intro p k hp hlt hnot
    have hne : p ≠ f.ev := by
      rintro rfl
      rw [hp.unique hev] at hlt
      exact absurd hdue (not_le.mpr hlt)
    refine hrest.later p k (hkeep p k hp hne (hnot f (by simp))) hlt fun g hg => ?_
    exact hnot g (List.mem_cons_of_mem _ hg)

/-! ## loop の全体 -/

section Whole

variable {w₀ : World} (hlaw : ∀ n ev w, Lawful w (handler n ev w))

include hlaw

/-- handler に入る一回分。外した event のほかは、handler に消されない限り残る。 -/
theorem Holds.fire {Q : Key → Prop} (hadds : ∀ n ev w, ∀ c ∈ handler n ev w, Adds Q c)
    (h : Holds w rb) {e : Entry} {rb₂ : RBTree Entry} (h₂ : Holds w₂ rb₂)
    (hmem : ∀ x, x ∈ rb₂.toList ↔ x ∈ rb.toList ∧ x.ptr ≠ e.ptr) :
    ∃ w₃ rb₃, Converges (fun fuel => Timer.execs fuel w₂ (handler n e.ptr w₂)) w₃ ∧
      Holds w₃ rb₃ ∧ ¬ InTree w₂.timer.prbt e.ptr ∧
      (∀ p k, Pending w₃ p k → ¬ Q k →
        Pending w p k ∧ p ≠ e.ptr ∧ ∀ c ∈ handler n e.ptr w₂, ¬ Deletes p c) ∧
      ∀ p k, Pending w p k → p ≠ e.ptr → (∀ c ∈ handler n e.ptr w₂, ¬ Deletes p c) →
        Pending w₃ p k := by
  obtain ⟨w₃, rb₃, hrun, h₃, hkeep, hold⟩ := h₂.execs (hlaw n e.ptr w₂) (hadds n e.ptr w₂)
  refine ⟨w₃, rb₃, hrun, h₃, ?_, fun p k hp hQ => ?_, fun p k hp hne hnot => ?_⟩
  · rw [inTree_iff h₂.valid.shows]
    intro hin
    obtain ⟨x, hx, heq⟩ := List.mem_map.mp hin
    exact ((hmem x).mp hx).2 heq
  · obtain ⟨hp₂, hnot⟩ := hold p k hp hQ
    obtain ⟨hin, hne⟩ := (hmem _).mp (h₂.pending_iff.mp hp₂)
    exact ⟨h.pending_iff.mpr hin, hne, hnot⟩
  · exact hkeep p k (h₂.pending_iff.mpr ((hmem _).mpr ⟨h.pending_iff.mp hp, hne⟩)) hnot

/--
**どの頭でも調べが正しければ、loop は終わり、期限の来た event をちょうど走らせる。**

`due` は期限の来た event を含む列で、その長さについての帰納法である。
-/
theorem Holds.process (hadds : ∀ n ev w, ∀ c ∈ handler n ev w, Adds (now < ·) c)
    (hsound : ∀ n w, Heads handler now w₀ n w → HeadSound now w)
    (due : List Ptr) (h : Holds w rb) (hhead : Heads handler now w₀ n w)
    (hdue : ∀ ev k, Pending w ev k → k ≤ now → ev ∈ due) :
    ∃ log w', Converges (fun fuel => Timer.process handler now fuel n w) (log, w') ∧
      PassSpec w now log w' := by
  induction hlen : due.length using Nat.strong_induction_on generalizing due n w rb with
  | _ N ih =>
    by_cases hleaf : rb = .leaf
    · subst hleaf
      refine ⟨[], w, process_stop (h.turn_empty now), .nil fun ev k hp => ?_⟩
      simpa using h.pending_iff.mp hp
    obtain ⟨e, he, hmin, -, hlate, hfire⟩ := h.turn hleaf now
    have hp := h.pending_of_mem he
    have hmin' : ∀ p k, Pending w p k → e.key ≤ k := fun p k hp => hmin _ (h.pending_iff.mp hp)
    have htest := (s32_iff e.key now).mpr (hsound n w hhead _ _ hp hmin')
    by_cases hle : e.key ≤ now
    · obtain ⟨w₂, rb₂, hturn, h₂, -, -, hmem⟩ := hfire (htest.mpr hle)
      obtain ⟨w₃, rb₃, hcalls, h₃, hout, hold, hkeep⟩ := h.fire hlaw hadds h₂ hmem
      simp only [not_lt] at hold
      have hin : e.ptr ∈ due := hdue _ _ hp hle
      have hshort : (due.erase e.ptr).length < N := by
        have hpos := List.length_pos_of_mem hin
        rw [List.length_erase_of_mem hin]
        omega
      obtain ⟨log, w', hrest, hspec⟩ := ih _ hshort (due.erase e.ptr) h₃ (.next hhead hturn hcalls)
        (fun p k hp₃ hle₃ => by
          obtain ⟨hp₀, hne, -⟩ := hold p k hp₃ hle₃
          exact (List.mem_erase_of_ne hne).mpr (hdue p k hp₀ hle₃)) rfl
      refine ⟨_, w', process_fire hturn hcalls hrest, hspec.cons ⟨hp.1, rfl⟩ ?_ ?_ hout hold hkeep⟩
      · exact hp.2.symm ▸ hle
      · exact hp.2.symm ▸ hmin'
    · refine ⟨[], w, process_stop (hlate (mt htest.mp hle)), .nil fun p k hp => ?_⟩
      exact lt_of_lt_of_le (not_le.mp hle) (hmin' p k hp)

omit hlaw in
/-- handler に入ったなら、最も早い event を外している。 -/
theorem Holds.turn_some (h : Holds w rb)
    (hturn : Converges (fun fuel => w.turn fuel now) (some ev, w₂)) :
    ∃ e ∈ rb.toList, ev = e.ptr ∧ ∃ rb₂, Holds w₂ rb₂ ∧
      ∀ x, x ∈ rb₂.toList ↔ x ∈ rb.toList ∧ x.ptr ≠ e.ptr := by
  by_cases hleaf : rb = .leaf
  · subst hleaf
    cases congrArg Prod.fst (hturn.unique (h.turn_empty now))
  obtain ⟨e, he, -, -, hlate, hfire⟩ := h.turn hleaf now
  by_cases htest : PureTimer.s32 (e.key - now) ≤ 0
  · obtain ⟨w', rb₂, hturn', h₂, -, -, hmem⟩ := hfire htest
    obtain ⟨hev, rfl⟩ := Prod.mk.inj (hturn.unique hturn')
    exact ⟨e, he, Option.some.inj hev, rb₂, h₂, hmem⟩
  · cases congrArg Prod.fst (hturn.unique (hlate htest))

/-- 頭で木の中にある event は、入ったときから同じ期限であったか、期限が `Q` を満たす。 -/
theorem Heads.holds {Q : Key → Prop} (hadds : ∀ n ev w, ∀ c ∈ handler n ev w, Adds Q c)
    {rb₀ : RBTree Entry} (h₀ : Holds w₀ rb₀) (hhead : Heads handler now w₀ n w) :
    ∃ rb, Holds w rb ∧ ∀ p k, Pending w p k → ¬ Q k → Pending w₀ p k := by
  induction hhead with
  | start => exact ⟨rb₀, h₀, fun _ _ hp _ => hp⟩
  | next _ hturn hcalls ih =>
    obtain ⟨rb₁, h₁, hentry⟩ := ih
    obtain ⟨e, -, rfl, rb₂, h₂, hmem⟩ := h₁.turn_some hturn
    obtain ⟨w₃, rb₃, hcalls₃, h₃, -, hold, -⟩ := h₁.fire hlaw hadds h₂ hmem
    obtain rfl := hcalls.unique hcalls₃
    exact ⟨rb₃, h₃, fun p k hp hQ => hentry p k (hold p k hp hQ).1 hQ⟩

omit hlaw in
/-- 頭から後の記録は、全体の記録の後ろの部分である。 -/
theorem Heads.rest (hhead : Heads handler now w₀ n w)
    (hall : Converges (fun fuel => Timer.process handler now fuel 0 w₀) (log, w')) :
    ∃ before rest, log = before ++ rest ∧
      Converges (fun fuel => Timer.process handler now fuel n w) (rest, w') := by
  induction hhead with
  | start => exact ⟨[], log, rfl, hall⟩
  | next _ hturn hcalls ih =>
    obtain ⟨before, rest, rfl, hrest⟩ := ih
    obtain ⟨rest', rfl, hrest'⟩ := process_fire_inv hturn hcalls hrest
    exact ⟨before ++ [_], rest', List.append_cons before _ rest', hrest'⟩

/-- 調べを誤る頭では、期限の来ていない event が走る。 -/
theorem Heads.headSound (hadds : ∀ n ev w, ∀ c ∈ handler n ev w, Adds (now < ·) c)
    {rb₀ : RBTree Entry} (h₀ : Holds w₀ rb₀)
    (hnear : ∀ p k, Pending w₀ p k → k ≤ now → now.val - k.val < 2 ^ 31)
    (hok : PassOk handler now w₀) (hhead : Heads handler now w₀ n w) : HeadSound now w := by
  intro p k hp hmin
  obtain ⟨rb, h, hentry⟩ := hhead.holds hlaw hadds h₀
  simp only [not_lt] at hentry
  by_cases hle : k ≤ now
  · have hd := hnear p k (hentry p k hp hle) hle
    rw [Fin.le_def] at hle
    refine ⟨fun _ => ?_, fun hlt => absurd hlt (not_lt.mpr hle)⟩
    rw [Nat.mod_eq_of_lt (by omega)]
    omega
  by_contra hrange
  obtain ⟨log, w', hrun, hspec⟩ := hok
  obtain ⟨before, rest, rfl, hrest⟩ := hhead.rest hrun
  have hin := h.pending_iff.mp hp
  have hleaf : rb ≠ .leaf := by
    rintro rfl
    simp at hin
  obtain ⟨e, he, hleast, -, -, hfire⟩ := h.turn hleaf now
  have hkey : e.key = k :=
    le_antisymm (hleast _ hin) (hmin _ _ (h.pending_of_mem he))
  have htest : PureTimer.s32 (e.key - now) ≤ 0 := by
    by_contra htest
    rw [← s32_iff, ← hkey] at hrange
    exact hrange (iff_of_false htest (hkey ▸ hle))
  obtain ⟨w₂, rb₂, hturn, h₂, -, -, hmem⟩ := hfire htest
  obtain ⟨w₃, -, hcalls, -⟩ := h.fire hlaw hadds h₂ hmem
  obtain ⟨rest', rfl, -⟩ := process_fire_inv hturn hcalls hrest
  have hdue := (hspec.onlyDue _ (List.mem_append_right _ (List.mem_cons_self ..))).2
  rw [(h.pending_of_mem he).2, hkey] at hdue
  exact hle hdue

/-- 加える期限がどれも `now` から `2 ^ 31` 未満の所にあれば、調べを誤らない。 -/
theorem Heads.headSound_of_near
    (hadds : ∀ n ev w, ∀ c ∈ handler n ev w, Adds (fun k => now < k ∧ k.val < now.val + 2 ^ 31) c)
    {rb₀ : RBTree Entry} (h₀ : Holds w₀ rb₀)
    (hnear : ∀ p k, Pending w₀ p k → k.val < now.val + 2 ^ 31 ∧ now.val < k.val + 2 ^ 31)
    (hhead : Heads handler now w₀ n w) : HeadSound now w := by
  intro p k hp _
  obtain ⟨-, -, hentry⟩ := hhead.holds hlaw hadds h₀
  have hk : k.val < now.val + 2 ^ 31 ∧ now.val < k.val + 2 ^ 31 := by
    by_cases hQ : now < k ∧ k.val < now.val + 2 ^ 31
    · have hlt := Fin.lt_def.mp hQ.1
      exact ⟨hQ.2, by omega⟩
    · exact hnear p k (hentry p k hp hQ)
  unfold InRange
  omega

end Whole

/--
**`pure_timer_process` が期限の来た event をちょうど一度ずつ走らせて終わるのは、
どの回でも、最も早い期限と `now` の距離が `InRange` のときちょうどである。**

入ったときの期限は `now` から `2 ^ 31` 未満の所にある。handler は event を加え、消し、作り、壊す。
外れうるのは、handler が加えた event だけである。
-/
theorem passOk_iff (heap : Ptr → RbNode) (nil : Ptr) (as : List Act) (m : Machine)
    (hrun : Runs (.init heap nil) as m) (now : Key)
    (hnear : ∀ ev k, Pending m.world ev k → k.val < now.val + 2 ^ 31 ∧ now.val < k.val + 2 ^ 31)
    (handler : Handler) (hlaw : ∀ n ev w, Lawful w (handler n ev w))
    (htimely : ∀ n ev w, ∀ c ∈ handler n ev w, Timely now c) :
    PassOk handler now m.world ↔ ∀ n w, Heads handler now m.world n w → HeadSound now w := by
  obtain ⟨rb, h⟩ := Machine.holds_along_run hrun
  have hadds : ∀ n ev w, ∀ c ∈ handler n ev w, Adds (now < ·) c :=
    fun n ev w c hc => (htimely n ev w c hc).adds
  constructor
  · intro hok n w hhead
    refine hhead.headSound hlaw hadds h (fun p k hp _ => ?_) hok
    have := (hnear p k hp).2
    omega
  · intro hsound
    refine h.process hlaw hadds hsound (ptrs rb.toList) .start fun ev k hp _ => ?_
    exact List.mem_map.mpr ⟨_, h.pending_iff.mp hp, rfl⟩

/-! ## 自分を加え直す handler -/

/-- 初めの handler だけが、自分の event を加え直す。 -/
def rearm (timer clock : Key) : Handler :=
  fun n ev w => if n = 0 ∧ w.alive ev = true then [.add timer clock ev] else []

theorem rearm_lawful (timer clock : Key) (n : Nat) (ev : Ptr) (w : World) :
    Lawful w (rearm timer clock n ev w) := by
  unfold rearm
  split
  · next hcond => exact ⟨hcond.2, fun _ _ => trivial⟩
  · trivial

theorem mem_rearm {timer clock : Key} {n : Nat} {ev : Ptr} {w : World} {c : Call}
    (hc : c ∈ rearm timer clock n ev w) : c = .add timer clock ev := by
  unfold rearm at hc
  split at hc
  · exact List.mem_singleton.mp hc
  · cases hc

/-- `5` ミリ秒後の event の handler が、時計が `1006` のときに `30000` ミリ秒後へ加え直す。 -/
theorem passOk_rearm :
    ∃ m, Runs (.init blankHeap 1) [.call (.construct 2), .call (.add 5 1000 2)] m ∧
      PassOk (rearm 30000 1006) 1005 m.world := by
  obtain ⟨m, rb, hrun, -, h, hmem⟩ := runs_armed 5 1000
  have hnear : ∀ ev k, Pending m.world ev k →
      k.val < (1005 : Key).val + 2 ^ 31 ∧ (1005 : Key).val < k.val + 2 ^ 31 := by
    intro ev k hp
    obtain rfl : k = 5 + 1000 := congrArg Entry.key ((hmem _).mp (h.pending_iff.mp hp))
    decide
  refine ⟨m, hrun, (passOk_iff _ _ _ m hrun 1005 hnear _ (rearm_lawful 30000 1006) ?_).mpr ?_⟩
  · rintro n ev w c hc
    rw [mem_rearm hc]
    refine ⟨?_, ?_, ?_, ?_⟩ <;> decide
  · refine fun n w hhead => hhead.headSound_of_near (rearm_lawful 30000 1006) ?_ h hnear
    rintro n ev w c hc timer clock ev' rfl
    obtain ⟨rfl, rfl, -⟩ := Call.add.inj (mem_rearm hc)
    decide

/--
event の期限は `1005` である。時計が `1005` のときの `pure_timer_process` の中で、その handler が、
時計が `1006` のときに `2 ^ 31 - 1` ミリ秒後へ加え直すと、同じ loop の中でもう一度走る。
-/
theorem fires_again_after_rearm :
    ∃ m, Runs (.init blankHeap 1) [.call (.construct 2), .call (.add 5 1000 2)] m ∧
      (∀ n ev w, Lawful w (rearm 2147483647 1006 n ev w)) ∧
      (∀ n ev w, ∀ c ∈ rearm 2147483647 1006 n ev w, Timely 1005 c) ∧
      (∀ ev k, Pending m.world ev k → k = 1005) ∧
      ¬ PassOk (rearm 2147483647 1006) 1005 m.world := by
  obtain ⟨m, rb, hrun, -, h, hmem⟩ := runs_armed 5 1000
  have hlaw := rearm_lawful 2147483647 1006
  have htimely : ∀ n ev w, ∀ c ∈ rearm 2147483647 1006 n ev w, Timely 1005 c := by
    rintro n ev w c hc
    rw [mem_rearm hc]
    refine ⟨?_, ?_, ?_, ?_⟩ <;> decide
  have hkey : ∀ ev k, Pending m.world ev k → k = 1005 := fun ev k hp =>
    congrArg Entry.key ((hmem _).mp (h.pending_iff.mp hp))
  refine ⟨m, hrun, hlaw, htimely, hkey, fun hok => ?_⟩
  -- 一回目で event 2 を外し、handler が加え直した後の頭に着く。
  have hin : (⟨2, 5 + 1000, 2⟩ : Entry) ∈ rb.toList := (hmem _).mpr rfl
  have hne : rb ≠ .leaf := by
    rintro rfl
    simp at hin
  obtain ⟨e, he, -, -, -, hfire⟩ := h.turn hne 1005
  obtain rfl := (hmem e).mp he
  obtain ⟨w₂, rb₂, hturn, h₂, -, halive, hmem₂⟩ := hfire (by decide)
  have hal : w₂.alive 2 = true := halive ▸ (h.own _ he).1
  have hempty : ∀ x, x ∉ rb₂.toList := fun x hx =>
    ((hmem₂ x).mp hx).2 (congrArg Entry.ptr ((hmem x).mp ((hmem₂ x).mp hx).1))
  obtain ⟨w₃, rb₃, hexec, h₃, heff⟩ := h₂.exec (c := .add 2147483647 1006 2) hal
  have hcalls : Converges (fun fuel => execs fuel w₂ (rearm 2147483647 1006 0 2 w₂)) w₃ := by
    rw [show rearm 2147483647 1006 0 2 w₂ = [.add 2147483647 1006 2] from if_pos ⟨rfl, hal⟩]
    exact hexec.bind (.pure w₃)
  have hhead : Heads (rearm 2147483647 1006) 1005 m.world 1 w₃ := .next .start hturn hcalls
  have hp₃ : Pending w₃ 2 (2147483647 + 1006) := by
    refine h₃.pending_iff.mpr ((heff _).mpr (.inl ⟨rfl, fun hp => ?_⟩))
    obtain ⟨x, hx, -⟩ := List.mem_map.mp hp
    exact hempty x hx
  have hleast : ∀ p k, Pending w₃ p k → (2147483647 + 1006 : Key) ≤ k := by
    intro p k hp
    rcases (heff _).mp (h₃.pending_iff.mp hp) with ⟨heq, -⟩ | hold
    · exact (congrArg Entry.key heq).ge
    · exact absurd hold (hempty _)
  have hsound : HeadSound 1005 w₃ := by
    refine hhead.headSound hlaw (fun n ev w c hc => (htimely n ev w c hc).adds) h ?_ hok
    rintro p k hp -
    rw [hkey p k hp]
    decide
  exact absurd ((hsound 2 _ hp₃ hleast).2 (by decide)).2 (by decide)

end RecordServer.Timer
