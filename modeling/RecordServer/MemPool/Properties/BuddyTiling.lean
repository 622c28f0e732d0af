import RecordServer.MemPool.BuddyMachine

/-!
# buddy 法の安全性と、空いた block の合流

初期化に成功した buffer の上で、幾つもの thread の `Alloc` と `Free` を、lock の中の一区切りごとに好きな
順に混ぜる。

* `Safe` — block は重ならず全体を覆い、bit は list と合い、`del_block` は頼まれた block を見つける
* `safe_along_run` — どの run の後でも `Safe` で、次の一手は必ず終わる
* `coalesced_along_run` — 隣同士が両方とも空くことはなく、全部返されれば list は初めと同じになる
-/

namespace RecordServer.MemPool.Buddy

open Infra

/-- block の番地と大きさは 64 byte を単位とし、`[0, n)` が block の領域である。 -/
structure Safe (n : Nat) (m : Machine) : Prop where
  lists : ∀ k ≤ 9, ∃ free, FreeList m.mem.block (m.mem.area k).freelist free
  /-- 渡した番地は、どれも block のものである。 -/
  out : ∀ {p}, m.out p = true → ∃ b, p = m.mem.data b
  tiling : Tiling n (Held m)
  order : ∀ {i k b}, Held m i k b → k ≤ 9
  bitmap : ∀ k ≤ 9, ∀ j, (m.mem.area k).bit j = true ↔
    Xor (OnList m.mem k (j * 2 ^ (k + 1))) (OnList m.mem k (j * 2 ^ (k + 1) + 2 ^ k))
  /-- `Free` が隣の block を外そうとすれば、`del_block` は `0` を返す。 -/
  finds : ∀ {t index freeBlock k}, m.thread t = .free 0 index freeBlock k →
    (m.mem.area k).order < 9 → k < 10 → (m.mem.setBitmap index k).1 = 0 →
    ∃ s, Converges (fun fuel => (m.mem.setBitmap index k).2.delBlock fuel
      ((index >>> (m.mem.area k).order ^^^ 1) <<< (m.mem.area k).order) k) (0, s)

variable {n b l : Nat} {m : Machine} {s₀ s : BuddyMem} {fl : Nat → List Nat} {as : List Act}

theorem Inv.safe (h : Inv n m fl) : Safe n m := by
  refine ⟨fun k hk => ⟨_, (h.lists.ok k (Nat.zero_le k) hk).list⟩, h.out, h.tiling, h.order,
    fun k hk j => ?_, fun {t index freeBlock k} hcall _ hk hret => ?_⟩
  · rw [onList_iff h.lists, onList_iff h.lists]
    exact (h.lists.ok k (Nat.zero_le k) hk).bits j
  · have hok := h.lists.ok k (Nat.zero_le k) (Nat.le_of_lt_succ hk)
    have hcarry : freeBlock = base k index := by
      have := h.calls t
      rw [hcall] at this
      exact this ⟨rfl, hk⟩
    have hb : Held m (.thread t) k (base k index) := by
      show Carries _ _ _
      rw [hcall]
      exact ⟨⟨rfl, hk⟩, rfl, hcarry.symm⟩
    have hbit : (m.mem.area k).bit (index / 2 ^ (k + 1)) = true := by
      rw [BuddyMem.setBitmap_fst hok.order] at hret
      simpa using hret
    have hbuddy := (hok.bit_iff index (h.not_mem_of_covers hb (covers_self k _) (by simp) k)).mp hbit
    rw [hok.order]
    refine ⟨_, h.lists.delBlock hbuddy rfl ?_⟩
    rw [BuddyMem.setBitmap_snd, BuddyMem.modifyArea_area, if_pos rfl, FreeArea.toggle_freelist]

theorem Inv.runs (h : Inv n m fl) {m' : Machine} (hrun : FuelRuns Enabled Buddy.step m as m') :
    ∃ fl', Inv n m' fl' :=
  hrun.invariant (I := fun m => ∃ fl, Inv n m fl)
    (fun _ _ ⟨_, h⟩ ha => by
      obtain ⟨m', fl', hconv, h'⟩ := h.step ha
      exact ⟨m', hconv, fl', h'⟩) ⟨fl, h⟩

/-- `t` の動かない run では、`t` の呼び出しは変わらない。 -/
theorem thread_of_runs {m' : Machine} {t : Nat} (hrun : FuelRuns Enabled step m as m')
    (ht : ∀ a ∈ as, a.caller ≠ some t) : m'.thread t = m.thread t := by
  induction hrun with
  | nil => rfl
  | @cons m m' m'' a as _ hconv _ ih =>
    obtain ⟨ha, has⟩ := List.forall_mem_cons.mp ht
    rw [ih has]
    obtain ⟨n, hn⟩ := hconv
    have hstep : step n m a = some m' := hn n le_rfl
    cases a with
    | alloc t' l =>
      obtain rfl := Option.some.inj hstep
      exact Function.update_of_ne (fun h => ha (congrArg some h.symm)) _ _
    | free t' p =>
      obtain rfl := Option.some.inj hstep
      exact Function.update_of_ne (fun h => ha (congrArg some h.symm)) _ _
    | run t' =>
      obtain ⟨r, -, rfl⟩ := Option.map_eq_some_iff.mp hstep
      exact Function.update_of_ne (fun h => ha (congrArg some h.symm)) _ _
    | write p u v =>
      obtain rfl := Option.some.inj hstep
      rfl

/-- 渡した番地は領域の中の block なので、有限個を調べれば足りる。 -/
theorem Safe.quiet (h : Safe n m) (hidle : ∀ t, m.thread t = .idle)
    (hout : ∀ b ∈ List.range n, m.out (m.mem.data b) = false) : Quiet m := by
  refine ⟨hidle, fun p => by_contra fun hp => ?_⟩
  obtain ⟨b, rfl⟩ := h.out (by simpa using hp)
  have hheld : Held m .client (m.mem.block b).freeArea b := ⟨by simpa using hp, rfl⟩
  have hin := h.tiling.inside hheld
  have hpos := Nat.two_pow_pos (m.mem.block b).freeArea
  exact hp (hout b (List.mem_range.mpr (by omega)))

/-! ## 二つの thread の run -/

/-- 試す memory。 -/
def sampleMem : BuddyMem :=
  ⟨0, 0, 0, 0, fun _ => ⟨none, 0, fun _ => 0⟩, fun _ => ⟨none, none, 0⟩⟩

/-- 二つの thread が `Alloc` に入り、一つの block を分けて、隣同士の block を一つずつ受け取る。 -/
def splitRun : List Act :=
  [.alloc 0 8, .alloc 1 8, .run 0, .run 0, .run 0, .run 0, .run 0, .run 1, .run 0, .run 1]

/-- 隣同士の block を一度に返す。先に bit を反転した thread が block を list に置き、後の thread が合わせる。 -/
def mergeRun : List Act :=
  [.free 0 3864, .free 1 3928, .run 0, .run 1, .run 0, .run 1, .run 1, .run 1]

/-- 分けた後と、合わせた後。 -/
theorem split_merge_runs :
    ∃ s m₁ m₂, sampleMem.initBuddyMem 8 4096 = some s ∧ s.blockStart = 768 ∧
      FuelRuns Enabled step (.init s) splitRun m₁ ∧ FuelRuns Enabled step m₁ mergeRun m₂ ∧
      ((m₁.mem.area 2).freelist = none ∧ m₁.out 3864 = true ∧ m₁.out 3928 = true) ∧
      (m₂.mem.area 2).freelist = some 48 ∧ Quiet m₂ := by
  have hrun : ((sampleMem.initBuddyMem 8 4096).bind fun s =>
      (execRun Enabled step 8 (.init s) splitRun).bind fun m₁ =>
      (execRun Enabled step 8 m₁ mergeRun).map fun m₂ =>
        decide (s.blockStart = 768 ∧
          ((m₁.mem.area 2).freelist = none ∧ m₁.out 3864 = true ∧ m₁.out 3928 = true) ∧
          ((m₂.mem.area 2).freelist = some 48 ∧ m₂.thread 0 = .idle ∧ m₂.thread 1 = .idle) ∧
          ∀ b ∈ List.range 52, m₂.out (m₂.mem.data b) = false)) = some true := by decide +kernel
  obtain ⟨s, hs, h⟩ := Option.bind_eq_some_iff.mp hrun
  obtain ⟨m₁, h₁, h⟩ := Option.bind_eq_some_iff.mp h
  obtain ⟨m₂, h₂, h⟩ := Option.map_eq_some_iff.mp h
  obtain ⟨hstart, hmid, ⟨hlist, h0, h1⟩, hout⟩ := of_decide_eq_true h
  have hrun₁ := FuelRuns.of_execRun step_steady h₁
  have hrun₂ := FuelRuns.of_execRun step_steady h₂
  refine ⟨s, m₁, m₂, hs, hstart, hrun₁, hrun₂, hmid, hlist, ?_⟩
  obtain ⟨fl₀, hcarved⟩ := carved_of_init (by decide) hs
  obtain ⟨fl, h⟩ := (Inv.init hcarved).runs (hrun₁.append hrun₂)
  rw [hstart] at h
  refine h.safe.quiet (fun t => ?_) hout
  match t with
  | 0 => exact h0
  | 1 => exact h1
  | t + 2 =>
    exact thread_of_runs (hrun₁.append hrun₂)
      (by simp [splitRun, mergeRun, Act.caller])

/-! ## 安全性 -/

/--
**どの run の後でも block は安全で、次の一手は必ず終わる。**

block の領域は、`block_start` から buffer の終わりまでにある 64 byte の単位の全部である。
-/
theorem safe_along_run (hl : l < 2 ^ 32) (hinit : s₀.initBuddyMem b l = some s)
    (hrun : FuelRuns Enabled step (.init s) as m) :
    Safe ((b + l - s.blockStart) / 64) m ∧
      ∀ a, Enabled m a → ∃ m', Converges (fun fuel => step fuel m a) m' := by
  obtain ⟨fl₀, hcarved⟩ := carved_of_init hl hinit
  obtain ⟨fl, h⟩ := (Inv.init hcarved).runs hrun
  refine ⟨h.safe, fun a ha => ?_⟩
  obtain ⟨m', -, hconv, -⟩ := h.step ha
  exact ⟨m', hconv⟩

/-- 二つの thread が隣同士の block を受け取り、その両方を返している途中。 -/
theorem safe_while_merging :
    ∃ s m, sampleMem.initBuddyMem 8 4096 = some s ∧
      FuelRuns Enabled step (.init s) (splitRun ++ mergeRun.take 4) m ∧ Safe 52 m ∧
      m.thread 0 = .free 1 48 48 1 ∧ m.thread 1 = .free 0 49 48 1 ∧
      ∃ m', Converges (fun fuel => step fuel m (.run 1)) m' := by
  have hrun : ((sampleMem.initBuddyMem 8 4096).bind fun s =>
      (execRun Enabled step 8 (.init s) (splitRun ++ mergeRun.take 4)).map fun m =>
        (s.blockStart, m.thread 0, m.thread 1)) =
      some (768, .free 1 48 48 1, .free 0 49 48 1) := by decide +kernel
  obtain ⟨s, hs, h⟩ := Option.bind_eq_some_iff.mp hrun
  obtain ⟨m, hm, h⟩ := Option.map_eq_some_iff.mp h
  simp only [Prod.mk.injEq] at h
  obtain ⟨hstart, h0, h1⟩ := h
  have hruns := FuelRuns.of_execRun step_steady hm
  obtain ⟨hsafe, hnext⟩ := safe_along_run (by decide) hs hruns
  rw [hstart] at hsafe
  exact ⟨s, m, hs, hruns, hsafe, h0, h1, hnext (.run 1) (by simp [Enabled, h1])⟩

/--
**隣同士が両方とも空くことはなく、全部返されれば、order ごとの list の中身は初期化した直後と同じである。**

前半は呼び出しの途中でも成り立つ。
-/
theorem coalesced_along_run (hl : l < 2 ^ 32) (hinit : s₀.initBuddyMem b l = some s)
    (hrun : FuelRuns Enabled step (.init s) as m) :
    (∀ k < 9, ∃ free, FreeList m.mem.block (m.mem.area k).freelist free ∧
      ∀ c, 2 ^ (k + 1) ∣ c → ¬ (c ∈ free ∧ c + 2 ^ k ∈ free)) ∧
    (Quiet m → ∀ k ≤ 9, ∃ free free₀, FreeList m.mem.block (m.mem.area k).freelist free ∧
      FreeList s.block (s.area k).freelist free₀ ∧ free.Perm free₀) := by
  obtain ⟨fl₀, hcarved⟩ := carved_of_init hl hinit
  have h₀ := Inv.init hcarved
  obtain ⟨fl, h⟩ := h₀.runs hrun
  refine ⟨fun k hk => ⟨fl k, (h.lists.ok k (Nat.zero_le k) hk.le).list, fun c hc =>
    h.settled k c hk hc⟩, fun hquiet k hk => ?_⟩
  have hlist := (h.lists.ok k (Nat.zero_le k) hk).list
  have hlist₀ := (h₀.lists.ok k (Nat.zero_le k) hk).list
  refine ⟨fl k, fl₀ k, hlist, hlist₀, (List.perm_ext_iff_of_nodup hlist.nodup hlist₀.nodup).mpr ?_⟩
  -- 持ち主はどちらも空いた list だけなので、合わせ切った敷き詰めの一意性が使える。
  have hheld : ∀ {i k b}, Held m i k b ↔ i = .free ∧ b ∈ fl k := held_quiet h.lists hquiet
  have hheld₀ : ∀ {i k b}, Held (.init s) i k b ↔ i = .free ∧ b ∈ fl₀ k :=
    held_quiet h₀.lists ⟨fun _ => rfl, fun _ => rfl⟩
  have hsettled : Settled 9 (Held m) := by
    rintro k c hk hc ⟨⟨i, hi⟩, ⟨j, hj⟩⟩
    exact h.settled k c hk hc ⟨(hheld.mp hi).2, (hheld.mp hj).2⟩
  have hsettled₀ : Settled 9 (Held (.init s)) := by
    rintro k c hk hc ⟨⟨i, hi⟩, ⟨j, hj⟩⟩
    exact h₀.settled k c hk hc ⟨(hheld₀.mp hi).2, (hheld₀.mp hj).2⟩
  intro c
  have hiff := h.tiling.unique h₀.tiling hsettled hsettled₀ h.order h₀.order k c
  simp only [hheld, hheld₀] at hiff
  simpa using hiff

/-- 分けて渡した隣同士の block が返されると、分ける前の block が list に戻る。 -/
theorem coalesced_after_merge :
    ∃ s m₁ m₂, sampleMem.initBuddyMem 8 4096 = some s ∧
      FuelRuns Enabled step (.init s) splitRun m₁ ∧ FuelRuns Enabled step m₁ mergeRun m₂ ∧
      (m₁.mem.area 2).freelist = none ∧ (m₂.mem.area 2).freelist = some 48 ∧
      ∀ k ≤ 9, ∃ free free₀, FreeList m₂.mem.block (m₂.mem.area k).freelist free ∧
        FreeList s.block (s.area k).freelist free₀ ∧ free.Perm free₀ := by
  obtain ⟨s, m₁, m₂, hs, -, h₁, h₂, ⟨hmid, -, -⟩, hend, hquiet⟩ := split_merge_runs
  exact ⟨s, m₁, m₂, hs, h₁, h₂, hmid, hend,
    (coalesced_along_run (by decide) hs (h₁.append h₂)).2 hquiet⟩

end RecordServer.MemPool.Buddy
