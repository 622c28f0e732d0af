import RecordServer.MemPool.BuddyInit

/-!
# 幾つもの thread の `Alloc` と `Free`

lock の中の一区切りを一手として、幾つもの thread の呼び出しを好きな順に混ぜる。

* `Machine` / `Act` / `step` — 呼ぶ側が持っている番地も数える
* `Held` — 空いた list・呼ぶ側・途中の thread の誰がどの block を持つか
* `Inv` — 持ち主で見た block が全体を敷き詰め、隣同士の両方が空くことはない
* `Inv.step` — 起こりうる一手は必ず終わり、`Inv` を保つ
-/

namespace RecordServer.MemPool.Buddy

open Infra

/-- `out` は、`Alloc` が返してまだ `Free` に渡していない番地である。 -/
structure Machine where
  mem : BuddyMem
  thread : Nat → BuddyCall
  out : Nat → Bool

inductive Act where
  | alloc (t l : Nat)
  | free (t p : Nat)
  /-- 呼び出しの途中の thread が一つ進む。 -/
  | run (t : Nat)
  /-- 呼ぶ側が、持っている block の header の後ろに書く。 -/
  | write (p u : Nat) (v : BuddyBlock)

/-- 動く thread。 -/
def Act.caller : Act → Option Nat
  | .alloc t _ => some t
  | .free t _ => some t
  | .run t => some t
  | .write _ _ _ => none

/-- 返すのは持っている番地だけで、書くのは持っている block の中だけである。 -/
def Enabled (m : Machine) : Act → Prop
  | .alloc t _ => m.thread t = .idle
  | .free t p => m.thread t = .idle ∧ m.out p = true
  | .run t => m.thread t ≠ .idle
  | .write p u _ => m.out p = true ∧ m.mem.blockOf p < u ∧
      u < m.mem.blockOf p + 2 ^ (m.mem.block (m.mem.blockOf p)).freeArea

def step (fuel : Nat) (m : Machine) : Act → Option Machine
  | .alloc t l => some { m with thread := Function.update m.thread t (.ofAlloc m.mem l) }
  | .free t p => some { m with
      thread := Function.update m.thread t (.ofFree m.mem p)
      out := Function.update m.out p false }
  | .run t => ((m.thread t).advance fuel m.mem).map fun r =>
      { mem := r.2.2
        thread := Function.update m.thread t r.1
        out := match r.2.1 with
          | none => m.out
          | some p => Function.update m.out p true }
  | .write _ u v => some { m with mem := m.mem.modifyBlock u fun _ => v }

instance (m : Machine) : ∀ a, Decidable (Enabled m a)
  | .alloc t _ => inferInstanceAs (Decidable (m.thread t = .idle))
  | .free t p => inferInstanceAs (Decidable (m.thread t = .idle ∧ m.out p = true))
  | .run t => inferInstanceAs (Decidable (m.thread t ≠ .idle))
  | .write p u _ => inferInstanceAs (Decidable (m.out p = true ∧ m.mem.blockOf p < u ∧
      u < m.mem.blockOf p + 2 ^ (m.mem.block (m.mem.blockOf p)).freeArea))

/-- 初期化した直後。 -/
def Machine.init (s : BuddyMem) : Machine := ⟨s, fun _ => .idle, fun _ => false⟩

/-! ## 持ち主 -/

inductive Holder where
  | free
  | client
  | thread (t : Nat)

/-- 次数 `k` の list に `b` が載っている。 -/
def OnList (s : BuddyMem) (k b : Nat) : Prop :=
  k ≤ 9 ∧ ∃ l, FreeList s.block (s.area k).freelist l ∧ b ∈ l

/-- 途中の呼び出しが、どの list にも無い block を抱えている。 -/
def Carries : BuddyCall → Nat → Nat → Prop
  | .split _ order pb, k, b => k = order ∧ b = pb
  | .free ret _ freeBlock fa, k, b => (ret = 0 ∧ fa < 10) ∧ k = fa ∧ b = freeBlock
  | _, _, _ => False

/-- 始点 `b`・次数 `k` の block の持ち主。渡した block の次数は header で分かる。 -/
def Held (m : Machine) : Holder → Nat → Nat → Prop
  | .free, k, b => OnList m.mem k b
  | .client, k, b => m.out (m.mem.data b) = true ∧ (m.mem.block b).freeArea = k
  | .thread t, k, b => Carries (m.thread t) k b

/-- 途中の呼び出しが自分の変数について知っていること。 -/
def CallOk : BuddyCall → Prop
  | .split bitp order _ => bitp ≤ order
  | .free ret index freeBlock fa => ret = 0 ∧ fa < 10 → freeBlock = base fa index
  | .search bitp order => bitp ≤ order
  | .idle => True

structure Inv (n : Nat) (m : Machine) (fl : Nat → List Nat) : Prop where
  lists : Lists m.mem 0 fl
  tiling : Tiling n (Held m)
  settled : FreeSettled fl
  order : ∀ {i k b}, Held m i k b → k ≤ 9
  calls : ∀ t, CallOk (m.thread t)
  out : ∀ {p}, m.out p = true → ∃ b, p = m.mem.data b

section

variable {s s' : BuddyMem} {m m' : Machine} {fl : Nat → List Nat} {n t k b : Nat}

theorem onList_iff (h : Lists s 0 fl) : OnList s k b ↔ b ∈ fl k := by
  constructor
  · rintro ⟨hk, l, hl, hb⟩
    rwa [(h.ok k (Nat.zero_le k) hk).list.unique hl]
  · intro hb
    have hk := (h.range hb).2
    exact ⟨hk, fl k, (h.ok k (Nat.zero_le k) hk).list, hb⟩

theorem data_inj (s : BuddyMem) {b b' : Nat} : s.data b = s.data b' ↔ b = b' := by
  unfold BuddyMem.data
  omega

theorem blockOf_data (s : BuddyMem) (b : Nat) : s.blockOf (s.data b) = b := by
  unfold BuddyMem.blockOf BuddyMem.data
  omega

theorem data_layout (h : BuddyMem.SameLayout s s') (b : Nat) : s'.data b = s.data b := by
  unfold BuddyMem.data
  rw [h.1, h.2.1]

theorem carries_update {f : Nat → BuddyCall} {c : BuddyCall} {t' : Nat} :
    Carries (Function.update f t c t') k b ↔
      (t' = t ∧ Carries c k b) ∨ (t' ≠ t ∧ Carries (f t') k b) := by
  by_cases h : t' = t
  · subst h
    simp
  · simp [h]

theorem callOk_update {f : Nat → BuddyCall} {c : BuddyCall} (h : ∀ t, CallOk (f t))
    (hc : CallOk c) (t' : Nat) : CallOk (Function.update f t c t') := by
  by_cases ht : t' = t
  · subst ht
    rwa [Function.update_self]
  · rw [Function.update_of_ne ht]
    exact h t'

theorem out_layout (hlayout : BuddyMem.SameLayout s s') {out : Nat → Bool}
    (h : ∀ {p}, out p = true → ∃ b, p = s.data b) {p : Nat} (hp : out p = true) :
    ∃ b, p = s'.data b := by
  obtain ⟨b, rfl⟩ := h hp
  exact ⟨b, (data_layout hlayout b).symm⟩

/-- 二つの持ち主が同じ所を覆うなら、同じ block である。 -/
theorem Inv.start_of_covers (h : Inv n m fl) {i i' : Holder} {k' u : Nat} (hb : Held m i k b)
    (hu : Covers k b u) (hu' : Held m i' k' u) : i = i' ∧ k = k' ∧ b = u :=
  h.tiling.disjoint hb hu' hu ⟨le_rfl, Nat.lt_add_of_pos_right (Nat.two_pow_pos k')⟩

theorem Inv.not_mem_of_covers (h : Inv n m fl) {i : Holder} {u : Nat} (hb : Held m i k b)
    (hu : Covers k b u) (hi : i ≠ .free) (k' : Nat) : u ∉ fl k' := fun hmem =>
  hi (h.start_of_covers hb hu (show Held m .free k' u from (onList_iff h.lists).mpr hmem)).1

theorem Inv.not_out_of_covers (h : Inv n m fl) {i : Holder} {u : Nat} (hb : Held m i k b)
    (hu : Covers k b u) (hne : i = .client → b ≠ u) : m.out (m.mem.data u) = false := by
  by_contra hout
  have hu' : Held m .client (m.mem.block u).freeArea u := ⟨by simpa using hout, rfl⟩
  obtain ⟨rfl, -, heq⟩ := h.start_of_covers hb hu hu'
  exact hne rfl heq

/-- 持ち主が替わっても、block の次数は替わらない。 -/
theorem Inv.order_move (h : Inv n m fl) {i i' : Holder} (hb : Held m i k b)
    (hheld : ∀ j l c, Held m' j l c ↔
      (j = i' ∧ l = k ∧ c = b) ∨ (Held m j l c ∧ ¬ (j = i ∧ l = k ∧ c = b)))
    {j : Holder} {l c : Nat} (hj : Held m' j l c) : l ≤ 9 := by
  rcases (hheld j l c).mp hj with ⟨-, rfl, -⟩ | ⟨hj, -⟩
  · exact h.order hb
  · exact h.order hj

theorem covers_self (k b : Nat) : Covers k b b :=
  ⟨le_rfl, Nat.lt_add_of_pos_right (Nat.two_pow_pos k)⟩

/-! ## 持ち主の変わらない一手 -/

/-- 抱える block の変わらない呼び出しの動き。 -/
theorem Inv.setCall (h : Inv n m fl) {c : BuddyCall}
    (hc : ∀ k b, Carries c k b ↔ Carries (m.thread t) k b) (hok : CallOk c) :
    Inv n { m with thread := Function.update m.thread t c } fl := by
  have hheld : ∀ i k b, Held { m with thread := Function.update m.thread t c } i k b ↔
      Held m i k b := by
    rintro (_ | _ | t') k b
    · exact Iff.rfl
    · exact Iff.rfl
    · show Carries _ k b ↔ Carries _ k b
      rw [carries_update, hc]
      by_cases ht : t' = t
      · simp [ht]
      · simp [ht]
  exact ⟨h.lists, h.tiling.congr hheld, h.settled, fun hb => h.order ((hheld _ _ _).mp hb),
    callOk_update h.calls hok, h.out⟩

/-- 呼ぶ側が、持っている block の中に書く。 -/
theorem Inv.write (h : Inv n m fl) {p u : Nat} (v : BuddyBlock)
    (ha : Enabled m (.write p u v)) :
    Inv n { m with mem := m.mem.modifyBlock u fun _ => v } fl := by
  obtain ⟨hp, hlt, hlt'⟩ := ha
  obtain ⟨b, rfl⟩ := h.out hp
  rw [blockOf_data] at hlt hlt'
  have hb : Held m .client (m.mem.block b).freeArea b := ⟨hp, rfl⟩
  have hcov : Covers (m.mem.block b).freeArea b u := ⟨hlt.le, hlt'⟩
  have hfree := h.not_mem_of_covers hb hcov (by simp)
  have hout := h.not_out_of_covers hb hcov (fun _ => Nat.ne_of_lt hlt)
  have hlists : Lists (m.mem.modifyBlock u fun _ => v) 0 fl :=
    h.lists.congr rfl fun k y hy => by
      rw [BuddyMem.modifyBlock_block, if_neg (fun heq : y = u => hfree k (heq ▸ hy))]
  have hheld : ∀ i k b, Held { m with mem := m.mem.modifyBlock u fun _ => v } i k b ↔
      Held m i k b := by
    rintro (_ | _ | t') k c
    · show OnList _ k c ↔ OnList _ k c
      rw [onList_iff hlists, onList_iff h.lists]
    · show m.out (m.mem.data c) = true ∧ _ = k ↔ m.out (m.mem.data c) = true ∧ _ = k
      by_cases hc : c = u
      · subst hc
        simp [hout]
      · rw [BuddyMem.modifyBlock_block, if_neg hc]
    · exact Iff.rfl
  exact ⟨hlists, h.tiling.congr hheld, h.settled, fun hb => h.order ((hheld _ _ _).mp hb),
    h.calls, h.out⟩

/-! ## 持ち主の変わる一手 -/

/-- `Free` に入ると、渡した block は呼び出しの抱える block になる。 -/
theorem Inv.enterFree (h : Inv n m fl) {p : Nat} (ha : Enabled m (.free t p)) :
    Inv n { m with
      thread := Function.update m.thread t (.ofFree m.mem p)
      out := Function.update m.out p false } fl := by
  obtain ⟨hidle, hp⟩ := ha
  obtain ⟨b, rfl⟩ := h.out hp
  have hb : Held m .client (m.mem.block b).freeArea b := ⟨hp, rfl⟩
  have hk := h.order hb
  have hcall : BuddyCall.ofFree m.mem (m.mem.data b) =
      .free 0 b b (m.mem.block b).freeArea := by
    unfold BuddyCall.ofFree
    rw [blockOf_data]
  rw [hcall]
  have hheld : ∀ j l c, Held { m with
      thread := Function.update m.thread t (.free 0 b b (m.mem.block b).freeArea)
      out := Function.update m.out (m.mem.data b) false } j l c ↔
      (j = .thread t ∧ l = (m.mem.block b).freeArea ∧ c = b) ∨
        (Held m j l c ∧ ¬ (j = .client ∧ l = (m.mem.block b).freeArea ∧ c = b)) := by
    rintro (_ | _ | t') l c
    · simp [Held]
    · by_cases hc : c = b
      · subst hc
        simp [Held, hp, eq_comm]
      · simp [Held, Function.update_of_ne (mt (data_inj m.mem).mp hc), hc]
    · show Carries _ l c ↔ _
      rw [carries_update]
      by_cases ht : t' = t
      · subst ht
        simp [Held, hidle, Carries, Nat.lt_succ_of_le hk]
      · simp [Held, ht]
  refine ⟨h.lists, h.tiling.move hb hheld, h.settled, h.order_move hb hheld,
    callOk_update h.calls ?_, fun {q} hq => h.out ?_⟩
  · exact fun _ => (base_eq_of_dvd (h.tiling.aligned hb)).symm
  · by_cases hqp : q = m.mem.data b
    · rw [hqp]
      exact hp
    · rwa [← Function.update_of_ne hqp false m.out]

/-- `Alloc` が list の先頭を取る。 -/
theorem Inv.take (h : Inv n m fl) {bitp pb : Nat} (hcall : m.thread t = .search bitp k)
    (hpb : pb ∈ fl k) :
    Inv n { m with
      mem := m.mem.removeFree pb k pb
      thread := Function.update m.thread t (.split bitp k pb) }
      (Function.update fl k ((fl k).erase pb)) := by
  have hk := (h.lists.range hpb).2
  have hb : Held m .free k pb := (onList_iff h.lists).mpr hpb
  have hlists := h.lists.removeFree hpb (Eq.refl (pb / 2 ^ (k + 1)))
  have hlayout := BuddyMem.removeFree_layout (s := m.mem) pb k pb
  have hnd := (h.lists.ok k (Nat.zero_le k) hk).list.nodup
  have hheld : ∀ j l c, Held { m with
      mem := m.mem.removeFree pb k pb
      thread := Function.update m.thread t (.split bitp k pb) } j l c ↔
      (j = .thread t ∧ l = k ∧ c = pb) ∨
        (Held m j l c ∧ ¬ (j = .free ∧ l = k ∧ c = pb)) := by
    rintro (_ | _ | t') l c
    · show OnList _ l c ↔ _ ∨ (OnList _ l c ∧ _)
      rw [onList_iff hlists, onList_iff h.lists, mem_update_erase hnd]
      simp
    · show m.out (BuddyMem.data _ c) = true ∧ _ = l ↔ _
      rw [data_layout hlayout, h.lists.removeFree_freeArea hpb]
      simp [Held]
    · show Carries _ l c ↔ _
      rw [carries_update]
      by_cases ht : t' = t
      · subst ht
        simp [Held, hcall, Carries]
      · simp [Held, ht]
  refine ⟨hlists, h.tiling.move hb hheld, h.settled.mono fun l c hc => ?_, h.order_move hb hheld,
    callOk_update h.calls ?_, out_layout hlayout h.out⟩
  · exact ((mem_update_erase hnd).mp hc).1
  · have := h.calls t
    rwa [hcall] at this

/-- `Alloc` が block を半分にし、後ろ半分を list に足す。 -/
theorem Inv.degrade (h : Inv n m fl) {bitp pb : Nat} (hcall : m.thread t = .split bitp (k + 1) pb)
    (hle : bitp ≤ k) :
    Inv n { m with
      mem := m.mem.insertFree (pb + 2 ^ k) k (pb + 2 ^ k)
      thread := Function.update m.thread t (.split bitp k pb) }
      (Function.update fl k ((pb + 2 ^ k) :: fl k)) := by
  have hb : Held m (.thread t) (k + 1) pb := by
    show Carries _ _ _
    rw [hcall]
    exact ⟨rfl, rfl⟩
  have hk : k + 1 ≤ 9 := h.order hb
  have hright : Covers (k + 1) pb (pb + 2 ^ k) := covers_succ.mpr (.inr (covers_self k _))
  have hfree := h.not_mem_of_covers hb hright (by simp)
  have hleft := h.not_mem_of_covers hb (covers_self (k + 1) pb) (by simp)
  have hout := h.not_out_of_covers hb hright (by simp)
  have hdvd := dvd_of_le (Nat.le_succ k) (h.tiling.aligned hb)
  have hlists := h.lists.insertFree (Nat.zero_le k) (by omega) hfree
    (Nat.dvd_add hdvd (dvd_refl _)) (Eq.refl ((pb + 2 ^ k) / 2 ^ (k + 1)))
  have hlayout := BuddyMem.insertFree_layout (s := m.mem) (pb + 2 ^ k) k (pb + 2 ^ k)
  have hheld : ∀ j l c, Held { m with
      mem := m.mem.insertFree (pb + 2 ^ k) k (pb + 2 ^ k)
      thread := Function.update m.thread t (.split bitp k pb) } j l c ↔
      Halves (.thread t) .free k pb j l c ∨
        (Held m j l c ∧ ¬ (j = .thread t ∧ l = k + 1 ∧ c = pb)) := by
    rintro (_ | _ | t') l c
    · show OnList _ l c ↔ _ ∨ (OnList _ l c ∧ _)
      rw [onList_iff hlists, onList_iff h.lists, mem_update_cons]
      simp [Halves]
    · show m.out (BuddyMem.data _ c) = true ∧ _ = l ↔ _
      rw [data_layout hlayout]
      by_cases hc : c = pb + 2 ^ k
      · subst hc
        simp [Held, Halves, hout]
      · rw [insertFree_freeArea _ _ _ _ hc]
        simp [Held, Halves]
    · show Carries _ l c ↔ _
      rw [carries_update]
      by_cases ht : t' = t
      · subst ht
        simp [Held, hcall, Carries, Halves]
      · simp [Held, ht, Halves]
  refine ⟨hlists, h.tiling.split hb hheld, ?_, fun hj => ?_, callOk_update h.calls hle,
    out_layout hlayout h.out⟩
  · -- 足した block の隣は、まだ呼び出しが抱えている。
    refine h.settled.insert (fun _ hdvd' => ?_) (fun c _ _ heq => ?_)
    · exact absurd hdvd' (not_dvd_half (h.tiling.aligned hb))
    · rw [← Nat.add_right_cancel heq]
      exact hleft k
  · rcases (hheld _ _ _).mp hj with (⟨-, rfl, -⟩ | ⟨-, rfl, -⟩) | ⟨hj, -⟩
    · omega
    · omega
    · exact h.order hj

/-- `Alloc` が block を渡す。 -/
theorem Inv.finish (h : Inv n m fl) {pb : Nat} (hcall : m.thread t = .split k k pb) :
    Inv n
      { mem := m.mem.modifyBlock pb fun b => { b with freeArea := k }
        thread := Function.update m.thread t .idle
        out := Function.update m.out (m.mem.data pb) true } fl := by
  have hb : Held m (.thread t) k pb := by
    show Carries _ _ _
    rw [hcall]
    exact ⟨rfl, rfl⟩
  have hfree := h.not_mem_of_covers hb (covers_self k pb) (by simp)
  have hout := h.not_out_of_covers hb (covers_self k pb) (by simp)
  have hlists : Lists (m.mem.modifyBlock pb fun b => { b with freeArea := k }) 0 fl :=
    h.lists.congr rfl fun k' y hy => by
      rw [BuddyMem.modifyBlock_block, if_neg (fun heq : y = pb => hfree k' (heq ▸ hy))]
  have hheld : ∀ j l c, Held
      { mem := m.mem.modifyBlock pb fun b => { b with freeArea := k }
        thread := Function.update m.thread t .idle
        out := Function.update m.out (m.mem.data pb) true } j l c ↔
      (j = .client ∧ l = k ∧ c = pb) ∨
        (Held m j l c ∧ ¬ (j = .thread t ∧ l = k ∧ c = pb)) := by
    rintro (_ | _ | t') l c
    · show OnList _ l c ↔ _ ∨ (OnList _ l c ∧ _)
      rw [onList_iff hlists, onList_iff h.lists]
      simp
    · show Function.update m.out _ true (m.mem.data c) = true ∧ _ = l ↔ _
      by_cases hc : c = pb
      · subst hc
        simp [Held, hout, eq_comm]
      · rw [Function.update_of_ne (mt (data_inj m.mem).mp hc), BuddyMem.modifyBlock_block, if_neg hc]
        simp [Held, hc]
    · show Carries _ l c ↔ _
      rw [carries_update]
      by_cases ht : t' = t
      · subst ht
        simp [Held, hcall, Carries]
      · simp [Held, ht]
  refine ⟨hlists, h.tiling.move hb hheld, h.settled, h.order_move hb hheld,
    callOk_update h.calls trivial, fun {q} hq => ?_⟩
  · by_cases hqp : q = m.mem.data pb
    · exact ⟨pb, hqp⟩
    · exact h.out (by rwa [← Function.update_of_ne hqp true m.out])

/-! ## `Free` の一区切り -/

/-- 隣の block を list から外し、合わせて一つにする。 -/
theorem Inv.merge (h : Inv n m fl) {index : Nat}
    (hcall : m.thread t = .free 0 index (base k index) k) (hk : k < 9)
    (hbuddy : (index >>> k ^^^ 1) <<< k ∈ fl k) :
    Inv n { m with
      mem := m.mem.removeFree ((index >>> k ^^^ 1) <<< k) k index
      thread := Function.update m.thread t (.free 0 index (base (k + 1) index) (k + 1)) }
      (Function.update fl k ((fl k).erase ((index >>> k ^^^ 1) <<< k))) := by
  have hb : Held m (.thread t) k (base k index) := by
    show Carries _ _ _
    rw [hcall]
    exact ⟨⟨rfl, by omega⟩, rfl, rfl⟩
  have hfb : Held m .free k ((index >>> k ^^^ 1) <<< k) := (onList_iff h.lists).mpr hbuddy
  have hlists := h.lists.removeFree hbuddy (buddyIndex_div k index)
  have hlayout := BuddyMem.removeFree_layout (s := m.mem) ((index >>> k ^^^ 1) <<< k) k index
  have hnd := (h.lists.ok k (Nat.zero_le k) hk.le).list.nodup
  have hpair := buddyIndex_cases k index
  have hfa := h.lists.removeFree_freeArea hbuddy index
  generalize (index >>> k ^^^ 1) <<< k = buddy at *
  have hheld : ∀ j l c, Held { m with
      mem := m.mem.removeFree buddy k index
      thread := Function.update m.thread t (.free 0 index (base (k + 1) index) (k + 1)) } j l c ↔
      (j = .thread t ∧ l = k + 1 ∧ c = base (k + 1) index) ∨
        (Held m j l c ∧ ¬ ((j = .thread t ∧ l = k ∧ c = base k index) ∨
          (j = .free ∧ l = k ∧ c = buddy))) := by
    rintro (_ | _ | t') l c
    · show OnList _ l c ↔ _ ∨ (OnList _ l c ∧ _)
      rw [onList_iff hlists, onList_iff h.lists, mem_update_erase hnd]
      simp
    · show m.out (BuddyMem.data _ c) = true ∧ _ = l ↔ _
      rw [data_layout hlayout, hfa]
      simp [Held]
    · show Carries _ l c ↔ _
      rw [carries_update]
      by_cases ht : t' = t
      · subst ht
        have hlt : k < 10 := by omega
        have hlt' : k + 1 < 10 := by omega
        simp only [Held, hcall, Carries, hlt, hlt', true_and, ne_eq, not_true_eq_false,
          false_and, or_false, and_self, reduceCtorEq]
        tauto
      · simp [Held, ht]
  refine ⟨hlists, ?_, h.settled.mono fun l c hc => ((mem_update_erase hnd).mp hc).1, fun hj => ?_,
    callOk_update h.calls fun _ => rfl, out_layout hlayout h.out⟩
  · rcases hpair with ⟨hleft, rfl⟩ | ⟨hleft, rfl⟩
    · rw [hleft] at hb hheld
      exact h.tiling.merge (dvd_base _ _) hb hfb hheld
    · rw [hleft] at hb hheld
      refine h.tiling.merge (i := .thread t) (dvd_base _ _) hfb hb fun j l c => ?_
      rw [hheld, Halves, or_comm (a := j = .free ∧ _)]
  · rcases (hheld _ _ _).mp hj with ⟨-, rfl, -⟩ | ⟨hj, -⟩
    · omega
    · exact h.order hj

/-- 抱えている block を list に足す。 -/
theorem Inv.giveBack (h : Inv n m fl) {index ret : Nat}
    (hcall : m.thread t = .free 0 index (base k index) k) (hk : k ≤ 9)
    (hret : k < 9 → ret ≠ 0 ∧ (index >>> k ^^^ 1) <<< k ∉ fl k) :
    Inv n { m with
      mem := m.mem.insertFree (base k index) k index
      thread := Function.update m.thread t (.free ret index (base k index) (k + 1)) }
      (Function.update fl k (base k index :: fl k)) := by
  have hb : Held m (.thread t) k (base k index) := by
    show Carries _ _ _
    rw [hcall]
    exact ⟨⟨rfl, by omega⟩, rfl, rfl⟩
  have hnot : ¬ (ret = 0 ∧ k + 1 < 10) := fun hc => (hret (by omega)).1 hc.1
  have hfree := h.not_mem_of_covers hb (covers_self k _) (by simp)
  have hout := h.not_out_of_covers hb (covers_self k _) (by simp)
  have hlists := h.lists.insertFree (Nat.zero_le k) hk hfree (dvd_base k index)
    (base_div (Nat.le_succ k) index).symm
  have hlayout := BuddyMem.insertFree_layout (s := m.mem) (base k index) k index
  have hheld : ∀ j l c, Held { m with
      mem := m.mem.insertFree (base k index) k index
      thread := Function.update m.thread t (.free ret index (base k index) (k + 1)) } j l c ↔
      (j = .free ∧ l = k ∧ c = base k index) ∨
        (Held m j l c ∧ ¬ (j = .thread t ∧ l = k ∧ c = base k index)) := by
    rintro (_ | _ | t') l c
    · show OnList _ l c ↔ _ ∨ (OnList _ l c ∧ _)
      rw [onList_iff hlists, onList_iff h.lists, mem_update_cons]
      simp
    · show m.out (BuddyMem.data _ c) = true ∧ _ = l ↔ _
      rw [data_layout hlayout]
      by_cases hc : c = base k index
      · subst hc
        simp [Held, hout]
      · rw [insertFree_freeArea _ _ _ _ hc]
        simp [Held]
    · show Carries _ l c ↔ _
      rw [carries_update]
      by_cases ht : t' = t
      · subst ht
        simp [Held, hcall, Carries, hnot]
      · simp [Held, ht]
  refine ⟨hlists, h.tiling.move hb hheld, ?_, h.order_move hb hheld,
    callOk_update h.calls fun hc => absurd hc hnot, out_layout hlayout h.out⟩
  · -- 足した block の隣は、空いていない。
    have hpair := buddyIndex_cases k index
    generalize (index >>> k ^^^ 1) <<< k = buddy at hret hpair
    refine h.settled.insert (fun hk9 hdvd => ?_) (fun c hk9 hdvd heq => ?_)
    · rcases hpair with ⟨hleft, rfl⟩ | ⟨hright, -⟩
      · rw [hleft]
        exact (hret hk9).2
      · rw [hright] at hdvd
        exact absurd hdvd (not_dvd_half (dvd_base (k + 1) index))
    · rcases hpair with ⟨hleft, -⟩ | ⟨hright, rfl⟩
      · rw [hleft] at heq
        exact absurd (heq ▸ dvd_base (k + 1) index) (not_dvd_half hdvd)
      · rw [← Nat.add_right_cancel (hright.symm.trans heq)]
        exact (hret hk9).2

/-! ## 一手 -/

/-- 途中の呼び出しの一手。 -/
theorem Inv.run (h : Inv n m fl) (ha : Enabled m (.run t)) :
    ∃ m' fl', Converges (fun fuel => step fuel m (.run t)) m' ∧ Inv n m' fl' := by
  have hok := h.calls t
  cases hcall : m.thread t with
  | idle => exact absurd hcall ha
  | search bitp order =>
    rw [hcall] at hok
    have hsame : ∀ {c}, (∀ k b, ¬ Carries c k b) →
        ∀ k b, Carries c k b ↔ Carries (m.thread t) k b := by
      intro c hc k b
      rw [hcall]
      exact ⟨fun hcar => hc k b hcar, False.elim⟩
    by_cases horder : order ≤ 9
    · rcases h.lists.takeFirst (Nat.zero_le order) horder with ⟨-, htake⟩ | ⟨pb, hpb, htake⟩
      · refine ⟨_, fl, (Converges.pure _).congr fun fuel => ?_,
          h.setCall (c := .search bitp (order + 1)) (hsame fun _ _ => id)
            (Nat.le_succ_of_le hok)⟩
        simp [Buddy.step, hcall, BuddyCall.advance, horder, htake]
      · refine ⟨_, _, (Converges.pure _).congr fun fuel => ?_, h.take hcall hpb⟩
        simp [Buddy.step, hcall, BuddyCall.advance, horder, htake]
    · refine ⟨_, fl, (Converges.pure _).congr fun fuel => ?_,
        h.setCall (c := .idle) (hsame fun _ _ => id) trivial⟩
      simp [Buddy.step, hcall, BuddyCall.advance, horder]
  | split bitp order pb =>
    rw [hcall] at hok
    rcases Nat.eq_or_lt_of_le (show bitp ≤ order from hok) with rfl | hlt
    · refine ⟨_, fl, (Converges.pure _).congr fun fuel => ?_, h.finish hcall⟩
      simp [Buddy.step, hcall, BuddyCall.advance]
    · obtain ⟨d, rfl⟩ := Nat.exists_eq_succ_of_ne_zero (Nat.ne_zero_of_lt hlt)
      refine ⟨_, _, (Converges.pure _).congr fun fuel => ?_,
        h.degrade hcall (Nat.le_of_lt_succ hlt)⟩
      simp [Buddy.step, hcall, BuddyCall.advance, hlt, BuddyMem.degrade_eq]
  | free ret index freeBlock fa =>
    rw [hcall] at hok
    by_cases hloop : ret = 0 ∧ fa < 10
    · obtain rfl := hok hloop
      obtain ⟨rfl, hfa⟩ := hloop
      have hb : Held m (.thread t) fa (base fa index) := by
        show Carries _ _ _
        rw [hcall]
        exact ⟨⟨rfl, hfa⟩, rfl, rfl⟩
      have hfree := h.not_mem_of_covers hb (covers_self fa _) (by simp) fa
      have hfun : ∀ fuel, step fuel m (.run t) =
          (m.mem.upgrade fuel index (base fa index) fa).map fun r => { m with
            mem := r.2.2
            thread := Function.update m.thread t (.free r.1 index r.2.1 (fa + 1)) } := by
        intro fuel
        simp [Buddy.step, hcall, BuddyCall.advance, hfa, Function.comp_def]
      rcases h.lists.upgrade (Nat.le_of_lt_succ hfa) index hfree with
        ⟨hk, hbuddy, hconv⟩ | ⟨ret, hret, hconv⟩
      · exact ⟨_, _, (hconv.map _).congr hfun, h.merge hcall hk hbuddy⟩
      · exact ⟨_, _, (hconv.map _).congr hfun, h.giveBack hcall (Nat.le_of_lt_succ hfa) hret⟩
    · refine ⟨_, fl, (Converges.pure _).congr fun fuel => ?_,
        h.setCall (t := t) (c := .idle) (fun k b => ?_) trivial⟩
      · simp [Buddy.step, hcall, BuddyCall.advance, hloop]
      · rw [hcall]
        exact ⟨False.elim, fun hcar => hloop hcar.1⟩

/-- **起こりうる一手は必ず終わり、持ち主の敷き詰めを保つ。** -/
theorem Inv.step (h : Inv n m fl) {a : Act} (ha : Enabled m a) :
    ∃ m' fl', Converges (fun fuel => step fuel m a) m' ∧ Inv n m' fl' := by
  cases a with
  | alloc t l =>
    refine ⟨_, fl, .pure _, h.setCall (fun k b => ?_) ?_⟩
    · rw [show m.thread t = .idle from ha]
      unfold BuddyCall.ofAlloc
      dsimp only
      split <;> exact Iff.rfl
    · unfold BuddyCall.ofAlloc
      dsimp only
      split
      · exact trivial
      · exact le_rfl
  | free t p => exact ⟨_, fl, .pure _, h.enterFree ha⟩
  | run t => exact h.run ha
  | write p u v => exact ⟨_, fl, .pure _, h.write v ha⟩

/-! ## 燃料を増やした一手 -/

theorem delFrom_steady (s : BuddyMem) (b k : Nat) (t : Option Nat) :
    Steady fun fuel => s.delFrom b k fuel t := by
  refine Steady.of_loop _ (fun
    | none => .inl (-1, s)
    | some t => if t = b then .inl (0, s.unlink t k) else .inr (s.block t).next)
    (fun _ => rfl) (fun fuel t => ?_) t
  cases t with
  | none => rfl
  | some t =>
    simp only [BuddyMem.delFrom]
    split <;> rfl

theorem upgrade_steady (s : BuddyMem) (index freeBlock k : Nat) :
    Steady fun fuel => s.upgrade fuel index freeBlock k := by
  unfold BuddyMem.upgrade
  dsimp only
  split
  · exact (delFrom_steady _ _ _ _).map _
  · exact .const _

/-- 一手は、燃料を増やしても変わらない。 -/
theorem step_steady (m : Machine) (a : Act) : Steady fun fuel => step fuel m a := by
  cases a with
  | run t =>
    refine Steady.map (f := fun fuel => (m.thread t).advance fuel m.mem) ?_ _
    cases hcall : m.thread t with
    | free ret index freeBlock k =>
      unfold BuddyCall.advance
      dsimp only
      split
      · exact (upgrade_steady _ _ _ _).map _
      · exact .const _
    | _ => exact .const _
  | _ => exact .const _

/-! ## 誰も呼び出しの途中に無い状態 -/

/-- どの呼び出しも途中に無く、渡した block は全部返されている。 -/
def Quiet (m : Machine) : Prop := (∀ t, m.thread t = .idle) ∧ ∀ p, m.out p = false

/-- どの block も空いている。 -/
theorem held_quiet (h : Lists m.mem 0 fl) (hq : Quiet m) {i : Holder} :
    Held m i k b ↔ i = .free ∧ b ∈ fl k := by
  cases i with
  | free =>
    show OnList m.mem k b ↔ _
    rw [onList_iff h]
    simp
  | client => simp [Held, hq.2]
  | thread t => simp [Held, hq.1, Carries]

theorem Inv.init {s : BuddyMem} (h : Carved s 0 fl n) : Inv n (.init s) fl := by
  have hheld : ∀ {i k b}, Held (.init s) i k b ↔ i = .free ∧ b ∈ fl k :=
    held_quiet h.lists ⟨fun _ => rfl, fun _ => rfl⟩
  refine ⟨h.lists, ⟨fun hb => ?_, fun hb => ?_, fun hb hb' hu hu' => ?_, fun hu => ?_⟩, h.settled,
    fun hb => ?_, fun _ => trivial, fun hp => absurd hp (by simp [Machine.init])⟩
  · exact h.tiling.aligned (i := ()) (hheld.mp hb).2
  · exact h.tiling.inside (i := ()) (hheld.mp hb).2
  · obtain ⟨rfl, hmem⟩ := hheld.mp hb
    obtain ⟨rfl, hmem'⟩ := hheld.mp hb'
    exact ⟨rfl, (@Tiling.disjoint _ _ _ h.tiling () _ _ () _ _ _ hmem hmem' hu hu').2⟩
  · obtain ⟨-, k, hmem⟩ := h.tiling.cover hu
    exact ⟨.free, k, hheld.mpr ⟨rfl, hmem⟩⟩
  · exact (h.lists.range (hheld.mp hb).2).2

end

end RecordServer.MemPool.Buddy
