import RecordServer.Datas.TaskQueueHistory

/-!
# いくつもの thread が積む queue

`MULTI` の enqueue は、`m_wrindex` の CAS で index を取り、その場所に書き、`m_max_rdindex` の CAS で
公開する。dequeue が見るのは `m_max_rdindex` ではなく `m_wrindex` なので、取られただけで
まだ書かれていない場所を読むことがある（`reads_before_store`）。

* `ReadsStored` — dequeue が場所を読むとき、その index を取った enqueue は書き終えている
* `MultiInv` — 全体の不変量
* `nothing_lost_nothing_invented` — `ReadsStored` を満たす run では、要素は index を取った順に
  一度ずつ渡り、呼び出しが無いときの輪の中身は、積まれて渡していない要素である
-/

namespace RecordServer.Datas.TaskQueue

open Infra

variable {E τ : Type*}

/-! ## 不変量 -/

/-- index `i` を取った enqueue が、まだ書いていない。 -/
def Pending (s : State τ E) (i : Nat) : Prop := ∃ t ele, s.pc t = .enqStore ele i

/-- enqueue の途中の local 変数。 -/
def ClaimerOk (q : Queue E) : Pc E → Prop
  | .enqLoadRd _ wr => wr ≤ q.claimed.length
  | .enqCas _ wr => wr ≤ q.claimed.length ∧ (wr = q.claimed.length → q.claimed.length + 1 < 2 ^ 32 →
      q.claimed.length + 2 ≤ q.taken.length + q.size)
  | .enqStore ele wr => q.taken.length ≤ wr ∧ q.claimed[wr]? = some ele
  | .enqAdd _ => False
  | _ => True

/-- `MULTI` の queue の不変量。 -/
structure MultiInv (s : State τ E) : Prop where
  indices : Indices s.q
  slots : Slots s.q (Pending s)
  claimer : ∀ t, ClaimerOk s.q (s.pc t)
  consumer : ∀ t, ConsumerOk s.q (s.pc t)
  single : ∀ t u e e' i, s.pc t = .enqStore e i → s.pc u = .enqStore e' i → t = u
  settled : ∀ t e, s.pc t = .deqCas s.q.taken.length e → ¬ Pending s s.q.taken.length

/-- dequeue が、CAS の成功しうる index の場所を読むのは、その場所が書かれてからである。 -/
def ReadsStored (s : State τ E) : Act τ E → Prop
  | .advance t => ∀ rd, s.pc t = .deqLoadSlot rd → rd = s.q.rdindex → ∀ u ele, s.pc u ≠ .enqStore ele rd
  | _ => True

/-- 場所を書く手前か。 -/
def Pc.isStore : Pc E → Bool
  | .enqStore _ _ => true
  | _ => false

/-- 取り出す CAS の手前か。 -/
def Pc.isDeqCas : Pc E → Bool
  | .deqCas _ _ => true
  | _ => false

theorem isStore_of_not_enqueue {pc : Pc E} (h : pc.isEnqueue = false) : pc.isStore = false := by
  cases pc with
  | enqStore _ _ => simp [Pc.isEnqueue] at h
  | _ => rfl

theorem isStore_of_idle {pc : Pc E} (h : pc.isIdle) : pc.isStore = false := by
  cases pc with
  | idle _ => rfl
  | _ => simp [Pc.isIdle] at h

theorem claimerOk_of_not_enqueue {q : Queue E} {pc : Pc E} (h : pc.isEnqueue = false) :
    ClaimerOk q pc := by
  cases pc with
  | idle _ | deqLoadRd | deqLoadWr _ | deqLoadSlot _ | deqCas _ _ => trivial
  | _ => simp [Pc.isEnqueue] at h

/-- 他の enqueue が index を取っても、local 変数は正しいままである。 -/
theorem claimerOk_claim {q : Queue E} {pc : Pc E} (h : ClaimerOk q pc) (ele : E) (wr : Nat) :
    ClaimerOk { q with wrindex := wr, claimed := q.claimed ++ [ele] } pc := by
  cases pc with
  | enqLoadRd e i =>
    have h' : i ≤ q.claimed.length := h
    show i ≤ (q.claimed ++ [ele]).length
    simp only [List.length_append, List.length_singleton]
    omega
  | enqCas e i =>
    have hle := h.1
    refine ⟨?_, fun heq => ?_⟩
    · simp only [List.length_append, List.length_singleton]
      omega
    · simp only [List.length_append, List.length_singleton] at heq
      omega
  | enqStore e i =>
    refine ⟨h.1, ?_⟩
    rw [List.getElem?_append_left (List.getElem?_eq_some_iff.mp h.2).1]
    exact h.2
  | enqAdd _ => exact h
  | _ => trivial

/-- dequeue が進んでも、渡した index より先にいる enqueue の local 変数は正しいままである。 -/
theorem claimerOk_consumer {q q' : Queue E} {pc pc₀ pc' : Pc E} (h : ClaimerOk q pc)
    (hstep : ConsumerStep q pc₀ q' pc')
    (hahead : ∀ ele i, pc = .enqStore ele i → q'.taken.length ≤ i) : ClaimerOk q' pc := by
  have ht := hstep.taken
  cases pc with
  | enqLoadRd e i =>
    show i ≤ q'.claimed.length
    rw [hstep.claimed]
    exact h
  | enqCas e i =>
    refine ⟨hstep.claimed ▸ h.1, fun heq hmax => ?_⟩
    rw [hstep.claimed] at heq hmax ⊢
    rw [hstep.size]
    exact le_trans (h.2 heq hmax) (by omega)
  | enqStore e i => exact ⟨hahead e i rfl, hstep.claimed ▸ h.2⟩
  | enqAdd _ => exact h
  | _ => trivial

theorem multiInv_init (zero : E) {size : Nat} (hsize : 2 ≤ size) :
    MultiInv (init zero size : State τ E) where
  indices := ⟨rfl, rfl, le_rfl, by simp [init, Queue.queueInit]; omega, rfl⟩
  slots := by simp [Slots, init, Queue.queueInit]
  claimer := fun _ => trivial
  consumer := fun _ => trivial
  single := by simp [init]
  settled := by simp [init]

section

variable [DecidableEq τ] {s s' : State τ E} {t : τ} {pc : Pc E}

theorem pc_of_ne (hpc : s'.pc = Function.update s.pc t pc) {u : τ} (hu : u ≠ t) :
    s'.pc u = s.pc u := by rw [hpc, Function.update_of_ne hu]

theorem pc_self (hpc : s'.pc = Function.update s.pc t pc) : s'.pc t = pc := by
  rw [hpc, Function.update_self]

/-- 書く手前にいなかった thread が、書く手前でない所に動いても、書き込みがまだの index は変わらない。 -/
theorem pending_iff (hpc : s'.pc = Function.update s.pc t pc) (ht : (s.pc t).isStore = false)
    (hnew : pc.isStore = false) (i : Nat) : Pending s' i ↔ Pending s i := by
  constructor
  · rintro ⟨u, ele, hu⟩
    by_cases hut : u = t
    · subst hut
      rw [pc_self hpc] at hu
      simp [hu, Pc.isStore] at hnew
    · exact ⟨u, ele, (pc_of_ne hpc hut).symm.trans hu⟩
  · rintro ⟨u, ele, hu⟩
    have hut : u ≠ t := by
      rintro rfl
      simp [hu, Pc.isStore] at ht
    exact ⟨u, ele, (pc_of_ne hpc hut).trans hu⟩

theorem MultiInv.single_of_not_store (h : MultiInv s) (hpc : s'.pc = Function.update s.pc t pc)
    (hnew : pc.isStore = false) {u v : τ} {e e' : E} {i : Nat} (hu : s'.pc u = .enqStore e i)
    (hv : s'.pc v = .enqStore e' i) : u = v := by
  have hne : ∀ w e, s'.pc w = .enqStore e i → w ≠ t := by
    rintro w e hw rfl
    rw [pc_self hpc] at hw
    simp [hw, Pc.isStore] at hnew
  rw [pc_of_ne hpc (hne u e hu)] at hu
  rw [pc_of_ne hpc (hne v e' hv)] at hv
  exact h.single u v e e' i hu hv

/-! ## 一歩 -/

/-- index も履歴も場所も変えない一歩。 -/
theorem MultiInv.relocate (h : MultiInv s) {n : Nat} (hq : s'.q = { s.q with maxRdindex := n })
    (hpc : s'.pc = Function.update s.pc t pc) (ht : (s.pc t).isStore = false)
    (hnew : pc.isStore = false) (hcas : pc.isDeqCas = false) (hprod : ClaimerOk s.q pc)
    (hcons : ConsumerOk s.q pc) : MultiInv s' := by
  have hpend := pending_iff hpc ht hnew
  have hclaim : ∀ p, ClaimerOk s.q p → ClaimerOk s'.q p := fun p hp => by
    rw [hq]; cases p <;> exact hp
  have hconsume : ∀ p, ConsumerOk s.q p → ConsumerOk s'.q p := fun p hp => by
    rw [hq]; cases p <;> exact hp
  refine ⟨?_, ?_, fun u => ?_, fun u => ?_, fun u v e e' i => h.single_of_not_store hpc hnew, ?_⟩
  · rw [hq]
    exact ⟨h.indices.wr, h.indices.rd, h.indices.le, h.indices.room, h.indices.order⟩
  · rw [hq]
    exact fun i e hle hget hp => h.slots i e hle hget fun hc => hp ((hpend i).mpr hc)
  · by_cases hut : u = t
    · rw [hut, pc_self hpc]
      exact hclaim pc hprod
    · rw [pc_of_ne hpc hut]
      exact hclaim _ (h.claimer u)
  · by_cases hut : u = t
    · rw [hut, pc_self hpc]
      exact hconsume pc hcons
    · rw [pc_of_ne hpc hut]
      exact hconsume _ (h.consumer u)
  · intro u e hu
    have hut : u ≠ t := by
      rintro rfl
      rw [pc_self hpc] at hu
      simp [hu, Pc.isDeqCas] at hcas
    rw [pc_of_ne hpc hut, hq] at hu
    rw [hpend, hq]
    exact h.settled u e hu

/-- enqueue が index を取る一歩。 -/
theorem MultiInv.claim (h : MultiInv s) {ele : E}
    (hq : s'.q = { s.q with wrindex := u32 (s.q.wrindex + 1), claimed := s.q.claimed ++ [ele] })
    (hpc : s'.pc = Function.update s.pc t (.enqStore ele s.q.claimed.length))
    (ht : (s.pc t).isStore = false)
    (hroom : s.q.claimed.length + 2 ≤ s.q.taken.length + s.q.size)
    (hmax : s.q.claimed.length + 1 < 2 ^ 32) : MultiInv s' := by
  have hpre : s.q.claimed <+: s'.q.claimed := by
    rw [hq]
    exact List.prefix_append _ _
  have hlt : ∀ u e i, s.pc u = .enqStore e i → i < s.q.claimed.length := fun u e i hu => by
    have hc := h.claimer u
    rw [hu] at hc
    exact (List.getElem?_eq_some_iff.mp hc.2).1
  refine ⟨hq ▸ h.indices.claim ele hroom hmax, ?_, fun u => ?_, fun u => ?_, ?_, ?_⟩
  · -- 取ったばかりの index はまだ書かれていないので、前からある index だけを見ればよい
    intro i e hle hget hp
    have hne : i ≠ s.q.claimed.length := by
      rintro rfl
      exact hp ⟨t, ele, pc_self hpc⟩
    rw [hq] at hle hget ⊢
    have hget' : s.q.claimed[i]? = some e := by
      have hi := (List.getElem?_eq_some_iff.mp hget).1
      simp only [List.length_append, List.length_singleton] at hi
      rw [List.getElem?_append_left (by omega)] at hget
      exact hget
    refine h.slots i e hle hget' ?_
    rintro ⟨u, e', hu⟩
    have hut : u ≠ t := by
      rintro rfl
      simp [hu, Pc.isStore] at ht
    exact hp ⟨u, e', (pc_of_ne hpc hut).trans hu⟩
  · by_cases hut : u = t
    · rw [hut, pc_self hpc, hq]
      exact ⟨h.indices.le, List.getElem?_concat_length⟩
    · rw [pc_of_ne hpc hut]
      rw [hq]
      exact claimerOk_claim (h.claimer u) ele _
  · by_cases hut : u = t
    · rw [hut, pc_self hpc]
      trivial
    · rw [pc_of_ne hpc hut]
      exact (h.consumer u).mono hpre (by rw [hq])
  · intro u v e e' i hu hv
    by_cases hut : u = t
    · by_cases hvt : v = t
      · rw [hut, hvt]
      · exfalso
        rw [hut, pc_self hpc] at hu
        rw [pc_of_ne hpc hvt] at hv
        have hi := hlt v e' i hv
        simp only [Pc.enqStore.injEq] at hu
        omega
    · by_cases hvt : v = t
      · exfalso
        rw [hvt, pc_self hpc] at hv
        rw [pc_of_ne hpc hut] at hu
        have hi := hlt u e i hu
        simp only [Pc.enqStore.injEq] at hv
        omega
      · rw [pc_of_ne hpc hut] at hu
        rw [pc_of_ne hpc hvt] at hv
        exact h.single u v e e' i hu hv
  · intro u e hu
    have htaken : s'.q.taken = s.q.taken := by rw [hq]
    rw [htaken] at hu ⊢
    have hut : u ≠ t := by
      rintro rfl
      rw [pc_self hpc] at hu
      simp at hu
    rw [pc_of_ne hpc hut] at hu
    rintro ⟨v, e', hv⟩
    by_cases hvt : v = t
    · rw [hvt, pc_self hpc] at hv
      have hc := h.consumer u
      rw [hu] at hc
      have hi := (List.getElem?_eq_some_iff.mp (hc.2 rfl)).1
      simp only [Pc.enqStore.injEq] at hv
      omega
    · rw [pc_of_ne hpc hvt] at hv
      exact h.settled u e hu ⟨v, e', hv⟩

/-- enqueue が取った場所に書く一歩。 -/
theorem MultiInv.store (h : MultiInv s) {ele : E} {wr : Nat} (ht : s.pc t = .enqStore ele wr)
    (hq : s'.q = { s.q with elems := Function.update s.q.elems (wr % s.q.size) ele })
    (hpc : s'.pc = Function.update s.pc t (.enqPublish wr)) : MultiInv s' := by
  have hown := h.claimer t
  rw [ht] at hown
  have hwr := (List.getElem?_eq_some_iff.mp hown.2).1
  have hroom := h.indices.room
  have hpend : ∀ i, Pending s' i → Pending s i := by
    rintro i ⟨u, e, hu⟩
    by_cases hut : u = t
    · rw [hut, pc_self hpc] at hu
      simp at hu
    · exact ⟨u, e, (pc_of_ne hpc hut).symm.trans hu⟩
  have hclaim : ∀ p, ClaimerOk s.q p → ClaimerOk s'.q p := fun p hp => by
    rw [hq]; cases p <;> exact hp
  have hconsume : ∀ p, ConsumerOk s.q p → ConsumerOk s'.q p := fun p hp => by
    rw [hq]; cases p <;> exact hp
  refine ⟨?_, ?_, fun u => ?_, fun u => ?_, fun u v e e' i => h.single_of_not_store hpc rfl, ?_⟩
  · rw [hq]
    exact ⟨h.indices.wr, h.indices.rd, h.indices.le, hroom, h.indices.order⟩
  · intro i e hle hget hp
    rw [hq] at hle hget ⊢
    have hi := (List.getElem?_eq_some_iff.mp hget).1
    have hle₀ := hown.1
    simp only at hle hget hi ⊢
    by_cases hiw : i = wr
    · rw [hiw, Function.update_self]
      rw [hiw] at hget
      exact Option.some.inj (hown.2.symm.trans hget)
    · -- 別の index の場所は、輪の一周より近いので重ならない
      have hmod : i % s.q.size ≠ wr % s.q.size := by
        rcases lt_or_gt_of_ne hiw with hlt | hgt
        · exact mod_ne_of_lt hlt (by omega)
        · exact (mod_ne_of_lt hgt (by omega)).symm
      rw [Function.update_of_ne hmod]
      refine h.slots i e hle hget ?_
      rintro ⟨u, e', hu⟩
      have hut : u ≠ t := by
        rintro rfl
        rw [ht] at hu
        simp only [Pc.enqStore.injEq] at hu
        exact hiw hu.2.symm
      exact hp ⟨u, e', (pc_of_ne hpc hut).trans hu⟩
  · by_cases hut : u = t
    · rw [hut, pc_self hpc]
      trivial
    · rw [pc_of_ne hpc hut]
      exact hclaim _ (h.claimer u)
  · by_cases hut : u = t
    · rw [hut, pc_self hpc]
      trivial
    · rw [pc_of_ne hpc hut]
      exact hconsume _ (h.consumer u)
  · intro u e hu
    have htaken : s'.q.taken = s.q.taken := by rw [hq]
    rw [htaken] at hu ⊢
    have hut : u ≠ t := by
      rintro rfl
      rw [pc_self hpc] at hu
      simp at hu
    rw [pc_of_ne hpc hut] at hu
    exact fun hc => h.settled u e hu (hpend _ hc)

/-- dequeue の一歩。 -/
theorem MultiInv.consume (h : MultiInv s) (hq : s'.q = (micro .multi s.q (s.pc t)).1)
    (hpc : s'.pc = Function.update s.pc t (micro .multi s.q (s.pc t)).2)
    (hdeq : (s.pc t).isEnqueue = false)
    (hread : ∀ rd, s.pc t = .deqLoadSlot rd → rd = s.q.taken.length → ¬ Pending s rd)
    (hmax : s.q.claimed.length < 2 ^ 32) : MultiInv s' := by
  have hstep := consumer_micro .multi h.indices h.slots (h.consumer t) hdeq hread hmax
  rw [← hq, ← pc_self hpc] at hstep
  have hold : (s.pc t).isStore = false := isStore_of_not_enqueue hdeq
  have hnew : (micro .multi s.q (s.pc t)).2.isStore = false :=
    isStore_of_not_enqueue (pc_self hpc ▸ hstep.notEnqueue)
  have hpend := pending_iff hpc hold hnew
  refine ⟨hstep.indices, ?_, fun u => ?_, fun u => ?_,
    fun u v e e' i => h.single_of_not_store hpc hnew, ?_⟩
  · refine Slots.consumer ?_ hstep
    exact fun i e hle hget hp => h.slots i e hle hget fun hc => hp ((hpend i).mpr hc)
  · by_cases hut : u = t
    · rw [hut]
      exact claimerOk_of_not_enqueue hstep.notEnqueue
    · rw [pc_of_ne hpc hut]
      refine claimerOk_consumer (h.claimer u) hstep fun e i hu => ?_
      have hown := h.claimer u
      rw [hu] at hown
      rcases hstep.grew with hsame | ⟨hgrew, e', ht⟩
      · rw [hsame]
        exact hown.1
      · -- 渡した index の enqueue は書き終えているので、残りの enqueue はその先にいる
        have hne : i ≠ s.q.taken.length := fun hi => h.settled t e' ht ⟨u, e, hi ▸ hu⟩
        have hle := hown.1
        omega
  · by_cases hut : u = t
    · rw [hut]
      exact hstep.consumer
    · rw [pc_of_ne hpc hut]
      exact (h.consumer u).mono (hstep.claimed ▸ List.prefix_rfl) hstep.taken
  · intro u e hu
    rw [hpend]
    by_cases hut : u = t
    · -- いま読んだばかりの場所は、書かれている
      rw [hut] at hu
      have hold := hstep.read _ _ hu
      have hsame : s'.q.taken.length = s.q.taken.length := by
        rcases hstep.grew with hsame | ⟨_, e', hcas⟩
        · exact hsame
        · rw [hold] at hcas
          simp at hcas
      exact hread _ hold hsame
    · rw [pc_of_ne hpc hut] at hu
      have hc := h.consumer u
      rw [hu] at hc
      have hsame : s'.q.taken.length = s.q.taken.length := le_antisymm hc.1 hstep.taken
      rw [hsame] at hu ⊢
      exact h.settled u e hu

/-- 途中の呼び出しを一つ進める一歩。 -/
theorem MultiInv.advance (h : MultiInv s)
    (hread : ReadsStored s (.advance t)) (hq : s'.q = (micro .multi s.q (s.pc t)).1)
    (hpc : s'.pc = Function.update s.pc t (micro .multi s.q (s.pc t)).2)
    (hmax : s'.q.claimed.length < 2 ^ 32) : MultiInv s' := by
  have hmax₀ : s.q.claimed.length < 2 ^ 32 :=
    lt_of_le_of_lt (hq ▸ (micro_claimed .multi s.q (s.pc t)).length_le) hmax
  have hown := h.claimer t
  by_cases henq : (s.pc t).isEnqueue
  · cases hp : s.pc t with
    | enqLoadWr ele =>
      rw [hp] at hq hpc
      exact h.relocate hq hpc (by rw [hp]; rfl) rfl rfl h.indices.wr.le trivial
    | enqLoadRd ele wr =>
      rw [hp] at hq hpc hown
      simp only [micro] at hq hpc
      by_cases hf : s.q.isFull wr s.q.rdindex
      · rw [if_pos hf] at hq hpc
        exact h.relocate hq hpc (by rw [hp]; rfl) rfl rfl trivial trivial
      · rw [if_neg hf] at hq hpc
        refine h.relocate hq hpc (by rw [hp]; rfl) rfl rfl ⟨hown, fun heq hlt => ?_⟩ trivial
        exact h.indices.room_of_not_isFull (by rw [← heq]; simpa using hf) hlt
    | enqCas ele wr =>
      rw [hp] at hq hpc hown
      simp only [micro] at hq hpc
      by_cases hcas : s.q.wrindex = wr
      · rw [if_pos hcas] at hq hpc
        have hwr : wr = s.q.claimed.length := hcas.symm.trans h.indices.wr
        have hlt : s.q.claimed.length + 1 < 2 ^ 32 := by simpa [hq] using hmax
        rw [← hcas] at hq
        rw [hwr] at hpc
        exact h.claim hq hpc (by rw [hp]; rfl) (hown.2 hwr hlt) hlt
      · rw [if_neg hcas] at hq hpc
        exact h.relocate hq hpc (by rw [hp]; rfl) rfl rfl trivial trivial
    | enqStore ele wr =>
      rw [hp] at hq hpc
      exact h.store hp hq hpc
    | enqAdd ele =>
      rw [hp] at hown
      exact hown.elim
    | enqPublish wr =>
      rw [hp] at hq hpc
      simp only [micro] at hq hpc
      by_cases hcas : s.q.maxRdindex = wr
      · rw [if_pos hcas] at hq hpc
        exact h.relocate hq hpc (by rw [hp]; rfl) rfl rfl trivial trivial
      · rw [if_neg hcas] at hq hpc
        exact h.relocate hq hpc (by rw [hp]; rfl) rfl rfl trivial trivial
    | idle _ | deqLoadRd | deqLoadWr _ | deqLoadSlot _ | deqCas _ _ =>
      simp [hp, Pc.isEnqueue] at henq
  · refine h.consume hq hpc (by simpa using henq) (fun rd hrd heq => ?_) hmax₀
    rintro ⟨u, ele, hu⟩
    exact hread rd hrd (heq.trans h.indices.rd.symm) u ele hu

theorem step_multiInv {a : Act τ E} (ha : ReadsStored s a) (hs : step .multi s a = some s')
    (h : MultiInv s) (hmax : s'.q.claimed.length < 2 ^ 32) : MultiInv s' := by
  obtain ⟨t, ele, rfl, hi, hq, hpc⟩ | ⟨t, rfl, hi, hq, hpc⟩ | ⟨t, rfl, _, hq, hpc⟩ := step_cases hs
  · exact h.relocate hq hpc (isStore_of_idle hi) rfl rfl trivial trivial
  · exact h.relocate hq hpc (isStore_of_idle hi) rfl rfl trivial trivial
  · exact h.advance ha hq hpc hmax

/-! ## run -/

/-- 要素は index を取った順に、書かれてから渡り、呼び出しの無いときの輪の中身は残りの要素である。 -/
structure MultiCorrect (s : State τ E) : Prop where
  order : s.q.taken = s.q.claimed.take s.q.taken.length
  stored : ∀ t ele i, s.pc t = .enqStore ele i → s.q.taken.length ≤ i
  indices : s.q.rdindex = s.q.taken.length ∧ s.q.wrindex = s.q.claimed.length
  contents : (∀ t, (s.pc t).isIdle) →
    (List.range' s.q.rdindex (s.q.wrindex - s.q.rdindex)).map (fun i => s.q.elems (i % s.q.size)) =
      s.q.claimed.drop s.q.taken.length

omit [DecidableEq τ] in
theorem MultiInv.contents (h : MultiInv s) (hidle : ∀ t, (s.pc t).isIdle) :
    (List.range' s.q.rdindex (s.q.wrindex - s.q.rdindex)).map (fun i => s.q.elems (i % s.q.size)) =
      s.q.claimed.drop s.q.taken.length := by
  have hno : ∀ i, ¬ Pending s i := by
    rintro i ⟨t, ele, ht⟩
    have hi := hidle t
    rw [ht] at hi
    simp [Pc.isIdle] at hi
  rw [h.indices.rd, h.indices.wr]
  refine List.ext_getElem (by simp) fun k hk hk' => ?_
  simp only [List.getElem_map, List.getElem_range', one_mul, List.getElem_drop]
  refine h.slots _ _ (Nat.le_add_right _ _) ?_ (hno _)
  rw [List.getElem?_eq_getElem]

omit [DecidableEq τ] in
theorem MultiInv.correct (h : MultiInv s) : MultiCorrect s where
  order := h.indices.order
  stored := fun t ele i ht => by
    have hown := h.claimer t
    rw [ht] at hown
    exact hown.1
  indices := ⟨h.indices.rd, h.indices.wr⟩
  contents := h.contents

/--
**取られた場所が書かれてから読む限り、要素は失われず、無い要素は渡らない。**

`MULTI` の queue を、いくつの thread がどの順に動かしても、dequeue が場所を読むときその index を取った
enqueue が書き終えている限り、積んだ要素が 2^32 個に満たない run のどの状態でも、k 回目に成功した
dequeue は k 番目に index を取った enqueue の要素を、それが書かれた後に返す。
-/
theorem nothing_lost_nothing_invented {zero : E} {size : Nat} (hsize : 2 ≤ size)
    {as : List (Act τ E)} (hread : Along (step .multi) ReadsStored (init zero size) as)
    (hrun : run (step .multi) (init zero size) as = some s) (hmax : s.q.claimed.length < 2 ^ 32) :
    MultiCorrect s ∧
    ∀ t s', step .multi s (.advance t) = some s' → s'.q.rdindex ≠ s.q.rdindex →
      ∃ ele, s.q.claimed[s.q.taken.length]? = some ele ∧
        s'.pc t = .idle (some (.deq (some ele))) ∧ s'.q.taken = s.q.taken ++ [ele] ∧
        ∀ u e, s.pc u ≠ .enqStore e s.q.taken.length := by
  have hinv := run_invariant
    (I := fun s : State τ E => s.q.claimed.length < 2 ^ 32 → MultiInv s)
    (fun u a u' ha hs hu hlt => step_multiInv ha hs (hu (lt_of_le_of_lt (step_claimed hs) hlt)) hlt)
    hread hrun (fun _ => multiInv_init zero hsize) hmax
  refine ⟨hinv.correct, fun t s' hs hne => ?_⟩
  obtain ⟨ele, hele, hpc, htaken⟩ := delivers hinv.indices (hinv.consumer t) hs hne
  refine ⟨ele, hele, hpc, htaken, fun u e hu => ?_⟩
  obtain ⟨e', ht⟩ := deqCas_of_rdindex_ne hinv.indices hs hne
  exact hinv.settled t e' ht ⟨u, e, hu⟩

end

/-! ## 書かれる前に読む run -/

/-- thread 0 が index を取ったところで止まり、thread 1 がその場所を読んで取り出す。 -/
def earlySchedule : List (Act Nat Nat) :=
  [.enqueue 0 7, .advance 0, .advance 0, .advance 0,
    .dequeue 1, .advance 1, .advance 1, .advance 1, .advance 1]

/-- **取られただけの場所を読むと、誰も積んでいない要素が渡る。** -/
theorem reads_before_store :
    ∃ s, run (step .multi) (init 0 2) earlySchedule = some s ∧
      s.pc 1 = .idle (some (.deq (some 0))) ∧ s.q.claimed = [7] ∧ s.q.taken = [0] ∧
      s.pc 0 = .enqStore 7 0 ∧ ¬ MultiCorrect s := by
  refine ⟨_, rfl, rfl, rfl, rfl, rfl, fun hc => ?_⟩
  exact absurd hc.order (by decide)

/-- 書き終えた thread が公開する前に、もう一つの thread が取り出す。 -/
def storedSchedule : List (Act Bool Nat) :=
  [.enqueue false 7, .advance false, .advance false, .advance false, .advance false,
    .dequeue true, .advance true, .advance true, .advance true, .advance true, .advance false]

/-- 場所を読む手前の thread が動くとき、書く手前の thread は無い。 -/
def noStoreAtRead (s : State Bool Nat) : Act Bool Nat → Bool
  | .advance t =>
    match s.pc t with
    | .deqLoadSlot _ => !(s.pc false).isStore && !(s.pc true).isStore
    | _ => true
  | _ => true

theorem readsStored_of_noStoreAtRead (s : State Bool Nat) (a : Act Bool Nat)
    (h : noStoreAtRead s a = true) : ReadsStored s a := by
  cases a with
  | advance t =>
    intro rd ht _ u ele hu
    simp only [noStoreAtRead, ht, Bool.and_eq_true, Bool.not_eq_true'] at h
    cases u with
    | false => simp [hu, Pc.isStore] at h
    | true => simp [hu, Pc.isStore] at h
  | _ => trivial

theorem nothing_lost_nothing_invented_schedule :
    ∃ s, run (step .multi) (init 0 2) storedSchedule = some s ∧
      s.pc true = .idle (some (.deq (some 7))) ∧ s.q.claimed = [7] ∧ MultiCorrect s := by
  have hread : Along (step .multi) ReadsStored (init 0 2) storedSchedule :=
    Along.mono readsStored_of_noStoreAtRead (by decide +kernel)
  have h := nothing_lost_nothing_invented (by decide) hread rfl (by decide)
  exact ⟨_, rfl, rfl, rfl, h.1⟩

end RecordServer.Datas.TaskQueue
