import RecordServer.Timer.Process

/-!
# 一回の `pure_timer_process`

loop は、木の最小の event を外して handler を呼び、また最小を読み直す。木は handler が変える。

* `Handler` — 何回目に、どの event で、どんな状態で呼ばれたかに応じて、行う操作を決める
* `process` — loop の全体。走らせた handler の記録を返す
* `Heads` — loop の頭で見られる状態
* `Pending` — 木の中の event とその期限
* `Holds.execs` — handler の操作の列が `Pending` に及ぼすこと
-/

namespace RecordServer.Timer

open Infra Datas

/-- handler の行う操作を、その場の状態から決める。 -/
abbrev Handler := Nat → Ptr → World → List Call

/-- 走らせた handler の記録。 -/
structure Fired where
  ev : Ptr
  deadline : Key
  /-- handler に入ったときの状態。 -/
  start : World
  /-- handler の行った操作。 -/
  calls : List Call

def execs (fuel : Nat) : World → List Call → Option World
  | w, [] => some w
  | w, c :: cs => (exec fuel w c).bind fun w => execs fuel w cs

/-- `pure_timer_process` の loop。`n` はそれまでに走らせた handler の数である。 -/
def process (handler : Handler) (now : Key) : Nat → Nat → World → Option (List Fired × World)
  | 0, _, _ => none
  | fuel + 1, n, w =>
    (w.turn fuel now).bind fun r =>
      match r.1 with
      | none => some ([], r.2)
      | some ev =>
        (execs fuel r.2 (handler n ev r.2)).bind fun w' =>
          (process handler now fuel (n + 1) w').map fun out =>
            (⟨ev, w.timer.prbt.key ev, r.2, handler n ev r.2⟩ :: out.1, out.2)

/-- `w` から始めた loop が、`n` 回 handler を走らせて `w'` で頭に戻る。 -/
inductive Heads (handler : Handler) (now : Key) (w : World) : Nat → World → Prop
  | start : Heads handler now w 0 w
  | next {n w₁ w₂ w₃ ev} : Heads handler now w n w₁ →
      Converges (fun fuel => w₁.turn fuel now) (some ev, w₂) →
      Converges (fun fuel => execs fuel w₂ (handler n ev w₂)) w₃ →
      Heads handler now w (n + 1) w₃

/-- 寿命の中で行う操作の列。 -/
def Lawful : World → List Call → Prop
  | _, [] => True
  | w, c :: cs => Allowed w c ∧ ∀ w', Converges (fun fuel => exec fuel w c) w' → Lawful w' cs

/-- 時計が戻らず、`1` から `2 ^ 31 - 1` までの `timer` で加える。 -/
def Timely (now : Key) : Call → Prop
  | .add timer clock _ =>
    1 ≤ timer.val ∧ timer.val < 2 ^ 31 ∧ now ≤ clock ∧ timer.val + clock.val < 2 ^ 64
  | _ => True

/-- `ev` を木から外す操作。 -/
def Deletes (ev : Ptr) (c : Call) : Prop := c = .delete ev ∨ c = .destroy ev

/-- `ev` が期限 `k` で木の中にある。 -/
def Pending (w : World) (ev : Ptr) (k : Key) : Prop :=
  InTree w.timer.prbt ev ∧ w.timer.prbt.key ev = k

variable {w : World} {rb : RBTree Entry} {now : Key}

theorem Holds.pending_iff (h : Holds w rb) {ev : Ptr} {k : Key} :
    Pending w ev k ↔ ⟨ev, k, ev⟩ ∈ rb.toList := by
  unfold Pending
  rw [inTree_iff h.valid.shows]
  constructor
  · rintro ⟨hin, rfl⟩
    obtain ⟨e, he, rfl⟩ := List.mem_map.mp hin
    have hdata := (h.own e he).2.1
    rw [(h.valid.cell he).2.1]
    obtain ⟨p, k, d⟩ := e
    obtain rfl : d = p := hdata
    exact he
  · intro he
    exact ⟨List.mem_map.mpr ⟨_, he, rfl⟩, (h.valid.cell he).2.1⟩

theorem Holds.pending_of_mem (h : Holds w rb) {e : Entry} (he : e ∈ rb.toList) :
    Pending w e.ptr e.key :=
  ⟨(inTree_iff h.valid.shows _).mpr (List.mem_map.mpr ⟨e, he, rfl⟩), (h.valid.cell he).2.1⟩

theorem Pending.unique {ev : Ptr} {k k' : Key} (h : Pending w ev k) (h' : Pending w ev k') :
    k = k' := h.2.symm.trans h'.2

/-! ## handler の操作 -/

/-- 加える期限がどれも `Q` を満たす。 -/
def Adds (Q : Key → Prop) (c : Call) : Prop :=
  ∀ timer clock ev, c = .add timer clock ev → Q (timer + clock)

/-- 加えた event の期限は `now` より後である。 -/
theorem Timely.adds {c : Call} (hc : Timely now c) : Adds (now < ·) c := by
  rintro timer clock ev rfl
  obtain ⟨hpos, -, hclock, hwrap⟩ := hc
  have hval : (timer + clock).val = timer.val + clock.val :=
    (Fin.val_add timer clock).trans (Nat.mod_eq_of_lt hwrap)
  rw [Fin.le_def] at hclock
  rw [Fin.lt_def, hval]
  omega

/-- 一つの操作の後の `Pending`。 -/
theorem Holds.exec_pending {Q : Key → Prop} (h : Holds w rb) {c : Call} (ha : Allowed w c)
    (hc : Adds Q c) :
    ∃ w' rb', Converges (fun fuel => Timer.exec fuel w c) w' ∧ Holds w' rb' ∧
      (∀ ev k, Pending w ev k → ¬ Deletes ev c → Pending w' ev k) ∧
      ∀ ev k, Pending w' ev k → ¬ Q k → Pending w ev k ∧ ¬ Deletes ev c := by
  obtain ⟨w', rb', hrun, h', heff⟩ := h.exec ha
  refine ⟨w', rb', hrun, h', fun ev k hp hnot => ?_, fun ev k hp hQ => ?_⟩
  · rw [h.pending_iff] at hp
    rw [h'.pending_iff]
    cases c with
    | construct d => exact (heff _).mpr hp
    | destroy d => exact (heff _).mpr ⟨hp, fun heq => hnot (.inr (heq ▸ rfl))⟩
    | add timer clock d => exact (heff _).mpr (.inr hp)
    | delete d => exact (heff _).mpr ⟨hp, fun heq => hnot (.inl (heq ▸ rfl))⟩
  · rw [h'.pending_iff] at hp
    rw [h.pending_iff]
    cases c with
    | construct d => exact ⟨(heff _).mp hp, by simp [Deletes]⟩
    | destroy d =>
      obtain ⟨hold, hne⟩ := (heff _).mp hp
      exact ⟨hold, by simpa [Deletes] using Ne.symm hne⟩
    | add timer clock d =>
      rcases (heff _).mp hp with ⟨heq, -⟩ | hold
      · have hk : k = timer + clock := congrArg Entry.key heq
        exact absurd (hc timer clock d rfl) (hk ▸ hQ)
      · exact ⟨hold, by simp [Deletes]⟩
    | delete d =>
      obtain ⟨hold, hne⟩ := (heff _).mp hp
      exact ⟨hold, by simpa [Deletes] using Ne.symm hne⟩

/-- **handler の操作は終わる。消さなかった event は残り、増えるのは期限が `Q` を満たす event だけである。** -/
theorem Holds.execs {Q : Key → Prop} {cs : List Call} (h : Holds w rb) (hlaw : Lawful w cs)
    (hcs : ∀ c ∈ cs, Adds Q c) :
    ∃ w' rb', Converges (fun fuel => Timer.execs fuel w cs) w' ∧ Holds w' rb' ∧
      (∀ ev k, Pending w ev k → (∀ c ∈ cs, ¬ Deletes ev c) → Pending w' ev k) ∧
      ∀ ev k, Pending w' ev k → ¬ Q k → Pending w ev k ∧ ∀ c ∈ cs, ¬ Deletes ev c := by
  induction cs generalizing w rb with
  | nil => exact ⟨w, rb, .pure w, h, fun _ _ hp _ => hp, fun _ _ hp _ => ⟨hp, by simp⟩⟩
  | cons c cs ih =>
    obtain ⟨w₁, rb₁, hrun₁, h₁, hkeep₁, hold₁⟩ := h.exec_pending hlaw.1 (hcs c (by simp))
    obtain ⟨w', rb', hrun, h', hkeep, hold⟩ :=
      ih h₁ (hlaw.2 w₁ hrun₁) fun c' hc' => hcs c' (List.mem_cons_of_mem _ hc')
    refine ⟨w', rb', hrun₁.bind hrun, h', fun ev k hp hnot => ?_, fun ev k hp hQ => ?_⟩
    · refine hkeep ev k (hkeep₁ ev k hp (hnot c (by simp))) fun c' hc' => ?_
      exact hnot c' (List.mem_cons_of_mem _ hc')
    · obtain ⟨hp₁, hnot⟩ := hold ev k hp hQ
      obtain ⟨hp₀, hnot₀⟩ := hold₁ ev k hp₁ hQ
      refine ⟨hp₀, fun c' hc' => ?_⟩
      rcases List.mem_cons.mp hc' with rfl | hc'
      · exact hnot₀
      · exact hnot c' hc'

end RecordServer.Timer
