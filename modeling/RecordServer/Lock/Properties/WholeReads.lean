import RecordServer.Lock.Seqlock

/-!
# 読み手は書き終えた語だけを揃えて読む

* `Counted` — 番号は書き手の進み具合を数え、偶数なら語は書き終えたものである
* `Consistent` — 全体の不変量
* `reads_whole_run` — `read_seqretry` が 0 を返した読み手の語は、`read_seqbegin` が返ったときに
  書き終えられていたものに揃う
-/

namespace RecordServer.Lock

open Infra

variable {ρ ω ν : Type*} {s s' : State ρ ω ν}

/-! ## 不変量 -/

/-- 番号は、書き終えた回数の二倍に、書いている途中なら一を足したものである。 -/
structure Counted (s : State ρ ω ν) : Prop where
  sequence : s.lock.sequence = u32 (2 * s.completed + if s.writing then 1 else 0)
  settled : s.writing = false → s.words = s.contents s.completed

/-- 読み手の local 変数と履歴。 -/
def ReaderOk (s : State ρ ω ν) (r : ρ) : ReaderPc ω ν → Prop
  | .reading start loaded =>
    start = u32 (2 * s.begun r) ∧ s.begun r ≤ s.completed ∧
      (s.begun r = s.completed → s.writing = false →
        ∀ w v, loaded w = some v → v = s.contents (s.begun r) w)
  | .done ret loaded =>
    s.begun r ≤ s.completed ∧
      (ret = 0 → s.ended r < s.begun r + 2 ^ 31 →
        ∀ w v, loaded w = some v → v = s.contents (s.begun r) w)
  | _ => True

structure Consistent (s : State ρ ω ν) : Prop where
  counted : Counted s
  reader : ∀ r, ReaderOk s r (s.reader r)

/-- 番号が読み始めと同じで、その間の書き込みが `2 ^ 31` 回より少なければ、書き手は動いていない。 -/
theorem unchanged_of_sequence {b c : Nat} {writing : Bool} (hle : b ≤ c) (hfew : c < b + 2 ^ 31)
    (h : u32 (2 * c + if writing then 1 else 0) = u32 (2 * b)) : b = c ∧ writing = false := by
  unfold u32 at h
  cases writing with
  | true =>
    simp only [if_true] at h
    omega
  | false =>
    simp only [Bool.false_eq_true, if_false] at h
    exact ⟨by omega, rfl⟩

theorem readSeqretry_eq_zero {pl : SeqlockT} {start : Nat} (h : readSeqretry pl start = 0) :
    pl.sequence = start := by
  unfold readSeqretry at h
  split at h
  · cases h
  · rename_i heq
    exact not_not.mp heq

/-- `read_seqbegin` が番号を返したなら、書き手は書いていない。 -/
theorem Counted.start (h : Counted s) {start : Nat}
    (hstart : readSeqbegin s.lock = some start) :
    s.writing = false ∧ start = u32 (2 * s.completed) := by
  unfold readSeqbegin at hstart
  split at hstart
  · cases hstart
  · rename_i hodd
    obtain rfl := Option.some.inj hstart
    have hseq := h.sequence
    cases hw : s.writing with
    | true =>
      rw [hw, if_pos rfl, u32] at hseq
      omega
    | false =>
      rw [hw, if_neg Bool.false_ne_true] at hseq
      exact ⟨rfl, hseq⟩

/-! ## 一歩 -/

theorem consistent_init (words : ω → ν) : Consistent (init words : State ρ ω ν) where
  counted := ⟨rfl, fun _ => rfl⟩
  reader := fun _ => trivial

/-- 書き手が書き始めると、読みかけの語には何も求めない。 -/
theorem consistent_lock (h : Consistent s) (hw : s.writing = false) :
    Consistent { s with lock := writeSeqlock s.lock, writing := true } where
  counted := by
    refine ⟨?_, nofun⟩
    have hseq := h.counted.sequence
    simp only [hw, Bool.false_eq_true, if_false] at hseq
    simp only [writeSeqlock, hseq, u32, if_true]
    omega
  reader := by
    intro r
    have hr := h.reader r
    cases hpc : s.reader r with
    | reading start loaded =>
      rw [hpc] at hr
      exact ⟨hr.1, hr.2.1, fun _ hfalse => by simp at hfalse⟩
    | done ret loaded =>
      rw [hpc] at hr
      exact hr
    | _ => trivial

theorem consistent_store [DecidableEq ω] (h : Consistent s) (hw : s.writing = true) (w : ω) (v : ν) :
    Consistent { s with words := Function.update s.words w v } where
  counted := ⟨h.counted.sequence, fun hfalse => absurd (hw.symm.trans hfalse) (by decide)⟩
  reader := h.reader

/-- 書き終えると、それより前に読み始めた読み手は、もう番号が合わない。 -/
theorem consistent_unlock (h : Consistent s) (hw : s.writing = true) :
    Consistent { s with
      lock := writeSequnlock s.lock
      writing := false
      completed := s.completed + 1
      contents := Function.update s.contents (s.completed + 1) s.words } where
  counted := by
    refine ⟨?_, fun _ => by simp⟩
    have hseq := h.counted.sequence
    simp only [hw, if_true] at hseq
    simp only [writeSequnlock, hseq, u32, Bool.false_eq_true, if_false]
    omega
  reader := by
    intro r
    have hr := h.reader r
    -- 履歴の新しい欄は、どの読み手の始まりよりも後である
    have hkeep : s.begun r ≤ s.completed →
        Function.update s.contents (s.completed + 1) s.words (s.begun r) = s.contents (s.begun r) :=
      fun hle => Function.update_of_ne (by omega) _ _
    cases hpc : s.reader r with
    | reading start loaded =>
      rw [hpc] at hr
      obtain ⟨hstart, hle, -⟩ := hr
      refine ⟨hstart, Nat.le_succ_of_le hle, fun heq => ?_⟩
      have hlt : s.begun r = s.completed + 1 := heq
      omega
    | done ret loaded =>
      rw [hpc] at hr
      obtain ⟨hle, hwhole⟩ := hr
      refine ⟨Nat.le_succ_of_le hle, fun hret hfew w v hv => ?_⟩
      show v = Function.update s.contents (s.completed + 1) s.words (s.begun r) w
      rw [hkeep hle]
      exact hwhole hret hfew w v hv
    | _ => trivial

/-- 読み手 `r` だけが動いても、他の読み手の条件は変わらない。 -/
theorem consistent_move [DecidableEq ρ] (h : Consistent s) {r : ρ} {pc : ReaderPc ω ν} {begun ended : ρ → Nat}
    (hbegun : ∀ r', r' ≠ r → begun r' = s.begun r') (hended : ∀ r', r' ≠ r → ended r' = s.ended r')
    (hr : ReaderOk { s.move r pc with begun := begun, ended := ended } r pc) :
    Consistent { s.move r pc with begun := begun, ended := ended } where
  counted := ⟨h.counted.sequence, h.counted.settled⟩
  reader := by
    intro r'
    by_cases hrr : r' = r
    · subst hrr
      show ReaderOk _ r' (Function.update s.reader r' pc r')
      rw [Function.update_self]
      exact hr
    · show ReaderOk _ r' (Function.update s.reader r pc r')
      rw [Function.update_of_ne hrr]
      have hold := h.reader r'
      cases hpc : s.reader r' with
      | reading start loaded =>
        rw [hpc] at hold
        show _ = u32 (2 * begun r') ∧ begun r' ≤ _ ∧ _
        rw [hbegun r' hrr]
        refine ⟨hold.1, hold.2.1, fun heq hw w v hv => ?_⟩
        show v = s.contents (begun r') w
        have heq' : begun r' = s.completed := heq
        rw [hbegun r' hrr] at heq' ⊢
        exact hold.2.2 heq' hw w v hv
      | done ret loaded =>
        rw [hpc] at hold
        show begun r' ≤ _ ∧ (_ → ended r' < begun r' + _ → ∀ w v, _ → v = s.contents (begun r') w)
        rw [hbegun r' hrr, hended r' hrr]
        exact hold
      | _ => trivial

section

variable [DecidableEq ρ] [DecidableEq ω]

/-- **どの一歩も不変量を保つ。** -/
theorem consistent_step {a : Act ρ ω ν} (hs : step s a = some s') (h : Consistent s) :
    Consistent s' := by
  obtain ⟨hw, rfl⟩ | ⟨w, v, hw, rfl⟩ | ⟨hw, rfl⟩ | ⟨r, rfl⟩ | rfl | ⟨r, start, hstart, rfl⟩ |
    ⟨r, w, start, loaded, hr, rfl⟩ | ⟨r, start, loaded, hr, rfl⟩ := step_cases hs
  · exact consistent_lock h hw
  · exact consistent_store h hw w v
  · exact consistent_unlock h hw
  · exact consistent_move h (fun _ _ => rfl) (fun _ _ => rfl) trivial
  · exact h
  · -- 読み始めるとき、書き手は書いていない
    refine consistent_move h (fun _ hne => Function.update_of_ne hne _ _) (fun _ _ => rfl) ?_
    show _ = u32 (2 * Function.update s.begun r s.completed r) ∧
      Function.update s.begun r s.completed r ≤ s.completed ∧ _
    rw [Function.update_self]
    exact ⟨(h.counted.start hstart).2, Nat.le_refl _, fun _ _ w v hv => by cases hv⟩
  · -- 書き手が動いていなければ、今の語は読み始めたときの語である
    have hold := h.reader r
    rw [hr] at hold
    obtain ⟨hstart, hle, hwhole⟩ := hold
    refine consistent_move h (fun _ _ => rfl) (fun _ _ => rfl) ⟨hstart, hle, ?_⟩
    intro heq hwriting w' v hv
    by_cases hw : w' = w
    · subst hw
      rw [Function.update_self] at hv
      rw [← Option.some.inj hv, h.counted.settled hwriting]
      exact congrArg (fun k => s.contents k w') (show s.completed = s.begun r from heq.symm)
    · rw [Function.update_of_ne hw] at hv
      exact hwhole heq hwriting w' v hv
  · have hold := h.reader r
    rw [hr] at hold
    obtain ⟨hstart, hle, hwhole⟩ := hold
    refine consistent_move h (fun _ _ => rfl) (fun _ hne => Function.update_of_ne hne _ _)
      ⟨hle, fun hret hfew => ?_⟩
    have hfew' : s.completed < s.begun r + 2 ^ 31 := by
      have hend : Function.update s.ended r s.completed r = s.completed := Function.update_self ..
      exact hend ▸ hfew
    have hsame := h.counted.sequence.symm.trans ((readSeqretry_eq_zero hret).trans hstart)
    obtain ⟨heq, hwriting⟩ := unchanged_of_sequence hle hfew' hsame
    exact hwhole heq hwriting

/--
**`read_seqretry` が 0 を返した読み手の語は、`read_seqbegin` が返ったときに書き終えられていた語に揃う。**

その間に書き終えられた回数が `2 ^ 31` より少ないどの run でも成り立つ。
-/
theorem reads_whole_run {words : ω → ν} {as : List (Act ρ ω ν)} {r : ρ} {loaded : ω → Option ν}
    (hrun : run step (init words) as = some s) (hdone : s.reader r = .done 0 loaded)
    (hfew : s.ended r < s.begun r + 2 ^ 31) :
    ∀ w v, loaded w = some v → v = s.contents (s.begun r) w := by
  have hinv : Consistent s :=
    run_invariant (P := fun _ _ => True) (fun _ _ _ _ hs h => consistent_step hs h)
      (Along.trivial _ _) hrun (consistent_init words)
  have hr := hinv.reader r
  rw [hdone] at hr
  exact hr.2 rfl hfew

/-- 一つ目の語と二つ目の語の store の間に読み始めた読み手は、書き終わるまで待って新しい値を揃えて読む。 -/
theorem reads_whole_run_once : ∃ (s : State Unit Bool Nat) (loaded : Bool → Option Nat),
    run step (init fun _ => 0) [.lock, .store false 1, .start (), .seqbegin (), .store true 1, .unlock,
      .seqbegin (), .load () true, .load () false, .seqretry ()] = some s ∧
    s.reader () = .done 0 loaded ∧ loaded true = some 1 ∧
    ∀ w v, loaded w = some v → v = s.contents (s.begun ()) w := by
  obtain ⟨s, hrun, loaded, hdone, hone, hfew⟩ : ∃ s : State Unit Bool Nat,
      run step (init fun _ => 0) [.lock, .store false 1, .start (), .seqbegin (), .store true 1,
        .unlock, .seqbegin (), .load () true, .load () false, .seqretry ()] = some s ∧
      ∃ loaded, s.reader () = .done 0 loaded ∧ loaded true = some 1 ∧
        s.ended () < s.begun () + 2 ^ 31 := ⟨_, rfl, _, rfl, rfl, by decide⟩
  exact ⟨s, loaded, hrun, hdone, hone, reads_whole_run hrun hdone hfew⟩

end

end RecordServer.Lock
