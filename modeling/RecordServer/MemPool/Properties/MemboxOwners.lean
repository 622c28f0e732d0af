import RecordServer.MemPool.PMembox

/-!
# 箱の block の持ち主と空きの数

`seq` は持ち主の数そのものである。`free_num` は、CAS を終えて加減算をまだ済ませていない呼び出しの
分だけ、空きの block の数からずれる。

* `step_cases` — 一歩で起こりうることのすべて
* `Local` — 途中の呼び出しが、その場所で知っていること
* `Inv` — どんな割り込みでも保たれること
* `scanned_all` — 一人で `NULL` に着いたなら、すべての block を見ている
* `owners_and_count` — 持ち主は高々一人で、数が合う
-/

namespace RecordServer.MemPool.PMembox

open Infra

variable {τ : Type*} [DecidableEq τ] {s s' : State τ} {t : τ}

/-! ## 一歩 -/

/-- 印も数も変えずに `t` を進める一歩。 -/
inductive Quiet (s : State τ) (t : τ) : Pc → Prop
  | alloc {r} : s.pc t = .idle r → Quiet s t .allocLoadFree
  | free {r b} : s.pc t = .idle r → t ∈ s.owners b → Quiet s t (.freeCas b)
  | full : s.pc t = .allocLoadFree → s.p.freeNum = 0 → Quiet s t (.idle (some (.alloc none)))
  | room : s.pc t = .allocLoadFree → s.p.freeNum ≠ 0 → Quiet s t .allocLoadStart
  | start : s.pc t = .allocLoadStart → Quiet s t (s.p.scan (subU32 s.p.blockNum s.p.freeNum) 0)
  | found {st i} : s.pc t = .allocLoadSeq st i → s.p.seq (s.p.pos st i) = 0 →
      Quiet s t (.allocCas st i)
  | next {st i} : s.pc t = .allocLoadSeq st i ∨ s.pc t = .allocCas st i →
      s.p.seq (s.p.pos st i) ≠ 0 → Quiet s t (s.p.scan st (i + 1))
  | refuse {b} : s.pc t = .freeCas b → s.p.seq b ≠ 1 → Quiet s t (.idle (some .free))
  | load {b} : s.pc t = .freeLoadMp b → s.p.mp b = true → Quiet s t .freeAdd
  | null {b} : s.pc t = .freeLoadMp b → s.p.mp b = false → Quiet s t .fault

/-- `t` の一歩。 -/
inductive Steps (s : State τ) (t : τ) : State τ → Prop
  | quiet {pc} : Quiet s t pc → Steps s t (s.move t pc)
  | take {st i} : s.pc t = .allocCas st i → s.p.seq (s.p.pos st i) = 0 →
      Steps s t { s.move t (.allocSub st i) with
        p := { s.p with seq := Function.update s.p.seq (s.p.pos st i) 1 }
        owners := Function.update s.owners (s.p.pos st i) (t :: s.owners (s.p.pos st i)) }
  | sub {st i} : s.pc t = .allocSub st i →
      Steps s t { s.move t (.allocStoreMp st i) with
        p := { s.p with freeNum := atomicSub s.p.freeNum 1 } }
  | store {st i} : s.pc t = .allocStoreMp st i →
      Steps s t { s.move t (.idle (some (.alloc (some (s.p.pos st i))))) with
        p := { s.p with mp := Function.update s.p.mp (s.p.pos st i) true } }
  | release {b} : s.pc t = .freeCas b → s.p.seq b = 1 →
      Steps s t { s.move t (.freeLoadMp b) with
        p := { s.p with seq := Function.update s.p.seq b 0 }
        owners := Function.update s.owners b ((s.owners b).erase t) }
  | add : s.pc t = .freeAdd →
      Steps s t { s.move t (.idle (some .free)) with
        p := { s.p with freeNum := atomicAdd s.p.freeNum 1 } }

/-- 名札の一歩を進める thread。 -/
def Act.thread : Act τ → τ
  | .alloc t | .free t _ | .advance t => t

theorem steps_advance (h : step s (.advance t) = some s') : Steps s t s' := by
  simp only [step] at h
  cases hpc : s.pc t with
  | idle r => simp [hpc, advance] at h
  | fault => simp [hpc, advance] at h
  | allocLoadFree =>
    simp only [hpc, advance] at h
    split at h
    · rename_i hzero
      cases h
      exact .quiet (.full hpc hzero)
    · rename_i hne
      cases h
      exact .quiet (.room hpc hne)
  | allocLoadStart =>
    simp only [hpc, advance] at h
    cases h
    exact .quiet (.start hpc)
  | allocLoadSeq st i =>
    simp only [hpc, advance] at h
    split at h
    · rename_i hzero
      cases h
      exact .quiet (.found hpc hzero)
    · rename_i hne
      cases h
      exact .quiet (.next (.inl hpc) hne)
  | allocCas st i =>
    simp only [hpc, advance] at h
    split at h
    · rename_i hzero
      cases h
      exact .take hpc hzero
    · rename_i hne
      cases h
      exact .quiet (.next (.inr hpc) hne)
  | allocSub st i =>
    simp only [hpc, advance] at h
    cases h
    exact .sub hpc
  | allocStoreMp st i =>
    simp only [hpc, advance] at h
    cases h
    exact .store hpc
  | freeCas b =>
    simp only [hpc, advance] at h
    split at h
    · rename_i hone
      cases h
      exact .release hpc hone
    · rename_i hne
      cases h
      exact .quiet (.refuse hpc hne)
  | freeLoadMp b =>
    simp only [hpc, advance] at h
    cases h
    cases hmp : s.p.mp b with
    | true => exact .quiet (.load hpc hmp)
    | false => exact .quiet (.null hpc hmp)
  | freeAdd =>
    simp only [hpc, advance] at h
    cases h
    exact .add hpc

theorem step_cases {a : Act τ} (h : step s a = some s') : Steps s a.thread s' := by
  cases a with
  | alloc t =>
    obtain ⟨hidle, hs⟩ := Option.ite_none_right_eq_some.mp h
    cases hs
    cases hpc : s.pc t with
    | idle r => exact .quiet (.alloc hpc)
    | _ => simp [hpc, Pc.isIdle] at hidle
  | free t b =>
    obtain ⟨⟨hidle, hown⟩, hs⟩ := Option.ite_none_right_eq_some.mp h
    cases hs
    cases hpc : s.pc t with
    | idle r => exact .quiet (.free hpc hown)
    | _ => simp [hpc, Pc.isIdle] at hidle
  | advance t => exact steps_advance h

/-! ## 保たれること -/

/-- 途中の呼び出しが、その場所で知っていること。 -/
def Local (p : Mempool) (owners : Nat → List τ) (t : τ) : Pc → Prop
  | .allocSub st i | .allocStoreMp st i => t ∈ owners (p.pos st i)
  | .freeCas b => t ∈ owners b ∧ p.mp b = true
  | .freeLoadMp b => p.mp b = true
  | .fault => False
  | _ => True

/-- `b` を取って、まだ `mp` を書いていない。 -/
def Pc.Taking (p : Mempool) (b : Nat) (pc : Pc) : Prop :=
  ∃ st i, (pc = .allocSub st i ∨ pc = .allocStoreMp st i) ∧ p.pos st i = b

section

variable [Fintype τ]

structure Inv (s : State τ) : Prop where
  blocks : 0 < s.p.blockNum
  small : s.p.blockNum < 2 ^ 31
  lt : s.p.freeNum < 2 ^ 32
  single : ∀ b, (s.owners b).length ≤ 1
  seq : ∀ b, s.p.seq b = (s.owners b).length
  range : ∀ b t, t ∈ s.owners b → b < s.p.blockNum
  localInv : ∀ t, Local s.p s.owners t (s.pc t)
  linked : ∀ t b, t ∈ s.owners b → s.p.mp b = true ∨ (s.pc t).Taking s.p b
  balance : (s.p.freeNum + adding s) % 2 ^ 32 = (freeBlocks s.p + subbing s) % 2 ^ 32

theorem pos_lt {p : Mempool} (h : 0 < p.blockNum) (st i : Nat) : p.pos st i < p.blockNum :=
  Nat.mod_lt _ h

omit [DecidableEq τ] in
/-- 一人だけの持ち主。 -/
theorem Inv.owners_eq (h : Inv s) {b : Nat} (hown : t ∈ s.owners b) : s.owners b = [t] := by
  have hlen := h.single b
  cases howners : s.owners b with
  | nil => simp [howners] at hown
  | cons u us =>
    rw [howners] at hown hlen
    have hus : us = [] := List.eq_nil_of_length_eq_zero (by simpa using hlen)
    subst hus
    rw [List.mem_singleton.mp hown]

omit [DecidableEq τ] in
theorem Inv.owners_nil (h : Inv s) {b : Nat} (hseq : s.p.seq b = 0) : s.owners b = [] := by
  rw [h.seq] at hseq
  exact List.eq_nil_of_length_eq_zero hseq

/-- 書き換えた thread の現在地の数え上げ。 -/
theorem count_move (P : Pc → Bool) (s : State τ) (t : τ) (pc : Pc) :
    count Finset.univ P (Function.update s.pc t pc) + (P (s.pc t)).toNat =
      count Finset.univ P s.pc + (P pc).toNat :=
  count_update (Finset.mem_univ t) pc

/-- 数の足し引きにも、block を取ることにも関わらない現在地。 -/
def Pc.plain : Pc → Bool
  | .allocSub _ _ | .allocStoreMp _ _ | .freeLoadMp _ | .freeAdd => false
  | _ => true

/-- 足し引きの前後を変えない進み方。 -/
def Pc.Alike (p : Mempool) (pc pc' : Pc) : Prop :=
  pc'.isSub = pc.isSub ∧ pc'.isAdd = pc.isAdd ∧ ∀ b, ¬ pc.Taking p b

theorem alike_of_plain {p : Mempool} {pc pc' : Pc} (h : pc.plain) (h' : pc'.plain) :
    pc.Alike p pc' := by
  cases pc <;> simp only [Pc.plain, Bool.false_eq_true] at h <;>
    cases pc' <;> simp_all [Pc.Alike, Pc.plain, Pc.isSub, Pc.isAdd, Pc.Taking]

theorem scan_cases (p : Mempool) (st i : Nat) :
    p.scan st i = .allocLoadSeq st i ∨ p.scan st i = .idle (some (.alloc none)) := by
  unfold Mempool.scan
  split
  · exact .inl rfl
  · exact .inr rfl

theorem scan_plain (p : Mempool) (st i : Nat) : (p.scan st i).plain := by
  rcases scan_cases p st i with h | h <;> rw [h] <;> rfl

omit [DecidableEq τ] in
/-- 静かな一歩は、数を足し引きする前後を変えない。 -/
theorem Quiet.spec (h : Inv s) {pc : Pc} (hq : Quiet s t pc) :
    Local s.p s.owners t pc ∧ (s.pc t).Alike s.p pc := by
  have hloc := h.localInv t
  have hscan : ∀ st i, Local s.p s.owners t (s.p.scan st i) := by
    intro st i
    rcases scan_cases s.p st i with hs | hs <;> rw [hs] <;> trivial
  cases hq with
  | alloc hpc => exact ⟨trivial, hpc ▸ alike_of_plain rfl rfl⟩
  | @free r b hpc hown =>
    have hmp := (h.linked t b hown).resolve_right (by simp [hpc, Pc.Taking])
    exact ⟨⟨hown, hmp⟩, hpc ▸ alike_of_plain rfl rfl⟩
  | full hpc => exact ⟨trivial, hpc ▸ alike_of_plain rfl rfl⟩
  | room hpc => exact ⟨trivial, hpc ▸ alike_of_plain rfl rfl⟩
  | start hpc => exact ⟨hscan _ _, hpc ▸ alike_of_plain rfl (scan_plain _ _ _)⟩
  | found hpc => exact ⟨trivial, hpc ▸ alike_of_plain rfl rfl⟩
  | next hpc =>
    rcases hpc with hpc | hpc <;>
      exact ⟨hscan _ _, hpc ▸ alike_of_plain rfl (scan_plain _ _ _)⟩
  | refuse hpc => exact ⟨trivial, hpc ▸ alike_of_plain rfl rfl⟩
  | load hpc => exact ⟨trivial, by simp [hpc, Pc.Alike, Pc.isSub, Pc.isAdd, Pc.Taking]⟩
  | null hpc hmp =>
    rw [hpc] at hloc
    simp [Local, hmp] at hloc

/-- 釣り合いは、足し引きの前後の変わり方だけで決まる。 -/
theorem Inv.quiet (h : Inv s) {pc : Pc} (hq : Quiet s t pc) : Inv (s.move t pc) where
  blocks := h.blocks
  small := h.small
  lt := h.lt
  single := h.single
  seq := h.seq
  range := h.range
  localInv := (Function.forall_update_iff s.pc (p := Local s.p s.owners)).mpr
    ⟨(hq.spec h).1, fun u _ => h.localInv u⟩
  linked := (Function.forall_update_iff s.pc
      (p := fun u pc => ∀ b, u ∈ s.owners b → s.p.mp b = true ∨ pc.Taking s.p b)).mpr
    ⟨fun b hown => .inl ((h.linked t b hown).resolve_right ((hq.spec h).2.2.2 b)),
      fun u _ => h.linked u⟩
  balance := by
    obtain ⟨hsub, hadd, -⟩ := (hq.spec h).2
    have hs := count_move Pc.isSub s t pc
    have ha := count_move Pc.isAdd s t pc
    rw [hsub] at hs
    rw [hadd] at ha
    have hbal := h.balance
    unfold adding subbing at *
    simp only [State.move]
    rw [Nat.add_right_cancel hs, Nat.add_right_cancel ha]
    exact hbal

/-- 印を書き換えた後の空きの数。 -/
theorem freeBlocks_update {p : Mempool} {b : Nat} (hb : b < p.blockNum) (v : Nat) :
    freeBlocks { p with seq := Function.update p.seq b v } + (p.seq b == 0).toNat =
      freeBlocks p + (v == 0).toNat :=
  count_update (Finset.mem_range.mpr hb) v

/-- CAS が通って `t` が `b` の持ち主になる。 -/
theorem Inv.take (h : Inv s) {st i : Nat} (hpc : s.pc t = .allocCas st i)
    (hseq : s.p.seq (s.p.pos st i) = 0) :
    Inv { s.move t (.allocSub st i) with
      p := { s.p with seq := Function.update s.p.seq (s.p.pos st i) 1 }
      owners := Function.update s.owners (s.p.pos st i) (t :: s.owners (s.p.pos st i)) } := by
  have hb : s.p.pos st i < s.p.blockNum := pos_lt h.blocks st i
  have hnil := h.owners_nil hseq
  have hpos : ∀ st' i', Mempool.pos { s.p with seq := Function.update s.p.seq (s.p.pos st i) 1 }
      st' i' = s.p.pos st' i' := fun _ _ => rfl
  generalize hbdef : s.p.pos st i = b at *
  have hkeep : ∀ u b', u ∈ s.owners b' → u ∈ Function.update s.owners b (t :: s.owners b) b' := by
    intro u b' hu
    by_cases hb' : b' = b
    · subst hb'
      simp [hnil] at hu
    · rwa [Function.update_of_ne hb']
  have hback : ∀ u b', u ∈ Function.update s.owners b (t :: s.owners b) b' →
      (u = t ∧ b' = b) ∨ u ∈ s.owners b' := by
    intro u b' hu
    by_cases hb' : b' = b
    · subst hb'
      exact .inl ⟨by simpa [hnil] using hu, rfl⟩
    · rw [Function.update_of_ne hb'] at hu
      exact .inr hu
  refine ⟨h.blocks, h.small, h.lt, fun b' => ?_, fun b' => ?_, fun b' u hu => ?_, ?_, ?_, ?_⟩
  · by_cases hb' : b' = b
    · simp [hb', hnil]
    · simpa [hb'] using h.single b'
  · by_cases hb' : b' = b
    · simp [hb', hnil]
    · simpa [hb'] using h.seq b'
  · rcases hback u b' hu with ⟨-, rfl⟩ | hu
    · exact hb
    · exact h.range b' u hu
  · refine (Function.forall_update_iff s.pc
      (p := Local s.p (Function.update s.owners b (t :: s.owners b)))).mpr ⟨?_, fun u _ => ?_⟩
    · show t ∈ Function.update s.owners b (t :: s.owners b) (s.p.pos st i)
      rw [hbdef, Function.update_self]
      exact List.mem_cons_self
    · have hloc := h.localInv u
      cases hu : s.pc u <;> rw [hu] at hloc <;> simp only [Local] at hloc ⊢
      · exact hkeep _ _ hloc
      · exact hkeep _ _ hloc
      · exact ⟨hkeep _ _ hloc.1, hloc.2⟩
      · exact hloc
  · refine (Function.forall_update_iff s.pc
      (p := fun u pc => ∀ b', u ∈ Function.update s.owners b (t :: s.owners b) b' →
        s.p.mp b' = true ∨ pc.Taking s.p b')).mpr ⟨fun b' hown => ?_, fun u hu b' hown => ?_⟩
    · rcases hback t b' hown with ⟨-, rfl⟩ | hown
      · exact .inr ⟨st, i, .inl rfl, hbdef⟩
      · exact .inl ((h.linked t b' hown).resolve_right (by simp [hpc, Pc.Taking]))
    · exact h.linked u b' ((hback u b' hown).resolve_left fun hc => hu hc.1)
  · have hs := count_move Pc.isSub s t (.allocSub st i)
    have ha := count_move Pc.isAdd s t (.allocSub st i)
    have hf := freeBlocks_update hb 1
    have hbal := h.balance
    rw [hpc] at hs ha
    rw [hseq] at hf
    simp only [Pc.isSub, Pc.isAdd, Bool.toNat_false, Bool.toNat_true, Nat.add_zero, beq_self_eq_true,
      Nat.reduceBEq] at hs ha hf
    unfold adding subbing at *
    simp only [State.move]
    omega

/-- `free_num` を一つ減らす。 -/
theorem Inv.sub (h : Inv s) {st i : Nat} (hpc : s.pc t = .allocSub st i) :
    Inv { s.move t (.allocStoreMp st i) with
      p := { s.p with freeNum := atomicSub s.p.freeNum 1 } } := by
  have hloc := h.localInv t
  rw [hpc] at hloc
  refine ⟨h.blocks, h.small, Nat.mod_lt _ (by decide), h.single, h.seq, h.range, ?_, ?_, ?_⟩
  · exact (Function.forall_update_iff s.pc (p := Local s.p s.owners)).mpr
      ⟨hloc, fun u _ => h.localInv u⟩
  · refine (Function.forall_update_iff s.pc
      (p := fun u pc => ∀ b, u ∈ s.owners b → s.p.mp b = true ∨ pc.Taking s.p b)).mpr
      ⟨fun b hown => ?_, fun u _ => h.linked u⟩
    rcases h.linked t b hown with hmp | ⟨st', i', hpc', hb⟩
    · exact .inl hmp
    · -- 取っている block は一つなので、同じ block である
      rw [hpc] at hpc'
      simp only [Pc.allocSub.injEq, reduceCtorEq, or_false] at hpc'
      obtain ⟨rfl, rfl⟩ := hpc'
      exact .inr ⟨st, i, .inr rfl, hb⟩
  · have hs := count_move Pc.isSub s t (.allocStoreMp st i)
    have ha := count_move Pc.isAdd s t (.allocStoreMp st i)
    have hbal := h.balance
    have hlt := h.lt
    rw [hpc] at hs ha
    simp only [Pc.isSub, Pc.isAdd, Bool.toNat_false, Bool.toNat_true, Nat.add_zero] at hs ha
    unfold adding subbing freeBlocks at *
    simp only [State.move, atomicSub, subU32]
    omega

/-- 取った block に `mp` を書いて返る。 -/
theorem Inv.store (h : Inv s) {st i : Nat} (hpc : s.pc t = .allocStoreMp st i) :
    Inv { s.move t (.idle (some (.alloc (some (s.p.pos st i))))) with
      p := { s.p with mp := Function.update s.p.mp (s.p.pos st i) true } } := by
  have hmp : ∀ b, s.p.mp b = true → Function.update s.p.mp (s.p.pos st i) true b = true := by
    intro b hb
    by_cases hpos : b = s.p.pos st i
    · rw [hpos, Function.update_self]
    · rwa [Function.update_of_ne hpos]
  refine ⟨h.blocks, h.small, h.lt, h.single, h.seq, h.range, ?_, ?_, ?_⟩
  · refine (Function.forall_update_iff s.pc
      (p := Local { s.p with mp := Function.update s.p.mp (s.p.pos st i) true } s.owners)).mpr
      ⟨trivial, fun u _ => ?_⟩
    have hloc := h.localInv u
    cases hu : s.pc u <;> rw [hu] at hloc <;> simp only [Local] at hloc ⊢
    · exact hloc
    · exact hloc
    · exact ⟨hloc.1, hmp _ hloc.2⟩
    · exact hmp _ hloc
  · refine (Function.forall_update_iff s.pc
      (p := fun u pc => ∀ b, u ∈ s.owners b →
        Function.update s.p.mp (s.p.pos st i) true b = true ∨ pc.Taking s.p b)).mpr
      ⟨fun b hown => ?_, fun u _ b hown => (h.linked u b hown).imp (hmp b) id⟩
    rcases h.linked t b hown with hb | ⟨st', i', hpc', rfl⟩
    · exact .inl (hmp b hb)
    · rw [hpc] at hpc'
      simp only [Pc.allocStoreMp.injEq, reduceCtorEq, false_or] at hpc'
      obtain ⟨rfl, rfl⟩ := hpc'
      exact .inl (Function.update_self ..)
  · have hs := count_move Pc.isSub s t (.idle (some (.alloc (some (s.p.pos st i)))))
    have ha := count_move Pc.isAdd s t (.idle (some (.alloc (some (s.p.pos st i)))))
    have hbal := h.balance
    rw [hpc] at hs ha
    simp only [Pc.isSub, Pc.isAdd, Bool.toNat_false, Nat.add_zero] at hs ha
    unfold adding subbing freeBlocks at *
    simp only [State.move]
    omega

/-- CAS が通って、持ち主の `t` が `b` を返す。 -/
theorem Inv.release (h : Inv s) {b : Nat} (hpc : s.pc t = .freeCas b) :
    Inv { s.move t (.freeLoadMp b) with
      p := { s.p with seq := Function.update s.p.seq b 0 }
      owners := Function.update s.owners b ((s.owners b).erase t) } := by
  obtain ⟨hown, hmp⟩ : t ∈ s.owners b ∧ s.p.mp b = true := by
    have hloc := h.localInv t
    rwa [hpc] at hloc
  have hone := h.owners_eq hown
  have hnil : (s.owners b).erase t = [] := by simp [hone]
  have hseq : s.p.seq b = 1 := by rw [h.seq, hone, List.length_singleton]
  rw [hnil]
  have hmem : ∀ u b', u ∈ Function.update s.owners b [] b' ↔ u ∈ s.owners b' ∧ b' ≠ b := by
    intro u b'
    by_cases hb' : b' = b
    · simp [hb']
    · simp [hb']
  have hne : ∀ u b', u ∈ s.owners b' → u ≠ t → b' ≠ b := by
    rintro u b' hu hut rfl
    rw [hone] at hu
    exact hut (List.mem_singleton.mp hu)
  refine ⟨h.blocks, h.small, h.lt, fun b' => ?_, fun b' => ?_, fun b' u hu => ?_, ?_, ?_, ?_⟩
  · by_cases hb' : b' = b
    · simp [hb']
    · simpa [hb'] using h.single b'
  · by_cases hb' : b' = b
    · simp [hb']
    · simpa [hb'] using h.seq b'
  · exact h.range b' u ((hmem u b').mp hu).1
  · refine (Function.forall_update_iff s.pc
      (p := Local s.p (Function.update s.owners b []))).mpr ⟨hmp, fun u hu => ?_⟩
    have hloc := h.localInv u
    cases hpcu : s.pc u <;> rw [hpcu] at hloc <;> simp only [Local] at hloc ⊢
    · exact (hmem _ _).mpr ⟨hloc, hne u _ hloc hu⟩
    · exact (hmem _ _).mpr ⟨hloc, hne u _ hloc hu⟩
    · exact ⟨(hmem _ _).mpr ⟨hloc.1, hne u _ hloc.1 hu⟩, hloc.2⟩
    · exact hloc
  · refine (Function.forall_update_iff s.pc
      (p := fun u pc => ∀ b', u ∈ Function.update s.owners b [] b' →
        s.p.mp b' = true ∨ pc.Taking s.p b')).mpr
      ⟨fun b' hu => ?_, fun u _ b' hu => h.linked u b' ((hmem u b').mp hu).1⟩
    exact .inl ((h.linked t b' ((hmem t b').mp hu).1).resolve_right (by simp [hpc, Pc.Taking]))
  · have hs := count_move Pc.isSub s t (.freeLoadMp b)
    have ha := count_move Pc.isAdd s t (.freeLoadMp b)
    have hf := freeBlocks_update (h.range b t hown) 0
    have hbal := h.balance
    rw [hpc] at hs ha
    rw [hseq] at hf
    simp only [Pc.isSub, Pc.isAdd, Bool.toNat_false, Bool.toNat_true, Nat.add_zero,
      beq_self_eq_true, Nat.reduceBEq] at hs ha hf
    unfold adding subbing at *
    simp only [State.move]
    omega

/-- `free_num` を一つ増やす。 -/
theorem Inv.add (h : Inv s) (hpc : s.pc t = .freeAdd) :
    Inv { s.move t (.idle (some .free)) with
      p := { s.p with freeNum := atomicAdd s.p.freeNum 1 } } := by
  refine ⟨h.blocks, h.small, Nat.mod_lt _ (by decide), h.single, h.seq, h.range, ?_, ?_, ?_⟩
  · exact (Function.forall_update_iff s.pc (p := Local s.p s.owners)).mpr
      ⟨trivial, fun u _ => h.localInv u⟩
  · exact (Function.forall_update_iff s.pc
      (p := fun u pc => ∀ b, u ∈ s.owners b → s.p.mp b = true ∨ pc.Taking s.p b)).mpr
      ⟨fun b hown => .inl ((h.linked t b hown).resolve_right (by simp [hpc, Pc.Taking])),
        fun u _ => h.linked u⟩
  · have hs := count_move Pc.isSub s t (.idle (some .free))
    have ha := count_move Pc.isAdd s t (.idle (some .free))
    have hbal := h.balance
    rw [hpc] at hs ha
    simp only [Pc.isSub, Pc.isAdd, Bool.toNat_false, Bool.toNat_true, Nat.add_zero] at hs ha
    unfold adding subbing freeBlocks at *
    simp only [State.move, atomicAdd, u32]
    omega

theorem Inv.step (h : Inv s) {a : Act τ} (hstep : PMembox.step s a = some s') : Inv s' := by
  cases step_cases hstep with
  | quiet hq => exact h.quiet hq
  | take hpc hseq => exact h.take hpc hseq
  | sub hpc => exact h.sub hpc
  | store hpc => exact h.store hpc
  | release hpc => exact h.release hpc
  | add hpc => exact h.add hpc

/-! ## 構築の直後 -/

theorem membox_blockNum_lt (sizeofT poolSize trueMem : Nat) :
    (membox sizeofT poolSize trueMem).blockNum < 2 ^ 31 := by
  show _ / sizeofMemblock sizeofT < 2 ^ 31
  have hlt := subU32_lt (subU32 (creatMempool trueMem (alignU32 poolSize 4096)).length
    (sizeofMemblock sizeofT)) (alignU32 sizeofMempool 64)
  have hsize : sizeofMemblock sizeofT = (alignU32 sizeofT 8 + 16 + 63) % 2 ^ 32 / 64 * 64 := rfl
  rcases Nat.eq_zero_or_pos ((alignU32 sizeofT 8 + 16 + 63) % 2 ^ 32 / 64) with hz | hpos
  · rw [hsize, hz]
    simp
  · refine Nat.div_lt_of_lt_mul ?_
    calc _ < 2 ^ 32 := hlt
      _ ≤ 64 * 2 ^ 31 := by decide
      _ ≤ sizeofMemblock sizeofT * 2 ^ 31 := Nat.mul_le_mul_right _ (by omega)

omit [DecidableEq τ] in
/-- 構築の直後は、どの block も空いている。 -/
theorem inv_init {sizeofT poolSize trueMem : Nat}
    (h : 0 < (membox sizeofT poolSize trueMem).blockNum) :
    Inv (init (τ := τ) (membox sizeofT poolSize trueMem)) where
  blocks := h
  small := membox_blockNum_lt sizeofT poolSize trueMem
  lt := (membox_blockNum_lt sizeofT poolSize trueMem).trans (by decide)
  single b := Nat.zero_le _
  seq b := rfl
  range b t ht := by simp [init] at ht
  localInv t := trivial
  linked t b ht := by simp [init] at ht
  balance := by
    have hadd : adding (init (τ := τ) (membox sizeofT poolSize trueMem)) = 0 :=
      count_eq_zero.mpr fun _ _ => rfl
    have hsub : subbing (init (τ := τ) (membox sizeofT poolSize trueMem)) = 0 :=
      count_eq_zero.mpr fun _ _ => rfl
    have hfree : freeBlocks (membox sizeofT poolSize trueMem) =
        (membox sizeofT poolSize trueMem).blockNum :=
      (count_eq_card fun _ _ => rfl).trans (Finset.card_range _)
    show ((membox sizeofT poolSize trueMem).freeNum + _) % _ =
      (freeBlocks (membox sizeofT poolSize trueMem) + _) % _
    rw [hadd, hsub, hfree]
    rfl

/-! ## 一人の `box_alloc` -/

omit [DecidableEq τ] in
/-- 誰も呼び出していなければ、`free_num` は空きの数である。 -/
theorem Inv.quiescent (h : Inv s) (hidle : ∀ u, (s.pc u).isIdle) : s.p.freeNum = freeBlocks s.p := by
  have hpc : ∀ u, ∃ r, s.pc u = .idle r := by
    intro u
    have hu := hidle u
    cases hpc : s.pc u with
    | idle r => exact ⟨r, rfl⟩
    | _ => simp [hpc, Pc.isIdle] at hu
  have hsub : subbing s = 0 := count_eq_zero.mpr fun u _ => by
    obtain ⟨r, hr⟩ := hpc u
    rw [hr]
    rfl
  have hadd : adding s = 0 := count_eq_zero.mpr fun u _ => by
    obtain ⟨r, hr⟩ := hpc u
    rw [hr]
    rfl
  have hbal := h.balance
  have hle : freeBlocks s.p ≤ s.p.blockNum := count_le.trans_eq (Finset.card_range _)
  have hsmall := h.small
  have hlt := h.lt
  omega

/-- 一周すれば、どの block も一度は見る。 -/
theorem pos_surjective {p : Mempool} (hsmall : p.blockNum < 2 ^ 31) {st b : Nat}
    (hst : st ≤ p.blockNum) (hb : b < p.blockNum) : ∃ j < p.blockNum, p.pos st j = b := by
  by_cases hle : st ≤ b
  · refine ⟨b - st, by omega, ?_⟩
    have hlt : b < 2 ^ 32 := by omega
    rw [Mempool.pos, Nat.add_sub_cancel' hle, Nat.mod_eq_of_lt hlt, Nat.mod_eq_of_lt hb]
  · refine ⟨b + p.blockNum - st, by omega, ?_⟩
    have hsum : st + (b + p.blockNum - st) = b + p.blockNum := by omega
    have hlt : b + p.blockNum < 2 ^ 32 := by omega
    rw [Mempool.pos, hsum, Nat.mod_eq_of_lt hlt, Nat.add_mod_right, Nat.mod_eq_of_lt hb]

/-- `t` だけが進んで `r` を返す。 -/
def Returns (s : State τ) (t : τ) (r : Option Nat) : Prop :=
  ∃ k s', run step s (List.replicate k (.advance t)) = some s' ∧ s'.pc t = .idle (some (.alloc r))

omit [Fintype τ] in
theorem Returns.step {r : Option Nat} (hstep : PMembox.step s (.advance t) = some s')
    (h : Returns s' t r) : Returns s t r := by
  obtain ⟨k, s'', hrun, hpc⟩ := h
  exact ⟨k + 1, s'', (run_cons_eq_some _).mpr ⟨s', hstep, hrun⟩, hpc⟩

omit [Fintype τ] in
theorem step_advance {pc : Pc} (hpc : s.pc t = pc) : step s (.advance t) = advance s t pc := by
  rw [step, hpc]

omit [Fintype τ] in
@[simp] theorem move_pc (s : State τ) (t : τ) (pc : Pc) : (s.move t pc).pc t = pc :=
  Function.update_self ..

omit [Fintype τ] in
theorem returns_store {st i : Nat} (hpc : s.pc t = .allocStoreMp st i) :
    Returns s t (some (s.p.pos st i)) :=
  Returns.step (step_advance hpc) ⟨0, _, rfl, move_pc s t _⟩

omit [Fintype τ] in
theorem returns_sub {st i : Nat} (hpc : s.pc t = .allocSub st i) :
    Returns s t (some (s.p.pos st i)) := by
  have hstep := step_advance hpc
  rw [advance] at hstep
  have hpos := returns_store (s := { s.move t (.allocStoreMp st i) with
    p := { s.p with freeNum := atomicSub s.p.freeNum 1 } }) (move_pc s t (.allocStoreMp st i))
  exact Returns.step hstep hpos

omit [Fintype τ] in
/-- 空きを見つけた `t` は、その block を返す。 -/
theorem returns_found {st i : Nat} (hpc : s.pc t = .allocCas st i)
    (hseq : s.p.seq (s.p.pos st i) = 0) : Returns s t (some (s.p.pos st i)) := by
  have hstep := step_advance hpc
  rw [advance, if_pos hseq] at hstep
  have hpos := returns_sub (s := { s.move t (.allocSub st i) with
    p := { s.p with seq := Function.update s.p.seq (s.p.pos st i) 1 }
    owners := Function.update s.owners (s.p.pos st i) (t :: s.owners (s.p.pos st i)) })
    (move_pc s t (.allocSub st i))
  exact Returns.step hstep hpos

omit [Fintype τ] in
/-- `i` 番目から先を見る `t` は、空きを返すか、空きがなかったことを知る。 -/
theorem returns_scan {st i m : Nat} (hm : s.p.blockNum - i = m) (hpc : s.pc t = s.p.scan st i) :
    ∃ r, Returns s t r ∧
      (r = none → ∀ j, i ≤ j → j < s.p.blockNum → s.p.seq (s.p.pos st j) ≠ 0) := by
  induction m generalizing s i with
  | zero =>
    have hge : ¬ i < s.p.blockNum := by omega
    rw [Mempool.scan, if_neg hge] at hpc
    exact ⟨none, ⟨0, s, rfl, hpc⟩, fun _ j hij hj => absurd (Nat.lt_of_le_of_lt hij hj) hge⟩
  | succ m ih =>
    have hlt : i < s.p.blockNum := by omega
    rw [Mempool.scan, if_pos hlt] at hpc
    have hload := step_advance hpc
    by_cases hseq : s.p.seq (s.p.pos st i) = 0
    · rw [advance, if_pos hseq] at hload
      refine ⟨_, Returns.step hload (returns_found (move_pc s t (.allocCas st i)) hseq), ?_⟩
      simp
    · rw [advance, if_neg hseq] at hload
      obtain ⟨r, hret, hnone⟩ := ih (s := s.move t (s.p.scan st (i + 1))) (i := i + 1)
        (show s.p.blockNum - (i + 1) = m by omega) (move_pc s t _)
      refine ⟨r, Returns.step hload hret, fun hr j hij hj => ?_⟩
      rcases Nat.eq_or_lt_of_le hij with rfl | hij
      · exact hseq
      · exact hnone hr j hij hj

/-- 誰も呼び出していないところで始めた `box_alloc` は、空きがあれば block を返す。 -/
theorem Inv.alloc_alone (h : Inv s) (hidle : ∀ u, (s.pc u).isIdle) :
    ∃ s₀ r, PMembox.step s (.alloc t) = some s₀ ∧ Returns s₀ t r ∧
      (r = none → ∀ b < s.p.blockNum, s.p.seq b = 1) := by
  have hnum := h.quiescent hidle
  have hone : ∀ b, s.p.seq b ≠ 0 → s.p.seq b = 1 := by
    intro b hb
    have hsingle := h.single b
    rw [← h.seq] at hsingle
    omega
  refine ⟨s.move t .allocLoadFree, ?_⟩
  have hload := step_advance (move_pc s t .allocLoadFree)
  by_cases hzero : s.p.freeNum = 0
  · rw [advance, if_pos (show (s.move t .allocLoadFree).p.freeNum = 0 from hzero)] at hload
    refine ⟨none, if_pos (hidle t), Returns.step hload ⟨0, _, rfl, move_pc _ t _⟩, ?_⟩
    intro _ b hb
    have hfree := count_eq_zero.mp (hnum.symm.trans hzero) b (Finset.mem_range.mpr hb)
    exact hone b (by simpa using hfree)
  · rw [advance, if_neg (show (s.move t .allocLoadFree).p.freeNum ≠ 0 from hzero)] at hload
    have hstart := step_advance (move_pc (s.move t .allocLoadFree) t .allocLoadStart)
    rw [advance] at hstart
    obtain ⟨r, hret, hnone⟩ := returns_scan rfl (move_pc ((s.move t .allocLoadFree).move t
      .allocLoadStart) t (s.p.scan (subU32 s.p.blockNum s.p.freeNum) 0))
    refine ⟨r, if_pos (hidle t), Returns.step hload (Returns.step hstart hret), fun hr b hb => ?_⟩
    have hst : subU32 s.p.blockNum s.p.freeNum ≤ s.p.blockNum := by
      have hle : freeBlocks s.p ≤ s.p.blockNum := count_le.trans_eq (Finset.card_range _)
      have hsmall := h.small
      unfold subU32
      omega
    obtain ⟨j, hj, rfl⟩ := pos_surjective h.small hst hb
    exact hone _ (hnone hr j (Nat.zero_le j) hj)

/-! ## どんな割り込みでも -/

omit [Fintype τ] in
theorem step_blockNum {a : Act τ} (h : step s a = some s') : s'.p.blockNum = s.p.blockNum := by
  cases step_cases h <;> rfl

theorem inv_run {sizeofT poolSize trueMem : Nat}
    (hblocks : 0 < (membox sizeofT poolSize trueMem).blockNum) {as : List (Act τ)}
    (hrun : run step (init (membox sizeofT poolSize trueMem)) as = some s) :
    Inv s ∧ s.p.blockNum = (membox sizeofT poolSize trueMem).blockNum :=
  run_invariant (I := fun s => Inv s ∧ s.p.blockNum = (membox sizeofT poolSize trueMem).blockNum)
    (fun _ _ _ _ hstep hI => ⟨hI.1.step hstep, (step_blockNum hstep).trans hI.2⟩)
    (Along.trivial _ as) hrun ⟨inv_init hblocks, rfl⟩

/--
**block の持ち主は高々一人で、空きの数が合う。**

何人の thread がどんな順に一歩ずつ進んでも、block は `seq` が 1 のときちょうど一人に持たれる。`free_num`
は、2^32 を法として、`seq` が 0 の block の数に、CAS を終えて引き算の前の `box_alloc` の数を足し、
CAS を終えて足し算の前の `box_free` の数を引いたものである。誰も呼び出していないところでは空きの数に等しく、
そこから一人で呼んだ `box_alloc` は、空きが一つもないときに限って `NULL` を返す。
-/
theorem owners_and_count (sizeofT poolSize trueMem : Nat)
    (hblocks : 1 ≤ (membox sizeofT poolSize trueMem).blockNum) (as : List (Act τ)) (s : State τ)
    (hrun : run step (init (membox sizeofT poolSize trueMem)) as = some s) :
    (∀ b < (membox sizeofT poolSize trueMem).blockNum,
      (s.owners b).length ≤ 1 ∧ (s.p.seq b = 1 ↔ ∃ t, s.owners b = [t]) ∧
        (s.p.seq b = 0 ↔ s.owners b = [])) ∧
    s.p.freeNum < 2 ^ 32 ∧
    (s.p.freeNum + adding s) % 2 ^ 32 = (freeBlocks s.p + subbing s) % 2 ^ 32 ∧
    ((∀ u, (s.pc u).isIdle) →
      s.p.freeNum = freeBlocks s.p ∧
      ∀ t, ∃ s₀ r, step s (.alloc t) = some s₀ ∧ Returns s₀ t r ∧
        (r = none → ∀ b < (membox sizeofT poolSize trueMem).blockNum, s.p.seq b = 1)) := by
  obtain ⟨h, hnum⟩ := inv_run hblocks hrun
  rw [← hnum]
  refine ⟨fun b _ => ⟨h.single b, ?_, ?_⟩, h.lt, h.balance, fun hidle => ?_⟩
  · rw [h.seq, List.length_eq_one_iff]
  · rw [h.seq, List.length_eq_zero_iff]
  · exact ⟨h.quiescent hidle, fun t => h.alloc_alone hidle⟩

/-- 一人目が block を取って返し、数を足す前に、二人目が取り始める。 -/
def handover : List (Act Bool) :=
  [.alloc false, .advance false, .alloc true, .advance false, .advance false, .advance false,
    .advance false, .advance false, .free false 0, .advance false, .advance true]

theorem owners_and_count_handover :
    ∃ s, run step (init (membox 8 4096 64)) handover = some s ∧ s.p.freeNum = 61 ∧
      (s.p.freeNum + adding s) % 2 ^ 32 = (freeBlocks s.p + subbing s) % 2 ^ 32 :=
  ⟨_, rfl, rfl, (owners_and_count 8 4096 64 (by decide) handover _ rfl).2.2.1⟩

end

end RecordServer.MemPool.PMembox
