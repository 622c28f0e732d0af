import RecordServer.Datas.TaskQueue

/-!
# 一つずつ呼んだ queue は長さの限られた FIFO か

index は u32 で回り続け、場所はそれを `m_size` で割った余りである。`m_size` が 2^32 を割り切るなら、
index が 0 に戻っても場所の並びは続く。割り切らなければ、戻るところで並びが飛び、
空きがあるのに満杯と判定される（`refuses_at_wrap`）。

* `Fifo` — 要素を高々 `m_size - 1` 個持つ FIFO
* `Holds` — queue が FIFO の中身を表している
* `fifo_iff` — どんな長さの呼び出しの列でも FIFO と同じ戻り値になるのは、
  `m_size` が 2^32 を割り切るときに限る
-/

namespace RecordServer.Datas.TaskQueue

open Infra

variable {E : Type*}

/-! ## FIFO -/

namespace Fifo

/-- 要素を高々 `cap` 個持つ FIFO への呼び出し。 -/
def call (cap : Nat) (l : List E) : Call E → Ret E × List E
  | .enqueue ele => if l.length < cap then (.enq true, l ++ [ele]) else (.enq false, l)
  | .dequeue =>
    match l with
    | [] => (.deq none, [])
    | ele :: rest => (.deq (some ele), rest)

/-- 呼び出しが受け入れる要素の数。 -/
def accepts (cap : Nat) (l : List E) : Call E → Nat
  | .enqueue _ => if l.length < cap then 1 else 0
  | .dequeue => 0

def calls (cap : Nat) : List E → List (Call E) → List (Ret E) × List E
  | l, [] => ([], l)
  | l, c :: cs =>
    let (r, l') := call cap l c
    let (rs, l'') := calls cap l' cs
    (r :: rs, l'')

theorem calls_append (cap : Nat) (l : List E) (cs ds : List (Call E)) :
    calls cap l (cs ++ ds) =
      ((calls cap l cs).1 ++ (calls cap (calls cap l cs).2 ds).1,
        (calls cap (calls cap l cs).2 ds).2) := by
  induction cs generalizing l with
  | nil => simp [calls]
  | cons c cs ih => simp [calls, ih]

/-- 呼び出しの列のうち、受け入れた enqueue の数。 -/
def accepted (cap : Nat) : List E → List (Call E) → Nat
  | _, [] => 0
  | l, c :: cs => accepts cap l c + accepted cap (call cap l c).2 cs

theorem accepted_append (cap : Nat) (l : List E) (cs ds : List (Call E)) :
    accepted cap l (cs ++ ds) = accepted cap l cs + accepted cap (calls cap l cs).2 ds := by
  induction cs generalizing l with
  | nil => simp [calls, accepted]
  | cons c cs ih => simp [calls, accepted, ih, Nat.add_assoc]

/-- 積んですぐ取り出すことを繰り返すと、空に戻る。 -/
theorem calls_pairs {cap : Nat} (hcap : 0 < cap) (ele : E) (k : Nat) :
    (calls cap [] (List.replicate k [.enqueue ele, .dequeue]).flatten).2 = [] ∧
    accepted cap [] (List.replicate k [.enqueue ele, .dequeue]).flatten = k := by
  induction k with
  | zero => simp [calls, accepted]
  | succ k ih =>
    obtain ⟨h1, h2⟩ := ih
    simp [List.replicate_succ, calls, accepted, accepts, call, hcap, h1, h2, Nat.add_comm]

/-- 空きのある間の enqueue は、すべて受け入れる。 -/
theorem calls_fill {cap : Nat} (ele : E) (k : Nat) (l : List E) (h : l.length + k ≤ cap) :
    (calls cap l (List.replicate k (.enqueue ele))).2.length = l.length + k ∧
    accepted cap l (List.replicate k (.enqueue ele)) = k := by
  induction k generalizing l with
  | zero => simp [calls, accepted]
  | succ k ih =>
    have hlt : l.length < cap := by omega
    obtain ⟨h1, h2⟩ := ih (l ++ [ele]) (by simp; omega)
    simp only [List.length_append, List.length_singleton] at h1
    simp only [List.replicate_succ, calls, accepted, accepts, call, hlt, if_true, h1, h2]
    omega

end Fifo

/-- 一つずつ呼んだときの戻り値が、どれも戻り、FIFO と同じである。 -/
def Behaves (mode : Mode) (zero : E) (size : Nat) (cs : List (Call E)) : Prop :=
  Converges (fun fuel => (calls mode fuel (Queue.queueInit zero size) cs).map Prod.fst)
    (Fifo.calls (size - 1) [] cs).1

/-! ## queue が表す中身 -/

/-- `n` までの index は、u32 に収めても同じ場所を指す。 -/
def Aligned (size n : Nat) : Prop := ∀ i ≤ n, u32 i % size = i % size

theorem aligned_of_dvd {size : Nat} (h : size ∣ 2 ^ 32) (n : Nat) : Aligned size n :=
  fun i _ => Nat.mod_mod_of_dvd i h

theorem aligned_of_lt {size n : Nat} (h : n < 2 ^ 32) : Aligned size n :=
  fun i hi => by rw [u32_of_lt (lt_of_le_of_lt hi h)]

theorem Aligned.mono {size n m : Nat} (h : Aligned size n) (hm : m ≤ n) : Aligned size m :=
  fun i hi => h i (le_trans hi hm)

/-- queue が `l` を順に持っている。 -/
structure Holds (mode : Mode) (q : Queue E) (l : List E) : Prop where
  wr : q.wrindex = u32 q.claimed.length
  rd : q.rdindex = u32 q.taken.length
  published : mode = .multi → q.maxRdindex = u32 q.claimed.length
  le : q.taken.length ≤ q.claimed.length
  room : q.claimed.length + 1 ≤ q.taken.length + q.size
  stored : l = q.claimed.drop q.taken.length
  slots : ∀ i e, q.taken.length ≤ i → q.claimed[i]? = some e → q.elems (u32 i % q.size) = e

theorem holds_init (mode : Mode) (zero : E) {size : Nat} (hsize : 2 ≤ size) :
    Holds mode (Queue.queueInit zero size) [] where
  wr := rfl
  rd := rfl
  published := fun _ => rfl
  le := le_rfl
  room := by simp [Queue.queueInit]; omega
  stored := rfl
  slots := by simp [Queue.queueInit]

variable {mode : Mode} {q : Queue E} {l : List E}

theorem Holds.length (h : Holds mode q l) : l.length = q.claimed.length - q.taken.length := by
  rw [h.stored, List.length_drop]

/-- 満杯の判定は、場所が揃っている間は正しい。 -/
theorem Holds.isFull_iff (h : Holds mode q l) (ha : Aligned q.size (q.claimed.length + 1)) :
    q.isFull q.wrindex q.rdindex ↔ ¬ l.length < q.size - 1 := by
  have hle := h.le
  have hroom := h.room
  have hwr : u32 (q.wrindex + 1) % q.size = (q.claimed.length + 1) % q.size := by
    rw [h.wr, ← ha _ le_rfl]
    simp [u32]
  rw [Queue.isFull, beq_iff_eq, hwr, h.rd, ha _ (by omega), h.length]
  constructor
  · intro heq hlt
    exact mod_ne_of_lt (show q.taken.length < q.claimed.length + 1 by omega) (by omega) heq.symm
  · intro hge
    have heq : q.claimed.length + 1 = q.taken.length + q.size := by omega
    rw [heq, Nat.add_mod_right]

/-- 空の判定は、場所が揃っている間は正しい。 -/
theorem Holds.isEmpty_iff (h : Holds mode q l) (ha : Aligned q.size q.claimed.length) :
    q.isEmpty q.wrindex q.rdindex ↔ l = [] := by
  have hle := h.le
  have hroom := h.room
  rw [Queue.isEmpty, beq_iff_eq, h.wr, h.rd, ha _ le_rfl, ha _ hle, ← List.length_eq_zero_iff,
    h.length]
  constructor
  · intro heq
    by_contra hne
    exact mod_ne_of_lt (show q.taken.length < q.claimed.length by omega) (by omega) heq
  · intro hzero
    rw [show q.taken.length = q.claimed.length by omega]

/-! ## 一つの呼び出し -/

/-- 満杯の enqueue は何も変えずに戻る。 -/
theorem enqueue_full (ele : E) (hf : q.isFull q.wrindex q.rdindex) :
    Converges (fun fuel => runCall mode fuel q (.enqLoadWr ele)) (.enq false, q) := by
  refine ⟨2, fun fuel hfuel => ?_⟩
  obtain ⟨k, rfl⟩ := Nat.exists_eq_add_of_le' hfuel
  simp [runCall, micro, hf]

/-- 空の dequeue は何も変えずに戻る。 -/
theorem dequeue_empty (he : q.isEmpty q.wrindex q.rdindex) :
    Converges (fun fuel => runCall mode fuel q .deqLoadRd) (.deq none, q) := by
  refine ⟨2, fun fuel hfuel => ?_⟩
  obtain ⟨k, rfl⟩ := Nat.exists_eq_add_of_le' hfuel
  simp [runCall, micro, he]

/-- 要素を積み終えた queue。 -/
def pushed (mode : Mode) (q : Queue E) (ele : E) : Queue E :=
  { q with
    wrindex := u32 (q.wrindex + 1)
    claimed := q.claimed ++ [ele]
    elems := Function.update q.elems (q.wrindex % q.size) ele
    maxRdindex := if mode = .multi then u32 (q.maxRdindex + 1) else q.maxRdindex }

/-- 空きのある enqueue は積んで戻る。`MULTI` では、他の enqueue が途中でなければよい。 -/
theorem enqueue_room (hmax : mode = .multi → q.maxRdindex = q.wrindex) (ele : E)
    (hf : q.isFull q.wrindex q.rdindex = false) :
    Converges (fun fuel => runCall mode fuel q (.enqLoadWr ele)) (.enq true, pushed mode q ele) := by
  refine ⟨5, fun fuel hfuel => ?_⟩
  obtain ⟨k, rfl⟩ := Nat.exists_eq_add_of_le' hfuel
  cases mode with
  | single => simp [runCall, micro, hf, pushed]
  | multi => simp [runCall, micro, hf, pushed, hmax rfl]

theorem dequeue_some (he : q.isEmpty q.wrindex q.rdindex = false) :
    Converges (fun fuel => runCall mode fuel q .deqLoadRd)
      (.deq (some (q.elems (q.rdindex % q.size))),
        { q with
          rdindex := u32 (q.rdindex + 1)
          taken := q.taken ++ [q.elems (q.rdindex % q.size)] }) := by
  refine ⟨4, fun fuel hfuel => ?_⟩
  obtain ⟨k, rfl⟩ := Nat.exists_eq_add_of_le' hfuel
  simp [runCall, micro, he]

theorem Holds.push (h : Holds mode q l) (ele : E) (ha : Aligned q.size q.claimed.length)
    (hlt : l.length < q.size - 1) : Holds mode (pushed mode q ele) (l ++ [ele]) := by
  have hle := h.le
  have hlen := h.length
  refine ⟨?_, h.rd, ?_, ?_, ?_, ?_, ?_⟩
  · simp [pushed, h.wr, u32_add]
  · rintro rfl
    simp [pushed, h.published rfl, u32_add]
  · simp only [pushed, List.length_append, List.length_singleton]
    omega
  · simp only [pushed, List.length_append, List.length_singleton]
    omega
  · simp only [pushed]
    rw [List.drop_append_of_le_length hle, ← h.stored]
  · intro i e hi hget
    simp only [pushed] at hi hget ⊢
    rcases lt_trichotomy i q.claimed.length with hil | heq | hgt
    · rw [List.getElem?_append_left hil] at hget
      have hmod : u32 i % q.size ≠ q.wrindex % q.size := by
        rw [h.wr, ha i hil.le, ha _ le_rfl]
        exact mod_ne_of_lt hil (by omega)
      rw [Function.update_of_ne hmod]
      exact h.slots i e hi hget
    · subst heq
      rw [List.getElem?_concat_length] at hget
      rw [h.wr, Function.update_self]
      exact Option.some.inj hget
    · rw [List.getElem?_eq_none (by simp; omega)] at hget
      simp at hget

theorem Holds.pop {ele : E} (h : Holds mode q (ele :: l)) :
    q.elems (q.rdindex % q.size) = ele ∧
    Holds mode { q with rdindex := u32 (q.rdindex + 1), taken := q.taken ++ [ele] } l := by
  have hroom := h.room
  have hlen := h.length
  simp only [List.length_cons] at hlen
  have hget : q.claimed[q.taken.length]? = some ele := by
    have hd := congrArg (fun xs => xs[0]?) h.stored
    simp only [List.getElem?_cons_zero, List.getElem?_drop, Nat.add_zero] at hd
    exact hd.symm
  constructor
  · rw [h.rd]
    exact h.slots _ _ le_rfl hget
  · refine ⟨h.wr, ?_, h.published, ?_, ?_, ?_, ?_⟩
    · simp [h.rd, u32_add]
    · simp only [List.length_append, List.length_singleton]
      omega
    · simp only [List.length_append, List.length_singleton]
      omega
    · have hd := congrArg List.tail h.stored
      simp only [List.tail_cons, List.tail_drop] at hd
      simpa using hd
    · intro i e hi hg
      simp only [List.length_append, List.length_singleton] at hi
      exact h.slots i e (by omega) hg

/-- 呼び出しが積みうる要素の数。 -/
def Call.weight : Call E → Nat
  | .enqueue _ => 1
  | .dequeue => 0

theorem accepts_le_weight (cap : Nat) (l : List E) (c : Call E) :
    Fifo.accepts cap l c ≤ c.weight := by
  cases c with
  | enqueue ele =>
    simp only [Fifo.accepts, Call.weight]
    split <;> omega
  | dequeue => exact le_rfl

/-- 場所が揃っている間、呼び出しは必ず戻り、戻り値も後の中身も FIFO と同じである。 -/
theorem call_spec (h : Holds mode q l) (c : Call E)
    (ha : Aligned q.size (q.claimed.length + c.weight)) :
    ∃ q', Converges (fun fuel => runCall mode fuel q c.entry) ((Fifo.call (q.size - 1) l c).1, q') ∧
      Holds mode q' (Fifo.call (q.size - 1) l c).2 ∧ q'.size = q.size ∧
      q'.claimed.length = q.claimed.length + Fifo.accepts (q.size - 1) l c := by
  cases c with
  | enqueue ele =>
    have hiff := h.isFull_iff ha
    by_cases hlt : l.length < q.size - 1
    · have hf : q.isFull q.wrindex q.rdindex = false := by
        rw [Bool.eq_false_iff]
        exact fun hc => hiff.mp hc hlt
      have hmax : mode = .multi → q.maxRdindex = q.wrindex := fun hm =>
        (h.published hm).trans h.wr.symm
      refine ⟨pushed mode q ele, ?_, ?_, rfl, by simp [pushed, Fifo.accepts, hlt]⟩
      · simpa [Fifo.call, hlt, Call.entry] using enqueue_room hmax ele hf
      · simpa [Fifo.call, hlt] using h.push ele (ha.mono (Nat.le_add_right _ _)) hlt
    · refine ⟨q, ?_, ?_, rfl, by simp [Fifo.accepts, hlt]⟩
      · simpa [Fifo.call, hlt, Call.entry] using enqueue_full ele (hiff.mpr hlt)
      · simpa [Fifo.call, hlt] using h
  | dequeue =>
    have hiff := h.isEmpty_iff ha
    cases l with
    | nil => exact ⟨q, dequeue_empty (hiff.mpr rfl), h, rfl, rfl⟩
    | cons ele rest =>
      have he : q.isEmpty q.wrindex q.rdindex = false := by
        rw [Bool.eq_false_iff]
        exact fun hc => by simpa using hiff.mp hc
      obtain ⟨hele, hpop⟩ := h.pop
      have hcall : Converges (fun fuel => runCall mode fuel q .deqLoadRd) _ := dequeue_some he
      rw [hele] at hcall
      exact ⟨_, hcall, hpop, rfl, rfl⟩

/-! ## 呼び出しの列 -/

theorem calls_append_eq (mode : Mode) (fuel : Nat) (q : Queue E) (cs ds : List (Call E)) :
    calls mode fuel q (cs ++ ds) = (calls mode fuel q cs).bind fun a =>
      (calls mode fuel a.2 ds).map fun b => (a.1 ++ b.1, b.2) := by
  induction cs generalizing q with
  | nil => simp [calls]
  | cons c cs ih =>
    simp only [List.cons_append, calls, ih]
    cases runCall mode fuel q c.entry with
    | none => rfl
    | some a =>
      cases h : calls mode fuel a.2 cs with
      | none => simp [h]
      | some b => simp [h, Option.map_map, Function.comp_def]

theorem calls_cons {c : Call E} {cs : List (Call E)} {r : Ret E} {q' q'' : Queue E}
    {rs : List (Ret E)} (hc : Converges (fun fuel => runCall mode fuel q c.entry) (r, q'))
    (hcs : Converges (fun fuel => calls mode fuel q' cs) (rs, q'')) :
    Converges (fun fuel => calls mode fuel q (c :: cs)) (r :: rs, q'') := by
  obtain ⟨n, hn⟩ := hc
  obtain ⟨m, hm⟩ := hcs
  refine ⟨max n m, fun fuel hfuel => ?_⟩
  have h₁ := hn fuel (le_trans (le_max_left n m) hfuel)
  have h₂ := hm fuel (le_trans (le_max_right n m) hfuel)
  simp only at h₁ h₂
  simp [calls, h₁, h₂]

theorem calls_append {cs ds : List (Call E)} {rs rs' : List (Ret E)} {q' q'' : Queue E}
    (hcs : Converges (fun fuel => calls mode fuel q cs) (rs, q'))
    (hds : Converges (fun fuel => calls mode fuel q' ds) (rs', q'')) :
    Converges (fun fuel => calls mode fuel q (cs ++ ds)) (rs ++ rs', q'') := by
  obtain ⟨n, hn⟩ := hcs
  obtain ⟨m, hm⟩ := hds
  refine ⟨max n m, fun fuel hfuel => ?_⟩
  have h₁ := hn fuel (le_trans (le_max_left n m) hfuel)
  have h₂ := hm fuel (le_trans (le_max_right n m) hfuel)
  simp only at h₁ h₂ ⊢
  rw [calls_append_eq, h₁]
  simp [h₂]

/-- 積みうる要素の数。 -/
def weight : List (Call E) → Nat
  | [] => 0
  | c :: cs => c.weight + weight cs

/-- 場所が揃っている間の呼び出しの列。 -/
theorem calls_spec (h : Holds mode q l) (cs : List (Call E))
    (ha : Aligned q.size (q.claimed.length + weight cs)) :
    ∃ q', Converges (fun fuel => calls mode fuel q cs) ((Fifo.calls (q.size - 1) l cs).1, q') ∧
      Holds mode q' (Fifo.calls (q.size - 1) l cs).2 ∧ q'.size = q.size ∧
      q'.claimed.length = q.claimed.length + Fifo.accepted (q.size - 1) l cs := by
  induction cs generalizing q l with
  | nil => exact ⟨q, Converges.pure _, h, rfl, rfl⟩
  | cons c cs ih =>
    rw [weight] at ha
    have hacc := accepts_le_weight (q.size - 1) l c
    obtain ⟨q₁, hc, h₁, hsz₁, hlen₁⟩ := call_spec h c (ha.mono (by omega))
    have ha₁ : Aligned q₁.size (q₁.claimed.length + weight cs) := by
      rw [hsz₁]
      exact ha.mono (by omega)
    obtain ⟨q₂, hcs, h₂, hsz₂, hlen₂⟩ := ih h₁ ha₁
    rw [hsz₁] at hcs h₂ hlen₂
    refine ⟨q₂, calls_cons hc hcs, h₂, hsz₂.trans hsz₁, ?_⟩
    rw [hlen₂, hlen₁, Fifo.accepted, Nat.add_assoc]

theorem behaves_of_aligned {zero : E} {size : Nat} (hsize : 2 ≤ size) (cs : List (Call E))
    (ha : Aligned size (weight cs)) : Behaves mode zero size cs := by
  have hinit := holds_init mode zero hsize
  obtain ⟨q', hcs, _, _, _⟩ := calls_spec hinit cs (by simpa [Queue.queueInit] using ha)
  exact hcs.map Prod.fst

/-! ## index が 0 に戻るところ -/

/-- 余りの手前まで積んで取り出し、余りより一つ少なく積む。 -/
def beforeWrap (ele : E) (size : Nat) : List (Call E) :=
  (List.replicate (2 ^ 32 - 2 ^ 32 % size) [.enqueue ele, .dequeue]).flatten ++
    List.replicate (2 ^ 32 % size - 1) (.enqueue ele)

theorem weight_append (cs ds : List (Call E)) : weight (cs ++ ds) = weight cs + weight ds := by
  induction cs with
  | nil => simp [weight]
  | cons c cs ih => simp [weight, ih, Nat.add_assoc]

theorem weight_beforeWrap (ele : E) {size : Nat} (hr : 0 < 2 ^ 32 % size) :
    weight (beforeWrap ele size) = 2 ^ 32 - 1 := by
  have hpairs : ∀ k, weight (List.replicate k [Call.enqueue ele, .dequeue]).flatten = k := by
    intro k
    induction k with
    | zero => rfl
    | succ k ih => simp [List.replicate_succ, weight, Call.weight, ih, Nat.add_comm]
  have hfill : ∀ k, weight (List.replicate k (Call.enqueue ele)) = k := by
    intro k
    induction k with
    | zero => rfl
    | succ k ih => simp [List.replicate_succ, weight, Call.weight, ih, Nat.add_comm]
  have hle := Nat.mod_le (2 ^ 32) size
  rw [beforeWrap, weight_append, hpairs, hfill]
  omega

/-- `m_size` が 2^32 を割り切らなければ、戻るところで、空きがあるのに enqueue が断られる。 -/
theorem refuses_at_wrap (mode : Mode) (ele : E) {size : Nat} (hsize : 2 ≤ size)
    (hr : 0 < 2 ^ 32 % size) :
    ¬ Behaves mode ele size (beforeWrap ele size ++ [.enqueue ele]) := by
  have hlt : 2 ^ 32 % size < size := Nat.mod_lt _ (by omega)
  have hle := Nat.mod_le (2 ^ 32) size
  -- 手前までは FIFO と同じで、`m_wrindex` は 2^32 - 1 にある
  obtain ⟨q, hcs, hq, hsz, hwr⟩ := calls_spec (holds_init mode ele hsize) (beforeWrap ele size)
    (by simpa [Queue.queueInit, weight_beforeWrap ele hr] using aligned_of_lt (by omega))
  simp only [Queue.queueInit, List.length_nil, Nat.zero_add] at hcs hq hsz hwr
  obtain ⟨hp1, hp2⟩ := Fifo.calls_pairs (show 0 < size - 1 by omega) ele (2 ^ 32 - 2 ^ 32 % size)
  obtain ⟨hf1, hf2⟩ := Fifo.calls_fill ele (2 ^ 32 % size - 1) []
    (show ([] : List E).length + (2 ^ 32 % size - 1) ≤ size - 1 by rw [List.length_nil]; omega)
  have hlen : (Fifo.calls (size - 1) [] (beforeWrap ele size)).2.length = 2 ^ 32 % size - 1 := by
    rw [beforeWrap, Fifo.calls_append]
    show (Fifo.calls (size - 1) (Fifo.calls (size - 1) [] _).2 _).2.length = _
    rw [hp1, hf1, List.length_nil, Nat.zero_add]
  rw [beforeWrap, Fifo.accepted_append, hp1, hp2, hf2] at hwr
  have htaken : q.taken.length = 2 ^ 32 - 2 ^ 32 % size := by
    have h1 := hq.length
    have h2 := hq.le
    omega
  -- 次の enqueue は、0 に戻った index と比べて満杯と判定する
  have hfull : q.isFull q.wrindex q.rdindex := by
    have hmod : (2 ^ 32 - 2 ^ 32 % size) % size = 0 :=
      Nat.mod_eq_zero_of_dvd (Nat.dvd_sub_mod _)
    have hw : q.claimed.length + 1 = 2 ^ 32 := by omega
    rw [Queue.isFull, beq_iff_eq, hq.wr, u32_add, hw, hq.rd, htaken, hsz,
      u32_of_lt (show 2 ^ 32 - 2 ^ 32 % size < 2 ^ 32 by omega), hmod]
    simp [u32]
  have hlast : Converges (fun fuel => calls mode fuel q [.enqueue ele]) ([.enq false], q) :=
    calls_cons (c := .enqueue ele) (enqueue_full ele hfull) (Converges.pure _)
  have hall := (calls_append hcs hlast).map Prod.fst
  intro hb
  have heq := hall.unique hb
  rw [Fifo.calls_append] at heq
  have hroom : (Fifo.calls (size - 1) [] (beforeWrap ele size)).2.length < size - 1 := by omega
  simp [Fifo.calls, Fifo.call, hroom] at heq

/--
**queue が長さの限られた FIFO であるのは、`m_size` が 2^32 を割り切るときに限る。**

どちらの mode でも、2 以上のどの大きさでも、一つずつの呼び出しの列がどれだけ長くても FIFO と同じ
戻り値になることと、`m_size` が 2^32 を割り切る（2 の冪である）ことは同じである。
-/
theorem fifo_iff (mode : Mode) (zero : E) {size : Nat} (hsize : 2 ≤ size) :
    (∀ cs : List (Call E), Behaves mode zero size cs) ↔ size ∣ 2 ^ 32 := by
  constructor
  · intro hb
    by_contra hd
    have hr : 0 < 2 ^ 32 % size := Nat.pos_of_ne_zero fun h => hd (Nat.dvd_of_mod_eq_zero h)
    exact refuses_at_wrap mode zero hsize hr (hb _)
  · exact fun hd cs => behaves_of_aligned hsize cs (aligned_of_dvd hd _)

/-- 大きさ 3 の queue は、2^32 - 1 回の出し入れの後、空なのに enqueue を断る。 -/
theorem refuses_at_wrap_three :
    ¬ Behaves .single (0 : Nat) 3 (beforeWrap 0 3 ++ [.enqueue 0]) :=
  refuses_at_wrap .single (0 : Nat) (by decide) (by decide)

/-- 大きさ 4 の queue は、どれだけ長く使っても FIFO であり、大きさ 3 の queue はそうではない。 -/
theorem fifo_iff_four :
    (∀ cs : List (Call Nat), Behaves .multi 0 4 cs) ∧
      ¬ ∀ cs : List (Call Nat), Behaves .single 0 3 cs :=
  ⟨(fifo_iff .multi (0 : Nat) (by decide)).mpr (by decide),
    fun h => absurd ((fifo_iff .single (0 : Nat) (by decide)).mp h) (by decide)⟩

end RecordServer.Datas.TaskQueue
