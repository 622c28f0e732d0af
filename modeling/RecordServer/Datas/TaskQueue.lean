import RecordServer.Infra.Trace
import RecordServer.Infra.Fuel
import RecordServer.Infra.Word
import Mathlib.Logic.Function.Basic
import Mathlib.Data.Nat.ModEq
import Mathlib.Tactic.Ring

/-!
# lock を使わない task queue

`CTask_queue` は、三つの u32 の index と、長さ `m_size` の輪になった配列を持つ。
どの thread も、共有の index と配列への load、store、atomic な加算、CAS を一つずつ行う。
`micro` がその一つであり、その間の local な計算（`is_full`、`is_empty` の判定）は
直前の load に含める。

* `Pc` — 呼び出しの途中のどこにいるか。local 変数も持つ
* `step` — 好きな順に thread を一つ選んで一つ進める
* `runCall`、`calls` — 呼び出しを一つずつ最後まで実行する

`claimed` と `taken` は履歴で、code は読まない。`claimed` は `m_wrindex` を進めた enqueue の要素、
`taken` は `m_rdindex` を進めた dequeue が返す要素を、進めた順に並べたものである。
-/

namespace RecordServer.Datas.TaskQueue

open Infra

/-- template 引数 `MODE`。 -/
inductive Mode
  | single
  | multi
  deriving DecidableEq

/-- `CTask_queue` の field と、二つの履歴。 -/
structure Queue (E : Type*) where
  rdindex : Nat
  wrindex : Nat
  maxRdindex : Nat
  size : Nat
  elems : Nat → E
  claimed : List E
  taken : List E

/-- 呼び出しの戻り値。`dequeue` は成功すると要素も渡す。 -/
inductive Ret (E : Type*)
  | enq (ok : Bool)
  | deq (ele : Option E)
  deriving DecidableEq

/-- 次に行う共有の操作。引数は local 変数である。 -/
inductive Pc (E : Type*)
  | idle (last : Option (Ret E))
  | enqLoadWr (ele : E)
  | enqLoadRd (ele : E) (curWrindex : Nat)
  | enqCas (ele : E) (curWrindex : Nat)
  | enqStore (ele : E) (curWrindex : Nat)
  | enqAdd (ele : E)
  | enqPublish (curWrindex : Nat)
  | deqLoadRd
  | deqLoadWr (curRdindex : Nat)
  | deqLoadSlot (curRdindex : Nat)
  | deqCas (curRdindex : Nat) (ele : E)
  deriving DecidableEq

namespace Queue

variable {E : Type*}

/-- 構築子と `queue_init`。配列は 0 で埋める。 -/
def queueInit (zero : E) (size : Nat) : Queue E := ⟨0, 0, 0, size, fun _ => zero, [], []⟩

/--
`queue_resize`。0 で埋めた新しい配列の始めに、元の配列を同じ場所のまま写す。

`m_size` は s32 なので、和が `2 ^ 31` に届けば負になり、負の大きさの `new` は配列を返さない。
-/
def queueResize (zero : E) (q : Queue E) (size : Nat) : Option (Queue E) :=
  if q.size + size < 2 ^ 31 then
    some { q with
      size := q.size + size
      elems := fun i => if i < q.size then q.elems i else zero }
  else none

def isEmpty (q : Queue E) (maxRdindex rdindex : Nat) : Bool :=
  rdindex % q.size == maxRdindex % q.size

def isFull (q : Queue E) (wrindex rdindex : Nat) : Bool :=
  u32 (wrindex + 1) % q.size == rdindex % q.size

end Queue

section

variable {E : Type*}

/-- 共有の操作を一つ行う。`SINGLE` と `MULTI` の `dequeue` は同じ文面である。 -/
def micro (mode : Mode) (q : Queue E) : Pc E → Queue E × Pc E
  | .idle last => (q, .idle last)
  | .enqLoadWr ele => (q, .enqLoadRd ele q.wrindex)
  | .enqLoadRd ele wr =>
    if q.isFull wr q.rdindex then (q, .idle (some (.enq false)))
    else match mode with
      | .single => (q, .enqStore ele wr)
      | .multi => (q, .enqCas ele wr)
  | .enqCas ele wr =>
    if q.wrindex = wr then
      ({ q with wrindex := u32 (wr + 1), claimed := q.claimed ++ [ele] }, .enqStore ele wr)
    else (q, .enqLoadWr ele)
  | .enqStore ele wr =>
    let q := { q with elems := Function.update q.elems (wr % q.size) ele }
    match mode with
    | .single => (q, .enqAdd ele)
    | .multi => (q, .enqPublish wr)
  | .enqAdd ele =>
    ({ q with wrindex := u32 (q.wrindex + 1), claimed := q.claimed ++ [ele] },
      .idle (some (.enq true)))
  | .enqPublish wr =>
    if q.maxRdindex = wr then ({ q with maxRdindex := u32 (wr + 1) }, .idle (some (.enq true)))
    else (q, .enqPublish wr)
  | .deqLoadRd => (q, .deqLoadWr q.rdindex)
  | .deqLoadWr rd =>
    if q.isEmpty q.wrindex rd then (q, .idle (some (.deq none))) else (q, .deqLoadSlot rd)
  | .deqLoadSlot rd => (q, .deqCas rd (q.elems (rd % q.size)))
  | .deqCas rd ele =>
    if q.rdindex = rd then
      ({ q with rdindex := u32 (rd + 1), taken := q.taken ++ [ele] }, .idle (some (.deq (some ele))))
    else (q, .deqLoadRd)

end

/-! ## 多くの thread -/

/-- 共有の queue と、thread ごとの現在地。 -/
structure State (τ E : Type*) where
  q : Queue E
  pc : τ → Pc E

/-- 一歩の名札：呼び出しを始めるか、途中の呼び出しを一つ進める。 -/
inductive Act (τ E : Type*)
  | enqueue (t : τ) (ele : E)
  | dequeue (t : τ)
  | advance (t : τ)

section

variable {τ E : Type*} [DecidableEq τ]

/-- どの thread も呼び出していない、`queue_init` の直後。 -/
def init (zero : E) (size : Nat) : State τ E := ⟨Queue.queueInit zero size, fun _ => .idle none⟩

def Pc.isIdle : Pc E → Bool
  | .idle _ => true
  | _ => false

def step (mode : Mode) (s : State τ E) : Act τ E → Option (State τ E)
  | .enqueue t ele =>
    if (s.pc t).isIdle then some { s with pc := Function.update s.pc t (.enqLoadWr ele) } else none
  | .dequeue t =>
    if (s.pc t).isIdle then some { s with pc := Function.update s.pc t .deqLoadRd } else none
  | .advance t =>
    if (s.pc t).isIdle then none
    else
      let (q, pc) := micro mode s.q (s.pc t)
      some ⟨q, Function.update s.pc t pc⟩

/-- 一歩で起こりうることのすべて。 -/
theorem step_cases {mode : Mode} {s s' : State τ E} {a : Act τ E} (h : step mode s a = some s') :
    (∃ t ele, a = .enqueue t ele ∧ (s.pc t).isIdle ∧ s'.q = s.q ∧
      s'.pc = Function.update s.pc t (.enqLoadWr ele)) ∨
    (∃ t, a = .dequeue t ∧ (s.pc t).isIdle ∧ s'.q = s.q ∧
      s'.pc = Function.update s.pc t .deqLoadRd) ∨
    (∃ t, a = .advance t ∧ (s.pc t).isIdle = false ∧ s'.q = (micro mode s.q (s.pc t)).1 ∧
      s'.pc = Function.update s.pc t (micro mode s.q (s.pc t)).2) := by
  cases a with
  | enqueue t ele =>
    simp only [step] at h
    split at h
    · rename_i hi
      cases h
      exact .inl ⟨t, ele, rfl, hi, rfl, rfl⟩
    · simp at h
  | dequeue t =>
    simp only [step] at h
    split at h
    · rename_i hi
      cases h
      exact .inr (.inl ⟨t, rfl, hi, rfl, rfl⟩)
    · simp at h
  | advance t =>
    simp only [step] at h
    split at h
    · simp at h
    · rename_i hi
      cases h
      exact .inr (.inr ⟨t, rfl, by simpa using hi, rfl, rfl⟩)

end

/-! ## 一つずつの呼び出し -/

/-- 呼び出し。 -/
inductive Call (E : Type*)
  | enqueue (ele : E)
  | dequeue
  deriving DecidableEq

section

variable {E : Type*}

/-- 呼び出しの始まり。 -/
def Call.entry : Call E → Pc E
  | .enqueue ele => .enqLoadWr ele
  | .dequeue => .deqLoadRd

/-- 他の thread が動かない間に、戻るまで進める。 -/
def runCall (mode : Mode) : Nat → Queue E → Pc E → Option (Ret E × Queue E)
  | 0, _, _ => none
  | fuel + 1, q, pc =>
    match micro mode q pc with
    | (q', .idle (some r)) => some (r, q')
    | (q', pc') => runCall mode fuel q' pc'

/-- 呼び出しの列を一つずつ最後まで実行し、戻り値を並べる。 -/
def calls (mode : Mode) (fuel : Nat) : Queue E → List (Call E) → Option (List (Ret E) × Queue E)
  | q, [] => some ([], q)
  | q, c :: cs =>
    (runCall mode fuel q c.entry).bind fun (r, q') =>
      (calls mode fuel q' cs).map fun (rs, q'') => (r :: rs, q'')

end

/-! ## 一歩が変えないもの -/

section

variable {E : Type*} (mode : Mode) (q : Queue E)

@[simp] theorem micro_size (pc : Pc E) : (micro mode q pc).1.size = q.size := by
  cases pc with
  | enqLoadRd ele wr => cases mode <;> simp only [micro] <;> split <;> rfl
  | enqCas ele wr => simp only [micro]; split <;> rfl
  | enqStore ele wr => cases mode <;> rfl
  | enqPublish wr => simp only [micro]; split <;> rfl
  | deqLoadWr rd => simp only [micro]; split <;> rfl
  | deqCas rd ele => simp only [micro]; split <;> rfl
  | _ => rfl

/-- 積んだ要素の履歴は伸びるだけである。 -/
theorem micro_claimed (pc : Pc E) : q.claimed <+: (micro mode q pc).1.claimed := by
  cases pc with
  | enqLoadRd ele wr => cases mode <;> simp only [micro] <;> split <;> exact List.prefix_rfl
  | enqCas ele wr =>
    simp only [micro]
    split
    · exact List.prefix_append _ _
    · exact List.prefix_rfl
  | enqStore ele wr => cases mode <;> exact List.prefix_rfl
  | enqAdd ele => exact List.prefix_append _ _
  | enqPublish wr => simp only [micro]; split <;> exact List.prefix_rfl
  | deqLoadWr rd => simp only [micro]; split <;> exact List.prefix_rfl
  | deqCas rd ele => simp only [micro]; split <;> exact List.prefix_rfl
  | _ => exact List.prefix_rfl

end

section

variable {τ E : Type*} [DecidableEq τ] {mode : Mode} {s s' : State τ E} {a : Act τ E}

theorem step_size (h : step mode s a = some s') : s'.q.size = s.q.size := by
  obtain ⟨t, ele, rfl, _, hq, _⟩ | ⟨t, rfl, _, hq, _⟩ | ⟨t, rfl, _, hq, _⟩ := step_cases h
  · rw [hq]
  · rw [hq]
  · rw [hq, micro_size]

theorem step_claimed (h : step mode s a = some s') :
    s.q.claimed.length ≤ s'.q.claimed.length := by
  obtain ⟨t, ele, rfl, _, hq, _⟩ | ⟨t, rfl, _, hq, _⟩ | ⟨t, rfl, _, hq, _⟩ := step_cases h
  · rw [hq]
  · rw [hq]
  · rw [hq]
    exact (micro_claimed mode s.q (s.pc t)).length_le

end

/-! ## 輪の上の index -/

/-- 距離が輪の長さより短い二つの index は、別の場所を指す。 -/
theorem mod_ne_of_lt {i j m : Nat} (hij : i < j) (hjm : j < i + m) : i % m ≠ j % m := by
  intro h
  have hd : m ∣ j - i := (Nat.modEq_iff_dvd' hij.le).mp h
  have hle := Nat.le_of_dvd (Nat.sub_pos_of_lt hij) hd
  omega

end RecordServer.Datas.TaskQueue
