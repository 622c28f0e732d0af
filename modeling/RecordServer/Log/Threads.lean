import RecordServer.Log.Descriptors
import Mathlib.Logic.Function.Basic

/-!
# いくつもの thread が書くログ

`Descriptors` は `prt` を一つずつ最後まで行う。ここでは、どの thread も、共有の field の load と store、
`m_busy` の CAS、system call を一つずつ行い、好きな順に混ざる。`new_file` を二つ以上の thread が
同時に進めないようにするのは `m_busy` だけで、書く thread は何も待たない。

* `Rot` — `new_file` の途中のどこにいるか
* `Pc` — `prt` の途中のどこにいるか。local 変数も持つ
* `step` — 好きな順に thread を一つ選んで一つ進める

`turned` は `m_pos` を進めた回数、`Pc` の `seen` は `write` の直前に `m_pos` を読んだときの `turned` である。
どちらも履歴で、code は読まない。設定を変える関数は、thread が動く前に呼び終えている。
-/

namespace RecordServer.Log.Descriptors.Threads

open Infra

/-! ## 現在地 -/

/-- `new_file` の中で次に行う操作。`next` は `m_next` である。 -/
inductive Rot
  | cas
  | loadPos
  | loadFd (next : Fin 2)
  | close (next : Fin 2) (fd : Int)
  | index (next : Fin 2)
  | openCall (next : Fin 2) (filename : Bytes)
  | storeFd (next : Fin 2) (fd : Int)
  | storeTime (next : Fin 2)
  | clearSize (next : Fin 2)
  | loadInc
  | storeInc (pos : Nat)
  | unlock (st : Status)

/-- `prt` が `new_file` を呼ぶ二つの場所。 -/
inductive Site
  | first
  | second

/-- `prt` の中で次に行う操作。 -/
inductive Pc
  | idle (last : Option Int)
  | checkPos (c : Call)
  | checkFd (c : Call) (pos : Nat)
  | limitPos (c : Call)
  | limitField (c : Call) (pos : Nat)
  | rotate (c : Call) (site : Site) (r : Rot)
  | writePos (c : Call)
  | writeFd (c : Call) (pos seen : Nat)
  | write (c : Call) (fd : Int) (seen : Nat)
  | addPos (c : Call) (ret : Int)
  | addSize (c : Call) (ret : Int) (pos : Nat)

/-- 共有のログ、kernel と、thread ごとの現在地。 -/
structure State (τ : Type*) where
  log : FdLog
  kernel : Kernel
  pc : τ → Pc
  turned : Nat

/-- 一歩の名札：`prt` を呼ぶか、途中の呼び出しを一つ進める。 -/
inductive Act (τ : Type*)
  | prt (t : τ) (c : Call)
  | advance (t : τ)

/-! ## `prt` の流れ -/

/-- 今の slot の検査の後に行うところ。 -/
def afterCheck (l : FdLog) (c : Call) : Pc :=
  match l.strategeType with
  | .time =>
    match l.timeStrategeType with
    | .week => .writePos c
    | _ => .limitPos c
  | .space => .limitPos c
  | .const => .writePos c

/-- 一つ目の `new_file` か、二つ目の `new_file` から戻ったところ。 -/
def afterRotate (l : FdLog) (c : Call) (site : Site) : Status → Pc
  | .failure => .idle (some (-1))
  | _ =>
    match site with
    | .first => afterCheck l c
    | .second => .writePos c

/-- `m_pos` を `pos` と読んだとき、file を替えるかどうか。 -/
def exceeds (l : FdLog) (pos : Nat) (now : Tm) : Bool :=
  let l := { l with pos := pos }
  match l.strategeType with
  | .time => l.cut now
  | .space => !l.hasRoom
  | .const => false

/-- `prt` の戻り値。 -/
def result (l : FdLog) (ret : Int) : Int :=
  match l.strategeType with
  | .const => 0
  | _ => ret

/-- 二つの `new_file` のうち、その場所のものへの環境の答え。 -/
def Site.opening (c : Call) : Site → Opening
  | .first => c.first
  | .second => c.second

/-! ## 共有の操作 -/

/-- 一つの操作の後のログと kernel、進めた回数、現在地。 -/
abbrev Result := FdLog × Kernel × Nat × Pc

/-- `new_file` の操作を一つ行う。 -/
def rotStep (l : FdLog) (k : Kernel) (turned : Nat) (c : Call) (site : Site) :
    Rot → Option Result
  | .cas =>
    if l.busy = 0 then some ({ l with busy := 1 }, k, turned, .rotate c site .loadPos)
    else some (l, k, turned, afterRotate l c site .retry)
  | .loadPos => some (l, k, turned, .rotate c site (.loadFd (slot (u32 (l.pos + 1)))))
  | .loadFd next =>
    if l.fd next = -1 then some (l, k, turned, .rotate c site (.index next))
    else some (l, k, turned, .rotate c site (.close next (l.fd next)))
  | .close next fd => some (l, k.close fd, turned, .rotate c site (.index next))
  | .index next =>
    let t := (site.opening c).time
    match l.strategeType with
    | .time =>
      let filename := l.filename ++ ascii "_" ++ filenameSuffix t ++ ascii ".log"
      some (l, k, turned, .rotate c site (.openCall next filename))
    | .space =>
      if s32ToU32 l.amountSize = 0 then none
      else
        let index := u32 (l.pos + 1) % s32ToU32 l.amountSize + 1
        some (l, k, turned, .rotate c site (.openCall next (numberedName l.filename index)))
    | .const => some (l, k, turned, .rotate c site (.openCall next (l.filename ++ ascii ".log")))
  | .openCall next filename =>
    let o := site.opening c
    (k.open' ⟨snprintf PURE_LOG_MAX_FILE_NAME_LEN filename, o.time⟩ o.fd).map fun r =>
      (l, r.2, turned, .rotate c site (.storeFd next r.1))
  | .storeFd next fd =>
    let l := { l with fd := Function.update l.fd next fd }
    if fd = -1 then some (l, k, turned, .rotate c site (.unlock .failure))
    else some (l, k, turned, .rotate c site (.storeTime next))
  | .storeTime next =>
    let l := { l with curFiletime := Function.update l.curFiletime next (site.opening c).time }
    some (l, k, turned, .rotate c site (.clearSize next))
  | .clearSize next =>
    let l := { l with curFileSize := Function.update l.curFileSize next 0 }
    some (l, k, turned, .rotate c site .loadInc)
  | .loadInc => some (l, k, turned, .rotate c site (.storeInc l.pos))
  | .storeInc pos =>
    some ({ l with pos := u32 (pos + 1) }, k, turned + 1, .rotate c site (.unlock .success))
  | .unlock st => some ({ l with busy := 0 }, k, turned, afterRotate l c site st)

/-- `prt` の操作を一つ行う。 -/
def micro (l : FdLog) (k : Kernel) (turned : Nat) : Pc → Option Result
  | .idle last => some (l, k, turned, .idle last)
  | .checkPos c => some (l, k, turned, .checkFd c l.pos)
  | .checkFd c pos =>
    if l.fd (slot pos) = -1 then some (l, k, turned, .rotate c .first .cas)
    else some (l, k, turned, afterCheck l c)
  | .limitPos c => some (l, k, turned, .limitField c l.pos)
  | .limitField c pos =>
    if exceeds l pos c.now then some (l, k, turned, .rotate c .second .cas)
    else some (l, k, turned, .writePos c)
  | .rotate c site r => rotStep l k turned c site r
  | .writePos c => some (l, k, turned, .writeFd c l.pos turned)
  | .writeFd c pos seen => some (l, k, turned, .write c (l.fd (slot pos)) seen)
  | .write c fd _ =>
    let r := k.write fd (lineOf c.toCall) c.written
    if r.1 > 0 then some (l, r.2.2, turned, .addPos c r.1)
    else some (l, r.2.2, turned, .idle (some (result l r.1)))
  | .addPos c ret => some (l, k, turned, .addSize c ret l.pos)
  | .addSize _ ret pos =>
    let size := u32 (l.curFileSize (slot pos) + ret.toNat)
    some ({ l with curFileSize := Function.update l.curFileSize (slot pos) size }, k, turned,
      .idle (some (result l ret)))

/-! ## 多くの thread -/

section

variable {τ : Type*} [DecidableEq τ]

def Pc.isIdle : Pc → Bool
  | .idle _ => true
  | _ => false

/-- `prt` の始まり。捨てる行と端末への行は、共有の操作をしない。 -/
def entry (l : FdLog) (c : Call) : Pc :=
  if c.level.val ≤ l.logLevel.val ∧ c.level ≠ .term then .checkPos c else .idle (some 0)

def step (s : State τ) : Act τ → Option (State τ)
  | .prt t c =>
    if (s.pc t).isIdle then some { s with pc := Function.update s.pc t (entry s.log c) } else none
  | .advance t =>
    if (s.pc t).isIdle then none
    else (micro s.log s.kernel s.turned (s.pc t)).map fun (l, k, turned, pc) =>
      ⟨l, k, Function.update s.pc t pc, turned⟩

/-- 準備を終えたログの上で、どの thread も呼び出していない。 -/
def start (w : World) : State τ := ⟨w.log, w.kernel, fun _ => .idle none, w.kernel.opened⟩

/-- 一歩で起こりうることのすべて。 -/
theorem step_cases {s s' : State τ} {a : Act τ} (h : step s a = some s') :
    (∃ t c, a = .prt t c ∧ (s.pc t).isIdle ∧
      s' = { s with pc := Function.update s.pc t (entry s.log c) }) ∨
    ∃ t l k turned pc, a = .advance t ∧ (s.pc t).isIdle = false ∧
      micro s.log s.kernel s.turned (s.pc t) = some (l, k, turned, pc) ∧
      s' = ⟨l, k, Function.update s.pc t pc, turned⟩ := by
  cases a with
  | prt t c =>
    obtain ⟨hi, hs⟩ := Option.ite_none_right_eq_some.mp h
    cases hs
    exact .inl ⟨t, c, rfl, hi, rfl⟩
  | advance t =>
    obtain ⟨hi, hs⟩ := Option.ite_none_left_eq_some.mp h
    obtain ⟨⟨l, k, turned, pc⟩, hm, hr⟩ := Option.map_eq_some_iff.mp hs
    exact .inr ⟨t, l, k, turned, pc, rfl, by simpa using hi, hm, hr.symm⟩

end

end RecordServer.Log.Descriptors.Threads
