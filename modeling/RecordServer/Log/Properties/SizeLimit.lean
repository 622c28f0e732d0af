import RecordServer.Log.PureLog
import RecordServer.Infra.Trace
import Mathlib.Algebra.Order.BigOperators.Group.Finset
import Mathlib.Order.Interval.Finset.Nat

/-!
# 大きさで分けるログ

`set_log_out_by_amount(i_len, i_size)` の下で、番号付きの file がどれも `i_len` byte を超えないのは
どんな run か。

`prt` は行の長さではなく本文の上限 512 を空けて書き、一巡して開き直した file には大きさ 0 から
数えながら書き足す。そこで、書く行の長さの列について次の二つを求める。

* どの行も、`prt` の空ける 512 byte より一 byte しか長くない
* file を替える回数（`fileChanges`）が `i_size` より小さい

* `WithinLimit` — 入力の条件
* `Numbered` — 不変量。今の番号までの file だけがあり、今の file の大きさは計数と等しい
* `numbered_keep` / `numbered_change` — file を替えない一歩と替える一歩は、不変量を保つ
* `numbered_run` — 替える回数に余りがあれば、run も不変量を保つ
* `size_limited_run` — 条件を満たす run では、どの状態でも上限が守られる
-/

namespace RecordServer.Log

open Infra

/-! ## 番号付きの名前 -/

theorem decimal_injective : Function.Injective decimal := by
  intro m n h
  have hd : Nat.toDigits 10 m = Nat.toDigits 10 n := by
    simpa only [Nat.toList_repr] using congrArg String.toList (ascii_injective h)
  rw [← Nat.ofDigitChars_ten_toDigits (n := m), hd, Nat.ofDigitChars_ten_toDigits]

theorem numberedName_injective (name : Bytes) : Function.Injective (numberedName name) := by
  intro i j h
  exact decimal_injective (List.append_cancel_left (List.append_cancel_right h))

/-! ## 条件と不変量 -/

/-- `open` は成功し、`write` は全部を書く。 -/
def Call.Succeeds (c : Call) : Prop :=
  c.first.ok = true ∧ c.second.ok = true ∧ c.written = (lineOf c).length

instance (c : Call) : Decidable c.Succeeds := inferInstanceAs (Decidable (_ ∧ _ ∧ _))

/-- file に向かう行の長さ。 -/
def lineLengths (level : LogType) (calls : List Call) : List Nat :=
  (calls.filter fun c => c.level.val ≤ level.val ∧ c.level ≠ .term).map fun c => (lineOf c).length

theorem lineLengths_cons (level : LogType) (c : Call) (cs : List Call) :
    lineLengths level (c :: cs) = if c.level.val ≤ level.val ∧ c.level ≠ .term
      then (lineOf c).length :: lineLengths level cs else lineLengths level cs := by
  unfold lineLengths
  rw [List.filter_cons]
  simp only [decide_eq_true_eq]
  split <;> rfl

/--
長さ `ls` の行を書く間に file を替える回数。

`cur` は今の file に書いた byte 数で、`len - 512` に届いた後の行から次の file に移る。
-/
def fileChanges (len : Int) : Nat → List Nat → Nat
  | _, [] => 0
  | cur, l :: ls =>
    if (cur : Int) < len - PURE_LOG_MAX_PARA_STR_LEN then fileChanges len (cur + l) ls
    else fileChanges len l ls + 1

/-- 番号付きの名前が、どれも file 名の buffer に収まる。 -/
def NamesFit (name : Bytes) (size : Int) : Prop :=
  ∀ k : Nat, 1 ≤ k → (k : Int) ≤ size →
    (numberedName name k).length ≤ PURE_LOG_MAX_FILE_NAME_LEN - 1

/-- 上限が守られる入力。 -/
structure WithinLimit (name : Bytes) (len size : Int) (level : LogType) (calls : List Call) :
    Prop where
  names : NamesFit name size
  /-- `prt` は `PURE_LOG_MAX_PARA_STR_LEN` byte を残し、残りがそれより多ければ書く。 -/
  lines : ∀ l ∈ lineLengths level calls, l ≤ PURE_LOG_MAX_PARA_STR_LEN + 1
  changes : (fileChanges len 0 (lineLengths level calls) : Int) < size

/-- `prt` を一歩とする遷移系。 -/
def prtStep (w : World) (c : Call) : Option World := some (prt w c).1

/-- `name` の番号付き file のうち、`k` 番の大きさ。 -/
def World.sizeOf (w : World) (name : Bytes) (k : Nat) : Nat :=
  ((w.files (numberedName name k)).getD []).length

/-- 大きさで分けるログの不変量。`files` は始まる前の file system である。 -/
structure Numbered (files : Bytes → Option Bytes) (name : Bytes) (len size : Int)
    (level : LogType) (w : World) : Prop where
  logLevel : w.log.logLevel = level
  strategeType : w.log.strategeType = .space
  amountSize : w.log.amountSize = size
  maxFileSize : (w.log.maxFileSize : Int) = len
  filename : w.log.filename = name
  busy : w.log.busy = false
  pos_lt : (w.log.pos : Int) < size
  curFd : ∃ t, w.log.curFd = some ⟨numberedName name (w.log.pos + 1), t⟩
  counted : w.sizeOf name (w.log.pos + 1) = w.log.curSize
  bounded : ∀ k, (w.sizeOf name k : Int) ≤ len
  unused : ∀ k, w.log.pos + 1 < k → w.files (numberedName name k) = none
  others : ∀ n, (∀ k : Nat, 1 ≤ k → (k : Int) ≤ size → n ≠ numberedName name k) →
    w.files n = files n

theorem snprintf_eq_self {size : Nat} {s : Bytes} (h : s.length ≤ size - 1) :
    snprintf size s = s := List.take_of_length_le h

theorem length_lineOf_le (c : Call) : (lineOf c).length ≤ 1023 := by
  unfold lineOf snprintf
  exact (List.length_take_le _ _)

section

variable {files : Bytes → Option Bytes} {name : Bytes} {len size : Int} {level : LogType} {w : World}

theorem sizeOf_appendFile (log : CLog) (k j : Nat) (s : Bytes) :
    World.sizeOf ⟨log, appendFile w.files (numberedName name k) s⟩ name j =
      if j = k then w.sizeOf name k + s.length else w.sizeOf name j := by
  unfold World.sizeOf appendFile
  by_cases h : j = k
  · simp [h]
  · have hne : numberedName name j ≠ numberedName name k :=
      fun e => h (numberedName_injective name e)
    simp only [Function.update_of_ne hne, if_neg h]

/-- `open` は、どの file の中身も変えない。 -/
theorem getD_createFile (files : Bytes → Option Bytes) (n m : Bytes) :
    (createFile files n m).getD [] = (files m).getD [] := by
  unfold createFile
  by_cases h : m = n
  · simp [h]
  · rw [Function.update_of_ne h]

/-- 今の file の残りに収まる行を書く。 -/
theorem numbered_writeBuf (hw : Numbered files name len size level w) (hlen : len < 2 ^ 31)
    {buf : Bytes} (hfit : (w.log.curSize + buf.length : Int) ≤ len) :
    Numbered files name len size level (writeBuf w buf buf.length).1 ∧
      (writeBuf w buf buf.length).1.log.pos = w.log.pos ∧
      (writeBuf w buf buf.length).1.log.curSize = w.log.curSize + buf.length := by
  obtain ⟨t, ht⟩ := hw.curFd
  unfold writeBuf
  rw [ht]
  by_cases hpos : (buf.length : Int) > 0
  · simp only [hpos, if_true, Int.toNat_natCast, List.take_length]
    have hsize : u32 (w.log.curSize + buf.length) = w.log.curSize + buf.length :=
      Nat.mod_eq_of_lt (by omega)
    refine ⟨⟨hw.logLevel, hw.strategeType, hw.amountSize, hw.maxFileSize, hw.filename, hw.busy,
      hw.pos_lt, ⟨t, ht⟩, ?_, ?_, ?_, ?_⟩, trivial, by simpa [CLog.curSize] using hsize⟩
    · rw [sizeOf_appendFile, if_pos rfl, hw.counted]
      exact hsize.symm.trans (by simp [CLog.curSize])
    · intro k
      rw [sizeOf_appendFile]
      split
      · rw [hw.counted]
        exact_mod_cast hfit
      · exact hw.bounded k
    · intro k hk
      have hne : numberedName name k ≠ numberedName name (w.log.pos + 1) := fun e => by
        have := numberedName_injective name e
        simp only at hk
        omega
      simp only [appendFile, Function.update_of_ne hne]
      exact hw.unused k hk
    · intro n hn
      have hne : n ≠ numberedName name (w.log.pos + 1) := 
        hn _ (by omega) (by have := hw.pos_lt; push_cast; omega)
      simp only [appendFile, Function.update_of_ne hne]
      exact hw.others n hn
  · have hnil : buf.length = 0 := by omega
    simp only [hpos, if_false]
    exact ⟨hw, trivial, by rw [hnil, Nat.add_zero]⟩

/-- まだ使っていない番号の file を開く。 -/
theorem numbered_newFile (hw : Numbered files name len size level w) (hnames : NamesFit name size)
    (hsize : size < 2 ^ 31) (hnext : (w.log.pos + 1 : Int) < size) {o : Opening}
    (ho : o.ok = true) :
    (newFile w o).2 = .success ∧ Numbered files name len size level (newFile w o).1 ∧
      (newFile w o).1.log.pos = w.log.pos + 1 ∧ (newFile w o).1.log.curSize = 0 := by
  have hpos : u32 (w.log.pos + 1) = w.log.pos + 1 := Nat.mod_eq_of_lt (by omega)
  have hindex : w.log.index = w.log.pos + 2 := by
    unfold CLog.index
    rw [hpos, hw.amountSize]
    rw [s32ToU32_of_nonneg (by omega) (by omega), Nat.mod_eq_of_lt (by omega)]
  have hname : w.log.nextFilename o.time = numberedName name (w.log.pos + 2) := by
    unfold CLog.nextFilename
    rw [hw.strategeType, hw.filename, hindex]
    exact snprintf_eq_self (hnames _ (by omega) (by omega))
  have hfresh : w.files (numberedName name (w.log.pos + 2)) = none := hw.unused _ (by omega)
  have hcreate : ∀ log k, World.sizeOf ⟨log, createFile w.files (numberedName name
      (w.log.pos + 2))⟩ name k = w.sizeOf name k := by
    intro log k
    unfold World.sizeOf
    rw [getD_createFile]
  unfold newFile
  simp only [hw.busy, ho, hname, hpos, Bool.false_eq_true, if_false, if_true]
  refine ⟨trivial, ⟨hw.logLevel, hw.strategeType, hw.amountSize, hw.maxFileSize, hw.filename, rfl,
    ?_, ?_, ?_, ?_, ?_, ?_⟩, trivial, ?_⟩
  · simpa using hnext
  · exact ⟨o.time, by simp [CLog.curFd]⟩
  · rw [hcreate]
    simp [World.sizeOf, hfresh, CLog.curSize]
  · intro k
    rw [hcreate]
    exact hw.bounded k
  · intro k hk
    simp only at hk
    have hne : numberedName name k ≠ numberedName name (w.log.pos + 2) := fun e => by
      have := numberedName_injective name e
      omega
    simp only [createFile, Function.update_of_ne hne]
    exact hw.unused k (by omega)
  · intro n hn
    have hne : n ≠ numberedName name (w.log.pos + 2) := hn _ (by omega) (by omega)
    simp only [createFile, Function.update_of_ne hne]
    exact hw.others n hn
  · simp [CLog.curSize]

theorem Numbered.hasRoom_iff (hw : Numbered files name len size level w) (hlen : 2048 ≤ len)
    (hlen' : len < 2 ^ 31) :
    w.log.hasRoom = true ↔ (w.log.curSize : Int) < len - PURE_LOG_MAX_PARA_STR_LEN := by
  have hmax := hw.maxFileSize
  have hkept : u32 (w.log.maxFileSize + 2 ^ 32 - PURE_LOG_MAX_PARA_STR_LEN) =
      w.log.maxFileSize - 512 := by
    unfold u32 PURE_LOG_MAX_PARA_STR_LEN
    omega
  rw [CLog.hasRoom, decide_eq_true_eq, hkept, PURE_LOG_MAX_PARA_STR_LEN]
  omega

/-- 今の slot は開いているので、`prt` は `hasRoom` だけで分かれる。 -/
theorem Numbered.prt_eq (hw : Numbered files name len size level w) {c : Call}
    (hlogs : w.log.logs c = true) : prt w c =
      if w.log.hasRoom then writeBuf w (lineOf c) c.written
      else newFileThenWrite w c.second (lineOf c) c.written := by
  obtain ⟨t, ht⟩ := hw.curFd
  have hopen : openIfClosed w c.first = (w, true) := by
    unfold openIfClosed
    rw [ht]
  unfold prt
  simp only [hlogs, if_true, hw.strategeType, hopen]

/-- file を替えない `prt` は、`prt` の空ける所に収まる行を今の file に足す。 -/
theorem numbered_keep (hw : Numbered files name len size level w) (hlen : 2048 ≤ len)
    (hlen' : len < 2 ^ 31) {c : Call} (hc : c.Succeeds) (hlogs : w.log.logs c = true)
    (hline : (lineOf c).length ≤ PURE_LOG_MAX_PARA_STR_LEN + 1)
    (hroom : (w.log.curSize : Int) < len - PURE_LOG_MAX_PARA_STR_LEN) :
    Numbered files name len size level (prt w c).1 ∧ (prt w c).1.log.pos = w.log.pos ∧
      (prt w c).1.log.curSize = w.log.curSize + (lineOf c).length := by
  rw [hw.prt_eq hlogs, if_pos ((hw.hasRoom_iff hlen hlen').mpr hroom), hc.2.2]
  exact numbered_writeBuf hw hlen' (by omega)

/-- file を替える `prt` は、まだ使っていない番号の file の初めに行を書く。 -/
theorem numbered_change (hw : Numbered files name len size level w) (hnames : NamesFit name size)
    (hlen : 2048 ≤ len) (hlen' : len < 2 ^ 31) (hsize : size < 2 ^ 31) {c : Call}
    (hc : c.Succeeds) (hlogs : w.log.logs c = true)
    (hroom : ¬ (w.log.curSize : Int) < len - PURE_LOG_MAX_PARA_STR_LEN)
    (hnext : (w.log.pos + 1 : Int) < size) :
    Numbered files name len size level (prt w c).1 ∧ (prt w c).1.log.pos = w.log.pos + 1 ∧
      (prt w c).1.log.curSize = (lineOf c).length := by
  obtain ⟨hok, hnew, hpos, hzero⟩ := numbered_newFile hw hnames hsize hnext hc.2.1
  have hline := length_lineOf_le c
  rw [hw.prt_eq hlogs, if_neg (mt (hw.hasRoom_iff hlen hlen').mp hroom), newFileThenWrite, hok,
    if_neg (by decide), hc.2.2]
  -- 新しい file は空なので、どんな行も収まる
  have hfit : ((newFile w c.second).1.log.curSize + (lineOf c).length : Int) ≤ len := by omega
  obtain ⟨hnum, hsame, hcur⟩ := numbered_writeBuf hnew hlen' hfit
  exact ⟨hnum, hsame.trans hpos, by rw [hcur, hzero, Nat.zero_add]⟩

/-- **file を替える回数に余りがあれば、run は不変量を保つ。** -/
theorem numbered_run {calls : List Call} (hnames : NamesFit name size) (hlen : 2048 ≤ len)
    (hlen' : len < 2 ^ 31) (hsize : size < 2 ^ 31) (hcalls : ∀ c ∈ calls, c.Succeeds)
    (hlines : ∀ l ∈ lineLengths level calls, l ≤ PURE_LOG_MAX_PARA_STR_LEN + 1) {w' : World}
    (hw : Numbered files name len size level w)
    (hchanges : (w.log.pos + fileChanges len w.log.curSize (lineLengths level calls) : Int) < size)
    (hrun : run prtStep w calls = some w') : Numbered files name len size level w' := by
  induction calls generalizing w with
  | nil =>
    obtain rfl := Option.some.inj hrun
    exact hw
  | cons c cs ih =>
    obtain ⟨w₁, hstep, hrest⟩ := (run_cons_eq_some prtStep).mp hrun
    obtain rfl := Option.some.inj hstep
    obtain ⟨hc, hcs⟩ := List.forall_mem_cons.mp hcalls
    have hlogs : w.log.logs c = true ↔ c.level.val ≤ level.val ∧ c.level ≠ .term := by
      rw [CLog.logs, hw.logLevel, decide_eq_true_eq]
    rw [lineLengths_cons] at hlines hchanges
    by_cases hlog : w.log.logs c = true
    swap
    · have hsame : (prt w c).1 = w := by simp [prt, hlog]
      rw [hsame] at hrest
      rw [if_neg (mt hlogs.mpr hlog)] at hlines hchanges
      exact ih hcs hlines hw hchanges hrest
    · rw [if_pos (hlogs.mp hlog)] at hlines hchanges
      obtain ⟨hline, hlines⟩ := List.forall_mem_cons.mp hlines
      rw [fileChanges] at hchanges
      by_cases hroom : (w.log.curSize : Int) < len - PURE_LOG_MAX_PARA_STR_LEN
      · obtain ⟨hnum, hpos, hcur⟩ := numbered_keep hw hlen hlen' hc hlog hline hroom
        rw [if_pos hroom] at hchanges
        refine ih hcs hlines hnum ?_ hrest
        rw [hpos, hcur]
        exact hchanges
      · rw [if_neg hroom] at hchanges
        obtain ⟨hnum, hpos, hcur⟩ := numbered_change hw hnames hlen hlen' hsize hc hlog hroom
          (by push_cast at hchanges; omega)
        refine ih hcs hlines hnum ?_ hrest
        rw [hpos, hcur]
        push_cast at hchanges ⊢
        exact lt_of_eq_of_lt (by ring) hchanges

end

/-! ## 入力の前半 -/

theorem fileChanges_initial {len : Int} {cur : Nat} {ls ls' : List Nat} (h : ls <+: ls') :
    fileChanges len cur ls ≤ fileChanges len cur ls' := by
  induction ls generalizing cur ls' with
  | nil => exact Nat.zero_le _
  | cons l ls ih =>
    obtain ⟨rest, rfl⟩ := h
    rw [List.cons_append, fileChanges, fileChanges]
    split
    · exact ih (List.prefix_append ls rest)
    · exact Nat.succ_le_succ (ih (List.prefix_append ls rest))

/-- 条件を満たす呼び出しの列は、途中までも条件を満たす。 -/
theorem WithinLimit.initial {name : Bytes} {len size : Int} {level : LogType}
    {calls calls' : List Call} (h : WithinLimit name len size level calls') (hle : calls <+: calls') :
    WithinLimit name len size level calls := by
  have hinit : lineLengths level calls <+: lineLengths level calls' := (hle.filter _).map _
  refine ⟨h.names, fun l hl => h.lines l (hinit.mem hl), lt_of_le_of_lt ?_ h.changes⟩
  exact_mod_cast fileChanges_initial hinit

/-! ## run -/

/-- 設定を終えたログ。 -/
def startByAmount (files : Bytes → Option Bytes) (level : LogType) (len size : Int)
    (path filename : Bytes) (o : Opening) : World :=
  init ⟨(CLog.new.setLogLevel level).setLogOutByAmount len size, files⟩ path filename o

/-- `init` は 1 番の file を開く。 -/
theorem numbered_start {files : Bytes → Option Bytes} {path filename : Bytes} {len size : Int}
    (level : LogType) {o : Opening} (ho : o.ok = true) (hlen : 2048 ≤ len) (hlen' : len < 2 ^ 31)
    (hsize : 1 ≤ size) (hsize' : size < 2 ^ 31) (hnames : NamesFit (path ++ filename) size)
    (hnone : ∀ k, files (numberedName (path ++ filename) k) = none) :
    Numbered files (path ++ filename) len size level
        (startByAmount files level len size path filename o) ∧
      (startByAmount files level len size path filename o).log.pos = 0 ∧
      (startByAmount files level len size path filename o).log.curSize = 0 := by
  have hfirst := hnames 1 le_rfl hsize
  have hshort : path.length + filename.length ≤ PURE_LOG_MAX_FILE_NAME_LEN - 1 := by
    simp only [numberedName, List.length_append] at hfirst
    omega
  have hname : snprintf PURE_LOG_MAX_FILE_NAME_LEN (path ++ filename) = path ++ filename :=
    snprintf_eq_self (by simpa using hshort)
  have hlen32 : s32ToU32 len = len.toNat := s32ToU32_of_nonneg (by omega) (by omega)
  unfold startByAmount init
  rw [if_neg (by omega), hname]
  unfold newFile
  simp only [CLog.setLogOutByAmount, CLog.setLogLevel, CLog.new, ho, Bool.false_eq_true, if_false,
    if_true, CLog.nextFilename, CLog.index]
  have hone : u32 (2 ^ 32 - 1 + 1) % s32ToU32 size + 1 = 1 := by simp [u32]
  have hpos : u32 (2 ^ 32 - 1 + 1) = 0 := by simp [u32]
  rw [hone, hpos, snprintf_eq_self hfirst]
  have hsizeOf : ∀ log k, World.sizeOf ⟨log, createFile files (numberedName (path ++ filename) 1)⟩
      (path ++ filename) k = 0 := by
    intro log k
    simp [World.sizeOf, getD_createFile, hnone k]
  refine ⟨⟨rfl, rfl, rfl, ?_, rfl, rfl, by push_cast; omega, ⟨o.time, by simp [CLog.curFd]⟩, ?_, ?_,
    ?_, ?_⟩, rfl, by simp [CLog.curSize]⟩
  · simp [hlen32]
    omega
  · rw [hsizeOf]
    simp [CLog.curSize]
  · intro k
    rw [hsizeOf]
    omega
  · intro k hk
    have hne : numberedName (path ++ filename) k ≠ numberedName (path ++ filename) 1 := fun e => by
      have := numberedName_injective _ e
      simp only at hk
      omega
    simp only [createFile, Function.update_of_ne hne]
    exact hnone k
  · intro n hn
    simp only [createFile, Function.update_of_ne (hn 1 le_rfl hsize)]

/--
**大きさの上限を守る run。**

書く行がみな 513 byte までで、file を替える回数が `i_size` より小さければ、途中のどの状態でも番号付きの
file はどれも `i_len` byte 以下で、ほかの file は始まる前のままであり、全部の大きさは `i_len * i_size` を
超えない。
-/
theorem size_limited_run (files : Bytes → Option Bytes) (path filename : Bytes) (len size : Int)
    (level : LogType) (o : Opening) (calls done : List Call) (w : World) (ho : o.ok = true)
    (hlen : 2048 ≤ len) (hlen' : len < 2 ^ 31) (hsize : 1 ≤ size) (hsize' : size < 2 ^ 31)
    (hnone : ∀ k, files (numberedName (path ++ filename) k) = none)
    (hcalls : ∀ c ∈ calls, c.Succeeds)
    (hlimit : WithinLimit (path ++ filename) len size level calls) (hdone : done <+: calls)
    (hrun : run prtStep (startByAmount files level len size path filename o) done = some w) :
    (∀ k, (w.sizeOf (path ++ filename) k : Int) ≤ len) ∧
      (∀ n, (∀ k : Nat, 1 ≤ k → (k : Int) ≤ size → n ≠ numberedName (path ++ filename) k) →
        w.files n = files n) ∧
      ((∑ k ∈ Finset.Icc 1 size.toNat, w.sizeOf (path ++ filename) k : Nat) : Int)
        ≤ len * size := by
  obtain ⟨hnames, hlines, hchanges⟩ := hlimit.initial hdone
  have hw : Numbered files (path ++ filename) len size level w := by
    obtain ⟨hstart, hpos, hcur⟩ :=
      numbered_start level ho hlen hlen' hsize hsize' hnames hnone
    refine numbered_run hnames hlen hlen' hsize' (fun c hc => hcalls c (hdone.mem hc)) hlines hstart
      ?_ hrun
    rw [hpos, hcur]
    simpa using hchanges
  refine ⟨hw.bounded, hw.others, ?_⟩
  have hle : ∑ k ∈ Finset.Icc 1 size.toNat, w.sizeOf (path ++ filename) k
      ≤ (Finset.Icc 1 size.toNat).card * len.toNat := by
    refine Finset.sum_le_card_nsmul _ _ _ fun k _ => ?_
    have := hw.bounded k
    omega
  rw [Nat.card_Icc] at hle
  calc ((∑ k ∈ Finset.Icc 1 size.toNat, w.sizeOf (path ++ filename) k : Nat) : Int)
      ≤ (((size.toNat + 1 - 1) * len.toNat : Nat) : Int) := by exact_mod_cast hle
    _ = len * size := by
      push_cast
      rw [Int.toNat_of_nonneg (by omega), Int.toNat_of_nonneg (by omega)]
      ring

/-- 本文が `n` byte の一行。行の長さは、511 byte までの `n` に 30 を足したものである。 -/
def textCall (n : Nat) : Call :=
  ⟨.info, List.replicate n 120, ⟨124, 0, 1, 10, 0, 0⟩, ⟨⟨124, 0, 1, 10, 0, 0⟩, true⟩,
    ⟨⟨124, 0, 1, 10, 0, 0⟩, true⟩, min n 511 + 30⟩

/-- 430 byte の行を六回書くと、五回目に二つ目の file に替わる。 -/
theorem size_limited_two_files :
    ∃ w, run prtStep (startByAmount (fun _ => none) .debug 2048 2 [] (ascii "a")
        ⟨⟨124, 0, 1, 10, 0, 0⟩, true⟩) (List.replicate 6 (textCall 400)) = some w ∧
      w.sizeOf (ascii "a") 1 = 1720 ∧ w.sizeOf (ascii "a") 2 = 860 ∧
      ∀ k, (w.sizeOf ([] ++ ascii "a") k : Int) ≤ 2048 := by
  refine ⟨_, rfl, by decide +kernel, by decide +kernel, (size_limited_run (fun _ => none) []
    (ascii "a") 2048 2 .debug ⟨⟨124, 0, 1, 10, 0, 0⟩, true⟩ (List.replicate 6 (textCall 400))
    (List.replicate 6 (textCall 400)) _ rfl (by decide) (by decide) (by decide) (by decide)
    (fun _ => rfl) (by decide +kernel) ⟨?_, by decide +kernel, by decide +kernel⟩
    (List.prefix_refl _) rfl).1⟩
  intro k h1 h2
  obtain rfl | rfl : k = 1 ∨ k = 2 := by omega
  · decide +kernel
  · decide +kernel

/-- file が一つだけで `i_len` が 2048 なら、541 byte の行を四回書くと上限を超える。file が十あっても、505 byte の
行を三回書いた後の 541 byte の行は、一つ目の file の上限を超える。 -/
theorem size_limit_exceeded :
    ((∀ c ∈ List.replicate 4 (textCall 511), c.Succeeds) ∧
      ∃ w, run prtStep (startByAmount (fun _ => none) .debug 2048 1 [] (ascii "a")
          ⟨⟨124, 0, 1, 10, 0, 0⟩, true⟩) (List.replicate 4 (textCall 511)) = some w ∧
        ¬(w.sizeOf (ascii "a") 1 : Int) ≤ 2048) ∧
    (∀ c ∈ [textCall 475, textCall 475, textCall 475, textCall 511], c.Succeeds) ∧
      ∃ w, run prtStep (startByAmount (fun _ => none) .debug 2048 10 [] (ascii "a")
          ⟨⟨124, 0, 1, 10, 0, 0⟩, true⟩)
          [textCall 475, textCall 475, textCall 475, textCall 511] = some w ∧
        ¬(w.sizeOf (ascii "a") 1 : Int) ≤ 2048 :=
  ⟨⟨by decide +kernel, _, rfl, by decide +kernel⟩, by decide +kernel, _, rfl, by decide +kernel⟩

end RecordServer.Log
