import RecordServer.Log.PureLog
import Mathlib.Data.List.Chain

/-!
# 時刻で分けるログ

`set_log_out_by_time` の下で、各行がその行の期間に作られた file に書かれるのはいつか。
期間は年月日と時（`HOUR`）または年月日（`DAY`）であるが、`prt` が file を替えるかどうかは
時だけ、または日だけを比べて決める。

* `prt_time` — 一回の `prt` が書く先の file と、その後の状態
* `lines_in_period_iff` — どの行も正しい file に書かれることと、
  続く二つの時刻が比べる field だけで紛れないこととの同値
-/

namespace RecordServer.Log

open Infra

/-! ## 期間と、比べられる field -/

/-- 戦略が分けるべき期間。 -/
def period : TimeStratege → Tm → List Nat
  | .hour, t => [t.year, t.mon, t.mday, t.hour]
  | .day, t => [t.year, t.mon, t.mday]
  | .week, _ => []

/-- `prt` が実際に比べる field。 -/
def clock : TimeStratege → Tm → Option Nat
  | .hour, t => some t.hour
  | .day, t => some t.mday
  | .week, _ => none

/-- 比べる field が同じなら期間も同じである、という二つの時刻の関係。 -/
def Unconfused (s : TimeStratege) (a b : Tm) : Prop :=
  clock s a = clock s b → period s a = period s b

instance (s : TimeStratege) (a b : Tm) : Decidable (Unconfused s a b) :=
  inferInstanceAs (Decidable (_ → _))

theorem clock_eq_of_period_eq {s : TimeStratege} {a b : Tm} (h : period s a = period s b) :
    clock s a = clock s b := by
  cases s <;> simp_all [period, clock]

theorem cut_eq (l : CLog) (now : Tm) :
    l.cut now = decide (clock l.timeStrategeType l.curTime ≠ clock l.timeStrategeType now) := by
  unfold CLog.cut
  cases l.timeStrategeType <;> simp [clock]

/-- 同じ期間の時刻からは、同じ時刻が紛れない。 -/
theorem unconfused_congr {s : TimeStratege} {a b t : Tm} (h : period s a = period s b) :
    Unconfused s a t ↔ Unconfused s b t := by
  unfold Unconfused
  rw [h, clock_eq_of_period_eq h]

/-! ## 一回の `prt` -/

/-- `open` が成功し、`new_file` の読む時刻が `prt` の読んだ時刻と同じである。 -/
def Call.OpensNow (c : Call) : Prop := c.first = ⟨c.now, true⟩ ∧ c.second = ⟨c.now, true⟩

instance (c : Call) : Decidable c.OpensNow := inferInstanceAs (Decidable (_ ∧ _))

/-- 時刻で分けるログの、`prt` の外での状態。開いている file の作成時刻は `m_cur_filetime` である。 -/
structure Ticking (s : TimeStratege) (level : LogType) (w : World) : Prop where
  strategeType : w.log.strategeType = .time
  timeStrategeType : w.log.timeStrategeType = s
  logLevel : w.log.logLevel = level
  busy : w.log.busy = false
  created : ∀ f, w.log.curFd = some f → f.created = w.log.curTime

section

variable {s : TimeStratege} {level : LogType} {w : World}

/-- 開いている今の file の作成時刻。 -/
def World.opened (w : World) : Option Tm := w.log.curFd.map (·.created)

theorem newFile_time (hw : Ticking s level w) (t : Tm) :
    (newFile w ⟨t, true⟩).2 = .success ∧ Ticking s level (newFile w ⟨t, true⟩).1 ∧
      (newFile w ⟨t, true⟩).1.opened = some t := by
  obtain ⟨h1, h2, h3, h4, -⟩ := hw
  unfold newFile
  rw [if_neg (by simp [h4]), if_pos rfl]
  refine ⟨rfl, ⟨h1, h2, h3, h4, ?_⟩, ?_⟩
  · intro f hf
    simp only [CLog.curFd, Function.update_self, Option.some.injEq] at hf
    simp [CLog.curTime, ← hf]
  · simp [World.opened, CLog.curFd]

theorem writeBuf_time (hw : Ticking s level w) {t : Tm} (ht : w.opened = some t) (buf : Bytes)
    (written : Int) :
    Ticking s level (writeBuf w buf written).1 ∧ (writeBuf w buf written).1.opened = some t ∧
      ∃ p, (writeBuf w buf written).2.2 = some p ∧ p.file.created = t := by
  obtain ⟨f, hf, rfl⟩ := Option.map_eq_some_iff.mp ht
  unfold writeBuf
  rw [hf]
  by_cases hwr : written > 0
  · simp only [hwr, if_true]
    exact ⟨⟨hw.strategeType, hw.timeStrategeType, hw.logLevel, hw.busy, hw.created⟩, ht, _, rfl, rfl⟩
  · simp only [hwr, if_false]
    exact ⟨hw, ht, _, rfl, rfl⟩

theorem openIfClosed_time (hw : Ticking s level w) (t : Tm) :
    (openIfClosed w ⟨t, true⟩).2 = true ∧ Ticking s level (openIfClosed w ⟨t, true⟩).1 ∧
      (openIfClosed w ⟨t, true⟩).1.opened = some (w.opened.getD t) := by
  unfold openIfClosed
  cases hf : w.log.curFd with
  | some f => exact ⟨rfl, hw, by simp [World.opened, hf]⟩
  | none =>
    obtain ⟨h1, h2, h3⟩ := newFile_time hw t
    exact ⟨by simp [h1], h2, by simpa [World.opened, hf] using h3⟩

/-- 一回の `prt` が書く先。比べる field が同じなら今の file、違えば今作った file である。 -/
def target (s : TimeStratege) (opened : Option Tm) (now : Tm) : Tm :=
  match opened with
  | none => now
  | some t => if clock s t = clock s now then t else now

/-- **file に向かう `prt` は、今の file か今作った file に書き、その file が次の「今の file」になる。** -/
theorem prt_time (hw : Ticking s level w) {c : Call} (hc : c.OpensNow) (hl : w.log.logs c = true) :
    Ticking s level (prt w c).1 ∧ (prt w c).1.opened = some (target s w.opened c.now) ∧
      ∃ p, (prt w c).2.2 = some p ∧ p.file.created = target s w.opened c.now := by
  obtain ⟨h1, h2, h3⟩ := openIfClosed_time hw c.now
  unfold prt
  simp only [hl, if_true, hw.strategeType, hc.1, hc.2, h1]
  have htime : (openIfClosed w ⟨c.now, true⟩).1.log.curTime = w.opened.getD c.now := by
    obtain ⟨f, hf, hft⟩ := Option.map_eq_some_iff.mp h3
    rw [← hft, h2.created f hf]
  rw [cut_eq, h2.timeStrategeType, htime]
  by_cases hcl : clock s (w.opened.getD c.now) = clock s c.now
  · simp only [hcl, ne_eq, not_true_eq_false, decide_false, Bool.false_eq_true, if_false]
    have htgt : target s w.opened c.now = w.opened.getD c.now := by
      cases ho : w.opened with
      | none => rfl
      | some t => simp_all [target]
    rw [htgt]
    exact writeBuf_time h2 h3 _ _
  · simp only [hcl, ne_eq, not_false_eq_true, decide_true, if_true]
    have htgt : target s w.opened c.now = c.now := by
      cases ho : w.opened with
      | none => rfl
      | some t => simp_all [target]
    obtain ⟨g1, g2, g3⟩ := newFile_time h2 c.now
    rw [htgt]
    unfold newFileThenWrite
    rw [if_neg (by simp [g1])]
    exact writeBuf_time g2 g3 _ _

theorem prt_skip {c : Call} (hl : w.log.logs c = false) : prt w c = (w, 0, none) := by
  simp [prt, hl]

end

/-! ## 呼び出しの列 -/

/-- 最後に作った file の期間にある時刻 `u` から見た、残りの行についての同値。 -/
theorem prts_period_iff {s : TimeStratege} {level : LogType} {calls : List Call} {w : World}
    {t u : Tm} (hw : Ticking s level w) (ht : w.opened = some t) (hu : period s u = period s t)
    (hc : ∀ c ∈ calls, c.OpensNow) :
    (∀ cp ∈ prts w calls, period s cp.2.file.created = period s cp.1.now) ↔
      List.IsChain (Unconfused s) (u :: (calls.filter w.log.logs).map (·.now)) := by
  induction calls generalizing w t u with
  | nil => simp [prts]
  | cons c cs ih =>
    have hcs : ∀ d ∈ cs, d.OpensNow := fun d hd => hc d (by simp [hd])
    cases hl : w.log.logs c with
    | false =>
      rw [List.filter_cons_of_neg (by simp [hl])]
      simpa [prts, prt_skip hl] using ih hw ht hu hcs
    | true =>
      obtain ⟨h1, h2, p, h3, h4⟩ := prt_time hw (hc c (by simp)) hl
      have hlog : (prt w c).1.log.logs = w.log.logs := by
        funext d
        simp [CLog.logs, h1.logLevel, hw.logLevel]
      simp only [prts, h3, Option.toList_some, List.map_cons, List.map_nil, List.cons_append,
        List.nil_append, List.forall_mem_cons, List.filter_cons_of_pos hl, List.isChain_cons_cons]
      rw [h4, ht, unconfused_congr hu]
      rw [ht] at h2
      -- 書いた先が正しい期間なら、続きは `c.now` から見てよい。誤っていれば両辺とも偽である
      by_cases hp : period s (target s (some t) c.now) = period s c.now
      · rw [ih h1 h2 hp.symm hcs, hlog]
        refine and_congr (iff_of_true hp ?_) Iff.rfl
        intro hcl
        simpa [target, hcl] using hp
      · refine iff_of_false (fun h => hp h.1) fun h => hp ?_
        by_cases hcl : clock s t = clock s c.now
        · simpa [target, hcl] using h.1 hcl
        · simp [target, hcl]

/-- `main` と同じ順に設定したログ。 -/
def startByTime (files : Bytes → Option Bytes) (level : LogType) (hOrD : Int)
    (path filename : Bytes) (t : Tm) : World :=
  init ⟨(CLog.new.setLogLevel level).setLogOutByTime hOrD, files⟩ path filename ⟨t, true⟩

/-- `set_log_out_by_time` の引数が選ぶ戦略。 -/
def strategeOf (hOrD : Int) : TimeStratege := if hOrD > 0 then .hour else .day

/-- `init` が file を開く時刻。名前が長すぎれば開かない。 -/
def initTimes (path filename : Bytes) (t : Tm) : List Tm :=
  if path.length + filename.length > PURE_LOG_MAX_FILE_NAME_LEN - 1 then [] else [t]

/-- file をまだ開いていないログ。最初の行は必ず自分の file に書かれる。 -/
theorem prts_period_iff_of_closed {s : TimeStratege} {level : LogType} {calls : List Call}
    {w : World} (hw : Ticking s level w) (ht : w.opened = none)
    (hc : ∀ c ∈ calls, c.OpensNow) :
    (∀ cp ∈ prts w calls, period s cp.2.file.created = period s cp.1.now) ↔
      List.IsChain (Unconfused s) ((calls.filter w.log.logs).map (·.now)) := by
  induction calls with
  | nil => simp [prts]
  | cons c cs ih =>
    have hcs : ∀ d ∈ cs, d.OpensNow := fun d hd => hc d (by simp [hd])
    cases hl : w.log.logs c with
    | false =>
      rw [List.filter_cons_of_neg (by simp [hl])]
      simpa [prts, prt_skip hl] using ih hcs
    | true =>
      obtain ⟨h1, h2, p, h3, h4⟩ := prt_time hw (hc c (by simp)) hl
      have hlog : (prt w c).1.log.logs = w.log.logs := by
        funext d
        simp [CLog.logs, h1.logLevel, hw.logLevel]
      simp only [prts, h3, Option.toList_some, List.map_cons, List.map_nil, List.cons_append,
        List.nil_append, List.forall_mem_cons, List.filter_cons_of_pos hl]
      have hnow : target s w.opened c.now = c.now := by rw [ht, target]
      rw [hnow] at h2 h4
      rw [h4, prts_period_iff h1 h2 rfl hcs, hlog]
      simp

theorem ticking_setLogOutByTime (files : Bytes → Option Bytes) (filename : Bytes)
    (level : LogType) (hOrD : Int) :
    Ticking (strategeOf hOrD) level
      ⟨{ (CLog.new.setLogLevel level).setLogOutByTime hOrD with filename := filename }, files⟩ where
  strategeType := rfl
  timeStrategeType := rfl
  logLevel := rfl
  busy := rfl
  created := by simp [CLog.curFd, CLog.setLogOutByTime, CLog.setLogLevel, CLog.new]

/--
**どの行もその期間に作られた file に書かれるのは、続く二つの時刻が紛れないとき、そのときに限る。**

時刻の列は、`init` が file を開いた時刻と、file に向かった各 `prt` の時刻である。
`HOUR` では時が同じで年月日が違う二つ、`DAY` では日が同じで年月が違う二つが続くと、
後の行は前の期間の file に書かれる。

file の作られた時刻は、それを開いた時刻をいう。`path` と名前が 256 byte の buffer の終わりで切られ、期間の
印が残らないときは、違う期間の file も同じ名前になるが、開き直した時刻で数える。
-/
theorem lines_in_period_iff (files : Bytes → Option Bytes) (level : LogType) (hOrD : Int)
    (path filename : Bytes) (t : Tm) (calls : List Call) (hc : ∀ c ∈ calls, c.OpensNow) :
    (∀ cp ∈ prts (startByTime files level hOrD path filename t) calls,
        period (strategeOf hOrD) cp.2.file.created = period (strategeOf hOrD) cp.1.now) ↔
      List.IsChain (Unconfused (strategeOf hOrD))
        (initTimes path filename t ++ (calls.filter fun c =>
          c.level.val ≤ level.val ∧ c.level ≠ .term).map (·.now)) := by
  unfold startByTime init initTimes
  split
  · exact prts_period_iff_of_closed (ticking_setLogOutByTime files [] level hOrD) rfl hc
  · obtain ⟨-, h2, h3⟩ := newFile_time (ticking_setLogOutByTime files
      (snprintf PURE_LOG_MAX_FILE_NAME_LEN (path ++ filename)) level hOrD) t
    have hlog : ∀ c, (newFile ⟨{ (CLog.new.setLogLevel level).setLogOutByTime hOrD with
        filename := snprintf PURE_LOG_MAX_FILE_NAME_LEN (path ++ filename) }, files⟩
        ⟨t, true⟩).1.log.logs c = decide (c.level.val ≤ level.val ∧ c.level ≠ .term) := by
      intro c
      rw [CLog.logs, h2.logLevel]
    have := prts_period_iff h2 h3 rfl hc
    rw [funext hlog] at this
    exact this

/-- 空でない名前のログの、試験用の呼び出し。 -/
def callAt (now : Tm) : Call := ⟨.info, ascii "x", now, ⟨now, true⟩, ⟨now, true⟩, 31⟩

/-- 日をまたいで続く三行は、`HOUR` でも自分の file に書かれる。 -/
theorem lines_in_period_midnight :
    (∀ c ∈ [callAt ⟨124, 0, 1, 23, 59, 0⟩, callAt ⟨124, 0, 2, 0, 1, 0⟩], c.OpensNow) ∧
      ∀ cp ∈ prts (startByTime (fun _ => none) .debug 1 [] (ascii "a") ⟨124, 0, 1, 23, 0, 0⟩)
          [callAt ⟨124, 0, 1, 23, 59, 0⟩, callAt ⟨124, 0, 2, 0, 1, 0⟩],
        period (strategeOf 1) cp.2.file.created = period (strategeOf 1) cp.1.now :=
  ⟨by decide, (lines_in_period_iff (fun _ => none) .debug 1 [] (ascii "a") ⟨124, 0, 1, 23, 0, 0⟩
    [callAt ⟨124, 0, 1, 23, 59, 0⟩, callAt ⟨124, 0, 2, 0, 1, 0⟩] (by decide)).mpr
      (by decide +kernel)⟩

/-- 時刻の順序を決める並び。 -/
def Tm.fields (t : Tm) : List Nat := [t.year, t.mon, t.mday, t.hour, t.min, t.sec]

/-- ちょうど一日空いて同じ時に来た行は、`HOUR` では前の日の file に書かれる。 -/
theorem line_after_one_day_misplaced :
    (⟨124, 0, 1, 10, 5, 0⟩ : Tm).fields ≤ (⟨124, 0, 2, 10, 5, 0⟩ : Tm).fields ∧
      (∀ c ∈ [callAt ⟨124, 0, 1, 10, 5, 0⟩, callAt ⟨124, 0, 2, 10, 5, 0⟩], c.OpensNow) ∧
      ¬∀ cp ∈ prts (startByTime (fun _ => none) .debug 1 [] (ascii "a") ⟨124, 0, 1, 10, 0, 0⟩)
          [callAt ⟨124, 0, 1, 10, 5, 0⟩, callAt ⟨124, 0, 2, 10, 5, 0⟩],
        period (strategeOf 1) cp.2.file.created = period (strategeOf 1) cp.1.now := by
  decide +kernel

end RecordServer.Log
