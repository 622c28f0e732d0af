import RecordServer.Log.Descriptors

/-!
# 失敗した file の切り替えはログを壊さない

`new_file` は次の slot を閉じてから開くので、開けなくても今の slot はそのまま残る。

* `newFile_eq` — 六つの分かれ道は、名前を除いて同じである
* `Intact` — 不変量。開いている descriptor は二つの slot にあるものだけである
* `newFile_intact`、`prt_intact` — 成功しても失敗しても不変量は保たれ、`PureLog` と同じことをする
* `rotation_intact` — どんな呼び出しの列の後でも成り立つこと
-/

namespace RecordServer.Log.Descriptors

open Infra

/-! ## kernel の表 -/

section

variable {k : Kernel} {fd fd' : Int}

theorem find_isSome : (∃ d, k.find fd = some d) ↔ ∃ d ∈ k.table, (d.fd : Int) = fd := by
  rw [← Option.isSome_iff_exists, Kernel.find, List.find?_isSome]
  simp

theorem find_neg_one : k.find (-1) = none := by
  rw [Kernel.find, List.find?_eq_none]
  intro d _
  simp only [decide_eq_true_eq]
  omega

theorem mem_close {d : Desc} : d ∈ (k.close fd).table ↔ d ∈ k.table ∧ (d.fd : Int) ≠ fd := by
  simp [Kernel.close]

theorem find_close (h : fd' ≠ fd) : (k.close fd).find fd' = k.find fd' := by
  unfold Kernel.find Kernel.close
  rw [List.find?_filter]
  congr 1
  funext d
  by_cases hd : (d.fd : Int) = fd'
  · simp [hd, h]
  · simp [hd]

/-- `-1` を閉じても何も起こらない。 -/
theorem close_neg_one : k.close (-1) = k := by
  have hall : k.table.filter (fun d => decide ((d.fd : Int) ≠ -1)) = k.table := by
    refine List.filter_eq_self.mpr fun d _ => ?_
    simp only [decide_eq_true_eq]
    omega
  unfold Kernel.close
  rw [hall]

end

theorem slot_next_ne (pos : Nat) : slot (u32 (pos + 1)) ≠ slot pos := by
  intro h
  have hval := congrArg Fin.val h
  simp only [slot, u32] at hval
  omega

theorem slot_cases (pos : Nat) (i : Fin 2) : i = slot pos ∨ i = slot (u32 (pos + 1)) := by
  have hne := slot_next_ne pos
  omega

/-! ## `new_file` の六つの分かれ道 -/

/-- 次に開く file の名前。 -/
def FdLog.nextFilename (l : FdLog) (t : Tm) : Bytes :=
  match l.strategeType with
  | .time => l.filename ++ ascii "_" ++ filenameSuffix t ++ ascii ".log"
  | .space => numberedName l.filename (u32 (l.pos + 1) % s32ToU32 l.amountSize + 1)
  | .const => l.filename ++ ascii ".log"

/-- 次の slot。 -/
def FdLog.next (l : FdLog) : Fin 2 := slot (u32 (l.pos + 1))

/-- 割り算で止まらないなら、どの戦略でも、次の slot を閉じて開き直す。 -/
theorem newFile_eq {w w' : World} {o : Opening} {st : Status} (hbusy : w.log.busy = 0)
    (h : newFile w o = some (w', st)) :
    openNext ⟨{ w.log with busy := 1 }, w.kernel.close (w.log.fd w.log.next)⟩ w.log.next
      (w.log.nextFilename o.time) o = some (w', st) := by
  have hopen : ∀ (l : FdLog) (filename : Bytes) {r : Option (World × Status)},
      (if w.log.fd w.log.next = -1 then openNext ⟨l, w.kernel⟩ w.log.next filename o
        else openNext ⟨l, w.kernel.close (w.log.fd w.log.next)⟩ w.log.next filename o) = r →
      openNext ⟨l, w.kernel.close (w.log.fd w.log.next)⟩ w.log.next filename o = r := by
    intro l filename r hr
    split at hr
    · rename_i hfd
      rwa [hfd, close_neg_one]
    · exact hr
  unfold newFile at h
  rw [if_neg (by simp [hbusy])] at h
  unfold FdLog.nextFilename
  cases hs : w.log.strategeType with
  | time =>
    simp only [hs] at h ⊢
    exact hopen _ _ h
  | space =>
    simp only [hs] at h ⊢
    exact hopen _ _ (Option.ite_none_left_eq_some.mp h).2
  | const =>
    simp only [hs] at h ⊢
    exact hopen _ _ h

/-- `new_file` の二つの結果。 -/
theorem newFile_cases {w w' : World} {o : Opening} {st : Status} (hbusy : w.log.busy = 0)
    (h : newFile w o = some (w', st)) :
    (o.fd = none ∧ st = .failure ∧
      w'.log = { w.log with fd := Function.update w.log.fd w.log.next (-1), busy := 0 } ∧
      w'.kernel = w.kernel.close (w.log.fd w.log.next)) ∨
    ∃ fd, o.fd = some fd ∧
      fd ∉ (w.kernel.close (w.log.fd w.log.next)).table.map Desc.fd ∧ st = .success ∧
      w'.log = { w.log with
        fd := Function.update w.log.fd w.log.next (fd : Int)
        curFiletime := Function.update w.log.curFiletime w.log.next o.time
        curFileSize := Function.update w.log.curFileSize w.log.next 0
        pos := u32 (w.log.pos + 1)
        busy := 0 } ∧
      w'.kernel.table =
        ⟨fd, ⟨snprintf PURE_LOG_MAX_FILE_NAME_LEN (w.log.nextFilename o.time), o.time⟩,
          w.kernel.opened + 1⟩ :: (w.kernel.close (w.log.fd w.log.next)).table ∧
      w'.kernel.files = createFile w.kernel.files
        (snprintf PURE_LOG_MAX_FILE_NAME_LEN (w.log.nextFilename o.time)) ∧
      w'.kernel.opened = w.kernel.opened + 1 ∧
      w'.kernel.peak =
        max w.kernel.peak ((w.kernel.close (w.log.fd w.log.next)).table.length + 1) := by
  obtain ⟨r, hopen, hr⟩ := Option.map_eq_some_iff.mp (newFile_eq hbusy h)
  cases hfd : o.fd with
  | none =>
    rw [hfd] at hopen
    cases hopen
    cases hr
    exact .inl ⟨rfl, rfl, rfl, rfl⟩
  | some fd =>
    rw [hfd] at hopen
    obtain ⟨hnot, hr'⟩ := Option.ite_none_left_eq_some.mp hopen
    cases hr'
    have hne : ((fd : Nat) : Int) ≠ -1 := by omega
    simp only [if_neg hne] at hr
    cases hr
    exact .inr ⟨fd, rfl, hnot, rfl, rfl, rfl, rfl, rfl, rfl⟩

/-! ## 不変量 -/

/-- `prt` の外での状態。開いている descriptor は、二つの slot にあるものだけである。 -/
structure Intact (w : World) : Prop where
  busy : w.log.busy = 0
  nodup : (w.kernel.table.map Desc.fd).Nodup
  held : ∀ d ∈ w.kernel.table, ∃ i, w.log.fd i = d.fd
  isOpen : ∀ i, w.log.fd i ≠ -1 → ∃ d ∈ w.kernel.table, (d.fd : Int) = w.log.fd i
  distinct : ∀ i j, w.log.fd i = w.log.fd j → w.log.fd i ≠ -1 → i = j
  current : 0 < w.kernel.opened → ∃ d ∈ w.kernel.table,
    (d.fd : Int) = w.log.fd (slot w.log.pos) ∧ d.serial = w.kernel.opened
  peak : w.kernel.peak ≤ 2

variable {w w' : World} {o : Opening} {st : Status}

theorem intact_new (files : Bytes → Option Bytes) : Intact (World.new files) where
  busy := rfl
  nodup := List.nodup_nil
  held := by simp [World.new]
  isOpen i h := absurd rfl h
  distinct i j _ h := absurd rfl h
  current h := absurd h (Nat.lt_irrefl 0)
  peak := Nat.zero_le _

/-- 次の slot を閉じた後に開いているのは、今の slot のものだけである。 -/
theorem Intact.vacated (h : Intact w) {d : Desc}
    (hd : d ∈ (w.kernel.close (w.log.fd w.log.next)).table) :
    d ∈ w.kernel.table ∧ (d.fd : Int) = w.log.fd (slot w.log.pos) := by
  obtain ⟨hmem, hne⟩ := mem_close.mp hd
  obtain ⟨i, hi⟩ := h.held d hmem
  rcases slot_cases w.log.pos i with rfl | rfl
  · exact ⟨hmem, hi.symm⟩
  · exact absurd hi.symm hne

theorem Intact.vacated_nodup (h : Intact w) :
    ((w.kernel.close (w.log.fd w.log.next)).table.map Desc.fd).Nodup :=
  h.nodup.sublist (List.filter_sublist.map _)

theorem Intact.vacated_length (h : Intact w) :
    (w.kernel.close (w.log.fd w.log.next)).table.length ≤ 1 := by
  by_contra hlen
  obtain ⟨d, e, rest, htable⟩ : ∃ d e rest,
      (w.kernel.close (w.log.fd w.log.next)).table = d :: e :: rest := by
    match ht : (w.kernel.close (w.log.fd w.log.next)).table with
    | [] | [_] => simp [ht] at hlen
    | d :: e :: rest => exact ⟨d, e, rest, rfl⟩
  have hd := (h.vacated (d := d) (by simp [htable])).2
  have he := (h.vacated (d := e) (by simp [htable])).2
  have hnd := h.vacated_nodup
  rw [htable] at hnd
  simp only [List.map_cons, List.nodup_cons, List.mem_cons, not_or] at hnd
  exact hnd.1.1 (by omega)

/-- 今の slot が開いていれば、次の slot を閉じても開いたままである。 -/
theorem Intact.kept (h : Intact w) (hcur : w.log.fd (slot w.log.pos) ≠ -1) {d : Desc}
    (hd : d ∈ w.kernel.table) (heq : (d.fd : Int) = w.log.fd (slot w.log.pos)) :
    d ∈ (w.kernel.close (w.log.fd w.log.next)).table := by
  refine mem_close.mpr ⟨hd, fun hc => slot_next_ne w.log.pos ?_⟩
  exact (h.distinct _ _ (heq.symm.trans hc) hcur).symm

theorem newFile_intact (h : Intact w) (hrun : newFile w o = some (w', st)) : Intact w' := by
  have hnext : w.log.next ≠ slot w.log.pos := slot_next_ne w.log.pos
  rcases newFile_cases h.busy hrun with
    ⟨-, -, hlog, hk⟩ | ⟨fd, -, hnot, -, hlog, htable, -, hopened, hpeak⟩
  · -- 開けなかった：次の slot は閉じたまま、今の slot は変わらない
    have hfd : ∀ i, i ≠ w.log.next → w'.log.fd i = w.log.fd i := fun i hi => by
      simp [hlog, Function.update_of_ne hi]
    have hopen : ∀ i, w'.log.fd i ≠ -1 → i ≠ w.log.next := by
      rintro i hi rfl
      simp [hlog] at hi
    have hpos' : w'.log.pos = w.log.pos := by rw [hlog]
    refine ⟨by rw [hlog], by rw [hk]; exact h.vacated_nodup, fun d hd => ?_, fun i hi => ?_,
      fun i j hij hi => ?_, fun hpos => ?_, by rw [hk]; exact h.peak⟩
    · rw [hk] at hd
      exact ⟨slot w.log.pos, (hfd _ hnext.symm).trans (h.vacated hd).2.symm⟩
    · have hi' := hopen i hi
      have hcur := (slot_cases w.log.pos i).resolve_right hi'
      rw [hfd i hi'] at hi ⊢
      obtain ⟨d, hd, hdi⟩ := h.isOpen i hi
      subst hcur
      exact ⟨d, by rw [hk]; exact h.kept hi hd hdi, hdi⟩
    · have hi' := hopen i hi
      have hj := hopen j (hij ▸ hi)
      rw [hfd i hi'] at hij hi
      exact h.distinct i j (hij.trans (hfd j hj)) hi
    · rw [hk] at hpos
      obtain ⟨d, hd, hdi, hserial⟩ := h.current hpos
      have hcur : w.log.fd (slot w.log.pos) ≠ -1 := by omega
      rw [hk, hpos', hfd _ hnext.symm]
      exact ⟨d, h.kept hcur hd hdi, hdi, hserial⟩
  · -- 開けた：新しい番号は、開いているどの番号とも違う
    have hold : ∀ d ∈ (w.kernel.close (w.log.fd w.log.next)).table,
        (d.fd : Int) = w.log.fd (slot w.log.pos) := fun d hd => (h.vacated hd).2
    have hfresh : ∀ d ∈ (w.kernel.close (w.log.fd w.log.next)).table, d.fd ≠ fd :=
      fun d hd hc => hnot (List.mem_map.mpr ⟨d, hd, hc⟩)
    have hfdnext : w'.log.fd w.log.next = (fd : Int) := by simp [hlog]
    have hfdcur : w'.log.fd (slot w.log.pos) = w.log.fd (slot w.log.pos) := by
      simp [hlog, Function.update_of_ne hnext.symm]
    have hpos' : slot w'.log.pos = w.log.next := by rw [hlog]; rfl
    have hslots : ∀ i, i = slot w.log.pos ∨ i = w.log.next := slot_cases w.log.pos
    have hcurne : w.log.fd (slot w.log.pos) ≠ (fd : Int) := by
      intro hc
      obtain ⟨d, hd, hfd⟩ := h.isOpen (slot w.log.pos) (by omega)
      exact hfresh d (h.kept (by omega) hd hfd) (by omega)
    refine ⟨by rw [hlog], ?_, fun d hd => ?_, fun i hi => ?_, fun i j hij hi => ?_, fun _ => ?_, ?_⟩
    · rw [htable, List.map_cons, List.nodup_cons]
      exact ⟨hnot, h.vacated_nodup⟩
    · rw [htable] at hd
      rcases List.mem_cons.mp hd with rfl | hd
      · exact ⟨_, hfdnext⟩
      · exact ⟨_, hfdcur.trans (hold d hd).symm⟩
    · rw [htable]
      rcases hslots i with rfl | rfl
      · rw [hfdcur] at hi ⊢
        obtain ⟨d, hd, hfd⟩ := h.isOpen _ hi
        exact ⟨d, .tail _ (h.kept hi hd hfd), hfd⟩
      · exact ⟨_, .head _, hfdnext.symm⟩
    · rcases hslots i with rfl | rfl <;> rcases hslots j with rfl | rfl
      · rfl
      · rw [hfdcur, hfdnext] at hij
        exact absurd hij hcurne
      · rw [hfdcur, hfdnext] at hij
        exact absurd hij.symm hcurne
      · rfl
    · rw [htable, hopened, hpos']
      exact ⟨_, .head _, hfdnext.symm, rfl⟩
    · have hlen := h.vacated_length
      have hle := h.peak
      rw [hpeak]
      show max w.kernel.peak _ ≤ 2
      omega

/-! ## `PureLog` との対応 -/

theorem toCLog_nextFilename (l : FdLog) (k : Kernel) (t : Tm) :
    (l.toCLog k).nextFilename t = snprintf PURE_LOG_MAX_FILE_NAME_LEN (l.nextFilename t) := by
  obtain ⟨filename, strategeType, _, _, _, _, _, _, _, _, _⟩ := l
  cases strategeType <;> rfl

theorem find_cons_ne {k k' : Kernel} {d : Desc} {fd : Int} (htable : k'.table = d :: k.table)
    (hne : (d.fd : Int) ≠ fd) : k'.find fd = k.find fd := by
  unfold Kernel.find
  rw [htable, List.find?_cons_of_neg (by simpa using hne)]

/-- 今の slot の descriptor は、次の slot を閉じても同じ file を指す。 -/
theorem Intact.find_cur (h : Intact w) :
    (w.kernel.close (w.log.fd w.log.next)).find (w.log.fd (slot w.log.pos)) =
      w.kernel.find (w.log.fd (slot w.log.pos)) := by
  by_cases hcur : w.log.fd (slot w.log.pos) = -1
  · rw [hcur, find_neg_one, find_neg_one]
  · exact find_close fun hc => slot_next_ne w.log.pos (h.distinct _ _ hc hcur).symm

theorem newFile_toWorld (h : Intact w) (hrun : newFile w o = some (w', st)) :
    Log.newFile w.toWorld o.toOpening = (w'.toWorld, st) := by
  have hbusy : w.toWorld.log.busy = false := by simp [World.toWorld, FdLog.toCLog, h.busy]
  have hnext : w.log.next ≠ slot w.log.pos := slot_next_ne w.log.pos
  unfold Log.newFile
  rw [if_neg (by simp [hbusy])]
  rcases newFile_cases h.busy hrun with
    ⟨hfd, rfl, hlog, hk⟩ | ⟨fd, hfd, hnot, rfl, hlog, htable, hfiles, -, -⟩
  · have hok : o.toOpening.ok = false := by simp [Opening.toOpening, hfd]
    rw [if_neg (by simp [hok])]
    have hfds : Function.update w.toWorld.log.fd w.log.next none =
        fun i => (w'.kernel.find (w'.log.fd i)).map Desc.file := by
      funext i
      rcases slot_cases w.log.pos i with rfl | hi
      · rw [Function.update_of_ne hnext.symm, hlog, hk]
        simp only [Function.update_of_ne hnext.symm]
        rw [h.find_cur]
        rfl
      · obtain rfl : i = w.log.next := hi
        rw [Function.update_self, hlog]
        simp [find_neg_one]
    show ((⟨{ w.toWorld.log with fd := Function.update w.toWorld.log.fd w.log.next none },
      w.kernel.files⟩ : Log.World), Status.failure) = _
    rw [hfds]
    simp [World.toWorld, FdLog.toCLog, hlog, hk, h.busy, Kernel.close]
  · have hok : o.toOpening.ok = true := by simp [Opening.toOpening, hfd]
    rw [if_pos hok]
    have hfds : Function.update w.toWorld.log.fd w.log.next
          (some ⟨w.toWorld.log.nextFilename o.time, o.time⟩) =
        fun i => (w'.kernel.find (w'.log.fd i)).map Desc.file := by
      funext i
      rcases slot_cases w.log.pos i with rfl | hi
      · have hne : ((fd : Nat) : Int) ≠ w.log.fd (slot w.log.pos) := by
          intro hc
          obtain ⟨d, hd, hdi⟩ := h.isOpen (slot w.log.pos) (by omega)
          refine hnot (List.mem_map.mpr ⟨d, h.kept (by omega) hd hdi, ?_⟩)
          omega
        rw [Function.update_of_ne hnext.symm, hlog]
        simp only [Function.update_of_ne hnext.symm]
        rw [find_cons_ne htable hne, h.find_cur]
        rfl
      · obtain rfl : i = w.log.next := hi
        rw [Function.update_self, hlog]
        simp [Kernel.find, htable, World.toWorld, toCLog_nextFilename]
    show ((⟨{ w.toWorld.log with
        fd := Function.update w.toWorld.log.fd w.log.next
          (some ⟨w.toWorld.log.nextFilename o.time, o.time⟩)
        curFiletime := Function.update w.log.curFiletime w.log.next o.time
        curFileSize := Function.update w.log.curFileSize w.log.next 0
        pos := u32 (w.log.pos + 1) },
      createFile w.kernel.files (w.toWorld.log.nextFilename o.time)⟩ : Log.World),
      Status.success) = _
    have hname : w.toWorld.log.nextFilename o.time =
        snprintf PURE_LOG_MAX_FILE_NAME_LEN (w.log.nextFilename o.time) :=
      toCLog_nextFilename w.log w.kernel o.time
    rw [hfds, hname]
    simp [World.toWorld, FdLog.toCLog, hlog, hfiles, h.busy]

/-! ## `prt` -/

theorem toCLog_hasRoom (l : FdLog) (k : Kernel) : (l.toCLog k).hasRoom = l.hasRoom := by
  unfold CLog.hasRoom CLog.curSize FdLog.hasRoom FdLog.toCLog
  generalize u32 _ = room
  rfl

theorem curFd_toWorld (w : World) :
    w.toWorld.log.curFd = (w.kernel.find (w.log.fd (slot w.log.pos))).map Desc.file := rfl

theorem openIfClosed_intact (h : Intact w) {b : Bool} (hrun : openIfClosed w o = some (w', b)) :
    Intact w' ∧ Log.openIfClosed w.toWorld o.toOpening = (w'.toWorld, b) := by
  unfold openIfClosed at hrun
  unfold Log.openIfClosed
  rw [curFd_toWorld]
  by_cases hcur : w.log.fd (slot w.log.pos) = -1
  · rw [if_pos hcur] at hrun
    obtain ⟨r, hnew, hr⟩ := Option.map_eq_some_iff.mp hrun
    cases hr
    rw [hcur, find_neg_one]
    refine ⟨newFile_intact h hnew, ?_⟩
    show ((Log.newFile w.toWorld o.toOpening).1, _) = _
    rw [newFile_toWorld h hnew]
  · rw [if_neg hcur] at hrun
    cases hrun
    obtain ⟨d, hd⟩ := find_isSome.mpr (h.isOpen _ hcur)
    rw [hd]
    exact ⟨h, rfl⟩

theorem writeBuf_intact (h : Intact w) (buf : Bytes) (written : Int) :
    Intact (writeBuf w buf written).1 ∧
      Log.writeBuf w.toWorld buf written =
        ((writeBuf w buf written).1.toWorld, (writeBuf w buf written).2) := by
  cases hfind : w.kernel.find (w.log.fd (slot w.log.pos)) with
  | none =>
    have hwrite : writeBuf w buf written = (w, -1, none) := by
      simp [writeBuf, Kernel.write, hfind]
    rw [hwrite]
    refine ⟨h, ?_⟩
    rw [Log.writeBuf, curFd_toWorld, hfind]
    rfl
  | some d =>
    by_cases hpos : written > 0
    · have hwrite : writeBuf w buf written =
          (⟨{ w.log with
              curFileSize := Function.update w.log.curFileSize (slot w.log.pos)
                (u32 (w.log.curFileSize (slot w.log.pos) + written.toNat)) },
            { w.kernel with
              files := appendFile w.kernel.files d.file.name (buf.take written.toNat) }⟩,
            written, some ⟨d.file, buf⟩) := by
        simp [writeBuf, Kernel.write, hfind, hpos]
      rw [hwrite]
      refine ⟨⟨h.busy, h.nodup, h.held, h.isOpen, h.distinct, h.current, h.peak⟩, ?_⟩
      rw [Log.writeBuf, curFd_toWorld, hfind]
      simp only [Option.map_some, hpos, if_true]
      rfl
    · have hwrite : writeBuf w buf written = (w, written, some ⟨d.file, buf⟩) := by
        simp [writeBuf, Kernel.write, hfind, hpos]
      rw [hwrite]
      refine ⟨h, ?_⟩
      rw [Log.writeBuf, curFd_toWorld, hfind]
      simp only [Option.map_some, hpos, if_false]

theorem newFileThenWrite_intact (h : Intact w) {buf : Bytes} {written : Int}
    {r : World × Int × Option Put} (hrun : newFileThenWrite w o buf written = some r) :
    Intact r.1 ∧
      Log.newFileThenWrite w.toWorld o.toOpening buf written = (r.1.toWorld, r.2) := by
  unfold newFileThenWrite at hrun
  obtain ⟨⟨w₁, st⟩, hnew, hr⟩ := Option.map_eq_some_iff.mp hrun
  have h₁ := newFile_intact h hnew
  unfold Log.newFileThenWrite
  rw [newFile_toWorld h hnew]
  by_cases hst : st = .failure
  · simp only [hst, if_true] at hr ⊢
    cases hr
    exact ⟨h₁, rfl⟩
  · simp only [hst, if_false] at hr ⊢
    cases hr
    exact writeBuf_intact h₁ buf written

/-- `first` の `open` を終えてから先へ進む、どの方式にも共通の始まり。 -/
theorem openIfClosed_bind (h : Intact w) {c : Call} {β : Type} {f : World × Bool → Option β}
    {r : β} (hrun : (openIfClosed w c.first).bind f = some r) :
    ∃ w₁ b, Intact w₁ ∧ Log.openIfClosed w.toWorld c.toCall.first = (w₁.toWorld, b) ∧
      f (w₁, b) = some r := by
  obtain ⟨⟨w₁, b⟩, hopen, hrest⟩ := Option.bind_eq_some_iff.mp hrun
  obtain ⟨h₁, heq⟩ := openIfClosed_intact h hopen
  exact ⟨w₁, b, h₁, heq, hrest⟩

theorem prt_intact (h : Intact w) {c : Call} {r : World × Int × Option Put}
    (hrun : prt w c = some r) :
    Intact r.1 ∧ Log.prt w.toWorld c.toCall = (r.1.toWorld, r.2) := by
  unfold prt at hrun
  have hlogs : w.toWorld.log.logs c.toCall =
      decide (c.level.val ≤ w.log.logLevel.val ∧ c.level ≠ .term) := rfl
  unfold Log.prt
  rw [hlogs]
  by_cases hl : c.level.val ≤ w.log.logLevel.val ∧ c.level ≠ .term
  · rw [if_pos hl] at hrun
    rw [if_pos (by simpa using hl)]
    have hstrat : w.toWorld.log.strategeType = w.log.strategeType := rfl
    rw [hstrat]
    cases hs : w.log.strategeType with
    | time =>
      simp only [hs] at hrun ⊢
      obtain ⟨w₁, b, h₁, heq, hrest⟩ := openIfClosed_bind h hrun
      rw [heq]
      cases b with
      | false =>
        cases hrest
        exact ⟨h₁, rfl⟩
      | true =>
        have hcut : w₁.toWorld.log.cut c.toCall.now = w₁.log.cut c.now := rfl
        rw [if_pos rfl] at hrest
        rw [if_pos rfl, hcut]
        cases hc : w₁.log.cut c.now with
        | true =>
          rw [if_pos hc] at hrest
          exact newFileThenWrite_intact h₁ hrest
        | false =>
          rw [if_neg (by simp [hc])] at hrest
          cases hrest
          exact writeBuf_intact h₁ _ _
    | space =>
      simp only [hs] at hrun ⊢
      obtain ⟨w₁, b, h₁, heq, hrest⟩ := openIfClosed_bind h hrun
      rw [heq]
      cases b with
      | false =>
        cases hrest
        exact ⟨h₁, rfl⟩
      | true =>
        have hroom : w₁.toWorld.log.hasRoom = w₁.log.hasRoom := toCLog_hasRoom _ _
        rw [if_pos rfl] at hrest
        rw [if_pos rfl, hroom]
        cases hc : w₁.log.hasRoom with
        | true =>
          rw [if_pos hc] at hrest
          cases hrest
          exact writeBuf_intact h₁ _ _
        | false =>
          rw [if_neg (by simp [hc])] at hrest
          exact newFileThenWrite_intact h₁ hrest
    | const =>
      simp only [hs, Option.map_eq_bind] at hrun ⊢
      obtain ⟨w₁, b, h₁, heq, hrest⟩ := openIfClosed_bind h hrun
      rw [heq]
      cases b with
      | false =>
        cases hrest
        exact ⟨h₁, rfl⟩
      | true =>
        cases hrest
        obtain ⟨h₂, hwrite⟩ := writeBuf_intact h₁ (lineOf c.toCall) c.written
        refine ⟨h₂, ?_⟩
        simp only [if_true]
        rw [show c.toCall.written = c.written from rfl, hwrite]
  · rw [if_neg hl] at hrun
    cases hrun
    rw [if_neg (by simpa using hl)]
    exact ⟨h, rfl⟩

/-! ## 呼び出しの列 -/

/-- 設定を書き換えても、slot と表は変わらない。 -/
theorem Intact.configure (h : Intact w) {l : FdLog} (hfd : l.fd = w.log.fd)
    (hpos : l.pos = w.log.pos) (hbusy : l.busy = w.log.busy) : Intact ⟨l, w.kernel⟩ where
  busy := hbusy.trans h.busy
  nodup := h.nodup
  held := by
    rw [hfd]
    exact h.held
  isOpen := by
    rw [hfd]
    exact h.isOpen
  distinct := by
    rw [hfd]
    exact h.distinct
  current := by
    rw [hfd, hpos]
    exact h.current
  peak := h.peak

theorem step_intact (h : Intact w) {a : Act} (hstep : step w a = some w') : Intact w' := by
  cases a with
  | init path filename o =>
    simp only [step, init] at hstep
    split at hstep
    · cases hstep
      exact h
    · obtain ⟨⟨w₁, st⟩, hnew, hw⟩ := Option.map_eq_some_iff.mp hstep
      cases hw
      have hnamed : Intact ⟨{ w.log with
        filename := snprintf PURE_LOG_MAX_FILE_NAME_LEN (path ++ filename) }, w.kernel⟩ :=
        h.configure rfl rfl rfl
      exact newFile_intact hnamed hnew
  | prt c =>
    obtain ⟨r, hprt, hw⟩ := Option.map_eq_some_iff.mp hstep
    cases hw
    exact (prt_intact h hprt).1
  | setLogLevel level =>
    cases hstep
    exact h.configure rfl rfl rfl
  | setLogOutByTime hOrD =>
    cases hstep
    exact h.configure rfl rfl rfl
  | setLogOutByAmount len size =>
    cases hstep
    exact h.configure rfl rfl rfl

/-- 開けなかった `new_file` は、今の slot に触れない。 -/
theorem newFile_failure (hrun : newFile w o = some (w', .failure)) :
    w'.log.pos = w.log.pos ∧ w'.log.fd (slot w.log.pos) = w.log.fd (slot w.log.pos) ∧
      w'.log.curFiletime (slot w.log.pos) = w.log.curFiletime (slot w.log.pos) ∧
      w'.log.curFileSize (slot w.log.pos) = w.log.curFileSize (slot w.log.pos) := by
  by_cases hbusy : w.log.busy = 0
  · rcases newFile_cases hbusy hrun with ⟨-, -, hlog, -⟩ | ⟨fd, -, -, hst, -⟩
    · rw [hlog]
      exact ⟨rfl, Function.update_of_ne (slot_next_ne w.log.pos).symm _ _, rfl, rfl⟩
    · cases hst
  · rw [newFile, if_pos hbusy] at hrun
    simp at hrun

/-- 壊すと、番号が 0 のもののほかは閉じる。 -/
theorem destroy_table (h : Intact w) {d : Desc} (hd : d ∈ (destroy w).table) : d.fd = 0 := by
  have hclose : ∀ {k : Kernel} {fd : Int}, d ∈ (if fd > 0 then k.close fd else k).table →
      d ∈ k.table ∧ (fd > 0 → (d.fd : Int) ≠ fd) := by
    intro k fd hd
    split at hd
    · obtain ⟨hmem, hne⟩ := mem_close.mp hd
      exact ⟨hmem, fun _ => hne⟩
    · rename_i hfd
      exact ⟨hd, fun hc => absurd hc hfd⟩
  obtain ⟨hd, h₁⟩ := hclose hd
  obtain ⟨hmem, h₀⟩ := hclose hd
  obtain ⟨i, hi⟩ := h.held d hmem
  have hi01 : i = slot 0 ∨ i = slot 1 := slot_cases 0 i
  rcases hi01 with rfl | rfl <;> omega

/--
**file の切り替えに失敗しても、ログは壊れない。**

`init`、`prt` と設定のどんな列の後でも、どの `open` が失敗したかによらず、`m_busy` は 0 で、一度でも
`open` が成功していれば、今の slot は最後に成功した `open` の descriptor を持ち、それは開いたままである。
開けなかった `new_file` は今の slot を変えない。同時に開いている descriptor は高々二つで、開いている
ものはどれも slot にある。
-/
theorem rotation_intact (files : Bytes → Option Bytes) (as : List Act) (w : World)
    (hrun : run step (World.new files) as = some w) :
    w.log.busy = 0 ∧
    (0 < w.kernel.opened → ∃ d ∈ w.kernel.table,
      (d.fd : Int) = w.log.fd (slot w.log.pos) ∧ d.serial = w.kernel.opened) ∧
    (∀ v o v', newFile v o = some (v', .failure) →
      v'.log.pos = v.log.pos ∧ v'.log.fd (slot v.log.pos) = v.log.fd (slot v.log.pos) ∧
        v'.log.curFiletime (slot v.log.pos) = v.log.curFiletime (slot v.log.pos) ∧
        v'.log.curFileSize (slot v.log.pos) = v.log.curFileSize (slot v.log.pos)) ∧
    w.kernel.peak ≤ 2 ∧ ∀ d ∈ w.kernel.table, ∃ i, w.log.fd i = d.fd := by
  have h : Intact w := run_invariant (fun _ _ _ _ hstep hI => step_intact hI hstep)
    (Along.trivial _ as) hrun (intact_new files)
  exact ⟨h.busy, h.current, fun _ _ _ hfail => newFile_failure hfail, h.peak, h.held⟩

/-- 二度開いてから、次の slot を閉じて開き直そうとして失敗する。 -/
def failedRotation : List Act :=
  [.init [47] [97] ⟨⟨0, 0, 0, 0, 0, 0⟩, some 3⟩, .init [47] [97] ⟨⟨0, 0, 0, 0, 0, 0⟩, some 4⟩,
    .init [47] [97] ⟨⟨0, 0, 0, 0, 0, 0⟩, none⟩]

theorem rotation_intact_failedRotation :
    ∃ w, run step (World.new fun _ => none) failedRotation = some w ∧
      w.kernel.table.map Desc.fd = [4] ∧ w.log.fd (slot w.log.pos) = 4 ∧ w.kernel.peak ≤ 2 :=
  ⟨_, rfl, rfl, rfl, (rotation_intact (fun _ => none) failedRotation _ rfl).2.2.2.1⟩

end RecordServer.Log.Descriptors
