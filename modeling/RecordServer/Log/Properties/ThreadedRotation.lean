import RecordServer.Log.Threads
import RecordServer.Log.Properties.Rotation
import RecordServer.Infra.FlagLock
import Mathlib.Data.List.Nodup
import Mathlib.Data.List.Perm.Subperm

/-!
# 同時に書く thread と file の切り替え

書く thread は `m_pos` を読み、その slot の descriptor を読み、そこへ書く。三つの操作の間に、ほかの thread が
file を替えるかもしれない。二つの slot を交互に使うので、一度の切り替えでは読んだ descriptor は閉じない。

* `Numbered` — どの `open` の成功も、別の番号で数えてある
* `Targets` — 読んだ descriptor は、選んだときの file より前の file を指さない
* `Sound` — 全体の不変量
* `current_file_survives` — どんな混ざり方でも今の file は開いたままで、選んだ file が開いている限り
  書き込みはその file に届く
-/

namespace RecordServer.Log.Descriptors

open Infra

/-! ## `open` の番号 -/

/-- 開いている descriptor の `serial` は互いに異なり、1 から `opened` までにある。 -/
structure Kernel.Numbered (k : Kernel) : Prop where
  nodup : (k.table.map Desc.serial).Nodup
  bound : ∀ d ∈ k.table, 0 < d.serial ∧ d.serial ≤ k.opened

variable {k k' : Kernel} {w w' : World} {o : Opening}

theorem Kernel.Numbered.close (h : k.Numbered) (fd : Int) : (k.close fd).Numbered where
  nodup := h.nodup.sublist (List.filter_sublist.map _)
  bound d hd := h.bound d (mem_close.mp hd).1

/-- `open` の二つの結果。 -/
theorem Kernel.open'_cases {file : OpenFile} {a : Option Nat} {fd : Int}
    (h : k.open' file a = some (fd, k')) :
    (fd = -1 ∧ k' = k) ∨ ∃ n : Nat, fd = n ∧ n ∉ k.table.map Desc.fd ∧
      k'.table = ⟨n, file, k.opened + 1⟩ :: k.table ∧ k'.opened = k.opened + 1 := by
  cases a with
  | none =>
    cases h
    exact .inl ⟨rfl, rfl⟩
  | some n =>
    obtain ⟨hn, hr⟩ := Option.ite_none_left_eq_some.mp h
    cases hr
    exact .inr ⟨n, rfl, hn, rfl, rfl⟩

theorem Kernel.Numbered.open' (h : k.Numbered) {file : OpenFile} {a : Option Nat} {fd : Int}
    (hopen : k.open' file a = some (fd, k')) : k'.Numbered := by
  obtain ⟨-, rfl⟩ | ⟨n, -, -, htable, hopened⟩ := Kernel.open'_cases hopen
  · exact h
  · refine ⟨?_, ?_⟩
    · rw [htable]
      refine List.nodup_cons.mpr ⟨fun hmem => ?_, h.nodup⟩
      obtain ⟨d, hd, hserial⟩ := List.mem_map.mp hmem
      have hle := (h.bound d hd).2
      simp only at hserial
      omega
    · rw [htable, hopened]
      rintro d (_ | ⟨_, hd⟩)
      · exact ⟨Nat.succ_pos _, le_rfl⟩
      · exact ⟨(h.bound d hd).1, (h.bound d hd).2.trans (Nat.le_succ _)⟩

theorem Kernel.write_table (fd : Int) (buf : Bytes) (written : Int) :
    (k.write fd buf written).2.2.table = k.table ∧
      (k.write fd buf written).2.2.opened = k.opened := by
  unfold Kernel.write
  split
  · exact ⟨rfl, rfl⟩
  · split <;> exact ⟨rfl, rfl⟩

theorem Kernel.Numbered.write (h : k.Numbered) (fd : Int) (buf : Bytes) (written : Int) :
    (k.write fd buf written).2.2.Numbered := by
  obtain ⟨htable, hopened⟩ := Kernel.write_table (k := k) fd buf written
  exact ⟨htable ▸ h.nodup, by rw [htable, hopened]; exact h.bound⟩

theorem openNext_numbered (h : w.kernel.Numbered) {next : Fin 2} {filename : Bytes} {st : Status}
    (hrun : openNext w next filename o = some (w', st)) : w'.kernel.Numbered := by
  obtain ⟨⟨fd, k⟩, hopen, hr⟩ := Option.map_eq_some_iff.mp hrun
  have hk := h.open' hopen
  simp only at hr
  split at hr
  all_goals
    cases hr
    exact hk

theorem newFile_numbered {st : Status} (hrun : newFile w o = some (w', st))
    (h : w.kernel.Numbered) : w'.kernel.Numbered := by
  by_cases hbusy : w.log.busy = 0
  · exact openNext_numbered (h.close _) (newFile_eq hbusy hrun)
  · rw [newFile, if_pos hbusy] at hrun
    cases hrun
    exact h

theorem openIfClosed_numbered (h : w.kernel.Numbered) {b : Bool}
    (hrun : openIfClosed w o = some (w', b)) : w'.kernel.Numbered := by
  unfold openIfClosed at hrun
  split at hrun
  · obtain ⟨⟨v, st⟩, hnew, hr⟩ := Option.map_eq_some_iff.mp hrun
    cases hr
    exact newFile_numbered hnew h
  · cases hrun
    exact h

theorem writeBuf_numbered (h : w.kernel.Numbered) (buf : Bytes) (written : Int) :
    (writeBuf w buf written).1.kernel.Numbered := by
  have hk := h.write (w.log.fd (slot w.log.pos)) buf written
  unfold writeBuf
  simp only
  split <;> exact hk

theorem newFileThenWrite_numbered (h : w.kernel.Numbered) {buf : Bytes} {written : Int}
    {r : World × Int × Option Put} (hrun : newFileThenWrite w o buf written = some r) :
    r.1.kernel.Numbered := by
  obtain ⟨⟨v, st⟩, hnew, hr⟩ := Option.map_eq_some_iff.mp hrun
  have hv := newFile_numbered hnew h
  simp only at hr
  split at hr
  · cases hr
    exact hv
  · cases hr
    exact writeBuf_numbered hv buf written

theorem prt_numbered (h : w.kernel.Numbered) {c : Call} {r : World × Int × Option Put}
    (hrun : prt w c = some r) : r.1.kernel.Numbered := by
  unfold prt at hrun
  split at hrun
  · split at hrun
    · obtain ⟨⟨v, b⟩, hopen, hr⟩ := Option.bind_eq_some_iff.mp hrun
      have hv := openIfClosed_numbered h hopen
      simp only at hr
      split at hr
      · split at hr
        · exact newFileThenWrite_numbered hv hr
        · cases hr
          exact writeBuf_numbered hv _ _
      · cases hr
        exact hv
    · obtain ⟨⟨v, b⟩, hopen, hr⟩ := Option.bind_eq_some_iff.mp hrun
      have hv := openIfClosed_numbered h hopen
      simp only at hr
      split at hr
      · split at hr
        · cases hr
          exact writeBuf_numbered hv _ _
        · exact newFileThenWrite_numbered hv hr
      · cases hr
        exact hv
    · obtain ⟨⟨v, b⟩, hopen, hr⟩ := Option.map_eq_some_iff.mp hrun
      have hv := openIfClosed_numbered h hopen
      simp only at hr
      split at hr
      · cases hr
        exact writeBuf_numbered hv _ _
      · cases hr
        exact hv
  · cases hrun
    exact h

theorem step_numbered (h : w.kernel.Numbered) {a : Act} (hstep : step w a = some w') :
    w'.kernel.Numbered := by
  cases a with
  | init path filename o =>
    simp only [step, init] at hstep
    split at hstep
    · cases hstep
      exact h
    · obtain ⟨⟨v, st⟩, hnew, hw⟩ := Option.map_eq_some_iff.mp hstep
      cases hw
      exact newFile_numbered hnew h
  | prt c =>
    obtain ⟨r, hprt, hw⟩ := Option.map_eq_some_iff.mp hstep
    cases hw
    exact prt_numbered h hprt
  | setLogLevel level =>
    cases hstep
    exact h
  | setLogOutByTime hOrD =>
    cases hstep
    exact h
  | setLogOutByAmount len size =>
    cases hstep
    exact h

/-- 一つの thread で準備したログ。 -/
theorem prepared {files : Bytes → Option Bytes} {as : List Act}
    (hrun : run step (World.new files) as = some w) : Intact w ∧ w.kernel.Numbered := by
  have hnew : (World.new files).kernel.Numbered := ⟨List.nodup_nil, by simp [World.new]⟩
  exact run_invariant (I := fun w => Intact w ∧ w.kernel.Numbered)
    (fun _ _ _ _ hstep hI => ⟨step_intact hI.1 hstep, step_numbered hI.2 hstep⟩)
    (Along.trivial _ as) hrun ⟨intact_new files, hnew⟩

/-- 今の slot の番号。 -/
def FdLog.cur (l : FdLog) : Int := l.fd (slot l.pos)

namespace Threads

/-! ## 中にいる thread -/

/-- `m_busy` を立てて、まだ戻していない。 -/
def Rot.inside : Rot → Bool
  | .cas => false
  | _ => true

def Pc.inside : Pc → Bool
  | .rotate _ _ r => r.inside
  | _ => false

/-- 開いて、まだ `m_pos` を進めていない。 -/
def Rot.fresh : Rot → Bool
  | .storeFd _ fd => fd ≠ -1
  | .storeTime _ | .clearSize _ | .loadInc | .storeInc _ => true
  | _ => false

def Pc.fresh : Pc → Bool
  | .rotate _ _ r => r.fresh
  | _ => false

/-- 開いて、まだ slot に置いていない番号。 -/
def Pc.reserved : Pc → Option Int
  | .rotate _ _ (.storeFd _ fd) => some fd
  | _ => none

theorem Pc.outside {pc : Pc} (h : pc.inside = false) : pc.fresh = false ∧ pc.reserved = none := by
  cases pc with
  | rotate c site r =>
    cases r with
    | cas => exact ⟨rfl, rfl⟩
    | _ => cases h
  | _ => exact ⟨rfl, rfl⟩

theorem afterCheck_cases {P : Pc → Prop} (l : FdLog) {c : Call} (hlimit : P (.limitPos c))
    (hwrite : P (.writePos c)) : P (afterCheck l c) := by
  unfold afterCheck
  split
  · split
    · exact hwrite
    · exact hlimit
  · exact hlimit
  · exact hwrite

theorem afterRotate_cases {P : Pc → Prop} (l : FdLog) {c : Call} (site : Site) (st : Status)
    (hidle : P (.idle (some (-1)))) (hlimit : P (.limitPos c)) (hwrite : P (.writePos c)) :
    P (afterRotate l c site st) := by
  cases st with
  | failure => exact hidle
  | success | retry =>
    cases site with
    | first => exact afterCheck_cases l hlimit hwrite
    | second => exact hwrite

theorem afterRotate_outside (l : FdLog) (c : Call) (site : Site) (st : Status) :
    (afterRotate l c site st).inside = false :=
  afterRotate_cases (P := fun pc => pc.inside = false) l site st rfl rfl rfl

/-! ## 不変量 -/

variable {τ : Type*}

/-- `m_pos` を進める手前の `new_file` が開いた descriptor。 -/
def Ready (s : State τ) (fd : Int) : Prop :=
  ∃ d ∈ s.kernel.table, (d.fd : Int) = fd ∧ d.serial = s.turned + 1

/-- 次の slot の file はもう開いていない。 -/
def Vacated (s : State τ) : Prop := ∀ d ∈ s.kernel.table, (d.fd : Int) = s.log.cur

/-- `new_file` の途中の local 変数。 -/
def RotOk (s : State τ) : Rot → Prop
  | .cas | .loadPos | .unlock _ => True
  | .loadFd next => next = s.log.next
  | .close next fd => next = s.log.next ∧ s.log.fd next = fd
  | .index next | .openCall next _ => next = s.log.next ∧ Vacated s
  | .storeFd next fd =>
    next = s.log.next ∧ (∀ d ∈ s.kernel.table, (d.fd : Int) = s.log.cur ∨ (d.fd : Int) = fd) ∧
      (fd ≠ -1 → Ready s fd)
  | .storeTime next | .clearSize next => next = s.log.next ∧ Ready s (s.log.fd s.log.next)
  | .loadInc => Ready s (s.log.fd s.log.next)
  | .storeInc pos => pos = s.log.pos ∧ Ready s (s.log.fd s.log.next)

/-- `fd` が指すのは、`seen` 番目に開いた file か、それより後の file である。 -/
def Targets (k : Kernel) (fd : Int) (seen : Nat) : Prop :=
  (∀ d ∈ k.table, d.serial = seen → (d.fd : Int) = fd) ∧
    ∀ d ∈ k.table, (d.fd : Int) = fd → seen ≤ d.serial

/-- `m_pos` を読んで、slot をまだ読んでいない。 -/
structure Chosen (s : State τ) (pos seen : Nat) : Prop where
  le : seen ≤ s.turned
  slot : seen = s.turned → Log.slot pos = Log.slot s.log.pos
  targets : 0 < seen → Targets s.kernel (s.log.fd (Log.slot pos)) seen

/-- slot を読んで、まだ書いていない。 -/
structure Aimed (s : State τ) (fd : Int) (seen : Nat) : Prop where
  le : seen ≤ s.turned
  targets : 0 < seen → Targets s.kernel fd seen

/-- `prt` の途中の local 変数。 -/
def PcOk (s : State τ) : Pc → Prop
  | .rotate _ _ r => RotOk s r
  | .writeFd _ pos seen => Chosen s pos seen
  | .write _ fd seen => Aimed s fd seen
  | _ => True

/-- thread が混ざるときのログの不変量。 -/
structure Sound (s : State τ) : Prop where
  lock : FlagLock (fun t => (s.pc t).inside) s.log.busy
  nodup : (s.kernel.table.map Desc.fd).Nodup
  numbered : s.kernel.Numbered
  current : 0 < s.turned →
    ∀ d ∈ s.kernel.table, d.serial = s.turned ↔ (d.fd : Int) = s.log.cur
  live : 0 < s.turned → ∃ d ∈ s.kernel.table, d.serial = s.turned
  dead : s.turned = 0 → s.log.cur = -1
  apart : s.log.cur ≠ -1 → s.log.fd s.log.next ≠ s.log.cur
  settled : (∀ t, (s.pc t).fresh = false) → s.kernel.opened = s.turned
  opening : ∀ t, (s.pc t).fresh = true → s.kernel.opened = s.turned + 1
  held : (∀ t, (s.pc t).reserved = none) → ∀ d ∈ s.kernel.table, ∃ i, s.log.fd i = d.fd
  locals : ∀ t, PcOk s (s.pc t)

theorem eq_of_fd_eq {k : Kernel} (h : (k.table.map Desc.fd).Nodup) {d e : Desc} (hd : d ∈ k.table)
    (he : e ∈ k.table) (hfd : d.fd = e.fd) : d = e := List.inj_on_of_nodup_map h hd he hfd

theorem mem_of_find {k : Kernel} {fd : Int} {d : Desc} (h : k.find fd = some d) :
    d ∈ k.table ∧ (d.fd : Int) = fd :=
  ⟨List.mem_of_find?_eq_some h, by simpa using List.find?_some h⟩

theorem find_eq_of_nodup {k : Kernel} (h : (k.table.map Desc.fd).Nodup) {fd : Int} {d : Desc}
    (hd : d ∈ k.table) (hfd : (d.fd : Int) = fd) : k.find fd = some d := by
  obtain ⟨e, he⟩ := find_isSome.mpr ⟨d, hd, hfd⟩
  obtain ⟨hmem, hefd⟩ := mem_of_find he
  rw [he, eq_of_fd_eq h hmem hd (by omega)]

theorem sound_start {files : Bytes → Option Bytes} {as : List Descriptors.Act} {w : World}
    (hrun : run Descriptors.step (World.new files) as = some w) : Sound (start w : State τ) := by
  obtain ⟨hw, hk⟩ := prepared hrun
  refine ⟨?_, hw.nodup, hk, fun hpos d hd => ?_, fun hpos => ?_, fun hzero => ?_,
    fun hcur hnext => ?_, fun _ => rfl, fun t ht => absurd ht (by simp [start, Pc.fresh]), fun _ => hw.held,
    fun _ => trivial⟩
  · show FlagLock _ w.log.busy
    rw [hw.busy]
    exact .free fun _ => rfl
  · obtain ⟨e, he, hfd, hserial⟩ := hw.current hpos
    constructor
    · intro hd'
      have heq : d = e := List.inj_on_of_nodup_map hk.nodup hd he (hd'.trans hserial.symm)
      rw [heq]
      exact hfd
    · intro hd'
      have heq : d = e := eq_of_fd_eq hw.nodup hd he (by
        have hcur : (d.fd : Int) = e.fd := hd'.trans hfd.symm
        omega)
      rw [heq]
      exact hserial
  · obtain ⟨e, he, -, hserial⟩ := hw.current hpos
    exact ⟨e, he, hserial⟩
  · by_contra hcur
    obtain ⟨d, hd, -⟩ := hw.isOpen _ hcur
    have hbound := hk.bound d hd
    have hopened : w.kernel.opened = 0 := hzero
    omega
  · exact slot_next_ne w.log.pos (hw.distinct _ _ hnext (fun h => hcur (hnext.symm.trans h)))

/-! ## 一歩 -/

/-- slot の番号、`m_pos`、kernel の表と回数が変わらない。 -/
structure Same (s s' : State τ) : Prop where
  fd : s'.log.fd = s.log.fd
  pos : s'.log.pos = s.log.pos
  table : s'.kernel.table = s.kernel.table
  opened : s'.kernel.opened = s.kernel.opened
  turned : s'.turned = s.turned

variable {s s' : State τ} {t : τ} {pc : Pc}

theorem PcOk.same (h : PcOk s pc) (hs : Same s s') : PcOk s' pc := by
  obtain ⟨hfd, hpos, htable, -, hturned⟩ := hs
  cases pc with
  | rotate c site r =>
    cases r with
    | cas | loadPos | unlock _ => trivial
    | _ =>
      simpa only [PcOk, RotOk, Ready, Vacated, FdLog.cur, FdLog.next, hfd, hpos, htable, hturned]
        using h
  | writeFd c pos seen =>
    refine ⟨hturned ▸ h.le, by rw [hturned, hpos]; exact h.slot, ?_⟩
    simpa only [Targets, hfd, htable] using h.targets
  | write c fd seen =>
    refine ⟨hturned ▸ h.le, ?_⟩
    simpa only [Targets, htable] using h.targets
  | _ => trivial

/-- 外にいる thread の local 変数が正しいことは、書こうとしている thread だけを見ればよい。 -/
theorem PcOk.outside (h : PcOk s pc) (hout : pc.inside = false)
    (hchosen : ∀ {pos seen}, Chosen s pos seen → Chosen s' pos seen)
    (haimed : ∀ {fd seen}, Aimed s fd seen → Aimed s' fd seen) : PcOk s' pc := by
  cases pc with
  | rotate c site r =>
    cases r with
    | cas => trivial
    | _ => cases hout
  | writeFd c pos seen => exact hchosen h
  | write c fd seen => exact haimed h
  | _ => trivial

variable [DecidableEq τ]

theorem inside_update (hpc : s'.pc = Function.update s.pc t pc) :
    (fun u => (s'.pc u).inside) = Function.update (fun u => (s.pc u).inside) t pc.inside := by
  rw [hpc]
  exact Function.comp_update Pc.inside s.pc t pc

theorem locals_update (hpc : s'.pc = Function.update s.pc t pc) (hself : PcOk s' pc)
    (hothers : ∀ u, u ≠ t → PcOk s' (s.pc u)) (u : τ) : PcOk s' (s'.pc u) := by
  rw [hpc, Function.update_apply]
  split
  · exact hself
  · exact hothers u ‹_›

/-- slot にも表にも触れない一歩。`m_busy` を変えることはある。 -/
theorem Sound.keep (h : Sound s) (hs : Same s s') (hpc : s'.pc = Function.update s.pc t pc)
    (hlock : FlagLock (Function.update (fun u => (s.pc u).inside) t pc.inside) s'.log.busy)
    (hfresh : pc.fresh = (s.pc t).fresh) (hreserved : pc.reserved = (s.pc t).reserved)
    (hself : PcOk s pc) : Sound s' := by
  have hfresh' : ∀ u, (s'.pc u).fresh = (s.pc u).fresh := by
    intro u
    rw [hpc, Function.update_apply]
    split
    · rename_i heq
      rw [hfresh, heq]
    · rfl
  have hreserved' : ∀ u, (s'.pc u).reserved = (s.pc u).reserved := by
    intro u
    rw [hpc, Function.update_apply]
    split
    · rename_i heq
      rw [hreserved, heq]
    · rfl
  have hcur : s'.log.cur = s.log.cur := by rw [FdLog.cur, hs.fd, hs.pos, FdLog.cur]
  have hnext : s'.log.next = s.log.next := by rw [FdLog.next, hs.pos, FdLog.next]
  refine ⟨inside_update hpc ▸ hlock, hs.table ▸ h.nodup,
    ⟨hs.table ▸ h.numbered.nodup, by rw [hs.table, hs.opened]; exact h.numbered.bound⟩, ?_, ?_,
    by rw [hs.turned, hcur]; exact h.dead, by rw [hcur, hnext, hs.fd]; exact h.apart, fun hf => ?_, fun u hu => ?_, fun hr => ?_,
    locals_update hpc (hself.same hs) fun u _ => (h.locals u).same hs⟩
  · rw [hs.turned, hs.table, hcur]
    exact h.current
  · rw [hs.turned, hs.table]
    exact h.live
  · rw [hs.opened, hs.turned]
    exact h.settled fun u => hfresh' u ▸ hf u
  · rw [hs.opened, hs.turned]
    exact h.opening u (hfresh' u ▸ hu)
  · rw [hs.table, hs.fd]
    exact h.held fun u => hreserved' u ▸ hr u

section Inside

omit [DecidableEq τ]

/-- 中にいる thread のほかは、開いてもいないし、番号も持っていない。 -/
theorem Sound.alone (h : Sound s) (ht : (s.pc t).inside = true) {u : τ} (hu : u ≠ t) :
    (s.pc u).inside = false ∧ (s.pc u).fresh = false ∧ (s.pc u).reserved = none := by
  have hout : (s.pc u).inside = false := h.lock.outside ht hu
  exact ⟨hout, Pc.outside hout⟩

theorem Sound.opened_eq (h : Sound s) (ht : (s.pc t).inside = true)
    (hfresh : (s.pc t).fresh = false) : s.kernel.opened = s.turned := by
  refine h.settled fun u => ?_
  by_cases hu : u = t
  · rw [hu, hfresh]
  · exact (h.alone ht hu).2.1

theorem Sound.held_inside (h : Sound s) (ht : (s.pc t).inside = true)
    (hreserved : (s.pc t).reserved = none) {d : Desc} (hd : d ∈ s.kernel.table) :
    (d.fd : Int) = s.log.cur ∨ (d.fd : Int) = s.log.fd s.log.next := by
  have hnone : ∀ u, (s.pc u).reserved = none := fun u => by
    by_cases hu : u = t
    · rw [hu, hreserved]
    · exact (h.alone ht hu).2.2
  obtain ⟨i, hi⟩ := h.held hnone d hd
  rcases slot_cases s.log.pos i with rfl | rfl
  · exact .inl hi.symm
  · exact .inr hi.symm

/-- 今の slot の descriptor は、次の slot の番号とは別である。 -/
theorem Sound.cur_fd (h : Sound s) (hturned : 0 < s.turned) {d : Desc} (hd : d ∈ s.kernel.table)
    (hserial : d.serial = s.turned) : (d.fd : Int) = s.log.cur ∧ (d.fd : Int) ≠ s.log.fd s.log.next := by
  have hcur := (h.current hturned d hd).mp hserial
  refine ⟨hcur, fun hc => h.apart (by omega) (hc.symm.trans hcur)⟩

/-- 次の slot に置く番号は、今の slot の番号とは別である。 -/
theorem Sound.ready_ne (h : Sound s) {fd : Int} (hready : Ready s fd) : s.log.cur ≠ fd := by
  obtain ⟨d, hd, hfd, hserial⟩ := hready
  intro hc
  by_cases hturned : 0 < s.turned
  · have heq := (h.current hturned d hd).mpr (hfd.trans hc.symm)
    omega
  · have hdead := h.dead (by omega)
    omega

/-- その番号を持つのは、いま開いた descriptor だけである。 -/
theorem Sound.ready_serial (h : Sound s) {fd : Int} (hready : Ready s fd) {d : Desc}
    (hd : d ∈ s.kernel.table) : (d.fd : Int) = fd ↔ d.serial = s.turned + 1 := by
  obtain ⟨e, he, hfd, hserial⟩ := hready
  constructor
  · intro hc
    rw [eq_of_fd_eq h.nodup hd he (by omega)]
    exact hserial
  · intro hc
    have heq : d = e := List.inj_on_of_nodup_map h.numbered.nodup hd he (hc.trans hserial.symm)
    rw [heq]
    exact hfd

end Inside

/-- 中にいる thread が動いた後の `m_busy`。 -/
theorem Sound.lock_inside (h : Sound s) (hpc : s'.pc = Function.update s.pc t pc)
    (ht : (s.pc t).inside = true) (hin : pc.inside = true) (hbusy : s'.log.busy = s.log.busy) :
    FlagLock (fun u => (s'.pc u).inside) s'.log.busy := by
  rw [inside_update hpc, hbusy]
  exact h.lock.stay (hin.trans ht.symm)

/-- 中にいる thread が動いた後、開いて進めていない thread はその thread だけである。 -/
theorem Sound.fresh_update (h : Sound s) (hpc : s'.pc = Function.update s.pc t pc)
    (ht : (s.pc t).inside = true) {u : τ} (hu : (s'.pc u).fresh = true) :
    u = t ∧ pc.fresh = true := by
  rw [hpc, Function.update_apply] at hu
  split at hu
  · exact ⟨‹_›, hu⟩
  · rw [(h.alone ht ‹_›).2.1] at hu
    cases hu

omit [DecidableEq τ] in
theorem Sound.others (h : Sound s) (ht : (s.pc t).inside = true)
    (hchosen : ∀ {pos seen}, Chosen s pos seen → Chosen s' pos seen)
    (haimed : ∀ {fd seen}, Aimed s fd seen → Aimed s' fd seen) (u : τ) (hu : u ≠ t) :
    PcOk s' (s.pc u) := (h.locals u).outside (h.alone ht hu).1 hchosen haimed

/-- 次の slot の descriptor を閉じる一歩。 -/
theorem Sound.close (h : Sound s) {c : Call} {site : Site} {fd : Int}
    (ht : s.pc t = .rotate c site (.close s.log.next fd)) (hfd : s.log.fd s.log.next = fd) :
    Sound ⟨s.log, s.kernel.close fd,
      Function.update s.pc t (.rotate c site (.index s.log.next)), s.turned⟩ := by
  have hin : (s.pc t).inside = true := by rw [ht]; rfl
  have hsub : ∀ {d}, d ∈ (s.kernel.close fd).table → d ∈ s.kernel.table :=
    fun hd => (mem_close.mp hd).1
  refine ⟨h.lock_inside (s := s) rfl hin rfl rfl, h.nodup.sublist (List.filter_sublist.map _),
    h.numbered.close fd, fun hturned d hd => h.current hturned d (hsub hd), fun hturned => ?_, h.dead,
    h.apart, fun _ => h.opened_eq hin (by rw [ht]; rfl), fun u hu => ?_, fun _ d hd => ?_,
    locals_update rfl ⟨rfl, fun d hd => ?_⟩ (h.others hin (fun hc => ?_) fun ha => ?_)⟩
  · obtain ⟨d, hd, hserial⟩ := h.live hturned
    exact ⟨d, mem_close.mpr ⟨hd, hfd ▸ (h.cur_fd hturned hd hserial).2⟩, hserial⟩
  · have hfresh := (h.fresh_update rfl hin hu).2
    cases hfresh
  · rcases h.held_inside hin (by rw [ht]; rfl) (hsub hd) with hd' | hd'
    · exact ⟨_, hd'.symm⟩
    · exact ⟨_, hd'.symm⟩
  · obtain ⟨hmem, hne⟩ := mem_close.mp hd
    exact (h.held_inside hin (by rw [ht]; rfl) hmem).resolve_right fun hc => hne (hc.trans hfd)
  · exact ⟨hc.le, hc.slot, fun hseen => ⟨fun d hd => (hc.targets hseen).1 d (hsub hd),
      fun d hd => (hc.targets hseen).2 d (hsub hd)⟩⟩
  · exact ⟨ha.le, fun hseen => ⟨fun d hd => (ha.targets hseen).1 d (hsub hd),
      fun d hd => (ha.targets hseen).2 d (hsub hd)⟩⟩

/-- 後から開いた descriptor は、前に選んだ番号の行き先を前の file に戻さない。 -/
theorem Targets.grow {k k' : Kernel} {fd : Int} {seen : Nat} (h : Targets k fd seen) {e : Desc}
    (htable : k'.table = e :: k.table) (hlt : seen < e.serial) : Targets k' fd seen := by
  constructor
  · rw [htable]
    rintro d (_ | ⟨_, hd⟩) hserial
    · omega
    · exact h.1 d hd hserial
  · rw [htable]
    rintro d (_ | ⟨_, hd⟩) hfd
    · exact hlt.le
    · exact h.2 d hd hfd

/-- 次の file を開く一歩。 -/
theorem Sound.openCall (h : Sound s) {c : Call} {site : Site} {filename : Bytes}
    (ht : s.pc t = .rotate c site (.openCall s.log.next filename)) (hvacated : Vacated s)
    {file : OpenFile} {a : Option Nat} {fd : Int} {k : Kernel}
    (hopen : s.kernel.open' file a = some (fd, k)) :
    Sound ⟨s.log, k, Function.update s.pc t (.rotate c site (.storeFd s.log.next fd)), s.turned⟩ := by
  have hin : (s.pc t).inside = true := by rw [ht]; rfl
  have hopened := h.opened_eq hin (by rw [ht]; rfl)
  have hnumbered := h.numbered.open' hopen
  have hreserved : ¬ ∀ u, (Function.update s.pc t (.rotate c site (.storeFd s.log.next fd)) u).reserved
      = none := by
    intro hnone
    have hself := hnone t
    rw [Function.update_self] at hself
    cases hself
  obtain ⟨rfl, rfl⟩ | ⟨n, rfl, hn, htable, hk⟩ := Kernel.open'_cases hopen
  · -- 開けなかった：表は変わらない。
    refine ⟨h.lock_inside (s := s) rfl hin rfl rfl, h.nodup, hnumbered, h.current, h.live, h.dead,
      h.apart, fun _ => hopened, fun u hu => ?_, fun hr => absurd hr hreserved,
      locals_update rfl ⟨rfl, fun d hd => .inl (hvacated d hd), fun hc => absurd rfl hc⟩
        (h.others hin (fun hc => ⟨hc.le, hc.slot, hc.targets⟩) fun ha => ⟨ha.le, ha.targets⟩)⟩
    have hfresh := (h.fresh_update rfl hin hu).2
    simp [Pc.fresh, Rot.fresh] at hfresh
  · have hnew : Ready ⟨s.log, k, s.pc, s.turned⟩ (n : Int) :=
      ⟨_, htable ▸ List.mem_cons_self, rfl, by rw [hopened]⟩
    have hne : s.log.cur ≠ n := by
      intro hc
      by_cases hturned : 0 < s.turned
      · obtain ⟨d, hd, hserial⟩ := h.live hturned
        have hcur := (h.current hturned d hd).mp hserial
        exact hn (List.mem_map.mpr ⟨d, hd, by omega⟩)
      · have hdead := h.dead (by omega)
        omega
    refine ⟨h.lock_inside (s := s) rfl hin rfl rfl, ?_, hnumbered, fun hturned d hd => ?_,
      fun hturned => ?_, h.dead, h.apart, fun hf => ?_, fun u hu => ?_,
      fun hr => absurd hr hreserved, locals_update rfl ⟨rfl, fun d hd => ?_, fun _ => hnew⟩
        (h.others hin (fun hc => ?_) fun ha => ?_)⟩
    · show (k.table.map Desc.fd).Nodup
      rw [htable]
      exact List.nodup_cons.mpr ⟨hn, h.nodup⟩
    · have hd' : d ∈ k.table := hd
      rw [htable] at hd'
      rcases List.mem_cons.mp hd' with rfl | hd'
      · show s.kernel.opened + 1 = s.turned ↔ (n : Int) = s.log.cur
        constructor
        · intro hc
          omega
        · intro hc
          exact absurd hc.symm hne
      · exact h.current hturned d hd'
    · obtain ⟨d, hd, hserial⟩ := h.live hturned
      exact ⟨d, htable ▸ List.mem_cons_of_mem _ hd, hserial⟩
    · have hself := hf t
      simp [Function.update_self, Pc.fresh, Rot.fresh] at hself
    · show k.opened = s.turned + 1
      rw [hk, hopened]
    · have hd' : d ∈ k.table := hd
      rw [htable] at hd'
      rcases List.mem_cons.mp hd' with rfl | hd'
      · exact .inr rfl
      · exact .inl (hvacated d hd')
    · have hle := hc.le
      exact ⟨hc.le, hc.slot, fun hseen => (hc.targets hseen).grow htable (by simp only; omega)⟩
    · have hle := ha.le
      exact ⟨ha.le, fun hseen => (ha.targets hseen).grow htable (by simp only; omega)⟩

/-- 開いた番号を次の slot に置く一歩。 -/
theorem Sound.storeFd (h : Sound s) {c : Call} {site : Site} {fd : Int}
    (ht : s.pc t = .rotate c site (.storeFd s.log.next fd))
    (hall : ∀ d ∈ s.kernel.table, (d.fd : Int) = s.log.cur ∨ (d.fd : Int) = fd)
    (hready : fd ≠ -1 → Ready s fd) {r : Rot} (hr : r.inside = true)
    (hfresh : r.fresh = decide (fd ≠ -1))
    (hself : Function.update s.log.fd s.log.next fd s.log.next = fd → RotOk
      ⟨{ s.log with fd := Function.update s.log.fd s.log.next fd }, s.kernel, s.pc, s.turned⟩ r) :
    Sound ⟨{ s.log with fd := Function.update s.log.fd s.log.next fd }, s.kernel,
      Function.update s.pc t (.rotate c site r), s.turned⟩ := by
  have hin : (s.pc t).inside = true := by rw [ht]; rfl
  have hslot : slot s.log.pos ≠ s.log.next := (slot_next_ne s.log.pos).symm
  have hcur : Function.update s.log.fd s.log.next fd (slot s.log.pos) = s.log.cur :=
    Function.update_of_ne hslot _ _
  have hnext : Function.update s.log.fd s.log.next fd s.log.next = fd := Function.update_self ..
  refine ⟨h.lock_inside (s := s) rfl hin hr rfl, h.nodup, h.numbered, fun hturned d hd => ?_, h.live,
    fun hz => hcur.trans (h.dead hz), fun hc => ?_, fun hf => ?_, fun u hu => ?_, fun _ d hd => ?_,
    locals_update rfl (hself hnext) (h.others hin (fun {pos seen} hc => ⟨hc.le, hc.slot, fun hseen => ?_⟩)
      fun ha => ⟨ha.le, ha.targets⟩)⟩
  · show d.serial = s.turned ↔ (d.fd : Int) = Function.update s.log.fd s.log.next fd (slot s.log.pos)
    rw [hcur]
    exact h.current hturned d hd
  · show Function.update s.log.fd s.log.next fd s.log.next ≠
      Function.update s.log.fd s.log.next fd (slot s.log.pos)
    rw [hcur, hnext]
    have hc' : s.log.cur ≠ -1 := fun heq => hc (hcur.trans heq)
    by_cases hfd : fd = -1
    · rw [hfd]
      exact hc'.symm
    · exact (h.ready_ne (hready hfd)).symm
  · refine h.settled fun u => ?_
    have hu : (Function.update s.pc t (.rotate c site r) u).fresh = false := hf u
    by_cases heq : u = t
    · rw [heq] at hu ⊢
      rw [Function.update_self] at hu
      rw [ht]
      exact hfresh.symm.trans hu
    · rwa [Function.update_of_ne heq] at hu
  · obtain ⟨-, hu⟩ := h.fresh_update rfl hin hu
    refine h.opening t ?_
    rw [ht]
    exact hfresh.symm.trans hu
  · rcases hall d hd with hd' | hd'
    · exact ⟨_, hcur.trans hd'.symm⟩
    · exact ⟨_, hnext.trans hd'.symm⟩
  · show Targets s.kernel (Function.update s.log.fd s.log.next fd (slot pos)) seen
    have hle := hc.le
    by_cases hpos : slot pos = s.log.next
    · -- 次の slot を選んだのは、今の file より前の file のときである。
      have hne : seen ≠ s.turned := fun heq => hslot ((hc.slot heq).symm.trans hpos)
      have hturned : 0 < s.turned := by omega
      rw [hpos, hnext]
      refine ⟨fun d hd hserial => ?_, fun d hd hfd => ?_⟩
      · refine (hall d hd).resolve_left fun hd' => hne ?_
        exact hserial.symm.trans ((h.current hturned d hd).mpr hd')
      · have hserial := (h.ready_serial (hready (by omega)) hd).mp hfd
        omega
    · rw [Function.update_of_ne hpos]
      exact hc.targets hseen

/-- `m_pos` を進める一歩。 -/
theorem Sound.turn (h : Sound s) {c : Call} {site : Site}
    (ht : s.pc t = .rotate c site (.storeInc s.log.pos)) (hready : Ready s (s.log.fd s.log.next)) :
    Sound ⟨{ s.log with pos := u32 (s.log.pos + 1) }, s.kernel,
      Function.update s.pc t (.rotate c site (.unlock .success)), s.turned + 1⟩ := by
  have hin : (s.pc t).inside = true := by rw [ht]; rfl
  have hback : slot (u32 (u32 (s.log.pos + 1) + 1)) = slot s.log.pos :=
    ((slot_cases (u32 (s.log.pos + 1)) (slot s.log.pos)).resolve_left
      (slot_next_ne s.log.pos).symm).symm
  refine ⟨h.lock_inside (s := s) rfl hin rfl rfl, h.nodup, h.numbered,
    fun _ d hd => (h.ready_serial hready hd).symm, fun _ => ?_, fun hz => absurd hz (Nat.succ_ne_zero _),
    fun _ => ?_, fun _ => ?_, fun u hu => ?_, fun _ d hd => ?_,
    locals_update rfl trivial (h.others hin (fun hc => ⟨hc.le.trans (Nat.le_succ _), ?_, hc.targets⟩)
      fun ha => ⟨ha.le.trans (Nat.le_succ _), ha.targets⟩)⟩
  · obtain ⟨d, hd, -, hserial⟩ := hready
    exact ⟨d, hd, hserial⟩
  · show s.log.fd (slot (u32 (u32 (s.log.pos + 1) + 1))) ≠ s.log.fd s.log.next
    rw [hback]
    exact h.ready_ne hready
  · exact h.opening t (by rw [ht]; rfl)
  · have hfresh := (h.fresh_update rfl hin hu).2
    cases hfresh
  · rcases h.held_inside hin (by rw [ht]; rfl) hd with hd' | hd'
    · exact ⟨_, hd'.symm⟩
    · exact ⟨_, hd'.symm⟩
  · have hle := hc.le
    intro heq
    have heq' : _ = s.turned + 1 := heq
    omega

/-! ## どの一歩も不変量を保つ -/

/-- 錠も開いた file もそのままに、`new_file` の次の所へ進む一歩。 -/
theorem Sound.advance (h : Sound s) {c : Call} {site : Site} {r : Rot} (r' : Rot)
    (ht : s.pc t = .rotate c site r) (hs : Same s s')
    (hpc : s'.pc = Function.update s.pc t (.rotate c site r')) (hbusy : s'.log.busy = s.log.busy)
    (hinside : r'.inside = r.inside) (hfresh : r'.fresh = r.fresh)
    (hreserved : (Pc.rotate c site r').reserved = (Pc.rotate c site r).reserved)
    (hok : RotOk s r') : Sound s' := by
  refine h.keep hs hpc ?_ (by rw [ht]; exact hfresh) (by rw [ht]; exact hreserved) hok
  rw [hbusy]
  exact FlagLock.stay h.lock (by rw [ht]; exact hinside)

/-- `new_file` を一つ進める一歩。 -/
theorem Sound.rotStep (h : Sound s) {c : Call} {site : Site} {r : Rot} {l : FdLog} {k : Kernel}
    {turned : Nat} (ht : s.pc t = .rotate c site r)
    (hm : Threads.rotStep s.log s.kernel s.turned c site r = some (l, k, turned, pc)) :
    Sound ⟨l, k, Function.update s.pc t pc, turned⟩ := by
  have hok : RotOk s r := by
    have hlocal := h.locals t
    rwa [ht] at hlocal
  have hlock : FlagLock (fun u => (s.pc u).inside) s.log.busy := h.lock
  have houtside : ∀ {st : Status}, (afterRotate s.log c site st).fresh = false ∧
      (afterRotate s.log c site st).reserved = none :=
    Pc.outside (afterRotate_outside s.log c site _)
  cases r with
  | cas =>
    simp only [Threads.rotStep] at hm
    split at hm
    · rename_i hbusy
      cases hm
      refine h.keep ⟨rfl, rfl, rfl, rfl, rfl⟩ rfl ?_ (by rw [ht]; rfl) (by rw [ht]; rfl) ?_
      · rw [hbusy] at hlock
        exact hlock.acquire
      · exact trivial
    · cases hm
      refine h.keep ⟨rfl, rfl, rfl, rfl, rfl⟩ rfl ?_ (by rw [ht, houtside.1]; rfl)
        (by rw [ht, houtside.2]; rfl) ?_
      · exact hlock.stay (by rw [ht, afterRotate_outside]; rfl)
      · exact afterRotate_cases s.log site .retry trivial trivial trivial
  | loadPos =>
    cases hm
    exact h.advance (.loadFd _) ht ⟨rfl, rfl, rfl, rfl, rfl⟩ rfl rfl rfl rfl rfl rfl
  | loadFd next =>
    obtain rfl : next = s.log.next := hok
    have hin : (s.pc t).inside = true := by rw [ht]; rfl
    simp only [Threads.rotStep] at hm
    split at hm
    · rename_i hfd
      cases hm
      refine h.advance (.index _) ht ⟨rfl, rfl, rfl, rfl, rfl⟩ rfl rfl rfl rfl rfl
        ⟨rfl, fun d hd => ?_⟩
      exact (h.held_inside hin (by rw [ht]; rfl) hd).resolve_right (by omega)
    · cases hm
      exact h.advance (.close _ _) ht ⟨rfl, rfl, rfl, rfl, rfl⟩ rfl rfl rfl rfl rfl ⟨rfl, rfl⟩
  | close next fd =>
    obtain ⟨rfl, hfd⟩ := hok
    cases hm
    exact h.close ht hfd
  | index next =>
    have hkeep : ∀ filename, Sound ⟨s.log, s.kernel,
        Function.update s.pc t (.rotate c site (.openCall next filename)), s.turned⟩ := fun filename =>
      h.advance (.openCall _ _) ht ⟨rfl, rfl, rfl, rfl, rfl⟩ rfl rfl rfl rfl rfl hok
    simp only [Threads.rotStep] at hm
    split at hm
    · cases hm
      exact hkeep _
    · obtain ⟨-, hr⟩ := Option.ite_none_left_eq_some.mp hm
      cases hr
      exact hkeep _
    · cases hm
      exact hkeep _
  | openCall next filename =>
    obtain ⟨rfl, hvacated⟩ := hok
    obtain ⟨⟨fd, k'⟩, hopen, hr⟩ := Option.map_eq_some_iff.mp hm
    cases hr
    exact h.openCall ht hvacated hopen
  | storeFd next fd =>
    obtain ⟨rfl, hall, hready⟩ := hok
    simp only [Threads.rotStep] at hm
    split at hm
    · rename_i hfd
      cases hm
      exact h.storeFd ht hall hready rfl (by simp [hfd, Rot.fresh]) fun _ => trivial
    · rename_i hfd
      cases hm
      refine h.storeFd ht hall hready rfl (by simp [hfd, Rot.fresh]) fun hnext => ⟨rfl, ?_⟩
      show Ready _ (Function.update s.log.fd s.log.next fd s.log.next)
      rw [hnext]
      exact hready hfd
  | storeTime next =>
    cases hm
    exact h.advance (.clearSize _) ht ⟨rfl, rfl, rfl, rfl, rfl⟩ rfl rfl rfl rfl rfl hok
  | clearSize next =>
    cases hm
    exact h.advance .loadInc ht ⟨rfl, rfl, rfl, rfl, rfl⟩ rfl rfl rfl rfl rfl hok.2
  | loadInc =>
    cases hm
    exact h.advance (.storeInc _) ht ⟨rfl, rfl, rfl, rfl, rfl⟩ rfl rfl rfl rfl rfl ⟨rfl, hok⟩
  | storeInc pos =>
    obtain ⟨rfl, hready⟩ := hok
    cases hm
    exact h.turn ht hready
  | unlock st =>
    cases hm
    refine h.keep ⟨rfl, rfl, rfl, rfl, rfl⟩ rfl ?_ (by rw [ht, houtside.1]; rfl)
      (by rw [ht, houtside.2]; rfl) ?_
    · rw [afterRotate_outside]
      exact hlock.release (by rw [ht]; rfl)
    · exact afterRotate_cases s.log site st trivial trivial trivial

/-- `new_file` の外で、slot にも表にも触れない一歩。 -/
theorem Sound.keep_outside (h : Sound s) (hs : Same s s') (hpc : s'.pc = Function.update s.pc t pc)
    (hbusy : s'.log.busy = s.log.busy) (hold : (s.pc t).inside = false) (hnew : pc.inside = false)
    (hself : PcOk s pc) : Sound s' := by
  have hlock : FlagLock (fun u => (s.pc u).inside) s.log.busy := h.lock
  have hout := Pc.outside hold
  have hout' := Pc.outside hnew
  refine h.keep hs hpc ?_ (hout'.1.trans hout.1.symm) (hout'.2.trans hout.2.symm) hself
  rw [hbusy]
  exact hlock.stay (hnew.trans hold.symm)

theorem Sound.micro (h : Sound s) {l : FdLog} {k : Kernel} {turned : Nat}
    (hm : Threads.micro s.log s.kernel s.turned (s.pc t) = some (l, k, turned, pc)) :
    Sound ⟨l, k, Function.update s.pc t pc, turned⟩ := by
  have hok := h.locals t
  have hout : ∀ {pc}, s.pc t = pc → pc.inside = false → (s.pc t).inside = false :=
    fun ht hpc => by rw [ht, hpc]
  have hmove : ∀ {pc}, (s.pc t).inside = false → pc.inside = false → PcOk s pc →
      Sound ⟨s.log, s.kernel, Function.update s.pc t pc, s.turned⟩ :=
    fun hold hnew hself => h.keep_outside ⟨rfl, rfl, rfl, rfl, rfl⟩ rfl rfl hold hnew hself
  cases hp : s.pc t with
  | rotate c site r =>
    rw [hp] at hm
    exact h.rotStep hp hm
  | idle last =>
    rw [hp] at hm
    cases hm
    exact hmove (hout hp rfl) rfl trivial
  | checkPos c =>
    rw [hp] at hm
    cases hm
    exact hmove (hout hp rfl) rfl trivial
  | checkFd c pos =>
    rw [hp] at hm
    simp only [Threads.micro] at hm
    split at hm
    · cases hm
      exact hmove (hout hp rfl) rfl trivial
    · cases hm
      exact hmove (hout hp rfl)
        (afterCheck_cases (P := fun pc => pc.inside = false) s.log rfl rfl)
        (afterCheck_cases s.log trivial trivial)
  | limitPos c =>
    rw [hp] at hm
    cases hm
    exact hmove (hout hp rfl) rfl trivial
  | limitField c pos =>
    rw [hp] at hm
    simp only [Threads.micro] at hm
    split at hm
    all_goals
      cases hm
      exact hmove (hout hp rfl) rfl trivial
  | writePos c =>
    rw [hp] at hm
    cases hm
    refine hmove (hout hp rfl) rfl
      ⟨le_rfl, fun _ => rfl, fun hturned => ⟨fun d hd => ?_, fun d hd hfd => ?_⟩⟩
    · exact (h.current hturned d hd).mp
    · exact ((h.current hturned d hd).mpr hfd).ge
  | writeFd c pos seen =>
    rw [hp] at hm hok
    cases hm
    exact hmove (hout hp rfl) rfl ⟨hok.le, hok.targets⟩
  | write c fd seen =>
    rw [hp] at hm
    obtain ⟨htable, hopened⟩ := Kernel.write_table (k := s.kernel) fd (lineOf c.toCall) c.written
    simp only [Threads.micro] at hm
    split at hm
    all_goals
      cases hm
      exact h.keep_outside ⟨rfl, rfl, htable, hopened, rfl⟩ rfl rfl (hout hp rfl) rfl trivial
  | addPos c ret =>
    rw [hp] at hm
    cases hm
    exact hmove (hout hp rfl) rfl trivial
  | addSize c ret pos =>
    rw [hp] at hm
    cases hm
    exact h.keep_outside ⟨rfl, rfl, rfl, rfl, rfl⟩ rfl rfl (hout hp rfl) rfl trivial

/-- **どの thread のどの一歩も、ログの不変量を保つ。** -/
theorem Sound.step {a : Act τ} (h : Sound s) (hs : Threads.step s a = some s') : Sound s' := by
  obtain ⟨t, c, rfl, hi, rfl⟩ | ⟨t, l, k, turned, pc, rfl, -, hm, rfl⟩ := step_cases hs
  · have hold : (s.pc t).inside = false := by
      cases hp : s.pc t with
      | idle last => rfl
      | _ => simp [hp, Pc.isIdle] at hi
    refine h.keep_outside ⟨rfl, rfl, rfl, rfl, rfl⟩ rfl rfl hold ?_ ?_
    · unfold entry
      split <;> rfl
    · unfold entry
      split <;> trivial
  · exact h.micro hm

/-! ## run -/

omit [DecidableEq τ] in
/-- 同時に開いている descriptor は高々二つである。 -/
theorem Sound.length_le (h : Sound s) : s.kernel.table.length ≤ 2 := by
  have hpair : ∃ a b : Int, ∀ d ∈ s.kernel.table, (d.fd : Int) = a ∨ (d.fd : Int) = b := by
    by_cases hnone : ∀ u, (s.pc u).reserved = none
    · refine ⟨s.log.fd 0, s.log.fd 1, fun d hd => ?_⟩
      obtain ⟨i, hi⟩ := h.held hnone d hd
      have hi01 : i = 0 ∨ i = 1 := by omega
      rcases hi01 with rfl | rfl
      · exact .inl hi.symm
      · exact .inr hi.symm
    · obtain ⟨t, ht⟩ := not_forall.mp hnone
      have hok := h.locals t
      cases hp : s.pc t with
      | rotate c site r =>
        cases r with
        | storeFd next fd =>
          rw [hp] at hok
          exact ⟨_, _, hok.2.1⟩
        | _ => exact absurd (by rw [hp]; rfl) ht
      | _ => exact absurd (by rw [hp]; rfl) ht
  obtain ⟨a, b, hab⟩ := hpair
  have hnodup : (s.kernel.table.map fun d => (d.fd : Int)).Nodup := by
    have hmap := h.nodup.map (f := fun n : Nat => (n : Int)) fun _ _ hxy => by simpa using hxy
    rwa [List.map_map] at hmap
  have hsub : s.kernel.table.map (fun d => (d.fd : Int)) ⊆ [a, b] := by
    intro x hx
    obtain ⟨d, hd, rfl⟩ := List.mem_map.mp hx
    simpa using hab d hd
  have hle := (List.subperm_of_subset hnodup hsub).length_le
  rwa [List.length_map] at hle

omit [DecidableEq τ] in
/-- descriptor が表から消えるのは、`new_file` が閉じるときだけである。 -/
theorem closing_of_gone {l : FdLog} {k : Kernel} {turned : Nat}
    (hm : Threads.micro s.log s.kernel s.turned (s.pc t) = some (l, k, turned, pc)) {d : Desc}
    (hd : d ∈ s.kernel.table) (hgone : d ∉ k.table) :
    ∃ c site next fd, s.pc t = .rotate c site (.close next fd) ∧ k = s.kernel.close fd := by
  have hkeep : k.table = s.kernel.table → False := fun heq => hgone (heq ▸ hd)
  cases hp : s.pc t with
  | rotate c site r =>
    rw [hp] at hm
    cases r with
    | close next fd =>
      cases hm
      exact ⟨c, site, next, fd, rfl, rfl⟩
    | openCall next filename =>
      obtain ⟨⟨fd, k'⟩, hopen, hr⟩ := Option.map_eq_some_iff.mp hm
      cases hr
      obtain ⟨-, rfl⟩ | ⟨n, -, -, htable, -⟩ := Kernel.open'_cases hopen
      · exact absurd hd hgone
      · exact absurd (htable ▸ List.mem_cons_of_mem _ hd) hgone
    | cas | loadFd next | storeFd next fd =>
      simp only [Threads.micro, Threads.rotStep] at hm
      split at hm
      all_goals
        cases hm
        exact absurd hd hgone
    | index next =>
      simp only [Threads.micro, Threads.rotStep] at hm
      split at hm
      · cases hm
        exact absurd hd hgone
      · obtain ⟨-, hr⟩ := Option.ite_none_left_eq_some.mp hm
        cases hr
        exact absurd hd hgone
      · cases hm
        exact absurd hd hgone
    | _ =>
      cases hm
      exact absurd hd hgone
  | write c fd seen =>
    rw [hp] at hm
    have htable := (Kernel.write_table (k := s.kernel) fd (lineOf c.toCall) c.written).1
    simp only [Threads.micro] at hm
    split at hm
    all_goals
      cases hm
      exact (hkeep htable).elim
  | checkFd c pos =>
    rw [hp] at hm
    simp only [Threads.micro] at hm
    split at hm
    all_goals
      cases hm
      exact absurd hd hgone
  | limitField c pos =>
    rw [hp] at hm
    simp only [Threads.micro] at hm
    split at hm
    all_goals
      cases hm
      exact absurd hd hgone
  | _ =>
    rw [hp] at hm
    cases hm
    exact absurd hd hgone

/-- 一歩で閉じるのは、今の file より前の file である。 -/
theorem Sound.closes_older {a : Act τ} (h : Sound s) (hs : Threads.step s a = some s') {d : Desc}
    (hd : d ∈ s.kernel.table) (hgone : d ∉ s'.kernel.table) : d.serial < s.turned := by
  obtain ⟨t, c, rfl, hi, rfl⟩ | ⟨t, l, k, turned, pc, rfl, -, hm, rfl⟩ := step_cases hs
  · exact absurd hd hgone
  · obtain ⟨c, site, next, fd, ht, rfl⟩ := closing_of_gone hm hd hgone
    obtain ⟨rfl, hfd⟩ : next = s.log.next ∧ s.log.fd next = fd := by
      have hok := h.locals t
      rwa [ht] at hok
    have hin : (s.pc t).inside = true := by rw [ht]; rfl
    have hbound := h.numbered.bound d hd
    have hopened := h.opened_eq hin (by rw [ht]; rfl)
    have hne : d.serial ≠ s.turned := fun hserial => by
      refine hgone (mem_close.mpr ⟨hd, hfd ▸ (h.cur_fd (by omega) hd hserial).2⟩)
    omega

/--
**どの thread がいつ file を替えても、今の file は開いたままである。**

一つの thread で準備したログを、いくつもの thread がどの順に使っても、`new_file` を進めているのは高々一つの
thread で、開いている descriptor は高々二つである。一度でも `open` が成功していれば、今の slot は最後に
`m_pos` を進めた file の descriptor を持ち、それは開いている。閉じられるのは、次の file が今の file に
なった後だけである。`m_pos` を読んで選んだ file が開いている限り、`write` はその file に届き、閉じた後でも、
選んだ file より前の file に届くことはない。
-/
theorem current_file_survives (files : Bytes → Option Bytes) {as : List Descriptors.Act} {w : World}
    (hw : run Descriptors.step (World.new files) as = some w) {bs : List (Act τ)}
    (hs : run Threads.step (start w) bs = some s) :
    (∀ t u, (s.pc t).inside = true → (s.pc u).inside = true → t = u) ∧
    s.kernel.table.length ≤ 2 ∧
    (0 < s.turned → ∃ d ∈ s.kernel.table, d.serial = s.turned ∧ (d.fd : Int) = s.log.cur) ∧
    (∀ a s', Threads.step s a = some s' → ∀ d ∈ s.kernel.table, d ∉ s'.kernel.table →
      d.serial < s.turned) ∧
    ∀ t c fd seen, s.pc t = .write c fd seen → 0 < seen → seen ≤ s.turned ∧
      (∀ d ∈ s.kernel.table, d.serial = seen → s.kernel.find fd = some d) ∧
      ∀ d, s.kernel.find fd = some d → seen ≤ d.serial := by
  have h : Sound s := run_invariant (fun _ _ _ _ hstep hI => Sound.step hI hstep)
    (Along.trivial _ bs) hs (sound_start hw)
  refine ⟨fun t u => h.lock.unique, h.length_le, fun hturned => ?_,
    fun a s' hstep d hd hgone => h.closes_older hstep hd hgone, fun t c fd seen ht hseen => ?_⟩
  · obtain ⟨d, hd, hserial⟩ := h.live hturned
    exact ⟨d, hd, hserial, (h.current hturned d hd).mp hserial⟩
  · have hok : Aimed s fd seen := by
      have hlocal := h.locals t
      rwa [ht] at hlocal
    refine ⟨hok.le, fun d hd hserial => ?_, fun d hd => ?_⟩
    · exact find_eq_of_nodup h.nodup hd ((hok.targets hseen).1 d hd hserial)
    · obtain ⟨hmem, hfd⟩ := mem_of_find hd
      exact (hok.targets hseen).2 d hmem hfd

/-- `hour` 時に書く一行。file を替えるなら番号 `fd` を開く。 -/
def lineAt (hour fd : Nat) : Call :=
  ⟨.info, [], ⟨0, 0, 0, hour, 0, 0⟩, ⟨⟨0, 0, 0, hour, 0, 0⟩, some fd⟩,
    ⟨⟨0, 0, 0, hour, 0, 0⟩, some fd⟩, 1⟩

/-- 1 時間ごとに替えるログを、番号 3 で開く。 -/
def hourly : List Descriptors.Act :=
  [.setLogOutByTime 1, .init [47] [97] ⟨⟨0, 0, 0, 0, 0, 0⟩, some 3⟩]

/-- thread 0 が番号 3 を読んだところで、thread 1 が番号 4 の file に替える。 -/
def overtaking : List (Act Nat) :=
  .prt 0 (lineAt 0 4) :: List.replicate 6 (.advance 0) ++
    .prt 1 (lineAt 1 4) :: List.replicate 14 (.advance 1)

theorem current_file_survives_overtaking :
    ∃ w s, run Descriptors.step (World.new fun _ => none) hourly = some w ∧
      run Threads.step (start w) overtaking = some s ∧
      s.turned = 2 ∧ s.pc 0 = .write (lineAt 0 4) 3 1 ∧
      ∃ d ∈ s.kernel.table, d.serial = 1 ∧ s.kernel.find 3 = some d := by
  obtain ⟨w, s, hw, hs, hturned, hpc, d, hd, hserial⟩ :
      ∃ w s, run Descriptors.step (World.new fun _ => none) hourly = some w ∧
        run Threads.step (start w) overtaking = some s ∧
        s.turned = 2 ∧ s.pc 0 = .write (lineAt 0 4) 3 1 ∧ ∃ d ∈ s.kernel.table, d.serial = 1 :=
    ⟨_, _, rfl, rfl, rfl, rfl, _, List.mem_cons_of_mem _ List.mem_cons_self, rfl⟩
  have hwrites := (current_file_survives (fun _ => none) hw hs).2.2.2.2 0 _ 3 1 hpc (by decide)
  exact ⟨w, s, hw, hs, hturned, hpc, d, hd, hserial, hwrites.2.1 d hd hserial⟩

end Threads

end RecordServer.Log.Descriptors
