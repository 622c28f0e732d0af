import RecordServer.Datas.Operations
import Mathlib.Data.Int.Basic

/-!
# timer（`pure_timer.cpp`・`pure_timer_event.cpp`）

`CPure_timer` は、期限を `key` に持つ赤黒木である。節 `m_ev_node` は `CBase_timer_event` に
埋め込まれているので、event はその節の番地で指す。

* `PureTimer` — 木と、event ごとの `m_is_inrbtree`・`m_ptt`
* `pureAddTimer` / `pureDeleteTimer` / `pureFindTimer` — 木への操作
* `turn` — `pure_timer_process` の loop の一回分。handler を呼ぶところまで
* `Call` / `exec` — handler や呼ぶ側が行う操作
* `Holds` — 木・旗・埋め込まれた節の一致
-/

namespace RecordServer.Timer

open Infra Datas

/-- `memset` で 0 にした `rb_node`。`BLACK` は 0 である。 -/
def zeroNode : RbNode := ⟨0, 0, 0, .black, 0, 0⟩

structure PureTimer where
  prbt : PureRbtree
  /-- `m_is_inrbtree`。 -/
  inrbtree : Ptr → Bool
  /-- `m_ptt` がこの timer を指している。 -/
  ptt : Ptr → Bool
  nodeValue : Key

namespace PureTimer

/-- `CBase_timer_event` の構築子。 -/
def construct (t : PureTimer) (ev : Ptr) : PureTimer :=
  { t with
    prbt := t.prbt.modify ev fun _ => zeroNode
    inrbtree := Function.update t.inrbtree ev false
    ptt := Function.update t.ptt ev false }

/-- `SUCCESS` なら `true` を返す。 -/
def addToTimer (t : PureTimer) (timer : Key) (ev : Ptr) : Bool × PureTimer :=
  if t.inrbtree ev = false then
    (true,
      { t with
        prbt := t.prbt.modify ev fun n => { n with key := timer, data := ev }
        inrbtree := Function.update t.inrbtree ev true
        ptt := Function.update t.ptt ev true })
  else (false, t)

def removeTimer (t : PureTimer) (ev : Ptr) : Bool × PureTimer :=
  if t.inrbtree ev = true then
    (true, { t with inrbtree := Function.update t.inrbtree ev false })
  else (false, t)

/-- 時計の値 `clock` を読む。`assert` が破れたら、燃料によらず `none`。 -/
def pureAddTimer (fuel : Nat) (t : PureTimer) (timer clock : Key) (ev : Ptr) : Option PureTimer :=
  match t.addToTimer (timer + clock) ev with
  | (true, t) =>
    if t.prbt.lson ev = 0 ∧ t.prbt.rson ev = 0 then
      (t.prbt.rbInsert fuel ev).map fun s => { t with prbt := s }
    else none
  | (false, t) => some t

def pureDeleteTimer (fuel : Nat) (t : PureTimer) (ev : Ptr) : Option PureTimer :=
  match t.removeTimer ev with
  | (true, t) =>
    (t.prbt.rbDelete fuel ev).map fun s => { t with prbt := s.modify ev fun _ => zeroNode }
  | (false, t) => some t

/-- `CBase_timer_event` の解体子。 -/
def destroy (fuel : Nat) (t : PureTimer) (ev : Ptr) : Option PureTimer :=
  if t.inrbtree ev = true then
    if t.ptt ev = true then t.pureDeleteTimer fuel ev else some t
  else some t

/-- 時計の値 `curTime` を読む。 -/
def pureFindTimer (fuel : Nat) (t : PureTimer) (curTime : Key) : Option (Key × PureTimer) :=
  (t.prbt.treeMinimumKey fuel).map fun min =>
    (if min.1 > curTime then min.1 - curTime else 0, { t with nodeValue := min.1 })

/-- `ul64` の値を `s32` に縮める。 -/
def s32 (n : Key) : Int := Int.bmod n.val (2 ^ 32)

/--
`pure_timer_process` の loop の一回分。

期限の来た event を木から外したところまで進み、その `handle_expire_timer_ex` に入るならその event を、
`-1` を返して終わるなら `none` を返す。
-/
def turn (fuel : Nat) (t : PureTimer) (now : Key) : Option (Option Ptr × PureTimer) :=
  (t.prbt.treeMinimumNode fuel).bind fun node =>
    let ev := t.prbt.data node
    if node = t.prbt.nil then some (none, t)
    else if s32 (t.prbt.key node - now) ≤ 0 then
      (t.pureDeleteTimer fuel ev).map fun t => (some ev, t)
    else some (none, t)

end PureTimer

/-! ## event への操作 -/

/-- 呼ぶ側や handler の行う操作。`clock` はそのとき読む時計の値である。 -/
inductive Call where
  | construct (ev : Ptr)
  | destroy (ev : Ptr)
  | add (timer clock : Key) (ev : Ptr)
  | delete (ev : Ptr)
deriving DecidableEq, Repr

/-- timer と、いま在る event。`given` は、最後に木に加えたときに渡された期限の控えである。 -/
structure World where
  timer : PureTimer
  alive : Ptr → Bool
  given : Ptr → Nat

/-- event のまだ無い、作りたての timer。 -/
def World.init (heap : Ptr → RbNode) (nil : Ptr) : World where
  timer := ⟨.init heap nil, fun _ => false, fun _ => false, 0⟩
  alive _ := false
  given _ := 0

/-- event の object の寿命。番兵は木が持つ object なので、event の節ではない。 -/
def Allowed (w : World) : Call → Prop
  | .construct ev => w.alive ev = false ∧ ev ≠ w.timer.prbt.nil
  | .destroy ev => w.alive ev = true
  | .add _ _ ev => w.alive ev = true
  | .delete ev => w.alive ev = true

def exec (fuel : Nat) (w : World) : Call → Option World
  | .construct ev =>
    some { w with timer := w.timer.construct ev, alive := Function.update w.alive ev true }
  | .destroy ev =>
    (w.timer.destroy fuel ev).map fun t =>
      { w with timer := t, alive := Function.update w.alive ev false }
  | .add timer clock ev =>
    (w.timer.pureAddTimer fuel timer clock ev).map fun t =>
      { w with
        timer := t
        given :=
          if w.timer.inrbtree ev = false then
            Function.update w.given ev (timer.val + clock.val)
          else w.given }
  | .delete ev => (w.timer.pureDeleteTimer fuel ev).map fun t => { w with timer := t }

/-- loop の一回分を進める。 -/
def World.turn (fuel : Nat) (w : World) (now : Key) : Option (Option Ptr × World) :=
  (w.timer.turn fuel now).map fun r => (r.1, { w with timer := r.2 })

/-! ## 木・旗・節の一致 -/

/-- 木 `rb` を軸にした、三か所の記録の一致。 -/
structure Holds (w : World) (rb : RBTree Entry) : Prop where
  valid : Valid w.timer.prbt rb
  /-- 在る event の節は番兵ではない。 -/
  apart : ∀ p, w.alive p = true → p ≠ w.timer.prbt.nil
  /-- 木の節は在る event のもので、`data` はその event を、`m_ptt` はこの timer を指す。 -/
  own : ∀ e ∈ rb.toList, w.alive e.ptr = true ∧ e.data = e.ptr ∧ w.timer.ptt e.ptr = true
  flag : ∀ p, w.alive p = true → (w.timer.inrbtree p = true ↔ p ∈ ptrs rb.toList)
  /-- 木の外の event の節は 0 である。 -/
  blank : ∀ p, w.alive p = true → p ∉ ptrs rb.toList → w.timer.prbt.heap p = zeroNode
  /-- 木の節の `key` は、最後に加えたときの期限である。 -/
  due : ∀ e ∈ rb.toList, e.key.val = w.given e.ptr % 2 ^ 64

theorem Holds.init (heap : Ptr → RbNode) (nil : Ptr) : Holds (.init heap nil) .leaf where
  valid := .init heap nil
  apart p hp := by simp [World.init] at hp
  own := by simp
  flag p hp := by simp [World.init] at hp
  blank p hp := by simp [World.init] at hp
  due := by simp

variable {w : World} {rb : RBTree Entry}

theorem Holds.nodup (h : Holds w rb) : (ptrs rb.toList).Nodup :=
  (List.nodup_cons.mp h.valid.shows.nodup).2

theorem Holds.mem_tree (h : Holds w rb) {p : Ptr} (ha : w.alive p = true)
    (hf : w.timer.inrbtree p = true) : ∃ e ∈ rb.toList, e.ptr = p :=
  List.mem_map.mp ((h.flag p ha).mp hf)

/-- 在らない番地の節は木の中にない。 -/
theorem Holds.not_mem_of_dead (h : Holds w rb) {p : Ptr} (ha : w.alive p = false) :
    p ∉ ptrs rb.toList := by
  intro hp
  obtain ⟨e, he, rfl⟩ := List.mem_map.mp hp
  simp [(h.own e he).1] at ha

/-! ### 構築 -/

theorem Holds.construct (h : Holds w rb) {ev : Ptr} (ha : Allowed w (.construct ev)) :
    Holds { w with timer := w.timer.construct ev, alive := Function.update w.alive ev true } rb := by
  obtain ⟨hdead, hnil⟩ := ha
  have hnot := h.not_mem_of_dead hdead
  have hne : ∀ e ∈ rb.toList, e.ptr ≠ ev := by
    rintro e he rfl
    exact hnot (List.mem_map.mpr ⟨e, he, rfl⟩)
  constructor
  · exact h.valid.modify (fun _ => zeroNode) hnot hnil
  · intro p hp
    by_cases heq : p = ev
    · subst heq
      exact hnil
    · exact h.apart p (by simpa [heq] using hp)
  · intro e he
    have hown := h.own e he
    simpa [PureTimer.construct, hne e he] using hown
  · intro p hp
    by_cases heq : p = ev
    · subst heq
      simp [PureTimer.construct, hnot]
    · simpa [PureTimer.construct, heq] using h.flag p (by simpa [heq] using hp)
  · intro p hp hout
    by_cases heq : p = ev
    · simp [PureTimer.construct, heq]
    · simpa [PureTimer.construct, heq] using h.blank p (by simpa [heq] using hp) hout
  · exact h.due

/-! ### `pure_add_timer` -/

/-- 木の中にある event を加えても、何も起きない。 -/
theorem pureAddTimer_present {t : PureTimer} {ev : Ptr} (hf : t.inrbtree ev = true) (fuel : Nat)
    (timer clock : Key) : t.pureAddTimer fuel timer clock ev = some t := by
  simp [PureTimer.pureAddTimer, PureTimer.addToTimer, hf]

/-- 木の外の event を加えると、`assert` は通り、その節だけが木に加わる。 -/
theorem Holds.pureAddTimer_absent (h : Holds w rb) {ev : Ptr} (ha : w.alive ev = true)
    (hf : w.timer.inrbtree ev = false) (timer clock : Key) :
    ∃ t rb', Converges (fun fuel => w.timer.pureAddTimer fuel timer clock ev) t ∧
      Holds { w with timer := t, given := Function.update w.given ev (timer.val + clock.val) } rb' ∧
      ∀ e, e ∈ rb'.toList ↔ e = ⟨ev, timer + clock, ev⟩ ∨ e ∈ rb.toList := by
  have hnot : ev ∉ ptrs rb.toList := fun hp => by simp [(h.flag ev ha).mpr hp] at hf
  have hnil := h.apart ev ha
  have hzero := h.blank ev ha hnot
  have h₁ := h.valid.modify (fun n => { n with key := timer + clock, data := ev }) hnot hnil
  obtain ⟨s, rb', before, after, hrun, hvalid, hold, hnew, hoff⟩ := rbInsert_spec h₁ hnot hnil
  have hmem : ∀ e, e ∈ rb'.toList ↔ e = ⟨ev, timer + clock, ev⟩ ∨ e ∈ rb.toList := by
    intro e
    rw [hnew, hold]
    simp only [PureRbtree.entry, PureRbtree.key, PureRbtree.data, PureRbtree.modify_heap, if_true,
      List.mem_append, List.mem_cons]
    tauto
  have hptr : ∀ p, p ∈ ptrs rb'.toList ↔ p = ev ∨ p ∈ ptrs rb.toList := by
    intro p
    simp only [ptrs, List.mem_map, hmem]
    constructor
    · rintro ⟨e, rfl | he, rfl⟩
      · exact .inl rfl
      · exact .inr ⟨e, he, rfl⟩
    · rintro (rfl | ⟨e, he, rfl⟩)
      · exact ⟨_, .inl rfl, rfl⟩
      · exact ⟨e, .inr he, rfl⟩
  refine ⟨⟨s, Function.update w.timer.inrbtree ev true, Function.update w.timer.ptt ev true,
    w.timer.nodeValue⟩, rb', ?_, ?_, hmem⟩
  · refine (hrun.map fun s => PureTimer.mk s _ _ _).congr fun fuel => ?_
    simp [PureTimer.pureAddTimer, PureTimer.addToTimer, hf, PureRbtree.lson, PureRbtree.rson, hzero,
      zeroNode]
  · constructor
    · exact hvalid
    · intro p hp
      show p ≠ s.nil
      rw [hoff.1]
      exact h.apart p hp
    · intro e he
      rcases (hmem e).mp he with rfl | he
      · exact ⟨ha, rfl, by simp⟩
      · obtain ⟨hal, hdata, hptt⟩ := h.own e he
        refine ⟨hal, hdata, ?_⟩
        by_cases heq : e.ptr = ev
        · simp [heq]
        · simpa [heq] using hptt
    · intro p hp
      by_cases heq : p = ev
      · simp [heq, hptr]
      · simpa [heq, hptr] using h.flag p hp
    · intro p hp hout
      rw [hptr, not_or] at hout
      show s.heap p = _
      rw [hoff.2 p (by rw [hptr, not_or]; exact hout)]
      simpa [hout.1] using h.blank p hp hout.2
    · intro e he
      rcases (hmem e).mp he with rfl | he
      · simp [Fin.val_add]
      · have hne : e.ptr ≠ ev := by
          rintro rfl
          exact hnot (List.mem_map.mpr ⟨e, he, rfl⟩)
        simpa [hne] using h.due e he

/-! ### `pure_delete_timer` -/

/-- 木の外の event を消しても、何も起きない。 -/
theorem pureDeleteTimer_absent {t : PureTimer} {ev : Ptr} (hf : t.inrbtree ev = false)
    (fuel : Nat) : t.pureDeleteTimer fuel ev = some t := by
  simp [PureTimer.pureDeleteTimer, PureTimer.removeTimer, hf]

/-- 木の中の event を消すと、その節だけが木から外れて 0 に戻る。 -/
theorem Holds.pureDeleteTimer_present (h : Holds w rb) {e : Entry} (he : e ∈ rb.toList) :
    ∃ t rb', Converges (fun fuel => w.timer.pureDeleteTimer fuel e.ptr) t ∧
      Holds { w with timer := t } rb' ∧ t.inrbtree e.ptr = false ∧
      ∀ x, x ∈ rb'.toList ↔ x ∈ rb.toList ∧ x.ptr ≠ e.ptr := by
  obtain ⟨hal, hdata, hptt⟩ := h.own e he
  have hf : w.timer.inrbtree e.ptr = true := (h.flag _ hal).mpr (List.mem_map.mpr ⟨e, he, rfl⟩)
  have hnil := h.apart e.ptr hal
  obtain ⟨s, rb', before, after, hrun, hvalid, hold, hnew, hoff⟩ := rbDelete_spec h.valid he
  have hnd : (e.ptr :: ptrs (before ++ after)).Nodup := by
    have hperm : (ptrs (before ++ e :: after)).Perm (e.ptr :: ptrs (before ++ after)) :=
      List.perm_middle.map Entry.ptr
    rw [← hperm.nodup_iff, ← hold]
    exact h.nodup
  have hnot : e.ptr ∉ ptrs rb'.toList := hnew ▸ (List.nodup_cons.mp hnd).1
  have hmem : ∀ x, x ∈ rb'.toList ↔ x ∈ rb.toList ∧ x.ptr ≠ e.ptr := by
    intro x
    constructor
    · intro hx
      have hne : x.ptr ≠ e.ptr := by
        intro heq
        exact hnot (heq ▸ List.mem_map.mpr ⟨x, hx, rfl⟩)
      refine ⟨?_, hne⟩
      rw [hnew, List.mem_append] at hx
      rw [hold, List.mem_append, List.mem_cons]
      tauto
    · rintro ⟨hx, hne⟩
      rw [hold, List.mem_append, List.mem_cons] at hx
      rw [hnew, List.mem_append]
      rcases hx with hx | rfl | hx
      · exact .inl hx
      · exact absurd rfl hne
      · exact .inr hx
  have hptr : ∀ p, p ∈ ptrs rb'.toList ↔ p ∈ ptrs rb.toList ∧ p ≠ e.ptr := by
    intro p
    simp only [ptrs, List.mem_map, hmem]
    constructor
    · rintro ⟨x, ⟨hx, hne⟩, rfl⟩
      exact ⟨⟨x, hx, rfl⟩, hne⟩
    · rintro ⟨⟨x, hx, rfl⟩, hne⟩
      exact ⟨x, ⟨hx, hne⟩, rfl⟩
  refine ⟨⟨s.modify e.ptr fun _ => zeroNode, Function.update w.timer.inrbtree e.ptr false,
    w.timer.ptt, w.timer.nodeValue⟩, rb', ?_, ?_, ?_, hmem⟩
  · refine (hrun.map fun s => PureTimer.mk (s.modify e.ptr fun _ => zeroNode) _ _ _).congr
      fun fuel => ?_
    simp [PureTimer.pureDeleteTimer, PureTimer.removeTimer, hf]
  · constructor
    · exact hvalid.modify (fun _ => zeroNode) hnot (hoff.1 ▸ hnil)
    · intro p hp
      show p ≠ s.nil
      rw [hoff.1]
      exact h.apart p hp
    · exact fun x hx => h.own x ((hmem x).mp hx).1
    · intro p hp
      by_cases heq : p = e.ptr
      · simp [heq, hptr]
      · simpa [heq, hptr] using h.flag p hp
    · intro p hp hout
      by_cases heq : p = e.ptr
      · simp [heq]
      · have hout' : p ∉ ptrs rb.toList := fun hin => hout ((hptr p).mpr ⟨hin, heq⟩)
        simpa [heq] using (hoff.2 p (h.apart p hp) hout').trans (h.blank p hp hout')
    · exact fun x hx => h.due x ((hmem x).mp hx).1
  · simp

/-! ### 操作の列での効き方 -/

/-- 操作の後の木の節。 -/
def Effect (es es' : List Entry) : Call → Prop
  | .construct _ => ∀ x, x ∈ es' ↔ x ∈ es
  | .destroy ev => ∀ x, x ∈ es' ↔ x ∈ es ∧ x.ptr ≠ ev
  | .add timer clock ev =>
    ∀ x, x ∈ es' ↔ (x = ⟨ev, timer + clock, ev⟩ ∧ ev ∉ ptrs es) ∨ x ∈ es
  | .delete ev => ∀ x, x ∈ es' ↔ x ∈ es ∧ x.ptr ≠ ev

/-- 木の中にあってもなくても、`pure_delete_timer` の後には木の外にある。 -/
theorem Holds.pureDeleteTimer (h : Holds w rb) {ev : Ptr} (ha : w.alive ev = true) :
    ∃ t rb', Converges (fun fuel => w.timer.pureDeleteTimer fuel ev) t ∧
      Holds { w with timer := t } rb' ∧ t.inrbtree ev = false ∧
      ∀ x, x ∈ rb'.toList ↔ x ∈ rb.toList ∧ x.ptr ≠ ev := by
  cases hf : w.timer.inrbtree ev with
  | true =>
    obtain ⟨e, he, rfl⟩ := h.mem_tree ha hf
    exact h.pureDeleteTimer_present he
  | false =>
    refine ⟨w.timer, rb, (Converges.pure _).congr (pureDeleteTimer_absent hf), h, hf, fun x => ?_⟩
    refine ⟨fun hx => ⟨hx, ?_⟩, And.left⟩
    rintro rfl
    simp [(h.flag _ ha).mpr (List.mem_map.mpr ⟨x, hx, rfl⟩)] at hf

/-- 解体子は、event が木の中にあれば外す。 -/
theorem Holds.destroy (h : Holds w rb) {ev : Ptr} (ha : w.alive ev = true) :
    ∃ t rb', Converges (fun fuel => w.timer.destroy fuel ev) t ∧
      Holds { w with timer := t, alive := Function.update w.alive ev false } rb' ∧
      ∀ x, x ∈ rb'.toList ↔ x ∈ rb.toList ∧ x.ptr ≠ ev := by
  obtain ⟨t, rb', hrun, h', -, hmem⟩ := h.pureDeleteTimer ha
  refine ⟨t, rb', hrun.congr fun fuel => ?_, ?_, hmem⟩
  · unfold PureTimer.destroy
    cases hf : w.timer.inrbtree ev with
    | true =>
      obtain ⟨e, he, rfl⟩ := h.mem_tree ha hf
      simp [(h.own e he).2.2]
    | false => simp [pureDeleteTimer_absent hf]
  · have hsub : ∀ p, Function.update w.alive ev false p = true → w.alive p = true := by
      intro p hp
      by_cases heq : p = ev
      · simp [heq] at hp
      · simpa [heq] using hp
    constructor
    · exact h'.valid
    · exact fun p hp => h'.apart p (hsub p hp)
    · intro e he
      obtain ⟨hal, hown⟩ := h'.own e he
      refine ⟨?_, hown⟩
      simpa [((hmem e).mp he).2] using hal
    · exact fun p hp => h'.flag p (hsub p hp)
    · exact fun p hp => h'.blank p (hsub p hp)
    · exact h'.due

/-- **寿命の中で行う操作は必ず終わり、一致を保つ。** -/
theorem Holds.exec (h : Holds w rb) {c : Call} (ha : Allowed w c) :
    ∃ w' rb', Converges (fun fuel => exec fuel w c) w' ∧ Holds w' rb' ∧
      Effect rb.toList rb'.toList c := by
  cases c with
  | construct ev => exact ⟨_, rb, .pure _, h.construct ha, fun _ => Iff.rfl⟩
  | destroy ev =>
    obtain ⟨t, rb', hrun, h', hmem⟩ := h.destroy ha
    exact ⟨_, rb', hrun.map _, h', hmem⟩
  | add timer clock ev =>
    have hiff := h.flag ev ha
    cases hf : w.timer.inrbtree ev with
    | true =>
      rw [hf] at hiff
      refine ⟨w, rb, (Converges.pure w).congr fun fuel => ?_, h, fun x => ?_⟩
      · simp [Timer.exec, pureAddTimer_present hf, hf]
      · simp [hiff.mp rfl]
    | false =>
      obtain ⟨t, rb', hrun, h', hmem⟩ := h.pureAddTimer_absent ha hf timer clock
      refine ⟨_, rb', (hrun.map _).congr fun fuel => rfl, ?_, fun x => ?_⟩
      · simpa [hf] using h'
      · have hnot : ev ∉ ptrs rb.toList := fun hin => by simp [hiff.mpr hin] at hf
        simpa [hnot] using hmem x
  | delete ev =>
    obtain ⟨t, rb', hrun, h', -, hmem⟩ := h.pureDeleteTimer ha
    exact ⟨_, rb', hrun.map _, h', hmem⟩

/-! ### loop の一回分 -/

/-- 空の木では、loop は終わる。 -/
theorem Holds.turn_empty (h : Holds w .leaf) (now : Key) :
    Converges (fun fuel => w.turn fuel now) (none, w) := by
  have hroot : w.timer.prbt.root = w.timer.prbt.nil := h.valid.shows.root
  refine (Converges.pure (none, w)).congr fun fuel => ?_
  simp [World.turn, PureTimer.turn, PureRbtree.treeMinimumNode, hroot]

/-- 空でない木では、`key` の最も小さい event を、縮めた差で調べる。 -/
theorem Holds.turn (h : Holds w rb) (hne : rb ≠ .leaf) (now : Key) :
    ∃ e ∈ rb.toList, (∀ x ∈ rb.toList, e.key ≤ x.key) ∧
      Converges (fun fuel => w.timer.prbt.treeMinimumKey fuel) (e.key, some e.ptr) ∧
      (¬ PureTimer.s32 (e.key - now) ≤ 0 → Converges (fun fuel => w.turn fuel now) (none, w)) ∧
      (PureTimer.s32 (e.key - now) ≤ 0 → ∃ w' rb',
        Converges (fun fuel => w.turn fuel now) (some e.ptr, w') ∧ Holds w' rb' ∧
        w'.timer.inrbtree e.ptr = false ∧ w'.alive = w.alive ∧
        ∀ x, x ∈ rb'.toList ↔ x ∈ rb.toList ∧ x.ptr ≠ e.ptr) := by
  obtain ⟨e, he, hmin, hroot, hrun⟩ := minimum_spec h.valid hne
  obtain ⟨hnil, hkey, hdata⟩ := h.valid.cell he
  have hown := (h.own e he).2.1
  have hnode : Converges (fun fuel => w.timer.prbt.treeMinimumNode fuel) e.ptr := by
    refine hrun.congr fun fuel => ?_
    rw [PureRbtree.treeMinimumNode, if_neg hroot]
  have hmap := hrun.map fun min => (w.timer.prbt.key min, some (w.timer.prbt.data min))
  rw [hkey, hdata, hown] at hmap
  refine ⟨e, he, hmin, ?_, fun hlate => ?_, fun hdue => ?_⟩
  · refine hmap.congr fun fuel => ?_
    rw [PureRbtree.treeMinimumKey, if_neg hroot]
  · have hturn : Converges (fun fuel => w.timer.turn fuel now) (none, w.timer) := by
      refine hnode.bind (Converges.congr (.pure (none, w.timer)) fun fuel => ?_)
      simp [hnil, hkey, hlate]
    exact hturn.map _
  · obtain ⟨t, rb', hdel, h', hf, hmem⟩ := h.pureDeleteTimer_present he
    have hturn : Converges (fun fuel => w.timer.turn fuel now) (some e.ptr, t) := by
      refine hnode.bind ((hdel.map fun t => (some e.ptr, t)).congr fun fuel => ?_)
      simp [hnil, hkey, hdue, hdata, hown]
    exact ⟨_, rb', hturn.map _, h', hf, rfl, hmem⟩

end RecordServer.Timer
