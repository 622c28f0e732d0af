import RecordServer.Infra.DList
import Mathlib.Logic.Function.Basic
import Mathlib.Tactic.Ring

/-!
# I/O event の一覧

`CBase_circle` は処理を待つ event を、event 自身の `mp_prev`、`mp_next` で繋いだ一覧に持つ。
番地の型 `ε` は任意で、番地ごとの中身を `event` で与える。
`CIO_event` の定義は repository に無いので、一覧が読み書きする三つの field だけを置く。

* `addEvent`、`removeEvent` — 一覧の操作
* `Connect.connectClose` — 接続を閉じるとき、自分の二つの event を一覧から外す
* `WellFormed` — `mp_header` から辿れる event がちょうど `m_linked` の立った event である
-/

namespace RecordServer.Base

open Infra

/-- `CIO_event` の、一覧に関わる field。 -/
structure IoEvent (ε : Type*) where
  prev : Option ε
  next : Option ε
  linked : Bool
  deriving DecidableEq

/-- 作られたばかりの event。 -/
def IoEvent.init (ε : Type*) : IoEvent ε := ⟨none, none, false⟩

/-- `CBase_circle` の、event の一覧に関わる field。`next` は `m_next`。 -/
structure Circle (ε : Type*) where
  event : ε → IoEvent ε
  header : Option ε
  next : Option ε
  conns : Int

/-- `CBase_connect` の、閉じるときに読み書きする field。`m_rdev` と `m_wrev` は別の object である。 -/
structure Connect (ε : Type*) where
  rdev : ε
  wrev : ε
  distinct : rdev ≠ wrev
  closed : Bool

section Model

variable {ε : Type*} [DecidableEq ε]

namespace Circle

/-- 番地 `e` の event を書き換える。 -/
def modify (c : Circle ε) (e : ε) (f : IoEvent ε → IoEvent ε) : Circle ε :=
  { c with event := Function.update c.event e (f (c.event e)) }

/-- `event->mp_prev`、`event->mp_next` が指す先だけの書き換え。NULL なら何もしない。 -/
def modifyOpt (c : Circle ε) (e : Option ε) (f : IoEvent ε → IoEvent ε) : Circle ε :=
  match e with
  | none => c
  | some e => c.modify e f

/-- `CBase_circle::add_event`。 -/
def addEvent (c : Circle ε) (e : ε) : Circle ε :=
  match c.header with
  | none =>
    let c := { c with header := some e }
    c.modify e fun ev => { ev with linked := true }
  | some h =>
    let c := c.modify e fun ev => { ev with next := some h }
    let c := c.modify h fun ev => { ev with prev := some e }
    let c := { c with header := some e }
    c.modify e fun ev => { ev with linked := true }

/-- `CBase_circle::remove_event`。`m_linked` は見ない。 -/
def removeEvent (c : Circle ε) (e : ε) : Circle ε :=
  let c := if c.next = some e then { c with next := (c.event e).next } else c
  let c := match (c.event e).prev with
    | some p => c.modify p fun ev => { ev with next := (c.event e).next }
    | none => { c with header := (c.event e).next }
  let c := c.modifyOpt (c.event e).next fun ev => { ev with prev := (c.event e).prev }
  c.modify e fun _ => { prev := none, next := none, linked := false }

end Circle

/-- `CBase_connect::remove_event`。 -/
def Connect.removeEvent (con : Connect ε) (c : Circle ε) : Circle ε :=
  (c.removeEvent con.rdev).removeEvent con.wrev

/--
`CBase_connect::connect_close`。

timer と epoll の後始末は一覧に触れないので省く。`connectRemove` は派生 class の
`connect_remove` で、repository には実装が無い。
-/
def Connect.connectClose (connectRemove : Connect ε → Circle ε → Circle ε) (con : Connect ε)
    (c : Circle ε) : Connect ε × Circle ε :=
  let con := { con with closed := true }
  let c := con.removeEvent c
  let c := connectRemove con c
  (con, { c with conns := c.conns - 1 })

end Model

section WellFormed

variable {ε : Type*}

/-! ## 整った一覧 -/

/-- `l` が一覧で、載っている event だけが `m_linked` であり、他の event はどこも指さない。 -/
structure WellFormed (c : Circle ε) (l : List ε) : Prop where
  list : DList (fun e => (c.event e).prev) (fun e => (c.event e).next) c.header l
  linked : ∀ e, (c.event e).linked = true ↔ e ∈ l
  loose : ∀ e, e ∉ l → (c.event e).prev = none ∧ (c.event e).next = none

/-- 一覧は circle から一つに決まる。 -/
theorem WellFormed.unique {c : Circle ε} {l l' : List ε} (h : WellFormed c l)
    (h' : WellFormed c l') : l = l' := h.list.unique h'.list

/-- `mp_header` が NULL なら、整った一覧は空である。 -/
theorem WellFormed.eq_nil {c : Circle ε} {l : List ε} (h : WellFormed c l)
    (hh : c.header = none) : l = [] := by
  have hhead := h.list.head_eq
  rw [hh] at hhead
  exact List.head?_eq_none_iff.mp hhead.symm

/-- 一覧の途中の event の `mp_next` は、そこから先の残りの先頭である。 -/
theorem WellFormed.next_eq_head? {c : Circle ε} {done todo : List ε} {e : ε}
    (h : WellFormed c (done ++ e :: todo)) :
    (c.event e).next = todo.head? := by
  obtain ⟨p, hs⟩ := Seg.suffix h.list
  cases todo with
  | nil => exact hs.2.2
  | cons y ys => exact hs.2.2.1

/-- 一覧は `event` と `mp_header` だけで決まる。 -/
theorem WellFormed.congr {c c' : Circle ε} {l : List ε} (h : WellFormed c l)
    (hev : c'.event = c.event) (hh : c'.header = c.header) : WellFormed c' l := by
  obtain ⟨h1, h2, h3⟩ := h
  rw [← hev] at h1 h2 h3
  rw [← hh] at h1
  exact ⟨h1, h2, h3⟩

/-- 作られたばかりの circle の一覧は空である。 -/
theorem wellFormed_init (next : Option ε) (conns : Int) :
    WellFormed (⟨fun _ => IoEvent.init ε, none, next, conns⟩ : Circle ε) [] where
  list := rfl
  linked := by simp [IoEvent.init]
  loose := by simp [IoEvent.init]

end WellFormed

/-! ## 操作の spec -/

namespace Circle

variable {ε : Type*} [DecidableEq ε] {c : Circle ε} {e : ε} {l : List ε}

theorem modify_event (c : Circle ε) (e x : ε) (f : IoEvent ε → IoEvent ε) :
    (c.modify e f).event x = if x = e then f (c.event e) else c.event x := by
  simp [modify, Function.update_apply]

theorem modifyOpt_event (c : Circle ε) (e : Option ε) (x : ε) (f : IoEvent ε → IoEvent ε) :
    (c.modifyOpt e f).event x = if e = some x then f (c.event x) else c.event x := by
  cases e with
  | none => simp [modifyOpt]
  | some e =>
    simp only [modifyOpt, modify_event, Option.some.injEq]
    by_cases hx : x = e
    · simp [hx]
    · rw [if_neg hx, if_neg (Ne.symm hx)]

@[simp] theorem modify_header (c : Circle ε) (e : ε) (f : IoEvent ε → IoEvent ε) :
    (c.modify e f).header = c.header := rfl

@[simp] theorem modifyOpt_header (c : Circle ε) (e : Option ε) (f : IoEvent ε → IoEvent ε) :
    (c.modifyOpt e f).header = c.header := by cases e <;> rfl

theorem addEvent_header (c : Circle ε) (e : ε) : (c.addEvent e).header = some e := by
  unfold addEvent
  cases c.header <;> rfl

theorem addEvent_event (c : Circle ε) {e : ε} (he : c.header ≠ some e) (x : ε) :
    (c.addEvent e).event x =
      { prev := if c.header = some x then some e else (c.event x).prev
        next := if x = e then c.header.or (c.event e).next else (c.event x).next
        linked := if x = e then true else (c.event x).linked } := by
  unfold addEvent
  cases hh : c.header with
  | none =>
    by_cases hx : x = e
    · simp [modify_event, hx]
    · simp [modify_event, hx]
  | some h =>
    have hne : h ≠ e := fun hc => he (hh.trans (congrArg some hc))
    by_cases hx : x = e
    · subst hx
      simp [modify_event, hne, hne.symm]
    · by_cases hxh : x = h
      · simp [modify_event, hxh, hne]
      · simp [modify_event, hx, hxh, Ne.symm hxh]

/-- 載っていない event を足すと、一覧の先頭に載る。 -/
theorem wellFormed_addEvent (h : WellFormed c l) (he : e ∉ l) :
    WellFormed (c.addEvent e) (e :: l) := by
  have hhead : c.header ≠ some e := fun hc =>
    he (List.mem_of_mem_head? (h.list.head_eq.symm.trans hc))
  have hev := addEvent_event c hhead
  refine ⟨?_, ?_, ?_⟩
  · rw [addEvent_header]
    refine h.list.push ?_ ?_ ?_ ?_
    · intro x hx
      have hxe : x ≠ e := fun hc => he (hc ▸ hx)
      simp [hev, hxe]
    · simp [hev, (h.loose e he).2]
    · simp [hev, (h.loose e he).1, hhead]
    · intro x _
      simp [hev]
  · intro x
    by_cases hxe : x = e
    · simp [hev, hxe]
    · simp [hev, hxe, h.linked x]
  · intro x hx
    obtain ⟨hxe, hxl⟩ := not_or.mp (mt List.mem_cons.mpr hx)
    have hxh : c.header ≠ some x := fun hc =>
      hxl (List.mem_of_mem_head? (h.list.head_eq.symm.trans hc))
    simp [hev, hxe, hxh, h.loose x hxl]

/-- 先頭は、`mp_prev` が NULL なら `mp_next` に動く。 -/
theorem removeEvent_header (c : Circle ε) (e : ε) : (c.removeEvent e).header =
    if (c.event e).prev = none then (c.event e).next else c.header := by
  unfold removeEvent
  by_cases hn : c.next = some e
  · cases hp : (c.event e).prev <;> simp [hn, hp]
  · cases hp : (c.event e).prev <;> simp [hn, hp]

/-- 自分自身を指していない event を外すと、前後の event だけが繋ぎ替わる。 -/
theorem removeEvent_event (c : Circle ε) {e : ε} (hp : (c.event e).prev ≠ some e)
    (x : ε) : (c.removeEvent e).event x =
      if x = e then IoEvent.init ε else
        { prev := if (c.event e).next = some x then (c.event e).prev else (c.event x).prev
          next := if (c.event e).prev = some x then (c.event e).next else (c.event x).next
          linked := (c.event x).linked } := by
  unfold removeEvent
  by_cases hx : x = e
  · simp [hx, modify_event, IoEvent.init]
  -- `m_next` の付け替えは event を変えない
  generalize hc' : (if c.next = some e then { c with next := (c.event e).next } else c) = c'
  have hev : c'.event = c.event := by
    rw [← hc']
    split <;> rfl
  cases hpe : (c.event e).prev with
  | none =>
    by_cases hxn : (c.event e).next = some x
    · simp [hev, hpe, hx, modify_event, modifyOpt_event, hxn]
    · simp [hev, hpe, hx, modify_event, modifyOpt_event, hxn]
  | some p =>
    have hpe' : e ≠ p := fun hc => hp (hpe.trans (congrArg some hc.symm))
    by_cases hxp : x = p
    · subst hxp
      by_cases hxn : (c.event e).next = some x
      · simp [hev, hpe, hx, hpe', modify_event, modifyOpt_event, hxn]
      · simp [hev, hpe, hx, hpe', modify_event, modifyOpt_event, hxn]
    · by_cases hxn : (c.event e).next = some x
      · simp [hev, hpe, hx, hpe', hxp, Ne.symm hxp, modify_event, modifyOpt_event, hxn]
      · simp [hev, hpe, hx, hpe', hxp, Ne.symm hxp, modify_event, modifyOpt_event, hxn]

/-- 載っている event を外すと、一覧からその event だけが消える。 -/
theorem wellFormed_removeEvent (h : WellFormed c l) (he : e ∈ l) :
    WellFormed (c.removeEvent e) (l.erase e) := by
  have hnd := h.list.nodup
  have hev := removeEvent_event c (h.list.pre_ne_self he)
  refine ⟨?_, ?_, ?_⟩
  · refine h.list.remove he (removeEvent_header c e) ?_ ?_
    · intro x _ hx
      simp [hev, hx]
    · intro x _ hx
      simp [hev, hx]
  · intro x
    by_cases hx : x = e
    · simp [hev, hx, IoEvent.init, hnd.not_mem_erase]
    · simp [hev, hx, h.linked x, List.mem_erase_of_ne]
  · intro x hx
    by_cases hxe : x = e
    · simp [hev, hxe, IoEvent.init]
    · have hxl : x ∉ l := fun hc => hx ((List.mem_erase_of_ne hxe).mpr hc)
      have hnx : (c.event e).next ≠ some x := fun hc => hxl (h.list.next_mem he hc)
      have hpx : (c.event e).prev ≠ some x := fun hc => hxl (h.list.pre_mem he hc)
      simp [hev, hxe, hnx, hpx, h.loose x hxl]

/-- 載っていない event を外すと、event は変わらず `mp_header` だけが NULL になる。 -/
theorem removeEvent_of_loose (h : WellFormed c l) (he : e ∉ l) :
    (c.removeEvent e).event = c.event ∧ (c.removeEvent e).header = none := by
  obtain ⟨hp, hn⟩ := h.loose e he
  have hl : (c.event e).linked = false := by
    rw [Bool.eq_false_iff]
    exact fun hc => he ((h.linked e).mp hc)
  constructor
  · funext x
    rw [removeEvent_event c (by simp [hp])]
    by_cases hx : x = e
    · rw [if_pos hx, hx]
      cases hce : c.event e
      simp_all [IoEvent.init]
    · simp [hx, hp, hn]
  · simp [removeEvent_header, hp, hn]

end Circle

end RecordServer.Base
