import RecordServer.Base.BaseCircle
import RecordServer.Infra.Trace

/-!
# 接続を閉じると自分の event だけが外れるか

`connect_close` は `m_rdev` と `m_wrev` を、載っているかどうかを見ずに `remove_event` へ渡す。
`remove_event` は `mp_prev` が NULL なら先頭だと思って `mp_header` を `mp_next` に動かすので、
載っていない event を渡すと `mp_header` が NULL になり、残りの event はすべて一覧から失われる
（`Circle.removeEvent_of_loose`）。

* `reached_wellFormed` — 載っていない event を足し、載っている event を外す限り、一覧は整っている
* `connectClose_own_iff` — 自分の event だけが外れるのは、他の接続の event が載っていないか、
  `m_wrev` が載っていて、さらに `m_rdev` も載っているか `m_wrev` が先頭にあるときに限る
-/

namespace RecordServer.Base

open Infra

variable {ε : Type*} [DecidableEq ε]

/-! ## 一覧の run -/

/-- 一覧への操作。 -/
inductive ListOp (ε : Type*)
  | add (e : ε)
  | remove (e : ε)

/-- 載っていない event だけを足し、載っている event だけを外す。 -/
def listStep (c : Circle ε) : ListOp ε → Option (Circle ε)
  | .add e => if (c.event e).linked then none else some (c.addEvent e)
  | .remove e => if (c.event e).linked then some (c.removeEvent e) else none

theorem listStep_wellFormed {c c' : Circle ε} {op : ListOp ε} (hs : listStep c op = some c')
    (h : ∃ l, WellFormed c l) : ∃ l, WellFormed c' l := by
  obtain ⟨l, h⟩ := h
  cases op with
  | add e =>
    simp only [listStep] at hs
    split at hs
    · simp at hs
    · rename_i hl
      cases hs
      exact ⟨e :: l, Circle.wellFormed_addEvent h fun hc => hl ((h.linked e).mpr hc)⟩
  | remove e =>
    simp only [listStep] at hs
    split at hs
    · rename_i hl
      cases hs
      exact ⟨l.erase e, Circle.wellFormed_removeEvent h ((h.linked e).mp hl)⟩
    · simp at hs

/-- **作られたばかりの circle から操作を重ねた一覧は整っている。** -/
theorem reached_wellFormed {next : Option ε} {conns : Int} {ops : List (ListOp ε)} {c : Circle ε}
    (hrun : run listStep ⟨fun _ => IoEvent.init ε, none, next, conns⟩ ops = some c) :
    ∃ l, WellFormed c l := by
  refine run_invariant (P := fun _ _ => True) (fun _ _ _ _ hs => listStep_wellFormed hs)
    (Along.trivial _ _) hrun ?_
  exact ⟨[], wellFormed_init next conns⟩

/-! ## 閉じた後の一覧 -/

/-- 他の接続の event。 -/
def others (con : Connect ε) (l : List ε) : List ε :=
  l.filter fun e => e ≠ con.rdev ∧ e ≠ con.wrev

/-- 派生 class の `connect_remove` は event の一覧に触れない。 -/
def KeepsEvents (connectRemove : Connect ε → Circle ε → Circle ε) : Prop :=
  ∀ con c, (connectRemove con c).event = c.event ∧ (connectRemove con c).header = c.header

variable {con : Connect ε} {c : Circle ε} {l : List ε}

theorem erase_erase_eq_others (hnd : l.Nodup) :
    (l.erase con.rdev).erase con.wrev = others con l := by
  rw [(hnd.erase _).erase_eq_filter, hnd.erase_eq_filter, List.filter_filter]
  refine List.filter_congr fun x _ => ?_
  rw [Bool.eq_iff_iff]
  simp [and_comm]

/-- 二つとも載っていれば、二つだけが外れる。 -/
theorem removeEvent_both (h : WellFormed c l) (hr : con.rdev ∈ l) (hw : con.wrev ∈ l) :
    WellFormed (con.removeEvent c) (others con l) := by
  have h1 := Circle.wellFormed_removeEvent h hr
  have hw' : con.wrev ∈ l.erase con.rdev :=
    (List.mem_erase_of_ne con.distinct.symm).mpr hw
  have h2 := Circle.wellFormed_removeEvent h1 hw'
  rw [erase_erase_eq_others h.list.nodup] at h2
  exact h2

/-- `m_wrev` が載っていなければ、一覧は空になる。 -/
theorem removeEvent_header_of_wrev_loose (h : WellFormed c l) (hw : con.wrev ∉ l) :
    (con.removeEvent c).header = none := by
  unfold Connect.removeEvent
  by_cases hr : con.rdev ∈ l
  · have hw' : con.wrev ∉ l.erase con.rdev := fun hc => hw (List.mem_of_mem_erase hc)
    exact (Circle.removeEvent_of_loose (Circle.wellFormed_removeEvent h hr) hw').2
  · obtain ⟨hev, hh⟩ := Circle.removeEvent_of_loose h hr
    obtain ⟨hp, hn⟩ := h.loose _ hw
    rw [Circle.removeEvent_header, hev, hp, hn]
    rfl

/-- `m_rdev` だけが載っていないとき：先頭の `m_wrev` を外すと残りが戻る。 -/
theorem removeEvent_wrev_head (h : WellFormed c l) (hr : con.rdev ∉ l)
    (hw : c.header = some con.wrev) : WellFormed (con.removeEvent c) (others con l) := by
  have hwl : con.wrev ∈ l := List.mem_of_mem_head? (h.list.head_eq.symm.trans hw)
  obtain ⟨hev, _⟩ := Circle.removeEvent_of_loose h hr
  have hprev : (c.event con.wrev).prev = none := (h.list.pre_eq_none_iff hwl).mpr hw
  have h1 := Circle.wellFormed_removeEvent h hwl
  rw [← List.erase_of_not_mem hr, erase_erase_eq_others h.list.nodup] at h1
  unfold Connect.removeEvent
  refine h1.congr ?_ ?_
  · funext x
    rw [Circle.removeEvent_event (c.removeEvent con.rdev) (by simp [hev, hprev]),
      Circle.removeEvent_event c (e := con.wrev) (by simp [hprev]), hev]
  · rw [Circle.removeEvent_header (c.removeEvent con.rdev), Circle.removeEvent_header c con.wrev,
      hev, if_pos hprev, if_pos hprev]

/-- `m_rdev` だけが載っていないとき：`m_wrev` が先頭でなければ一覧は空になり、前の event を失う。 -/
theorem removeEvent_wrev_inner (h : WellFormed c l) (hr : con.rdev ∉ l) (hwl : con.wrev ∈ l)
    (hw : c.header ≠ some con.wrev) :
    (con.removeEvent c).header = none ∧ others con l ≠ [] := by
  obtain ⟨hev, hh⟩ := Circle.removeEvent_of_loose h hr
  have hprev : (c.event con.wrev).prev ≠ none := fun hc => hw ((h.list.pre_eq_none_iff hwl).mp hc)
  constructor
  · unfold Connect.removeEvent
    rw [Circle.removeEvent_header, hev, if_neg hprev, hh]
  · obtain ⟨p, hp⟩ := Option.ne_none_iff_exists'.mp hprev
    have hpl : p ∈ l := h.list.pre_mem hwl hp
    have hpw : p ≠ con.wrev := fun hc => h.list.pre_ne_self hwl (hp.trans (congrArg some hc))
    have hpr : p ≠ con.rdev := fun hc => hr (hc ▸ hpl)
    intro hnil
    have hmem : p ∈ others con l := List.mem_filter.mpr ⟨hpl, by simp [hpw, hpr]⟩
    rw [hnil] at hmem
    simp at hmem

/-- 空の一覧から外しても、一覧は空のままである。 -/
theorem wellFormed_removeEvent_nil (h : WellFormed c []) (e : ε) :
    WellFormed (c.removeEvent e) [] := by
  obtain ⟨hev, hh⟩ := Circle.removeEvent_of_loose h (List.not_mem_nil (a := e))
  exact h.congr hev (hh.trans h.list.head_eq.symm)

/-- 他の event が載っていなければ、どの場合も空の一覧になる。 -/
theorem removeEvent_no_others (h : WellFormed c l) (ho : others con l = []) :
    WellFormed (con.removeEvent c) (others con l) := by
  have hsub : ∀ x ∈ l, x = con.rdev ∨ x = con.wrev := by
    intro x hx
    by_contra hne
    have hmem : x ∈ others con l := List.mem_filter.mpr ⟨hx, by simpa [not_or] using hne⟩
    rw [ho] at hmem
    simp at hmem
  by_cases hr : con.rdev ∈ l
  · by_cases hw : con.wrev ∈ l
    · exact removeEvent_both h hr hw
    · have h1 := Circle.wellFormed_removeEvent h hr
      have hnil : l.erase con.rdev = others con l := by
        have hw' : con.wrev ∉ l.erase con.rdev := fun hc => hw (List.mem_of_mem_erase hc)
        rw [← erase_erase_eq_others h.list.nodup, List.erase_of_not_mem hw']
      rw [hnil, ho] at h1
      rw [ho]
      exact wellFormed_removeEvent_nil h1 con.wrev
  · by_cases hw : con.wrev ∈ l
    · refine removeEvent_wrev_head h hr ?_
      by_contra hc
      exact (removeEvent_wrev_inner h hr hw hc).2 ho
    · have hl : l = [] := List.eq_nil_iff_forall_not_mem.mpr fun x hx => by
        rcases hsub x hx with rfl | rfl
        · exact hr hx
        · exact hw hx
      rw [hl] at h
      rw [ho]
      exact wellFormed_removeEvent_nil (wellFormed_removeEvent_nil h con.rdev) con.wrev

/-- `CBase_connect::remove_event` が自分の event だけを外す条件。 -/
theorem removeEvent_own_iff (h : WellFormed c l) :
    WellFormed (con.removeEvent c) (others con l) ↔
      others con l = [] ∨ (con.wrev ∈ l ∧ (con.rdev ∈ l ∨ c.header = some con.wrev)) := by
  constructor
  · intro hown
    by_contra hbad
    obtain ⟨ho, hbad⟩ := not_or.mp hbad
    -- どの場合も `mp_header` は NULL になる
    have hh : (con.removeEvent c).header = none := by
      by_cases hw : con.wrev ∈ l
      · have hrw := not_or.mp fun hc => hbad ⟨hw, hc⟩
        exact (removeEvent_wrev_inner h hrw.1 hw hrw.2).1
      · exact removeEvent_header_of_wrev_loose h hw
    exact ho (hown.eq_nil hh)
  · rintro (ho | ⟨hw, hr | hhead⟩)
    · exact removeEvent_no_others h ho
    · exact removeEvent_both h hr hw
    · by_cases hr : con.rdev ∈ l
      · exact removeEvent_both h hr hw
      · exact removeEvent_wrev_head h hr hhead

/-- 閉じた後の一覧。`connect_remove` と `conns` の減算は一覧を変えない。 -/
theorem connectClose_wellFormed_iff {connectRemove : Connect ε → Circle ε → Circle ε}
    (hk : KeepsEvents connectRemove) (l' : List ε) :
    WellFormed (con.connectClose connectRemove c).2 l' ↔ WellFormed (con.removeEvent c) l' := by
  obtain ⟨hev, hh⟩ := hk { con with closed := true } (con.removeEvent c)
  constructor
  · exact fun h => h.congr hev.symm hh.symm
  · exact fun h => h.congr hev hh

/-- 載っていない event を `remove_event` に渡しても一覧が変わらないのは、一覧が空のときに限る。 -/
theorem removeEvent_loose_iff (h : WellFormed c l) {e : ε} (he : e ∉ l) :
    WellFormed (c.removeEvent e) l ↔ l = [] := by
  constructor
  · intro hl
    exact hl.eq_nil (Circle.removeEvent_of_loose h he).2
  · intro hl
    rw [hl] at h
    rw [hl]
    exact wellFormed_removeEvent_nil h e

/--
**接続を閉じたとき、自分の event だけが外れる条件。**

整った一覧 `l` のどの接続についても、`connect_close` の後の一覧が、他の接続の event だけを
もとの順に並べた整った一覧になるのは、他の接続の event が載っていないか、`m_wrev` が載っていて、
さらに `m_rdev` も載っているか `m_wrev` が先頭にあるときに限る。
載っていない event の `remove_event` が一覧を変えないのは、一覧が空のときに限る。
-/
theorem connectClose_own_iff {connectRemove : Connect ε → Circle ε → Circle ε}
    (hk : KeepsEvents connectRemove) (h : WellFormed c l) :
    (∀ con : Connect ε, WellFormed (con.connectClose connectRemove c).2 (others con l) ↔
      others con l = [] ∨ (con.wrev ∈ l ∧ (con.rdev ∈ l ∨ c.header = some con.wrev))) ∧
    ∀ e, (c.event e).linked = false → (WellFormed (c.removeEvent e) l ↔ l = []) := by
  refine ⟨fun con => ?_, fun e he => ?_⟩
  · rw [connectClose_wellFormed_iff hk]
    exact removeEvent_own_iff h
  · refine removeEvent_loose_iff h fun hc => ?_
    rw [(h.linked e).mpr hc] at he
    simp at he

/-! ## 失われる event -/

/-- 番号 0 と 1 の event だけを持つ接続と、番号 2 の event が載った一覧。 -/
def lonely : Connect Nat := ⟨0, 1, by decide, false⟩

def oneWaiting : Circle Nat :=
  Circle.addEvent ⟨fun _ => IoEvent.init Nat, none, none, 2⟩ 2

theorem oneWaiting_wellFormed : WellFormed oneWaiting [2] :=
  Circle.wellFormed_addEvent (wellFormed_init none 2) (by simp)

/-- event を一つも持たない接続を閉じると、他の接続の event 2 が一覧から失われる。 -/
theorem connectClose_loses_others :
    WellFormed oneWaiting [2] ∧
    ¬ WellFormed (lonely.connectClose (fun _ c => c) oneWaiting).2 (others lonely [2]) ∧
    (lonely.connectClose (fun _ c => c) oneWaiting).2.header = none ∧
    ((lonely.connectClose (fun _ c => c) oneWaiting).2.event 2).linked = true ∧
    ¬ WellFormed (oneWaiting.removeEvent 0) [2] := by
  refine ⟨oneWaiting_wellFormed, ?_, by decide, by decide, ?_⟩
  · intro hc
    have hnil := hc.eq_nil (by decide)
    exact absurd hnil (by decide)
  · intro hc
    have hnil := hc.eq_nil (by decide)
    exact absurd hnil (by decide)

/-- 一覧の途中に二つとも載っている接続を閉じると、残りの event はそのまま残る。 -/
theorem connectClose_own_iff_both :
    WellFormed (lonely.connectClose (fun _ c => c) ((oneWaiting.addEvent 1).addEvent 0)).2 [2] := by
  have hwf : WellFormed ((oneWaiting.addEvent 1).addEvent 0) [0, 1, 2] :=
    Circle.wellFormed_addEvent (Circle.wellFormed_addEvent oneWaiting_wellFormed (by simp)) (by simp)
  exact ((connectClose_own_iff (fun _ _ => ⟨rfl, rfl⟩) hwf).1 lonely).mpr
    (.inr ⟨by decide, .inl (by decide)⟩)

end RecordServer.Base
