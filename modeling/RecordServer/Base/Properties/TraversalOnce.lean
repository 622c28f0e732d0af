import RecordServer.Base.Traversal

/-!
# 巡回は、外されなかった event をちょうど一度ずつ処理する

handler は、巡回の間に event を幾つでも足し、幾つでも外す。足した event は一覧の先頭に入り、外した event が
`m_next` なら付け替わるので、`m_next` から先はいつも、まだ呼んでいない event の並びである。

* `Polite` — 許された handler
* `Traversed` — 巡回が満たすべきこと
* `Cursor.traverse` — loop の途中から終わりまで
* `traversed_once` — 整った一覧の巡回は終わり、`Traversed` を満たす
-/

namespace RecordServer.Base

open Infra

section Spec

variable {ε : Type*}

/-- 一回の `io_process` が一覧に残した操作。`SUCCESS` なら、巡回が自分の event を外す。 -/
def Visit.effects (v : Visit ε) : List (Op ε) :=
  v.ops ++ if v.ret = .success then [.remove v.node] else []

/-- 巡回の間の操作の全部。 -/
def history (log : List (Visit ε)) : List (Op ε) := log.flatMap Visit.effects

/-- `todo` の event の順番の来方。 -/
structure Visits (todo : List ε) (log : List (Visit ε)) : Prop where
  /-- 呼ぶのは、一覧の順である。 -/
  order : (log.map Visit.node).Sublist todo
  /-- 呼ぶのは、それまでに足されも外されもしなかったときで、呼ばないのは、先に外されたときである。 -/
  turn : ∀ e ∈ todo,
    (∃ before v after, log = before ++ v :: after ∧ v.node = e ∧
        ∀ g ∈ before, .add e ∉ g.ops ∧ .remove e ∉ g.ops) ∨
      (e ∉ log.map Visit.node ∧ ∃ g ∈ log, .remove e ∈ g.ops)
  /-- 呼ぶ event は、そのとき載っている。 -/
  linked : ∀ v ∈ log, (v.start.event v.node).linked = true
  ret : ∀ v ∈ log, v.ret ≠ .failure

/-- 一覧 `l` の巡回が、記録 `log` を残して `c'` で終わるときに満たすべきこと。 -/
structure Traversed (l : List ε) (log : List (Visit ε)) (c' : Circle ε) : Prop where
  visits : Visits l log
  /-- 同じ event は二度呼ばない。 -/
  once : (log.map Visit.node).Nodup
  /-- 残るのは、足して外していない event と、`RETRY` を返して外していない event である。 -/
  rest : ∃ l', WellFormed c' l' ∧ ∀ e, e ∈ l' ↔ Added (history log) e ∨
    ∃ v ∈ log, v.node = e ∧ v.ret = .retry ∧ .remove e ∉ history log

end Spec

variable {ε : Type*} [DecidableEq ε]

/--
許された handler。

`SUCCESS` か `RETRY` を返し、載っていない event だけを足し、載っている event だけを外す。`SUCCESS` を
返すときは、自分の event を載せたままにする。
-/
def Polite (handler : Handler ε) : Prop :=
  ∀ n node c l, WellFormed c l → node ∈ l →
    (handler n node c).2 ≠ .failure ∧ Lawful c (handler n node c).1 ∧
      ((handler n node c).2 = .success →
        ((c.execs (handler n node c).1).event node).linked = true)

variable {close : ε → Circle ε → Circle ε} {handler : Handler ε} {c c' : Circle ε}
  {done todo : List ε} {node : ε} {n : Nat} {log : List (Visit ε)}

/-! ## 一回分の操作 -/

theorem Circle.execs_append (c : Circle ε) (a b : List (Op ε)) :
    c.execs (a ++ b) = (c.execs a).execs b := by
  induction a generalizing c with
  | nil => rfl
  | cons op a ih => exact ih (c.exec op)

theorem lawful_append {a b : List (Op ε)} (ha : Lawful c a) (hb : Lawful (c.execs a) b) :
    Lawful c (a ++ b) := by
  induction a generalizing c with
  | nil => exact hb
  | cons op a ih =>
    cases op with
    | add e => exact ⟨ha.1, ih ha.2 hb⟩
    | remove e => exact ⟨ha.1, ih ha.2 hb⟩

/-- handler の呼び出しの記録。 -/
def visit (handler : Handler ε) (n : Nat) (node : ε) (c : Circle ε) : Visit ε :=
  ⟨node, c, (handler n node c).1, (handler n node c).2⟩

/-- 後始末まで含めた一回分も、許された操作の列である。 -/
theorem Polite.effects (hh : Polite handler) (close : ε → Circle ε → Circle ε) (n : Nat)
    (h : Cursor c (done ++ [node]) todo) :
    Lawful c (visit handler n node c).effects ∧
      (c.execs (handler n node c).1).settle close node (handler n node c).2 =
        c.execs (visit handler n node c).effects := by
  obtain ⟨hret, hlaw, hkeep⟩ := hh n node c _ h.list (by simp)
  cases hr : (handler n node c).2 with
  | failure => exact absurd hr hret
  | retry =>
    rw [Visit.effects, visit, hr]
    simpa using ⟨hlaw, rfl⟩
  | success =>
    have heff : (visit handler n node c).effects =
        (handler n node c).1 ++ [.remove node] := by
      simp [Visit.effects, visit, hr]
    rw [heff]
    refine ⟨lawful_append hlaw ⟨hkeep hr, trivial⟩, ?_⟩
    rw [c.execs_append]
    rfl

/-! ## 記録を一つ前に足す -/

omit [DecidableEq ε] in
theorem visits_nil : Visits ([] : List ε) [] := ⟨by simp, by simp, by simp, by simp⟩

/-- 残りから `v` の外した event を除いた巡回の記録に、`v` を足す。 -/
theorem Visits.cons {v : Visit ε} (h : Visits (todo.filter (.remove · ∉ v.ops)) log)
    (hv : v.node ∉ todo) (hlinked : (v.start.event v.node).linked = true)
    (hret : v.ret ≠ .failure) (hadd : ∀ e ∈ todo, .remove e ∉ v.ops → .add e ∉ v.ops) :
    Visits (v.node :: todo) (v :: log) := by
  have hlog : ∀ e ∈ log.map Visit.node, e ∈ todo ∧ .remove e ∉ v.ops := fun e he => by
    simpa using h.order.subset he
  refine ⟨(h.order.trans List.filter_sublist).cons_cons v.node, fun e he => ?_, ?_, ?_⟩
  · rcases List.mem_cons.mp he with rfl | hin
    · exact .inl ⟨[], v, log, rfl, rfl, by simp⟩
    · have hne : e ≠ v.node := fun heq => hv (heq ▸ hin)
      by_cases hr : .remove e ∈ v.ops
      · refine .inr ⟨fun hin => ?_, v, by simp, hr⟩
        rcases List.mem_cons.mp hin with heq | hin
        · exact hne heq
        · exact (hlog e hin).2 hr
      · rcases h.turn e (by simpa using ⟨hin, hr⟩) with
          ⟨before, w, after, rfl, hw, hbefore⟩ | ⟨hnot, g, hg, hrg⟩
        · refine .inl ⟨v :: before, w, after, rfl, hw, fun g hg => ?_⟩
          rcases List.mem_cons.mp hg with rfl | hg
          · exact ⟨hadd e hin hr, hr⟩
          · exact hbefore g hg
        · refine .inr ⟨fun hin => ?_, g, by simp [hg], hrg⟩
          rcases List.mem_cons.mp hin with heq | hin
          · exact hne heq
          · exact hnot hin
  · rintro w (_ | ⟨_, hw⟩)
    · exact hlinked
    · exact h.linked w hw
  · rintro w (_ | ⟨_, hw⟩)
    · exact hret
    · exact h.ret w hw

/-! ## loop -/

/-- 一回分の後の残り。 -/
theorem Cursor.body (h : Cursor c (done ++ [node]) todo) (hh : Polite handler) :
    ∃ done', Cursor (c.execs (visit handler n node c).effects) done'
        (todo.filter (.remove · ∉ (visit handler n node c).ops)) ∧
      (∀ e, e ∈ done' ++ todo.filter (.remove · ∉ (visit handler n node c).ops) ↔
        Remains (done ++ node :: todo) (visit handler n node c).effects e) ∧
      ∀ e ∈ todo, .remove e ∉ (visit handler n node c).ops →
        .add e ∉ (visit handler n node c).ops := by
  obtain ⟨hlaw, -⟩ := hh.effects (fun _ c => c) n h
  obtain ⟨done', hc, hiff, hadd⟩ := h.execs hlaw
  have hnode : node ∉ todo := by
    obtain ⟨-, -, hdisj⟩ := List.nodup_append.mp h.list.list.nodup
    exact fun hin => hdisj node (by simp) node hin rfl
  -- 巡回が外すのは自分の event だけなので、残りから除かれるのは handler が外した event である
  have heff : ∀ e ∈ todo, .remove e ∈ (visit handler n node c).effects ↔
      .remove e ∈ (visit handler n node c).ops := by
    intro e he
    have hne : e ≠ node := fun heq => hnode (heq ▸ he)
    rw [Visit.effects, List.mem_append]
    split <;> simp [visit, hne]
  have hfilter : todo.filter (.remove · ∉ (visit handler n node c).effects) =
      todo.filter (.remove · ∉ (visit handler n node c).ops) :=
    List.filter_congr fun e he => by simp [heff e he]
  rw [hfilter, List.append_assoc] at hiff
  refine ⟨done', hfilter ▸ hc, hiff, fun e he hr hin => ?_⟩
  exact hadd e he (mt (heff e he).mp hr) (List.mem_append_left _ hin)

theorem traverse_last (hnext : c.next ≠ some node)
    (heff : (c.execs (handler n node c).1).settle close node (handler n node c).2 = c')
    (hlast : c'.next = none) :
    Converges (fun fuel => traverse close handler fuel n node c) ([visit handler n node c], c') := by
  refine .of_lt (n := 0) fun fuel hfuel => ?_
  obtain ⟨k, rfl⟩ : ∃ k, fuel = k + 1 := ⟨fuel - 1, by omega⟩
  simp [traverse, hnext, heff, hlast, visit]

theorem traverse_succ {node' : ε} {c'' : Circle ε} (hnext : c.next ≠ some node)
    (heff : (c.execs (handler n node c).1).settle close node (handler n node c).2 = c')
    (hnode : c'.next = some node')
    (hrest : Converges (fun fuel => traverse close handler fuel (n + 1) node'
      { c' with next := (c'.event node').next }) (log, c'')) :
    Converges (fun fuel => traverse close handler fuel n node c)
      (visit handler n node c :: log, c'') := by
  obtain ⟨m, hm⟩ := hrest
  refine .of_lt (n := m) fun fuel hfuel => ?_
  obtain ⟨k, rfl⟩ : ∃ k, fuel = k + 1 := ⟨fuel - 1, by omega⟩
  have hk := hm k (by omega)
  simp only at hk
  simp [traverse, hnext, heff, hnode, hk, visit]

/-- **loop の途中から終わりまで。** 残りは一回ごとに短くなる。 -/
theorem Cursor.traverse (close : ε → Circle ε → Circle ε) (hh : Polite handler)
    (h : Cursor c (done ++ [node]) todo) :
    ∃ log c' l', Converges (fun fuel => Base.traverse close handler fuel n node c) (log, c') ∧
      Visits (node :: todo) log ∧ WellFormed c' l' ∧
      ∀ e, e ∈ l' ↔ Remains (done ++ node :: todo) (history log) e := by
  induction hlen : todo.length using Nat.strong_induction_on
    generalizing c done node todo n with
  | _ len ih =>
  have hnd := h.list.list.nodup
  have hmem : node ∈ done ++ [node] ++ todo := by simp
  have hnode : node ∉ todo := by
    obtain ⟨-, -, hdisj⟩ := List.nodup_append.mp hnd
    exact fun hin => hdisj node (by simp) node hin rfl
  have hnext : c.next ≠ some node := by
    rw [h.next]
    exact fun hc => hnode (List.mem_of_mem_head? hc)
  have hlinked : (c.event node).linked = true := (h.list.linked node).mpr hmem
  have hret := (hh n node c _ h.list hmem).1
  have hsettle := (hh.effects close n h).2
  obtain ⟨done', hc, hiff, hadd⟩ := h.body (n := n) hh
  have hcons : ∀ {log}, Visits (todo.filter (.remove · ∉ (visit handler n node c).ops)) log →
      Visits (node :: todo) (visit handler n node c :: log) := fun hv =>
    hv.cons (v := visit handler n node c) hnode hlinked hret hadd
  cases hrest : todo.filter (.remove · ∉ (visit handler n node c).ops) with
  | nil =>
    rw [hrest] at hc hiff hcons
    refine ⟨_, _, _, traverse_last hnext hsettle hc.next, hcons visits_nil, hc.list, ?_⟩
    simpa [history] using hiff
  | cons node' todo' =>
    rw [hrest] at hc hiff hcons
    have hlt : todo'.length < len := by
      have hle := List.length_filter_le (.remove · ∉ (visit handler n node c).ops) todo
      rw [hrest, List.length_cons] at hle
      omega
    have hnext' := hc.list.next_eq_head?
    have hcur : Cursor { c.execs (visit handler n node c).effects with
        next := ((c.execs (visit handler n node c).effects).event node').next }
        (done' ++ [node']) todo' := by
      refine ⟨?_, hnext'⟩
      rw [List.append_assoc]
      exact hc.list.congr rfl rfl
    obtain ⟨log, c'', l', hrun, hvisits, hwf, hiff'⟩ := ih _ hlt hcur rfl
    refine ⟨_, _, l', traverse_succ hnext hsettle hc.next hrun, hcons hvisits, hwf, fun e => ?_⟩
    rw [hiff' e]
    exact (remains_append hiff).symm

omit [DecidableEq ε] in
/-- 巡回の後に残る event。一覧に載っていて外されなかった event は、呼ばれて `RETRY` を返している。 -/
theorem Visits.remains_iff {l : List ε} (h : Visits l log) (e : ε) :
    Remains l (history log) e ↔ Added (history log) e ∨
      ∃ v ∈ log, v.node = e ∧ v.ret = .retry ∧ .remove e ∉ history log := by
  have hops : ∀ v ∈ log, ∀ x ∈ v.effects, x ∈ history log := fun v hv x hx =>
    List.mem_flatMap.mpr ⟨v, hv, hx⟩
  constructor
  · rintro (ha | ⟨he, hr⟩)
    · exact .inl ha
    · rcases h.turn e he with ⟨before, v, after, hlog, rfl, -⟩ | ⟨-, g, hg, hrg⟩
      · have hv : v ∈ log := by simp [hlog]
        refine .inr ⟨v, hv, rfl, ?_, hr⟩
        cases hret : v.ret with
        | failure => exact absurd hret (h.ret v hv)
        | retry => rfl
        | success => exact absurd (hops v hv _ (by simp [Visit.effects, hret])) hr
      · exact absurd (hops g hg _ (List.mem_append_left _ hrg)) hr
  · rintro (ha | ⟨v, hv, rfl, -, hr⟩)
    · exact .inl ha
    · exact .inr ⟨h.order.subset (List.mem_map_of_mem hv), hr⟩

/--
**整った一覧の巡回は終わり、外されなかった event をちょうど一度ずつ処理する。**

`close` は `FAILURE` のときの `connect_close` で、許された handler では呼ばれない。
-/
theorem traversed_once (close : ε → Circle ε → Circle ε) (handler : Handler ε)
    (hh : Polite handler) (c : Circle ε) (l : List ε) (h : WellFormed c l) :
    ∃ log c', Converges (fun fuel => traversal close handler fuel c) (log, c') ∧
      Traversed l log c' := by
  cases l with
  | nil =>
    have hheader : c.header = none := h.list.head_eq
    have hrun : Converges (fun fuel => traversal close handler fuel c)
        ([], { c with next := c.header }) := (Converges.pure _).congr fun fuel => by
      simp [traversal, hheader]
    exact ⟨_, _, hrun, visits_nil, List.nodup_nil, [], h.congr rfl rfl, by simp [history]⟩
  | cons node todo =>
    have hheader : c.header = some node := h.list.head_eq
    have hnext : (c.event node).next = todo.head? := by
      rw [← List.nil_append (node :: todo)] at h
      exact h.next_eq_head?
    have hcur : Cursor { c with next := (c.event node).next } ([] ++ [node]) todo :=
      ⟨h.congr rfl rfl, hnext⟩
    obtain ⟨log, c', l', hrun, hvisits, hwf, hiff⟩ := hcur.traverse (n := 0) close hh
    refine ⟨log, c', hrun.congr fun fuel => ?_, hvisits, hvisits.order.nodup h.list.nodup, l', hwf,
      fun e => (hiff e).trans (hvisits.remains_iff e)⟩
    simp [traversal, hheader]

/-- event 1 が載っていれば外して `RETRY` を返し、載っていなければ `SUCCESS` を返す。 -/
def removesOne : Handler Nat := fun _ _ c =>
  if (c.event 1).linked then ([.remove 1], .retry) else ([], .success)

/-- 次の event を外す handler のもとで、event 0 と 1 の一覧を巡回する。 -/
theorem traversed_once_removing_next :
    ∃ log c', Converges (fun fuel => traversal (fun _ c => c) removesOne fuel
      (((⟨fun _ => IoEvent.init Nat, none, none, 0⟩ : Circle Nat).addEvent 1).addEvent 0))
        (log, c') ∧ Traversed [0, 1] log c' := by
  refine traversed_once _ removesOne (fun n node c l h hnode => ?_) _ _
    (Circle.wellFormed_addEvent (Circle.wellFormed_addEvent (wellFormed_init none 0) (by simp))
      (by simp))
  cases h1 : (c.event 1).linked with
  | true => simp [removesOne, h1, Lawful]
  | false => simp [removesOne, h1, Lawful, Circle.execs, (h.linked node).mpr hnode]

end RecordServer.Base
