import RecordServer.Base.ConnTimeout

/-!
# 時間切れの接続

circle の thread が timer を回し、接続を作り、閉じ、壊し、ほかの event も加え消す run で、黙った接続は
早すぎも遅すぎもせずに閉じられる。

* `Stage` / `IdleAct` / `Idle.step` — handler に入った接続も状態に持つ run
* `Idle.Able` — 寿命と、時計の読み方。前の一回りから `2 ^ 31` ミリ秒近くは空けない
* `EvOk` — 待っている event の期限と、その接続の活動
* `closed_iff_silent` — 期限の来た接続は、`BC_TIMEOUT` を越えて黙っていたときに限り閉じられる
-/

namespace RecordServer.Base

open Infra Datas Timer

/-- `pure_timer_process` がどこにいるか。`now` は入ったときに読んだ時計の値である。 -/
inductive Stage where
  | idle
  /-- loop の頭。 -/
  | head (now : Key)
  /-- 接続 `ev` の `handle_expire_timer_ex` に入るところ。 -/
  | expiring (now : Key) (ev : Ptr)
  /-- ほかの event の handler の中。 -/
  | other (now : Key)

/-- `pure_timer_process` の中なら、その `now`。 -/
def Stage.now? : Stage → Option Nat
  | .idle => none
  | .head now => some now.val
  | .expiring now _ => some now.val
  | .other now => some now.val

def Stage.base (st : Stage) (clock : Nat) : Nat := st.now?.getD clock

theorem Stage.base_mono (st : Stage) {clock clock' : Nat} (h : clock ≤ clock') :
    st.base clock ≤ st.base clock' := by
  cases st
  · exact h
  · exact le_rfl
  · exact le_rfl
  · exact le_rfl

theorem Stage.lt_base {st : Stage} {clock x : Nat} (hclock : x < clock + 2 ^ 31)
    (hnow : ∀ n ∈ st.now?, x < n + 2 ^ 31) : x < st.base clock + 2 ^ 31 := by
  cases st with
  | idle => exact hclock
  | head now => exact hnow _ rfl
  | expiring now ev => exact hnow _ rfl
  | other now => exact hnow _ rfl

/--
`isConn` は接続の `m_cto` である番地、`inited` は `init_timer` を呼んだ接続である。`clock` は最後に
読んだ時計の値、`lastPass` は最後に終わった `pure_timer_process` の時刻である。
-/
structure Idle where
  circle : TimedCircle
  stage : Stage
  isConn : Ptr → Bool
  inited : Ptr → Bool
  clock : Nat
  lastPass : Nat

inductive IdleAct where
  | construct (ev : Ptr)
  | destroy (ev : Ptr)
  | initTimer (ev : Ptr) (clock clock' : Key)
  | updateActive (ev : Ptr) (clock : Key)
  | connectClose (ev : Ptr)
  /-- 接続でない event への操作。 -/
  | call (c : Timer.Call)
  | enter (now : Key)
  | turn
  | expire (clock clock' : Key)
  | ret

/-- 操作の相手。 -/
def target : Timer.Call → Ptr
  | .construct ev => ev
  | .destroy ev => ev
  | .add _ _ ev => ev
  | .delete ev => ev

/-- 操作が読む時計の値。 -/
def reads : Timer.Call → Option Key
  | .add _ clock _ => some clock
  | _ => none

namespace Idle

/-- loop の一回分の後。外した event が接続のものなら、その handler に入る。 -/
def afterTurn (m : Idle) (now : Key) : Option Ptr × World → Idle
  | (none, w) =>
    { m with circle := { m.circle with world := w }, stage := .idle, lastPass := now.val }
  | (some ev, w) =>
    { m with
      circle := { m.circle with world := w }
      stage := if m.isConn ev = true then .expiring now ev else .other now }

def step (fuel : Nat) (m : Idle) : IdleAct → Option Idle
  | .construct ev => (m.circle.construct fuel ev).map fun s =>
      { m with
        circle := s
        isConn := Function.update m.isConn ev true
        inited := Function.update m.inited ev false }
  | .destroy ev => (m.circle.destroy fuel ev).map fun s => { m with circle := s }
  | .initTimer ev clock clock' => (m.circle.initTimer fuel ev clock clock').map fun s =>
      { m with circle := s, inited := Function.update m.inited ev true, clock := clock'.val }
  | .updateActive ev clock =>
      some { m with circle := m.circle.updateActive ev clock, clock := clock.val }
  | .connectClose ev => (m.circle.connectClose fuel ev).map fun s => { m with circle := s }
  | .call c => (exec fuel m.circle.world c).map fun w =>
      { m with
        circle := { m.circle with world := w }
        isConn := Function.update m.isConn (target c) false
        clock := (reads c).elim m.clock Fin.val }
  | .enter now => some { m with stage := .head now, clock := now.val }
  | .turn =>
    match m.stage with
    | .head now => (m.circle.world.turn fuel now).map (m.afterTurn now)
    | _ => none
  | .expire clock clock' =>
    match m.stage with
    | .expiring now ev => (m.circle.handleExpireTimerEx fuel ev clock clock').map fun s =>
        { m with circle := s, stage := .head now, clock := clock'.val }
    | _ => none
  | .ret =>
    match m.stage with
    | .other now => some { m with stage := .head now }
    | _ => none

/-! ## 許された一手 -/

/-- 木を調べている間と、接続の handler に入るところでは、ほかの操作は割り込まない。 -/
def Quiet (m : Idle) : Prop :=
  m.stage = .idle ∨ ∃ now, m.stage = .other now

/-- 在って、接続の `m_cto` である。 -/
def Conn (m : Idle) (ev : Ptr) : Prop :=
  m.circle.world.alive ev = true ∧ m.isConn ev = true

/-- `BC_TIMEOUT` の二回分と、続けて読む二つの時計の差の上限 `δ`。 -/
def late (δ : Nat) : Nat := 2 * BC_TIMEOUT + δ

theorem late_eq (δ : Nat) : late δ = 60000 + δ := rfl

/-- 時計は戻らず、最後に終わった一回りから `2 ^ 31` 近くは進まない。 -/
def Clocked (δ : Nat) (m : Idle) (clock : Key) : Prop :=
  m.clock ≤ clock.val ∧ clock.val + late δ < m.lastPass + 2 ^ 31 ∧ clock.val < 2 ^ 63

/-- 続けて二度読む。 -/
def Clocked₂ (δ : Nat) (m : Idle) (clock clock' : Key) : Prop :=
  m.clock ≤ clock.val ∧ clock ≤ clock' ∧ clock'.val ≤ clock.val + δ ∧
    clock'.val + late δ < m.lastPass + 2 ^ 31 ∧ clock'.val < 2 ^ 63

/-- 期限を測る元になる時刻。`pure_timer_process` の中では、入ったときの時刻である。 -/
def base (m : Idle) : Nat := m.stage.base m.clock

def Able (δ : Nat) (m : Idle) : IdleAct → Prop
  | .construct ev => m.Quiet ∧ Allowed m.circle.world (.construct ev)
  | .destroy ev => m.Quiet ∧ m.Conn ev
  | .initTimer ev clock clock' =>
    m.Quiet ∧ m.Conn ev ∧ (m.circle.conn ev).closed = false ∧ m.Clocked₂ δ clock clock'
  | .updateActive ev clock => m.Quiet ∧ m.Conn ev ∧ m.Clocked δ clock
  | .connectClose ev => m.Quiet ∧ m.Conn ev
  | .call c => m.Quiet ∧ Allowed m.circle.world c ∧
      (m.circle.world.alive (target c) = true → m.isConn (target c) = false) ∧
      ∀ timer clock ev, c = .add timer clock ev → 1 ≤ timer.val ∧ m.Clocked δ clock ∧
        timer.val < 2 ^ 31 ∧ ∀ n ∈ m.stage.now?, timer.val + clock.val < n + 2 ^ 31
  | .enter now => m.stage = .idle ∧ m.Clocked δ now
  | .turn => ∃ now, m.stage = .head now
  | .expire clock clock' => (∃ now ev, m.stage = .expiring now ev) ∧ m.Clocked₂ δ clock clock'
  | .ret => ∃ now, m.stage = .other now

/-! ## 不変量 -/

/-- 一つの event と、その接続。 -/
structure EvOk (δ : Nat) (m : Idle) (ev : Ptr) : Prop where
  /-- 期限は、最後に終わった一回りより後にあり、遠すぎない。 -/
  waits : ∀ k, Pending m.circle.world ev k → m.lastPass < k.val ∧ k.val < m.base + 2 ^ 31
  /-- 待っているのは開いた接続で、期限は最後の活動から遠くない。 -/
  conn : m.isConn ev = true → ∀ k, Pending m.circle.world ev k →
    m.inited ev = true ∧ (m.circle.conn ev).closed = false ∧
      k.val ≤ (m.circle.conn ev).activeMs.val + late δ ∧
      (m.circle.conn ev).activeMs.val ≤ m.clock
  /-- 開いた接続は、自分の handler に入るところでなければ待っている。 -/
  armed : m.Conn ev → m.inited ev = true → (m.circle.conn ev).closed = false →
    (∃ k, Pending m.circle.world ev k) ∨ ∃ now, m.stage = .expiring now ev

/-- handler に入るところの接続。 -/
structure Expiring (δ : Nat) (m : Idle) (ev : Ptr) : Prop where
  exists_conn : m.Conn ev
  inited : m.inited ev = true
  opened : (m.circle.conn ev).closed = false
  out : ∀ k, ¬ Pending m.circle.world ev k
  active : m.lastPass < (m.circle.conn ev).activeMs.val + late δ ∧
    (m.circle.conn ev).activeMs.val ≤ m.clock

structure Ok (δ : Nat) (m : Idle) : Prop where
  holds : ∃ rb, Holds m.circle.world rb
  event : ∀ ev, m.EvOk δ ev
  times : m.lastPass ≤ m.clock ∧ m.clock < 2 ^ 63
  pass : ∀ n ∈ m.stage.now?, m.lastPass ≤ n ∧ n ≤ m.clock ∧ n + late δ < m.lastPass + 2 ^ 31
  expiring : ∀ now ev, m.stage = .expiring now ev → m.Expiring δ ev

variable {δ : Nat} {m m' : Idle} {act : IdleAct} {acts : List IdleAct} {ev : Ptr}

/-- 一手の前後で `ev` については何も変わらない。 -/
structure Same (m m' : Idle) (ev : Ptr) : Prop where
  pend : ∀ k, Pending m'.circle.world ev k ↔ Pending m.circle.world ev k
  alive : m'.circle.world.alive ev = m.circle.world.alive ev
  conn : m'.circle.conn ev = m.circle.conn ev
  isConn : m'.isConn ev = m.isConn ev
  inited : m'.inited ev = m.inited ev

/-- 相手でない event は、時計が進むだけでは変わらない。 -/
theorem EvOk.frame (h : m.EvOk δ ev) (hsame : m.Same m' ev) (hlast : m'.lastPass = m.lastPass)
    (hbase : m.base ≤ m'.base) (hclock : m.clock ≤ m'.clock)
    (hstage : ∀ now, m.stage = .expiring now ev → ∃ now', m'.stage = .expiring now' ev) :
    m'.EvOk δ ev := by
  constructor
  · intro k hk
    obtain ⟨hlt, hle⟩ := h.waits k ((hsame.pend k).mp hk)
    exact ⟨hlast ▸ hlt, by omega⟩
  · intro hc k hk
    rw [hsame.inited, hsame.conn]
    obtain ⟨hi, hopen, hdue, hact⟩ := h.conn (hsame.isConn ▸ hc) k ((hsame.pend k).mp hk)
    exact ⟨hi, hopen, hdue, hact.trans hclock⟩
  · intro hc hi hopen
    rw [hsame.inited] at hi
    rw [hsame.conn] at hopen
    rcases h.armed ⟨hsame.alive ▸ hc.1, hsame.isConn ▸ hc.2⟩ hi hopen with ⟨k, hk⟩ | ⟨now, hnow⟩
    · exact .inl ⟨k, (hsame.pend k).mpr hk⟩
    · exact .inr (hstage now hnow)

theorem Quiet.not_expiring (h : m.Quiet) (now : Key) : m.stage ≠ .expiring now ev := by
  rcases h with hidle | ⟨n, hother⟩
  · rw [hidle]
    exact fun heq => nomatch heq
  · rw [hother]
    exact fun heq => nomatch heq

/-- 割り込んだ操作は、相手の event だけを見ればよい。 -/
theorem Ok.touch (h : m.Ok δ) (hq : m.Quiet) (hholds : ∃ rb, Holds m'.circle.world rb)
    (hstage : m'.stage = m.stage) (hlast : m'.lastPass = m.lastPass)
    (hclock : m.clock ≤ m'.clock) (hlt : m'.clock < 2 ^ 63)
    {p : Ptr} (hsame : ∀ q, q ≠ p → m.Same m' q) (hev : m'.EvOk δ p) : m'.Ok δ := by
  have hbase : m.base ≤ m'.base := by
    unfold base
    rw [hstage]
    exact m.stage.base_mono hclock
  refine ⟨hholds, fun q => ?_, ⟨?_, hlt⟩, fun n hn => ?_, fun now q hstage' => ?_⟩
  · by_cases hq' : q = p
    · exact hq' ▸ hev
    · exact (h.event q).frame (hsame q hq') hlast hbase hclock fun now hnow =>
        absurd hnow (hq.not_expiring now)
  · rw [hlast]
    exact h.times.1.trans hclock
  · rw [hlast]
    obtain ⟨hle, hle', hlate⟩ := h.pass n (hstage ▸ hn)
    exact ⟨hle, hle'.trans hclock, hlate⟩
  · exact absurd (hstage ▸ hstage') (hq.not_expiring now)

/-! ## 一手ごと -/

theorem Ok.construct (h : m.Ok δ) (hable : m.Able δ (.construct ev)) :
    ∃ m', Converges (fun fuel => m.step fuel (.construct ev)) m' ∧ m'.Ok δ := by
  obtain ⟨hq, ha⟩ := hable
  obtain ⟨rb, hrb⟩ := h.holds
  obtain ⟨w, rb', hrun, hrb', halive, hpend⟩ := hrb.exec_iff ha
  have hnone : ∀ k, ¬ Pending m.circle.world ev k := by
    intro k hk
    have hdead := hrb.alive_of_pending hk
    rw [ha.1] at hdead
    cases hdead
  have hcircle : Converges (fun fuel => m.circle.construct fuel ev)
      ({ m.circle with world := w }.modify ev fun c => { c with closed := false }) := hrun.map _
  have hstep := hcircle.map fun s : TimedCircle =>
    ({ m with
        circle := s
        isConn := Function.update m.isConn ev true
        inited := Function.update m.inited ev false } : Idle)
  refine ⟨_, hstep, h.touch (p := ev) hq ⟨rb', hrb'⟩ rfl rfl le_rfl h.times.2
    (fun p hp => ⟨hpend p, ?_, ?_, ?_, ?_⟩) ⟨?_, ?_, ?_⟩⟩
  · show w.alive p = _
    rw [halive]
    exact Function.update_of_ne hp _ _
  · exact Function.update_of_ne hp _ _
  · exact Function.update_of_ne hp _ _
  · exact Function.update_of_ne hp _ _
  · exact fun k hk => absurd ((hpend ev k).mp hk) (hnone k)
  · exact fun _ k hk => absurd ((hpend ev k).mp hk) (hnone k)
  · intro _ hi
    have hfalse : Function.update m.inited ev false ev = true := hi
    simp at hfalse

theorem Ok.destroy (h : m.Ok δ) (hable : m.Able δ (.destroy ev)) :
    ∃ m', Converges (fun fuel => m.step fuel (.destroy ev)) m' ∧ m'.Ok δ := by
  obtain ⟨hq, hc⟩ := hable
  obtain ⟨rb, hrb⟩ := h.holds
  obtain ⟨w, rb', hrun, hrb', halive, hpend⟩ := hrb.exec_iff (c := .destroy ev) hc.1
  have hout : ∀ k, ¬ Pending w ev k := fun k hk => ((hpend ev k).mp hk).2 rfl
  refine ⟨_, (hrun.map _).map _, h.touch (p := ev) hq ⟨rb', hrb'⟩ rfl rfl le_rfl h.times.2
    (fun p hp => ⟨fun k => ?_, ?_, rfl, rfl, rfl⟩) ⟨?_, ?_, ?_⟩⟩
  · exact (hpend p k).trans (and_iff_left hp)
  · show w.alive p = _
    rw [halive]
    exact Function.update_of_ne hp _ _
  · exact fun k hk => absurd hk (hout k)
  · exact fun _ k hk => absurd hk (hout k)
  · intro hc'
    have hdead : w.alive ev = true := hc'.1
    rw [halive] at hdead
    simp [aliveAfter] at hdead

theorem Ok.connectClose (h : m.Ok δ) (hable : m.Able δ (.connectClose ev)) :
    ∃ m', Converges (fun fuel => m.step fuel (.connectClose ev)) m' ∧ m'.Ok δ := by
  obtain ⟨hq, hc⟩ := hable
  obtain ⟨rb, hrb⟩ := h.holds
  obtain ⟨w, rb', hrun, hrb', halive, hpend⟩ := hrb.exec_iff (c := .delete ev) hc.1
  have hout : ∀ k, ¬ Pending w ev k := fun k hk => ((hpend ev k).mp hk).2 rfl
  refine ⟨_, (hrun.map _).map _, h.touch (p := ev) hq ⟨rb', hrb'⟩ rfl rfl le_rfl h.times.2
    (fun p hp => ⟨fun k => ?_, ?_, ?_, rfl, rfl⟩) ⟨?_, ?_, ?_⟩⟩
  · exact (hpend p k).trans (and_iff_left hp)
  · show w.alive p = _
    rw [halive]
    rfl
  · exact Function.update_of_ne hp _ _
  · exact fun k hk => absurd hk (hout k)
  · exact fun _ k hk => absurd hk (hout k)
  · intro _ _ hopen
    have hclosed : (Function.update m.circle.conn ev _ ev).closed = false := hopen
    simp at hclosed

theorem bcTimeout_val : (Fin.ofNat (2 ^ 64) BC_TIMEOUT).val = 30000 := rfl

/-- `BC_TIMEOUT` で加えた期限。 -/
theorem due_val {clock : Key} (hlt : clock.val < 2 ^ 63) :
    (Fin.ofNat _ BC_TIMEOUT + clock : Key).val = 30000 + clock.val := by
  rw [Fin.val_add, bcTimeout_val]
  omega

/-- 加えた期限は、遠すぎない。 -/
theorem due_near (h : m.Ok δ) {clock : Key} (hclock : m.clock ≤ clock.val)
    (hlt : clock.val < 2 ^ 63) (hlate : clock.val + late δ < m.lastPass + 2 ^ 31) :
    m.lastPass < (Fin.ofNat _ BC_TIMEOUT + clock : Key).val ∧
      ∀ n ∈ m.stage.now?, (Fin.ofNat _ BC_TIMEOUT + clock : Key).val < n + 2 ^ 31 := by
  rw [due_val hlt]
  have htimes := h.times
  rw [late_eq] at hlate
  refine ⟨by omega, fun n hn => ?_⟩
  have hle := (h.pass n hn).1
  omega

theorem Ok.initTimer {clock clock' : Key} (h : m.Ok δ)
    (hable : m.Able δ (.initTimer ev clock clock')) :
    ∃ m', Converges (fun fuel => m.step fuel (.initTimer ev clock clock')) m' ∧ m'.Ok δ := by
  obtain ⟨hq, hc, hopen, hclock, hle, hδ, hlate, hlt⟩ := hable
  rw [Fin.le_def] at hle
  obtain ⟨rb, hrb⟩ := h.holds
  obtain ⟨w, rb', hrun, hrb', halive, hpend⟩ :=
    hrb.exec_iff (c := .add (Fin.ofNat _ BC_TIMEOUT) clock' ev) hc.1
  have hcircle : Converges (fun fuel => m.circle.initTimer fuel ev clock clock')
      { m.circle.updateActive ev clock with world := w } := hrun.map _
  have hstep := hcircle.map fun s : TimedCircle =>
    ({ m with
        circle := s
        inited := Function.update m.inited ev true
        clock := clock'.val } : Idle)
  have hle' : m.clock ≤ clock'.val := hclock.trans hle
  obtain ⟨hafter, hbefore⟩ := due_near h hle' hlt hlate
  have hval := due_val hlt
  have hsoon : (Fin.ofNat _ BC_TIMEOUT + clock' : Key).val < clock'.val + 2 ^ 31 := by omega
  refine ⟨_, hstep, h.touch (p := ev) hq ⟨rb', hrb'⟩ rfl rfl hle' hlt
    (fun p hp => ⟨fun k => ?_, ?_, ?_, rfl, ?_⟩) ⟨fun k hk => ?_, fun _ k hk => ?_, fun _ _ _ => ?_⟩⟩
  · exact (hpend p k).trans (or_iff_right fun hadd => hp hadd.1)
  · show w.alive p = _
    rw [halive]
    rfl
  · exact Function.update_of_ne hp _ _
  · exact Function.update_of_ne hp _ _
  · rcases (hpend ev k).mp hk with ⟨-, rfl, -⟩ | hold
    · exact ⟨hafter, Stage.lt_base hsoon hbefore⟩
    · obtain ⟨hlast, hfar⟩ := (h.event ev).waits k hold
      exact ⟨hlast, lt_of_lt_of_le hfar (Nat.add_le_add_right (m.stage.base_mono hle') _)⟩
  · have hfield : (m.circle.updateActive ev clock).conn ev = ⟨(m.circle.conn ev).closed, clock⟩ :=
      Function.update_self ..
    have hle'' : clock.val ≤ clock'.val := hle
    show Function.update m.inited ev true ev = true ∧ _
    rw [Function.update_self]
    show _ ∧ ((m.circle.updateActive ev clock).conn ev).closed = false ∧
      k.val ≤ ((m.circle.updateActive ev clock).conn ev).activeMs.val + late δ ∧ _ ≤ clock'.val
    rw [hfield]
    refine ⟨rfl, hopen, ?_, hle''⟩
    rcases (hpend ev k).mp hk with ⟨-, rfl, -⟩ | hold
    · show _ ≤ clock.val + late δ
      rw [late_eq]
      omega
    · obtain ⟨-, -, hdue, hact⟩ := (h.event ev).conn hc.2 k hold
      show _ ≤ clock.val + late δ
      omega
  · by_cases hex : ∃ k, Pending m.circle.world ev k
    · obtain ⟨k, hk⟩ := hex
      exact .inl ⟨k, (hpend ev k).mpr (.inr hk)⟩
    · exact .inl ⟨_, (hpend ev _).mpr (.inl ⟨rfl, rfl, not_exists.mp hex⟩)⟩

theorem Ok.updateActive {clock : Key} (h : m.Ok δ) (hable : m.Able δ (.updateActive ev clock)) :
    Ok δ { m with circle := m.circle.updateActive ev clock, clock := clock.val } := by
  obtain ⟨hq, hc, hclock, -, hlt⟩ := hable
  have hfield : (m.circle.updateActive ev clock).conn ev = ⟨(m.circle.conn ev).closed, clock⟩ :=
    Function.update_self ..
  refine h.touch (p := ev) hq h.holds rfl rfl hclock hlt
    (fun p hp => ⟨fun _ => Iff.rfl, rfl, Function.update_of_ne hp _ _, rfl, rfl⟩)
    ⟨fun k hk => ?_, fun _ k hk => ?_, fun _ hi hopen => ?_⟩
  · obtain ⟨hlast, hfar⟩ := (h.event ev).waits k hk
    exact ⟨hlast, lt_of_lt_of_le hfar (Nat.add_le_add_right (m.stage.base_mono hclock) _)⟩
  · obtain ⟨hi, hopen, hdue, hact⟩ := (h.event ev).conn hc.2 k hk
    show _ ∧ ((m.circle.updateActive ev clock).conn ev).closed = false ∧
      k.val ≤ ((m.circle.updateActive ev clock).conn ev).activeMs.val + late δ ∧ _ ≤ clock.val
    rw [hfield]
    exact ⟨hi, hopen, hdue.trans (Nat.add_le_add_right (hact.trans hclock) _), le_rfl⟩
  · have hopen' : ((m.circle.updateActive ev clock).conn ev).closed = false := hopen
    rw [hfield] at hopen'
    exact (h.event ev).armed hc hi hopen'

/-- 接続でない event への操作の後、その相手の期限は遠すぎない。 -/
theorem call_waits {c : Timer.Call} {w : World} (h : m.Ok δ) (hable : m.Able δ (.call c))
    (hpend : PendingAfter m.circle.world w c) {k : Key} (hk : Pending w (target c) k) :
    m.lastPass < k.val ∧ k.val < m.stage.base ((reads c).elim m.clock Fin.val) + 2 ^ 31 := by
  obtain ⟨-, -, -, hadd⟩ := hable
  cases c with
  | construct ev => exact (h.event ev).waits k ((hpend ev k).mp hk)
  | destroy ev => exact absurd rfl ((hpend ev k).mp hk).2
  | delete ev => exact absurd rfl ((hpend ev k).mp hk).2
  | add timer clock ev =>
    obtain ⟨hpos, ⟨hclock, -, hlt⟩, htimer, hnow⟩ := hadd timer clock ev rfl
    rcases (hpend ev k).mp hk with ⟨-, rfl, -⟩ | hold
    · have htimes := h.times
      have hval : (timer + clock : Key).val = timer.val + clock.val := by
        rw [Fin.val_add]
        omega
      rw [hval]
      refine ⟨by omega, Stage.lt_base ?_ hnow⟩
      show _ < clock.val + 2 ^ 31
      omega
    · obtain ⟨hlast, hfar⟩ := (h.event ev).waits k hold
      exact ⟨hlast, lt_of_lt_of_le hfar (Nat.add_le_add_right (m.stage.base_mono hclock) _)⟩

theorem Ok.call {c : Timer.Call} (h : m.Ok δ) (hable : m.Able δ (.call c)) :
    ∃ m', Converges (fun fuel => m.step fuel (.call c)) m' ∧ m'.Ok δ := by
  obtain ⟨rb, hrb⟩ := h.holds
  obtain ⟨w, rb', hrun, hrb', halive, hpend⟩ := hrb.exec_iff hable.2.1
  have hwaits := fun k => call_waits h hable hpend (k := k)
  have hstep := hrun.map fun w : World =>
    ({ m with
        circle := { m.circle with world := w }
        isConn := Function.update m.isConn (target c) false
        clock := (reads c).elim m.clock Fin.val } : Idle)
  obtain ⟨hq, ha, hnot, hadd⟩ := hable
  have hclock : m.clock ≤ (reads c).elim m.clock Fin.val ∧ (reads c).elim m.clock Fin.val < 2 ^ 63 := by
    cases c with
    | add timer clock ev => exact ⟨(hadd timer clock ev rfl).2.1.1, (hadd timer clock ev rfl).2.1.2.2⟩
    | construct ev => exact ⟨le_rfl, h.times.2⟩
    | destroy ev => exact ⟨le_rfl, h.times.2⟩
    | delete ev => exact ⟨le_rfl, h.times.2⟩
  have hfalse : Function.update m.isConn (target c) false (target c) = false :=
    Function.update_self ..
  refine ⟨_, hstep, h.touch (p := target c) hq ⟨rb', hrb'⟩ rfl rfl hclock.1 hclock.2
    (fun p hp => ⟨fun k => ?_, ?_, rfl, Function.update_of_ne hp _ _, rfl⟩)
    ⟨hwaits, fun hc => ?_, fun hc => ?_⟩⟩
  · cases c with
    | construct ev => exact hpend p k
    | destroy ev => exact (hpend p k).trans (and_iff_left hp)
    | delete ev => exact (hpend p k).trans (and_iff_left hp)
    | add timer clock ev => exact (hpend p k).trans (or_iff_right fun hnew => hp hnew.1)
  · show w.alive p = _
    rw [halive]
    cases c with
    | construct ev => exact Function.update_of_ne hp _ _
    | destroy ev => exact Function.update_of_ne hp _ _
    | delete ev => rfl
    | add timer clock ev => rfl
  · exact absurd (hfalse.symm.trans hc) (by decide)
  · exact absurd (hfalse.symm.trans hc.2) (by decide)

theorem Ok.enter {now : Key} (h : m.Ok δ) (hable : m.Able δ (.enter now)) :
    Ok δ { m with stage := .head now, clock := now.val } := by
  obtain ⟨hidle, hclock, hlate, hlt⟩ := hable
  have hbase : m.base = m.clock := by rw [base, hidle]; rfl
  have hlast : m.lastPass ≤ now.val := h.times.1.trans hclock
  refine ⟨h.holds, fun p => ?_, ⟨hlast, hlt⟩, fun n hn => ?_, fun _ p hp => nomatch hp⟩
  · refine (h.event p).frame ⟨fun _ => Iff.rfl, rfl, rfl, rfl, rfl⟩ rfl (hbase ▸ hclock) hclock ?_
    intro now hnow
    rw [hidle] at hnow
    cases hnow
  · obtain rfl : now.val = n := Option.some.inj hn
    exact ⟨hlast, le_rfl, hlate⟩

theorem Ok.ret (h : m.Ok δ) {now : Key} (hstage : m.stage = .other now) :
    Ok δ { m with stage := .head now } := by
  have hbase : m.base = now.val := by rw [base, hstage]; rfl
  refine ⟨h.holds, fun p => ?_, h.times, fun n hn => h.pass n (hstage ▸ hn), fun _ p hp => nomatch hp⟩
  refine (h.event p).frame ⟨fun _ => Iff.rfl, rfl, rfl, rfl, rfl⟩ rfl hbase.le le_rfl ?_
  intro now hnow
  rw [hstage] at hnow
  cases hnow

/-- 一回りの間、どの期限も `now` の近くにある。 -/
theorem Ok.near {now : Key} (h : m.Ok δ) (hstage : m.stage = .head now) :
    Near now m.circle.world := by
  intro p k hk
  obtain ⟨hlast, hfar⟩ := (h.event p).waits k hk
  have hbase : m.base = now.val := by rw [base, hstage]; rfl
  obtain ⟨-, -, hlate⟩ := h.pass now.val (by rw [hstage]; rfl)
  omega

theorem Ok.turn (h : m.Ok δ) (hable : m.Able δ .turn) :
    ∃ m', Converges (fun fuel => m.step fuel .turn) m' ∧ m'.Ok δ := by
  obtain ⟨now, hstage⟩ := hable
  obtain ⟨rb, hrb⟩ := h.holds
  obtain ⟨hlast, hclock, -⟩ := h.pass now.val (by rw [hstage]; rfl)
  have hbase : m.base = now.val := by rw [base, hstage]; rfl
  have hturn : ∀ {r}, Converges (fun fuel => m.circle.world.turn fuel now) r →
      Converges (fun fuel => m.step fuel .turn) (m.afterTurn now r) := by
    intro r hrun
    refine (hrun.map (m.afterTurn now)).congr fun fuel => ?_
    rw [step, hstage]
  rcases hrb.turn_near (h.near hstage) with
    ⟨hrun, hnone⟩ | ⟨ev, k, w, rb', hk, hdue, hrun, hrb', halive, hpend⟩
  · -- 期限の来た event はもう無い。
    refine ⟨_, hturn hrun, ⟨rb, hrb⟩, fun p => ⟨fun k hk => ?_, (h.event p).conn, fun hc hi hopen => ?_⟩,
      ⟨hclock, h.times.2⟩, fun n hn => absurd hn (by simp [Stage.now?, afterTurn]),
      fun _ p hp => nomatch hp⟩
    · obtain ⟨-, hfar⟩ := (h.event p).waits k hk
      have hlt := Fin.lt_def.mp (hnone p k hk)
      refine ⟨hlt, ?_⟩
      show _ < m.clock + 2 ^ 31
      omega
    · rcases (h.event p).armed hc hi hopen with hwait | ⟨n, hn⟩
      · exact .inl hwait
      · rw [hstage] at hn
        cases hn
  · -- 外した event が接続のものなら、その handler に入る。
    have hnow : (if m.isConn ev = true then Stage.expiring now ev else .other now).now? =
        some now.val := by
      split <;> rfl
    have hbase' : (if m.isConn ev = true then Stage.expiring now ev else .other now).base m.clock =
        now.val := by
      unfold Stage.base
      rw [hnow]
      rfl
    have hout : ∀ k, ¬ Pending w ev k := fun k hk => ((hpend ev k).mp hk).2 rfl
    refine ⟨_, hturn hrun, ⟨rb', hrb'⟩, fun p => ?_, h.times, fun n hn => ?_, fun n p hp => ?_⟩
    · by_cases hne : p = ev
      · subst hne
        refine ⟨fun k hk => absurd hk (hout k), fun _ k hk => absurd hk (hout k), fun hc _ _ => ?_⟩
        have his : m.isConn p = true := hc.2
        exact .inr ⟨now, if_pos his⟩
      · refine (h.event p).frame ⟨fun k => (hpend p k).trans (and_iff_left hne), congrFun halive p,
          rfl, rfl, rfl⟩ rfl (hbase.trans hbase'.symm).le le_rfl fun n hn => ?_
        rw [hstage] at hn
        cases hn
    · have heq : some now.val = some n := hnow ▸ hn
      obtain rfl := Option.some.inj heq
      exact h.pass now.val (by rw [hstage]; rfl)
    · have heq : (if m.isConn ev = true then Stage.expiring now ev else .other now) =
          .expiring n p := hp
      split at heq
      · rename_i his
        obtain ⟨rfl, rfl⟩ := Stage.expiring.inj heq
        obtain ⟨hi, hopen, hle, hact⟩ := (h.event ev).conn his k hk
        have hlt := ((h.event ev).waits k hk).1
        exact ⟨⟨halive ▸ hrb.alive_of_pending hk, his⟩, hi, hopen, hout,
          lt_of_lt_of_le hlt hle, hact⟩
      · cases heq

/-- 縮めた経過の調べは正しい。 -/
theorem silent_iff {clock active : Key} (hle : active ≤ clock)
    (hlt : clock.val < active.val + 2 ^ 31) :
    PureTimer.s32 (clock - active) > BC_TIMEOUT ↔ active.val + BC_TIMEOUT < clock.val := by
  have hval : (clock - active).val = clock.val - active.val := Fin.sub_val_of_le hle
  have hle' := Fin.le_def.mp hle
  unfold PureTimer.s32
  rw [hval, Int.bmod_eq_of_le (by omega) (by omega)]
  omega

/-- `handle_expire_timer_ex` は、黙っていた接続を閉じ、そうでなければ加え直す。 -/
theorem Expiring.handle {clock clock' : Key} (h : m.Ok δ) (he : m.Expiring δ ev)
    (hclock : m.Clocked₂ δ clock clock') :
    ∃ s rb, Converges (fun fuel => m.circle.handleExpireTimerEx fuel ev clock clock') s ∧
      Holds s.world rb ∧ s.world.alive = m.circle.world.alive ∧
      (∀ p, p ≠ ev → s.conn p = m.circle.conn p) ∧
      (∀ p, p ≠ ev → ∀ k, Pending s.world p k ↔ Pending m.circle.world p k) ∧
      (s.conn ev).activeMs = (m.circle.conn ev).activeMs ∧
      ((m.circle.conn ev).activeMs.val + BC_TIMEOUT < clock.val →
        (s.conn ev).closed = true ∧ ∀ k, ¬ Pending s.world ev k) ∧
      (¬ (m.circle.conn ev).activeMs.val + BC_TIMEOUT < clock.val →
        (s.conn ev).closed = false ∧
          ∀ k, Pending s.world ev k ↔ k = Fin.ofNat _ BC_TIMEOUT + clock') := by
  obtain ⟨rb, hrb⟩ := h.holds
  obtain ⟨hmono, hle, -, hlate, -⟩ := hclock
  obtain ⟨hlast, hact⟩ := he.active
  have hle' := Fin.le_def.mp hle
  have hact' : (m.circle.conn ev).activeMs ≤ clock := Fin.le_def.mpr (hact.trans hmono)
  have htest := silent_iff hact' (by omega)
  have hskip : ∀ fuel, m.circle.handleExpireTimerEx fuel ev clock clock' =
      (m.circle.checkTimeout fuel ev clock clock').bind fun r =>
        if r.1 = true then some r.2 else r.2.connectClose fuel ev := by
    intro fuel
    rw [TimedCircle.handleExpireTimerEx, if_neg (by rw [he.opened]; decide), Option.bind_some]
  by_cases hsilent : (m.circle.conn ev).activeMs.val + BC_TIMEOUT < clock.val
  · obtain ⟨w, rb', hrun, hrb', halive, hpend⟩ :=
      hrb.exec_iff (c := .delete ev) he.exists_conn.1
    have hclose : Converges (fun fuel => m.circle.connectClose fuel ev)
        { m.circle.modify ev (fun c => { c with closed := true }) with world := w } := hrun.map _
    refine ⟨_, rb', hclose.congr fun fuel => ?_, hrb', halive, fun p hp => ?_, fun p hp k => ?_, ?_,
      fun _ => ⟨?_, fun k hk => ((hpend ev k).mp hk).2 rfl⟩, fun hnot => absurd hsilent hnot⟩
    · rw [hskip, TimedCircle.checkTimeout, if_pos (htest.mpr hsilent)]
      rfl
    · exact Function.update_of_ne hp _ _
    · exact (hpend p k).trans (and_iff_left hp)
    · simp [TimedCircle.modify]
    · simp [TimedCircle.modify]
  · obtain ⟨w, rb', hrun, hrb', halive, hpend⟩ :=
      hrb.exec_iff (c := .add (Fin.ofNat _ BC_TIMEOUT) clock' ev) he.exists_conn.1
    have hadd : Converges (fun fuel =>
        m.circle.circleAddTimerEvent fuel (Fin.ofNat _ BC_TIMEOUT) clock' ev)
        { m.circle with world := w } := hrun.map _
    refine ⟨_, rb', hadd.congr fun fuel => ?_, hrb', halive, fun p hp => rfl, fun p hp k => ?_, rfl,
      fun hyes => absurd hyes hsilent, fun _ => ⟨he.opened, fun k => ?_⟩⟩
    · rw [hskip, TimedCircle.checkTimeout, if_neg (mt htest.mp hsilent)]
      cases m.circle.circleAddTimerEvent fuel (Fin.ofNat _ BC_TIMEOUT) clock' ev <;> rfl
    · exact (hpend p k).trans (or_iff_right fun hnew => hp hnew.1)
    · refine (hpend ev k).trans ⟨fun hk => ?_, fun hk => .inl ⟨rfl, hk, he.out⟩⟩
      exact hk.elim (fun hnew => hnew.2.1) fun hold => absurd hold (he.out k)

theorem Ok.expire {clock clock' : Key} (h : m.Ok δ) (hable : m.Able δ (.expire clock clock')) :
    ∃ m', Converges (fun fuel => m.step fuel (.expire clock clock')) m' ∧ m'.Ok δ := by
  obtain ⟨⟨now, ev, hstage⟩, hclock⟩ := hable
  have he := h.expiring now ev hstage
  obtain ⟨s, rb, hrun, hrb, halive, hconn, hpend, hact, hclose, hopen⟩ := he.handle h hclock
  obtain ⟨hmono, hle, hδ, hlate, hlt⟩ := hclock
  have hle' := Fin.le_def.mp hle
  have hmono' : m.clock ≤ clock'.val := hmono.trans hle'
  have hbase : m.base = now.val := by rw [base, hstage]; rfl
  have hpass := h.pass now.val (by rw [hstage]; rfl)
  have hstep : Converges (fun fuel => m.step fuel (.expire clock clock'))
      { m with circle := s, stage := .head now, clock := clock'.val } := by
    refine (hrun.map fun s : TimedCircle =>
      ({ m with circle := s, stage := .head now, clock := clock'.val } : Idle)).congr fun fuel => ?_
    rw [step, hstage]
  refine ⟨_, hstep, ⟨rb, hrb⟩, fun p => ?_, ⟨h.times.1.trans hmono', hlt⟩, fun n hn => ?_,
    fun _ p hp => nomatch hp⟩
  · by_cases hp : p = ev
    · subst hp
      by_cases hsilent : (m.circle.conn p).activeMs.val + BC_TIMEOUT < clock.val
      · obtain ⟨hclosed, hout⟩ := hclose hsilent
        refine ⟨fun k hk => absurd hk (hout k), fun _ k hk => absurd hk (hout k), fun _ _ hno => ?_⟩
        exact absurd (hclosed.symm.trans hno) (by decide)
      · obtain ⟨hstill, hdue⟩ := hopen hsilent
        obtain ⟨hafter, hbefore⟩ := due_near h hmono' hlt hlate
        have hval := due_val hlt
        refine ⟨fun k hk => ?_, fun _ k hk => ?_, fun _ _ _ => .inl ⟨_, (hdue _).mpr rfl⟩⟩
        · rw [(hdue k).mp hk]
          exact ⟨hafter, hbefore now.val (by rw [hstage]; rfl)⟩
        · rw [(hdue k).mp hk]
          show _ ∧ (s.conn p).closed = false ∧ _ ≤ (s.conn p).activeMs.val + late δ ∧
            (s.conn p).activeMs.val ≤ clock'.val
          rw [hact, hval, late_eq]
          unfold BC_TIMEOUT at hsilent
          exact ⟨he.inited, hstill, by omega, he.active.2.trans hmono'⟩
    · refine (h.event p).frame ⟨hpend p hp, congrFun halive p, hconn p hp, rfl, rfl⟩ rfl hbase.le
        hmono' fun n hn => ?_
      rw [hstage] at hn
      exact absurd (Stage.expiring.inj hn).2.symm hp
  · obtain rfl : now.val = n := Option.some.inj hn
    exact ⟨hpass.1, hpass.2.1.trans hmono', hpass.2.2⟩

/-- **許された一手は必ず終わり、不変量を保つ。** -/
theorem Ok.step (h : m.Ok δ) (hable : m.Able δ act) :
    ∃ m', Converges (fun fuel => m.step fuel act) m' ∧ m'.Ok δ := by
  cases act with
  | construct ev => exact h.construct hable
  | destroy ev => exact h.destroy hable
  | initTimer ev clock clock' => exact h.initTimer hable
  | updateActive ev clock => exact ⟨_, .pure _, h.updateActive hable⟩
  | connectClose ev => exact h.connectClose hable
  | call c => exact h.call hable
  | enter now => exact ⟨_, .pure _, h.enter hable⟩
  | turn => exact h.turn hable
  | expire clock clock' => exact h.expire hable
  | ret =>
    obtain ⟨now, hstage⟩ := hable
    refine ⟨_, (Converges.pure _).congr fun fuel => ?_, h.ret hstage⟩
    rw [Idle.step, hstage]

theorem Ok.runs (h : m.Ok δ) (hrun : FuelRuns (Able δ) (fun fuel m => m.step fuel) m acts m') :
    m'.Ok δ :=
  FuelRuns.invariant (fun _ _ ht hable => ht.step hable) hrun h

/-- 接続も event も無い circle。 -/
def start (heap : Ptr → RbNode) (nil : Ptr) (conn : Ptr → ConnTimeout) (clock : Nat) : Idle where
  circle := ⟨.init heap nil, conn⟩
  stage := .idle
  isConn _ := false
  inited _ := false
  clock := clock
  lastPass := clock

theorem start_ok (heap : Ptr → RbNode) (nil : Ptr) (conn : Ptr → ConnTimeout) {clock : Nat}
    (hclock : clock < 2 ^ 63) : (start heap nil conn clock).Ok δ := by
  have hinit : Holds (World.init heap nil) .leaf := .init heap nil
  have hnone : ∀ ev k, ¬ Pending (World.init heap nil) ev k := by
    intro ev k hk
    simpa using hinit.pending_iff.mp hk
  refine ⟨⟨_, hinit⟩, fun ev => ⟨fun k hk => absurd hk (hnone ev k), fun hc => ?_, fun hc => ?_⟩,
    ⟨le_rfl, hclock⟩, fun n hn => ?_, fun _ p hp => nomatch hp⟩
  · cases hc
  · cases hc.2
  · cases hn

end Idle

/-! ## 早すぎも遅すぎもしない -/

/-- 一つの状態で、時間切れについて言えること。 -/
structure TimeoutOk (δ : Nat) (m : Idle) : Prop where
  /-- 閉じた接続の期限は来ないので、`handle_expire_timer_ex` が閉じた接続に出会うことはない。 -/
  closedOut : ∀ ev, m.Conn ev → (m.circle.conn ev).closed = true →
    (∀ k, ¬ Pending m.circle.world ev k) ∧ ∀ now, m.stage ≠ .expiring now ev
  /-- 一回りが終わったとき、開いている接続は、その `60000 + δ` ミリ秒前より後に活動している。 -/
  notLate : m.stage = .idle → ∀ ev, m.Conn ev → m.inited ev = true →
    (m.circle.conn ev).closed = false →
      m.lastPass < (m.circle.conn ev).activeMs.val + Idle.late δ
  /-- 期限の来た接続は、`BC_TIMEOUT` を越えて黙っていたときに限り閉じられ、でなければ加え直される。 -/
  exact : ∀ now ev clock clock', m.stage = .expiring now ev → m.Clocked₂ δ clock clock' →
    ∃ s, Converges (fun fuel => m.circle.handleExpireTimerEx fuel ev clock clock') s ∧
      ((s.conn ev).closed = true ↔ (m.circle.conn ev).activeMs.val + BC_TIMEOUT < clock.val) ∧
      ((s.conn ev).closed = false → Pending s.world ev (Fin.ofNat _ BC_TIMEOUT + clock'))
  progress : ∀ act, m.Able δ act → ∃ m', Converges (fun fuel => m.step fuel act) m'

theorem Idle.Ok.timeoutOk {δ : Nat} {m : Idle} (h : m.Ok δ) : TimeoutOk δ m := by
  refine ⟨fun ev hc hclosed => ⟨fun k hk => ?_, fun now hnow => ?_⟩, fun hidle ev hc hi hopen => ?_,
    fun now ev clock clock' hstage hclock => ?_, fun act hable => ?_⟩
  · have hopen := ((h.event ev).conn hc.2 k hk).2.1
    exact absurd (hclosed.symm.trans hopen) (by decide)
  · have hopen := (h.expiring now ev hnow).opened
    exact absurd (hclosed.symm.trans hopen) (by decide)
  · rcases (h.event ev).armed hc hi hopen with ⟨k, hk⟩ | ⟨now, hnow⟩
    · exact lt_of_lt_of_le ((h.event ev).waits k hk).1 ((h.event ev).conn hc.2 k hk).2.2.1
    · rw [hidle] at hnow
      cases hnow
  · obtain ⟨s, -, hrun, -, -, -, -, -, hclose, hopen⟩ :=
      (h.expiring now ev hstage).handle h hclock
    refine ⟨s, hrun, ?_, fun hstill => ?_⟩
    · by_cases hsilent : (m.circle.conn ev).activeMs.val + BC_TIMEOUT < clock.val
      · exact iff_of_true (hclose hsilent).1 hsilent
      · refine iff_of_false ?_ hsilent
        rw [(hopen hsilent).1]
        decide
    · by_cases hsilent : (m.circle.conn ev).activeMs.val + BC_TIMEOUT < clock.val
      · exact absurd ((hclose hsilent).1.symm.trans hstill) (by decide)
      · exact ((hopen hsilent).2 _).mpr rfl
  · obtain ⟨m', hstep, -⟩ := h.step hable
    exact ⟨m', hstep⟩

/--
**黙った接続は、早すぎも遅すぎもせずに閉じられる。**

空の circle から始まるどの run の後でも成り立つ。閉じられるのは、最後の活動から `BC_TIMEOUT` を
越えたときに限り、`BC_TIMEOUT` の二回分と `δ` を越えて黙ったまま一回りを終えることはない。
-/
theorem closed_iff_silent (δ : Nat) (heap : Ptr → RbNode) (nil : Ptr) (conn : Ptr → ConnTimeout)
    (clock : Nat) (hclock : clock < 2 ^ 63) (acts : List IdleAct) (m : Idle)
    (hrun : FuelRuns (Idle.Able δ) (fun fuel m => m.step fuel) (.start heap nil conn clock) acts m) :
    TimeoutOk δ m :=
  ((Idle.start_ok heap nil conn hclock).runs hrun).timeoutOk

/-! ## 閉じる接続と加え直す接続 -/

namespace Idle

instance (w : World) : (c : Timer.Call) → Decidable (Allowed w c)
  | .construct _ => inferInstanceAs (Decidable (_ ∧ _))
  | .destroy _ => inferInstanceAs (Decidable (_ = _))
  | .add _ _ _ => inferInstanceAs (Decidable (_ = _))
  | .delete _ => inferInstanceAs (Decidable (_ = _))

section

variable (δ : Nat) (m : Idle)

/-- handler や loop の中を、止まっている場所で分ける。 -/
instance : Decidable m.Quiet :=
  match h : m.stage with
  | .idle => .isTrue (.inl h)
  | .other now => .isTrue (.inr ⟨now, h⟩)
  | .head _ => .isFalse (by simp [Quiet, h])
  | .expiring _ _ => .isFalse (by simp [Quiet, h])

instance (st : Stage) : Decidable (st = .idle) :=
  match st with
  | .idle => .isTrue rfl
  | .head _ => .isFalse (by simp)
  | .expiring _ _ => .isFalse (by simp)
  | .other _ => .isFalse (by simp)

instance (st : Stage) : Decidable (∃ now, st = .head now) :=
  match st with
  | .head now => .isTrue ⟨now, rfl⟩
  | .idle => .isFalse (by simp)
  | .expiring _ _ => .isFalse (by simp)
  | .other _ => .isFalse (by simp)

instance (st : Stage) : Decidable (∃ now, st = .other now) :=
  match st with
  | .other now => .isTrue ⟨now, rfl⟩
  | .idle => .isFalse (by simp)
  | .head _ => .isFalse (by simp)
  | .expiring _ _ => .isFalse (by simp)

instance (st : Stage) : Decidable (∃ now ev, st = .expiring now ev) :=
  match st with
  | .expiring now ev => .isTrue ⟨now, ev, rfl⟩
  | .idle => .isFalse (by simp)
  | .head _ => .isFalse (by simp)
  | .other _ => .isFalse (by simp)

instance (ev : Ptr) : Decidable (m.Conn ev) := inferInstanceAs (Decidable (_ ∧ _))

instance (clock : Key) : Decidable (Clocked δ m clock) :=
  inferInstanceAs (Decidable (_ ∧ _ ∧ _))

instance (clock clock' : Key) : Decidable (Clocked₂ δ m clock clock') :=
  inferInstanceAs (Decidable (_ ∧ _ ∧ _ ∧ _ ∧ _))

instance (c : Timer.Call) (P : Key → Key → Ptr → Prop) [∀ timer clock ev, Decidable (P timer clock ev)] :
    Decidable (∀ timer clock ev, c = .add timer clock ev → P timer clock ev) :=
  match c with
  | .add timer clock ev =>
    decidable_of_iff (P timer clock ev) ⟨by rintro h _ _ _ ⟨⟩; exact h, fun h => h _ _ _ rfl⟩
  | .construct _ => .isTrue (by simp)
  | .destroy _ => .isTrue (by simp)
  | .delete _ => .isTrue (by simp)

instance : (act : IdleAct) → Decidable (Able δ m act)
  | .construct _ => inferInstanceAs (Decidable (_ ∧ _))
  | .destroy _ => inferInstanceAs (Decidable (_ ∧ _))
  | .initTimer _ _ _ => inferInstanceAs (Decidable (_ ∧ _ ∧ _ ∧ _))
  | .updateActive _ _ => inferInstanceAs (Decidable (_ ∧ _ ∧ _))
  | .connectClose _ => inferInstanceAs (Decidable (_ ∧ _))
  | .call _ => inferInstanceAs (Decidable (_ ∧ _ ∧ _ ∧ _))
  | .enter _ => inferInstanceAs (Decidable (_ ∧ _))
  | .turn => inferInstanceAs (Decidable (∃ now, m.stage = .head now))
  | .expire _ _ => inferInstanceAs (Decidable (_ ∧ _))
  | .ret => inferInstanceAs (Decidable (∃ now, m.stage = .other now))

end

theorem handleExpireTimerEx_steady (s : TimedCircle) (ev : Ptr) (clock clock' : Key) :
    Steady fun fuel => s.handleExpireTimerEx fuel ev clock clock' := by
  have hclose : ∀ s : TimedCircle, Steady fun fuel => s.connectClose fuel ev :=
    fun s => (Timer.exec_steady _ _).map _
  refine Steady.bind ?_ fun s => Steady.bind ?_ fun r => ?_
  · split
    · exact hclose s
    · exact .const _
  · unfold TimedCircle.checkTimeout
    dsimp only
    split
    · exact .const _
    · exact ((Timer.exec_steady _ _).map _).map _
  · split
    · exact .const _
    · exact hclose _

theorem step_steady (m : Idle) (act : IdleAct) : Steady fun fuel => m.step fuel act := by
  cases act with
  | construct ev => exact .const (m.step 0 (.construct ev))
  | destroy ev => exact ((Timer.exec_steady _ _).map _).map _
  | initTimer ev clock clock' => exact ((Timer.exec_steady _ _).map _).map _
  | updateActive ev clock => exact .const _
  | connectClose ev => exact ((Timer.exec_steady _ _).map _).map _
  | call c => exact (Timer.exec_steady _ _).map _
  | enter now => exact .const _
  | turn =>
    simp only [Idle.step]
    split
    · exact (World.turn_steady _ _).map _
    · exact .const _
  | expire clock clock' =>
    simp only [Idle.step]
    split
    · exact (handleExpireTimerEx_steady _ _ _ _).map _
    · exact .const _
  | ret =>
    simp only [Idle.step]
    split
    · exact .const _
    · exact .const _

end Idle

/-- 接続 `2` は黙ったまま、接続 `3` は時刻 `20000` に活動して、どちらの期限も過ぎてから一回りする。 -/
def twoConns : List IdleAct :=
  [.construct 2, .initTimer 2 1001 1002, .construct 3, .initTimer 3 1003 1004,
    .updateActive 3 20000, .enter 40000, .turn, .expire 40001 40001, .turn, .expire 40002 40003,
    .turn]

/-- 一回りの後、接続 `2` は閉じていて、接続 `3` は `BC_TIMEOUT` の先で待っている。 -/
theorem timeoutOk_after_pass :
    ∃ m, FuelRuns (Idle.Able 5) (fun fuel m => m.step fuel)
        (.start blankHeap 1 (fun _ => ⟨false, 0⟩) 1000) twoConns m ∧
      m.lastPass = 40000 ∧ (m.circle.conn 2).closed = true ∧ (m.circle.conn 3).closed = false ∧
      Pending m.circle.world 3 70003 ∧ TimeoutOk 5 m := by
  have hexec : (execRun (Idle.Able 5) (fun fuel m => m.step fuel) 9
      (.start blankHeap 1 (fun _ => ⟨false, 0⟩) 1000) twoConns).map (fun m => (m.lastPass,
        (m.circle.conn 2).closed, (m.circle.conn 3).closed, m.circle.world.timer.prbt.root,
        m.circle.world.timer.prbt.nil, m.circle.world.timer.prbt.key 3)) =
      some (40000, true, false, 3, 1, 70003) := by
    decide +kernel
  obtain ⟨m, hm, hout⟩ := Option.map_eq_some_iff.mp hexec
  simp only [Prod.mk.injEq] at hout
  obtain ⟨hlast, hclosed, hopen, hroot, hnil, hkey⟩ := hout
  have hrun := FuelRuns.of_execRun Idle.step_steady hm
  have hin : InTree m.circle.world.timer.prbt 3 := by
    rw [← hroot]
    refine .root ?_
    rw [hroot, hnil]
    decide
  exact ⟨m, hrun, hlast, hclosed, hopen, ⟨hin, hkey⟩,
    closed_iff_silent 5 _ _ _ 1000 (by decide) _ _ hrun⟩

end RecordServer.Base
