import RecordServer.App.Fork

/-!
# manager の program を走らせるのは manager だけか

`execl` が失敗した子は、写した queue を持ったまま `process_queue` の loop などを続ける。
`execl` が失敗しない run では、子は `execl` のほかに何もしない。

* `Pc.next_queue`、`Pc.next_of_ne_queue` — thread の一歩の一覧
* `Ledger` — manager の queue の帳簿。fork した要求は、記録を足す前の先頭のほかには残らない
* `OnlyManager` — 不変量
* `manager_only_run` — `execl` が失敗しない run についての結論
-/

namespace RecordServer.App.Fork

open Infra

/-! ## thread の一歩の一覧 -/

/-- どの thread の位置か。 -/
def Pc.thread : Pc → Thread
  | .queueIdle | .queueCheck _ | .queueCreate _ | .queueFork _ _ | .queueExec _ | .queueInsert _ =>
    .queue
  | .httpIdle | .httpRemove _ | .httpKill _ => .http
  | .monIdle | .monCheck _ | .monLookup _ _ | .monFork _ _ | .monExec _ _ | .monUpdate _ _ =>
    .monitor

/-- queue thread の一歩。 -/
inductive QueueMove (queue : List Ticket) : Pc → Outcome Pc → Prop where
  | take (e : Ticket) : queue.head? = some e → QueueMove queue .queueIdle (.goto (.queueCheck e))
  | exist (e : Ticket) : QueueMove queue (.queueCheck e) (.pop .queueIdle)
  | absent (e : Ticket) : QueueMove queue (.queueCheck e) (.goto (.queueCreate e))
  | createFail (e : Ticket) : QueueMove queue (.queueCreate e) (.pop .queueIdle)
  | create (e : Ticket) (f : CString) : QueueMove queue (.queueCreate e) (.goto (.queueFork e f))
  | forkFail (e : Ticket) (f : CString) : QueueMove queue (.queueFork e f) (.pop .queueIdle)
  | fork (e e' : Ticket) (f : CString) (c : Nat) : e'.id = e.id →
      QueueMove queue (.queueFork e f) (.fork c (some e.id) (.queueInsert e') (.queueExec e))
  | exec (e : Ticket) : QueueMove queue (.queueExec e) .image
  | insert (e : Ticket) (c : Store) : QueueMove queue (.queueInsert e) (.write c true .queueIdle)

/-- ほかの thread の一歩。queue に触れるのは `put_data` だけである。 -/
inductive OtherMove (pc : Pc) : Outcome Pc → Prop where
  | goto (b : Pc) : b.thread = pc.thread → OtherMove pc (.goto b)
  | enqueue (i : ProcessInfo) : OtherMove pc (.enqueue i pc)
  | write (c : Store) (b : Pc) : b.thread = pc.thread → OtherMove pc (.write c false b)
  | fork (c : Nat) (b : Pc) (i : ProcessInfo) (rest : List ProcessInfo) : b.thread = pc.thread →
      pc.thread = .monitor → OtherMove pc (.fork c none b (.monExec i rest))
  | exec : OtherMove pc .image

theorem Pc.next_queue {self : Nat} {w : World} {queue : List Ticket} {pc : Pc} {a : Act}
    {o : Outcome Pc} (hq : pc.thread = .queue) (ha : a ≠ .exec false)
    (h : pc.next self w queue a = some o) : QueueMove queue pc o := by
  cases pc <;> simp only [Pc.thread, reduceCtorEq] at hq <;> cases a <;>
    simp only [Pc.next, reduceCtorEq] at h
  case queueIdle.next =>
    obtain ⟨e, he, rfl⟩ := Option.map_eq_some_iff.mp h
    exact .take e he
  case queueCheck.next e =>
    split at h <;> cases h
    · exact .exist e
    · exact .absent e
  case queueCreate.create e file =>
    cases file <;> cases h
    · exact .createFail e
    · exact .create e _
  case queueFork.fork e f child =>
    cases child <;> cases h
    · exact .forkFail e f
    · exact .fork e _ f _ rfl
  case queueExec.exec e ok =>
    cases ok
    · exact absurd rfl ha
    · cases h
      exact .exec e
  case queueInsert.next e =>
    cases h
    exact .insert e _

theorem Pc.next_of_ne_queue {self : Nat} {w : World} {queue : List Ticket} {pc : Pc} {a : Act}
    {o : Outcome Pc} (hq : pc.thread ≠ .queue) (ha : a ≠ .exec false)
    (h : pc.next self w queue a = some o) : OtherMove pc o := by
  cases pc <;> simp only [Pc.thread, ne_eq, not_true_eq_false] at hq <;> cases a <;>
    simp only [Pc.next, reduceCtorEq] at h
  case httpIdle.start i =>
    cases h
    exact .enqueue i
  case httpIdle.stop sid =>
    split at h <;> cases h <;> exact .goto _ rfl
  case httpRemove.next p =>
    cases h
    exact .write _ _ rfl
  case httpKill.next p =>
    cases h
    exact .goto _ rfl
  case monIdle.next =>
    cases h
    exact .goto _ rfl
  case monCheck.next rest =>
    cases rest with
    | nil =>
      cases h
      exact .goto _ rfl
    | cons i rest =>
      simp only at h
      split at h <;> cases h <;> exact .goto _ rfl
  case monLookup.next pid rest =>
    split at h <;> cases h <;> exact .goto _ rfl
  case monFork.fork info rest child =>
    cases child <;> cases h
    · exact .goto _ rfl
    · exact .fork _ _ info rest rfl rfl
  case monExec.exec info rest ok =>
    cases ok
    · exact absurd rfl ha
    · cases h
      exact .exec
  case monUpdate.next info rest =>
    cases h
    exact .write _ _ rfl

/-- handler の一歩。queue には触れない。 -/
inductive SigMove : Outcome SigPc → Prop where
  | goto (b : SigPc) : SigMove (.goto b)
  | write (c : Store) (b : SigPc) : SigMove (.write c false b)
  | fork (c : Nat) (b : SigPc) (i : ProcessInfo) : SigMove (.fork c none b (.exec i))
  | reap (c : Nat) (b : SigPc) : SigMove (.reap c b)
  | exec : SigMove .image

theorem SigPc.next_cases {self : Nat} {w : World} {s : SigPc} {a : Act} {o : Outcome SigPc}
    (h : s.next self w a = some o) : SigMove o := by
  cases s <;> cases a <;> simp only [SigPc.next, reduceCtorEq] at h
  case none.sigEnter c =>
    split at h <;> cases h
    exact .goto _
  case wait.sigReap c =>
    split at h <;> cases h
    exact .reap _ _
  case wait.sigReturn =>
    cases h
    exact .goto _
  case lookup.next pid =>
    split at h <;> cases h <;> exact .goto _
  case fork.fork info child =>
    cases child <;> cases h
    · exact .goto _
    · exact .fork _ _ info
  case exec.exec info ok =>
    cases ok <;> cases h
    · exact .goto _
    · exact .exec
  case update.next info =>
    cases h
    exact .write _ _

/-! ## manager の queue の帳簿 -/

/-- 今扱っている要求。 -/
def Pc.ticket : Pc → Option Ticket
  | .queueCheck e | .queueCreate e | .queueFork e _ | .queueInsert e => some e
  | _ => none

/--
queue の番号は互いに異なり、まだ使っていない番号より小さい。fork した番号が queue に残るのは、
その要求の記録をこれから足すときだけである。
-/
structure Ledger (nextId : Nat) (forked : List Nat) (queue : List Ticket) (pc : Pc) : Prop where
  nodup : (queue.map Ticket.id).Nodup
  lt : ∀ e ∈ queue, e.id < nextId
  forked_lt : ∀ i ∈ forked, i < nextId
  head : ∀ e, pc.ticket = some e → queue.head?.map Ticket.id = some e.id
  once : ∀ e ∈ queue, e.id ∈ forked → ∃ e', pc = .queueInsert e' ∧ e'.id = e.id

section Ledger

variable {nextId : Nat} {forked : List Nat} {queue : List Ticket} {pc : Pc}

theorem Ledger.enqueue (h : Ledger nextId forked queue pc) (info : ProcessInfo) :
    Ledger (nextId + 1) forked (queue ++ [⟨nextId, info⟩]) pc := by
  refine ⟨?_, ?_, fun i hi => Nat.lt_succ_of_lt (h.forked_lt i hi), ?_, ?_⟩
  · rw [List.map_append, List.nodup_append]
    refine ⟨h.nodup, by simp, ?_⟩
    simp only [List.map_cons, List.map_nil, List.mem_singleton, List.mem_map]
    rintro _ ⟨e, he, rfl⟩ _ rfl
    exact Nat.ne_of_lt (h.lt e he)
  · intro e he
    rcases List.mem_append.mp he with he | he
    · exact Nat.lt_succ_of_lt (h.lt e he)
    · rw [List.mem_singleton.mp he]
      exact Nat.lt_succ_self _
  · intro e he
    have := h.head e he
    cases queue with
    | nil => simp at this
    | cons d queue => simpa using this
  · intro e he hf
    rcases List.mem_append.mp he with he | he
    · exact h.once e he hf
    · rw [List.mem_singleton.mp he] at hf
      exact absurd (h.forked_lt _ hf) (Nat.lt_irrefl _)

/-- 先頭を捨てる。先頭の要求のために fork していても、番号は残りの queue に無い。 -/
theorem Ledger.pop (h : Ledger nextId forked queue pc) :
    Ledger nextId forked queue.tail .queueIdle := by
  cases queue with
  | nil => exact ⟨h.nodup, h.lt, h.forked_lt, by simp [Pc.ticket], by simp⟩
  | cons d queue =>
    have hnd : d.id ∉ queue.map Ticket.id ∧ (queue.map Ticket.id).Nodup :=
      List.nodup_cons.mp h.nodup
    refine ⟨hnd.2, fun e he => h.lt e (by simp [show e ∈ queue from he]), h.forked_lt,
      by simp [Pc.ticket], ?_⟩
    intro e he hf
    have he : e ∈ queue := he
    obtain ⟨e', hpc, hid⟩ := h.once e (by simp [he]) hf
    have hhead := h.head e' (by rw [hpc, Pc.ticket])
    simp only [List.head?_cons, Option.map_some, Option.some.injEq] at hhead
    exact absurd (List.mem_map.mpr ⟨e, he, by rw [hhead, hid]⟩) hnd.1

/-- fork していない要求のままの移動。 -/
theorem Ledger.goto (h : Ledger nextId forked queue pc) {b : Pc} (hpc : ∀ e, pc ≠ .queueInsert e)
    (hb : ∀ e, b.ticket = some e → queue.head?.map Ticket.id = some e.id) :
    Ledger nextId forked queue b := by
  refine ⟨h.nodup, h.lt, h.forked_lt, hb, ?_⟩
  intro e he hf
  obtain ⟨e', hins, -⟩ := h.once e he hf
  exact absurd hins (hpc e')

/-- 先頭の要求のための fork は、その要求の初めての fork である。 -/
theorem Ledger.fork (h : Ledger nextId forked queue pc) {e e' : Ticket}
    (hpc : ∀ d, pc ≠ .queueInsert d) (he : pc.ticket = some e) (hid : e'.id = e.id) :
    e.id ∉ forked ∧ Ledger nextId (forked ++ [e.id]) queue (.queueInsert e') := by
  have hhead := h.head e he
  obtain ⟨d, hd, hde⟩ := Option.map_eq_some_iff.mp hhead
  have hdq : d ∈ queue := List.mem_of_head? hd
  have hnone : ∀ x ∈ queue, x.id ∉ forked := by
    intro x hx hf
    obtain ⟨y, hy, -⟩ := h.once x hx hf
    exact hpc y hy
  refine ⟨hde ▸ hnone d hdq, h.nodup, h.lt, ?_, ?_, ?_⟩
  · intro i hi
    rcases List.mem_append.mp hi with hi | hi
    · exact h.forked_lt i hi
    · rw [List.mem_singleton.mp hi, ← hde]
      exact h.lt d hdq
  · intro x hx
    simp only [Pc.ticket, Option.some.injEq] at hx
    rw [hhead, ← hx, hid]
  · intro x hx hf
    rcases List.mem_append.mp hf with hf | hf
    · exact absurd hf (hnone x hx)
    · exact ⟨e', rfl, by rw [hid, List.mem_singleton.mp hf]⟩

end Ledger

/-! ## 不変量 -/

/-- `execl` をこれから呼ぶ thread。 -/
def Frame.AtExec (f : Frame) : Prop :=
  (∃ i, f.sig = .exec i) ∨
    (f.sig = .none ∧ ((∃ e, f.pc = .queueExec e) ∨ ∃ i rest, f.pc = .monExec i rest))

/-- manager の memory の不変量。 -/
structure RootMemory (nextId : Nat) (forked : List Nat) (m : Memory) : Prop where
  thread : ∀ t f, m.threads t = some f → f.pc.thread = t
  ledger : ∃ f, m.threads .queue = some f ∧ Ledger nextId forked m.queue f.pc

/-- 子は `execl` の前にあり、記録を書き換えたのは manager だけである。 -/
structure OnlyManager (root : Nat) (w : World) : Prop where
  manager : ∀ pr m, w.procs root = some pr → pr.image = .manager m →
    RootMemory w.nextId w.forked m
  child : ∀ p pr m, p ≠ root → w.procs p = some pr → pr.image = .manager m →
    ∀ t f, m.threads t = some f → f.AtExec
  parent : ∀ c pr q, w.procs c = some pr → pr.parent = some q → q = root
  forked : w.forked.Nodup
  writers : ∀ p ∈ w.writers, p = root

theorem onlyManager_boot (root : Nat) (store : Store) (others : Nat → Option ProcState) :
    OnlyManager root (World.boot root store others) := by
  refine ⟨?_, ?_, ?_, List.nodup_nil, by simp [World.boot]⟩
  · intro pr m hpr hm
    simp only [World.boot, if_true, Option.some.injEq] at hpr
    subst hpr
    simp only [Image.manager.injEq] at hm
    subst hm
    refine ⟨?_, ⟨.queueIdle, .none⟩, rfl, by simp [Memory.boot], by simp [Memory.boot],
      by simp [World.boot], by simp [Pc.ticket], by simp [Memory.boot]⟩
    intro t f hf
    cases t <;> simp only [Memory.boot, Option.some.injEq] at hf <;> subst hf <;> rfl
  · intro p pr m hp hpr hm
    simp only [World.boot, if_neg hp, Option.map_eq_some_iff] at hpr
    obtain ⟨st, -, rfl⟩ := hpr
    simp at hm
  · intro c pr q hpr hq
    simp only [World.boot] at hpr
    split at hpr
    · cases hpr
      simp at hq
    · obtain ⟨st, -, rfl⟩ := Option.map_eq_some_iff.mp hpr
      simp at hq

section Step

variable {root : Nat} {w w' : World}

/-- process の生死だけが変わるとき。 -/
theorem OnlyManager.of_rows (h : OnlyManager root w) (hid : w'.nextId = w.nextId)
    (hf : w'.forked = w.forked) (hw : w'.writers = w.writers)
    (hrow : ∀ p pr', w'.procs p = some pr' →
      ∃ pr, w.procs p = some pr ∧ pr.parent = pr'.parent ∧ pr.image = pr'.image) :
    OnlyManager root w' := by
  refine ⟨?_, ?_, ?_, hf ▸ h.forked, hw ▸ h.writers⟩
  · intro pr' m hpr' hm
    obtain ⟨pr, hpr, -, himg⟩ := hrow root pr' hpr'
    rw [hid, hf]
    exact h.manager pr m hpr (himg.trans hm)
  · intro p pr' m hp hpr' hm
    obtain ⟨pr, hpr, -, himg⟩ := hrow p pr' hpr'
    exact h.child p pr m hp hpr (himg.trans hm)
  · intro c pr' q hpr' hq
    obtain ⟨pr, hpr, hpar, -⟩ := hrow c pr' hpr'
    exact h.parent c pr q hpr (hpar.trans hq)

/-- manager の memory が変わり、子が一つ増えるかもしれないとき。 -/
theorem OnlyManager.setRoot (h : OnlyManager root w) {pr : Process} {m : Memory}
    (hpr : w.procs root = some pr) (hroot : RootMemory w'.nextId w'.forked m)
    (hforked : w'.forked.Nodup) (hwriters : ∀ p ∈ w'.writers, p = root)
    (hself : ∀ pr', w'.procs root = some pr' → pr'.parent = pr.parent ∧ pr'.image = .manager m)
    (hrow : ∀ p pr', p ≠ root → w'.procs p = some pr' → w.procs p = some pr' ∨
      (pr'.parent = some root ∧ ∀ m', pr'.image = .manager m' →
        ∀ t f, m'.threads t = some f → f.AtExec)) :
    OnlyManager root w' := by
  refine ⟨?_, ?_, ?_, hforked, hwriters⟩
  · intro pr' m' hpr' hm'
    rw [(hself pr' hpr').2] at hm'
    cases hm'
    exact hroot
  · intro p pr' m' hp hpr' hm'
    rcases hrow p pr' hp hpr' with hold | ⟨-, hnew⟩
    · exact h.child p pr' m' hp hold hm'
    · exact hnew m' hm'
  · intro c pr' q hpr' hq
    by_cases hc : c = root
    · subst hc
      exact h.parent c pr q hpr ((hself pr' hpr').1 ▸ hq)
    · rcases hrow c pr' hc hpr' with hold | ⟨hnew, -⟩
      · exact h.parent c pr' q hold hq
      · rw [hnew] at hq
        exact (Option.some.inj hq).symm

/-- `execl` に成功した process は、もう manager の program ではない。 -/
theorem OnlyManager.image (h : OnlyManager root w) {p : Nat} {pr : Process}
    (hpr : w.procs p = some pr) :
    OnlyManager root
      { w with procs := Function.update w.procs p (some { pr with image := .other }) } := by
  refine ⟨?_, ?_, ?_, h.forked, h.writers⟩
  · intro pr' m hpr' hm
    by_cases hp : root = p
    · subst hp
      simp only [Function.update_self, Option.some.injEq] at hpr'
      subst hpr'
      simp at hm
    · simp only [Function.update_of_ne hp] at hpr'
      exact h.manager pr' m hpr' hm
  · intro q pr' m hq hpr' hm
    by_cases hp : q = p
    · subst hp
      simp only [Function.update_self, Option.some.injEq] at hpr'
      subst hpr'
      simp at hm
    · simp only [Function.update_of_ne hp] at hpr'
      exact h.child q pr' m hq hpr' hm
  · intro c pr' q hpr' hq
    by_cases hp : c = p
    · subst hp
      simp only [Function.update_self, Option.some.injEq] at hpr'
      subst hpr'
      exact h.parent c pr q hpr hq
    · simp only [Function.update_of_ne hp] at hpr'
      exact h.parent c pr' q hpr' hq

/-! ## 子の一歩 -/

/-- **`execl` の前の子にできるのは `execl` だけである。** -/
theorem next_atExec {p : Nat} {queue : List Ticket} {f : Frame} {a : Act} {o : Outcome Frame}
    (hf : f.AtExec) (ha : a ≠ .exec false) (hdead : ∀ c, deadChild w p c = false)
    (h : f.next p w queue a = some o) : a = .exec true ∧ o = .image := by
  rcases hf with ⟨i, hs⟩ | ⟨hs, hpc⟩
  · unfold Frame.next at h
    rw [hs] at h
    cases a <;> simp only [SigPc.next, Option.map_none, reduceCtorEq] at h
    case exec ok =>
      cases ok
      · exact absurd rfl ha
      · cases h
        exact ⟨rfl, rfl⟩
  · unfold Frame.next at h
    rw [hs] at h
    cases a <;> simp only [SigPc.next, hdead, Bool.false_eq_true, if_false, Option.map_none,
      reduceCtorEq] at h <;> rcases hpc with ⟨e, hpc⟩ | ⟨i, rest, hpc⟩ <;>
      simp only [hpc, Pc.next, Option.map_none, reduceCtorEq] at h
    case exec.inl ok =>
      cases ok
      · exact absurd rfl ha
      · cases h
        exact ⟨rfl, rfl⟩
    case exec.inr ok =>
      cases ok
      · exact absurd rfl ha
      · cases h
        exact ⟨rfl, rfl⟩

/-- manager でない process には子がいない。 -/
theorem OnlyManager.deadChild_eq_false (h : OnlyManager root w) {p : Nat} (hp : p ≠ root) (c : Nat) :
    deadChild w p c = false := by
  unfold deadChild
  cases hc : w.procs c with
  | none => rfl
  | some pr =>
    have hne : pr.parent ≠ some p := fun hq => hp (h.parent c pr p hc hq)
    simp [hne]

/-! ## manager の一歩 -/

/-- thread の一歩は、元の位置の一歩か handler の一歩である。 -/
theorem Frame.next_cases {self : Nat} {queue : List Ticket} {f : Frame} {a : Act}
    {o : Outcome Frame} (h : f.next self w queue a = some o) :
    (f.sig = .none ∧ ∃ o', f.pc.next self w queue a = some o' ∧
      o = o'.map fun p => { f with pc := p }) ∨
    ∃ o', f.sig.next self w a = some o' ∧ o = o'.map fun s => { f with sig := s } := by
  unfold Frame.next at h
  split at h
  · obtain ⟨o', ho, rfl⟩ := Option.map_eq_some_iff.mp h
    exact .inr ⟨o', ho, rfl⟩
  · next hs _ =>
    obtain ⟨o', ho, rfl⟩ := Option.map_eq_some_iff.mp h
    exact .inl ⟨hs, o', ho, rfl⟩
  · obtain ⟨o', ho, rfl⟩ := Option.map_eq_some_iff.mp h
    exact .inr ⟨o', ho, rfl⟩

section Memory

variable {nextId nextId' : Nat} {forked forked' : List Nat} {m : Memory} {t : Thread} {g : Frame}
  {queue : List Ticket}

theorem thread_setThread (hm : ∀ t f, m.threads t = some f → f.pc.thread = t)
    (hg : g.pc.thread = t) :
    ∀ u f, (Memory.setThread ⟨queue, m.threads⟩ t g).threads u = some f → f.pc.thread = u := by
  intro u f hf
  by_cases hu : u = t
  · subst hu
    simp only [Memory.setThread, Function.update_self, Option.some.injEq] at hf
    rw [← hf, hg]
  · simp only [Memory.setThread, Function.update_of_ne hu] at hf
    exact hm u f hf

/-- queue thread が動いたとき。 -/
theorem RootMemory.setQueue (hm : RootMemory nextId forked m) (hg : g.pc.thread = .queue)
    (hl : Ledger nextId' forked' queue g.pc) :
    RootMemory nextId' forked' (Memory.setThread ⟨queue, m.threads⟩ .queue g) :=
  ⟨thread_setThread hm.thread hg, g, by simp [Memory.setThread], hl⟩

/-- ほかの thread が動いたとき。 -/
theorem RootMemory.setOther (hm : RootMemory nextId forked m) (ht : t ≠ .queue)
    (hg : g.pc.thread = t)
    (hl : ∀ pc, Ledger nextId forked m.queue pc → Ledger nextId' forked' queue pc) :
    RootMemory nextId' forked' (Memory.setThread ⟨queue, m.threads⟩ t g) := by
  obtain ⟨f, hf, hled⟩ := hm.ledger
  refine ⟨thread_setThread hm.thread hg, f, ?_, hl f.pc hled⟩
  simp only [Memory.setThread, Function.update_of_ne ht.symm, hf]

/-- handler だけが動いたとき。 -/
theorem RootMemory.setSig (hm : RootMemory nextId forked m) {f : Frame}
    (hf : m.threads t = some f) (s : SigPc) :
    RootMemory nextId forked (m.setThread t { f with sig := s }) := by
  have hft := hm.thread t f hf
  by_cases ht : t = .queue
  · subst ht
    obtain ⟨f', hf', hled⟩ := hm.ledger
    obtain rfl := Option.some.inj (hf.symm.trans hf')
    exact RootMemory.setQueue hm hft hled
  · exact RootMemory.setOther hm ht hft fun _ hl => hl

end Memory

/-- manager の memory だけが変わるとき。 -/
theorem OnlyManager.setMemory (h : OnlyManager root w) {pr : Process} {m : Memory}
    (hpr : w.procs root = some pr) (hprocs : w'.procs = (w.setMemory root pr m).procs)
    (hroot : RootMemory w'.nextId w'.forked m) (hforked : w'.forked.Nodup)
    (hwriters : ∀ p ∈ w'.writers, p = root) : OnlyManager root w' := by
  refine h.setRoot hpr hroot hforked hwriters ?_ ?_
  · intro pr' hpr'
    simp only [hprocs, World.setMemory, Function.update_self, Option.some.injEq] at hpr'
    subst hpr'
    exact ⟨rfl, rfl⟩
  · intro p pr' hp hpr'
    simp only [hprocs, World.setMemory, Function.update_of_ne hp] at hpr'
    exact .inl hpr'

/-- 子が `execl` の前で増えるとき。 -/
theorem OnlyManager.forkChild (h : OnlyManager root w) {pr : Process} {m m' : Memory} {t : Thread}
    {k : Frame} {c : Nat} (hpr : w.procs root = some pr) (hc : c ≠ root) (hk : k.AtExec)
    (hprocs : w'.procs = Function.update (w.setMemory root pr m).procs c
      (some ⟨some root, .running, .manager (m'.copy t k)⟩))
    (hroot : RootMemory w'.nextId w'.forked m) (hforked : w'.forked.Nodup)
    (hwriters : ∀ p ∈ w'.writers, p = root) : OnlyManager root w' := by
  refine h.setRoot hpr hroot hforked hwriters ?_ ?_
  · intro pr' hpr'
    simp only [hprocs, World.setMemory, Function.update_of_ne hc.symm, Function.update_self,
      Option.some.injEq] at hpr'
    subst hpr'
    exact ⟨rfl, rfl⟩
  · intro p pr' hp hpr'
    by_cases hpc : p = c
    · subst hpc
      simp only [hprocs, Function.update_self, Option.some.injEq] at hpr'
      subst hpr'
      refine .inr ⟨rfl, fun m'' hm'' u f hf => ?_⟩
      simp only [Image.manager.injEq] at hm''
      subst hm''
      simp only [Memory.copy] at hf
      split at hf
      · cases hf
        exact hk
      · cases hf
    · simp only [hprocs, World.setMemory, Function.update_of_ne hpc, Function.update_of_ne hp] at hpr'
      exact .inl hpr'

/-- 空いている番号は動いている process のものではない。 -/
theorem ne_of_not_exists? {procs : Nat → Option Process} {p c : Nat} {pr : Process}
    (hpr : procs p = some pr) (hrun : pr.state = .running) (hfree : ¬exists? procs c = true) :
    c ≠ p := by
  rintro rfl
  exact hfree (by simp [exists?, hpr, hrun])

/-- manager が tree に書いても、書き手は manager だけである。 -/
theorem OnlyManager.writers_append (h : OnlyManager root w) :
    ∀ p ∈ w.writers ++ [root], p = root := by
  intro p hp
  rcases List.mem_append.mp hp with hp | hp
  · exact h.writers p hp
  · exact List.mem_singleton.mp hp

/-- manager の queue thread の一歩。 -/
theorem onlyManager_queueMove (h : OnlyManager root w) {pr : Process} {m : Memory} {f : Frame}
    {o : Outcome Pc} (hpr : w.procs root = some pr) (hrun : pr.state = .running)
    (himg : pr.image = .manager m) (hf : m.threads .queue = some f) (hsig : f.sig = .none)
    (ho : QueueMove m.queue f.pc o)
    (hs : w.apply root pr m .queue (o.map fun p => { f with pc := p }) = some w') :
    OnlyManager root w' := by
  have hm := h.manager pr m hpr himg
  have hled : Ledger w.nextId w.forked m.queue f.pc := by
    obtain ⟨f', hf', hled⟩ := hm.ledger
    rwa [Option.some.inj (hf.symm.trans hf')]
  generalize hpc : f.pc = pc at ho hled
  cases ho with
  | take e he =>
    cases hs
    exact h.setMemory hpr rfl (hm.setQueue rfl (hled.goto (by simp) (by simp [Pc.ticket, he])))
      h.forked h.writers
  | exist e | createFail e | forkFail e file =>
    cases hs
    exact h.setMemory hpr rfl (hm.setQueue rfl hled.pop) h.forked h.writers
  | absent e | create e file =>
    cases hs
    refine h.setMemory hpr rfl (hm.setQueue rfl (hled.goto (by simp) ?_)) h.forked h.writers
    exact fun d hd => hled.head d hd
  | fork e e' file c hid =>
    simp only [Outcome.map, World.apply] at hs
    split at hs
    · cases hs
    · next hfree =>
      cases hs
      have hc : c ≠ root := ne_of_not_exists? hpr hrun hfree
      obtain ⟨hnew, hled'⟩ := hled.fork (by simp) rfl hid
      have hmem : RootMemory w.nextId (w.forked ++ [e.id])
          (m.setThread .queue { f with pc := .queueInsert e' }) := hm.setQueue rfl hled'
      have hk : Frame.AtExec { f with pc := .queueExec e } := .inr ⟨hsig, .inl ⟨e, rfl⟩⟩
      refine h.forkChild hpr hc hk rfl hmem ?_ h.writers
      exact List.nodup_append.mpr ⟨h.forked, by simp, by
        rintro i hi _ hj rfl
        exact hnew (List.mem_singleton.mp hj ▸ hi)⟩
  | exec e =>
    cases hs
    exact h.image hpr
  | insert e c =>
    cases hs
    exact h.setMemory hpr rfl (hm.setQueue rfl hled.pop) h.forked h.writers_append

/-- manager のほかの thread の一歩。 -/
theorem onlyManager_otherMove (h : OnlyManager root w) {pr : Process} {m : Memory} {t : Thread}
    {f : Frame} {o : Outcome Pc} (hpr : w.procs root = some pr) (hrun : pr.state = .running)
    (himg : pr.image = .manager m) (hf : m.threads t = some f) (ht : t ≠ .queue)
    (hsig : f.sig = .none) (ho : OtherMove f.pc o)
    (hs : w.apply root pr m t (o.map fun p => { f with pc := p }) = some w') :
    OnlyManager root w' := by
  have hm := h.manager pr m hpr himg
  have hft := hm.thread t f hf
  cases ho with
  | goto b hb =>
    cases hs
    exact h.setMemory hpr rfl (hm.setOther ht (hb.trans hft) fun _ hl => hl) h.forked h.writers
  | enqueue i =>
    cases hs
    exact h.setMemory hpr rfl (hm.setOther ht hft fun _ hl => hl.enqueue i) h.forked h.writers
  | write c b hb =>
    cases hs
    exact h.setMemory hpr rfl (hm.setOther ht (hb.trans hft) fun _ hl => hl) h.forked
      h.writers_append
  | fork c b i rest hb hmon =>
    simp only [Outcome.map, World.apply] at hs
    split at hs
    · cases hs
    · next hfree =>
      cases hs
      have hc : c ≠ root := ne_of_not_exists? hpr hrun hfree
      have hmem : RootMemory w.nextId (w.forked ++ [])
          (m.setThread t { f with pc := b }) := by
        rw [List.append_nil]
        exact hm.setOther ht (hb.trans hft) fun _ hl => hl
      have hk : Frame.AtExec { f with pc := .monExec i rest } := .inr ⟨hsig, .inr ⟨i, rest, rfl⟩⟩
      exact h.forkChild hpr hc hk rfl hmem (by simpa using h.forked) h.writers
  | exec =>
    cases hs
    exact h.image hpr

/-- manager の thread に割り込んだ handler の一歩。 -/
theorem onlyManager_sigMove (h : OnlyManager root w) {pr : Process} {m : Memory} {t : Thread}
    {f : Frame} {o : Outcome SigPc} (hpr : w.procs root = some pr) (hrun : pr.state = .running)
    (himg : pr.image = .manager m) (hf : m.threads t = some f) (ho : SigMove o)
    (hs : w.apply root pr m t (o.map fun s => { f with sig := s }) = some w') :
    OnlyManager root w' := by
  have hm := h.manager pr m hpr himg
  cases ho with
  | goto b =>
    cases hs
    exact h.setMemory hpr rfl (hm.setSig hf b) h.forked h.writers
  | write c b =>
    cases hs
    exact h.setMemory hpr rfl (hm.setSig hf b) h.forked h.writers_append
  | fork c b i =>
    simp only [Outcome.map, World.apply] at hs
    split at hs
    · cases hs
    · next hfree =>
      cases hs
      have hc : c ≠ root := ne_of_not_exists? hpr hrun hfree
      have hmem : RootMemory w.nextId (w.forked ++ []) (m.setThread t { f with sig := b }) := by
        rw [List.append_nil]
        exact hm.setSig hf b
      have hk : Frame.AtExec { f with sig := .exec i } := .inl ⟨i, rfl⟩
      exact h.forkChild hpr hc hk rfl hmem (by simpa using h.forked) h.writers
  | reap c b =>
    cases hs
    have hset : OnlyManager root (w.setMemory root pr (m.setThread t { f with sig := b })) :=
      h.setMemory hpr rfl (hm.setSig hf b) h.forked h.writers
    -- 回収された行は生死だけが変わる。`c` が manager 自身でも、行の中身は前と同じである
    by_cases hc : c = root
    · subst hc
      refine h.of_rows rfl rfl rfl fun p pr' hpr' => ?_
      by_cases hp : p = c
      · subst hp
        simp only [Function.update_self, hpr, Option.map_some, Option.some.injEq] at hpr'
        exact ⟨pr, hpr, by rw [← hpr'], by rw [← hpr']⟩
      · simp only [World.setMemory, Function.update_of_ne hp] at hpr'
        exact ⟨pr', hpr', rfl, rfl⟩
    · refine hset.of_rows rfl rfl rfl fun p pr' hpr' => ?_
      by_cases hp : p = c
      · subst hp
        simp only [Function.update_self] at hpr'
        obtain ⟨pr₀, hpr₀, rfl⟩ := Option.map_eq_some_iff.mp hpr'
        exact ⟨pr₀, by simpa [World.setMemory, hc] using hpr₀, rfl, rfl⟩
      · simp only [Function.update_of_ne hp] at hpr'
        exact ⟨pr', hpr', rfl, rfl⟩
  | exec =>
    cases hs
    exact h.image hpr

/-! ## run -/

/-- 一歩の条件。`execl` は失敗しない。 -/
def ExecSucceeds (_ : World) : Label → Prop
  | .thread _ _ a => a ≠ .exec false
  | .die _ => True

/-- 子の一歩は、`execl` に成功して別の program になることだけである。 -/
def Label.AllowedIn (root : Nat) : Label → Prop
  | .thread p _ a => p = root ∨ a = .exec true
  | .die _ => True

/-- **`execl` が失敗しない子の一歩は、`execl` に成功して別の program になる一歩である。** -/
theorem OnlyManager.child_step (h : OnlyManager root w) {p : Nat} {t : Thread} {a : Act}
    (hp : p ≠ root) (ha : a ≠ .exec false) (hs : w.step (.thread p t a) = some w') :
    a = .exec true ∧ ∃ pr, w.procs p = some pr ∧
      w' = { w with procs := Function.update w.procs p (some { pr with image := .other }) } := by
  obtain ⟨pr, m, f, o, hpr, -, himg, hf, ho, hs⟩ := World.step_thread hs
  obtain ⟨rfl, rfl⟩ := next_atExec (h.child p pr m hp hpr himg t f hf) ha
    (h.deadChild_eq_false hp) ho
  exact ⟨rfl, pr, hpr, (Option.some.inj hs).symm⟩

/-- manager の thread の一歩。 -/
theorem OnlyManager.root_step (h : OnlyManager root w) {t : Thread} {a : Act}
    (ha : a ≠ .exec false) (hs : w.step (.thread root t a) = some w') : OnlyManager root w' := by
  obtain ⟨pr, m, f, o, hpr, hrun, himg, hf, ho, hs⟩ := World.step_thread hs
  rcases Frame.next_cases ho with ⟨hsig, o', ho', rfl⟩ | ⟨o', ho', rfl⟩
  · have hft := (h.manager pr m hpr himg).thread t f hf
    by_cases ht : t = .queue
    · subst ht
      exact onlyManager_queueMove h hpr hrun himg hf hsig (Pc.next_queue hft ha ho') hs
    · exact onlyManager_otherMove h hpr hrun himg hf ht hsig
        (Pc.next_of_ne_queue (hft ▸ ht) ha ho') hs
  · exact onlyManager_sigMove h hpr hrun himg hf (SigPc.next_cases ho') hs

/-- **`execl` が失敗しない一歩は不変量を保ち、子の一歩なら `execl` である。** -/
theorem onlyManager_step {l : Label} (he : ExecSucceeds w l) (hs : w.step l = some w')
    (h : OnlyManager root w) : OnlyManager root w' ∧ l.AllowedIn root := by
  cases l with
  | die p =>
    obtain ⟨pr, hpr, -, rfl⟩ := World.step_die hs
    refine ⟨h.of_rows rfl rfl rfl fun q pr' hpr' => ?_, True.intro⟩
    by_cases hq : q = p
    · subst hq
      simp only [Function.update_self, Option.some.injEq] at hpr'
      exact ⟨pr, hpr, hpr' ▸ rfl, hpr' ▸ rfl⟩
    · simp only [Function.update_of_ne hq] at hpr'
      exact ⟨pr', hpr', rfl, rfl⟩
  | thread p t a =>
    by_cases hp : p = root
    · subst hp
      exact ⟨h.root_step he hs, .inl rfl⟩
    · obtain ⟨rfl, pr, hpr, rfl⟩ := h.child_step hp he hs
      exact ⟨h.image hpr, .inr rfl⟩

end Step

/--
**manager の program を走らせるのは manager だけである。**

`execl` が失敗しない run では、fork した子は `execl` のほかに一歩も進めず、一つの要求のための fork は
全部の process を合わせて高々一回で、記録を書き換えるのは manager だけである。
-/
theorem manager_only_run (root : Nat) (store : Store) (others : Nat → Option ProcState)
    (labels : List Label) (w : World)
    (he : Along World.step ExecSucceeds (World.boot root store others) labels)
    (hrun : run World.step (World.boot root store others) labels = some w) :
    (∀ l ∈ labels, l.AllowedIn root) ∧ w.forked.Nodup ∧ ∀ p ∈ w.writers, p = root := by
  suffices hgen : ∀ (labels : List Label) (w₀ w : World), Along World.step ExecSucceeds w₀ labels →
      run World.step w₀ labels = some w → OnlyManager root w₀ →
      (∀ l ∈ labels, l.AllowedIn root) ∧ OnlyManager root w by
    obtain ⟨hl, hw⟩ := hgen labels _ w he hrun (onlyManager_boot root store others)
    exact ⟨hl, hw.forked, hw.writers⟩
  intro labels
  induction labels with
  | nil =>
    intro w₀ w _ hrun h
    cases hrun
    exact ⟨by simp, h⟩
  | cons l labels ih =>
    intro w₀ w he hrun h
    obtain ⟨w₁, hs, hrun⟩ := (run_cons_eq_some World.step).mp hrun
    obtain ⟨h₁, hl⟩ := onlyManager_step he.1 hs h
    obtain ⟨hls, hw⟩ := ih w₁ w (he.2 w₁ hs) hrun h₁
    exact ⟨List.forall_mem_cons.mpr ⟨hl, hls⟩, hw⟩

instance (w : World) (l : Label) : Decidable (ExecSucceeds w l) :=
  match l with
  | .thread _ _ _ => inferInstanceAs (Decidable (_ ≠ _))
  | .die _ => isTrue True.intro

/-- `streamcode` の録画を始める要求。 -/
def startOf (streamcode : String) : ProcessInfo :=
  { sid := .ofBytes (ascii streamcode), pid := 0, ppid := 0, srcUrl := .ofBytes [], m3u8Path := .ofBytes [],
    type := .ofBytes [], status := .ofBytes [], host := .ofBytes [] }

/-- process `p` の queue thread が、次の要求のために pid `c` の子を fork するまで。 -/
def spawns (p c : Nat) : List Label :=
  [.thread p .queue .next, .thread p .queue .next,
    .thread p .queue (.create (some (.ofBytes []))), .thread p .queue (.fork (some c))]

/-- manager（pid 1）が要求を二つ受け付ける。 -/
def twoStarts : List Label :=
  [.thread 1 .http (.start (startOf "a")), .thread 1 .http (.start (startOf "b"))]

/-- 二つの要求のために子を一つずつ作り、どちらの子も `execl` に成功する。 -/
theorem manager_only_two_starts :
    ∃ w, run World.step (World.boot 1 [] fun _ => none)
        (twoStarts ++ spawns 1 10 ++ [.thread 10 .queue (.exec true), .thread 1 .queue .next]
          ++ spawns 1 11 ++ [.thread 11 .queue (.exec true), .thread 1 .queue .next]) = some w ∧
      w.writers = [1, 1] ∧ w.forked.Nodup :=
  ⟨_, rfl, rfl, (manager_only_run 1 [] (fun _ => none)
    (twoStarts ++ spawns 1 10 ++ [.thread 10 .queue (.exec true), .thread 1 .queue .next]
      ++ spawns 1 11 ++ [.thread 11 .queue (.exec true), .thread 1 .queue .next]) _
    (by decide) rfl).2.1⟩

/--
`execl` が失敗した子（pid 10）は写した queue の残りを扱い、同じ要求のために manager と二重に fork し、
記録も書き換える。
-/
theorem child_runs_manager :
    ∃ w, run World.step (World.boot 1 [] fun _ => none)
        (twoStarts ++ spawns 1 10 ++ [.thread 10 .queue (.exec false)] ++ spawns 10 11
          ++ [.thread 1 .queue .next] ++ spawns 1 12 ++ [.thread 10 .queue .next]) = some w ∧
      ¬w.forked.Nodup ∧ 10 ∈ w.writers :=
  ⟨_, rfl, by decide, by decide⟩

end RecordServer.App.Fork
