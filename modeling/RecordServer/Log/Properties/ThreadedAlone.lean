import RecordServer.Log.Properties.ThreadedRotation
import Mathlib.Logic.Relation

/-!
# 一つの thread だけが動くとき

`Threads` は `prt` を共有の操作に分け、`Descriptors` は一度に行う。ほかの thread が割り込まなければ、
二つは同じことをする。

* `Solo` — 一つの操作。ほかの thread の現在地は見ない
* `newFile_alone` — `new_file` の操作を続けて行うと `newFile` になる
* `prt_alone` — `prt` を続けて最後まで行うと `prt` になる
-/

namespace RecordServer.Log.Descriptors.Threads

open Infra

/-- 途中の呼び出しが、共有の操作を一つ行う。 -/
def Solo (x y : Result) : Prop :=
  x.2.2.2.isIdle = false ∧ micro x.1 x.2.1 x.2.2.1 x.2.2.2 = some y

/-- 続けて行う操作。 -/
abbrev Solos : Result → Result → Prop := Relation.ReflTransGen Solo

variable {l l' : FdLog} {k k' : Kernel} {n n' : Nat} {pc pc' : Pc} {c : Call} {site : Site}
  {w w' : World} {o : Opening} {st : Status}

theorem Solo.head {x y z : Result} (h : Solo x y) (hr : Solos y z) : Solos x z :=
  Relation.ReflTransGen.head h hr

/-! ## `new_file` -/

/-- `open` の答えを置いてから戻るまで。 -/
theorem openNext_alone {next : Fin 2} {filename : Bytes} (ho : site.opening c = o)
    (h : openNext ⟨l, k⟩ next filename o = some (w', st)) :
    ∃ n', Solos (l, k, n, .rotate c site (.openCall next filename))
      (w'.log, w'.kernel, n', afterRotate w'.log c site st) := by
  obtain ⟨⟨fd, k'⟩, hopen, hr⟩ := Option.map_eq_some_iff.mp h
  have hcall : Solo (l, k, n, .rotate c site (.openCall next filename))
      (l, k', n, .rotate c site (.storeFd next fd)) := by
    refine ⟨rfl, ?_⟩
    show Option.map _ (k.open' _ (site.opening c).fd) = _
    rw [ho, hopen]
    rfl
  simp only at hr
  by_cases hfd : fd = -1
  · rw [if_pos hfd] at hr
    cases hr
    have hstore : Solo (l, k', n, .rotate c site (.storeFd next fd))
        ({ l with fd := Function.update l.fd next fd }, k', n,
          .rotate c site (.unlock .failure)) := by
      refine ⟨rfl, ?_⟩
      simp only [micro, rotStep, if_pos hfd]
    exact ⟨n, hcall.head (hstore.head (Relation.ReflTransGen.single ⟨rfl, rfl⟩))⟩
  · rw [if_neg hfd] at hr
    cases hr
    have hstore : Solo (l, k', n, .rotate c site (.storeFd next fd))
        ({ l with fd := Function.update l.fd next fd }, k', n, .rotate c site (.storeTime next)) := by
      refine ⟨rfl, ?_⟩
      simp only [micro, rotStep, if_neg hfd]
    -- 時刻と大きさを直し、`m_pos` を読んで進め、`m_busy` を戻す。
    refine ⟨n + 1, hcall.head (hstore.head (Solo.head ⟨rfl, rfl⟩ (Solo.head ⟨rfl, rfl⟩
      (Solo.head ⟨rfl, rfl⟩ (Solo.head ⟨rfl, rfl⟩ ?_)))))⟩
    rw [← ho]
    exact Relation.ReflTransGen.single ⟨rfl, rfl⟩

/-- 次の slot を閉じるまで。開いていなければ、閉じるものは無い。 -/
theorem vacate_alone :
    Solos (l, k, n, .rotate c site .loadPos)
      (l, k.close (l.fd l.next), n, .rotate c site (.index l.next)) := by
  refine Solo.head (y := (l, k, n, .rotate c site (.loadFd l.next))) ⟨rfl, rfl⟩ ?_
  by_cases hfd : l.fd l.next = -1
  · rw [hfd, close_neg_one]
    refine Relation.ReflTransGen.single ⟨rfl, ?_⟩
    simp only [micro, rotStep, if_pos hfd]
  · refine Solo.head (y := (l, k, n, .rotate c site (.close l.next (l.fd l.next)))) ⟨rfl, ?_⟩
      (Relation.ReflTransGen.single ⟨rfl, rfl⟩)
    simp only [micro, rotStep, if_neg hfd]

/-- 名前を作る操作。 -/
theorem index_alone {next : Fin 2} (hamount : l.strategeType = .space → s32ToU32 l.amountSize ≠ 0) :
    Solo (l, k, n, .rotate c site (.index next))
      (l, k, n, .rotate c site (.openCall next (l.nextFilename (site.opening c).time))) := by
  refine ⟨rfl, ?_⟩
  unfold FdLog.nextFilename
  simp only [micro, rotStep]
  cases hs : l.strategeType with
  | time | const => rfl
  | space =>
    simp only
    rw [if_neg (hamount hs)]

theorem amount_ne {w' : World} (hbusy : w.log.busy = 0) (h : newFile w o = some (w', st))
    (hs : w.log.strategeType = .space) : s32ToU32 w.log.amountSize ≠ 0 := by
  intro hz
  simp [newFile, hbusy, hs, hz] at h

/-- `new_file` の操作を続けて行う。 -/
theorem newFile_alone (ho : site.opening c = o) (hbusy : w.log.busy = 0)
    (h : newFile w o = some (w', st)) :
    ∃ n', Solos (w.log, w.kernel, n, .rotate c site .cas)
      (w'.log, w'.kernel, n', afterRotate w'.log c site st) := by
  have hcas : Solo (w.log, w.kernel, n, .rotate c site .cas)
      ({ w.log with busy := 1 }, w.kernel, n, .rotate c site .loadPos) := by
    refine ⟨rfl, ?_⟩
    simp only [micro, rotStep, if_pos hbusy]
  obtain ⟨n', hopen⟩ := openNext_alone (n := n) ho (newFile_eq hbusy h)
  have hindex : Solo ({ w.log with busy := 1 }, w.kernel.close (w.log.fd w.log.next), n,
        .rotate c site (.index w.log.next))
      ({ w.log with busy := 1 }, w.kernel.close (w.log.fd w.log.next), n,
        .rotate c site (.openCall w.log.next (w.log.nextFilename (site.opening c).time))) :=
    index_alone (amount_ne hbusy h)
  rw [ho] at hindex
  exact ⟨n', hcas.head (vacate_alone.trans (hindex.head hopen))⟩

theorem newFile_keeps (hbusy : w.log.busy = 0) (h : newFile w o = some (w', st)) :
    w'.log.busy = 0 ∧ w'.log.strategeType = w.log.strategeType := by
  rcases newFile_cases hbusy h with ⟨-, -, hlog, -⟩ | ⟨fd, -, -, -, hlog, -⟩
  · rw [hlog]
    exact ⟨rfl, rfl⟩
  · rw [hlog]
    exact ⟨rfl, rfl⟩

/-! ## `prt` -/

/-- 今の slot の検査。 -/
theorem check_alone (hbusy : w.log.busy = 0) {b : Bool}
    (h : openIfClosed w c.first = some (w', b)) :
    w'.log.busy = 0 ∧ w'.log.strategeType = w.log.strategeType ∧
      ∃ n', Solos (w.log, w.kernel, n, .checkPos c)
        (w'.log, w'.kernel, n', if b then afterCheck w'.log c else .idle (some (-1))) := by
  have hpos : Solo (w.log, w.kernel, n, .checkPos c) (w.log, w.kernel, n, .checkFd c w.log.pos) :=
    ⟨rfl, rfl⟩
  unfold openIfClosed at h
  split at h
  · rename_i hfd
    obtain ⟨⟨v, st⟩, hnew, hr⟩ := Option.map_eq_some_iff.mp h
    cases hr
    obtain ⟨hbusy', hs⟩ := newFile_keeps hbusy hnew
    obtain ⟨n', hrun⟩ := newFile_alone (n := n) (o := Site.first.opening c) rfl hbusy hnew
    have hfirst : Solo (w.log, w.kernel, n, .checkFd c w.log.pos)
        (w.log, w.kernel, n, .rotate c .first .cas) := by
      refine ⟨rfl, ?_⟩
      simp only [micro, if_pos hfd]
    refine ⟨hbusy', hs, n', hpos.head (hfirst.head ?_)⟩
    cases st with
    | success | failure | retry => exact hrun
  · rename_i hfd
    cases h
    refine ⟨hbusy, rfl, n, hpos.head (Relation.ReflTransGen.single ⟨rfl, ?_⟩)⟩
    simp only [micro, if_neg hfd, if_true]

/-- file を替えるかどうかの検査。 -/
theorem limit_alone :
    Solos (l, k, n, afterCheck l c)
      (l, k, n, if exceeds l l.pos c.now then .rotate c .second .cas else .writePos c) := by
  have hlimit : Solos (l, k, n, .limitPos c)
      (l, k, n, if exceeds l l.pos c.now then .rotate c .second .cas else .writePos c) := by
    refine Solo.head (y := (l, k, n, .limitField c l.pos)) ⟨rfl, rfl⟩
      (Relation.ReflTransGen.single ⟨rfl, ?_⟩)
    simp only [micro]
    split <;> rfl
  cases hs : l.strategeType with
  | time =>
    cases ht : l.timeStrategeType with
    | week =>
      have hnot : exceeds l l.pos c.now = false := by simp [exceeds, hs, FdLog.cut, ht]
      simp only [afterCheck, hs, ht, hnot]
      exact .refl
    | hour | day =>
      simp only [afterCheck, hs, ht]
      exact hlimit
  | space =>
    simp only [afterCheck, hs]
    exact hlimit
  | const =>
    have hnot : exceeds l l.pos c.now = false := by simp [exceeds, hs]
    simp only [afterCheck, hs, hnot]
    exact .refl

/-- 今の slot の file に書くまで。 -/
theorem write_alone (w : World) :
    Solos (w.log, w.kernel, n, .writePos c)
      ((writeBuf w (lineOf c.toCall) c.written).1.log,
        (writeBuf w (lineOf c.toCall) c.written).1.kernel, n,
        .idle (some (result w.log (writeBuf w (lineOf c.toCall) c.written).2.1))) := by
  refine Solo.head (y := (w.log, w.kernel, n, .writeFd c w.log.pos n)) ⟨rfl, rfl⟩
    (Solo.head (y := (w.log, w.kernel, n, .write c (w.log.fd (slot w.log.pos)) n)) ⟨rfl, rfl⟩ ?_)
  simp only [writeBuf]
  generalize hr : w.kernel.write (w.log.fd (slot w.log.pos)) (lineOf c.toCall) c.written = r
  by_cases hret : r.1 > 0
  · have hadd : Solo (w.log, w.kernel, n, .write c (w.log.fd (slot w.log.pos)) n)
        (w.log, r.2.2, n, .addPos c r.1) := by
      refine ⟨rfl, ?_⟩
      simp only [micro, hr, if_pos hret]
    simp only [if_pos hret]
    exact hadd.head (Solo.head ⟨rfl, rfl⟩ (Relation.ReflTransGen.single ⟨rfl, rfl⟩))
  · simp only [if_neg hret]
    exact Relation.ReflTransGen.single ⟨rfl, by simp only [micro, hr, if_neg hret]⟩

theorem result_of_ne_const (h : l.strategeType ≠ .const) (ret : Int) : result l ret = ret := by
  cases hs : l.strategeType with
  | const => exact absurd hs h
  | time | space => simp [result, hs]

/-- file を替えてから書くまで。 -/
theorem second_alone (hbusy : w.log.busy = 0) (hs : w.log.strategeType ≠ .const)
    {r : World × Int × Option Put}
    (h : newFileThenWrite w c.second (lineOf c.toCall) c.written = some r) :
    ∃ n', Solos (w.log, w.kernel, n, .rotate c .second .cas)
      (r.1.log, r.1.kernel, n', .idle (some r.2.1)) := by
  obtain ⟨⟨v, st⟩, hnew, hr⟩ := Option.map_eq_some_iff.mp h
  obtain ⟨-, hs'⟩ := newFile_keeps hbusy hnew
  obtain ⟨n', hrun⟩ := newFile_alone (n := n) (o := Site.second.opening c) rfl hbusy hnew
  cases st with
  | failure =>
    cases hr
    exact ⟨n', hrun⟩
  | success | retry =>
    cases hr
    have hwrite := write_alone (n := n') (c := c) v
    rw [result_of_ne_const (hs'.trans_ne hs)] at hwrite
    exact ⟨n', hrun.trans hwrite⟩

theorem exceeds_time (hs : l.strategeType = .time) (now : Tm) :
    exceeds l l.pos now = l.cut now := by
  unfold exceeds
  simp only [hs]
  rfl

theorem exceeds_space (hs : l.strategeType = .space) (now : Tm) :
    exceeds l l.pos now = !l.hasRoom := by
  unfold exceeds
  simp only [hs]
  rfl

/-- 今の slot の検査を終えた後、替えるべきなら替えて、書くまで。 -/
theorem rest_alone (hbusy : w.log.busy = 0) {r : World × Int × Option Put}
    (h : (if exceeds w.log w.log.pos c.now then newFileThenWrite w c.second (lineOf c.toCall) c.written
      else some (writeBuf w (lineOf c.toCall) c.written)) = some r) :
    ∃ n', Solos (w.log, w.kernel, n, afterCheck w.log c)
      (r.1.log, r.1.kernel, n', .idle (some (result w.log r.2.1))) := by
  have hlimit := limit_alone (l := w.log) (k := w.kernel) (n := n) (c := c)
  split at h
  · rename_i hexceeds
    rw [if_pos hexceeds] at hlimit
    have hne : w.log.strategeType ≠ .const := by
      intro hs
      simp [exceeds, hs] at hexceeds
    obtain ⟨n', hsecond⟩ := second_alone (n := n) hbusy hne h
    rw [result_of_ne_const hne]
    exact ⟨n', hlimit.trans hsecond⟩
  · rename_i hexceeds
    rw [if_neg hexceeds] at hlimit
    cases h
    exact ⟨n, hlimit.trans (write_alone w)⟩

/-- 捨てない行の `prt`。 -/
theorem prt_solos (hbusy : w.log.busy = 0)
    (hlogs : c.level.val ≤ w.log.logLevel.val ∧ c.level ≠ .term) {r : World × Int × Option Put}
    (h : prt w c = some r) :
    ∃ n', Solos (w.log, w.kernel, n, .checkPos c) (r.1.log, r.1.kernel, n', .idle (some r.2.1)) := by
  unfold prt at h
  rw [if_pos hlogs] at h
  cases hs : w.log.strategeType with
  | time =>
    simp only [hs] at h
    obtain ⟨⟨v, b⟩, hopen, hr⟩ := Option.bind_eq_some_iff.mp h
    obtain ⟨hbusy', hs', n₁, hcheck⟩ := check_alone (n := n) hbusy hopen
    cases b with
    | false =>
      cases hr
      exact ⟨n₁, hcheck⟩
    | true =>
      have hr' : (if exceeds v.log v.log.pos c.now then
          newFileThenWrite v c.second (lineOf c.toCall) c.written
          else some (writeBuf v (lineOf c.toCall) c.written)) = some r := by
        rw [exceeds_time (hs'.trans hs)]
        exact hr
      obtain ⟨n', hrest⟩ := rest_alone (n := n₁) hbusy' hr'
      rw [result_of_ne_const (by rw [hs', hs]; simp)] at hrest
      exact ⟨n', hcheck.trans hrest⟩
  | space =>
    simp only [hs] at h
    obtain ⟨⟨v, b⟩, hopen, hr⟩ := Option.bind_eq_some_iff.mp h
    obtain ⟨hbusy', hs', n₁, hcheck⟩ := check_alone (n := n) hbusy hopen
    cases b with
    | false =>
      cases hr
      exact ⟨n₁, hcheck⟩
    | true =>
      have hr' : (if exceeds v.log v.log.pos c.now then
          newFileThenWrite v c.second (lineOf c.toCall) c.written
          else some (writeBuf v (lineOf c.toCall) c.written)) = some r := by
        rw [exceeds_space (hs'.trans hs)]
        simp only [if_true] at hr
        split at hr
        · rename_i hroom
          simpa [hroom] using hr
        · rename_i hroom
          simpa [hroom] using hr
      obtain ⟨n', hrest⟩ := rest_alone (n := n₁) hbusy' hr'
      rw [result_of_ne_const (by rw [hs', hs]; simp)] at hrest
      exact ⟨n', hcheck.trans hrest⟩
  | const =>
    simp only [hs] at h
    obtain ⟨⟨v, b⟩, hopen, hr⟩ := Option.map_eq_some_iff.mp h
    obtain ⟨hbusy', hs', n₁, hcheck⟩ := check_alone (n := n) hbusy hopen
    cases b with
    | false =>
      cases hr
      exact ⟨n₁, hcheck⟩
    | true =>
      obtain ⟨n', hrest⟩ := rest_alone (n := n₁) (c := c) hbusy'
        (by simp [exceeds, hs'.trans hs]; rfl)
      cases hr
      have hresult : ∀ ret, result v.log ret = 0 := fun ret => by simp [result, hs'.trans hs]
      rw [hresult] at hrest
      exact ⟨n', hcheck.trans hrest⟩

/-! ## 一つの thread だけの run -/

section

variable {τ : Type*} [DecidableEq τ] {s : State τ} {t : τ}

/-- 続けて行う操作は、その thread だけを選ぶ run である。 -/
theorem run_of_solos {x y : Result} (h : Solos x y) (hx : x = (s.log, s.kernel, s.turned, s.pc t)) :
    ∃ m, run Threads.step s (List.replicate m (.advance t)) =
      some ⟨y.1, y.2.1, Function.update s.pc t y.2.2.2, y.2.2.1⟩ := by
  induction h using Relation.ReflTransGen.head_induction_on generalizing s with
  | refl =>
    refine ⟨0, ?_⟩
    subst hx
    rw [Function.update_eq_self]
    rfl
  | @head x z hstep _ ih =>
    subst hx
    obtain ⟨hidle, hm⟩ := hstep
    obtain ⟨m, hrun⟩ := ih (s := ⟨z.1, z.2.1, Function.update s.pc t z.2.2.2, z.2.2.1⟩)
      (by simp only [Function.update_self])
    have hadvance : Threads.step s (.advance t) =
        some ⟨z.1, z.2.1, Function.update s.pc t z.2.2.2, z.2.2.1⟩ := by
      simp only [Threads.step]
      rw [if_neg (by simpa using hidle), hm]
      rfl
    refine ⟨m + 1, ?_⟩
    rw [List.replicate_succ, run_cons_eq_some]
    refine ⟨_, hadvance, ?_⟩
    rw [hrun]
    simp only [Function.update_idem]

/--
**ほかの thread が割り込まなければ、`prt` は一度に行ったのと同じことをする。**

`m_busy` が 0 のとき、呼び出していない thread の `prt` を続けて最後まで進めると、ログも kernel も
戻り値も、`Descriptors.prt` と同じになる。
-/
theorem prt_alone (hidle : (s.pc t).isIdle = true) (hbusy : s.log.busy = 0)
    {r : World × Int × Option Put} (h : Descriptors.prt ⟨s.log, s.kernel⟩ c = some r) :
    ∃ m n', run Threads.step s (.prt t c :: List.replicate m (.advance t)) =
      some ⟨r.1.log, r.1.kernel, Function.update s.pc t (.idle (some r.2.1)), n'⟩ := by
  have hstart : Threads.step s (.prt t c) =
      some { s with pc := Function.update s.pc t (entry s.log c) } := by
    simp only [Threads.step, if_pos hidle]
  by_cases hlogs : c.level.val ≤ s.log.logLevel.val ∧ c.level ≠ .term
  · obtain ⟨n', hsolos⟩ := prt_solos (w := ⟨s.log, s.kernel⟩) (n := s.turned) hbusy hlogs h
    have hentry : entry s.log c = .checkPos c := if_pos hlogs
    rw [hentry] at hstart
    obtain ⟨m, hrun⟩ := run_of_solos (s := { s with pc := Function.update s.pc t (.checkPos c) })
      (t := t) hsolos (by simp only [Function.update_self])
    refine ⟨m, n', (run_cons_eq_some _).mpr ⟨_, hstart, ?_⟩⟩
    rw [hrun]
    simp only [Function.update_idem]
  · have hentry : entry s.log c = .idle (some 0) := if_neg hlogs
    rw [hentry] at hstart
    unfold Descriptors.prt at h
    rw [if_neg hlogs] at h
    cases h
    exact ⟨0, s.turned, (run_cons_eq_some _).mpr ⟨_, hstart, rfl⟩⟩

end

end RecordServer.Log.Descriptors.Threads
