import RecordServer.Ftp.ListBuffer
import RecordServer.Ftp.Properties.Transfers

/-!
# 一覧の領域は足りるか

一度に届くのは 512 byte までで、領域は 512 byte から倍になるので、一度倍にすればいつも足りる。

* `Room` — 不変量。領域の大きさは `buf_len` で、届いたものが先頭に並ぶ
* `Room.step` / `Room.run` — 一つの塊を足す間と、loop の間に守られること
* `listRun_listLoop` — 結果は `listLoop` と同じである
* `Room.completes` — `malloc` が失敗しなければ、loop は終わる
* `list_buffer_fits` — どの `memcpy` も領域に収まり、`malloc` が成功すれば `re_buf` に全部が並ぶ
-/

namespace RecordServer.Ftp

open Infra

variable {s s' : ListBuf} {acc : Bytes} {c : ListChunk} {cs : List ListChunk}

/-- 領域に塊が収まる。 -/
def Memcpy.Fits (m : Memcpy) : Prop := m.totalLen + m.len ≤ m.bufLen

/-- `acc` まで届いたときの変数。`NULL` なのは、初めの `malloc` に失敗したときだけである。 -/
structure Room (acc : Bytes) (s : ListBuf) : Prop where
  total : s.totalLen = acc.length
  fits : s.totalLen ≤ s.bufLen
  low : 512 ≤ s.bufLen
  high : s.bufLen ≤ addressSpace
  null : s.reBuf = none → acc = [] ∧ s.bufLen = 512
  buf : ∀ b, s.reBuf = some b → b.size = s.bufLen ∧ b.contents acc.length = acc

theorem Room.start (fresh : Option (Nat → UInt8)) : Room [] (listStart fresh) where
  total := rfl
  fits := show (0 : Int) ≤ 512 by decide
  low := show (512 : Int) ≤ 512 by decide
  high := show (512 : Int) ≤ addressSpace by decide
  null := fun _ => ⟨rfl, rfl⟩
  buf := by
    intro b hb
    cases fresh with
    | none => cases hb
    | some f =>
      cases hb
      exact ⟨rfl, rfl⟩

/-- 領域に収まる書き込みは、先頭の並びに続ける。 -/
theorem memcpy_append {b : Buffer} {w : Bytes} (hacc : b.contents acc.length = acc)
    (hfit : acc.length + w.length ≤ b.size) :
    ∃ b', memcpy (some b) acc.length w = .ok b' ∧ b'.size = b.size ∧
      b'.contents (acc ++ w).length = acc ++ w := by
  obtain ⟨b', hw, hsize, hin, hout⟩ := Buffer.write_eq_some hfit
  refine ⟨b', ?_, hsize, Buffer.contents_eq fun j hj => ?_⟩
  · rw [memcpy, Int.toNat_natCast, hw]
  · rw [List.length_append] at hj
    by_cases hlt : j < acc.length
    · have hmem : b.mem j = acc.getD j 0 := by
        rw [List.getD_eq_getElem _ _ hlt]
        have hget := List.getElem_of_eq hacc.symm hlt
        simpa [Buffer.contents] using hget.symm
      rw [hout j (.inl hlt), hmem, List.getD_append _ _ _ _ hlt]
    · rw [hin j (by omega) hj, List.getD_append_right _ _ _ _ (by omega)]

/-- 一つの塊を足した結果。 -/
structure Stepped (acc : Bytes) (r : List Memcpy × Except Fault ListBuf) : Prop where
  fits : ∀ m ∈ r.1, m.Fits
  faults : ∀ f, r.2 = .error f → f = .null
  room : ∀ s, r.2 = .ok s → Room acc s

theorem Room.append (h : Room acc s) {b : Buffer} {bufLen : Int} (hsize : b.size = bufLen)
    (hcontents : b.contents acc.length = acc) (hlow : 512 ≤ bufLen) (hhigh : bufLen ≤ addressSpace)
    (hfit : s.totalLen + c.bytes.length ≤ bufLen) :
    ∃ s', appendChunk (some b) bufLen s.totalLen c.bytes = .ok s' ∧ Room (acc ++ c.bytes) s' := by
  have htotal := h.total
  have hspace : (addressSpace : Int) = 2 ^ 47 := rfl
  obtain ⟨b', hb', hsize', hcontents'⟩ := memcpy_append (w := c.bytes) hcontents (by omega)
  have hsum : Int.bmod (s.totalLen + c.bytes.length) (2 ^ 64) = s.totalLen + c.bytes.length :=
    Int.bmod_eq_of_le (by omega) (by omega)
  refine ⟨⟨some b', bufLen, s.totalLen + c.bytes.length⟩, ?_, ?_, hfit, hlow, hhigh, ?_, ?_⟩
  · rw [appendChunk, htotal, hb', ← htotal, hsum]
    rfl
  · rw [List.length_append, htotal]
    rfl
  · intro hnone
    cases hnone
  · intro b'' hb''
    cases hb''
    exact ⟨hsize'.symm ▸ hsize, hcontents'⟩

theorem Stepped.null {ms : List Memcpy} (hfits : ∀ m ∈ ms, m.Fits) :
    Stepped acc (ms, .error .null) := by
  refine ⟨hfits, ?_, nofun⟩
  rintro _ ⟨⟩
  rfl

theorem Room.stepped (h : Room acc s) {b : Buffer} {bufLen : Int} (hsize : b.size = bufLen)
    (hcontents : b.contents acc.length = acc) (hlow : 512 ≤ bufLen) (hhigh : bufLen ≤ addressSpace)
    (hfit : s.totalLen + c.bytes.length ≤ bufLen) {ms : List Memcpy} (hfits : ∀ m ∈ ms, m.Fits) :
    Stepped (acc ++ c.bytes) (ms, appendChunk (some b) bufLen s.totalLen c.bytes) := by
  obtain ⟨s', hs', hroom⟩ := h.append hsize hcontents hlow hhigh hfit
  rw [hs']
  refine ⟨hfits, nofun, ?_⟩
  rintro _ ⟨⟩
  exact hroom

theorem malloc_eq_some {fresh : Option (Nat → UInt8)} {n : Int} {b : Buffer} (hn : 0 ≤ n)
    (hlt : n < 2 ^ 63) (h : malloc fresh n = some b) : b.size = n ∧ n ≤ addressSpace := by
  have hmod : n % 2 ^ 64 = n := Int.emod_eq_of_lt hn (by omega)
  rw [malloc, hmod] at h
  split at h
  · next hle =>
    obtain ⟨f, -, rfl⟩ := Option.map_eq_some_iff.mp h
    exact ⟨Int.toNat_of_nonneg hn, hle⟩
  · cases h

/-- 倍にした領域には、前の中身が移っている。 -/
theorem Room.grow (h : Room acc s) {b : Buffer} (hb : s.reBuf = some b)
    (fresh : Option (Nat → UInt8)) :
    (growBuf s fresh).1 = s.bufLen * 2 ∧
      ((growBuf s fresh).2 = .error .null ∨
        ∃ b', (growBuf s fresh).2 = .ok b' ∧ b'.size = s.bufLen * 2 ∧
          s.bufLen * 2 ≤ addressSpace ∧ b'.contents acc.length = acc) := by
  have htotal := h.total
  have hfits := h.fits
  have hlow := h.low
  have hhigh := h.high
  have hspace : (addressSpace : Int) = 2 ^ 47 := rfl
  obtain ⟨hsize, hcontents⟩ := h.buf b hb
  have hdouble : Int.bmod (s.bufLen * 2) (2 ^ 64) = s.bufLen * 2 :=
    Int.bmod_eq_of_le (by omega) (by omega)
  rw [growBuf, hdouble, hb]
  refine ⟨rfl, ?_⟩
  simp only
  rw [if_pos (by omega), htotal, Int.toNat_natCast, hcontents]
  cases hm : malloc fresh (s.bufLen * 2) with
  | none => exact .inl rfl
  | some n =>
    obtain ⟨hn, hle⟩ := malloc_eq_some (by omega) (by omega) hm
    have hnil : n.contents ([] : Bytes).length = [] := rfl
    obtain ⟨b', hb', hsize', hcontents'⟩ := memcpy_append (w := acc) hnil
      (by rw [List.length_nil]; omega)
    exact .inr ⟨b', hb', by rw [hsize', hn], hle, hcontents'⟩

/-- 一つの塊を足す間、どの `memcpy` も領域に収まり、中身は続く。 -/
theorem Room.step (h : Room acc s) (c : ListChunk) : Stepped (acc ++ c.bytes) (listStep s c) := by
  obtain ⟨hpos, hlen⟩ := c.received
  have htotal := h.total
  have hfits := h.fits
  have hlow := h.low
  have hhigh := h.high
  have hspace : (addressSpace : Int) = 2 ^ 47 := rfl
  have hsum : Int.bmod (s.totalLen + c.bytes.length) (2 ^ 64) = s.totalLen + c.bytes.length :=
    Int.bmod_eq_of_le (by omega) (by omega)
  simp only [listStep, hsum]
  by_cases hgrow : s.totalLen + c.bytes.length > s.bufLen
  · rw [if_pos hgrow]
    -- `NULL` なら一つ目の塊で、512 byte に収まっているはずである
    obtain ⟨b, hb⟩ : ∃ b, s.reBuf = some b := by
      refine Option.ne_none_iff_exists'.mp fun hnone => ?_
      obtain ⟨rfl, -⟩ := h.null hnone
      rw [List.length_nil] at htotal
      omega
    have hnew : Memcpy.Fits ⟨s.totalLen, c.bytes.length, s.bufLen * 2⟩ := by
      show s.totalLen + c.bytes.length ≤ s.bufLen * 2
      omega
    obtain ⟨hdouble, hres | ⟨b', hres, hsize, hle, hcontents⟩⟩ := h.grow hb c.fresh
    · rw [hres, hdouble]
      exact .null (by simpa using hnew)
    · rw [hres, hdouble]
      exact h.stepped hsize hcontents (by omega) hle (by omega) (by simpa using hnew)
  · rw [if_neg hgrow]
    have hfit : Memcpy.Fits ⟨s.totalLen, c.bytes.length, s.bufLen⟩ := Int.not_lt.mp hgrow
    cases hb : s.reBuf with
    | none => exact .null (by simpa using hfit)
    | some b =>
      obtain ⟨hsize, hcontents⟩ := h.buf b hb
      exact h.stepped hsize hcontents hlow hhigh (Int.not_lt.mp hgrow) (by simpa using hfit)

/-- loop の間も同じである。 -/
theorem Room.run (h : Room acc s) (cs : List ListChunk) :
    Stepped (acc ++ cs.flatMap ListChunk.bytes) (listRun s cs) := by
  induction cs generalizing acc s with
  | nil =>
    refine ⟨fun m hm => absurd hm List.not_mem_nil, fun f hf => ?_, fun t ht => ?_⟩
    · cases hf
    · cases ht
      simpa using h
  | cons c cs ih =>
    have hstep := h.step c
    rw [listRun]
    cases hres : (listStep s c).2 with
    | error f => exact ⟨hstep.fits, fun g hg => hstep.faults g (hres.trans hg), fun t ht => by cases ht⟩
    | ok s' =>
      have hrest := ih (hstep.room s' hres)
      rw [List.append_assoc] at hrest
      refine ⟨fun m hm => ?_, hrest.faults, hrest.room⟩
      rcases List.mem_append.mp hm with hm | hm
      · exact hstep.fits m hm
      · exact hrest.fits m hm

/-! ## `listLoop` との対応 -/

/-- 塊を足した後の大きさ。 -/
theorem Room.step_bufLen (h : Room acc s) (hs : (listStep s c).2 = .ok s') :
    s'.bufLen = if s.totalLen + c.bytes.length > s.bufLen then s.bufLen * 2 else s.bufLen := by
  obtain ⟨hpos, hlen⟩ := c.received
  have htotal := h.total
  have hfits := h.fits
  have hlow := h.low
  have hhigh := h.high
  have hspace : (addressSpace : Int) = 2 ^ 47 := rfl
  have hsum : Int.bmod (s.totalLen + c.bytes.length) (2 ^ 64) = s.totalLen + c.bytes.length :=
    Int.bmod_eq_of_le (by omega) (by omega)
  have hdouble : (growBuf s c.fresh).1 = s.bufLen * 2 := Int.bmod_eq_of_le (by omega) (by omega)
  have hbufLen : ∀ {reBuf : Option Buffer} {n total : Int} {w : Bytes},
      appendChunk reBuf n total w = .ok s' → s'.bufLen = n := by
    intro reBuf n total w hok
    cases hm : memcpy reBuf total w with
    | error f =>
      rw [appendChunk, hm] at hok
      cases hok
    | ok b =>
      rw [appendChunk, hm] at hok
      cases hok
      rfl
  simp only [listStep, hsum] at hs
  by_cases hgrow : s.totalLen + c.bytes.length > s.bufLen
  · rw [if_pos hgrow] at hs ⊢
    cases hres : (growBuf s c.fresh).2 with
    | error f =>
      rw [hres] at hs
      cases hs
    | ok b =>
      rw [hres] at hs
      exact (hbufLen hs).trans hdouble
  · rw [if_neg hgrow] at hs ⊢
    exact hbufLen hs

/-- 終わったときの中身と大きさは、`listLoop` の結果である。 -/
theorem Room.run_listLoop (h : Room acc s) (hs : (listRun s cs).2 = .ok s') :
    listLoop (cs.map ListChunk.bytes) acc s.bufLen.toNat
      = (acc ++ cs.flatMap ListChunk.bytes, s'.bufLen.toNat) := by
  induction cs generalizing acc s with
  | nil =>
    cases hs
    simp [listLoop]
  | cons c cs ih =>
    rw [listRun] at hs
    cases hres : (listStep s c).2 with
    | error f =>
      rw [hres] at hs
      cases hs
    | ok t =>
      rw [hres] at hs
      have hroom := (h.step c).room t hres
      have htotal := h.total
      have hlow := h.low
      have hcap : t.bufLen.toNat =
          if acc.length + c.bytes.length > s.bufLen.toNat then s.bufLen.toNat * 2
          else s.bufLen.toNat := by
        rw [h.step_bufLen hres]
        split_ifs <;> omega
      rw [List.map_cons, listLoop, ← hcap, ih hroom hs, List.append_assoc]
      rfl

/-- **終わったときの中身と `buf_len` は、`listLoop` の結果である。** -/
theorem listRun_listLoop {fresh : Option (Nat → UInt8)}
    (hs : (listRun (listStart fresh) cs).2 = .ok s') :
    listLoop (cs.map ListChunk.bytes) [] 512 = (cs.flatMap ListChunk.bytes, s'.bufLen.toNat) :=
  (Room.start fresh).run_listLoop hs

/-! ## 終わること -/

/-- `malloc` が失敗しなければ、倍の領域に移し替えられる。 -/
theorem Room.grow_ok (h : Room acc s) {b : Buffer} (hb : s.reBuf = some b)
    {fresh : Option (Nat → UInt8)} (hfresh : fresh ≠ none) (hle : s.bufLen * 2 ≤ addressSpace) :
    (growBuf s fresh).2 ≠ .error .null := by
  have htotal := h.total
  have hlow := h.low
  have hfits := h.fits
  have hspace : (addressSpace : Int) = 2 ^ 47 := rfl
  obtain ⟨f, rfl⟩ := Option.ne_none_iff_exists'.mp hfresh
  obtain ⟨hsize, hcontents⟩ := h.buf b hb
  have hdouble : Int.bmod (s.bufLen * 2) (2 ^ 64) = s.bufLen * 2 :=
    Int.bmod_eq_of_le (by omega) (by omega)
  have hmod : s.bufLen * 2 % 2 ^ 64 = s.bufLen * 2 := Int.emod_eq_of_lt (by omega) (by omega)
  have hmalloc : malloc (some f) (s.bufLen * 2) = some ⟨(s.bufLen * 2).toNat, f⟩ := by
    rw [malloc, hmod, if_pos hle]
    rfl
  obtain ⟨b', hw, -⟩ := Buffer.write_eq_some (b := ⟨(s.bufLen * 2).toNat, f⟩) (i := 0)
    (w := acc) (show 0 + acc.length ≤ (s.bufLen * 2).toNat by omega)
  rw [growBuf, hb]
  simp only [hdouble, hmalloc]
  rw [if_pos (by omega), memcpy, htotal, Int.toNat_natCast, hcontents]
  simp only [Int.toNat_zero, hw]
  nofun

/-- 倍の領域が取れれば、一つの塊を足し終える。 -/
theorem Room.step_ok (h : Room acc s) {b : Buffer} (hb : s.reBuf = some b)
    (hfresh : c.fresh ≠ none) (hsmall : 2 * (acc.length + c.bytes.length) ≤ addressSpace) :
    ∃ s', (listStep s c).2 = .ok s' := by
  have htotal := h.total
  have hlow := h.low
  have hhigh := h.high
  have hfits := h.fits
  have hspace : (addressSpace : Int) = 2 ^ 47 := rfl
  obtain ⟨hpos, hlen⟩ := c.received
  have hsum : Int.bmod (s.totalLen + c.bytes.length) (2 ^ 64) = s.totalLen + c.bytes.length :=
    Int.bmod_eq_of_le (by omega) (by omega)
  simp only [listStep, hsum]
  by_cases hgrow : s.totalLen + c.bytes.length > s.bufLen
  · rw [if_pos hgrow]
    obtain ⟨hdouble, hnull | ⟨b', hok, hsize, hle, hcontents⟩⟩ := h.grow hb c.fresh
    · exact absurd hnull (h.grow_ok hb hfresh (by omega))
    · obtain ⟨s', hs', -⟩ := h.append (c := c) hsize hcontents (by omega) hle (by omega)
      rw [hok, hdouble]
      exact ⟨s', hs'⟩
  · obtain ⟨hsize, hcontents⟩ := h.buf b hb
    obtain ⟨s', hs', -⟩ := h.append (c := c) hsize hcontents hlow hhigh (by omega)
    rw [if_neg hgrow, hb]
    exact ⟨s', hs'⟩

/-- `malloc` が失敗せず、届くものが番地空間の半分に収まるなら、loop は終わる。 -/
theorem Room.completes {b : Buffer} (h : Room acc s) (hb : s.reBuf = some b)
    (hfresh : ∀ c ∈ cs, c.fresh ≠ none)
    (hsmall : 2 * (acc.length + (cs.flatMap ListChunk.bytes).length) ≤ addressSpace) :
    ∃ s' b', (listRun s cs).2 = .ok s' ∧ s'.reBuf = some b' := by
  induction cs generalizing acc s b with
  | nil => exact ⟨s, b, rfl, hb⟩
  | cons c cs ih =>
    obtain ⟨hc, hcs⟩ := List.forall_mem_cons.mp hfresh
    rw [List.flatMap_cons, List.length_append] at hsmall
    obtain ⟨t, hres⟩ := h.step_ok hb hc (by omega)
    have hroom := (h.step c).room t hres
    obtain ⟨b', hb'⟩ : ∃ b', t.reBuf = some b' := by
      refine Option.ne_none_iff_exists'.mp fun hnone => ?_
      have hnil := congrArg List.length (hroom.null hnone).1
      have hpos := c.received.1
      rw [List.length_append, List.length_nil] at hnil
      omega
    rw [listRun, hres]
    exact ih hroom hb' hcs (by rw [List.length_append]; omega)

/-- **どの `memcpy` の前でも `total_len + len <= buf_len` で、loop が終われば `re_buf` の先頭に、届いた塊が
順に並ぶ。途中で止まるのは `malloc` に失敗したときだけで、どの `malloc` も成功し、届くものが番地空間の
半分に収まるなら、loop は必ず終わる。** -/
theorem list_buffer_fits (fresh : Option (Nat → UInt8)) (cs : List ListChunk) :
    (∀ m ∈ (listRun (listStart fresh) cs).1, m.totalLen + m.len ≤ m.bufLen) ∧
      (∀ f, (listRun (listStart fresh) cs).2 = .error f → f = .null) ∧
      (∀ s, (listRun (listStart fresh) cs).2 = .ok s →
        s.totalLen = (cs.flatMap ListChunk.bytes).length ∧
          (s.reBuf = none → cs.flatMap ListChunk.bytes = []) ∧
          ∀ b, s.reBuf = some b → b.contents s.totalLen.toNat = cs.flatMap ListChunk.bytes) ∧
      (fresh ≠ none → (∀ c ∈ cs, c.fresh ≠ none) →
        2 * (cs.flatMap ListChunk.bytes).length ≤ addressSpace →
        ∃ s b, (listRun (listStart fresh) cs).2 = .ok s ∧ s.reBuf = some b ∧
          b.contents s.totalLen.toNat = cs.flatMap ListChunk.bytes) := by
  have hrun := (Room.start fresh).run cs
  rw [List.nil_append] at hrun
  have hend : ∀ s, (listRun (listStart fresh) cs).2 = .ok s →
      s.totalLen = (cs.flatMap ListChunk.bytes).length ∧
        (s.reBuf = none → cs.flatMap ListChunk.bytes = []) ∧
        ∀ b, s.reBuf = some b → b.contents s.totalLen.toNat = cs.flatMap ListChunk.bytes := by
    intro s hs
    have hroom := hrun.room s hs
    refine ⟨hroom.total, fun hnone => (hroom.null hnone).1, fun b hb => ?_⟩
    rw [hroom.total, Int.toNat_natCast]
    exact (hroom.buf b hb).2
  refine ⟨hrun.fits, hrun.faults, hend, fun hfresh hchunks hsmall => ?_⟩
  obtain ⟨f, rfl⟩ := Option.ne_none_iff_exists'.mp hfresh
  obtain ⟨s, b, hs, hb⟩ := (Room.start (some f)).completes rfl hchunks (by simpa using hsmall)
  exact ⟨s, b, hs, hb, (hend s hs).2.2 b hb⟩

/-- `n` byte の塊。`malloc` は成功する。 -/
def fullChunk (n : Nat) (c : UInt8) (h : 1 ≤ n ∧ n ≤ 512) : ListChunk where
  bytes := List.replicate n c
  fresh := some fun _ => 0
  received := (List.length_replicate (n := n) (a := c)).symm ▸ h

/-- 400 byte の塊が二つ届くと、領域は一度 1024 byte に移り、800 byte が続けて並ぶ。 -/
theorem list_buffer_doubles :
    ∃ s b, (listRun (listStart (some fun _ => 0))
        [fullChunk 400 65 (by decide), fullChunk 400 66 (by decide)]).2 = .ok s ∧
      s.bufLen = 1024 ∧ s.reBuf = some b ∧
      b.contents s.totalLen.toNat = List.replicate 400 65 ++ List.replicate 400 66 := by
  obtain ⟨-, -, -, hend⟩ := list_buffer_fits (some fun _ => 0)
    [fullChunk 400 65 (by decide), fullChunk 400 66 (by decide)]
  obtain ⟨s, b, hs, hb, hcontents⟩ := hend (by simp) (by simp [fullChunk, -List.reduceReplicate])
    (by simp [fullChunk, addressSpace, -List.reduceReplicate])
  refine ⟨s, b, hs, ?_, hb, by simpa [fullChunk, -List.reduceReplicate] using hcontents⟩
  have hloop := listRun_listLoop hs
  simp [fullChunk, listLoop, -List.reduceReplicate] at hloop
  omega

end RecordServer.Ftp
