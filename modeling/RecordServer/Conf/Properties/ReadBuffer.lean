import RecordServer.Conf.Readfile

/-!
# `readfile` が領域に収まるとき

`realloc` はいつも 257 KiB を求めるので、`memset` は 256 番目の block から領域を越えうる。その `memset` の
位置は、block の最後の `read` が始まった所から数える。

* `ReadsFaithfully` — どの書き込みも領域に収まり、ファイルの中身が入り、その後に 0 がある
* `FullBlock` — 256 番目の block を一度の `read` で読んだ
* `readsFaithfully_iff` — そうなるのは、256 KiB 未満のときと、257 KiB 未満で `FullBlock` のときに限る
* `quarter_megabyte_overflows` — 256 KiB のファイルを 1 byte ずつ読むと領域を越える
-/

namespace RecordServer.Conf

open Infra

variable {content c : Bytes} {cs ds : List Bytes} {remain r : Nat} {buf : Buffer}
  {fresh : Nat → UInt8}

/-- loop が領域を越えずに終わり、`buf` の初めにファイルの中身があり、`end` に 0 がある。 -/
def ReadsFaithfully (fresh : Nat → UInt8) (chunks : List Bytes) : Prop :=
  ∃ buf, readfileLoop fresh readconfSize chunks 0 1024 ⟨readconfSize, fun _ => 0⟩
      = some (chunks.flatten.length, buf) ∧
    buf.contents chunks.flatten.length = chunks.flatten ∧
    chunks.flatten.length < buf.size ∧ buf.mem chunks.flatten.length = 0

/-- 255 KiB まで読んだ後の `read` が、次の 1 KiB をすべて返した。 -/
def FullBlock (chunks : List Bytes) : Prop :=
  ∃ cs c ds, chunks = cs ++ c :: ds ∧ cs.flatten.length = 255 * 1024 ∧ c.length = 1024

/-! ## `remain` の動き -/

/-- 断片の列を読んだ後の `remain`。 -/
def remainAfter : Nat → List Bytes → Nat
  | remain, [] => remain
  | remain, c :: cs => remainAfter (if remain - c.length = 0 then 1024 else remain - c.length) cs

theorem chunked_append : ∀ {remain : Nat} {cs : List Bytes},
    Chunked remain (cs ++ ds) ↔ Chunked remain cs ∧ Chunked (remainAfter remain cs) ds
  | remain, [] => by simp [Chunked, remainAfter]
  | remain, c :: cs => by simp [Chunked, remainAfter, chunked_append, and_assoc]

/-- `remain` は、読んだ長さと合わせるといつも 1024 の倍数になる。 -/
theorem remainAfter_aligned : ∀ {remain n : Nat} {cs : List Bytes}, Chunked remain cs →
    0 < remain → remain ≤ 1024 → (n + remain) % 1024 = 0 →
    0 < remainAfter remain cs ∧ remainAfter remain cs ≤ 1024 ∧
      (n + cs.flatten.length + remainAfter remain cs) % 1024 = 0
  | remain, n, [], _, hpos, hle, hmod => ⟨hpos, hle, by simpa [remainAfter] using hmod⟩
  | remain, n, c :: cs, ⟨hc, hlen, hrest⟩, hpos, hle, hmod => by
    have hcpos := List.length_pos_iff.mpr hc
    rw [List.flatten_cons, List.length_append, ← Nat.add_assoc, remainAfter]
    by_cases hfull : remain - c.length = 0
    · rw [if_pos hfull] at hrest ⊢
      exact remainAfter_aligned hrest (by decide) (Nat.le_refl _) (by omega)
    · rw [if_neg hfull] at hrest ⊢
      exact remainAfter_aligned hrest (by omega) (by omega) (by omega)

/-- 長さ `n` に初めて達する断片。 -/
theorem exists_crossing {n : Nat} (hn : 0 < n) (h : n ≤ cs.flatten.length) :
    ∃ as c bs, cs = as ++ c :: bs ∧ as.flatten.length < n ∧ n ≤ as.flatten.length + c.length := by
  induction cs generalizing n with
  | nil =>
    simp at h
    omega
  | cons c cs ih =>
    rw [List.flatten_cons, List.length_append] at h
    by_cases hle : n ≤ c.length
    · exact ⟨[], c, cs, rfl, by simpa using hn, by simpa using hle⟩
    · obtain ⟨as, d, bs, rfl, hlt, hge⟩ := ih (n := n - c.length) (by omega) (by omega)
      refine ⟨c :: as, d, bs, rfl, ?_, ?_⟩
      · rw [List.flatten_cons, List.length_append]
        omega
      · rw [List.flatten_cons, List.length_append]
        omega

/-! ## 256 KiB まで -/

/-- 256 KiB に達しない間の `buf` と、その次の断片。 -/
theorem filled_before (fresh : Nat → UInt8) (hchunk : Chunked 1024 (cs ++ c :: ds))
    (hlt : cs.flatten.length < readconfSize) :
    ∃ remain buf, Filled cs.flatten remain buf ∧ c ≠ [] ∧ c.length ≤ remain ∧
      Chunked (if remain - c.length = 0 then 1024 else remain - c.length) ds ∧
      readfileLoop fresh readconfSize (cs ++ c :: ds) 0 1024 ⟨readconfSize, fun _ => 0⟩
        = readfileLoop fresh readconfSize (c :: ds) cs.flatten.length remain buf := by
  obtain ⟨hcs, hc, hlen, hds⟩ := chunked_append.mp hchunk
  obtain ⟨remain, buf, hfilled, hloop⟩ := readfileLoop_reads fresh cs filled_start hcs (by
    rwa [List.nil_append])
  rw [List.nil_append] at hfilled hloop
  obtain ⟨hpos, hle, hmod⟩ := remainAfter_aligned (n := 0) hcs (by decide) (Nat.le_refl _) rfl
  have hremain : remain = remainAfter 1024 cs := by
    have h₁ := hfilled.remain_pos
    have h₂ := hfilled.remain_le
    have h₃ := hfilled.aligned
    omega
  rw [← hremain] at hlen hds
  exact ⟨remain, buf, hfilled, hc, hlen, hds, hloop _⟩

/-- 256 番目の block の終わりの断片。`memset` が領域に収まるのは、一度に読んだときだけである。 -/
theorem readfileLoop_last (fresh : Nat → UInt8) (h : Filled content remain buf)
    (hlt : content.length < readconfSize) (hlen : c.length ≤ remain)
    (hge : readconfSize ≤ content.length + c.length) (hshort : c.length < 1024) :
    readfileLoop fresh readconfSize (c :: ds) content.length remain buf = none := by
  have hrs : readconfSize = 262144 := rfl
  have hle := h.remain_le
  have halign := h.aligned
  have hsize := h.size_ge
  have hfull : remain - c.length = 0 := by omega
  obtain ⟨buf', hw, hsize', -⟩ := Buffer.write_eq_some (b := buf) (i := content.length) (w := c)
    (by omega)
  rw [readfileLoop, hw, Option.bind_some, if_pos hfull, Buffer.write_eq_none, Option.bind_none]
  simp only [Buffer.realloc, List.length_replicate]
  omega

/-! ## 257 KiB まで -/

/-- 領域が 257 KiB になり、`content` の後ろがすべて 0 である。 -/
structure Extended (content : Bytes) (buf : Buffer) : Prop where
  size : buf.size = readconfSize + 1024
  mem : ∀ i, i < content.length → buf.mem i = content.getD i 0
  zero : ∀ i, content.length ≤ i → i < readconfSize + 1024 → buf.mem i = 0

/-- 256 番目の block を一度に読めば、`memset` は新しい 1 KiB をちょうど埋める。 -/
theorem extended_start (fresh : Nat → UInt8) (h : Filled content remain buf)
    (hcontent : content.length = 255 * 1024) (hc : c.length = 1024) (hlen : c.length ≤ remain) :
    ∃ buf', Extended (content ++ c) buf' ∧
      ∀ ds, readfileLoop fresh readconfSize (c :: ds) content.length remain buf
        = readfileLoop fresh readconfSize ds (content ++ c).length 1024 buf' := by
  have hrs : readconfSize = 262144 := rfl
  have hsize := h.size_ge
  have hle := h.remain_le
  have hlength : (content ++ c).length = content.length + c.length := List.length_append
  obtain ⟨buf₁, hw₁, hsize₁, hin₁, hout₁⟩ :=
    Buffer.write_eq_some (b := buf) (i := content.length) (w := c) (by omega)
  obtain ⟨buf₂, hw₂, hsize₂, hin₂, hout₂⟩ :=
    Buffer.write_eq_some (b := buf₁.realloc (readconfSize + 1024) fresh) (i := content.length + 1024)
      (w := List.replicate 1024 0) (by simp only [List.length_replicate, Buffer.realloc]; omega)
  rw [List.length_replicate] at hin₂ hout₂
  refine ⟨buf₂, ⟨hsize₂, ?_, ?_⟩, fun ds => ?_⟩
  · intro i hi
    rw [hout₂ i (by omega), Buffer.realloc_mem (by omega)]
    by_cases hlt : i < content.length
    · rw [hout₁ i (Or.inl hlt), h.mem i hlt, List.getD_append _ _ _ _ hlt]
    · rw [hin₁ i (by omega) (by omega), List.getD_append_right _ _ _ _ (by omega)]
  · intro i hi hlt
    rw [hin₂ i (by omega) (by omega)]
    exact List.getD_replicate 0 (by omega)
  · rw [readfileLoop, hw₁, Option.bind_some, if_pos (by omega), hw₂, Option.bind_some, hlength]

/-- 257 KiB に達しない間は、どう分けて読んでも中身がそのまま入る。 -/
theorem extended_reads (fresh : Nat → UInt8) (cs : List Bytes) :
    ∀ {content : Bytes} {buf : Buffer}, Extended content buf →
      Chunked (readconfSize + 1024 - content.length) cs →
      (content ++ cs.flatten).length < readconfSize + 1024 →
      ∃ buf', Extended (content ++ cs.flatten) buf' ∧
        ∀ ds, readfileLoop fresh readconfSize (cs ++ ds) content.length
            (readconfSize + 1024 - content.length) buf
          = readfileLoop fresh readconfSize ds (content ++ cs.flatten).length
              (readconfSize + 1024 - (content ++ cs.flatten).length) buf' := by
  induction cs with
  | nil =>
    intro content buf h _ _
    exact ⟨buf, by simpa using h, fun ds => by simp⟩
  | cons c cs ih =>
    intro content buf h hchunk hfit
    obtain ⟨hc, hlen, hrest⟩ := hchunk
    have happend : content ++ (c :: cs).flatten = (content ++ c) ++ cs.flatten := by simp
    rw [happend] at hfit ⊢
    have hlength : (content ++ c).length = content.length + c.length := List.length_append
    have hlt : content.length + c.length < readconfSize + 1024 := by
      rw [List.length_append] at hfit
      omega
    have hnot : readconfSize + 1024 - content.length - c.length ≠ 0 := by omega
    have hsub : readconfSize + 1024 - content.length - c.length
        = readconfSize + 1024 - (content ++ c).length := by omega
    rw [if_neg hnot, hsub] at hrest
    obtain ⟨buf₁, hw, hsize, hin, hout⟩ :=
      Buffer.write_eq_some (b := buf) (i := content.length) (w := c) (by rw [h.size]; omega)
    have h₁ : Extended (content ++ c) buf₁ := by
      refine ⟨hsize.trans h.size, fun i hi => ?_, fun i hi hi' => ?_⟩
      · by_cases hlt : i < content.length
        · rw [hout i (Or.inl hlt), h.mem i hlt, List.getD_append _ _ _ _ hlt]
        · rw [hin i (by omega) (by omega), List.getD_append_right _ _ _ _ (by omega)]
      · rw [hout i (Or.inr (by omega)), h.zero i (by omega) hi']
    obtain ⟨buf', h', hloop⟩ := ih h₁ hrest hfit
    refine ⟨buf', h', fun ds => ?_⟩
    rw [List.cons_append, readfileLoop, hw, Option.bind_some, if_neg hnot, hsub, ← hlength, hloop]

/-- 257 番目の block の終わりでは、いつも領域を越えて 0 を書く。 -/
theorem extended_last (fresh : Nat → UInt8) (ds : List Bytes) (h : Extended content buf)
    (hpast : readconfSize ≤ content.length)
    (hfull : content.length + c.length = readconfSize + 1024) :
    readfileLoop fresh readconfSize (c :: ds) content.length (readconfSize + 1024 - content.length)
      buf = none := by
  obtain ⟨buf', hw, hsize, -⟩ := Buffer.write_eq_some (b := buf) (i := content.length) (w := c)
    (by rw [h.size]; omega)
  rw [readfileLoop, hw, Option.bind_some, if_pos (by omega), Buffer.write_eq_none, Option.bind_none]
  simp only [Buffer.realloc, List.length_replicate]
  omega

/-! ## ちょうどの条件 -/

theorem readsFaithfully_of_lt (fresh : Nat → UInt8) (hchunk : Chunked 1024 cs)
    (hlt : cs.flatten.length < readconfSize) : ReadsFaithfully fresh cs := by
  obtain ⟨remain, buf, hfilled, hloop⟩ := readfileLoop_reads fresh cs filled_start hchunk hlt
  refine ⟨buf, ?_, Buffer.contents_eq hfilled.mem, Nat.lt_of_lt_of_le hlt hfilled.size_ge,
    hfilled.zero _ (Nat.le_refl _) hlt⟩
  have h := hloop []
  rwa [List.append_nil] at h

/-- 256 番目の block を一度に読んだ後の状態。 -/
theorem extended_of_fullBlock (fresh : Nat → UInt8) (hchunk : Chunked 1024 (cs ++ c :: ds))
    (hcs : cs.flatten.length = 255 * 1024) (hc : c.length = 1024) :
    ∃ buf, Extended (cs.flatten ++ c) buf ∧ Chunked 1024 ds ∧
      readfileLoop fresh readconfSize (cs ++ c :: ds) 0 1024 ⟨readconfSize, fun _ => 0⟩
        = readfileLoop fresh readconfSize ds (cs.flatten ++ c).length 1024 buf := by
  have hrs : readconfSize = 262144 := rfl
  obtain ⟨remain, buf, hfilled, -, hlen, hds, hloop⟩ :=
    filled_before fresh hchunk (by omega)
  obtain ⟨buf', h, hstep⟩ := extended_start fresh hfilled hcs hc hlen
  have hle := hfilled.remain_le
  rw [if_pos (by omega)] at hds
  exact ⟨buf', h, hds, hloop.trans (hstep ds)⟩

theorem readsFaithfully_of_fullBlock (fresh : Nat → UInt8) (hchunk : Chunked 1024 cs)
    (hlt : cs.flatten.length < readconfSize + 1024) (hfull : FullBlock cs) :
    ReadsFaithfully fresh cs := by
  obtain ⟨as, c, bs, rfl, has, hc⟩ := hfull
  obtain ⟨buf, h, hbs, hloop⟩ := extended_of_fullBlock fresh hchunk has hc
  have hlength : (as.flatten ++ c).length = readconfSize := by
    rw [List.length_append, has, hc]
    rfl
  have hflatten : (as ++ c :: bs).flatten = (as.flatten ++ c) ++ bs.flatten := by simp
  obtain ⟨buf', h', hrest⟩ := extended_reads fresh bs h (by rwa [hlength]) (by rwa [← hflatten])
  have hloop' := hrest []
  rw [hlength, List.append_nil, show readconfSize + 1024 - readconfSize = 1024 from rfl, ← hflatten]
    at hloop'
  rw [← hflatten] at h'
  refine ⟨buf', hloop.trans ?_, Buffer.contents_eq h'.mem, h'.size ▸ hlt,
    h'.zero _ (Nat.le_refl _) hlt⟩
  rw [hlength]
  exact hloop'

/-- 256 KiB 以上のファイルで、256 番目の block を分けて読むか、257 KiB に達すると、領域を越えて書く。 -/
theorem fullBlock_of_readsFaithfully (hchunk : Chunked 1024 cs)
    (hge : readconfSize ≤ cs.flatten.length) (h : ReadsFaithfully fresh cs) :
    cs.flatten.length < readconfSize + 1024 ∧ FullBlock cs := by
  have hrs : readconfSize = 262144 := rfl
  obtain ⟨buf₀, hrun, -⟩ := h
  obtain ⟨as, c, bs, rfl, hlt, hcross⟩ := exists_crossing (by decide) hge
  obtain ⟨remain, buf, hfilled, -, hlen, -, hloop⟩ := filled_before fresh hchunk hlt
  have halign := hfilled.aligned
  have hle := hfilled.remain_le
  have hc : c.length = 1024 := by
    by_contra hne
    rw [hloop, readfileLoop_last fresh hfilled hlt hlen hcross (by omega)] at hrun
    cases hrun
  have has : as.flatten.length = 255 * 1024 := by omega
  refine ⟨?_, as, c, bs, rfl, has, hc⟩
  by_contra hnot
  obtain ⟨buf', h', hbs, hloop'⟩ := extended_of_fullBlock fresh hchunk has hc
  have hlength : (as.flatten ++ c).length = readconfSize := by
    rw [List.length_append, has, hc]
    rfl
  have hrest : 1024 ≤ bs.flatten.length := by
    rw [List.flatten_append, List.length_append, List.flatten_cons, List.length_append] at hnot
    omega
  obtain ⟨as', d, bs', rfl, hlt', hcross'⟩ := exists_crossing (by decide) hrest
  obtain ⟨hchunk', -, hlen', -⟩ := chunked_append.mp hbs
  obtain ⟨-, hle', hmod'⟩ := remainAfter_aligned (n := 0) hchunk' (by decide) (Nat.le_refl _) rfl
  have hlength' : ((as.flatten ++ c) ++ as'.flatten).length
      = readconfSize + as'.flatten.length := by rw [List.length_append, hlength]
  obtain ⟨buf'', h'', hreads⟩ := extended_reads fresh as' h' (by rwa [hlength]) (by omega)
  have hlast := extended_last (c := d) fresh bs' h'' (by omega) (by omega)
  have hfinal := hreads (d :: bs')
  rw [hlength, show readconfSize + 1024 - readconfSize = 1024 from rfl, hlast] at hfinal
  rw [hloop', hlength, hfinal] at hrun
  cases hrun

/--
**`readfile` が領域に収まってファイルを正しく読むのは、ファイルが 256 KiB 未満のときと、257 KiB 未満で
256 番目の block を一度の `read` で読んだときに限る。**
-/
theorem readsFaithfully_iff (fresh : Nat → UInt8) (chunks : List Bytes)
    (hchunk : Chunked 1024 chunks) :
    ReadsFaithfully fresh chunks ↔ chunks.flatten.length < 256 * 1024 ∨
      (chunks.flatten.length < 257 * 1024 ∧ FullBlock chunks) := by
  constructor
  · intro h
    by_cases hlt : chunks.flatten.length < readconfSize
    · exact .inl hlt
    · exact .inr (fullBlock_of_readsFaithfully hchunk (Nat.not_lt.mp hlt) h)
  · rintro (hlt | ⟨hlt, hfull⟩)
    · exact readsFaithfully_of_lt fresh hchunk hlt
    · exact readsFaithfully_of_fullBlock fresh hchunk hlt hfull

theorem readsFaithfully_short :
    ReadsFaithfully (fun _ => 0) [ascii "a 1", ascii ";\n"] := by
  have hchunk : Chunked 1024 [ascii "a 1", ascii ";\n"] :=
    ⟨by decide, by decide, by decide, by decide, trivial⟩
  exact (readsFaithfully_iff (fun _ => 0) _ hchunk).mpr (.inl (by decide))

/-- **256 KiB のファイルを 1 byte ずつ読むと、領域を越えて 0 を書く。** -/
theorem quarter_megabyte_overflows :
    ¬∀ (fresh : Nat → UInt8) (chunks : List Bytes), Chunked 1024 chunks →
      ReadsFaithfully fresh chunks := by
  intro h
  obtain ⟨buf, hrun, -⟩ := h (fun _ => 0) ((List.replicate (256 * 1024) 97).map ([·]))
    (chunked_singles _ 1024 (by decide))
  rw [readfileLoop_overflow (fun _ => 0) (by rw [List.length_replicate]; decide)] at hrun
  cases hrun

end RecordServer.Conf
