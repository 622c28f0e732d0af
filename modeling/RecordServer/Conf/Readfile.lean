import RecordServer.Conf.Pconf
import RecordServer.Infra.Buffer

/-!
# 設定ファイルを読む（`readconf`・`readfile`）

`read` が返した断片を順に `buf` へ書く。1024 byte 読むごとに `realloc` して次の 1024 byte を 0 で
埋めるが、`buflen` は更新されないので、大きさは初めの 256 KiB より 1024 byte 増えるだけである。
埋める位置も、まだ更新されていない `total` から数える。

* `readfileLoop_reads` — 256 KiB 未満のファイルは、`read` がどう分けても `buf` にそのまま入る
* `readfileLoop_overflow` — 256 KiB 以上のファイルは、1 byte ずつ読むと `buf` を越えて書く
-/

namespace RecordServer.Conf

open Infra

/-! ## 読む手続き -/

/-- `readfile` の loop。`read` が返した断片の列を受け取る。 -/
def readfileLoop (fresh : Nat → UInt8) (buflen : Nat) :
    List Bytes → Nat → Nat → Buffer → Option (Nat × Buffer)
  | [], total, _, buf => some (total, buf)
  | chunk :: chunks, total, remain, buf =>
    (buf.write total chunk).bind fun buf =>
      if remain - chunk.length = 0 then
        ((buf.realloc (buflen + 1024) fresh).write (total + 1024) (List.replicate 1024 0)).bind
          fun buf => readfileLoop fresh buflen chunks (total + chunk.length) 1024 buf
      else readfileLoop fresh buflen chunks (total + chunk.length) (remain - chunk.length) buf

/-- ファイルの読まれ方。開けないか、断片の列を返した後の `read` が `last`（0 以下）を返す。 -/
inductive FileRead
  | cannotOpen
  | reads (chunks : List Bytes) (last : Int)

def readconfSize : Nat := 1024 * 256

/-- `readconf`。返り値と、読めたときの `total` と `buf`。 -/
def readconf (fresh : Nat → UInt8) : FileRead → Option (Int × Option (Nat × Buffer))
  | .cannotOpen => some (-1, none)
  | .reads chunks last =>
    (readfileLoop fresh readconfSize chunks 0 1024 ⟨readconfSize, fun _ => 0⟩).map fun r =>
      if last < 0 then (last, none) else (0, some r)

/-- `main` の、`readconf` に続く `parse`。`end` の byte が 0 でなければ parser の動きは決まらない。 -/
def readAndParse (env : Env) (fresh : Nat → UInt8) (f : FileRead) : Option (Int × CN) :=
  (readconf fresh f).bind fun
    | (code, none) => some (code, newNode)
    | (_, some (total, buf)) =>
      if total < buf.size ∧ buf.mem total = 0 then
        (parse env (buf.contents total)).map fun (code, _, cn) => (code, cn)
      else none

/-- `read` が返しうる断片の列。空でなく、頼んだ長さ `remain` を越えない。 -/
def Chunked : Nat → List Bytes → Prop
  | _, [] => True
  | remain, c :: cs =>
    c ≠ [] ∧ c.length ≤ remain ∧
      Chunked (if remain - c.length = 0 then 1024 else remain - c.length) cs

/-! ## 途中の状態 -/

/-- `content` まで読んだときの `buf`。残りは 0 である。 -/
structure Filled (content : Bytes) (remain : Nat) (buf : Buffer) : Prop where
  remain_pos : 0 < remain
  remain_le : remain ≤ 1024
  aligned : (content.length + remain) % 1024 = 0
  size_ge : readconfSize ≤ buf.size
  mem : ∀ i, i < content.length → buf.mem i = content.getD i 0
  zero : ∀ i, content.length ≤ i → i < readconfSize → buf.mem i = 0

theorem filled_start : Filled [] 1024 ⟨readconfSize, fun _ => 0⟩ where
  remain_pos := by decide
  remain_le := Nat.le_refl 1024
  aligned := rfl
  size_ge := Nat.le_refl readconfSize
  mem := fun i hi => absurd hi (Nat.not_lt_zero i)
  zero := fun _ _ _ => rfl

variable {content c : Bytes} {cs : List Bytes} {remain : Nat} {buf : Buffer}

/-- 断片を書いた後も、読んだ所までがファイルの中身で、後ろは 0 である。 -/
theorem Filled.write (h : Filled content remain buf) (hfit : (content ++ c).length < readconfSize) :
    ∃ buf', buf.write content.length c = some buf' ∧ readconfSize ≤ buf'.size ∧
      (∀ i, i < (content ++ c).length → buf'.mem i = (content ++ c).getD i 0) ∧
      (∀ i, (content ++ c).length ≤ i → i < readconfSize → buf'.mem i = 0) := by
  have hsize := h.size_ge
  rw [List.length_append] at hfit
  obtain ⟨buf', hw, hsize', hin, hout⟩ :=
    Buffer.write_eq_some (show content.length + c.length ≤ buf.size by omega)
  refine ⟨buf', hw, hsize' ▸ hsize, ?_, ?_⟩
  · intro i hi
    rw [List.length_append] at hi
    by_cases hlt : i < content.length
    · rw [hout i (Or.inl hlt), h.mem i hlt, List.getD_append _ _ _ _ hlt]
    · rw [hin i (by omega) hi, List.getD_append_right _ _ _ _ (by omega)]
  · intro i hi hlt
    rw [List.length_append] at hi
    rw [hout i (Or.inr hi), h.zero i (by omega) hlt]

/-- 1024 byte 読み終えたときの `realloc` と `memset` は、256 KiB 未満なら領域に収まり、中身を変えない。 -/
theorem Filled.extend (fresh : Nat → UInt8) (start : Nat) (hsize : readconfSize ≤ buf.size)
    (hmem : ∀ i, i < content.length → buf.mem i = content.getD i 0)
    (hzero : ∀ i, content.length ≤ i → i < readconfSize → buf.mem i = 0)
    (haligned : content.length % 1024 = 0) (hfit : content.length < readconfSize)
    (hstart : start < content.length) (hblock : content.length ≤ start + 1024) :
    ∃ buf', (buf.realloc (readconfSize + 1024) fresh).write (start + 1024) (List.replicate 1024 0)
        = some buf' ∧ Filled content 1024 buf' := by
  have hrs : readconfSize = 262144 := rfl
  -- 揃った長さは 256 KiB の一つ手前の block を越えない
  have hlast : content.length ≤ 261120 := by omega
  obtain ⟨buf', hw, hsize', hin, hout⟩ :=
    Buffer.write_eq_some (b := buf.realloc (readconfSize + 1024) fresh) (i := start + 1024)
      (w := List.replicate 1024 0) (by simp only [List.length_replicate, Buffer.realloc]; omega)
  rw [List.length_replicate] at hin hout
  refine ⟨buf', hw, by decide, Nat.le_refl 1024, by omega, ?_, ?_, ?_⟩
  · rw [hsize']
    exact Nat.le_add_right readconfSize 1024
  · intro i hi
    rw [hout i (by omega), Buffer.realloc_mem (by omega), hmem i hi]
  · intro i hi hlt
    by_cases hin' : start + 1024 ≤ i ∧ i < start + 1024 + 1024
    · rw [hin i hin'.1 hin'.2]
      exact List.getD_replicate 0 (by omega)
    · rw [hout i (by omega), Buffer.realloc_mem (by omega), hzero i hi hlt]

/-- loop の一周。 -/
theorem Filled.step (fresh : Nat → UInt8) (h : Filled content remain buf) (hc : c ≠ [])
    (hlen : c.length ≤ remain) (hfit : (content ++ c).length < readconfSize) :
    ∃ buf', Filled (content ++ c) (if remain - c.length = 0 then 1024 else remain - c.length) buf' ∧
      ∀ cs, readfileLoop fresh readconfSize (c :: cs) content.length remain buf
        = readfileLoop fresh readconfSize cs (content ++ c).length
            (if remain - c.length = 0 then 1024 else remain - c.length) buf' := by
  obtain ⟨buf₁, hw, hsize, hmem, hzero⟩ := h.write hfit
  have hpos := List.length_pos_iff.mpr hc
  have halign := h.aligned
  have hle := h.remain_le
  have hlength : (content ++ c).length = content.length + c.length := List.length_append
  by_cases hfull : remain - c.length = 0
  · obtain ⟨buf₂, hw₂, hfilled⟩ := Filled.extend fresh content.length
      hsize hmem hzero (by omega) hfit (by omega) (by omega)
    refine ⟨buf₂, by rwa [if_pos hfull], fun cs => ?_⟩
    rw [readfileLoop, hw, Option.bind_some, if_pos hfull, hw₂, Option.bind_some, if_pos hfull,
      hlength]
  · refine ⟨buf₁, ?_, fun cs => ?_⟩
    · rw [if_neg hfull]
      exact ⟨by omega, by omega, by omega, hsize, hmem, hzero⟩
    · rw [readfileLoop, hw, Option.bind_some, if_neg hfull, if_neg hfull, hlength]

/-- **256 KiB に満たない間は、どう分けて読んでも `buf` に中身がそのまま入る。** -/
theorem readfileLoop_reads (fresh : Nat → UInt8) (cs : List Bytes) :
    ∀ {content : Bytes} {remain : Nat} {buf : Buffer}, Filled content remain buf →
      Chunked remain cs → (content ++ cs.flatten).length < readconfSize →
      ∃ remain' buf', Filled (content ++ cs.flatten) remain' buf' ∧
        ∀ ds, readfileLoop fresh readconfSize (cs ++ ds) content.length remain buf
          = readfileLoop fresh readconfSize ds (content ++ cs.flatten).length remain' buf' := by
  induction cs with
  | nil =>
    intro content remain buf h _ _
    refine ⟨remain, buf, by simpa using h, fun ds => ?_⟩
    simp
  | cons c cs ih =>
    intro content remain buf h hchunk hfit
    obtain ⟨hc, hlen, hrest⟩ := hchunk
    have happend : content ++ (c :: cs).flatten = (content ++ c) ++ cs.flatten := by simp
    rw [happend] at hfit ⊢
    have hfit' : (content ++ c).length < readconfSize := by
      rw [List.length_append] at hfit
      omega
    obtain ⟨buf₁, h₁, hstep⟩ := h.step fresh hc hlen hfit'
    obtain ⟨remain', buf', h', hloop⟩ := ih h₁ hrest hfit
    refine ⟨remain', buf', h', fun ds => ?_⟩
    rw [List.cons_append, hstep, hloop]

/-! ## 読み終えたとき -/

/-- **256 KiB 未満のファイルでは、`readconf` の後の `parse` はファイルの中身を読む。** -/
theorem readAndParse_eq (env : Env) (fresh : Nat → UInt8) {cs : List Bytes} (hcs : Chunked 1024 cs)
    (hfit : cs.flatten.length < readconfSize) :
    readAndParse env fresh (.reads cs 0)
      = (parse env cs.flatten).map fun (code, _, cn) => (code, cn) := by
  obtain ⟨remain, buf, hfilled, hloop⟩ := readfileLoop_reads fresh cs filled_start hcs hfit
  have hread : readfileLoop fresh readconfSize cs 0 1024 ⟨readconfSize, fun _ => 0⟩
      = some (cs.flatten.length, buf) := by
    have h := hloop []
    rwa [List.append_nil] at h
  have hend : cs.flatten.length < buf.size ∧ buf.mem cs.flatten.length = 0 :=
    ⟨Nat.lt_of_lt_of_le hfit hfilled.size_ge, hfilled.zero _ (Nat.le_refl _) hfit⟩
  have hcontents : buf.contents cs.flatten.length = cs.flatten := Buffer.contents_eq hfilled.mem
  simp only [readAndParse, readconf, hread, Option.map_some, Int.lt_irrefl, if_false,
    Option.bind_some, if_pos hend, hcontents]

/-- 1 byte ずつの断片は、いつも `read` が返しうる。 -/
theorem chunked_singles (w : Bytes) : ∀ remain, 0 < remain → Chunked remain (w.map ([·])) := by
  induction w with
  | nil =>
    intro _ _
    trivial
  | cons b w ih =>
    intro remain hpos
    refine ⟨List.cons_ne_nil _ _, hpos, ih _ ?_⟩
    split_ifs
    · decide
    · omega

theorem flatten_singles (w : Bytes) : (w.map ([·])).flatten = w := by
  induction w with
  | nil => rfl
  | cons b w ih => simp [ih]

/-- **256 KiB 以上のファイルを 1 byte ずつ読むと、256 個目の block の終わりで領域を越えて書く。** -/
theorem readfileLoop_overflow (fresh : Nat → UInt8) {w : Bytes} (hw : readconfSize ≤ w.length) :
    readfileLoop fresh readconfSize (w.map ([·])) 0 1024 ⟨readconfSize, fun _ => 0⟩ = none := by
  have hrs : readconfSize = 262144 := rfl
  -- 最後の 1 byte の手前までは無事に読める
  obtain ⟨b, rest, hsplit⟩ : ∃ b rest, w.drop 262143 = b :: rest :=
    List.exists_cons_of_length_pos (by rw [List.length_drop]; omega)
  have hw' : w = w.take 262143 ++ b :: rest := by rw [← hsplit, List.take_append_drop]
  have hlen : (w.take 262143).length = 262143 := by
    rw [List.length_take]
    omega
  obtain ⟨remain, buf, hfilled, hloop⟩ := readfileLoop_reads fresh ((w.take 262143).map ([·]))
    filled_start (chunked_singles _ 1024 (by decide))
    (by rw [List.nil_append, flatten_singles, hlen]; decide)
  rw [List.nil_append, flatten_singles] at hfilled hloop
  rw [hlen] at hloop
  have hremain : remain = 1 := by
    have h₁ := hfilled.remain_pos
    have h₂ := hfilled.remain_le
    have h₃ := hfilled.aligned
    rw [hlen] at h₃
    omega
  have hsize := hfilled.size_ge
  rw [hw', List.map_append, List.map_cons]
  refine (hloop _).trans ?_
  -- 残りの 1 byte で block が終わり、`memset` が 263167 から 1024 byte を書く
  rw [hremain, readfileLoop]
  obtain ⟨buf', hwrite, -⟩ := Buffer.write_eq_some (show 262143 + [b].length ≤ buf.size by
    rw [List.length_singleton]; omega)
  rw [hwrite, Option.bind_some, if_pos (show 1 - [b].length = 0 from rfl), Buffer.write_eq_none,
    Option.bind_none]
  simp only [Buffer.realloc, List.length_replicate]
  omega

theorem readAndParse_overflow (env : Env) (fresh : Nat → UInt8) {w : Bytes}
    (hw : readconfSize ≤ w.length) : readAndParse env fresh (.reads (w.map ([·])) 0) = none := by
  simp only [readAndParse, readconf, readfileLoop_overflow fresh hw, Option.map_none,
    Option.bind_none]

end RecordServer.Conf
