import RecordServer.Infra.Fuel
import RecordServer.Main.GlobalConf
import Mathlib.Data.List.GetD
import Mathlib.Data.List.TakeWhile

/-!
# 実行 file の directory は正しく求まるか

`argv[0]` に `/` が無いと `last_slash` は `NULL` のままで、長さは `str` の番地の符号を変えたものになる。

* `rcStrncpy_text` — 長さが負でなく領域に収まれば、`rc_strncpy` は `src` の初めの部分を写す
* `getCurPath_eq` — loop は必ず終わり、`last_slash` は最後の `/` である
* `Computed` — directory が長すぎて終わるか、領域の中だけに書いて正しい文字列を残す
* `computed_iff` — そうなるための、文字列と番地と大きさの条件
-/

namespace RecordServer.Main

open Infra Strings

variable {str s : Bytes} {oPath d : Dest} {il len : Int} {addr k : Nat}

/-! ## 写した文字列 -/

/-- 大きさ `il` の領域に、C の文字列 `s` がある。 -/
structure HasText (d : Dest) (il : Int) (s : Bytes) : Prop where
  fits : (s.length : Int) < il
  text : ∀ j, j < s.length → d.mem j = s.getD j 0
  terminated : d.mem s.length = 0

theorem sizeT_of_nonneg (h : 0 ≤ len) (hlt : len < 2 ^ 31) : (sizeT len : Int) = len := by
  unfold sizeT
  omega

/-- 負でない長さを渡された `rc_strncpy` は、領域の中だけに書き、`src` の先頭から `len` byte までを残す。 -/
theorem rcStrncpy_text (d : Dest) (s : Bytes) {len il : Int} (hlen : 0 ≤ len) (hle : len ≤ il - 1)
    (hil : il < 2 ^ 31) :
    ∃ spans, (rcStrncpy d il s len).spans = d.spans ++ spans ∧ AllWithin 0 il spans ∧
      HasText (rcStrncpy d il s len) il ((cstr s).take len.toNat) := by
  -- どちらの枝でも、`len` byte を写して `dest[len]` を 0 にする
  have hcopy : rcStrncpy d il s len = (strncpy d s (sizeT len)).set len 0 := by
    unfold rcStrncpy
    split
    · rfl
    · rw [show il - 1 = len by omega]
  have hsize := sizeT_of_nonneg hlen (by omega)
  have htake : ((cstr s).take len.toNat).length ≤ len.toNat := List.length_take_le ..
  rw [hcopy]
  refine ⟨[⟨0, sizeT len⟩, ⟨len, 1⟩], List.append_assoc .., ?_, ⟨by omega, fun j hj => ?_, ?_⟩⟩
  · simp only [allWithin_cons, Span.within_iff, allWithin_nil, and_true]
    omega
  · simp only [Dest.set, strncpy]
    rw [if_neg (by omega), if_pos (by omega), Int.toNat_natCast]
    rw [List.length_take] at hj
    rw [List.getD_eq_getElem _ _ (by omega), List.getD_eq_getElem _ _ (by simp; omega),
      List.getElem_take]
  · simp only [Dest.set, strncpy]
    split
    · rfl
    · next hne =>
      have hshort : ((cstr s).take len.toNat).length = (cstr s).length := by
        rw [List.length_take] at hne htake ⊢
        omega
      rw [if_pos (by omega), Int.toNat_natCast, hshort]
      exact List.getD_eq_default _ _ le_rfl

/-- 同じ領域にある NUL のない文字列は一つである。 -/
theorem HasText.unique {s' : Bytes} (h : HasText d il s) (h' : HasText d il s') (hs : 0 ∉ s)
    (hs' : 0 ∉ s') : s = s' := by
  have hle : ∀ {s s' : Bytes}, HasText d il s → HasText d il s' → 0 ∉ s → s.length ≤ s'.length := by
    intro s s' h h' hs
    by_contra hlt
    have hzero := h.text s'.length (by omega)
    rw [h'.terminated, List.getD_eq_getElem _ _ (by omega)] at hzero
    exact hs (hzero ▸ List.getElem_mem _)
  refine List.ext_getElem (Nat.le_antisymm (hle h h' hs) (hle h' h hs')) fun j h₁ h₂ => ?_
  have heq := (h.text j h₁).symm.trans (h'.text j h₂)
  rwa [List.getD_eq_getElem _ _ h₁, List.getD_eq_getElem _ _ h₂] at heq

/-! ## 最後の `/` -/

theorem rfindSlash_split (a n : Bytes) :
    rfindSlash (a ++ slash :: n) =
      some (((rfindSlash n).map (a.length + 1 + ·)).getD a.length) := by
  induction a with
  | nil =>
    cases h : rfindSlash n <;> simp [rfindSlash, h, Nat.add_comm]
  | cons b a ih =>
    rw [List.cons_append, rfindSlash, ih]
    cases h : rfindSlash n
    · rfl
    · simp only [Option.map_some, Option.getD_some, List.length_cons]
      congr 1
      omega

theorem lastSlashLoop_eq {s : Bytes} (fuel pos : Nat) (lastSlash : Option Nat)
    (hpos : pos ≤ s.length) (hfuel : s.length - pos < fuel) :
    lastSlashLoop s fuel pos lastSlash =
      some (((rfindSlash (s.drop pos)).map (pos + ·)).or lastSlash) := by
  -- 一周で `/` を一つ越えるので、残りの長さより多い燃料で足りる
  induction fuel generalizing pos lastSlash with
  | zero => omega
  | succ fuel ih =>
    rw [lastSlashLoop, strchr]
    cases hfind : (s.drop pos).findIdx? (· = slash) with
    | none =>
      have hno : slash ∉ s.drop pos := fun hmem => by
        simpa using List.findIdx?_eq_none_iff.mp hfind slash hmem
      simp [rfindSlash_eq_none hno]
    | some i =>
      obtain ⟨hlt, hat, -⟩ := List.findIdx?_eq_some_iff_getElem.mp hfind
      have hlen : i < s.length - pos := by simpa using hlt
      have hat : (s.drop pos)[i] = slash := by simpa using hat
      have hsplit : s.drop pos = (s.drop pos).take i ++ slash :: s.drop (pos + i + 1) := by
        conv_lhs => rw [← List.take_append_drop i (s.drop pos)]
        rw [List.drop_eq_getElem_cons hlt, hat, List.drop_drop]
        rfl
      have hrest : rfindSlash (s.drop pos) =
          some (((rfindSlash (s.drop (pos + i + 1))).map (i + 1 + ·)).getD i) := by
        have h := rfindSlash_split ((s.drop pos).take i) (s.drop (pos + i + 1))
        rwa [← hsplit, List.length_take_of_le (by simp; omega)] at h
      simp only [Option.map_some]
      split
      · rw [ih _ _ (by omega) (by omega), hrest]
        cases rfindSlash (s.drop (pos + i + 1))
        · rfl
        · simp only [Option.map_some, Option.getD_some, Option.some_or]
          congr 2
          omega
      · rw [hrest, List.drop_of_length_le (by omega)]
        rfl

/-- loop は必ず終わり、`last_slash` は最後の `/` である。 -/
theorem getCurPath_eq (addr : Nat) (str : Bytes) (oPath : Dest) (il : Int) {fuel : Nat}
    (hfuel : (cstr str).length < fuel) :
    getCurPath fuel addr str oPath il =
      some (if pathLength addr (rfindSlash (cstr str)) > il - 1 then .exits
        else .copied (pathLength addr (rfindSlash (cstr str)))
          (rcStrncpy oPath il str (pathLength addr (rfindSlash (cstr str))))) := by
  have hloop := lastSlashLoop_eq fuel 0 none (Nat.zero_le _) (by omega : (cstr str).length - 0 < fuel)
  rw [List.drop_zero, show (fun x => 0 + x) = id from funext Nat.zero_add, Option.map_id, id,
    Option.or_none] at hloop
  rw [getCurPath, hloop]
  rfl

/-! ## 条件 -/

/-- 正しい結果。`s` は `argv[0]` の文字列である。 -/
def CurPath.Correct (s : Bytes) (oPath : Dest) (il : Int) : CurPath → Prop
  | .exits => ∃ k, rfindSlash s = some k ∧ il - 1 < k
  | .copied len d =>
    0 ≤ len ∧ (∃ spans, d.spans = oPath.spans ++ spans ∧ AllWithin 0 il spans) ∧
      match rfindSlash s with
      | some k => HasText d il (s.take k)
      | none => HasText d il [] ∨ HasText d il (ascii ".")

/-- `get_cur_path` は必ず終わり、directory が入らなければ終了し、入れば `o_path` に正しく写す。 -/
def Computed (addr : Nat) (str : Bytes) (oPath : Dest) (il : Int) : Prop :=
  ∃ r, Converges (fun fuel => getCurPath fuel addr str oPath il) r ∧ r.Correct (cstr str) oPath il

/-- `NULL` からの距離の下位 32 bit。 -/
def nullOffset (addr : Nat) : Nat := (2 ^ 32 - addr % 2 ^ 32) % 2 ^ 32

/-- `/` のある文字列では、その位置が `s32` に入るか、畳んだ値が領域に入らない。`/` の無い文字列では、畳んだ
距離が領域に入り、その長さまでが空か `.` である。 -/
def Measurable (addr : Nat) (s : Bytes) (il : Int) : Prop :=
  match rfindSlash s with
  | some k => k < 2 ^ 31 ∨ (k % 2 ^ 32 < 2 ^ 31 ∧ il ≤ (k % 2 ^ 32 : Nat))
  | none => (nullOffset addr : Int) ≤ il - 1 ∧
      (s.take (nullOffset addr) = [] ∨ s.take (nullOffset addr) = ascii ".")

theorem pathLength_some (addr k : Nat) : pathLength addr (some k) = Int.bmod k (2 ^ 32) := by
  rw [pathLength]
  congr 1
  omega

theorem bmod_of_lt {n : Nat} (h : n % 2 ^ 32 < 2 ^ 31) : Int.bmod n (2 ^ 32) = (n % 2 ^ 32 : Nat) := by
  rw [Int.bmod_def]
  split <;> omega

theorem bmod_neg_of_le {n : Nat} (h : 2 ^ 31 ≤ n % 2 ^ 32) : Int.bmod n (2 ^ 32) < 0 := by
  rw [Int.bmod_def]
  split <;> omega

theorem pathLength_none (addr : Nat) :
    pathLength addr none = Int.bmod (nullOffset addr) (2 ^ 32) := by
  rw [pathLength, nullOffset, Int.bmod_def, Int.bmod_def]
  split_ifs <;> omega

theorem rfindSlash_lt {k : Nat} (h : rfindSlash s = some k) : k < s.length := by
  induction s generalizing k with
  | nil => cases h
  | cons b s ih =>
    rw [rfindSlash] at h
    cases hs : rfindSlash s with
    | none =>
      rw [hs] at h
      simp only [Option.ite_none_right_eq_some] at h
      cases h.2
      exact Nat.succ_pos _
    | some i =>
      rw [hs] at h
      cases h
      exact Nat.succ_lt_succ (ih hs)

theorem zero_not_mem_take (s : Bytes) (n : Nat) : 0 ∉ (cstr s).take n := fun h =>
  zero_notMem_cstr s (List.mem_of_mem_take h)

/-- 畳むと負になる距離は、負のまま `rc_strncpy` に渡る。 -/
theorem not_correct_of_neg {s : Bytes} {n : Nat} {d : Dest} (hil : 2 ≤ il) (h : 2 ^ 31 ≤ n % 2 ^ 32) :
    ¬CurPath.Correct s oPath il (if Int.bmod n (2 ^ 32) > il - 1 then .exits
      else .copied (Int.bmod n (2 ^ 32)) d) := by
  have hneg := bmod_neg_of_le h
  rw [if_neg (by omega)]
  exact fun hcorrect => absurd hcorrect.1 (by omega)

/-- 領域に入る長さ `n` を写した結果。 -/
theorem correct_copied (oPath : Dest) (str : Bytes) {n : Nat} (hfits : (n : Int) ≤ il - 1) (hs32 : il < 2 ^ 31) :
    HasText (rcStrncpy oPath il str n) il ((cstr str).take n) ∧
      (CurPath.Correct (cstr str) oPath il (.copied n (rcStrncpy oPath il str n)) ↔
        match rfindSlash (cstr str) with
        | some k => HasText (rcStrncpy oPath il str n) il ((cstr str).take k)
        | none => HasText (rcStrncpy oPath il str n) il [] ∨
            HasText (rcStrncpy oPath il str n) il (ascii ".")) := by
  obtain ⟨spans, hspans, hwithin, htext⟩ := rcStrncpy_text oPath str (Int.natCast_nonneg n) hfits hs32
  rw [Int.toNat_natCast] at htext
  exact ⟨htext, fun h => h.2.2, fun h => ⟨Int.natCast_nonneg n, ⟨spans, hspans, hwithin⟩, h⟩⟩

/-- `/` のある文字列。 -/
theorem correct_slash_iff {k : Nat} (hslash : rfindSlash (cstr str) = some k) (hil : 2 ≤ il)
    (hs32 : il < 2 ^ 31) :
    CurPath.Correct (cstr str) oPath il (if Int.bmod k (2 ^ 32) > il - 1 then .exits
        else .copied (Int.bmod k (2 ^ 32)) (rcStrncpy oPath il str (Int.bmod k (2 ^ 32)))) ↔
      k < 2 ^ 31 ∨ (k % 2 ^ 32 < 2 ^ 31 ∧ il ≤ (k % 2 ^ 32 : Nat)) := by
  by_cases hneg : 2 ^ 31 ≤ k % 2 ^ 32
  · refine iff_of_false (not_correct_of_neg hil hneg) ?_
    rintro (h | h) <;> omega
  rw [bmod_of_lt (by omega)]
  split
  · refine iff_of_true ⟨k, hslash, by omega⟩ ?_
    by_cases hk : k < 2 ^ 31
    · exact .inl hk
    · exact .inr ⟨by omega, by omega⟩
  · next hfits =>
    obtain ⟨htext, hcorrect⟩ := correct_copied oPath str (n := k % 2 ^ 32) (by omega) hs32
    rw [hcorrect]
    simp only [hslash]
    constructor
    · intro hdir
      have hfit := hdir.fits
      rw [List.length_take_of_le (Nat.le_of_lt (rfindSlash_lt hslash))] at hfit
      exact .inl (by omega)
    · rintro (hk | ⟨-, hk⟩)
      · rwa [show k % 2 ^ 32 = k by omega] at htext ⊢
      · omega

/-- `/` の無い文字列。 -/
theorem correct_noSlash_iff {n : Nat} (hslash : rfindSlash (cstr str) = none) (hn : n < 2 ^ 32)
    (hil : 2 ≤ il) (hs32 : il < 2 ^ 31) :
    CurPath.Correct (cstr str) oPath il (if Int.bmod n (2 ^ 32) > il - 1 then .exits
        else .copied (Int.bmod n (2 ^ 32)) (rcStrncpy oPath il str (Int.bmod n (2 ^ 32)))) ↔
      (n : Int) ≤ il - 1 ∧ ((cstr str).take n = [] ∨ (cstr str).take n = ascii ".") := by
  have hmod : n % 2 ^ 32 = n := Nat.mod_eq_of_lt hn
  by_cases hneg : 2 ^ 31 ≤ n
  · exact iff_of_false (not_correct_of_neg hil (by omega)) fun h => by omega
  have hlen := bmod_of_lt (n := n) (by omega)
  rw [hmod] at hlen
  rw [hlen]
  split
  · refine iff_of_false ?_ fun h => by omega
    rintro ⟨k, hk, -⟩
    rw [hslash] at hk
    cases hk
  · next hfits =>
    obtain ⟨htext, hcorrect⟩ := correct_copied oPath str (n := n) (by omega) hs32
    rw [hcorrect]
    simp only [hslash]
    have hdot : 0 ∉ ascii "." := by decide
    constructor
    · rintro (hnil | hone)
      · exact ⟨by omega, .inl (htext.unique hnil (zero_not_mem_take _ _) (by simp))⟩
      · exact ⟨by omega, .inr (htext.unique hone (zero_not_mem_take _ _) hdot)⟩
    · rintro ⟨-, hdir⟩
      exact hdir.imp (fun h => by rwa [h] at htext) (fun h => by rwa [h] at htext)

/-- **`get_cur_path` が正しいのは、`last_slash - str` が `s32` に畳まれても正しい長さのままのときに限る。** -/
theorem computed_iff (addr : Nat) (str : Bytes) (oPath : Dest) {il : Int} (hil : 2 ≤ il)
    (hs32 : il < 2 ^ 31) : Computed addr str oPath il ↔ Measurable addr (cstr str) il := by
  have hconv := Converges.of_lt fun fuel hfuel =>
    getCurPath_eq addr str oPath il hfuel
  have hcomputed : Computed addr str oPath il ↔ CurPath.Correct (cstr str) oPath il _ :=
    ⟨fun ⟨r, hr, hcorrect⟩ => hconv.unique hr ▸ hcorrect, fun h => ⟨_, hconv, h⟩⟩
  rw [hcomputed, Measurable]
  cases hslash : rfindSlash (cstr str) with
  | some k =>
    rw [pathLength_some]
    exact correct_slash_iff hslash hil hs32
  | none =>
    rw [pathLength_none]
    exact correct_noSlash_iff hslash (Nat.mod_lt _ (by decide)) hil hs32

theorem computed_absolute :
    (2 : Int) ≤ 256 ∧ (256 : Int) < 2 ^ 31 ∧
      Computed 0x7ffe12345678 (ascii "/usr/sbin/record") ⟨fun _ => 0, []⟩ 256 := by
  refine ⟨by decide, by decide, (computed_iff _ _ _ (by decide) (by decide)).mpr ?_⟩
  show 9 < 2 ^ 31 ∨ _
  exact .inl (by decide)

/-- `PATH` から起動されて `argv[0]` に `/` が無いと、負の長さを写す。 -/
theorem no_slash_negative_length :
    ¬Computed 0x7ffe12345678 (ascii "record") ⟨fun _ => 0, []⟩ 256 := by
  rintro ⟨r, hr, hcorrect⟩
  have heq := hr.unique (Converges.of_lt fun fuel hfuel => getCurPath_eq _ _ _ _ hfuel)
  have hlen : pathLength 0x7ffe12345678 (rfindSlash (cstr (ascii "record"))) = -305419896 := by decide
  rw [hlen, if_neg (by decide)] at heq
  subst heq
  exact absurd hcorrect.1 (by decide)

end RecordServer.Main
