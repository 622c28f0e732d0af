import Mathlib.Data.List.TakeWhile

/-!
# byte 列

C の `char` の列を `UInt8` の list で表す。終端の NUL は含めない。C の文字列として読まれるのは、最初の NUL より前
（`cstr`）である。
-/

namespace RecordServer.Infra

abbrev Bytes := List UInt8

/-- ASCII の文字列リテラルを byte 列にする。 -/
def ascii (s : String) : Bytes := s.toByteArray.data.toList

/-- C の文字列として読む範囲。最初の NUL で終わる。 -/
def cstr (s : Bytes) : Bytes := s.takeWhile (· ≠ 0)

theorem zero_notMem_cstr (s : Bytes) : 0 ∉ cstr s := by
  intro hmem
  simpa using List.mem_takeWhile_imp hmem

theorem cstr_eq_self {s : Bytes} (h : 0 ∉ s) : cstr s = s := by
  rw [cstr, List.takeWhile_eq_self_iff]
  intro b hb
  have hne : b ≠ 0 := fun h0 => h (h0 ▸ hb)
  simpa using hne

theorem cstr_cstr (s : Bytes) : cstr (cstr s) = cstr s := cstr_eq_self (zero_notMem_cstr s)

/-- NUL を含まない byte 列。 -/
abbrev CString := {s : Bytes // 0 ∉ s}

/-- `c_str()` を渡した先で読まれる文字列。 -/
def CString.ofBytes (s : Bytes) : CString := ⟨cstr s, zero_notMem_cstr s⟩

theorem ascii_injective : Function.Injective ascii := by
  intro a b h
  unfold ascii at h
  exact String.toByteArray_inj.mp (ByteArray.ext (Array.ext' h))

/-! ## 文字ごとの byte -/

/-- 文字の列の UTF-8 の表現。 -/
def utf8 (cs : List Char) : Bytes := cs.flatMap String.utf8EncodeChar

theorem ascii_eq_utf8 (s : String) : ascii s = utf8 s.toList := by
  unfold ascii utf8
  rw [← String.utf8Encode_toList, List.utf8Encode]
  simp

theorem utf8_injective : Function.Injective utf8 := by
  intro cs cs' h
  have heq : ascii (String.ofList cs) = ascii (String.ofList cs') := by
    rw [ascii_eq_utf8, ascii_eq_utf8, String.toList_ofList, String.toList_ofList, h]
  simpa using congrArg String.toList (ascii_injective heq)

@[simp] theorem utf8_append (cs cs' : List Char) : utf8 (cs ++ cs') = utf8 cs ++ utf8 cs' :=
  List.flatMap_append

theorem utf8EncodeChar_of_lt {c : Char} (h : c.toNat < 128) :
    String.utf8EncodeChar c = [UInt8.ofNat c.toNat] := by
  have hle : c.val.toNat ≤ 127 := Nat.le_of_lt_succ h
  simp only [String.utf8EncodeChar]
  rw [if_pos hle]
  rfl

/-- ASCII でない文字の byte は、どれも 128 以上である。 -/
theorem le_of_mem_utf8EncodeChar {c : Char} (h : 128 ≤ c.toNat) {b : UInt8}
    (hb : b ∈ String.utf8EncodeChar c) : 128 ≤ b := by
  have hgt : ¬ c.val.toNat ≤ 127 := fun hle => absurd (Nat.lt_succ_of_le hle) (Nat.not_lt.mpr h)
  simp only [String.utf8EncodeChar, if_neg hgt] at hb
  rw [UInt8.le_iff_toNat_le]
  show 128 ≤ _
  split at hb
  · simp only [List.mem_cons, List.not_mem_nil, or_false] at hb
    rcases hb with rfl | rfl <;> simp only [UInt8.toNat_ofNat'] <;> omega
  · split at hb
    · simp only [List.mem_cons, List.not_mem_nil, or_false] at hb
      rcases hb with rfl | rfl | rfl <;> simp only [UInt8.toNat_ofNat'] <;> omega
    · simp only [List.mem_cons, List.not_mem_nil, or_false] at hb
      rcases hb with rfl | rfl | rfl | rfl <;> simp only [UInt8.toNat_ofNat'] <;> omega

/-- 最後の byte が ASCII なら、最後の文字がそれである。 -/
theorem utf8_eq_concat {cs : List Char} {x : Bytes} {b : UInt8} (hb : b < 128)
    (h : utf8 cs = x ++ [b]) :
    ∃ cs' c, cs = cs' ++ [c] ∧ x = utf8 cs' ∧ c.toNat = b.toNat := by
  rcases List.eq_nil_or_concat cs with rfl | ⟨cs', c, rfl⟩
  · simp [utf8] at h
  rw [List.concat_eq_append, utf8_append] at h
  have hlast : (String.utf8EncodeChar c).getLast? = some b := by
    have heq := congrArg List.getLast? h
    rw [List.getLast?_concat, List.getLast?_append] at heq
    have hne : String.utf8EncodeChar c ≠ [] := by
      intro hnil
      have hlen := String.length_utf8EncodeChar c
      rw [hnil] at hlen
      exact absurd hlen.symm (Nat.ne_of_gt c.utf8Size_pos)
    simpa [utf8, List.getLast?_eq_some_getLast hne] using heq
  have hlt : c.toNat < 128 := by
    by_contra hge
    have hle := le_of_mem_utf8EncodeChar (by omega) (List.mem_of_getLast? hlast)
    exact absurd hb (UInt8.not_lt.mpr hle)
  have henc := utf8EncodeChar_of_lt hlt
  rw [henc] at hlast
  have hbc : UInt8.ofNat c.toNat = b := by simpa using hlast
  refine ⟨cs', c, List.concat_eq_append, ?_, ?_⟩
  · rw [show utf8 [c] = [b] by simp [utf8, henc, hbc]] at h
    exact (List.append_inj_left' h rfl).symm
  · rw [← hbc, UInt8.toNat_ofNat']
    omega

/-- 自然数の十進の表記は数字だけからなる。 -/
theorem digit_of_mem_repr {n : Nat} {b : UInt8} (h : b ∈ ascii (Nat.repr n)) :
    48 ≤ b ∧ b ≤ 57 := by
  rw [ascii_eq_utf8, Nat.toList_repr] at h
  obtain ⟨c, hc, hb⟩ := List.mem_flatMap.mp h
  have hdigit := Char.isDigit_iff_toNat.mp (Nat.isDigit_of_mem_toDigits (by decide) (by decide) hc)
  have hlow : 48 ≤ c.toNat := hdigit.1
  have hhigh : c.toNat ≤ 57 := hdigit.2
  rw [utf8EncodeChar_of_lt (by omega), List.mem_singleton] at hb
  rw [UInt8.le_iff_toNat_le, UInt8.le_iff_toNat_le, hb, UInt8.toNat_ofNat']
  show 48 ≤ _ ∧ _ ≤ 57
  omega

end RecordServer.Infra
