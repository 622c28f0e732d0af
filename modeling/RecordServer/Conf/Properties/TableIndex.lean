import RecordServer.Conf.AsciiVisits
import RecordServer.Conf.RawRun

/-!
# 文字の表を引く添字

`char` には符号があるので `*p > 127` は成り立たず、128 以上の byte は負の添字で表を引く。

* `tablesInRange_iff` — 添字が範囲に収まるのは、名前や値を期待する所に 128 以上の byte がないときに限る
-/

namespace RecordServer.Conf

open Infra Raw

variable {env : Env} {buf : Bytes}

/-- `parse` の間、表を引く添字はいつも 0 から 127 で、128 以上の byte は許さない。 -/
def TablesInRange (env : Env) (locals : Locals) (buf : Bytes) : Prop :=
  ∃ code s cn, Raw.parse env locals buf = some (code, s, cn) ∧
    ∀ t b, Event.test t b ∈ s.events →
      (∀ i, lookupIndex b = some i → 0 ≤ i ∧ i ≤ 127) ∧ (128 ≤ b → t.valid env b = false)

/-- 表を引く添字が範囲に収まるのは、ASCII の文字に限る。 -/
theorem lookupIndex_inRange_iff (b : UInt8) :
    (∀ i, lookupIndex b = some i → 0 ≤ i ∧ i ≤ 127) ↔ b < 128 := by
  have hnat : b < 128 ↔ b.toNat < 128 := UInt8.lt_iff_toNat_lt
  have hlt : b.toNat < 256 := b.toNat_lt
  by_cases hb : b < 128
  · simp only [lookupIndex, charValue, if_pos hb]
    rw [if_neg (by have := hnat.mp hb; omega)]
    refine iff_of_true ?_ hb
    rintro i ⟨⟩
    have := hnat.mp hb
    omega
  · -- `char` としての値は負である
    simp only [lookupIndex, charValue, if_neg hb]
    rw [if_neg (by omega)]
    refine iff_of_false (fun h => ?_) hb
    have := (h _ rfl).1
    omega

theorem agreeAscii_tables (env : Env) : AgreeAscii env.alphabet tables :=
  fun _ hb => ⟨lookup_charValue hb _ _, lookup_charValue hb _ _⟩

/-- **表を引く添字が範囲に収まり、範囲の外の文字が拒まれるのは、名前や値を期待する所に 128 以上の
byte がないときに限る。** -/
theorem tablesInRange_iff (env : Env) (locals : Locals) (buf : Bytes) :
    TablesInRange env locals buf ↔
      ∀ t b, Visits tables true buf (.test t b) → b < 128 := by
  change _ ↔ Ascii tables true buf
  rw [← ascii_iff (agreeAscii_tables env)]
  obtain ⟨code, s, cn, hparse, hvisits, -⟩ := parse_run env locals buf
  constructor
  · rintro ⟨code', s', cn', hparse', htests⟩ t b hb
    rw [hparse] at hparse'
    cases hparse'
    exact (lookupIndex_inRange_iff b).mp (htests t b ((hvisits _).mpr hb)).1
  · intro h
    refine ⟨code, s, cn, hparse, fun t b hb => ?_⟩
    have hlt := h t b ((hvisits _).mp hb)
    exact ⟨(lookupIndex_inRange_iff b).mpr hlt, fun hle => absurd hlt (UInt8.not_lt.mpr hle)⟩

/-- **128 の byte で始まるファイルは、表を -128 で引く。** -/
theorem byte128_outOfRange :
    ¬∀ (env : Env) (locals : Locals) (buf : Bytes), TablesInRange env locals buf := by
  intro h
  obtain ⟨code, s, cn, hparse, htests⟩ :=
    h ⟨fun _ => false, fun _ => false, fun _ => none⟩ ⟨fun _ => none, fun _ => 0, fun _ => 0⟩ [128]
  have hevents : (Raw.parse ⟨fun _ => false, fun _ => false, fun _ => none⟩
      ⟨fun _ => none, fun _ => 0, fun _ => 0⟩ [128]).map (fun r => r.2.1.events)
      = some [.test .name 128] := by decide +kernel
  rw [hparse] at hevents
  have hevents : s.events = [.test .name 128] := Option.some.inj hevents
  have hindex := (htests .name 128 (by rw [hevents]; simp)).1 (-128) rfl
  omega

end RecordServer.Conf
