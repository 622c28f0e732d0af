import RecordServer.Conf.RawRun
import RecordServer.Conf.Properties.Acceptance

/-!
# 報告の行番号

`is_sub_node` と `is_array_node` は、読み飛ばした位置を捨てるのに、数えた行は残す。名前と次の字句の
間に改行があると、そこを通るたびに行番号が余計に進む。

* `linesRight_iff` — 行番号が正しいのは、報告がないか、先読みした所に改行がないときに限る
-/

namespace RecordServer.Conf

open Infra Raw

variable {env : Env} {locals : Locals} {buf p q : Bytes}

/-- どの報告の行番号も、その位置より前にある改行の数に 1 を足したものである。 -/
def LinesRight (env : Env) (locals : Locals) (buf : Bytes) : Prop :=
  ∃ code s cn, Raw.parse env locals buf = some (code, s, cn) ∧
    ∀ r ∈ s.pconf.log, r.linenum = 1 + newlines (buf.take (buf.length - r.rest.length))

/-- 位置の前と後の改行を合わせると、全部の改行になる。 -/
theorem newlines_before_add (h : q <:+ buf) :
    newlines (buf.take (buf.length - q.length)) + newlines q = newlines buf := by
  obtain ⟨l, rfl⟩ := h
  rw [List.length_append, Nat.add_sub_cancel, List.take_left]
  exact (List.count_append (a := newline)).symm

/-- `parse` の返り値は、記録を忘れても同じである。 -/
theorem returnCode_of_parse {code : Int} {s : State} {cn : CN}
    (h : Raw.parse env locals buf = some (code, s, cn)) :
    returnCode (locals.env env) buf = some code := by
  rw [returnCode, ← parse_erase, h]
  rfl

/-- 先読みで余計に数えた行がないのは、先読みした所に改行がないときに限る。 -/
theorem gaps_eq_zero_iff_visits {evs : List Event}
    (hvisits : ∀ e, e ∈ evs ↔ Visits env.alphabet true buf e) :
    gaps evs = 0 ↔
      ∀ p, Visits env.alphabet true buf (.ahead p) → newlines (skip p) = newlines p := by
  rw [gaps_eq_zero_iff]
  constructor
  · intro h p hp
    have hgap : newlines p - newlines (skip p) = 0 := h _ ((hvisits _).mpr hp)
    have hle := newlines_le_of_suffix (skip_suffix p)
    omega
  · intro h e he
    cases e with
    | test t b => rfl
    | ahead p =>
      have heq := h p ((hvisits _).mp he)
      rw [gap, heq, Nat.sub_self]

/-- **報告の行番号が正しいのは、ファイルが受け入れられて報告がないか、名前の後の先読みで改行を
通らないときに限る。** -/
theorem linesRight_iff (env : Env) (locals : Locals) (buf : Bytes) :
    LinesRight env locals buf ↔
      (∃ t p, Parses env.alphabet true buf t p ∧ Stops (locals.env env) true p [] ∧
        (p = [] → t.endsInValue = false)) ∨
      ∀ p, Visits env.alphabet true buf (.ahead p) → newlines (skip p) = newlines p := by
  obtain ⟨code, s, cn, hparse, hvisits, hends⟩ := parse_run env locals buf
  have haccepted : (∃ t p, Parses env.alphabet true buf t p ∧ Stops (locals.env env) true p [] ∧
      (p = [] → t.endsInValue = false)) ↔ code = 0 := by
    have hzero := returnCode_eq_zero_iff (locals.env env) buf
    rw [returnCode_of_parse hparse, Option.some_inj] at hzero
    exact hzero.symm
  rw [haccepted]
  rcases hends with ⟨rfl, hreads⟩ | ⟨rfl, s₁, q, ms, hms, hreads, rfl⟩
  · refine iff_of_true ⟨0, s, cn, hparse, ?_⟩ (Or.inl rfl)
    rw [show s.pconf.log = [] from hreads.log]
    exact fun r hr => absurd hr List.not_mem_nil
  · -- どの報告も `q` でされ、その行番号には余計な行が入る
    have hlines : s₁.pconf.linenum + newlines q = 1 + newlines buf + gaps s₁.events := by
      have h := hreads.lines
      rwa [reports_events] at h
    have hlog : (s₁.reports ms q).pconf.log = ms.map fun m => ⟨m, s₁.pconf.linenum, q⟩ := by
      rw [reports_log, show s₁.pconf.log = [] from hreads.log, List.nil_append]
    have hbefore := newlines_before_add hreads.suffix
    rw [reports_events] at hvisits
    rw [← gaps_eq_zero_iff_visits hvisits]
    constructor
    · rintro ⟨code', s', cn', hparse', hright⟩
      rw [hparse] at hparse'
      cases hparse'
      obtain ⟨m, hm⟩ := List.exists_mem_of_ne_nil ms hms
      have h := hright ⟨m, s₁.pconf.linenum, q⟩ (by rw [hlog]; exact List.mem_map_of_mem hm)
      simp only at h
      omega
    · intro h
      have hgaps := h.resolve_left (by decide)
      refine ⟨-1, _, cn, hparse, fun r hr => ?_⟩
      rw [hlog] at hr
      obtain ⟨m, -, rfl⟩ := List.mem_map.mp hr
      simp only
      omega

/-- **名前の次の行に値があると、報告の行番号は二つ大きい。** -/
theorem value_on_next_line :
    ¬∀ (env : Env) (locals : Locals) (buf : Bytes), LinesRight env locals buf := by
  intro h
  obtain ⟨code, s, cn, hparse, hright⟩ := h (fixedEnv none) ⟨fun _ => none, fun _ => 0, fun _ => 0⟩
    (ascii "a\n1")
  have hlog : (Raw.parse (fixedEnv none) ⟨fun _ => none, fun _ => 0, fun _ => 0⟩
      (ascii "a\n1")).map (fun r => r.2.1.pconf.log)
      = some [⟨.expectSemicolon, 4, []⟩, ⟨.exceptValue, 4, []⟩] := by decide +kernel
  rw [hparse] at hlog
  have hlog : s.pconf.log = [⟨.expectSemicolon, 4, []⟩, ⟨.exceptValue, 4, []⟩] := Option.some.inj hlog
  have hline := hright ⟨.expectSemicolon, 4, []⟩ (by rw [hlog]; simp)
  revert hline
  decide +kernel

end RecordServer.Conf
