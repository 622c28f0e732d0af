import RecordServer.Conf.Properties.Acceptance
import RecordServer.Conf.Mirror
import RecordServer.Conf.Readfile

/-!
# 書き出したものを読み戻す

木を書き出したファイルを `readconf` と `parse` で読むと元の木が返るのは、ファイルが 256 KiB に
満たず、最後の周回の初期化されていない `name` が `NULL` でないときに限る。

* `parse_rendering` — 書き出したファイルの `parse`
* `readAndParse_rendering_iff` — 読み戻せるちょうどの条件
-/

namespace RecordServer.Conf

open Infra

variable {env : Env} {t : Entries} {s : Bytes}

/-- list が木を写し、どの block からも項目が取り出せる。 -/
structure RoundTrips (t : Entries) (cn : CN) : Prop where
  mirror : cn = mirror t
  reads : ∀ path u, t.descend path = some u → ReadsBack u (descendCN path cn)

theorem mirror_roundTrips (t : Entries) : RoundTrips t (mirror t) where
  mirror := rfl
  reads := by
    intro path u hu
    rw [descendCN_mirror path hu]
    exact mirror_readsBack u

theorem sepEnd_newline : SepEnd [newline] := Or.inl (.blank rfl (.refl []))

/-- `name` に何かが残っていれば、書き出したファイルは元の木に読める。 -/
theorem parse_rendering (ht : t.Ok true) (hs : Rendering t s) (hname : env.name 1 ≠ none) :
    ∃ s', parse env s = some (0, s', mirror t) := by
  have hparse := hs.parses (extends_env env) ht
  rw [← stored_eq_mirror t ht]
  exact parse_complete hparse ⟨rfl, Or.inr (Or.inl ⟨sepEnd_newline, hname⟩)⟩ nofun

/-- 書き出したファイルが受け入れられたなら、`name` は `NULL` でなかった。 -/
theorem name_of_returnCode (ht : t.Ok true) (hs : Rendering t s)
    (hzero : returnCode env s = some 0) : env.name 1 ≠ none := by
  obtain ⟨t', q, hparse', ⟨-, hstop⟩, -⟩ := (returnCode_eq_zero_iff env s).mp hzero
  have hparse := hs.parses (extends_env env) ht
  obtain ⟨-, rfl⟩ := hparse.unique hparse' (Or.inr (Or.inl sepEnd_newline)) (done_of_stop hstop)
  rcases hstop with hnil | ⟨-, hname⟩ | hbare
  · cases hnil
  · exact hname
  · exact absurd sepEnd_newline hbare.not_sepEnd

/-- **木を書き出したファイルが、`read` がどう分けても元の木に読み戻されるのは、256 KiB に満たず、
最後の周回の `name` が `NULL` でないときに限る。** -/
theorem readAndParse_rendering_iff (env : Env) (fresh : Nat → UInt8) (t : Entries) (ht : t.Ok true)
    (s : Bytes) (hs : Rendering t s) :
    (∀ chunks, Chunked 1024 chunks → chunks.flatten = s →
      ∃ cn, readAndParse env fresh (.reads chunks 0) = some (0, cn) ∧ RoundTrips t cn) ↔
    s.length < 262144 ∧ env.name 1 ≠ none := by
  have hsingles := chunked_singles s 1024 (by decide)
  constructor
  · intro h
    obtain ⟨cn, hcn, -⟩ := h _ hsingles (flatten_singles s)
    have hlen : s.length < readconfSize := by
      by_contra hge
      rw [readAndParse_overflow env fresh (Nat.le_of_not_lt hge)] at hcn
      cases hcn
    refine ⟨hlen, name_of_returnCode ht hs ?_⟩
    rw [readAndParse_eq env fresh hsingles (by rwa [flatten_singles]), flatten_singles] at hcn
    obtain ⟨⟨code, s', cn'⟩, hparse, hcode⟩ := Option.map_eq_some_iff.mp hcn
    cases hcode
    rw [returnCode, hparse]
    rfl
  · rintro ⟨hlen, hname⟩ chunks hchunks rfl
    obtain ⟨s', hparse⟩ := parse_rendering ht hs hname
    refine ⟨mirror t, ?_, mirror_roundTrips t⟩
    rw [readAndParse_eq env fresh hchunks hlen, hparse]
    rfl

/-! ## 値の項目一つの木 -/

/-- `a 1 ;` と改行。 -/
theorem rendering_value :
    Rendering (.leaf (ascii "a") (.value (ascii "1")) .nil) (ascii "a 1 ;\n") := by
  have hgap : Gap [32] := ⟨32, [], rfl, rfl, .refl []⟩
  exact .first (.next hgap (.next hgap .done))

theorem ok_value : (Entries.leaf (ascii "a") (.value (ascii "1")) .nil).Ok true := by
  refine ⟨⟨?_, ?_, ?_⟩, ⟨?_, ⟨?_, ?_, ?_, ?_, ?_⟩⟩, trivial⟩ <;> decide +kernel

theorem readAndParse_rendering_value :
    (Entries.leaf (ascii "a") (.value (ascii "1")) .nil).Ok true ∧
    Rendering (.leaf (ascii "a") (.value (ascii "1")) .nil) (ascii "a 1 ;\n") ∧
    ∀ chunks, Chunked 1024 chunks → chunks.flatten = ascii "a 1 ;\n" →
      ∃ cn, readAndParse (fixedEnv (some [])) (fun _ => 0) (.reads chunks 0) = some (0, cn) ∧
        RoundTrips (.leaf (ascii "a") (.value (ascii "1")) .nil) cn := by
  refine ⟨ok_value, rendering_value, ?_⟩
  exact (readAndParse_rendering_iff (fixedEnv (some [])) (fun _ => 0) _ ok_value _
    rendering_value).mpr ⟨by decide +kernel, nofun⟩

/-- **`name` がたまたま `NULL` なら、書き出した木は拒まれる。** -/
theorem rendering_value_rejected :
    ¬∀ (env : Env) (fresh : Nat → UInt8) (t : Entries), t.Ok true → ∀ s, Rendering t s →
      ∀ chunks, Chunked 1024 chunks → chunks.flatten = s →
        ∃ cn, readAndParse env fresh (.reads chunks 0) = some (0, cn) ∧ RoundTrips t cn := by
  intro h
  have hchunk : Chunked 1024 [ascii "a 1 ;\n"] := ⟨by decide +kernel, by decide +kernel, trivial⟩
  obtain ⟨cn, hcn, -⟩ := h (fixedEnv none) (fun _ => 0) _ ok_value _ rendering_value _ hchunk
    (List.append_nil _)
  have hreject : (readAndParse (fixedEnv none) (fun _ => 0) (.reads [ascii "a 1 ;\n"] 0)).map (·.1)
      = some (-1) := by decide +kernel
  rw [hcn] at hreject
  cases hreject

end RecordServer.Conf
