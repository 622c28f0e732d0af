import RecordServer.Conf.Properties.RoundTrip

/-!
# 長い名前と値

名前は 64 byte、値は 128 byte の配列に `rc_strncpy` で写され、入らない分は黙って落ちる。

* `Storable` — 木のどの名前も値も、終端を含めて配列に入る
* `EndStorable` — ファイルの終わりに接して読み捨てられる名前も、配列に入る長さである
* `Faithful` — 受け入れたファイルでは、出来た list がファイルの字句をそのまま持ち、入らない字句のあるファイルは拒まれる
* `faithful_iff` — そうなるのは、受け入れられるファイルの字句がみな配列に入るときに限る
* `long_name_accepted` — 64 byte の名前が 63 byte に切られ、切れた名前で見つかる。名前だけでも拒まれない
-/

namespace RecordServer.Conf

open Infra

variable {env : Env} {top : Bool} {buf p q : Bytes} {t : Entries}

/-- どの名前も値も、終端を含めて配列に入る。 -/
def Entries.Storable : Entries → Prop
  | .nil => True
  | .leaf name (.value v) rest => name.length < confNamel ∧ v.length < confVarl ∧ rest.Storable
  | .leaf name (.array vs) rest =>
    name.length < confNamel ∧ (∀ v ∈ vs, v.length < confVarl) ∧ rest.Storable
  | .block _ name sub rest => name.length < confNamel ∧ sub.Storable ∧ rest.Storable

/-- 終わりに残った名前も、終端を含めて配列に入る。 -/
def EndStorable (A : Alphabet) (p : Bytes) : Prop :=
  ∀ q name, Sep p q → Run A.name q name [] → name.length < confNamel

/-- ファイルを木 `t` に読み切ると、`p` が残る。 -/
def FileTree (env : Env) (buf : Bytes) (t : Entries) (p : Bytes) : Prop :=
  Parses env.alphabet true buf t p ∧ Done env.alphabet p

/-- ファイルを読み切ったところで、その終わり方を `parse` が許す。 -/
def Accepted (env : Env) (buf : Bytes) (t : Entries) (p : Bytes) : Prop :=
  Parses env.alphabet true buf t p ∧ Stops env true p [] ∧ (p = [] → t.endsInValue = false)

structure Faithful (env : Env) (buf : Bytes) : Prop where
  /-- 受け入れたファイルでは、取り出す関数はファイルの字句のとおりに答える。 -/
  answers : ∀ s cn, parse env buf = some (0, s, cn) → ∃ t p, FileTree env buf t p ∧ RoundTrips t cn
  /-- 入らない字句のあるファイルは拒まれる。終わりに残った名前も字句である。 -/
  rejects : ∀ t p, FileTree env buf t p → ¬ (t.Storable ∧ EndStorable env.alphabet p) →
    returnCode env buf = some (-1)

/-! ## 切られない条件 -/

theorem length_rcStrncpy (dl : Nat) (w : Bytes) : (rcStrncpy dl w).length ≤ dl - 1 := by
  unfold rcStrncpy
  split
  · rename_i h
    have hle := (List.takeWhile_prefix (l := w.take w.length) (· != 0)).length_le
    rw [List.take_length] at hle ⊢
    omega
  · have hle := (List.takeWhile_prefix (l := w.take (dl - 1)) (· != 0)).length_le
    exact hle.trans (List.length_take_le _ _)

theorem length_lt_of_stored {dl : Nat} {w : Bytes} (hdl : 0 < dl) (h : rcStrncpy dl w = w) :
    w.length < dl := by
  have hle := length_rcStrncpy dl w
  rw [h] at hle
  omega

theorem storable_of_storedArray {vs : List Bytes} (h : storedArray vs = mirrorArray vs) :
    ∀ v ∈ vs, v.length < confVarl := by
  induction vs with
  | nil => simp
  | cons v vs ih =>
    obtain ⟨-, hv, -, -, hvs⟩ := CN.node.inj h
    intro u hu
    rcases List.mem_cons.mp hu with rfl | hu
    · exact length_lt_of_stored (by decide) hv
    · exact ih hvs u hu

/-- 切られずに写ったなら、どの字句も配列に入る。 -/
theorem storable_of_stored (h : stored t = mirror t) : t.Storable := by
  induction t with
  | nil => trivial
  | leaf n x rest ih =>
    cases x with
    | value v =>
      obtain ⟨hn, hv, -, -, hrest⟩ := CN.node.inj h
      exact ⟨length_lt_of_stored (by decide) hn, length_lt_of_stored (by decide) hv, ih hrest⟩
    | array vs =>
      obtain ⟨hn, -, -, hvs, hrest⟩ := CN.node.inj h
      exact ⟨length_lt_of_stored (by decide) hn, storable_of_storedArray hvs, ih hrest⟩
  | block k n sub rest ihsub ih =>
    obtain ⟨hn, -, -, hsub, hrest⟩ := CN.node.inj h
    exact ⟨length_lt_of_stored (by decide) hn, ihsub hsub, ih hrest⟩

/-! ## 字句に NUL は無い -/

theorem name_ne_nul {n r : Bytes} (h : Run env.alphabet.name p n r) : ∀ b ∈ n, b ≠ 0 := by
  rintro b hb rfl
  cases h.all 0 hb

theorem value_ne_nul {v r : Bytes} (h : Value env.alphabet p v r) : ∀ b ∈ v, b ≠ 0 := by
  rintro b hb rfl
  cases h.1.all 0 hb

theorem stored_of_lt {dl : Nat} {w : Bytes} (hlen : w.length < dl) (hnul : ∀ b ∈ w, b ≠ 0) :
    rcStrncpy dl w = w := rcStrncpy_eq (by omega) hnul

theorem MoreValues.stored {vs : List Bytes} (h : MoreValues env.alphabet p vs q)
    (hvs : ∀ v ∈ vs, v.length < confVarl) : storedArray vs = mirrorArray vs := by
  induction h with
  | close h => rfl
  | comma hcomma hsep hv h ih =>
    obtain ⟨hlen, hrest⟩ := List.forall_mem_cons.mp hvs
    rw [storedArray, stored_of_lt hlen (value_ne_nul hv), ih hrest]
    rfl

theorem Values.stored {vs : List Bytes} (h : Values env.alphabet p vs q)
    (hvs : ∀ v ∈ vs, v.length < confVarl) : storedArray vs = mirrorArray vs := by
  cases h with
  | close h => rfl
  | first hsep hv h =>
    obtain ⟨hlen, hrest⟩ := List.forall_mem_cons.mp hvs
    rw [storedArray, stored_of_lt hlen (value_ne_nul hv), h.stored hrest]
    rfl

/-- **読んだ木の字句がみな配列に入れば、list は木の写しになる。** -/
theorem Parses.stored_eq_mirror (h : Parses env.alphabet top p t q) (ht : t.Storable) :
    stored t = mirror t := by
  induction h with
  | nil p => rfl
  | leaf hsep hname htail hrest ih =>
    cases htail with
    | value hproc hsep' hv hopen hend =>
      obtain ⟨hn, hvlen, hst⟩ := ht
      rw [stored, ih hst, storedLeaf, stored_of_lt hn (name_ne_nul hname),
        stored_of_lt hvlen (value_ne_nul hv)]
      rfl
    | array hopen hvs =>
      obtain ⟨hn, hvlen, hst⟩ := ht
      rw [stored, ih hst, storedLeaf, stored_of_lt hn (name_ne_nul hname), hvs.stored hvlen]
      rfl
  | @block top p p₁ p₂ p₃ p₄ p₅ q word name kind sub rest hsep hword hopens hsub hclose hrest ihsub ih =>
    obtain ⟨hn, hst, hst'⟩ := ht
    have hnul : ∀ b ∈ name, b ≠ 0 := by
      cases hopens with
      | sub hopen => exact name_ne_nul hword
      | proc htop hproc hsep' hname hopen => exact name_ne_nul hname
    rw [stored, ihsub hst, ih hst', stored_of_lt hn hnul]
    rfl

/-! ## ちょうどの条件 -/

theorem Accepted.fileTree (h : Accepted env buf t p) : FileTree env buf t p :=
  ⟨h.1, done_of_stop h.2.1.2⟩

theorem FileTree.unique {t' : Entries} {p' : Bytes} (h : FileTree env buf t p)
    (h' : FileTree env buf t' p') : t = t' ∧ p = p' := h.1.unique h'.1 h.2 h'.2

/-- 字句がそのまま取り出せるなら、受け入れられるファイルの木の字句は配列に入る。 -/
theorem Faithful.storable (h : Faithful env buf) (hacc : Accepted env buf t p) : t.Storable := by
  obtain ⟨hparse, hstop, hp⟩ := hacc
  obtain ⟨s, hs⟩ := parse_complete hparse hstop hp
  obtain ⟨t', p', htree, hround⟩ := h.answers s (stored t) hs
  obtain ⟨rfl, -⟩ := (Accepted.fileTree ⟨hparse, hstop, hp⟩).unique htree
  exact storable_of_stored hround.mirror

/-- 入らない字句のあるファイルが拒まれるなら、読み捨てられる名前も配列に入る。 -/
theorem Faithful.endStorable (h : Faithful env buf) (hacc : Accepted env buf t p) :
    EndStorable env.alphabet p := by
  by_contra hlong
  have hreject := h.rejects t p hacc.fileTree fun hboth => hlong hboth.2
  rw [(returnCode_eq_zero_iff env buf).mpr ⟨t, p, hacc⟩] at hreject
  cases hreject

/--
**受け入れたファイルの字句がそのまま取り出せ、入らない字句のあるファイルが拒まれるのは、
受け入れられるファイルの名前がみな 63 byte、値がみな 127 byte までのときに限る。**

名前には、ファイルの終わりに接して `parse` が読み捨てるものも数える。
-/
theorem faithful_iff (env : Env) (buf : Bytes) :
    Faithful env buf ↔
      ∀ t p, Accepted env buf t p → t.Storable ∧ EndStorable env.alphabet p := by
  constructor
  · exact fun h t p hacc => ⟨h.storable hacc, h.endStorable hacc⟩
  · intro h
    refine ⟨fun s cn hparse => ?_, fun t p htree hlong => ?_⟩
    · obtain ⟨t, p, hp, hstop, hend, rfl⟩ := parse_sound hparse
      have hacc : Accepted env buf t p := ⟨hp, hstop, hend⟩
      refine ⟨t, p, hacc.fileTree, ?_⟩
      rw [hp.stored_eq_mirror (h t p hacc).1]
      exact mirror_roundTrips t
    · refine (returnCode_total env buf).resolve_left fun hzero => ?_
      obtain ⟨t', p', hacc⟩ := (returnCode_eq_zero_iff env buf).mp hzero
      obtain ⟨rfl, rfl⟩ := htree.unique (Accepted.fileTree hacc)
      exact hlong (h t p hacc)

/-- 64 byte の名前の項目一つのファイル。 -/
def longName : Bytes := List.replicate 64 97 ++ ascii " 1;\n"

theorem accepted_longName : Accepted (fixedEnv (some [])) longName
    (.leaf (List.replicate 64 97) (.value (ascii "1")) .nil) [newline] := by
  have hname : Run (fixedEnv (some [])).alphabet.name longName (List.replicate 64 97)
      (ascii " 1;\n") :=
    ⟨rfl, by decide, by decide +kernel, by rintro b ⟨⟩; decide +kernel⟩
  have hvalue : Value (fixedEnv (some [])).alphabet (ascii "1;\n") (ascii "1") (ascii ";\n") :=
    ⟨⟨rfl, by decide, by decide +kernel, by rintro b ⟨⟩; decide +kernel⟩, by decide⟩
  refine ⟨.leaf (.refl _) hname ?_ (.nil _), ⟨rfl, .inr (.inl ⟨sepEnd_newline, ?_⟩)⟩, nofun⟩
  · exact .value (by decide +kernel) (.blank (by decide) (.refl _)) hvalue (by decide) (.refl _)
  · decide

/-- 64 byte の名前だけのファイル。 -/
def longBareName : Bytes := List.replicate 64 97

theorem run_longBareName :
    Run (fixedEnv (some [])).alphabet.name longBareName longBareName [] :=
  ⟨rfl, by decide, by decide +kernel, nofun⟩

theorem accepted_longBareName : Accepted (fixedEnv (some [])) longBareName .nil longBareName :=
  ⟨.nil _, ⟨rfl, .inr (.inr ⟨_, _, .refl _, run_longBareName⟩)⟩, nofun⟩

/-- **64 byte の名前のファイルは受け入れられ、ファイルに無い 63 byte の名前で値が見つかる。
64 byte の名前だけのファイルも受け入れられる。** -/
theorem long_name_accepted :
    (¬ Faithful (fixedEnv (some [])) longName ∧
      ∃ s cn, parse (fixedEnv (some [])) longName = some (0, s, cn) ∧
        getValueFromNode (List.replicate 63 97) cn = some (ascii "1") ∧
        getValueFromNode (List.replicate 64 97) cn = none) ∧
    ¬ Faithful (fixedEnv (some [])) longBareName ∧
      returnCode (fixedEnv (some [])) longBareName = some 0 := by
  refine ⟨⟨fun h => ?_, ?_⟩, fun h => ?_, ?_⟩
  · exact absurd (h.storable accepted_longName).1 (by decide)
  · obtain ⟨hparse, hstop, hp⟩ := accepted_longName
    obtain ⟨s, hs⟩ := parse_complete hparse hstop hp
    exact ⟨s, _, hs, by decide +kernel, by decide +kernel⟩
  · exact absurd (h.endStorable accepted_longBareName _ _ (.refl _) run_longBareName) (by decide)
  · exact (returnCode_eq_zero_iff _ _).mpr ⟨_, _, accepted_longBareName⟩

end RecordServer.Conf
