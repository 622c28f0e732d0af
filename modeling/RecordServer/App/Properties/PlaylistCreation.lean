import RecordServer.App.Properties.CreateReply

/-!
# playlist はいつ作られるか

`create_m3u8` は `mkdir` の失敗を確かめない。作れなかった directory は、後の `open` の失敗として現れる。

* `Creatable` — `create_m3u8` の前の木だけで言う、`open` が成功する条件
* `prepareDir_isDir_iff` — 途中に file が無ければ、`multi_mkdir` の後の directory はちょうど `Made` である
* `playlist_created_iff` — `create_m3u8` が成功するのは `Creatable` のとき、そのときに限り、後の木には、足りなかった
  directory と file だけが加わる
-/

namespace RecordServer.App

open Infra

variable {t : Tree} {s : Bytes} {q : Place}

/-! ## 条件 -/

/-- もとから directory か、path の通る場所で、まだ何も無い。 -/
def Made (t : Tree) (s : Bytes) (q : Place) : Prop :=
  t.IsDir q ∨ (q ∈ places s ∧ t.node q = none)

instance (t : Tree) (s : Bytes) (q : Place) : Decidable (Made t s q) :=
  inferInstanceAs (Decidable (_ ∨ _))

/-- directory の path が `s` のとき、`f` が開ける。 -/
structure Creatable (t : Tree) (s f : Bytes) : Prop where
  /-- 途中はどれも、もとから directory か、`s` のために作られる -/
  dirs : ∀ d ∈ cuts f, Made t s (resolve d)
  name : ¬ Made t s (resolve f)

/-! ## directory を作った後 -/

/-- 途中に file が無ければ、`multi_mkdir` の後の directory は、もとからのものと、作れる場所である。 -/
theorem foldl_isDir_iff (hfile : ∀ d ∈ cuts s, t.node (resolve d) ≠ some .file) :
    ((cuts s ++ [s]).foldl ensureDir t).IsDir q ↔ Made t s q := by
  constructor
  · intro hdir
    rcases foldl_ensureDir_node (cuts s ++ [s]) t q with heq | ⟨hmem, hnone⟩
    · exact .inl (heq.symm.trans hdir)
    · exact .inr ⟨hmem, hnone⟩
  · rintro (hdir | ⟨hmem, hnone⟩)
    · exact foldl_ensureDir_mono _ hdir
    · rw [List.foldl_append, List.foldl_cons, List.foldl_nil]
      have hdirs := foldl_cuts_isDir s hfile
      obtain ⟨d, hd, rfl⟩ := List.mem_map.mp hmem
      rcases List.mem_append.mp hd with hd | hd
      · exact ensureDir_mono (hdirs d hd)
      · obtain rfl := List.mem_singleton.mp hd
        refine ensureDir_isDir (fun h => ?_) hdirs
        rw [foldl_ensureDir_file _ h] at hnone
        cases hnone

section Composed

variable {rootPath path sid : Bytes} {now : Int} {h : Handler}

theorem prepareDir_isDir_iff (h : Handler) (path : Bytes) (habs : (cstr rootPath).head? = some slash)
    (hfile : ∀ d ∈ cuts (h.path rootPath path), t.node (resolve d) ≠ some .file) :
    (prepareDir t (h.path rootPath path)).IsDir q ↔ Made t (h.path rootPath path) q := by
  unfold prepareDir
  split
  · rename_i hopen
    rw [Handler.cstr_path] at hopen
    refine ⟨.inl, fun hmade => ?_⟩
    rcases hmade with hdir | ⟨hmem, -⟩
    · exact hdir
    · exact isDir_of_mem_places hopen hmem
  · have hlen := h.path_length rootPath path
    rw [multiMkdir_eq (h.cstr_path rootPath path) (by omega) (Handler.path_ne_nil habs)]
    exact foldl_isDir_iff hfile

/-- 開けたなら、途中に file は無かった。 -/
theorem no_file_of_passes (path : Bytes) (habs : (cstr rootPath).head? = some slash)
    (hpass : (prepareDir t (h.path rootPath path)).Passes
      (fileName (h.path rootPath path) sid now)) :
    ∀ d ∈ cuts (h.path rootPath path), t.node (resolve d) ≠ some .file := by
  intro d hd hfile
  obtain ⟨rest, hrest⟩ := h.path_prefix_fileName rootPath path sid now
  have hdir := hpass.2 d (hrest ▸ cuts_subset_append _ rest hd)
  rcases prepareDir_node h path habs t (resolve d) with heq | ⟨-, hnone⟩
  · rw [Tree.IsDir, heq, hfile] at hdir
    cases hdir
  · rw [hfile] at hnone
    cases hnone

/-- `open` が成功する条件は、`create_m3u8` の前の木だけで決まる。 -/
theorem openCreat_iff_creatable (path : Bytes) (habs : (cstr rootPath).head? = some slash) :
    ((prepareDir t (h.path rootPath path)).openCreat
        (fileName (h.path rootPath path) sid now)).1 = true ↔
      Creatable t (h.path rootPath path) (fileName (h.path rootPath path) sid now) := by
  rw [Tree.openCreat_fst_iff]
  constructor
  · rintro ⟨hpass, hdir⟩
    have hiff := fun q => prepareDir_isDir_iff (q := q) h path habs (no_file_of_passes path habs hpass)
    exact ⟨fun d hd => (hiff _).mp (hpass.2 d hd), fun hmade => hdir ((hiff _).mpr hmade)⟩
  · rintro ⟨hdirs, hname⟩
    obtain ⟨rest, hrest⟩ := h.path_prefix_fileName rootPath path sid now
    have hfile : ∀ d ∈ cuts (h.path rootPath path), t.node (resolve d) ≠ some .file := by
      intro d hd hk
      rcases hdirs d (hrest ▸ cuts_subset_append _ rest hd) with hdir | ⟨-, hnone⟩
      · rw [Tree.IsDir, hk] at hdir
        cases hdir
      · rw [hk] at hnone
        cases hnone
    have hiff := fun q => prepareDir_isDir_iff (q := q) h path habs hfile
    have hne : fileName (h.path rootPath path) sid now ≠ [] := by
      rw [← hrest]
      exact List.append_ne_nil_of_left_ne_nil (Handler.path_ne_nil habs) rest
    exact ⟨⟨hne, fun d hd => (hiff _).mpr (hdirs d hd)⟩, fun hdir => hname ((hiff _).mp hdir)⟩

/-- 何かのある場所は、`multi_mkdir` では変わらない。 -/
theorem prepareDir_keeps (path : Bytes) (habs : (cstr rootPath).head? = some slash)
    (hne : t.node q ≠ none) : (prepareDir t (h.path rootPath path)).node q = t.node q := by
  rcases prepareDir_node h path habs t q with heq | ⟨-, hnone⟩
  · exact heq
  · exact absurd hnone hne

/-- `create_m3u8` の結果は、directory を作った後の `open` の結果である。 -/
theorem createM3u8_eq (t : Tree) (param : M3u8Param) (now : Int) :
    ((createM3u8 t param now).1.isSome =
        ((prepareDir t param.path).openCreat (fileName param.path param.sid now)).1) ∧
      (createM3u8 t param now).2 =
        ((prepareDir t param.path).openCreat (fileName param.path param.sid now)).2 := by
  simp only [createM3u8]
  rcases (prepareDir t param.path).openCreat (fileName param.path param.sid now) with ⟨ok, t'⟩
  cases ok <;> exact ⟨rfl, rfl⟩

/-- 作れた後の木。 -/
theorem createM3u8_node (path : Bytes) (habs : (cstr rootPath).head? = some slash)
    (hc : Creatable t (h.path rootPath path) (fileName (h.path rootPath path) sid now)) (q : Place) :
    (createM3u8 t ⟨sid, h.path rootPath path, []⟩ now).2.node q =
      if q = resolve (fileName (h.path rootPath path) sid now) then some .file
      else if q ∈ places (h.path rootPath path) ∧ t.node q = none then some .dir
      else t.node q := by
  have hopen := (openCreat_iff_creatable path habs).mpr hc
  have hpass := (Tree.openCreat_fst_iff.mp hopen).1
  rw [(createM3u8_eq t _ now).2, Tree.openCreat_node hopen]
  refine if_congr Iff.rfl rfl ?_
  split
  · rename_i hnew
    exact (prepareDir_isDir_iff h path habs (no_file_of_passes path habs hpass)).mpr (.inr hnew)
  · rename_i hold
    rcases prepareDir_node h path habs t q with heq | hnew
    · exact heq
    · exact absurd hnew hold

/-- 作れなくても、何かのある場所は変わらない。 -/
theorem createM3u8_keeps (path : Bytes) (habs : (cstr rootPath).head? = some slash)
    (hne : t.node q ≠ none) :
    (createM3u8 t ⟨sid, h.path rootPath path, []⟩ now).2.node q = t.node q := by
  rw [(createM3u8_eq t _ now).2, ← prepareDir_keeps (h := h) path habs hne]
  by_cases hopen : ((prepareDir t (h.path rootPath path)).openCreat
      (fileName (h.path rootPath path) sid now)).1 = true
  · rw [Tree.openCreat_node hopen]
    split
    · rename_i hq
      -- そこにあったのは、directory ではなく file である
      have hnot := (Tree.openCreat_fst_iff.mp hopen).2
      rw [← hq] at hnot
      rw [← prepareDir_keeps (h := h) path habs hne] at hne
      cases hk : (prepareDir t (h.path rootPath path)).node q with
      | none => exact absurd hk hne
      | some k =>
        cases k with
        | dir => exact absurd hk hnot
        | file => rfl
    · rfl
  · rw [Tree.openCreat_snd (by simpa using hopen)]

/-! ## `create_m3u8` と `create_record` -/

/--
**`create_m3u8` が成功するのは、開く名前の途中がどれも、もとから directory か、渡された path の通る空いた場所で、
開く名前がそのどちらでもないときに限る。**

成功した後の木には、足りなかった directory と、その file だけが加わる。成功しなくても、もとからあったものは変わらない。
`create_record` が 200 を返すのは、成功したときに限る。
-/
theorem playlist_created_iff (h : Handler) (habs : (cstr rootPath).head? = some slash) (t : Tree)
    (path sid : Bytes) (now : Int) :
    ((createM3u8 t ⟨sid, h.path rootPath path, []⟩ now).1.isSome ↔
        Creatable t (h.path rootPath path) (fileName (h.path rootPath path) sid now)) ∧
      (Creatable t (h.path rootPath path) (fileName (h.path rootPath path) sid now) → ∀ q,
        (createM3u8 t ⟨sid, h.path rootPath path, []⟩ now).2.node q =
          if q = resolve (fileName (h.path rootPath path) sid now) then some .file
          else if q ∈ places (h.path rootPath path) ∧ t.node q = none then some .dir
          else t.node q) ∧
      (∀ q, t.node q ≠ none →
        (createM3u8 t ⟨sid, h.path rootPath path, []⟩ now).2.node q = t.node q) ∧
      ((createRecord t rootPath path sid now).1.code = 200 ↔
        Creatable t (createPath rootPath path) (fileName (createPath rootPath path) sid now)) := by
  have hsome : ∀ h : Handler, (createM3u8 t ⟨sid, h.path rootPath path, []⟩ now).1.isSome ↔
      Creatable t (h.path rootPath path) (fileName (h.path rootPath path) sid now) := fun h => by
    rw [(createM3u8_eq t _ now).1]
    exact openCreat_iff_creatable path habs
  refine ⟨hsome h, createM3u8_node path habs, fun q => createM3u8_keeps path habs, ?_⟩
  refine Iff.trans ?_ (hsome .create)
  show (createRecord t rootPath path sid now).1.code = 200 ↔
    (createM3u8 t ⟨sid, createPath rootPath path, []⟩ now).1.isSome
  rw [createRecord]
  rcases createM3u8 t ⟨sid, createPath rootPath path, []⟩ now with ⟨r, t'⟩
  cases r <;> simp

end Composed

/-- `/rec` だけがある木では、`/live/a` の playlist が作られる。 -/
theorem playlist_created_live :
    (createRecord recTree (ascii "/rec") (ascii "/live/a") (ascii "cam") 1500000000).1.code = 200 := by
  have hc := (playlist_created_iff .create (show (cstr (ascii "/rec")).head? = some slash from rfl)
    recTree (ascii "/live/a") (ascii "cam") 1500000000).2.2.2
  exact hc.mpr ⟨by decide, by decide⟩

end RecordServer.App
