import RecordServer.App.Properties.PlaylistNames

/-!
# playlist は `root_path` の下にあるか

`path` と `sid` は要求した側の文字列で、`..` も `/` も含みうる。

* `Confined` — `root_path` のある木ならどれでも、作られる directory と開かれる file はその下にある
* `confined_iff` — そうなるのは、path が component ごとに、`root_path` の下か、`root_path` の綴り自身が通る
  directory だけを通り、file の名前もその下で終わるときに限る
* `dotdot_leaves_root` — `..` で `root_path` の外に file と directory が作られる
-/

namespace RecordServer.App

open Infra

/-- path を組む二つの要求。 -/
inductive Handler where
  | create
  | start
deriving DecidableEq, Repr

/-- `create_m3u8` に渡る `param.path`。 -/
def Handler.path : Handler → Bytes → Bytes → Bytes
  | .create => createPath
  | .start => startPath

/-- `root_path` のある木ならどれでも、作られる directory と開かれる file は `root_path` かその下にある。 -/
def Confined (h : Handler) (rootPath path sid : Bytes) (now : Int) : Prop :=
  ∀ t : Tree, t.Opendir (cstr rootPath) →
    (∀ p, t.node p = none → (prepareDir t (h.path rootPath path)).node p ≠ none →
      resolve (cstr rootPath) <+: p) ∧
    ∀ param t', createM3u8 t ⟨sid, h.path rootPath path, []⟩ now = (some param, t') →
      resolve (cstr rootPath) <+: resolve param.filePath

/-- `root` の下か、`root` の綴りが通る directory。 -/
def Within (root : Bytes) (p : Place) : Prop := resolve root <+: p ∨ p ∈ places root

instance (root : Bytes) (p : Place) : Decidable (Within root p) :=
  inferInstanceAs (Decidable (_ ∨ _))

/-! ## `multi_mkdir` -/

section Mkdir

variable {t : Tree} {d s : Bytes} {q : Place}

theorem ensureDir_node (t : Tree) (d : Bytes) (q : Place) :
    (ensureDir t d).node q = t.node q ∨
      (q = resolve d ∧ t.node q = none ∧ (ensureDir t d).node q = some .dir) := by
  unfold ensureDir
  split
  · exact .inl rfl
  · rcases t.mkdir_cases d with heq | ⟨hnone, hnode⟩
    · exact .inl (by rw [heq])
    · by_cases hq : q = resolve d
      · rw [hnode, if_pos hq, hq]
        exact .inr ⟨rfl, hnone, rfl⟩
      · rw [hnode, if_neg hq]
        exact .inl rfl

theorem ensureDir_mono (h : t.IsDir q) : (ensureDir t d).IsDir q := by
  rcases ensureDir_node t d q with heq | ⟨-, -, hdir⟩
  · exact heq.trans h
  · exact hdir

/-- 途中がみな directory で、そこに file が無ければ、`d` の場所は directory になる。 -/
theorem ensureDir_isDir (hfile : t.node (resolve d) ≠ some .file)
    (hcuts : ∀ c ∈ cuts d, t.IsDir (resolve c)) : (ensureDir t d).IsDir (resolve d) := by
  cases hk : t.node (resolve d) with
  | none =>
    have hd : d ≠ [] := by
      rintro rfl
      rw [resolve_nil, t.top] at hk
      cases hk
    rw [ensureDir, if_neg fun hacc => hacc.2 hk]
    exact Tree.isDir_mkdir ⟨hd, hcuts⟩ hk
  | some k =>
    cases k with
    | dir => exact ensureDir_mono hk
    | file => exact absurd hk hfile

theorem mkdirLoop_eq (t : Tree) (pre s : Bytes) :
    mkdirLoop t pre s = (cutsFrom pre s).foldl ensureDir t := by
  induction s generalizing t pre with
  | nil => rfl
  | cons b s ih =>
    rw [mkdirLoop, cutsFrom]
    split
    · rw [ih, List.foldl_cons]
    · rw [ih]

/-- 渡された path を component ごとに作る。 -/
theorem multiMkdir_eq {dir : Bytes} (hz : cstr dir = dir) (hlen : dir.length ≤ 512)
    (hne : dir ≠ []) (t : Tree) : multiMkdir t dir = (cuts dir ++ [dir]).foldl ensureDir t := by
  rw [multiMkdir, hz, List.take_of_length_le hlen, if_pos hne, mkdirLoop_eq, List.foldl_append]
  rfl

/-- 作られるのは、渡した path の場所だけである。 -/
theorem foldl_ensureDir_node (ds : List Bytes) (t : Tree) (q : Place) :
    (ds.foldl ensureDir t).node q = t.node q ∨ (q ∈ ds.map resolve ∧ t.node q = none) := by
  induction ds generalizing t with
  | nil => exact .inl rfl
  | cons d ds ih =>
    rw [List.foldl_cons, List.map_cons]
    rcases ensureDir_node t d q with heq | ⟨rfl, hnone, -⟩
    · rcases ih (ensureDir t d) with h | ⟨hmem, hnone⟩
      · exact .inl (h.trans heq)
      · exact .inr ⟨.tail _ hmem, heq ▸ hnone⟩
    · exact .inr ⟨.head _, hnone⟩

theorem foldl_ensureDir_mono (ds : List Bytes) (h : t.IsDir q) :
    (ds.foldl ensureDir t).IsDir q := by
  induction ds generalizing t with
  | nil => exact h
  | cons d ds ih => exact ih (ensureDir_mono h)

/-- file が増えることはない。 -/
theorem foldl_ensureDir_file (ds : List Bytes) (h : (ds.foldl ensureDir t).node q = some .file) :
    t.node q = some .file := by
  induction ds generalizing t with
  | nil => exact h
  | cons d ds ih =>
    rcases ensureDir_node t d q with heq | ⟨-, -, hdir⟩
    · exact heq ▸ ih h
    · have hfile := ih h
      rw [hdir] at hfile
      cases hfile

/-- 途中に file が無ければ、途中の場所はみな directory になる。 -/
theorem foldl_cuts_isDir (s : Bytes) (hfile : ∀ d ∈ cuts s, t.node (resolve d) ≠ some .file) :
    ∀ d ∈ cuts s, ((cuts s).foldl ensureDir t).IsDir (resolve d) := by
  induction s using List.reverseRecOn with
  | nil => simp [cuts, cutsFrom]
  | append_singleton s b ih =>
    by_cases hb : b = slash
    · subst hb
      rw [cuts_concat_slash] at hfile ⊢
      rw [List.foldl_append, List.foldl_cons, List.foldl_nil]
      have hdirs := ih fun d hd => hfile d (List.mem_append_left _ hd)
      intro d hd
      rcases List.mem_append.mp hd with hd | hd
      · exact ensureDir_mono (hdirs d hd)
      · obtain rfl := List.mem_singleton.mp hd
        exact ensureDir_isDir (fun h => hfile d (by simp) (foldl_ensureDir_file _ h)) hdirs
    · rw [cuts_concat, if_neg hb, List.append_nil] at hfile ⊢
      exact ih hfile

end Mkdir

/-! ## 組まれた path -/

section Composed

variable {rootPath path sid : Bytes} {now : Int} {h : Handler}

theorem Handler.cstr_path (h : Handler) (rootPath path : Bytes) :
    cstr (h.path rootPath path) = h.path rootPath path := by
  cases h with
  | create => exact cstr_createPath rootPath path
  | start => exact cstr_startPath rootPath path

theorem Handler.path_length (h : Handler) (rootPath path : Bytes) :
    (h.path rootPath path).length ≤ 255 := by
  cases h with
  | create =>
    rw [Handler.path, createPath_eq]
    exact List.length_take_le _ _
  | start =>
    rw [Handler.path, startPath_eq]
    exact List.length_take_le _ _

theorem Handler.path_ne_nil (habs : (cstr rootPath).head? = some slash) :
    h.path rootPath path ≠ [] := by
  obtain ⟨r, hr⟩ := List.head?_eq_some_iff.mp habs
  cases h with
  | create => simp [Handler.path, createPath_eq, hr]
  | start => simp [Handler.path, startPath_eq, hr]

/-- file の名前は、組まれた path の続きである。 -/
theorem Handler.path_prefix_fileName (h : Handler) (rootPath path sid : Bytes) (now : Int) :
    h.path rootPath path <+: fileName (h.path rootPath path) sid now := by
  rw [fileName, Handler.cstr_path, List.append_assoc, List.take_append,
    List.take_of_length_le (h.path_length rootPath path)]
  exact List.prefix_append _ _

theorem prepareDir_cases (h : Handler) (path : Bytes) (habs : (cstr rootPath).head? = some slash) (t : Tree) :
    prepareDir t (h.path rootPath path) = t ∨ prepareDir t (h.path rootPath path) =
      (cuts (h.path rootPath path) ++ [h.path rootPath path]).foldl ensureDir t := by
  unfold prepareDir
  split
  · exact .inl rfl
  · have hlen := h.path_length rootPath path
    exact .inr (multiMkdir_eq (h.cstr_path rootPath path) (by omega) (Handler.path_ne_nil habs) t)

/-- 作られるのは、組まれた path の通る場所だけである。 -/
theorem prepareDir_node (h : Handler) (path : Bytes) (habs : (cstr rootPath).head? = some slash) (t : Tree) (q : Place) :
    (prepareDir t (h.path rootPath path)).node q = t.node q ∨
      (q ∈ places (h.path rootPath path) ∧ t.node q = none) := by
  rcases prepareDir_cases h path habs t with heq | heq
  · exact .inl (by rw [heq])
  · rw [heq]
    exact foldl_ensureDir_node _ t q

theorem prepareDir_mono (habs : (cstr rootPath).head? = some slash) {t : Tree} {q : Place}
    (hq : t.IsDir q) : (prepareDir t (h.path rootPath path)).IsDir q := by
  rcases prepareDir_cases h path habs t with heq | heq
  · rw [heq]
    exact hq
  · rw [heq]
    exact foldl_ensureDir_mono _ hq

/-- `create_m3u8` が成功するのは、`open` が成功するときである。 -/
theorem createM3u8_eq_some {t t' : Tree} {param param' : M3u8Param} :
    createM3u8 t param now = (some param', t') ↔
      (prepareDir t param.path).openCreat (fileName param.path param.sid now) = (true, t') ∧
        param' = { param with filePath := fileName param.path param.sid now } := by
  simp only [createM3u8]
  split
  · rename_i t'' heq
    simp [heq, eq_comm, and_comm]
  · rename_i t'' heq
    simp [heq]

/-- `root_path` があれば、その綴りの通る場所はみな directory である。 -/
theorem isDir_of_mem_places {t : Tree} {s : Bytes} (ht : t.Opendir s) {p : Place}
    (hp : p ∈ places s) : t.IsDir p := by
  obtain ⟨d, hd, rfl⟩ := List.mem_map.mp hp
  rcases List.mem_append.mp hd with hd | hd
  · exact ht.1.2 d hd
  · obtain rfl := List.mem_singleton.mp hd
    exact ht.2

theorem opendir_ofPlaces {s : Bytes} {ps : List Place} {hps : ParentClosed ps} (hne : s ≠ [])
    (hsub : places s ⊆ ps) : (Tree.ofPlaces ps hps).Opendir s := by
  refine ⟨⟨hne, fun d hd => ?_⟩, ?_⟩
  · exact Tree.isDir_ofPlaces.mpr
      (.inr (hsub (List.mem_map_of_mem (List.mem_append_left _ hd))))
  · exact Tree.isDir_ofPlaces.mpr
      (.inr (hsub (List.mem_map_of_mem (List.mem_append_right _ (List.mem_singleton_self s)))))

theorem ne_nil_of_absolute {s : Bytes} (habs : s.head? = some slash) : s ≠ [] := by
  rintro rfl
  cases habs

/-- 絶対 path の綴りは、根を通る。 -/
theorem nil_mem_places {s : Bytes} (habs : s.head? = some slash) : [] ∈ places s := by
  obtain ⟨r, rfl⟩ := List.head?_eq_some_iff.mp habs
  exact List.mem_map.mpr ⟨[], List.mem_append_left _ (mem_cuts_append_slash [] r), resolve_nil⟩

/-! ## 条件が足りること -/

theorem confined_of_within (habs : (cstr rootPath).head? = some slash)
    (hdirs : ∀ p ∈ places (h.path rootPath path), Within (cstr rootPath) p)
    (hname : Within (cstr rootPath) (resolve (fileName (h.path rootPath path) sid now)) ∨
      ∃ d ∈ cuts (fileName (h.path rootPath path) sid now),
        resolve d = resolve (fileName (h.path rootPath path) sid now)) :
    Confined h rootPath path sid now := by
  intro t ht
  refine ⟨fun p hnone hmade => ?_, fun param t' hrun => ?_⟩
  · rcases prepareDir_node h path habs t p with heq | ⟨hmem, -⟩
    · exact absurd (heq.trans hnone) hmade
    · rcases hdirs p hmem with hbelow | hroot
      · exact hbelow
      · have hdir := isDir_of_mem_places ht hroot
        rw [Tree.IsDir, hnone] at hdir
        cases hdir
  · obtain ⟨hopen, rfl⟩ := createM3u8_eq_some.mp hrun
    obtain ⟨hpass, hnot⟩ := Tree.openCreat_true hopen
    rcases hname with (hbelow | hroot) | ⟨d, hd, heq⟩
    · exact hbelow
    · exact absurd (prepareDir_mono habs (isDir_of_mem_places ht hroot)) hnot
    · exact absurd (heq ▸ hpass.2 d hd) hnot

/-! ## 条件が要ること -/

/-- `root_path` の綴りの通る場所しか無い木では、組まれた path の場所はみな directory になる。 -/
theorem within_of_confined (habs : (cstr rootPath).head? = some slash)
    (hconf : Confined h rootPath path sid now) :
    ∀ p ∈ places (h.path rootPath path), Within (cstr rootPath) p := by
  intro p hp
  by_contra hnot
  obtain ⟨hbelow, hroot⟩ := not_or.mp hnot
  let t := Tree.ofPlaces (places (cstr rootPath)) (parentClosed_places _)
  have ht : t.Opendir (cstr rootPath) :=
    opendir_ofPlaces (ne_nil_of_absolute habs) (List.Subset.refl _)
  have hnone : t.node p = none := by
    refine Tree.node_ofPlaces.mpr (not_or.mpr ⟨?_, hroot⟩)
    rintro rfl
    exact hroot (nil_mem_places habs)
  refine hbelow ((hconf t ht).1 p hnone ?_)
  have hfile : ∀ q, t.node q ≠ some .file := by
    intro q hq
    by_cases hdir : t.IsDir q
    · rw [hdir] at hq
      cases hq
    · rw [Tree.node_ofPlaces.mpr fun hmem => hdir (Tree.isDir_ofPlaces.mpr hmem)] at hq
      cases hq
  have hdir : (prepareDir t (h.path rootPath path)).IsDir p := by
    obtain ⟨d, hd, rfl⟩ := List.mem_map.mp hp
    unfold prepareDir
    split
    · rename_i hopen
      rw [Handler.cstr_path] at hopen
      exact isDir_of_mem_places hopen hp
    · have hlen := h.path_length rootPath path
      rw [multiMkdir_eq (h.cstr_path rootPath path) (by omega) (Handler.path_ne_nil habs),
        ← cuts_concat_slash]
      rw [← cuts_concat_slash] at hd
      exact foldl_cuts_isDir _ (fun c _ => hfile (resolve c)) d hd
  rw [hdir]
  decide

/-- 名前の途中がみな directory で、その場所だけが空いた木では、file は開かれる。 -/
theorem name_within_of_confined (habs : (cstr rootPath).head? = some slash)
    (hconf : Confined h rootPath path sid now) :
    Within (cstr rootPath) (resolve (fileName (h.path rootPath path) sid now)) ∨
      ∃ d ∈ cuts (fileName (h.path rootPath path) sid now),
        resolve d = resolve (fileName (h.path rootPath path) sid now) := by
  have hdirs := within_of_confined habs hconf
  by_contra hnot
  obtain ⟨hout, hway⟩ := not_or.mp hnot
  generalize hF : fileName (h.path rootPath path) sid now = F at hout hway
  let t := Tree.ofPlaces (places (cstr rootPath) ++ (cuts F).map resolve)
    ((parentClosed_places _).append (parentClosed_cuts F))
  have ht : t.Opendir (cstr rootPath) :=
    opendir_ofPlaces (ne_nil_of_absolute habs) (List.subset_append_left _ _)
  have hnone : t.node (resolve F) = none := by
    refine Tree.node_ofPlaces.mpr (not_or.mpr ⟨fun hnil => ?_, fun hmem => ?_⟩)
    · exact hout (.inr (hnil ▸ nil_mem_places habs))
    · rcases List.mem_append.mp hmem with hmem | hmem
      · exact hout (.inr hmem)
      · exact hway (List.mem_map.mp hmem)
  -- 組まれた path の場所は `Within` なので、そこを作っても名前の場所は空いている。
  have hnone' : (prepareDir t (h.path rootPath path)).node (resolve F) = none := by
    rcases prepareDir_node h path habs t (resolve F) with heq | ⟨hmem, -⟩
    · exact heq.trans hnone
    · exact absurd (hdirs _ hmem) hout
  have hpass : (prepareDir t (h.path rootPath path)).Passes F := by
    refine ⟨fun hnil => ?_, fun d hd => ?_⟩
    · have hpre := h.path_prefix_fileName rootPath path sid now
      rw [hF, hnil] at hpre
      exact Handler.path_ne_nil habs (List.prefix_nil.mp hpre)
    · exact prepareDir_mono habs (Tree.isDir_ofPlaces.mpr
        (.inr (List.mem_append_right _ (List.mem_map_of_mem hd))))
  obtain ⟨t', hopen⟩ := Tree.openCreat_new hpass hnone'
  have hbelow := (hconf t ht).2 _ t' (createM3u8_eq_some.mpr ⟨by rw [hF]; exact hopen, rfl⟩)
  rw [hF] at hbelow
  exact hout (.inl hbelow)

/--
**作られる directory と開かれる file がいつも `root_path` かその下にあるのは、組まれた path が
`root_path` の下かその綴りの通る directory だけを通り、file の名前もそこで終わるか、名前の途中の
directory を指すときに限る。**
-/
theorem confined_iff (h : Handler) (path sid : Bytes) (now : Int)
    (habs : (cstr rootPath).head? = some slash) :
    Confined h rootPath path sid now ↔
      (∀ p ∈ places (h.path rootPath path), Within (cstr rootPath) p) ∧
        (Within (cstr rootPath) (resolve (fileName (h.path rootPath path) sid now)) ∨
          ∃ d ∈ cuts (fileName (h.path rootPath path) sid now),
            resolve d = resolve (fileName (h.path rootPath path) sid now)) :=
  ⟨fun hconf => ⟨within_of_confined habs hconf, name_within_of_confined habs hconf⟩,
    fun hw => confined_of_within habs hw.1 hw.2⟩

end Composed

/-- `/rec` の下の `/live/` に置く要求。 -/
theorem confined_live :
    Confined .start (ascii "/rec") (ascii "/live/") (ascii "cam") 1500000000 := by
  refine (confined_iff .start (ascii "/live/") (ascii "cam") 1500000000 (by decide)).mpr ⟨?_, .inl ?_⟩
  · decide +kernel
  · decide +kernel

/-- `..` を含む `path` は、`/rec` だけのある木で `/etc` を作り、そこに file を開く。 -/
theorem dotdot_leaves_root :
    ∃ t : Tree, t.Opendir (ascii "/rec") ∧ t.node [ascii "etc"] = none ∧
      (prepareDir t (startPath (ascii "/rec") (ascii "/../etc/"))).IsDir [ascii "etc"] ∧
      resolve (fileName (startPath (ascii "/rec") (ascii "/../etc/")) (ascii "cam") 1500000000) =
        [ascii "etc", ascii "cam_1500000000.m3u8"] ∧
      ¬ Confined .start (ascii "/rec") (ascii "/../etc/") (ascii "cam") 1500000000 := by
  refine ⟨Tree.ofPlaces (places (ascii "/rec")) (parentClosed_places _), by decide +kernel,
    by decide +kernel, by decide +kernel, by decide +kernel, fun hconf => ?_⟩
  have hwithin := within_of_confined (by decide) hconf [ascii "etc"] (by decide +kernel)
  exact absurd hwithin (by decide +kernel)

end RecordServer.App
