import RecordServer.App.MultiMkdir
import RecordServer.App.Properties.PlaylistRoot

/-!
# `multi_mkdir` は根から順に directory を作る

どの directory のつながりから始めても、path の途中に directory でないものが無ければ、途中の path は順に directory になり、
親の無い `mkdir` は起こらない。空の path への `mkdir` だけは、絶対 path のときに一度失敗する。

* `RootDown` — 途中の path がみな directory になり、増えたのはその path の指す directory だけである
* `RootDown.step` / `RootDown.empty` — path を一つ渡すごとに保たれる
* `rootDown_make` — `multi_mkdir` の後は、無い directory を作りながら辿った後と同じである
* `tree_multiMkdir` — 木の上では `App.multiMkdir` と同じである
* `clear_iff` — `..` の無い path で、途中に directory でないものが無いこと
* `multi_mkdir_root_down` — どの path でもそうなり、もう一度呼んでも何も変わらない
* `multi_mkdir_new_tree` — 空の root に `/rec/../live//cam/` を作る
-/

namespace RecordServer.App

open Infra

/-- `multi_mkdir` に渡せる path。終端までが `str[512]` に入る。 -/
structure DirPath where
  text : Bytes
  ne_nil : text ≠ []
  no_zero : 0 ∉ text
  length_lt : text.length < 512

/-- path の列 `ps` を渡し終えた後。 -/
structure RootDown (fs : Dirs) (ps : List Bytes) (r : Dirs × List MkdirCall) : Prop where
  /-- 空でない path は、みな directory を指す。 -/
  reached : ∀ q ∈ ps, q ≠ [] → ∃ e, r.1.resolve q = some (.dir e)
  /-- 空でない path への `mkdir` は、みな成功した。 -/
  calls : ∀ c ∈ r.2, c.path ∈ ps ∧ (c.path ≠ [] → c.ok = true)
  /-- 在ったものは残った。 -/
  kept : fs.Extends r.1
  /-- 増えた directory は、どれかの path が指す。 -/
  named : ∀ e, fs.count ≤ e → e < r.1.count → ∃ q ∈ ps, q ≠ [] ∧ r.1.resolve q = some (.dir e)

/-! ## path を一つ渡す -/

section Step

variable {fs fs' : Dirs} {ps : List Bytes} {q n : Bytes} {r : Dirs × List MkdirCall} {d e : Nat}

theorem RootDown.nil (fs : Dirs) : RootDown fs [] (fs, []) :=
  ⟨by simp, by simp, .refl fs, fun _ h h' => absurd h (Nat.not_le.mpr h')⟩

theorem resolve_of_locate (hq : q ≠ []) (hl : fs.locate (fs.start q) [] q = some (d, n)) :
    fs.resolve q = fs.lookup d n := by
  rw [Dirs.resolve, if_neg hq, Dirs.arrive, hl]

/-- 最後の component があれば、`mkdir` はそこに作る。 -/
theorem mkdir_of_locate (hl : fs.locate (fs.start q) [] q = some (d, n))
    (hnone : fs.lookup d n = none) : fs.mkdir q = (true, fs.add d n) := by
  obtain ⟨q', b, rfl, hb⟩ : ∃ q' b, q = q' ++ [b] ∧ b ≠ slash := by
    rcases List.eq_nil_or_concat q with rfl | ⟨q', b, rfl⟩
    · obtain ⟨-, rfl⟩ : fs.start [] = d ∧ [] = n := by simpa [Dirs.locate] using hl
      simp at hnone
    · refine ⟨q', b, List.concat_eq_append, ?_⟩
      rintro rfl
      -- `/` で終わる path の最後の component は空で、必ず引ける。
      rw [List.concat_eq_append, Dirs.locate_append_slash] at hl
      split at hl
      · obtain ⟨-, rfl⟩ : _ = d ∧ [] = n := by simpa [Dirs.locate] using hl
        simp at hnone
      · cases hl
  rw [Dirs.mkdir, Tree.trimSlashes_concat q' hb, hl]
  exact if_pos hnone

theorem dirsIo_ensure (hz : 0 ∉ q) (r : Dirs × List MkdirCall) :
    dirsIo.ensure r q =
      if r.1.access q then r else ((r.1.mkdir q).2, r.2 ++ [⟨q, (r.1.mkdir q).1⟩]) := by
  rw [FileSystem.ensure, cstr_eq_self hz]
  rfl

theorem mkdir_nil (fs : Dirs) : fs.mkdir [] = (false, fs) := by
  have hl : fs.locate (fs.start []) [] (Tree.trimSlashes []) = some (fs.start [], []) := rfl
  rw [Dirs.mkdir, hl]
  exact if_neg (by simp)

/-- 空の path を渡しても、状態は変わらない。 -/
theorem dirsIo_ensure_nil (r : Dirs × List MkdirCall) :
    dirsIo.ensure r [] = (r.1, r.2 ++ [⟨[], false⟩]) := by
  rw [dirsIo_ensure (by simp), mkdir_nil]
  exact if_neg (by simp [Dirs.access, Dirs.resolve])

theorem RootDown.empty (h : RootDown fs ps r) : RootDown fs (ps ++ [[]]) (dirsIo.ensure r []) := by
  rw [dirsIo_ensure_nil]
  refine ⟨fun q hq hne => ?_, fun c hc => ?_, h.kept, fun e he he' => ?_⟩
  · rcases List.mem_append.mp hq with hq | hq
    · exact h.reached q hq hne
    · exact absurd (List.mem_singleton.mp hq) hne
  · rcases List.mem_append.mp hc with hc | hc
    · exact ⟨List.mem_append_left _ (h.calls c hc).1, (h.calls c hc).2⟩
    · obtain rfl := List.mem_singleton.mp hc
      exact ⟨by simp, fun hne => absurd rfl hne⟩
  · obtain ⟨q, hq, hne, hres⟩ := h.named e he he'
    exact ⟨q, List.mem_append_left _ hq, hne, hres⟩

/-- 最後の component までが在る path を渡すと、それを一つ辿った状態になる。 -/
theorem ensure_eq_enterOrAdd (hz : 0 ∉ q) (hq : q ≠ [])
    (hl : r.1.locate (r.1.start q) [] q = some (d, n)) (hd : d < r.1.count)
    (he : r.1.enterOrAdd d n = some (e, fs')) :
    (dirsIo.ensure r q).1 = fs' ∧
      (r.1 = fs' ∧ (dirsIo.ensure r q).2 = r.2 ∨
        fs'.count = r.1.count + 1 ∧ e = r.1.count ∧
          (dirsIo.ensure r q).2 = r.2 ++ [⟨q, true⟩]) := by
  have hres := resolve_of_locate hq hl
  rw [dirsIo_ensure hz, Dirs.access, hres]
  unfold Dirs.enterOrAdd at he
  split at he
  · rename_i x hx
    obtain ⟨rfl, rfl⟩ : x = e ∧ r.1 = fs' := by simpa using he
    rw [hx]
    exact ⟨rfl, .inl ⟨rfl, rfl⟩⟩
  · cases he
  · rename_i hnone
    obtain ⟨rfl, rfl⟩ : r.1.count = e ∧ r.1.add d n = fs' := by simpa using he
    rw [hnone, if_neg (by simp), mkdir_of_locate hl hnone]
    refine ⟨rfl, .inr ⟨?_, rfl, rfl⟩⟩
    rw [Dirs.add, dif_pos hd]
    rfl

theorem RootDown.step (h : RootDown fs ps r) (hz : 0 ∉ q) (hq : q ≠ [])
    (hl : r.1.locate (r.1.start q) [] q = some (d, n)) (hd : d < r.1.count)
    (he : r.1.enterOrAdd d n = some (e, fs')) :
    (dirsIo.ensure r q).1 = fs' ∧ RootDown fs (ps ++ [q]) (dirsIo.ensure r q) := by
  obtain ⟨hfs, hcase⟩ := ensure_eq_enterOrAdd hz hq hl hd he
  obtain ⟨hext, -, hlast⟩ := Dirs.enterOrAdd_spec hd he
  have hres : fs'.resolve q = some (.dir e) := by
    rw [resolve_of_locate hq (d := d) (n := n), hlast]
    rw [hext.start_eq]
    exact (hext.locate_eq (r.1.start_lt q) hl).1
  refine ⟨hfs, fun p hp hne => ?_, fun c hc => ?_, hfs ▸ h.kept.trans hext, fun x hx hx' => ?_⟩
  · rw [hfs]
    rcases List.mem_append.mp hp with hp | hp
    · obtain ⟨x, hx⟩ := h.reached p hp hne
      exact ⟨x, hext.resolve_eq hx⟩
    · exact ⟨e, List.mem_singleton.mp hp ▸ hres⟩
  · have hold : c ∈ r.2 → c.path ∈ ps ++ [q] ∧ (c.path ≠ [] → c.ok = true) := fun hc =>
      ⟨List.mem_append_left _ (h.calls c hc).1, (h.calls c hc).2⟩
    rcases hcase with ⟨-, hlog⟩ | ⟨-, -, hlog⟩
    · exact hold (hlog ▸ hc)
    · rw [hlog] at hc
      rcases List.mem_append.mp hc with hc | hc
      · exact hold hc
      · obtain rfl := List.mem_singleton.mp hc
        exact ⟨by simp, fun _ => rfl⟩
  · rw [hfs] at hx' ⊢
    by_cases hlt : x < r.1.count
    · obtain ⟨p, hp, hne, hpx⟩ := h.named x hx hlt
      exact ⟨p, List.mem_append_left _ hp, hne, hext.resolve_eq hpx⟩
    · rcases hcase with ⟨heq, -⟩ | ⟨hcount, rfl, -⟩
      · exact absurd (heq ▸ hx') hlt
      · obtain rfl : x = r.1.count := by omega
        exact ⟨q, by simp, hq, hres⟩

end Step

/-! ## 根から順に渡す -/

section Run

variable {fs fs' : Dirs} {ps : List Bytes} {a : Bytes} {r : Dirs × List MkdirCall} {d e : Nat}

theorem prefixes_of_not_mem {n : Bytes} (hn : slash ∉ n) : prefixes n = [n] := by
  rw [prefixes, ← List.nil_append n, cuts_append_of_not_mem [] hn]
  rfl

theorem prefixes_append_slash (a : Bytes) {n : Bytes} (h : slash ∉ n) :
    prefixes (a ++ slash :: n) = prefixes a ++ [a ++ slash :: n] := by
  rw [prefixes, cuts_append_slash a h, prefixes]

/-- 途中の path を順に渡した後は、作りながら辿った後と同じである。 -/
theorem rootDown_make (hd : d < fs.count) (hz : 0 ∉ a) (hstart : a ≠ [] → fs.start a = d)
    (h : fs.makeFrom d [] a = some (e, fs')) :
    ((prefixes a).foldl dirsIo.ensure (fs, [])).1 = fs' ∧
      RootDown fs (prefixes a) ((prefixes a).foldl dirsIo.ensure (fs, [])) := by
  induction a using slash_induction generalizing e fs' with
  | last n hn =>
    rw [Dirs.makeFrom_of_not_mem fs d [] hn, List.nil_append] at h
    rw [prefixes_of_not_mem hn, List.foldl_cons, List.foldl_nil]
    by_cases hne : n = []
    · subst hne
      obtain ⟨-, rfl⟩ : d = e ∧ fs = fs' := by simpa [Dirs.enterOrAdd] using h
      exact ⟨by rw [dirsIo_ensure_nil], (RootDown.nil fs).empty⟩
    · have hl : fs.locate (fs.start n) [] n = some (d, n) := by
        rw [hstart hne, Dirs.locate_of_not_mem fs d [] hn, List.nil_append]
      exact (RootDown.nil fs).step hz hne hl hd h
  | step a n hn ih =>
    rw [Dirs.makeFrom_append_slash] at h
    obtain ⟨⟨x, fs₁⟩, ha, h⟩ := Option.bind_eq_some_iff.mp h
    rw [Dirs.makeFrom_of_not_mem _ _ [] hn, List.nil_append] at h
    have hza : 0 ∉ a := fun h0 => hz (List.mem_append_left _ h0)
    have hne : a ++ slash :: n ≠ [] := by simp
    have hstart' : a ≠ [] → fs.start a = d := by
      intro ha
      obtain ⟨b, a, rfl⟩ := List.exists_cons_of_ne_nil ha
      exact hstart hne
    obtain ⟨hfs, hroot⟩ := ih hza hstart' ha
    obtain ⟨hext, hx, p, hp, hlast⟩ := Dirs.makeFrom_spec hd ha
    rw [prefixes_append_slash a hn, List.foldl_append, List.foldl_cons, List.foldl_nil]
    rw [← hfs] at hext hx hp hlast h
    refine hroot.step hz hne ?_ hx h
    rw [hext.start_eq, hstart hne, Dirs.locate_append_slash, hp]
    simp only [Option.bind_some]
    rw [hlast]
    exact (Dirs.locate_of_not_mem _ x [] hn).trans (by rw [List.nil_append])

/-- 在るものと空の path だけを渡しても、状態は変わらない。 -/
theorem foldl_ensure_of_resolve (hz : ∀ q ∈ ps, 0 ∉ q)
    (h : ∀ q ∈ ps, q ≠ [] → ∃ e, r.1.resolve q = some (.dir e)) :
    (ps.foldl dirsIo.ensure r).1 = r.1 := by
  induction ps generalizing r with
  | nil => rfl
  | cons q ps ih =>
    have hq : (dirsIo.ensure r q).1 = r.1 := by
      by_cases hne : q = []
      · rw [hne, dirsIo_ensure_nil]
      · obtain ⟨e, he⟩ := h q (by simp) hne
        rw [dirsIo_ensure (hz q (by simp)), if_pos (by rw [Dirs.access, he]; rfl)]
    rw [List.foldl_cons, ih (fun p hp => hz p (List.mem_cons_of_mem _ hp)), hq]
    intro p hp
    rw [hq]
    exact h p (List.mem_cons_of_mem _ hp)

theorem prefix_of_mem_prefixes {q : Bytes} (hq : q ∈ prefixes a) : q <+: a := by
  induction a using slash_induction with
  | last n hn =>
    rw [prefixes_of_not_mem hn] at hq
    rw [List.mem_singleton.mp hq]
  | step a n hn ih =>
    rw [prefixes_append_slash a hn] at hq
    rcases List.mem_append.mp hq with hq | hq
    · exact (ih hq).trans (List.prefix_append a _)
    · rw [List.mem_singleton.mp hq]

theorem zero_not_mem_prefixes (h : 0 ∉ a) : ∀ q ∈ prefixes a, 0 ∉ q := fun _ hq h0 =>
  h ((prefix_of_mem_prefixes hq).subset h0)

theorem treeIo_ensure (h : 0 ∉ a) (r : Tree × List MkdirCall) :
    (treeIo.ensure r a).1 = ensureDir r.1 a := by
  rw [FileSystem.ensure, cstr_eq_self h, ensureDir]
  by_cases hacc : r.1.Access a
  · rw [if_pos hacc, if_pos (show treeIo.access r.1 a = true from decide_eq_true hacc)]
  · rw [if_neg hacc, if_neg (show ¬ treeIo.access r.1 a = true by simpa [treeIo] using hacc)]
    rfl

/-- 木の上では、木だけを運ぶ `multi_mkdir` と同じである。 -/
theorem tree_multiMkdir (p : DirPath) (t : Tree) :
    (treeIo.multiMkdir t p.text).1 = multiMkdir t p.text := by
  have hfold : ∀ (ps : List Bytes) (r : Tree × List MkdirCall), (∀ q ∈ ps, 0 ∉ q) →
      (ps.foldl treeIo.ensure r).1 = ps.foldl ensureDir r.1 := by
    intro ps r hz
    induction ps generalizing r with
    | nil => rfl
    | cons q ps ih =>
      rw [List.foldl_cons, List.foldl_cons, ih _ fun q hq => hz q (List.mem_cons_of_mem _ hq),
        treeIo_ensure (hz q (by simp))]
  rw [multiMkdir_eq_foldl p.no_zero p.length_lt p.ne_nil,
    hfold _ _ (zero_not_mem_prefixes p.no_zero),
    multiMkdir_eq (cstr_eq_self p.no_zero) (Nat.le_of_lt p.length_lt) p.ne_nil]
  rfl

end Run

/-! ## `..` の無い path -/

section Clear

variable {fs fs' : Dirs} {a n : Bytes} {d x y : Nat}

/-- 増えた後に引けた始めから在るものは、始めから引けた。 -/
theorem lookup_of_extends (h : fs.Extends fs') (hup : n ≠ ascii "..") {v : DirEntry}
    (hv : fs'.lookup y n = some v) (hold : ∀ x, v = .dir x → x < fs.count) :
    y < fs.count ∧ fs.lookup y n = some v := by
  unfold Dirs.lookup at hv ⊢
  split
  · rw [if_pos ‹_›] at hv
    obtain rfl : .dir y = v := by simpa using hv
    exact ⟨hold y rfl, rfl⟩
  · rw [if_neg ‹_›, if_neg hup] at hv
    rcases h.entry_eq y n with heq | ⟨-, e, he, hdir⟩
    · rw [heq] at hv
      exact ⟨fs.entry_dir y n _ hv, hv⟩
    · rw [hdir] at hv
      have := hold e (Option.some.inj hv).symm
      omega

theorem namePart_slash (a : Bytes) (hn : slash ∉ n) : namePart (a ++ slash :: n) = n := by
  rw [namePart, rfindSlash_append a hn]
  simp

/-- 途中の path も、全体と同じ所から辿り始める。 -/
theorem start_of_mem_prefixes {q : Bytes} (hq : q ∈ prefixes a) (hne : q ≠ []) :
    fs.start q = fs.start a := by
  obtain ⟨t, rfl⟩ := prefix_of_mem_prefixes hq
  obtain ⟨b, q, rfl⟩ := List.exists_cons_of_ne_nil hne
  rfl

theorem arrive_of_not_mem (fs : Dirs) (d : Nat) (hn : slash ∉ n) :
    fs.arrive d n = fs.lookup d n := by
  rw [Dirs.arrive, Dirs.locate_of_not_mem fs d [] hn]
  rfl

theorem arrive_append_slash (hn : slash ∉ n) (h : fs.arrive d a = some (.dir y)) :
    fs.arrive d (a ++ slash :: n) = fs.lookup y n := by
  unfold Dirs.arrive at h ⊢
  split at h
  · rename_i e c hl
    rw [Dirs.locate_append_slash, hl, Option.bind_some, h]
    simp only
    rw [Dirs.locate_of_not_mem _ y [] hn]
    rfl
  · cases h

theorem enterOrAdd_isSome : (fs.enterOrAdd d n).isSome ↔ fs.lookup d n ≠ some .other := by
  unfold Dirs.enterOrAdd
  split <;> simp [*]

/-- 作りながら辿って始めから在る directory に着いたなら、そこへは始めから着けた。 -/
theorem arrive_of_makeFrom (hd : d < fs.count) (hup : ∀ q ∈ prefixes a, namePart q ≠ ascii "..")
    (h : fs.makeFrom d [] a = some (x, fs')) (hx : x < fs.count) :
    fs.arrive d a = some (.dir x) := by
  have hold : ∀ z, DirEntry.dir x = .dir z → z < fs.count := by
    rintro _ ⟨⟩
    exact hx
  induction a using slash_induction generalizing x fs' with
  | last n hn =>
    have hn' : n ≠ ascii ".." := by
      have := hup n (by simp [prefixes])
      rwa [namePart, rfindSlash_eq_none hn] at this
    rw [Dirs.makeFrom_of_not_mem fs d [] hn, List.nil_append] at h
    obtain ⟨hext, -, hl⟩ := Dirs.enterOrAdd_spec hd h
    rw [arrive_of_not_mem fs d hn]
    exact (lookup_of_extends hext hn' hl hold).2
  | step a n hn ih =>
    rw [prefixes_append_slash a hn] at hup
    have hn' : n ≠ ascii ".." := namePart_slash a hn ▸ hup _ (by simp)
    rw [Dirs.makeFrom_append_slash] at h
    obtain ⟨⟨y, fs₁⟩, ha, h⟩ := Option.bind_eq_some_iff.mp h
    rw [Dirs.makeFrom_of_not_mem _ _ [] hn, List.nil_append] at h
    obtain ⟨hext, hy, -⟩ := Dirs.makeFrom_spec hd ha
    obtain ⟨hext', -, hl⟩ := Dirs.enterOrAdd_spec hy h
    obtain ⟨hy', hl'⟩ := lookup_of_extends (hext.trans hext') hn' hl hold
    have harrive := ih (fun q hq => hup q (List.mem_append_left _ hq)) ha hy' (by
      rintro _ ⟨⟩
      exact hy')
    rw [arrive_append_slash hn harrive, hl']

/-- `..` が無ければ、作りながら辿れるのは、途中の path が directory でないものを指さないときに限る。 -/
theorem makeFrom_isSome (hd : d < fs.count) (hup : ∀ q ∈ prefixes a, namePart q ≠ ascii "..") :
    (fs.makeFrom d [] a).isSome ↔ ∀ q ∈ prefixes a, fs.arrive d q ≠ some .other := by
  induction a using slash_induction with
  | last n hn =>
    rw [Dirs.makeFrom_of_not_mem fs d [] hn, List.nil_append, enterOrAdd_isSome,
      prefixes_of_not_mem hn, ← arrive_of_not_mem fs d hn]
    simp
  | step a n hn ih =>
    rw [prefixes_append_slash a hn] at hup ⊢
    have hn' : n ≠ ascii ".." := namePart_slash a hn ▸ hup _ (by simp)
    have ih := ih fun q hq => hup q (List.mem_append_left _ hq)
    rw [Dirs.makeFrom_append_slash]
    cases ha : fs.makeFrom d [] a with
    | none =>
      rw [ha] at ih
      refine iff_of_false (by simp) fun h => ?_
      exact absurd (ih.mpr fun q hq => h q (List.mem_append_left _ hq)) (by simp)
    | some p =>
      obtain ⟨y, fs₁⟩ := p
      rw [ha] at ih
      obtain ⟨hext, hy, -⟩ := Dirs.makeFrom_spec hd ha
      have harrive := Dirs.makeFrom_arrive hd ha
      rw [Option.bind_some, Dirs.makeFrom_of_not_mem _ _ [] hn, List.nil_append, enterOrAdd_isSome]
      -- 最後の component の指すものは、作る前と変わらない
      have hlast : fs₁.lookup y n = some .other ↔ fs.arrive d (a ++ slash :: n) = some .other := by
        constructor
        · intro hother
          obtain ⟨hy', hl⟩ := lookup_of_extends hext hn' hother nofun
          rw [arrive_append_slash hn (arrive_of_makeFrom hd
            (fun q hq => hup q (List.mem_append_left _ hq)) ha hy'), hl]
        · intro hother
          rw [← arrive_append_slash hn harrive]
          exact hext.arrive_eq hd hother
      rw [Ne, hlast]
      have hcuts := ih.mp rfl
      constructor
      · intro hne q hq
        rcases List.mem_append.mp hq with hq | hq
        · exact hcuts q hq
        · rwa [List.mem_singleton.mp hq]
      · exact fun h => h _ (by simp)

end Clear

/--
**`..` の無い path では、`Clear` は、途中の path が directory でないものを指さないことである。**

`..` があると、途中の path が指すものは、作る前にはまだ決まらない。
-/
theorem clear_iff (p : DirPath) (fs : Dirs)
    (hup : ∀ q ∈ prefixes p.text, namePart q ≠ ascii "..") :
    fs.Clear p.text ↔ ∀ q ∈ prefixes p.text, fs.resolve q ≠ some .other := by
  refine (makeFrom_isSome (fs.start_lt p.text) hup).trans (forall₂_congr fun q hq => ?_)
  by_cases hne : q = []
  · subst hne
    refine iff_of_true ?_ ?_
    · rw [arrive_of_not_mem fs _ (by simp)]
      simp
    · simp [Dirs.resolve]
  · rw [Dirs.resolve, if_neg hne, start_of_mem_prefixes hq hne]

/-! ## `multi_mkdir` -/

/-- 無い directory を作りながら辿るのと同じ状態になる。 -/
theorem multiMkdir_eq_make (p : DirPath) (fs : Dirs) {e : Nat} {fs' : Dirs}
    (h : fs.make p.text = some (e, fs')) : (dirsIo.multiMkdir fs p.text).1 = fs' := by
  rw [multiMkdir_eq_foldl p.no_zero p.length_lt p.ne_nil]
  exact (rootDown_make (fs.start_lt _) p.no_zero (fun _ => rfl) h).1

/-- **`multi_mkdir` は path の途中を根から順に directory にし、それ以外は変えず、二度目は何も変えない。** -/
theorem multi_mkdir_root_down (p : DirPath) (fs : Dirs) (h : fs.Clear p.text) :
    RootDown fs (prefixes p.text) (dirsIo.multiMkdir fs p.text) ∧
      (dirsIo.multiMkdir (dirsIo.multiMkdir fs p.text).1 p.text).1 =
        (dirsIo.multiMkdir fs p.text).1 := by
  obtain ⟨⟨e, fs'⟩, hmake⟩ := Option.isSome_iff_exists.mp h
  have hroot := (rootDown_make (fs.start_lt _) p.no_zero (fun _ => rfl) hmake).2
  rw [← multiMkdir_eq_foldl p.no_zero p.length_lt p.ne_nil] at hroot
  refine ⟨hroot, ?_⟩
  rw [multiMkdir_eq_foldl p.no_zero p.length_lt p.ne_nil]
  exact foldl_ensure_of_resolve (r := (_, [])) (zero_not_mem_prefixes p.no_zero) hroot.reached

/-- root だけがあり、そこに居る。 -/
def emptyRoot : Dirs where
  count := 1
  root := 0
  cwd := 0
  parent _ := 0
  entry _ _ := none
  root_lt := Nat.one_pos
  cwd_lt := Nat.one_pos
  parent_lt _ _ := Nat.one_pos
  entry_dir _ _ _ h := nomatch h
  entry_lt _ _ _ h := nomatch h

def camPath : DirPath := ⟨ascii "/rec/../live//cam/", by decide, by decide, by decide⟩

theorem multi_mkdir_new_tree :
    RootDown emptyRoot (prefixes camPath.text) (dirsIo.multiMkdir emptyRoot camPath.text) ∧
      (dirsIo.multiMkdir (dirsIo.multiMkdir emptyRoot camPath.text).1 camPath.text).1 =
        (dirsIo.multiMkdir emptyRoot camPath.text).1 :=
  multi_mkdir_root_down camPath emptyRoot (by decide)

end RecordServer.App
