import RecordServer.App.Playlist

/-!
# playlist の名前

`start_record` と `create_m3u8` は、`root_path`・`path`・`sid` を区切らずに繋ぎ、どちらも 255 byte で切る。

* `distinct_playlists_iff` — 二つの要求の file がどの時刻にも別であるのは、繋いだ文字列が違い、
  どちらの長い方も相手の名前の頭に一致しないときに限る
* `shared_playlist` — 繋ぎ目の違う二つの要求が、同じ file を開く
* `same_directory_iff` — `create_record` と `start_record` が同じ directory に `sid_time.m3u8` を置くのは、
  `start_record` の繋いだ path が `/` で終わり、`sid` に NUL が無いときに限る
* `start_prepends_component` — `path` の最後の component が、`start_record` の file の名前に付く
-/

namespace RecordServer.App

open Infra

/-! ## 書式 -/

theorem startPath_eq (rootPath path : Bytes) :
    startPath rootPath path = (cstr rootPath ++ cstr path).take 255 := by
  have hfmt : ascii "%s%s" = [37, 115, 37, 115] := by decide
  simp [startPath, snprintf, hfmt, sprintf]

theorem createPath_eq (rootPath path : Bytes) :
    createPath rootPath path = (cstr rootPath ++ cstr (stripLast path) ++ [slash]).take 255 := by
  have hfmt : ascii "%s%s/" = [37, 115, 37, 115, 47] := by decide
  simp [createPath, snprintf, hfmt, sprintf, slash]

theorem cstr_startPath (rootPath path : Bytes) :
    cstr (startPath rootPath path) = startPath rootPath path := by
  refine cstr_eq_self fun h => ?_
  rw [startPath_eq] at h
  exact List.not_mem_append (zero_notMem_cstr _) (zero_notMem_cstr _) (List.mem_of_mem_take h)

theorem cstr_createPath (rootPath path : Bytes) :
    cstr (createPath rootPath path) = createPath rootPath path := by
  refine cstr_eq_self fun h => ?_
  rw [createPath_eq] at h
  have hparts : 0 ∉ cstr rootPath ++ cstr (stripLast path) :=
    List.not_mem_append (zero_notMem_cstr _) (zero_notMem_cstr _)
  exact List.not_mem_append hparts (by decide) (List.mem_of_mem_take h)

/-- 整数の表記は、符号と数字だけからなる。 -/
theorem mem_decimal {n : Int} {b : UInt8} (h : b ∈ decimal n) : b = 45 ∨ 48 ≤ b ∧ b ≤ 57 := by
  unfold decimal at h
  split at h
  · rcases List.mem_append.mp h with h | h
    · rw [show ascii "-" = [45] by decide, List.mem_singleton] at h
      exact .inl h
    · exact .inr (digit_of_mem_repr h)
  · exact .inr (digit_of_mem_repr h)

/-- 時刻の部分は `_` で始まり、その後は `-`・`.`・英数字だけである。 -/
theorem timeSuffix_cons (t : Int) : ∃ rest, timeSuffix t = 95 :: rest ∧
    ∀ b ∈ rest, 45 ≤ b ∧ b < 128 ∧ b ≠ slash ∧ b ≠ 92 ∧ b ≠ 95 := by
  refine ⟨decimal (Int.bmod t (2 ^ 32)) ++ ascii ".m3u8", ?_, fun b hb => ?_⟩
  · simp [timeSuffix, show ascii "_" = [95] by decide]
  rcases List.mem_append.mp hb with hb | hb
  · rcases mem_decimal hb with rfl | ⟨hlow, hhigh⟩
    · decide
    · rw [UInt8.le_iff_toNat_le] at hlow hhigh
      simp only [slash, ne_eq, ← UInt8.toNat_inj, UInt8.le_iff_toNat_le, UInt8.lt_iff_toNat_lt,
        UInt8.toNat_ofNat] at hlow hhigh ⊢
      omega
  · rw [show ascii ".m3u8" = [46, 109, 51, 117, 56] by decide] at hb
    simp only [List.mem_cons, List.not_mem_nil, or_false] at hb
    rcases hb with rfl | rfl | rfl | rfl | rfl <;> decide

/-! ## 別の stream の file -/

/-- `create_m3u8` が時刻の前に置く部分。 -/
def stem (rootPath path sid : Bytes) : Bytes := (cstr rootPath ++ cstr path).take 255 ++ cstr sid

/-- 要求 `(path, sid)` の playlist の名前。 -/
def playlist (rootPath path sid : Bytes) (t : Int) : Bytes :=
  fileName (startPath rootPath path) sid t

theorem playlist_eq (rootPath path sid : Bytes) (t : Int) :
    playlist rootPath path sid t = (stem rootPath path sid ++ timeSuffix t).take 255 := by
  rw [playlist, fileName, cstr_startPath, startPath_eq]
  rfl

/-- 255 byte を越える `a` の頭が、`b` に時刻を付けた名前の頭でもある。 -/
def Covers (a b : Bytes) : Prop := 255 ≤ a.length ∧ ∃ t, a.take 255 <+: b ++ timeSuffix t

/-- 長い stem の名前には、時刻が入らない。 -/
theorem covers_iff_take_eq {a b : Bytes} (ha : 255 ≤ a.length) :
    Covers a b ↔ ∃ t, a.take 255 = (b ++ timeSuffix t).take 255 := by
  have hlen : (a.take 255).length = 255 := by simp [ha]
  constructor
  · rintro ⟨-, t, hp⟩
    have heq := List.prefix_iff_eq_take.mp hp
    rw [hlen] at heq
    exact ⟨t, heq⟩
  · rintro ⟨t, heq⟩
    exact ⟨ha, t, heq ▸ List.take_prefix _ _⟩

theorem take_of_long {a : Bytes} (ha : 255 ≤ a.length) (x : Bytes) :
    (a ++ x).take 255 = a.take 255 := List.take_append_of_le_length ha

/-- 短い stem どうしでは、名前の最後の `_` が stem の終わりを決める。 -/
theorem length_le_of_take_eq {a b : Bytes} {t u : Int} (hb : b.length < 255)
    (h : (a ++ timeSuffix t).take 255 = (b ++ timeSuffix u).take 255) : b.length ≤ a.length := by
  by_contra hlt
  obtain ⟨rest, ht, hrest⟩ := timeSuffix_cons t
  obtain ⟨rest', hu, -⟩ := timeSuffix_cons u
  -- 位置 `b.length` の byte は、右では `_`、左では時刻の途中である。
  have hget := congrArg (fun l => l[b.length]?) h
  simp only [List.getElem?_take, if_pos hb] at hget
  rw [hu, List.getElem?_append_right (le_refl _), Nat.sub_self, ht,
    List.getElem?_append_right (by omega)] at hget
  obtain ⟨k, hk⟩ : ∃ k, b.length - a.length = k + 1 := ⟨b.length - a.length - 1, by omega⟩
  rw [hk, List.getElem?_cons_succ, List.getElem?_cons_zero] at hget
  exact (hrest _ (List.mem_of_getElem? hget)).2.2.2.2 rfl

theorem eq_of_take_eq {a b : Bytes} {t u : Int} (ha : a.length < 255) (hb : b.length < 255)
    (h : (a ++ timeSuffix t).take 255 = (b ++ timeSuffix u).take 255) : a = b := by
  have hlen : a.length = b.length :=
    le_antisymm (length_le_of_take_eq ha h.symm) (length_le_of_take_eq hb h)
  have hpre := congrArg (List.take a.length) h
  rw [List.take_take, List.take_take, Nat.min_eq_left ha.le, List.take_left, hlen,
    List.take_left] at hpre
  exact hpre

/--
**二つの要求の playlist がどの時刻にも別の file であるのは、stem が違い、どちらも相手を覆わないときに限る。**
-/
theorem distinct_playlists_iff (rootPath path₁ sid₁ path₂ sid₂ : Bytes) :
    (∀ t₁ t₂, playlist rootPath path₁ sid₁ t₁ ≠ playlist rootPath path₂ sid₂ t₂) ↔
      stem rootPath path₁ sid₁ ≠ stem rootPath path₂ sid₂ ∧
        ¬ Covers (stem rootPath path₁ sid₁) (stem rootPath path₂ sid₂) ∧
        ¬ Covers (stem rootPath path₂ sid₂) (stem rootPath path₁ sid₁) := by
  simp only [playlist_eq]
  generalize stem rootPath path₁ sid₁ = a
  generalize stem rootPath path₂ sid₂ = b
  constructor
  · intro h
    refine ⟨?_, fun hc => ?_, fun hc => ?_⟩
    · rintro rfl
      exact h 0 0 rfl
    · obtain ⟨t, heq⟩ := (covers_iff_take_eq hc.1).mp hc
      exact h 0 t ((take_of_long hc.1 _).trans heq)
    · obtain ⟨t, heq⟩ := (covers_iff_take_eq hc.1).mp hc
      exact h t 0 (heq.symm.trans (take_of_long hc.1 _).symm)
  · rintro ⟨hne, hab, hba⟩ t u h
    by_cases ha : 255 ≤ a.length
    · exact hab ((covers_iff_take_eq ha).mpr ⟨u, (take_of_long ha _).symm.trans h⟩)
    by_cases hb : 255 ≤ b.length
    · exact hba ((covers_iff_take_eq hb).mpr ⟨t, (take_of_long hb _).symm.trans h.symm⟩)
    exact hne (eq_of_take_eq (by omega) (by omega) h)

/-- `/a` の `bc` と `/ab` の `c` は、同じ時刻に同じ file を開く。 -/
theorem shared_playlist :
    ascii "bc" ≠ ascii "c" ∧
      playlist (ascii "/rec") (ascii "/a") (ascii "bc") 1500000000 =
        playlist (ascii "/rec") (ascii "/ab") (ascii "c") 1500000000 := by
  constructor
  · decide
  · rw [playlist_eq, playlist_eq]
    rfl

/-! ## 二つの要求の置き場所 -/

/-- どの buffer も切れない。 -/
structure NoCut (rootPath path sid : Bytes) (t u : Int) : Prop where
  create : (cstr rootPath ++ cstr (stripLast path) ++ [slash] ++ cstr sid ++
    timeSuffix t).length ≤ 255
  start : (cstr rootPath ++ cstr path ++ cstr sid ++ timeSuffix u).length ≤ 255

/-- `create_record` は時刻 `t`、`spawn_process` は時刻 `u` に、同じ directory に `sid_time.m3u8` を置く。 -/
structure SameSpot (rootPath path sid : Bytes) (t u : Int) : Prop where
  dir : squeeze (dirPart (fileName (createPath rootPath path) sid t)) =
    squeeze (dirPart (playlist rootPath path sid u))
  createName : namePart (fileName (createPath rootPath path) sid t) = sid ++ timeSuffix t
  startName : namePart (playlist rootPath path sid u) = sid ++ timeSuffix u

theorem slash_not_mem_timeSuffix (t : Int) : slash ∉ timeSuffix t := by
  obtain ⟨rest, heq, hrest⟩ := timeSuffix_cons t
  rw [heq]
  intro h
  rcases List.mem_cons.mp h with h | h
  · exact absurd h (by decide)
  · exact (hrest _ h).2.2.1 rfl

theorem zero_not_mem_timeSuffix (t : Int) : 0 ∉ timeSuffix t := by
  obtain ⟨rest, heq, hrest⟩ := timeSuffix_cons t
  rw [heq]
  intro h
  rcases List.mem_cons.mp h with h | h
  · exact absurd h (by decide)
  · exact absurd (hrest _ h).1 (by decide)

theorem zero_not_mem_fileName (path sid : Bytes) (t : Int) : 0 ∉ fileName path sid t := by
  intro h
  have hparts : 0 ∉ cstr path ++ cstr sid := List.not_mem_append (zero_notMem_cstr _) (zero_notMem_cstr _)
  exact List.not_mem_append hparts (zero_not_mem_timeSuffix t) (List.mem_of_mem_take h)

/-- 切れない名前は、path に名前を足したものである。 -/
theorem fileName_eq {path sid : Bytes} {t : Int} (h : cstr path = path)
    (hlen : (path ++ cstr sid ++ timeSuffix t).length ≤ 255) :
    fileName path sid t = path ++ (cstr sid ++ timeSuffix t) := by
  rw [fileName, h, List.take_of_length_le hlen, List.append_assoc]

theorem NoCut.created_eq {rootPath path sid : Bytes} {t u : Int}
    (h : NoCut rootPath path sid t u) : fileName (createPath rootPath path) sid t =
      cstr rootPath ++ cstr (stripLast path) ++ [slash] ++ (cstr sid ++ timeSuffix t) := by
  have hcreate := h.create
  have hpath : createPath rootPath path = cstr rootPath ++ cstr (stripLast path) ++ [slash] := by
    rw [createPath_eq, List.take_of_length_le]
    simp only [List.length_append] at hcreate ⊢
    omega
  have hcStr := cstr_createPath rootPath path
  rw [hpath] at hcStr ⊢
  exact fileName_eq hcStr hcreate

theorem NoCut.started_eq {rootPath path sid : Bytes} {t u : Int}
    (h : NoCut rootPath path sid t u) : playlist rootPath path sid u =
      cstr rootPath ++ cstr path ++ (cstr sid ++ timeSuffix u) := by
  have hstart := h.start
  have hpath : startPath rootPath path = cstr rootPath ++ cstr path := by
    rw [startPath_eq, List.take_of_length_le]
    simp only [List.length_append] at hstart ⊢
    omega
  have hcStr := cstr_startPath rootPath path
  rw [playlist]
  rw [hpath] at hcStr ⊢
  exact fileName_eq hcStr hstart

theorem slash_not_mem_name {sid : Bytes} (h : slash ∉ sid) (t : Int) :
    slash ∉ cstr sid ++ timeSuffix t :=
  List.not_mem_append (fun hin => h (List.takeWhile_subset _ hin)) (slash_not_mem_timeSuffix t)

/-- `path` を繋いだものが `/` で終われば、切り取ってから `/` を付けても、`/` が重なるほかは同じである。 -/
theorem strip_concat_slash {rootPath path p : Bytes} (h : slash ∈ path)
    (heq : cstr rootPath ++ cstr path = p ++ [slash]) :
    squeeze (cstr rootPath ++ cstr (stripLast path) ++ [slash]) = squeeze (p ++ [slash]) := by
  obtain ⟨a, n, rfl, hn⟩ := split_last_slash h
  have hstrip : stripLast (a ++ slash :: n) = a := by
    rw [stripLast, rfindSlash_append a hn]
    simp
  rw [hstrip]
  by_cases hz : 0 ∈ a
  · -- NUL が最後の `/` より前にあれば、どちらの要求も同じところまで読む。
    have hsame : cstr (a ++ slash :: n) = cstr a := by
      unfold cstr
      rw [List.takeWhile_append, if_neg]
      intro hlen
      have hall := List.takeWhile_eq_self_iff.mp ((List.takeWhile_prefix _).eq_of_length hlen)
      exact absurd (hall 0 hz) (by decide)
    rw [hsame] at heq
    rw [heq, squeeze_concat_slash]
  · have hsplit : cstr (a ++ slash :: n) = a ++ slash :: cstr n := by
      unfold cstr
      rw [List.takeWhile_append_of_pos fun b hb => by
        have hne : b ≠ 0 := fun hb0 => hz (hb0 ▸ hb)
        simpa using hne]
      rfl
    rw [hsplit] at heq
    rcases List.eq_nil_or_concat (cstr n) with hnil | ⟨n', b, hcons⟩
    · rw [hnil, ← List.append_assoc] at heq
      rw [cstr_eq_self hz, heq]
    · have hlast := congrArg List.getLast? heq
      rw [hcons] at hlast
      simp only [List.concat_eq_append, List.getLast?_append, List.getLast?_cons] at hlast
      have hb : b = slash := by simpa using hlast
      have hmem : b ∈ cstr n := by simp [hcons]
      exact absurd (hb ▸ List.takeWhile_subset _ hmem) hn

/--
**`create_record` と `start_record` が同じ directory に `sid_time.m3u8` を置くのは、`start_record` の
繋いだ path が `/` で終わり、`sid` に NUL が無いときに限る。**
-/
theorem same_directory_iff {rootPath path sid : Bytes} {t u : Int} (hpath : slash ∈ path)
    (hsid : slash ∉ sid) (hcut : NoCut rootPath path sid t u) :
    SameSpot rootPath path sid t u ↔
      (∃ p, cstr rootPath ++ cstr path = p ++ [slash]) ∧ 0 ∉ sid := by
  have hname := slash_not_mem_name hsid
  constructor
  · rintro ⟨hdir, -, hstart⟩
    rw [hcut.created_eq, hcut.started_eq, dirPart_append (hname t), dirPart_append (hname u),
      dirPart_concat_slash] at hdir
    rw [hcut.started_eq, namePart_append (hname u)] at hstart
    have hz : 0 ∉ sid := by
      intro hin
      have hin' : 0 ∈ namePart (cstr rootPath ++ cstr path) ++ (cstr sid ++ timeSuffix u) := by
        rw [hstart]
        exact List.mem_append_left _ hin
      have hpaths : 0 ∉ cstr rootPath ++ cstr path :=
        List.not_mem_append (zero_notMem_cstr _) (zero_notMem_cstr _)
      have hdirName : 0 ∉ namePart (cstr rootPath ++ cstr path) :=
        fun h => hpaths ((namePart_suffix _).subset h)
      have hsidName : 0 ∉ cstr sid ++ timeSuffix u :=
        List.not_mem_append (zero_notMem_cstr _) (zero_not_mem_timeSuffix u)
      exact List.not_mem_append hdirName hsidName hin'
    rw [cstr_eq_self hz, List.append_left_eq_self] at hstart
    refine ⟨?_, hz⟩
    rcases namePart_eq_nil hstart with hnil | hslash
    · rw [hnil, show dirPart [] = [] from rfl, show squeeze [] = [] from rfl, squeeze_eq_nil] at hdir
      simp at hdir
    · exact hslash
  · rintro ⟨⟨p, hp⟩, hz⟩
    refine ⟨?_, ?_, ?_⟩
    · rw [hcut.created_eq, hcut.started_eq, dirPart_append (hname t), dirPart_append (hname u),
        dirPart_concat_slash, hp, dirPart_concat_slash]
      exact strip_concat_slash hpath hp
    · rw [hcut.created_eq, namePart_append (hname t), namePart_concat_slash, cstr_eq_self hz]
      rfl
    · rw [hcut.started_eq, namePart_append (hname u), hp, namePart_concat_slash, cstr_eq_self hz]
      rfl

theorem same_directory_slash :
    SameSpot (ascii "/rec") (ascii "/live/") (ascii "cam") 1500000000 1500000001 :=
  (same_directory_iff (by decide) (by decide) ⟨by decide, by decide⟩).mpr
    ⟨⟨ascii "/rec/live", by decide⟩, by decide⟩

/-- `path` が `/live/a` のとき、`create_record` は `cam_….m3u8` を、`start_record` は `acam_….m3u8` を開く。 -/
theorem start_prepends_component :
    NoCut (ascii "/rec") (ascii "/live/a") (ascii "cam") 1500000000 1500000000 ∧
      fileName (createPath (ascii "/rec") (ascii "/live/a")) (ascii "cam") 1500000000 =
        ascii "/rec/live/cam_1500000000.m3u8" ∧
      playlist (ascii "/rec") (ascii "/live/a") (ascii "cam") 1500000000 =
        ascii "/rec/live/acam_1500000000.m3u8" ∧
      ¬ SameSpot (ascii "/rec") (ascii "/live/a") (ascii "cam") 1500000000 1500000000 := by
  have hstart : playlist (ascii "/rec") (ascii "/live/a") (ascii "cam") 1500000000 =
      ascii "/rec/live/acam_1500000000.m3u8" := by decide +kernel
  refine ⟨⟨by decide, by decide⟩, by decide +kernel, hstart, fun h => ?_⟩
  have hname := h.startName
  rw [hstart] at hname
  exact absurd hname (by decide +kernel)

end RecordServer.App
