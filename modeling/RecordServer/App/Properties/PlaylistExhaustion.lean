import RecordServer.App.PlaylistDescriptors
import RecordServer.App.Properties.CreateReply

/-!
# playlist が作れなくなるまで

`create_m3u8` は、directory が初めからあるたびに descriptor を一つ失う。

* `createM3u8Fd_enough` / `createM3u8Fd_short` — 空きが足りる呼び出しと、足りない呼び出し
* `playlists_until_exhausted` — 順に呼ぶとき、どの呼び出しが descriptor の不足で失敗するか
* `Accounts` — どの descriptor が開いたまま残っているか
* `directories_pile_up` — 入り混じった呼び出しでも、`opendir` が開いたものはみな残り、表がそれで埋まれば
  `create_m3u8` は二度と成功しない
-/

namespace RecordServer.App

open Infra

/-! ## 三つの system call と descriptor の空き -/

section Sequential

variable {h : Host} {path : Bytes} {param : M3u8Param}

theorem opendir_missing (hdir : ¬ h.tree.Opendir (cstr path)) : h.opendir path = (false, h) :=
  if_neg hdir

theorem opendir_full (hfree : h.fds.free = 0) : h.opendir path = (false, h) := by
  have hnone : h.fds.alloc .directory = none := FdTable.alloc_eq_none_iff.mpr hfree
  unfold Host.opendir
  rw [hnone]
  split <;> rfl

theorem opendir_found (hdir : h.tree.Opendir (cstr path)) (hfree : 0 < h.fds.free) :
    ∃ fds : FdTable FdOwner, h.opendir path = (true, ⟨h.tree, fds⟩) ∧
      fds.free + 1 = h.fds.free := by
  obtain ⟨fd, fds, hal⟩ := FdTable.exists_alloc hfree .directory
  refine ⟨fds, ?_, (FdTable.free_alloc hal).symm⟩
  unfold Host.opendir
  rw [if_pos hdir, hal]

/-- 空きがあれば、file を開いて閉じる間に表は元に戻る。 -/
theorem createFile_free (hfree : 0 < h.fds.free) (param : M3u8Param) (tmp : Bytes) :
    h.createFile param tmp =
      match h.tree.openCreat tmp with
      | (true, t) => (some { param with filePath := tmp }, ⟨t, h.fds⟩)
      | (false, t) => (none, ⟨t, h.fds⟩) := by
  obtain ⟨fd, fds, hal⟩ := FdTable.exists_alloc hfree .playlist
  unfold Host.createFile Host.openCreat
  rw [hal]
  rcases h.tree.openCreat tmp with ⟨ok, t⟩
  cases ok with
  | true => simp only [Host.close, FdTable.close_alloc hal]
  | false => rfl

theorem createFile_full (hfree : h.fds.free = 0) (param : M3u8Param) (tmp : Bytes) :
    h.createFile param tmp = (none, h) := by
  have hnone : h.fds.alloc .playlist = none := FdTable.alloc_eq_none_iff.mpr hfree
  unfold Host.createFile Host.openCreat
  rw [hnone]

/-! ## 一回の呼び出し -/

/-- 要る空きの数。directory があれば、それを開く分も要る。 -/
def needed (t : Tree) (path : Bytes) : Nat := if t.Opendir (cstr path) then 2 else 1

/-- 残ったままになる数。 -/
def lost (t : Tree) (path : Bytes) : Nat := if t.Opendir (cstr path) then 1 else 0

/-- 空きが足りれば、descriptor を数えない `create_m3u8` と同じである。 -/
theorem createM3u8Fd_enough (hfree : needed h.tree param.path ≤ h.fds.free) (now : Int) :
    (createM3u8Fd h param now).1 = (createM3u8 h.tree param now).1 ∧
      (createM3u8Fd h param now).2.tree = (createM3u8 h.tree param now).2 ∧
      (createM3u8Fd h param now).2.fds.free + lost h.tree param.path = h.fds.free := by
  unfold needed at hfree
  unfold createM3u8Fd createM3u8 prepareDir lost
  by_cases hdir : h.tree.Opendir (cstr param.path)
  · rw [if_pos hdir] at hfree
    obtain ⟨fds, hopen, hfds⟩ := opendir_found hdir (by omega)
    have hpos : 0 < (Host.mk h.tree fds).fds.free := by
      show 0 < fds.free
      omega
    have hfile := createFile_free hpos param (fileName param.path param.sid now)
    simp only [hopen, if_true, hfile, if_pos hdir]
    rcases h.tree.openCreat (fileName param.path param.sid now) with ⟨ok, t⟩
    cases ok <;> exact ⟨rfl, rfl, hfds⟩
  · rw [if_neg hdir] at hfree
    have hpos : 0 < (h.mkdirs param.path).fds.free := by
      show 0 < h.fds.free
      omega
    have hfile := createFile_free hpos param (fileName param.path param.sid now)
    simp only [opendir_missing hdir, Bool.false_eq_true, if_false, hfile, if_neg hdir]
    simp only [Host.mkdirs]
    rcases (multiMkdir h.tree param.path).openCreat (fileName param.path param.sid now) with ⟨ok, t⟩
    cases ok <;> exact ⟨rfl, rfl, rfl⟩

/-- 空きが足りなければ失敗し、空きは一つも残らない。 -/
theorem createM3u8Fd_short (hfree : h.fds.free < needed h.tree param.path) (now : Int) :
    (createM3u8Fd h param now).1 = none ∧ (createM3u8Fd h param now).2.fds.free = 0 := by
  unfold needed at hfree
  unfold createM3u8Fd
  by_cases hzero : h.fds.free = 0
  · have hfile := createFile_full (h := h.mkdirs param.path) hzero param
      (fileName param.path param.sid now)
    simp only [opendir_full hzero, Bool.false_eq_true, if_false, hfile]
    exact ⟨trivial, hzero⟩
  · have hdir : h.tree.Opendir (cstr param.path) := by
      by_contra hdir
      rw [if_neg hdir] at hfree
      omega
    rw [if_pos hdir] at hfree
    obtain ⟨fds, hopen, hfds⟩ := opendir_found hdir (by omega)
    have hnone : fds.free = 0 := by omega
    have hfile := createFile_full (h := ⟨h.tree, fds⟩) hnone param
      (fileName param.path param.sid now)
    simp only [hopen, if_true, hfile]
    exact ⟨trivial, hnone⟩

end Sequential

/-! ## 順に呼ぶ -/

/--
空きが `left` 残っていて、木は descriptor を数えないときの木 `t` と同じである。
空きが無くなった後の木は、もう結果に関わらない。
-/
structure Mirrors (h : Host) (t : Tree) (left : Nat) : Prop where
  free : h.fds.free = left
  tree : 0 < left → h.tree = t

/-- 一回の呼び出しは、対応を保つ。結果は、空きが足りるときに限り同じである。 -/
theorem Mirrors.step {h : Host} {t : Tree} {left : Nat} (hm : Mirrors h t left)
    (c : PlaylistCall) :
    (createM3u8Fd h c.param c.now).1 =
        (if needed t c.param.path ≤ left then (createM3u8 t c.param c.now).1 else none) ∧
      Mirrors (createM3u8Fd h c.param c.now).2 (createM3u8 t c.param c.now).2
        (left - lost t c.param.path) := by
  obtain ⟨hfree, htree⟩ := hm
  have hneed : ∀ t : Tree, needed t c.param.path = lost t c.param.path + 1 := fun t => by
    unfold needed lost
    split <;> rfl
  by_cases hzero : left = 0
  · subst hzero
    have hshort : h.fds.free < needed h.tree c.param.path := by
      rw [hneed]
      omega
    obtain ⟨hnone, hfree'⟩ := createM3u8Fd_short hshort c.now
    refine ⟨?_, by simpa using hfree', fun hpos => absurd hpos (by omega)⟩
    rw [hnone, if_neg (by rw [hneed]; omega)]
  · obtain rfl := htree (by omega)
    by_cases henough : needed h.tree c.param.path ≤ left
    · obtain ⟨hres, htree', hfree'⟩ := createM3u8Fd_enough (hfree ▸ henough) c.now
      exact ⟨by rw [hres, if_pos henough], by omega, fun _ => htree'⟩
    · have hshort : h.fds.free < needed h.tree c.param.path := by omega
      obtain ⟨hnone, hfree'⟩ := createM3u8Fd_short hshort c.now
      have hone : left - lost h.tree c.param.path = 0 := by
        rw [hneed] at henough
        omega
      refine ⟨by rw [hnone, if_neg henough], by omega, fun hpos => absurd hpos (by omega)⟩

theorem Mirrors.run {h : Host} {t : Tree} {left : Nat} (hm : Mirrors h t left)
    (cs : List PlaylistCall) :
    Mirrors (hostAfter h cs) (treeAfter t cs) (left - foundIn t cs) := by
  induction cs generalizing h t left with
  | nil => exact hm
  | cons c cs ih =>
    have hrest := ih (hm.step c).2
    rw [foundIn, Nat.sub_add_eq]
    exact hrest

theorem needed_pos (t : Tree) (path : Bytes) : 0 < needed t path := by
  unfold needed
  split <;> omega

/-- 空きが無ければ、どの `create_record` も 400 を返す。 -/
theorem createRecordFd_full {h : Host} (hfree : h.fds.free = 0) (rootPath path sid : Bytes)
    (now : Int) :
    (createRecordFd h rootPath path sid now).1 =
      ⟨400, ascii "paramter not match", createFailedOutput 11⟩ := by
  have hshort : h.fds.free < needed h.tree (createPath rootPath path) := by
    rw [hfree]
    exact needed_pos _ _
  have hfail : (createM3u8Fd h ⟨sid, createPath rootPath path, []⟩ now).1 = none :=
    (createM3u8Fd_short hshort now).1
  unfold createRecordFd
  rcases hr : createM3u8Fd h ⟨sid, createPath rootPath path, []⟩ now with ⟨res, h'⟩
  rw [hr] at hfail
  cases hfail
  rfl

/--
**順に呼んだ `create_m3u8` は、descriptor が足りる間だけ成功し、足りなくなった後は二度と成功しない。**

directory が初めからあった呼び出しが `k` 回あれば、空きは `k` だけ減っている。次の呼び出しの結果が、descriptor に
限りが無いときと同じなのは、directory があるなら二つ、無いなら一つの空きがまだ残っているときに限る。
それ以外では、木がどうであっても失敗する。`k` が初めの空きに届けば、どの `create_record` にも 400 が返る。
-/
theorem playlists_until_exhausted (h : Host) (cs : List PlaylistCall) :
    (hostAfter h cs).fds.free = h.fds.free - foundIn h.tree cs ∧
      (∀ c : PlaylistCall, (createM3u8Fd (hostAfter h cs) c.param c.now).1 =
        if foundIn h.tree cs + needed (treeAfter h.tree cs) c.param.path ≤ h.fds.free then
          (createM3u8 (treeAfter h.tree cs) c.param c.now).1
        else none) ∧
      (h.fds.free ≤ foundIn h.tree cs → ∀ rootPath path sid now,
        (createRecordFd (hostAfter h cs) rootPath path sid now).1 =
          ⟨400, ascii "paramter not match", createFailedOutput 11⟩) := by
  have hm : Mirrors h h.tree h.fds.free := ⟨rfl, fun _ => rfl⟩
  have hrun := hm.run cs
  refine ⟨hrun.free, fun c => ?_, fun hle rootPath path sid now => ?_⟩
  · have hpos := needed_pos (treeAfter h.tree cs) c.param.path
    rw [(hrun.step c).1]
    refine if_congr ?_ rfl rfl
    omega
  · have hfree := hrun.free
    rw [Nat.sub_eq_zero_of_le hle] at hfree
    exact createRecordFd_full hfree rootPath path sid now

/-! ## 入り混じる呼び出し -/

namespace Calling

variable {ι : Type*} [DecidableEq ι] {s s' : Calling ι}

def isDirectory (o : FdOwner) : Bool := o = .directory

/-- 一歩で表がどう変わるか。木の変わり方は問わない。 -/
inductive FdStep (s : Calling ι) : Calling ι → Prop where
  /-- 表は変わらず、file を持っていない thread だけが進む。 -/
  | still (i : ι) (p : PlaylistPc) (t : Tree) : (∀ fd param, s.pc i ≠ .close fd param) →
      (∀ fd param, p ≠ .close fd param) →
      FdStep s ({ s with host := ⟨t, s.host.fds⟩ }.goto i p)
  | found (i : ι) (param : M3u8Param) (fd : Nat) (fds : FdTable FdOwner) :
      (∀ fd param, s.pc i ≠ .close fd param) → s.host.fds.alloc .directory = some (fd, fds) →
      FdStep s ({ s with host := ⟨s.host.tree, fds⟩, found := s.found + 1 }.goto i (.openCreat param))
  | opened (i : ι) (param : M3u8Param) (fd : Nat) (fds : FdTable FdOwner) (t : Tree) :
      (∀ fd param, s.pc i ≠ .close fd param) → s.host.fds.alloc .playlist = some (fd, fds) →
      FdStep s ({ s with host := ⟨t, fds⟩ }.goto i (.close fd param))
  | closed (i : ι) (fd : Nat) (param : M3u8Param) : s.pc i = .close fd param →
      FdStep s ({ s with host := s.host.close fd }.goto i (.returned (some param)))
  | openOther (fd : Nat) (fds : FdTable FdOwner) : s.host.fds.alloc .other = some (fd, fds) →
      FdStep s { s with host := ⟨s.host.tree, fds⟩ }
  | closeOther (fd : Nat) : s.host.fds.owner fd = some .other →
      FdStep s { s with host := s.host.close fd }
  | full : FdStep s s

theorem fdStep_of_opendir {i : ι} {param : M3u8Param} (hpc : s.pc i = .opendir param)
    (h : s.step (.opendir i) = some s') : FdStep s s' := by
  have hidle : ∀ fd param, s.pc i ≠ .close fd param := by simp [hpc]
  simp only [step, hpc, Host.opendir] at h
  split_ifs at h
  · rcases hal : s.host.fds.alloc .directory with _ | ⟨fd, fds⟩
    · rw [hal] at h
      cases h
      exact .still i (.mkdirs param) s.host.tree hidle (by simp)
    · rw [hal] at h
      cases h
      exact .found i param fd fds hidle hal
  · cases h
    exact .still i (.mkdirs param) s.host.tree hidle (by simp)

theorem fdStep_of_openCreat {i : ι} {param : M3u8Param} {now : Int}
    (hpc : s.pc i = .openCreat param) (h : s.step (.openCreat i now) = some s') : FdStep s s' := by
  have hidle : ∀ fd param, s.pc i ≠ .close fd param := by simp [hpc]
  simp only [step, hpc, Host.openCreat] at h
  rcases hal : s.host.fds.alloc .playlist with _ | ⟨fd, fds⟩
  · rw [hal] at h
    cases h
    exact .still i (.returned none) s.host.tree hidle (by simp)
  · rw [hal] at h
    rcases hr : s.host.tree.openCreat (fileName param.path param.sid now) with ⟨ok, t⟩
    simp only [hr] at h
    cases ok with
    | true =>
      cases h
      exact .opened i _ fd fds t hidle hal
    | false =>
      cases h
      exact .still i (.returned none) t hidle (by simp)

theorem fdStep_of_step {a : PlaylistAct ι} (h : s.step a = some s') : FdStep s s' := by
  cases a with
  | call i param =>
    simp only [step] at h
    split at h
    · next hpc =>
      cases h
      exact .still i (.opendir param) s.host.tree (by simp [hpc]) (by simp)
    · next r hpc =>
      cases h
      exact .still i (.opendir param) s.host.tree (by simp [hpc]) (by simp)
    · cases h
  | opendir i =>
    cases hpc : s.pc i with
    | opendir param => exact fdStep_of_opendir hpc h
    | _ => simp [step, hpc] at h
  | mkdirs i =>
    cases hpc : s.pc i with
    | mkdirs param =>
      simp only [step, hpc] at h
      cases h
      exact .still i (.openCreat param) _ (by simp [hpc]) (by simp)
    | _ => simp [step, hpc] at h
  | openCreat i now =>
    cases hpc : s.pc i with
    | openCreat param => exact fdStep_of_openCreat hpc h
    | _ => simp [step, hpc] at h
  | close i =>
    cases hpc : s.pc i with
    | close fd param =>
      simp only [step, hpc] at h
      cases h
      exact .closed i fd param hpc
    | _ => simp [step, hpc] at h
  | openOther =>
    simp only [step] at h
    split at h
    · next fd fds hal =>
      cases h
      exact .openOther fd fds hal
    · cases h
      exact .full
  | closeOther fd =>
    simp only [step] at h
    split at h
    · next hown =>
      cases h
      exact .closeOther fd hown
    · cases h

/-- どの descriptor が残っているか。`base` は、初めから開いていた directory の数である。 -/
structure Accounts (base size : Nat) (s : Calling ι) : Prop where
  directories : s.host.fds.count isDirectory = base + s.found
  /-- file の descriptor は、まだ閉じていない呼び出しのものに限る。 -/
  files : ∀ fd, s.host.fds.owner fd = some .playlist ↔ ∃ i param, s.pc i = .close fd param
  unique : ∀ i j fd p q, s.pc i = .close fd p → s.pc j = .close fd q → i = j
  limit : s.host.fds.limit = size

variable {base size : Nat}

/-- file を持たない位置への移り変わりは、持っている thread を変えない。 -/
theorem close_goto_iff {h : Host} {n : Nat} {i : ι} {p : PlaylistPc}
    (hi : ∀ fd param, s.pc i ≠ .close fd param) (hp : ∀ fd param, p ≠ .close fd param) (j : ι)
    (fd : Nat) (param : M3u8Param) :
    (Calling.goto ⟨h, s.pc, n⟩ i p).pc j = .close fd param ↔ s.pc j = .close fd param := by
  by_cases hj : j = i
  · subst hj
    simp [goto, hi, hp]
  · simp [goto, hj]

/-- file でないものを開いても、file の descriptor は変わらない。 -/
theorem owner_playlist_alloc {t t' : FdTable FdOwner} {o : FdOwner} {fd : Nat}
    (hal : t.alloc o = some (fd, t')) (ho : o ≠ .playlist) (fd' : Nat) :
    t'.owner fd' = some .playlist ↔ t.owner fd' = some .playlist := by
  rw [FdTable.owner_alloc hal]
  split
  · next heq => simp [heq, FdTable.owner_of_alloc hal, ho]
  · rfl

/-- file でないものを閉じても、file の descriptor は変わらない。 -/
theorem owner_playlist_close {t : FdTable FdOwner} {o : FdOwner} {fd : Nat}
    (hown : t.owner fd = some o) (ho : o ≠ .playlist) (fd' : Nat) :
    (t.close fd).owner fd' = some .playlist ↔ t.owner fd' = some .playlist := by
  rw [FdTable.owner_close]
  split
  · next heq => simp [heq, hown, ho]
  · rfl

/-- directory でないものを開いても、directory の数は変わらない。 -/
theorem count_directory_alloc {t t' : FdTable FdOwner} {o : FdOwner} {fd : Nat}
    (hal : t.alloc o = some (fd, t')) (ho : o ≠ .directory) :
    t'.count isDirectory = t.count isDirectory := by
  rw [FdTable.count_alloc hal]
  simp [isDirectory, ho]

/-- directory でないものを閉じても、directory の数は変わらない。 -/
theorem count_directory_close {t : FdTable FdOwner} {o : FdOwner} {fd : Nat}
    (hown : t.owner fd = some o) (ho : o ≠ .directory) :
    (t.close fd).count isDirectory = t.count isDirectory := by
  rw [FdTable.count_close (p := isDirectory) hown]
  simp [isDirectory, ho]

/-- file を持たない thread だけが、持たない位置へ進む。 -/
theorem Accounts.still (ha : Accounts base size s) {i : ι} {p : PlaylistPc} (t : Tree)
    (hi : ∀ fd param, s.pc i ≠ .close fd param) (hp : ∀ fd param, p ≠ .close fd param) :
    Accounts base size ({ s with host := ⟨t, s.host.fds⟩ }.goto i p) := by
  have hclose := close_goto_iff (h := ⟨t, s.host.fds⟩) (n := s.found) hi hp
  refine ⟨ha.directories, fun fd => ?_, fun j k fd p q hj hk => ?_, ha.limit⟩
  · simp only [hclose]
    exact ha.files fd
  · exact ha.unique j k fd p q ((hclose j fd p).mp hj) ((hclose k fd q).mp hk)

/-- directory を開いて、開いたまま進む。 -/
theorem Accounts.found (ha : Accounts base size s) {i : ι} {fd : Nat} {fds : FdTable FdOwner}
    (param : M3u8Param) (hi : ∀ fd param, s.pc i ≠ .close fd param)
    (hal : s.host.fds.alloc .directory = some (fd, fds)) :
    Accounts base size ({ s with host := ⟨s.host.tree, fds⟩, found := s.found + 1 }.goto i
      (.openCreat param)) := by
  have hclose := close_goto_iff (h := ⟨s.host.tree, fds⟩) (n := s.found + 1) hi
    (p := .openCreat param) (by simp)
  refine ⟨?_, fun fd' => ?_, fun j k fd p q hj hk => ?_, (FdTable.limit_alloc hal).trans ha.limit⟩
  · show fds.count isDirectory = base + (s.found + 1)
    rw [FdTable.count_alloc hal, ha.directories]
    simp [isDirectory, Nat.add_assoc]
  · simp only [hclose]
    exact (owner_playlist_alloc hal (by decide) fd').trans (ha.files fd')
  · exact ha.unique j k fd p q ((hclose j fd p).mp hj) ((hclose k fd q).mp hk)

/-- file を開いた thread が、その descriptor のただ一人の持ち主になる。 -/
theorem Accounts.opened (ha : Accounts base size s) {i : ι} {fd : Nat} {fds : FdTable FdOwner}
    (param : M3u8Param) (t : Tree) (hi : ∀ fd param, s.pc i ≠ .close fd param)
    (hal : s.host.fds.alloc .playlist = some (fd, fds)) :
    Accounts base size ({ s with host := ⟨t, fds⟩ }.goto i (.close fd param)) := by
  have hfree : ∀ j q, s.pc j ≠ .close fd q := fun j q hj => by
    have hown := (ha.files fd).mpr ⟨j, q, hj⟩
    rw [FdTable.owner_of_alloc hal] at hown
    cases hown
  refine ⟨(count_directory_alloc hal (by decide)).trans ha.directories, fun fd' => ?_,
    fun j k fd' p q hj hk => ?_, (FdTable.limit_alloc hal).trans ha.limit⟩
  · show fds.owner fd' = _ ↔ _
    rw [FdTable.owner_alloc hal]
    by_cases hfd : fd' = fd
    · subst hfd
      simp only [if_true, true_iff]
      exact ⟨i, param, by simp [goto]⟩
    · rw [if_neg hfd, ha.files fd']
      constructor
      · rintro ⟨j, q, hj⟩
        have hji : j ≠ i := by
          rintro rfl
          exact hi _ _ hj
        exact ⟨j, q, by simp [goto, hji, hj]⟩
      · rintro ⟨j, q, hj⟩
        by_cases hji : j = i
        · subst hji
          simp [goto, Ne.symm hfd] at hj
        · exact ⟨j, q, by simpa [goto, hji] using hj⟩
  · by_cases hji : j = i <;> by_cases hki : k = i
    · rw [hji, hki]
    · subst hji
      simp only [goto, Function.update_self, PlaylistPc.close.injEq] at hj
      obtain ⟨rfl, -⟩ := hj
      exact absurd (by simpa [goto, hki] using hk) (hfree k q)
    · subst hki
      simp only [goto, Function.update_self, PlaylistPc.close.injEq] at hk
      obtain ⟨rfl, -⟩ := hk
      exact absurd (by simpa [goto, hji] using hj) (hfree j p)
    · exact ha.unique j k fd' p q (by simpa [goto, hji] using hj) (by simpa [goto, hki] using hk)

/-- 持ち主が file を閉じる。 -/
theorem Accounts.closed (ha : Accounts base size s) {i : ι} {fd : Nat} {param : M3u8Param}
    (hpc : s.pc i = .close fd param) :
    Accounts base size ({ s with host := s.host.close fd }.goto i (.returned (some param))) := by
  have hown : s.host.fds.owner fd = some .playlist := (ha.files fd).mpr ⟨i, param, hpc⟩
  refine ⟨(count_directory_close hown (by decide)).trans ha.directories, fun fd' => ?_,
    fun j k fd' p q hj hk => ?_, FdTable.limit_close.trans ha.limit⟩
  · show (s.host.fds.close fd).owner fd' = _ ↔ _
    rw [FdTable.owner_close]
    by_cases hfd : fd' = fd
    · subst hfd
      simp only [if_true, reduceCtorEq, false_iff, not_exists]
      intro j q hj
      by_cases hji : j = i
      · subst hji
        simp [goto] at hj
      · exact hji (ha.unique j i fd' q param (by simpa [goto, hji] using hj) hpc)
    · rw [if_neg hfd, ha.files fd']
      constructor
      · rintro ⟨j, q, hj⟩
        have hji : j ≠ i := by
          rintro rfl
          rw [hpc] at hj
          exact hfd (PlaylistPc.close.inj hj).1.symm
        exact ⟨j, q, by simp [goto, hji, hj]⟩
      · rintro ⟨j, q, hj⟩
        by_cases hji : j = i
        · subst hji
          simp [goto] at hj
        · exact ⟨j, q, by simpa [goto, hji] using hj⟩
  · have hji : j ≠ i := by
      rintro rfl
      simp [goto] at hj
    have hki : k ≠ i := by
      rintro rfl
      simp [goto] at hk
    exact ha.unique j k fd' p q (by simpa [goto, hji] using hj) (by simpa [goto, hki] using hk)

/-- どの一歩も、descriptor の勘定を保つ。 -/
theorem Accounts.step (ha : Accounts base size s) (h : FdStep s s') : Accounts base size s' := by
  cases h with
  | still i p t hi hp => exact ha.still t hi hp
  | found i param fd fds hi hal => exact ha.found param hi hal
  | opened i param fd fds t hi hal => exact ha.opened param t hi hal
  | closed i fd param hpc => exact ha.closed hpc
  | openOther fd fds hal =>
    exact ⟨(count_directory_alloc hal (by decide)).trans ha.directories,
      fun fd' => (owner_playlist_alloc hal (by decide) fd').trans (ha.files fd'), ha.unique,
      (FdTable.limit_alloc hal).trans ha.limit⟩
  | closeOther fd hown =>
    exact ⟨(count_directory_close hown (by decide)).trans ha.directories,
      fun fd' => (owner_playlist_close hown (by decide) fd').trans (ha.files fd'), ha.unique,
      FdTable.limit_close.trans ha.limit⟩
  | full => exact ha

/-- 初めに file が一つも開いていなければ、どの run の後でも勘定が合う。 -/
theorem Accounts.run {h : Host} (hstart : ∀ fd, h.fds.owner fd ≠ some .playlist)
    {as : List (PlaylistAct ι)} (hrun : Infra.run Calling.step (start ι h) as = some s) :
    Accounts (h.fds.count isDirectory) h.fds.limit s := by
  refine run_invariant (I := Accounts (h.fds.count isDirectory) h.fds.limit)
    (fun s a s' _ hs ha => ha.step (fdStep_of_step hs)) (Along.trivial _ as) hrun
    ⟨rfl, fun fd => ?_, fun i j fd p q hi => ?_, rfl⟩
  · simp [start, hstart]
  · cases hi

theorem FdStep.found_le (h : FdStep s s') : s.found ≤ s'.found := by
  cases h with
  | found => exact Nat.le_succ _
  | _ => exact Nat.le_refl _

theorem found_le_of_run {as : List (PlaylistAct ι)} (hrun : Infra.run Calling.step s as = some s') :
    s.found ≤ s'.found :=
  run_invariant (I := fun r => s.found ≤ r.found)
    (fun _ _ _ _ hs hle => hle.trans (fdStep_of_step hs).found_le) (Along.trivial _ as) hrun
    (Nat.le_refl _)

/-- 表が directory で埋まっていれば、`open` は失敗する。 -/
theorem openCreat_fails {i : ι} {now : Int} (hfull : s.host.fds.free = 0)
    (h : s.step (.openCreat i now) = some s') : s'.pc i = .returned none := by
  cases hpc : s.pc i with
  | openCreat param =>
    have hnone : s.host.fds.alloc .playlist = none := FdTable.alloc_eq_none_iff.mpr hfull
    simp only [step, hpc, Host.openCreat, hnone] at h
    cases h
    simp [goto]
  | _ => simp [step, hpc] at h

/--
**入り混じった呼び出しでも、`opendir` が開いた descriptor は一つも閉じられず、file の descriptor は必ず閉じられる。**

どの thread がどの順に進み、ほかの所が何を開いて閉じても、残っている directory は、初めからのものと成功した `opendir` の
数だけある。従って成功する `opendir` の数には上限があり、それに届いた後は、どの thread の `create_m3u8` も二度と成功しない。
-/
theorem directories_pile_up (h : Host) (hstart : ∀ fd, h.fds.owner fd ≠ some .playlist)
    {as bs : List (PlaylistAct ι)} (hrun : Infra.run Calling.step (start ι h) as = some s)
    (hrun' : Infra.run Calling.step s bs = some s') :
    s.host.fds.count isDirectory = h.fds.count isDirectory + s.found ∧
      h.fds.count isDirectory + s.found ≤ h.fds.limit ∧
      (∀ fd, s.host.fds.owner fd = some .playlist ↔ ∃ i param, s.pc i = .close fd param) ∧
      (h.fds.count isDirectory + s.found = h.fds.limit →
        ∀ i now r, s'.step (.openCreat i now) = some r → r.pc i = .returned none) := by
  have ha := Accounts.run hstart hrun
  have ha' := Accounts.run hstart ((run_append_eq_some _).mpr ⟨s, hrun, hrun'⟩)
  have hle := FdTable.count_add_free_le isDirectory s.host.fds
  rw [ha.directories, ha.limit] at hle
  refine ⟨ha.directories, by omega, ha.files, fun hfull i now r hr => openCreat_fails ?_ hr⟩
  have hle' := FdTable.count_add_free_le isDirectory s'.host.fds
  have hmono := found_le_of_run hrun'
  rw [ha'.directories, ha'.limit] at hle'
  omega

end Calling

/-- 空きが二つの、`/rec` だけのある host。 -/
def recHost : Host := ⟨recTree, ⟨[none, none]⟩⟩

/-- 二つの thread が、どちらも directory を見つけたところまで。 -/
def twoCalls : List (PlaylistAct Bool) :=
  [.call false ⟨ascii "a", ascii "/rec/", []⟩, .call true ⟨ascii "b", ascii "/rec/", []⟩,
    .opendir false, .opendir true]

theorem directories_pile_up_twoCalls :
    ∃ s, Infra.run Calling.step (Calling.start Bool recHost) twoCalls = some s ∧ s.found = 2 ∧
      ∀ i now r, s.step (.openCreat i now) = some r → r.pc i = .returned none := by
  have hstart : ∀ fd, recHost.fds.owner fd ≠ some .playlist := by
    intro fd
    match fd with
    | 0 => decide
    | 1 => decide
    | fd + 2 => simp [FdTable.owner, recHost]
  have hsome : (Infra.run Calling.step (Calling.start Bool recHost) twoCalls).isSome := by
    decide +kernel
  have hcount : (Infra.run Calling.step (Calling.start Bool recHost) twoCalls).map Calling.found =
      some 2 := by decide +kernel
  obtain ⟨s, hrun⟩ := Option.isSome_iff_exists.mp hsome
  have hfound : s.found = 2 := by simpa [hrun] using hcount
  have hnil : Infra.run Calling.step s [] = some s := rfl
  have hfull : recHost.fds.count Calling.isDirectory + s.found = recHost.fds.limit := by
    rw [hfound]
    decide
  exact ⟨s, hrun, hfound, (Calling.directories_pile_up recHost hstart hrun hnil).2.2.2 hfull⟩

end RecordServer.App
