import RecordServer.App.Playlist
import RecordServer.Infra.DirGraph
import Mathlib.Data.List.GetD

/-!
# `multi_mkdir` の呼び出し

`multi_mkdir` は 512 byte の `str` を `/` ごとに切っては戻し、切った path を `access` と `mkdir` に渡す。

* `FileSystem` — その二つの関数
* `FileSystem.multiMkdir` — 後の状態と、`mkdir` を呼んだ記録
* `multiMkdir_eq_foldl` — `str` は戻り、渡るのは path を `/` で切ったものを順に並べたものである
-/

namespace RecordServer.App

open Infra

/-- `access(path, 0) == 0` と、`mkdir` が成功したか、その後の状態。 -/
structure FileSystem (σ : Type) where
  access : σ → Bytes → Bool
  mkdir : σ → Bytes → Bool × σ

/-- `mkdir` を呼んだ記録。 -/
structure MkdirCall where
  path : Bytes
  ok : Bool
deriving DecidableEq, Repr

namespace FileSystem

variable {σ : Type} {io : FileSystem σ}

/-- `str` の指すものが無ければ作る。 -/
def ensure (io : FileSystem σ) (r : σ × List MkdirCall) (str : Bytes) : σ × List MkdirCall :=
  if io.access r.1 (cstr str) then r
  else ((io.mkdir r.1 (cstr str)).2, r.2 ++ [⟨cstr str, (io.mkdir r.1 (cstr str)).1⟩])

/-- 添字 `i` からの `n` 回。 -/
def multiMkdirLoop (io : FileSystem σ) : Nat → Nat → Bytes → σ × List MkdirCall →
    Bytes × σ × List MkdirCall
  | 0, _, str, r => (str, r)
  | n + 1, i, str, r =>
    if str.getD i 0 = slash then
      let cut := str.set i 0
      multiMkdirLoop io n (i + 1) (cut.set i slash) (io.ensure r cut)
    else multiMkdirLoop io n (i + 1) str r

/-- `strncpy(str, dir, 512)` の後の `str`。 -/
def strBuffer (dir : Bytes) : Bytes := (cstr dir ++ List.replicate 512 0).take 512

/-- `multi_mkdir` -/
def multiMkdir (io : FileSystem σ) (s : σ) (dir : Bytes) : σ × List MkdirCall :=
  let len := (cstr (strBuffer dir)).length
  let (str, r) := multiMkdirLoop io len 0 (strBuffer dir) (s, [])
  if 0 < len then io.ensure r str else r

end FileSystem

/-- 途中の path と、path の全体。 -/
def prefixes (path : Bytes) : List Bytes := cuts path ++ [path]

/-- directory のつながりの上の `access` と `mkdir`。 -/
def dirsIo : FileSystem Dirs := ⟨Dirs.access, Dirs.mkdir⟩

/-- 木の上の `access` と `mkdir`。 -/
def treeIo : FileSystem Tree where
  access t s := decide (t.Access s)
  mkdir t s := (decide ((t.mkdir s).node (resolve s) ≠ t.node (resolve s)), t.mkdir s)

variable {σ : Type} {io : FileSystem σ} {dir : Bytes}

theorem cstr_append_zeros {s : Bytes} (h : 0 ∉ s) (n : Nat) (hn : 0 < n) (rest : Bytes) :
    cstr (s ++ (List.replicate n 0 ++ rest)) = s := by
  obtain ⟨n, rfl⟩ : ∃ m, n = m + 1 := ⟨n - 1, by omega⟩
  have hall : ∀ b ∈ s, (decide (b ≠ 0)) = true := fun b hb => by
    simpa using fun h0 : b = 0 => h (h0 ▸ hb)
  rw [cstr, List.takeWhile_append_of_pos hall, List.replicate_succ, List.cons_append,
    List.takeWhile_cons_of_neg (by simp), List.append_nil]

theorem strBuffer_eq (h : 0 ∉ dir) (hlen : dir.length < 512) :
    FileSystem.strBuffer dir = dir ++ (List.replicate (512 - dir.length) 0 ++ []) := by
  rw [FileSystem.strBuffer, cstr_eq_self h, List.take_append, List.take_of_length_le (by omega),
    List.take_replicate, Nat.min_eq_left (by omega), List.append_nil]

theorem ensure_congr {str str' : Bytes} (h : cstr str = cstr str') (r : σ × List MkdirCall) :
    io.ensure r str = io.ensure r str' := by
  rw [FileSystem.ensure, FileSystem.ensure, h]

/-- 切ったところまでが渡り、戻した後の `str` は元のままである。 -/
theorem multiMkdirLoop_eq (io : FileSystem σ) {pre s : Bytes} (hpre : 0 ∉ pre) (hs : 0 ∉ s)
    (zs : Bytes) (r : σ × List MkdirCall) :
    io.multiMkdirLoop s.length pre.length (pre ++ (s ++ zs)) r =
      (pre ++ (s ++ zs), (cutsFrom pre s).foldl io.ensure r) := by
  induction s generalizing pre r with
  | nil => rfl
  | cons b s ih =>
    obtain ⟨hb, hs⟩ := not_or.mp (List.mem_cons.not.mp hs)
    have hget : (pre ++ (b :: s ++ zs)).getD pre.length 0 = b := by
      simp
    have hnext : pre ++ (b :: s ++ zs) = (pre ++ [b]) ++ (s ++ zs) := by simp
    have hpre' : 0 ∉ pre ++ [b] := by simp [hpre, hb]
    have hih := fun r => ih hpre' hs r
    rw [List.length_append, List.length_singleton] at hih
    rw [List.length_cons, FileSystem.multiMkdirLoop, hget, cutsFrom]
    split
    · rename_i heq
      have hcut : (pre ++ (b :: s ++ zs)).set pre.length 0 = pre ++ 0 :: (s ++ zs) := by
        simp
      have hback : (pre ++ 0 :: (s ++ zs)).set pre.length slash = pre ++ (b :: s ++ zs) := by
        simp [heq]
      have hpath : cstr (pre ++ 0 :: (s ++ zs)) = cstr pre := by
        rw [cstr_eq_self hpre]
        exact cstr_append_zeros hpre 1 Nat.one_pos _
      show io.multiMkdirLoop s.length (pre.length + 1) (List.set (List.set _ _ _) _ _)
        (io.ensure r (List.set _ _ _)) = _
      rw [hcut, hback, ensure_congr hpath, hnext, hih, List.foldl_cons]
    · rw [hnext, hih]

/-- path を `/` で切ったものを、根から順に渡す。 -/
theorem multiMkdir_eq_foldl (h : 0 ∉ dir) (hlen : dir.length < 512) (hne : dir ≠ []) (s : σ) :
    io.multiMkdir s dir = (prefixes dir).foldl io.ensure (s, []) := by
  have hstr : cstr (dir ++ (List.replicate (512 - dir.length) 0 ++ [])) = dir :=
    cstr_append_zeros h _ (by omega) []
  have hloop := multiMkdirLoop_eq io (List.not_mem_nil (a := 0)) h
    (List.replicate (512 - dir.length) 0 ++ []) (s, [])
  rw [List.nil_append, List.length_nil] at hloop
  rw [FileSystem.multiMkdir, strBuffer_eq h hlen, hstr, hloop, prefixes, List.foldl_append]
  show (if 0 < dir.length then _ else _) = _
  rw [if_pos (List.length_pos_iff.mpr hne)]
  exact ensure_congr (hstr.trans (cstr_eq_self h).symm) _

end RecordServer.App
