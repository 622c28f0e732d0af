import RecordServer.Infra.Shell
import Mathlib.Data.List.TakeWhile

/-!
# 録画の命令（`spawn_process`・`re_create_process` の子の側）

子は `snprintf` で 1024 byte の `cmd` に命令を組み、`sh -c` に渡す。
`src_url` と playlist の path は引用されずに埋め込まれるので、shell がもう一度字句に分ける。

* `spawnCommand` / `reCreateCommand` — `cmd` の中身
* `ffmpegArgv` — 意図した引数の列
* `launches_exactly_iff` — どちらの命令も意図した引数のまま一つの命令に読まれるのは、
  二つの文字列が `PlainWord` で、命令が `cmd` に収まるときに限る
-/

namespace RecordServer.App

open Infra Infra.Shell

/-- 書式の `%s` に引数を順に埋める。 -/
def sprintf : Bytes → List Bytes → Bytes
  | 37 :: 115 :: fmt, a :: args => a ++ sprintf fmt args
  | b :: fmt, args => b :: sprintf fmt args
  | [], _ => []

/-- `snprintf`。終端の NUL を除いて `size - 1` byte までしか書かない。 -/
def snprintf (size : Nat) (fmt : Bytes) (args : List Bytes) : Bytes :=
  (sprintf fmt args).take (size - 1)

def spawnFormat : Bytes :=
  ascii "/home/develop/tools/tmp/ffmpeg_3.3.3/bin/ffmpeg -i %s -vcodec copy -acodec copy -map 0 -f hls -hls_list_size 0 -hls_wrap 0 -hls_time 3 %s"

/-- `-f hls` の後の空白が二つある。 -/
def reCreateFormat : Bytes :=
  ascii "/home/develop/tools/tmp/ffmpeg_3.3.3/bin/ffmpeg -i %s -vcodec copy -acodec copy -map 0 -f hls  -hls_list_size 0 -hls_wrap 0 -hls_time 3 %s"

/-- `spawn_process` の `cmd`。path は `create_m3u8` が決めた `file_path` である。 -/
def spawnCommand (srcUrl filePath : Bytes) : Bytes :=
  snprintf 1024 spawnFormat [cstr srcUrl, cstr filePath]

/-- `re_create_process` の `cmd`。path は記録の `m3u8_path` である。 -/
def reCreateCommand (srcUrl m3u8Path : Bytes) : Bytes :=
  snprintf 1024 reCreateFormat [cstr srcUrl, cstr m3u8Path]

/-- `-i` までの引数。 -/
def ffmpegHead : List Bytes :=
  [ascii "/home/develop/tools/tmp/ffmpeg_3.3.3/bin/ffmpeg", ascii "-i"]

/-- 固定の option。 -/
def ffmpegOptions : List Bytes :=
  ["-vcodec", "copy", "-acodec", "copy", "-map", "0", "-f", "hls", "-hls_list_size", "0",
    "-hls_wrap", "0", "-hls_time", "3"].map ascii

/-- 意図した引数の列。 -/
def ffmpegArgv (srcUrl path : Bytes) : List Bytes :=
  ffmpegHead ++ [srcUrl] ++ ffmpegOptions ++ [path]

/-- 命令が、意図した引数だけからなる一つの単純な命令に読まれる。 -/
def LaunchesExactly (cmd srcUrl path : Bytes) : Prop :=
  tokens cmd = some ((ffmpegArgv srcUrl path).map .word)

instance (cmd srcUrl path : Bytes) : Decidable (LaunchesExactly cmd srcUrl path) :=
  inferInstanceAs (Decidable (_ = _))

/-! ## 書式の形

二つの書式は、空白で終わる固定の部分と二つの `%s` からなる。
-/

/-- 書式 `pre %s ␣ mid %s`。固定の部分は意図した引数に読まれる。 -/
structure Layout (fmt pre mid : Bytes) : Prop where
  fill : ∀ a b, sprintf fmt [a, b] = pre ++ (a ++ (32 :: mid ++ b))
  readPre : run Shell.step ⟨.between, []⟩ pre = some ⟨.between, ffmpegHead.map .word⟩
  readMid : run Shell.step ⟨.between, []⟩ mid = some ⟨.between, ffmpegOptions.map .word⟩
  ink : inkLength pre + inkLength mid =
    wordLength (ffmpegHead.map .word) + wordLength (ffmpegOptions.map .word)

def commandPre : Bytes := ascii "/home/develop/tools/tmp/ffmpeg_3.3.3/bin/ffmpeg -i "

def spawnMid : Bytes :=
  ascii "-vcodec copy -acodec copy -map 0 -f hls -hls_list_size 0 -hls_wrap 0 -hls_time 3 "

def reCreateMid : Bytes :=
  ascii "-vcodec copy -acodec copy -map 0 -f hls  -hls_list_size 0 -hls_wrap 0 -hls_time 3 "

/-- `%` を含まない部分はそのまま写る。 -/
theorem sprintf_literal {lit : Bytes} (h : 37 ∉ lit) (fmt : Bytes) (args : List Bytes) :
    sprintf (lit ++ fmt) args = lit ++ sprintf fmt args := by
  induction lit with
  | nil => rfl
  | cons b lit ih =>
    rw [List.cons_append, sprintf, ih fun hm => h (List.mem_cons_of_mem _ hm), List.cons_append]
    rintro a as fmt' args' rfl
    exact absurd List.mem_cons_self h

/-- 固定の部分に `%` の無い書式に、二つの引数を埋める。 -/
theorem sprintf_two {pre mid : Bytes} (hpre : 37 ∉ pre) (hmid : 37 ∉ mid) (a b : Bytes) :
    sprintf (pre ++ (37 :: 115 :: (mid ++ [37, 115]))) [a, b] = pre ++ (a ++ (mid ++ b)) := by
  rw [sprintf_literal hpre, sprintf, sprintf_literal hmid]
  simp [sprintf]

theorem spawn_layout : Layout spawnFormat commandPre spawnMid where
  fill a b := by
    have hfmt : spawnFormat = commandPre ++ (37 :: 115 :: (32 :: spawnMid ++ [37, 115])) := by
      decide +kernel
    rw [hfmt]
    exact sprintf_two (by decide +kernel) (by decide +kernel) a b
  readPre := by decide +kernel
  readMid := by decide +kernel
  ink := by decide +kernel

theorem reCreate_layout : Layout reCreateFormat commandPre reCreateMid where
  fill a b := by
    have hfmt : reCreateFormat = commandPre ++ (37 :: 115 :: (32 :: reCreateMid ++ [37, 115])) := by
      decide +kernel
    rw [hfmt]
    exact sprintf_two (by decide +kernel) (by decide +kernel) a b
  readPre := by decide +kernel
  readMid := by decide +kernel
  ink := by decide +kernel

section Layout

variable {fmt pre mid srcUrl path : Bytes}

/-- `PlainWord` を埋めた命令は、切られなければ意図した引数に読まれる。 -/
theorem Layout.launches (hl : Layout fmt pre mid) (hu : PlainWord srcUrl) (hp : PlainWord path) :
    LaunchesExactly (sprintf fmt [srcUrl, path]) srcUrl path := by
  have hblank : Shell.step ⟨.word srcUrl, ffmpegHead.map .word⟩ 32 =
      some ⟨.between, ffmpegHead.map .word ++ [.word srcUrl]⟩ := rfl
  have hrun : run Shell.step ⟨.between, []⟩ (sprintf fmt [srcUrl, path]) =
      some ⟨.word path, ffmpegHead.map .word ++ [.word srcUrl] ++ ffmpegOptions.map .word⟩ := by
    rw [hl.fill, run_append_eq_some]
    refine ⟨_, hl.readPre, ?_⟩
    rw [run_append_eq_some]
    refine ⟨_, run_plainWord hu, ?_⟩
    rw [List.cons_append, run_cons_eq_some]
    refine ⟨_, hblank, ?_⟩
    rw [run_append_eq_some]
    have hmid := run_after (p := ffmpegHead.map .word ++ [.word srcUrl]) hl.readMid
    exact ⟨_, hmid, run_plainWord hp⟩
  unfold LaunchesExactly tokens
  rw [hrun]
  simp [Shell.State.flush, ffmpegArgv]

theorem wordLength_argv (srcUrl path : Bytes) :
    wordLength ((ffmpegArgv srcUrl path).map .word) =
      wordLength (ffmpegHead.map .word) + srcUrl.length + wordLength (ffmpegOptions.map .word) +
        path.length := by
  simp [ffmpegArgv, wordLength_cons_word]
  omega

theorem inkLength_of_plain {w : Bytes} (hw : PlainWord w) : inkLength w = w.length := by
  unfold inkLength
  rw [List.filter_eq_self.mpr]
  intro b hb
  simpa using (isPlain_iff.mp (hw.2.1 b hb)).1

/--
切られた命令は意図した引数に読まれない。
path の最後の byte が落ち、語の長さの和が足りなくなるからである。
-/
theorem Layout.not_launches_of_truncated (hl : Layout fmt pre mid) (hu : PlainWord srcUrl)
    (hp : PlainWord path) {n : Nat} (hn : n < (sprintf fmt [srcUrl, path]).length) :
    ¬ LaunchesExactly ((sprintf fmt [srcUrl, path]).take n) srcUrl path := by
  intro h
  have hle := wordLength_le h
  obtain ⟨path', b, rfl⟩ : ∃ path' b, path = path' ++ [b] :=
    ⟨_, _, (List.dropLast_append_getLast hp.1).symm⟩
  have hb : inkLength [b] = 1 :=
    inkLength_singleton (isPlain_iff.mp (hp.2.1 b (by simp))).1
  have hpath := inkLength_of_plain hp
  have hurl := inkLength_of_plain hu
  have hink := hl.ink
  have hblank : inkLength (32 :: mid) = inkLength mid := rfl
  rw [wordLength_argv] at hle
  rw [hl.fill] at hle hn
  set body := pre ++ (srcUrl ++ (32 :: mid ++ path')) with hbody
  have hsplit : pre ++ (srcUrl ++ (32 :: mid ++ (path' ++ [b]))) = body ++ [b] := by simp [hbody]
  rw [hsplit] at hle hn
  rw [List.take_append_of_le_length (by simp at hn; omega)] at hle
  have hprefix : inkLength (body.take n) ≤ inkLength body :=
    List.Sublist.length_le ((List.take_sublist n body).filter _)
  have hsum : inkLength body =
      inkLength pre + (inkLength srcUrl + (inkLength mid + inkLength path')) := by
    rw [hbody, inkLength_append, inkLength_append, inkLength_append, hblank]
  simp only [inkLength_append, List.length_append, List.length_singleton] at hpath hle
  omega

/-- 一つの書式について、意図した引数に読まれる条件。 -/
theorem Layout.launches_iff (hl : Layout fmt pre mid) (size : Nat) :
    LaunchesExactly (snprintf size fmt [srcUrl, path]) srcUrl path ↔
      PlainWord srcUrl ∧ PlainWord path ∧
        pre.length + srcUrl.length + (mid.length + 1) + path.length ≤ size - 1 := by
  have hlen : (sprintf fmt [srcUrl, path]).length =
      pre.length + srcUrl.length + (mid.length + 1) + path.length := by
    rw [hl.fill]
    simp
    omega
  unfold snprintf
  rw [← hlen]
  constructor
  · intro h
    have hu : PlainWord srcUrl := word_mem_plain h (by simp [ffmpegArgv])
    have hp : PlainWord path := word_mem_plain h (by simp [ffmpegArgv])
    refine ⟨hu, hp, ?_⟩
    by_contra hlt
    exact hl.not_launches_of_truncated hu hp (by omega) h
  · rintro ⟨hu, hp, hle⟩
    rw [List.take_of_length_le hle]
    exact hl.launches hu hp

end Layout

/--
**命令が意図した引数のまま shell に読まれる条件。**

`spawn_process` の命令も `re_create_process` の命令も、`src_url` と path をそれぞれ変えずに
一語とする一つの命令に読まれるのは、どちらも `PlainWord` で、長さの和が 889 byte 以下のときである。
-/
theorem launches_exactly_iff (srcUrl path : Bytes) (hurl : 0 ∉ srcUrl) (hpath : 0 ∉ path) :
    (LaunchesExactly (spawnCommand srcUrl path) srcUrl path ∧
      LaunchesExactly (reCreateCommand srcUrl path) srcUrl path) ↔
      PlainWord srcUrl ∧ PlainWord path ∧ srcUrl.length + path.length ≤ 889 := by
  have hpre : commandPre.length = 51 := by decide +kernel
  have hspawn : spawnMid.length = 81 := by decide +kernel
  have hre : reCreateMid.length = 82 := by decide +kernel
  unfold spawnCommand reCreateCommand
  rw [cstr_eq_self hurl, cstr_eq_self hpath, spawn_layout.launches_iff,
    reCreate_layout.launches_iff, hpre, hspawn, hre]
  constructor
  · rintro ⟨-, hu, hp, hle⟩
    exact ⟨hu, hp, by omega⟩
  · rintro ⟨hu, hp, hle⟩
    exact ⟨⟨hu, hp, by omega⟩, hu, hp, by omega⟩

/-- 素直な URL と path なら録画は意図したとおりに始まる。 -/
theorem launches_exactly_plain_rtmp :
    LaunchesExactly (spawnCommand (ascii "rtmp://h/live/a") (ascii "/data/a_1.m3u8"))
        (ascii "rtmp://h/live/a") (ascii "/data/a_1.m3u8") ∧
      LaunchesExactly (reCreateCommand (ascii "rtmp://h/live/a") (ascii "/data/a_1.m3u8"))
        (ascii "rtmp://h/live/a") (ascii "/data/a_1.m3u8") :=
  (launches_exactly_iff (ascii "rtmp://h/live/a") (ascii "/data/a_1.m3u8") (by decide)
    (by decide)).mpr (by decide +kernel)

/-- query の `&` は命令を二つに切る。 -/
theorem query_url_splits_command :
    ¬ (LaunchesExactly (spawnCommand (ascii "http://h/a=1&b=2") (ascii "/data/a_1.m3u8"))
        (ascii "http://h/a=1&b=2") (ascii "/data/a_1.m3u8") ∧
      LaunchesExactly (reCreateCommand (ascii "http://h/a=1&b=2") (ascii "/data/a_1.m3u8"))
        (ascii "http://h/a=1&b=2") (ascii "/data/a_1.m3u8")) := by
  decide +kernel

end RecordServer.App
