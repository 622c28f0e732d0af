import RecordServer.Infra.Paths
import RecordServer.Strings.PString

/-!
# 実行 file の directory（`global_conf.cpp`）

`get_cur_path` は `argv[0]` の最後の `/` を探し、その前までを `o_path` に写す。文字列の中の位置は先頭からの
添字で表し、`NULL` は `none` である。`str` の番地は `addr` とする。
-/

namespace RecordServer.Main

open Infra Strings

/-- `strchr(str + pos, c)`。見つかった位置を返す。 -/
def strchr (str : Bytes) (c : UInt8) (pos : Nat) : Option Nat :=
  ((str.drop pos).findIdx? (· = c)).map (pos + ·)

/-- 最後の `/` を探す loop。外側の `none` は燃料切れである。 -/
def lastSlashLoop (str : Bytes) : Nat → Nat → Option Nat → Option (Option Nat)
  | 0, _, _ => none
  | fuel + 1, pos, lastSlash =>
    match strchr str slash pos with
    | none => some lastSlash
    | some q => if q + 1 < str.length then lastSlashLoop str fuel (q + 1) (some q) else some (some q)

/-- `last_slash - str` を `s32` に詰めた値。 -/
def pathLength (addr : Nat) (lastSlash : Option Nat) : Int :=
  Int.bmod
    ((match lastSlash with
      | some k => (addr + k : Int)
      | none => 0) - addr) (2 ^ 32)

/-- `get_cur_path` の結果。 -/
inductive CurPath where
  /-- `path too long` と書いて `exit(0)` する -/
  | exits
  /-- `rc_strncpy` に長さ `len` を渡した後の `o_path` -/
  | copied (len : Int) (oPath : Dest)

/-- `get_cur_path(str, o_path, i_l)`。`str` は最初の NUL で終わる文字列である。 -/
def getCurPath (fuel addr : Nat) (str : Bytes) (oPath : Dest) (il : Int) : Option CurPath :=
  (lastSlashLoop (cstr str) fuel 0 none).map fun lastSlash =>
    let len := pathLength addr lastSlash
    if len > il - 1 then .exits else .copied len (rcStrncpy oPath il str len)

end RecordServer.Main
