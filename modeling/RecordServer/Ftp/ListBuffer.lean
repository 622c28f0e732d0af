import RecordServer.Ftp.FtpClient
import RecordServer.Infra.Buffer
import Mathlib.Algebra.Group.Nat.Defs
import Mathlib.Algebra.Group.Int.Defs

/-!
# `ftp_list` の受け取り loop

`FtpClient.listLoop` は一覧を byte 列と大きさで数えた。ここでは `malloc` した領域そのものに写す。
`ssize_t` の計算は `2 ^ 64` を法とする。

* `malloc` — 利用者の番地空間より大きい領域は取れない
* `listStep` — 一つの塊を `re_buf` の後ろに足す。足りなければ一度だけ倍の領域に移す
* `listRun` — loop。途中の `memcpy` を全部記録する
-/

namespace RecordServer.Ftp

open Infra

/-- 利用者の番地空間の大きさ。 -/
def addressSpace : Nat := 2 ^ 47

/-- `malloc(n)`。`fresh` は取れた領域の中身で、`none` なら `NULL` を返す。 -/
def malloc (fresh : Option (Nat → UInt8)) (n : Int) : Option Buffer :=
  if n % 2 ^ 64 ≤ addressSpace then fresh.map (Buffer.mk (n % 2 ^ 64).toNat) else none

/-- 止まり方。 -/
inductive Fault where
  /-- `malloc` が返した `NULL` へ写した -/
  | null
  /-- 領域の外を読み書きした -/
  | outside
deriving DecidableEq, Repr

/-- `memcpy` の前の変数。 -/
structure Memcpy where
  totalLen : Int
  len : Int
  bufLen : Int
deriving DecidableEq, Repr

/-- loop の変数。`re_buf` の `none` は `NULL` である。 -/
structure ListBuf where
  reBuf : Option Buffer
  bufLen : Int
  totalLen : Int

/-- 届いた塊。`fresh` は、領域を移すときの `malloc` が取れたかどうかとその中身である。 -/
structure ListChunk where
  bytes : Bytes
  fresh : Option (Nat → UInt8)
  received : 1 ≤ bytes.length ∧ bytes.length ≤ 512

/-- `memcpy(dest + at, w, w.length)`。 -/
def memcpy (dest : Option Buffer) (start : Int) (w : Bytes) : Except Fault Buffer :=
  match dest with
  | none => .error .null
  | some b =>
    match b.write start.toNat w with
    | none => .error .outside
    | some b => .ok b

/-- `total_len+len > buf_len` のときの、倍の領域への移し替え。 -/
def growBuf (s : ListBuf) (fresh : Option (Nat → UInt8)) : Int × Except Fault Buffer :=
  let bufLen := Int.bmod (s.bufLen * 2) (2 ^ 64)
  (bufLen,
    match s.reBuf with
    | none => .error .null
    | some b =>
      if s.totalLen ≤ b.size then memcpy (malloc fresh bufLen) 0 (b.contents s.totalLen.toNat)
      else .error .outside)

/-- 塊を `re_buf` の後ろに写す。 -/
def appendChunk (reBuf : Option Buffer) (bufLen totalLen : Int) (w : Bytes) :
    Except Fault ListBuf :=
  (memcpy reBuf totalLen w).map fun b =>
    ⟨some b, bufLen, Int.bmod (totalLen + w.length) (2 ^ 64)⟩

/-- 一つの塊を足す。 -/
def listStep (s : ListBuf) (c : ListChunk) : List Memcpy × Except Fault ListBuf :=
  let len : Int := c.bytes.length
  if Int.bmod (s.totalLen + len) (2 ^ 64) > s.bufLen then
    let r := growBuf s c.fresh
    match r.2 with
    | .error f => ([⟨s.totalLen, len, r.1⟩], .error f)
    | .ok b =>
      ([⟨s.totalLen, len, r.1⟩, ⟨s.totalLen, len, r.1⟩],
        appendChunk (some b) r.1 s.totalLen c.bytes)
  else ([⟨s.totalLen, len, s.bufLen⟩], appendChunk s.reBuf s.bufLen s.totalLen c.bytes)

/-- loop。 -/
def listRun : ListBuf → List ListChunk → List Memcpy × Except Fault ListBuf
  | s, [] => ([], .ok s)
  | s, c :: cs =>
    let r := listStep s c
    match r.2 with
    | .error f => (r.1, .error f)
    | .ok s =>
      let rest := listRun s cs
      (r.1 ++ rest.1, rest.2)

/-- loop に入る前。 -/
def listStart (fresh : Option (Nat → UInt8)) : ListBuf := ⟨malloc fresh 512, 512, 0⟩

end RecordServer.Ftp
