import RecordServer.Ftp.FtpClient

/-!
# data 用の接続の番地

`create_datasock` は待ち受ける番地と port を PORT 命令に書き、`ftp_pasv_connect` は PASV への応答から番地と
port を読む。`sockaddr_in` の field は network byte order で置かれ、little endian の CPU が整数として読む。

* `SockaddrIn.ofNetwork` — 番地と port が置かれた `sockaddr_in`
* `portCommand` — `create_datasock` の `cmd`
* `pasvTarget` — `ftp_pasv_connect` が `socket_connect` に渡す引数
-/

namespace RecordServer.Ftp

open Infra

/-! ## 置き方 -/

/-- little endian に並んだ byte 列の値。 -/
def littleEndian : Bytes → Nat
  | [] => 0
  | b :: bs => b.toNat + 256 * littleEndian bs

/-- `sin_port` と `sin_addr.s_addr` の値。 -/
structure SockaddrIn where
  sinPort : Nat
  sAddr : Nat

/-- 番地 `a.b.c.d` と `port` を、上の桁の byte から順に置いたもの。 -/
def SockaddrIn.ofNetwork (a b c d : UInt8) (port : UInt16) : SockaddrIn where
  sinPort := littleEndian [UInt8.ofNat (port.toNat / 256), UInt8.ofNat (port.toNat % 256)]
  sAddr := littleEndian [a, b, c, d]

/-! ## PORT 命令 -/

/-- PORT 命令に書く六つの数。 -/
def portNumbers (sAddr port : Nat) : List Nat :=
  [sAddr &&& 0x000000FF,
   (sAddr &&& 0x0000FF00) >>> 8,
   (sAddr &&& 0x00FF0000) >>> 16,
   (sAddr &&& 0xFF000000) >>> 24,
   port >>> 8, port &&& 0xff]

/-- `,` で区切った十進の数。 -/
def commaList : List Nat → Bytes
  | [] => []
  | [n] => ascii (Nat.repr n)
  | n :: ns => ascii (Nat.repr n) ++ 44 :: commaList ns

/-- `create_datasock` の `cmd`。`lsn` は待ち受ける socket、`ctrl` は制御用の socket の番地である。 -/
def portCommand (lsn ctrl : SockaddrIn) : Bytes :=
  ascii "PORT " ++ commaList (portNumbers ctrl.sAddr lsn.sinPort) ++ ascii "\r\n"

/-! ## PASV への応答 -/

/-- `%d` 一つ。読んだ数と残りを返す。 -/
def scanD (s : Bytes) : Option (Int × Bytes) :=
  match s.dropWhile isSpace with
  | 43 :: s => (unsignedD false s).map fun n => (n, s.dropWhile (IsDigit ·))
  | 45 :: s => (unsignedD true s).map fun n => (n, s.dropWhile (IsDigit ·))
  | s => (unsignedD false s).map fun n => (n, s.dropWhile (IsDigit ·))

/-- `,` で区切った `n` 個の `%d`。合わなくなったところで止まる。 -/
def scanFields : Nat → Bytes → List Int
  | 0, _ => []
  | n + 1, s =>
    match scanD s with
    | none => []
    | some (v, 44 :: s) => v :: scanFields n s
    | some (v, _) => [v]

/-- `sscanf(re_buf, "%*[^(](%d,%d,%d,%d,%d,%d)", ...)` が書く数。 -/
def pasvFields (reBuf : Bytes) : List Int :=
  let s := cstr reBuf
  if s.takeWhile (· ≠ 40) = [] then []
  else
    match s.dropWhile (· ≠ 40) with
    | 40 :: s => scanFields 6 s
    | _ => []

/-- `%d`。 -/
def printD (n : Int) : Bytes :=
  if n < 0 then 45 :: ascii (Nat.repr n.natAbs) else ascii (Nat.repr n.natAbs)

/-- `"%d.%d.%d.%d"`。 -/
def dotted (a b c d : Int) : Bytes :=
  printD a ++ 46 :: (printD b ++ 46 :: (printD c ++ 46 :: printD d))

/-- `socket_connect` に渡す host と port。`init` は初期化されない `addr` の値、`reply` は読めた応答である。 -/
def pasvTarget (init : Nat → Int) (reply : Option Bytes) : Bytes × Int :=
  let fields := (reply.map pasvFields).getD []
  let addr := fun i => fields.getD i (init i)
  (dotted (addr 0) (addr 1) (addr 2) (addr 3), Int.bmod (addr 4 * 256 + addr 5) (2 ^ 32))

end RecordServer.Ftp
