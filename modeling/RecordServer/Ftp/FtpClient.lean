import RecordServer.Infra.Decimal
import Mathlib.Tactic.Ring
import Mathlib.Data.List.Basic

/-!
# FTP の client

`ftp_client.cpp` の埋め込み。制御用の接続の相手は、状態 `σ` を持つ任意の `Peer` とする。
`recv` は一回に一つの塊を返し、どの関数もその塊の先頭の数を応答の番号とみなす。

* `sscanfD` — `sscanf(buf, "%d", &result)`
* `connectServer`、`ftpSendcmd`、`loginServer` — 命令を一つ送って塊を一つ読む
* `ftpStorfile`、`ftpRetrfile`、`ftpList` — 転送

初期化されない変数の値は引数に取る。一つはみ出す `buf[len] = 0` の書き込み先は追わない。
PASV の応答から読む番地は、繋がったかどうかだけを環境 `connect` が決める。
-/

namespace RecordServer.Ftp

open Infra

/-! ## 番号の読み取り -/

/-- `isspace`。 -/
def isSpace (b : UInt8) : Bool := b = 32 ∨ (9 ≤ b ∧ b ≤ 13)

/-- `long` で読み、`int` に詰める。 -/
def toInt (n : Int) : Int := (max (-2 ^ 63) (min n (2 ^ 63 - 1))).bmod (2 ^ 32)

/-- 符号を除いた残りの、先頭に続く数字の値。数字が一つも無ければ読めない。 -/
def unsignedD (neg : Bool) (s : Bytes) : Option Int :=
  let digits := s.takeWhile (IsDigit ·)
  if digits.isEmpty then none
  else some (toInt (if neg then -(decValue digits : Int) else decValue digits))

/-- `sscanf(buf, "%d", &result)`。読めなければ `result` は元のままである。 -/
def sscanfD (buf : Bytes) : Option Int :=
  match (cstr buf).dropWhile isSpace with
  | 43 :: s => unsignedD false s
  | 45 :: s => unsignedD true s
  | s => unsignedD false s

/-! ## 相手 -/

/--
制御用の接続の相手と、socket の振る舞い。`recv` の `none` は `-1`、`some []` は `0` である。
`connect` は、PASV への応答を受けて開く data 用の接続ができたかどうかを返す。
-/
structure Peer (σ : Type) where
  send : σ → Bytes → Bool × σ
  recv : σ → Option Bytes × σ
  connect : σ → Option Bytes → Bool × σ

section Commands

variable {σ : Type} (P : Peer σ)

/-- `recv(sock, buf, 512, 0)`。 -/
def recv512 (s : σ) : Option Bytes × σ :=
  let r := P.recv s
  (r.1.map (·.take 512), r.2)

/-- `connect_server`。`sock` は `socket_connect` の戻り値、`buf` と `result` は初期化されない変数の値。 -/
def connectServer (sock : Int) (buf : Bytes) (result : Int) (s : σ) : Int × σ :=
  if sock = -1 then (-1, s)
  else
    let r := recv512 P s
    let result := (sscanfD (r.1.getD buf)).getD result
    if result ≠ 220 then (-1, r.2) else (sock, r.2)

/-- `ftp_sendcmd_re`。`none` は `-1`、`some buf` は `0` と `re_buf` の内容である。 -/
def ftpSendcmdRe (cmd : Bytes) (s : σ) : Option Bytes × σ :=
  let w := P.send s cmd
  if w.1 then
    let r := recv512 P w.2
    match r.1 with
    | none => (none, r.2)
    | some [] => (none, r.2)
    | some (b :: buf) => (some (cstr (b :: buf)), r.2)
  else (none, w.2)

/-- 応答から決まる `ftp_sendcmd` の戻り値。数の無い応答では `0` が残る。 -/
def sendcmdResult : Option Bytes → Int
  | none => -1
  | some buf => (sscanfD buf).getD 0

/-- `ftp_sendcmd`。 -/
def ftpSendcmd (cmd : Bytes) (s : σ) : Int × σ :=
  let r := ftpSendcmdRe P cmd s
  (sendcmdResult r.1, r.2)

/-- `login_server`。 -/
def loginServer (user pwd : Bytes) (s : σ) : Int × σ :=
  let r := ftpSendcmd P (ascii "USER " ++ user ++ ascii "\r\n") s
  if r.1 = 230 then (0, r.2)
  else if r.1 = 331 then
    let r := ftpSendcmd P (ascii "PASS " ++ pwd ++ ascii "\r\n") r.2
    (if r.1 ≠ 230 then -1 else 0, r.2)
  else (-1, r.2)

/-- `ftp_type`。 -/
def ftpType (mode : Bytes) (s : σ) : Int × σ :=
  let r := ftpSendcmd P (ascii "TYPE " ++ mode ++ ascii "\r\n") s
  (if r.1 ≠ 200 then -1 else 0, r.2)

/-- `ftp_pasv_connect`。 -/
def ftpPasvConnect (s : σ) : Bool × σ :=
  let r := ftpSendcmdRe P (ascii "PASV\r\n") s
  P.connect r.2 r.1

/-- 転送の後の応答を読む。`buf` は `bzero` されているので、受け取れなければ空である。 -/
def finalReply (s : σ) : Option Int × σ :=
  let r := recv512 P s
  (sscanfD (r.1.getD []), r.2)

/-! ## 転送 -/

/-- 一度に運ぶ塊。`moved` は送るか書くかした長さの戻り値、`stop` はその後の `*stop` である。 -/
structure Piece where
  bytes : Bytes
  moved : Int
  stop : Bool
  deriving DecidableEq, Repr

/-- 転送の loop の結果。 -/
structure Moved where
  bytes : Bytes
  size : Option Nat
  completed : Bool
  deriving DecidableEq, Repr

/-- `ftp_storfile` と `ftp_retrfile` の loop。`size` は `*stor_size`、`u64` で数える。 -/
def moveLoop : List Piece → Option Nat → Moved
  | [], size => ⟨[], size, true⟩
  | p :: ps, size =>
    if p.moved ≠ p.bytes.length ∨ p.stop = true then ⟨p.bytes.take p.moved.toNat, size, false⟩
    else
      let r := moveLoop ps (size.map fun n => (n + p.bytes.length) % 2 ^ 64)
      ⟨p.bytes ++ r.bytes, r.size, r.completed⟩

/-- 送る file。`read` が返した塊を並べると、`file` の初めの部分になる。 -/
structure Upload where
  opened : Bool
  file : Bytes
  reads : List Piece
  fromFile : (reads.flatMap Piece.bytes) <+: file

/-- 受け取る file。`orderly` は、最後の `recv` が `-1` でなく `0` を返したかどうか。 -/
structure Download where
  opened : Bool
  recvs : List Piece
  orderly : Bool

/-- `ftp_storfile`。`result` は初期化されない変数の値。結果は戻り値と、送った byte 列である。 -/
def ftpStorfile (f : Upload) (d : Bytes) (size : Option Nat) (result : Int) (s : σ) :
    Int × Moved × σ :=
  if f.opened = false then (-1, ⟨[], size, false⟩, s)
  else
    let s := (ftpType P (ascii "I") s).2
    let c := ftpPasvConnect P s
    if c.1 = false then (-1, ⟨[], size, false⟩, c.2)
    else
      let r := ftpSendcmd P (ascii "STOR " ++ d ++ ascii "\r\n") c.2
      if r.1 ≥ 300 ∨ r.1 = 0 then (r.1, ⟨[], size, false⟩, r.2)
      else
        let m := moveLoop f.reads size
        if m.completed = false then (-1, m, r.2)
        else
          let fin := finalReply P r.2
          let result := fin.1.getD result
          if result ≥ 300 then (result, m, fin.2) else (0, m, fin.2)

/-- `ftp_retrfile`。最後の応答が読めなければ、`result` には命令への応答の番号が残っている。 -/
def ftpRetrfile (f : Download) (d : Bytes) (size : Option Nat) (s : σ) : Int × Moved × σ :=
  if f.opened = false then (-1, ⟨[], size, false⟩, s)
  else
    let s := (ftpType P (ascii "I") s).2
    let c := ftpPasvConnect P s
    if c.1 = false then (-1, ⟨[], size, false⟩, c.2)
    else
      let r := ftpSendcmd P (ascii "RETR " ++ d ++ ascii "\r\n") c.2
      if r.1 ≥ 300 ∨ r.1 = 0 then (r.1, ⟨[], size, false⟩, r.2)
      else
        let m := moveLoop f.recvs size
        if m.completed = false then (-1, m, r.2)
        else
          let fin := finalReply P r.2
          let result := fin.1.getD r.1
          if result ≥ 300 then (result, m, fin.2) else (0, m, fin.2)

/-- data 用の接続から受け取る一覧。 -/
structure Listing where
  chunks : List Bytes
  orderly : Bool
  short : ∀ b ∈ chunks, b.length ≤ 512

/-- `ftp_list` の loop。`re_buf` の内容と大きさ `buf_len` を持つ。 -/
def listLoop : List Bytes → Bytes → Nat → Bytes × Nat
  | [], buf, cap => (buf, cap)
  | b :: bs, buf, cap =>
    let cap := if buf.length + b.length > cap then cap * 2 else cap
    listLoop bs (buf ++ b) cap

/-- `ftp_list`。第二成分は `*data` と `*data_len` に書いた値で、書かなければ `none`。 -/
def ftpList (l : Listing) (path : Bytes) (result : Int) (s : σ) :
    Int × Option (Bytes × Nat) × σ :=
  let c := ftpPasvConnect P s
  if c.1 = false then (-1, none, c.2)
  else
    let r := ftpSendcmd P (ascii "LIST " ++ path ++ ascii "\r\n") c.2
    if r.1 ≥ 300 ∨ r.1 = 0 then (r.1, none, r.2)
    else
      let buf := (listLoop l.chunks [] 512).1
      let fin := finalReply P r.2
      let result := fin.1.getD result
      if result ≠ 226 then (result, none, fin.2)
      else (0, some (buf, buf.length), fin.2)

end Commands

end RecordServer.Ftp
