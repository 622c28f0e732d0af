import RecordServer.Ftp.FtpClient

/-!
# 応答の区切り方

server が送った byte 列を、`recv` がどこで区切るかは TCP が決める。区切り方を `cuts` で与え、
`k` 回目の `recv` は届いている byte のうち先頭の `cuts k` byte を返す（空にはならず、512 byte を超えない）。
どの区切り方も、ある `cuts` で表せる。

* `Reply` — 番号、本文、CRLF からなる応答
* `Wire.segmented` — 応答を送る server と、`cuts` で区切る接続
* `session` — 接続してから命令を順に出し、戻り値を集める
-/

namespace RecordServer.Ftp

open Infra

/-- 数字の文字。 -/
def digit (k : Nat) : UInt8 := UInt8.ofNat (48 + k)

/-- 完全な応答。番号は三桁で、その次の文字は数字ではない。 -/
structure Reply where
  code : Nat
  sep : UInt8
  text : Bytes
  threeDigits : 100 ≤ code ∧ code ≤ 999
  separated : ¬IsDigit sep

/-- 応答の byte 列。 -/
def Reply.bytes (r : Reply) : Bytes :=
  digit (r.code / 100) :: digit (r.code / 10 % 10) :: digit (r.code % 10) :: r.sep
    :: (r.text ++ [13, 10])

/-- 命令一つに対する server の応答。転送では `final` が続き、`early` なら最初の応答と同時に送られている。 -/
structure Answer where
  reply : Reply
  final : Option Reply
  early : Bool

/-- 転送の後の応答の byte 列。 -/
def Answer.finalBytes (a : Answer) : Bytes := (a.final.map Reply.bytes).getD []

/-- 制御用の接続。`pending` は送られてまだ読まれていない byte 列、`held` は転送の後に送られる応答。 -/
structure Wire where
  pending : Bytes
  held : Bytes
  script : List Answer
  count : Nat

namespace Wire

/-- 命令を受けた server が応答を送る。 -/
def send (s : Wire) : Wire :=
  match s.script with
  | [] => s
  | a :: rest =>
    { s with
      pending := s.pending ++ s.held ++ a.reply.bytes ++ (if a.early then a.finalBytes else [])
      held := if a.early then [] else a.finalBytes
      script := rest }

/-- 塊を一つ読む。転送の後の応答は、最初の応答を読んだ後に届く。届いたものが無ければ時間切れになる。 -/
def recv (cuts : Nat → Nat) (s : Wire) : Option Bytes × Wire :=
  if s.pending = [] then (none, { s with pending := s.held, held := [] })
  else
    let n := max 1 (min (cuts s.count) 512)
    (some (s.pending.take n),
      { s with pending := s.pending.drop n ++ s.held, held := [], count := s.count + 1 })

/-- `cuts` で区切る相手。`connect` は、受け取った PASV への応答から data 用の接続ができるかどうか。 -/
def segmented (connect : Option Bytes → Bool) (cuts : Nat → Nat) : Peer Wire where
  send s _ := (true, s.send)
  recv s := s.recv cuts
  connect s r := (connect r, s)

end Wire

/-- 命令。転送に関わる値は、区切り方によらず決まっているものとする。 -/
inductive Op where
  | sendcmd (cmd : Bytes)
  | login (user pwd : Bytes)
  | storfile (f : Upload) (d : Bytes) (result : Int)
  | retrfile (f : Download) (d : Bytes)
  | list (l : Listing) (path : Bytes) (result : Int)

/-- 命令一つの戻り値。 -/
def Op.exec {σ : Type} (P : Peer σ) (s : σ) : Op → Int × σ
  | .sendcmd cmd => ftpSendcmd P cmd s
  | .login user pwd => loginServer P user pwd s
  | .storfile f d result =>
    let r := ftpStorfile P f d none result s
    (r.1, r.2.2)
  | .retrfile f d =>
    let r := ftpRetrfile P f d none s
    (r.1, r.2.2)
  | .list l path result =>
    let r := ftpList P l path result s
    (r.1, r.2.2)

/-- 命令を順に出したときの戻り値の列。 -/
def execs {σ : Type} (P : Peer σ) : List Op → σ → List Int
  | [], _ => []
  | op :: ops, s =>
    let r := op.exec P s
    r.1 :: execs P ops r.2

/-- 接続から始まる一続きの命令。 -/
structure Session where
  /-- `socket_connect` の戻り値。 -/
  sock : Int
  /-- `connect_server` の初期化されない変数の値。 -/
  buf : Bytes
  result : Int
  greeting : Reply
  script : List Answer
  connect : Option Bytes → Bool
  ops : List Op

/-- 戻り値の列。接続に失敗すれば、命令は出せない。 -/
def Session.results (x : Session) (cuts : Nat → Nat) : List Int :=
  let P := Wire.segmented x.connect cuts
  let r := connectServer P x.sock x.buf x.result ⟨x.greeting.bytes, [], x.script, 0⟩
  if r.1 = -1 then [-1] else r.1 :: execs P x.ops r.2

end RecordServer.Ftp
