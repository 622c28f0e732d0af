import RecordServer.Ftp.Segmented

/-!
# 応答が一つずつ届く会話

server は命令ごとに応答を一つ送り、受け入れた転送では、終わりの応答をもう一つ送る。どの応答も一回の `recv` で届くとき、
`recv` の列は、送られた応答を順に取り出すだけになる。

* `ReplyServer` — 命令への応答と、data 用の接続ができるかどうか
* `Conversation` — 届いていてまだ読まれていない応答と、読んだ応答の記録
* `ReplyServer.peer` — この server を相手にする接続
-/

namespace RecordServer.Ftp

open Infra

/-- 一回の `recv` に収まる応答。 -/
abbrev WholeReply := {r : Reply // r.bytes.length ≤ 512}

/-- `n` 番目の命令への応答と、転送の終わりの応答。`opens` は、PASV の後に data 用の接続ができるかどうか。 -/
structure ReplyServer where
  greeting : WholeReply
  reply : Nat → Bytes → WholeReply
  final : Nat → Bytes → WholeReply
  opens : Nat → Option Bytes → Bool

/-- 転送の命令。 -/
def isTransfer (cmd : Bytes) : Bool :=
  [ascii "LIST ", ascii "RETR ", ascii "STOR "].any (·.isPrefixOf cmd)

/--
会話の状態。`sent` は送った命令の数、`unread` は読まれていない応答で、どちらも何番目の命令への応答かを持つ。挨拶は
`0` 番目である。`log` は、読んだときの `sent` と、読んだ応答の番号の列。
-/
structure Conversation where
  sent : Nat
  unread : List (Nat × WholeReply)
  log : List (Nat × Nat)

namespace ReplyServer

variable (x : ReplyServer)

/-- `n` 番目の命令 `cmd` を受けて送る、終わりの応答。 -/
def finals (n : Nat) (cmd : Bytes) : List (Nat × WholeReply) :=
  if isTransfer cmd ∧ (x.reply n cmd).1.code < 300 then [(n, x.final n cmd)] else []

def send (s : Conversation) (cmd : Bytes) : Conversation :=
  { s with
    sent := s.sent + 1
    unread := s.unread ++ (s.sent + 1, x.reply (s.sent + 1) cmd) :: x.finals (s.sent + 1) cmd }

end ReplyServer

/-- 応答を一つ読む。送られていなければ時間切れになる。 -/
def Conversation.recv (s : Conversation) : Option Bytes × Conversation :=
  match s.unread with
  | [] => (none, s)
  | (n, r) :: rest => (some r.1.bytes, { s with unread := rest, log := s.log ++ [(s.sent, n)] })

def ReplyServer.peer (x : ReplyServer) : Peer Conversation where
  send s cmd := (true, x.send s cmd)
  recv s := s.recv
  connect s r := (x.opens s.sent r, s)

/-- 繋いだところ。挨拶が届いている。 -/
def ReplyServer.start (x : ReplyServer) : Conversation := ⟨0, [(0, x.greeting)], []⟩

end RecordServer.Ftp
