import RecordServer.Ftp.DataAddress
import RecordServer.Infra.Span

/-!
# 固定長の buffer への書き込み

`ftp_client.cpp` の関数が 128 byte や 512 byte の buffer に書く範囲を、書く順に並べる。戻り値と相手の状態は `FtpClient` の関数が
決める。buffer の外に書いた後の動作は定まらないので、並びの初めの外れた書き込みまでが意味を持つ。

* `Store` — 一つの buffer への書き込み
* `ftpSendcmdReStores` — 命令を送って応答を写す
* `Call` — client の関数の呼び出し
* `sessionStores` — 呼び出しを順に行ったときの書き込み
-/

namespace RecordServer.Ftp

open Infra

/-! ## 書き込み -/

/-- 大きさ `cap` の buffer への書き込み。 -/
structure Store where
  cap : Nat
  span : Span
deriving DecidableEq, Repr

/-- buffer の中だけに書く。 -/
def Store.Inside (w : Store) : Prop := w.span.Within 0 w.cap

instance (w : Store) : Decidable w.Inside := inferInstanceAs (Decidable (Span.Within _ _ _))

/-- `sprintf`。終端の 0 まで書く。 -/
def sprintfStore (cap : Nat) (text : Bytes) : Store := ⟨cap, ⟨0, text.length + 1⟩⟩

/-- `bzero(buf, sizeof(buf))` -/
def bzeroStore (cap : Nat) : Store := ⟨cap, ⟨0, cap⟩⟩

/-- `recv` や `read` が 512 byte の `buf` に置いた `n` byte。 -/
def fillStore (n : Nat) : Store := ⟨512, ⟨0, n⟩⟩

/-- `recv` の戻り値。 -/
def recvLen : Option Bytes → Int
  | none => -1
  | some w => w.length

/-- `buf[len] = 0` -/
def endStore (len : Int) : Store := ⟨512, ⟨len, 1⟩⟩

/-- `"%s"` を一つ持つ命令。 -/
def commandText (verb : String) (arg : Bytes) : Bytes := ascii verb ++ cstr arg ++ ascii "\r\n"

/-- `"TYPE %c\r\n"` -/
def typeText (mode : UInt8) : Bytes := ascii "TYPE " ++ [mode] ++ ascii "\r\n"

section Stores

variable {σ : Type} (P : Peer σ)

/-- `connect_server` -/
def connectServerStores (sock : Int) (s : σ) : List Store :=
  if sock = -1 then []
  else
    let r := recv512 P s
    [fillStore (r.1.getD []).length, endStore (recvLen r.1)]

/-- `ftp_sendcmd_re`。`re_buf` の大きさは `reCap` である。 -/
def ftpSendcmdReStores (reCap : Nat) (cmd : Bytes) (s : σ) : List Store :=
  let w := P.send s cmd
  if w.1 then
    let r := recv512 P w.2
    let buf := r.1.getD []
    fillStore buf.length ::
      if recvLen r.1 < 1 then [] else [endStore (recvLen r.1), sprintfStore reCap (cstr buf)]
  else []

/-- `ftp_sendcmd` -/
def ftpSendcmdStores (cmd : Bytes) (s : σ) : List Store := ftpSendcmdReStores P 512 cmd s

/-- 大きさ `cap` の `buf` に命令を書いて送る。 -/
def sendStores (cap : Nat) (text : Bytes) (s : σ) : List Store :=
  sprintfStore cap text :: ftpSendcmdStores P text s

/-- `login_server` -/
def loginServerStores (user pwd : Bytes) (s : σ) : List Store :=
  let r := ftpSendcmd P (commandText "USER " user) s
  sendStores P 128 (commandText "USER " user) s ++
    if r.1 = 230 then []
    else if r.1 = 331 then sendStores P 128 (commandText "PASS " pwd) r.2
    else []

/-- `ftp_pasv_connect`。`init` は初期化されない `addr` の値である。 -/
def ftpPasvConnectStores (init : Nat → Int) (s : σ) : List Store :=
  let addr := fun i => Int.bmod (init i) (2 ^ 32)
  let r := ftpSendcmdRe P (ascii "PASV\r\n") s
  [bzeroStore 512, sprintfStore 512 (ascii "PASV\r\n")] ++
    ftpSendcmdReStores P 512 (ascii "PASV\r\n") s ++
    [bzeroStore 512, sprintfStore 512 (pasvTarget addr r.1).1]

/-- `ftp_type`。`mode` が 0 なら、送るのはその手前までである。 -/
def ftpTypeStores (mode : UInt8) (s : σ) : List Store :=
  sprintfStore 128 (typeText mode) :: ftpSendcmdStores P (cstr (typeText mode)) s

/-- 転送の後の応答。 -/
def finalReplyStores (s : σ) : List Store :=
  let r := recv512 P s
  [bzeroStore 512, fillStore (r.1.getD []).length, endStore (recvLen r.1)]

/-- `ftp_list` -/
def ftpListStores (init : Nat → Int) (l : Listing) (path : Bytes) (s : σ) : List Store :=
  let c := ftpPasvConnect P s
  ftpPasvConnectStores P init s ++
    if c.1 = false then []
    else
      let text := commandText "LIST " path
      let r := ftpSendcmd P text c.2
      bzeroStore 512 :: sendStores P 512 text c.2 ++
        if r.1 ≥ 300 ∨ r.1 = 0 then []
        else l.chunks.map (fun b => fillStore b.length) ++ finalReplyStores P r.2

/-- 転送の loop が `buf` に読む塊。 -/
def moveStores : List Piece → List Store
  | [] => []
  | p :: ps =>
    fillStore p.bytes.length ::
      if p.moved ≠ p.bytes.length ∨ p.stop = true then [] else moveStores ps

/-- `ftp_retrfile` と `ftp_storfile`。違うのは命令と、塊を読む相手だけである。 -/
def transferStores (init : Nat → Int) (opened : Bool) (verb : String) (arg : Bytes)
    (pieces : List Piece) (s : σ) : List Store :=
  if opened = false then []
  else
    let s' := (ftpType P (ascii "I") s).2
    let c := ftpPasvConnect P s'
    ftpTypeStores P 73 s ++ ftpPasvConnectStores P init s' ++
      if c.1 = false then []
      else
        let text := commandText verb arg
        let r := ftpSendcmd P text c.2
        bzeroStore 512 :: sendStores P 512 text c.2 ++
          if r.1 ≥ 300 ∨ r.1 = 0 then []
          else
            bzeroStore 512 :: moveStores pieces ++
              if (moveLoop pieces none).completed = false then [] else finalReplyStores P r.2

/-- `ftp_renamefile` -/
def ftpRenamefileStores (src dst : Bytes) (s : σ) : List Store :=
  let r := ftpSendcmd P (commandText "RNFR " src) s
  sendStores P 512 (commandText "RNFR " src) s ++
    if r.1 ≠ 350 then [] else sendStores P 512 (commandText "RNTO " dst) r.2

end Stores

/-! ## 呼び出し -/

/-- client の関数の呼び出し。socket や file の結果のように、相手から届かない値も引数に持つ。 -/
inductive Call where
  | connect (sock : Int) (buf : Bytes) (result : Int) (user pwd : Bytes)
  | quit
  | datasock (ready : Bool) (a b c d : UInt8) (port : UInt16)
  | type (mode : UInt8)
  | cwd (path : Bytes)
  | cdup
  | mkd (path : Bytes)
  | list (init : Nat → Int) (l : Listing) (path : Bytes)
  | retrfile (init : Nat → Int) (f : Download) (short : ∀ p ∈ f.recvs, p.bytes.length ≤ 512)
      (src : Bytes)
  | storfile (init : Nat → Int) (f : Upload) (short : ∀ p ∈ f.reads, p.bytes.length ≤ 512)
      (dst : Bytes)
  | renamefile (src dst : Bytes)
  | deletefile (path : Bytes)
  | deletefolder (path : Bytes)

section Session

variable {σ : Type} (P : Peer σ)

/-- 呼び出しの後の相手の状態。 -/
def Call.exec (s : σ) : Call → σ
  | .connect sock buf result user pwd =>
    let c := connectServer P sock buf result s
    if c.1 = -1 then c.2 else (loginServer P (cstr user) (cstr pwd) c.2).2
  | .quit => (ftpSendcmd P (ascii "QUIT\r\n") s).2
  | .datasock ready a b c d port =>
    let sin := SockaddrIn.ofNetwork a b c d port
    if ready then (ftpSendcmd P (portCommand sin sin) s).2 else s
  | .type mode => (ftpSendcmd P (cstr (typeText mode)) s).2
  | .cwd path => (ftpSendcmd P (commandText "CWD " path) s).2
  | .cdup => (ftpSendcmd P (ascii "CDUP\r\n") s).2
  | .mkd path => (ftpSendcmd P (commandText "MKD " path) s).2
  | .list _ l path => (ftpList P l (cstr path) 0 s).2.2
  | .retrfile _ f _ src => (ftpRetrfile P f (cstr src) none s).2.2
  | .storfile _ f _ dst => (ftpStorfile P f (cstr dst) none 0 s).2.2
  | .renamefile src dst =>
    let r := ftpSendcmd P (commandText "RNFR " src) s
    if r.1 ≠ 350 then r.2 else (ftpSendcmd P (commandText "RNTO " dst) r.2).2
  | .deletefile path => (ftpSendcmd P (commandText "DELE " path) s).2
  | .deletefolder path => (ftpSendcmd P (commandText "RMD " path) s).2

/-- 呼び出しの書き込み。 -/
def Call.stores (s : σ) : Call → List Store
  | .connect sock buf result user pwd =>
    let c := connectServer P sock buf result s
    connectServerStores P sock s ++ if c.1 = -1 then [] else loginServerStores P user pwd c.2
  | .quit => ftpSendcmdStores P (ascii "QUIT\r\n") s
  | .datasock ready a b c d port =>
    let sin := SockaddrIn.ofNetwork a b c d port
    if ready then sendStores P 128 (portCommand sin sin) s else []
  | .type mode => ftpTypeStores P mode s
  | .cwd path => sendStores P 128 (commandText "CWD " path) s
  | .cdup => ftpSendcmdStores P (ascii "CDUP\r\n") s
  | .mkd path => sendStores P 512 (commandText "MKD " path) s
  | .list init l path => ftpListStores P init l path s
  | .retrfile init f _ src => transferStores P init f.opened "RETR " src f.recvs s
  | .storfile init f _ dst => transferStores P init f.opened "STOR " dst f.reads s
  | .renamefile src dst => ftpRenamefileStores P src dst s
  | .deletefile path => sendStores P 512 (commandText "DELE " path) s
  | .deletefolder path => sendStores P 512 (commandText "RMD " path) s

/-- 呼び出しを順に行ったときの書き込み。 -/
def sessionStores : List Call → σ → List Store
  | [], _ => []
  | c :: cs, s => c.stores P s ++ sessionStores cs (c.exec P s)

end Session

end RecordServer.Ftp
