import RecordServer.Ftp.Conversation
import RecordServer.Ftp.Properties.CallSteps
import RecordServer.Ftp.Properties.Segmentation
import Mathlib.Data.List.TakeWhile

/-!
# 応答はどの命令のものか

client は、命令を送った後に来た応答を、その命令への応答とみなす。転送を途中で止めると、終わりの応答が読まれずに残る。

* `Calm` — 読まれていない応答が無く、取り違えも無い
* `Calm.exec` / `Calm.aborts` — 止められない呼び出しは何も残さず、止められた転送は応答を一つ残す
* `Awaits.converse` — 残った応答は、次に命令を送る呼び出しが読む
* `Behind.converse` — 転送をしない限り、遅れは直らない
* `in_step_iff` — 取り違えが起きないのは、止めた転送の後に命令を送らないときに限る
-/

namespace RecordServer.Ftp

open Infra

/-! ## 応答の読み取り -/

theorem sscanfD_cstr (s : Bytes) : sscanfD (cstr s) = sscanfD s := by
  rw [sscanfD, cstr_cstr, sscanfD]

/-- 一回で届いた応答から読まれるのは、その番号である。 -/
theorem sendcmdResult_reply (r : Reply) :
    sendcmdResult (some (cstr (r.bytes.take 512))) = r.code := by
  have hcode : r.seen 512 = r.code := by simp [Reply.seen]
  rw [sendcmdResult, sscanfD_cstr, parse_take r (by omega), Option.getD_some, hcode]

/-! ## 会話 -/

/-- 読んだ応答は、どれもそのとき最後に送ってあった命令への応答である。 -/
def InStep (s : Conversation) : Prop := ∀ e ∈ s.log, e.1 = e.2

/-- 読まれていない応答が無く、どの応答も取り違えられていない。 -/
structure Calm (s : Conversation) : Prop where
  unread : s.unread = []
  inStep : InStep s

/-- 最後に送った命令への応答だけが、まだ読まれていない。 -/
def Behind (s : Conversation) : Prop := ∃ r, s.unread = [(s.sent, r)]

/-- 取り違えのないまま、応答が一つ残っている。 -/
structure Awaits (s : Conversation) : Prop where
  behind : Behind s
  inStep : InStep s

/-- 前の命令への応答が、先に読まれる所に残っている。 -/
def Stale (s : Conversation) : Prop := ∃ n r rest, s.unread = (n, r) :: rest ∧ n ≤ s.sent

variable {x : ReplyServer} {s : Conversation} {cmd : Bytes} {c : Call} {cs : List Call}

theorem Awaits.stale (h : Awaits s) : Stale s := by
  obtain ⟨r, hr⟩ := h.behind
  exact ⟨_, _, _, hr, le_rfl⟩

theorem inStep_concat {log : List (Nat × Nat)} (h : InStep s) (n : Nat)
    (hlog : log = s.log ++ [(n, n)]) : ∀ e ∈ log, e.1 = e.2 := by
  rw [hlog]
  exact List.forall_mem_append.mpr ⟨h, by simp⟩

/-- 記録は増えるだけである。 -/
theorem keeps_log (x : ReplyServer) : Keeps x.peer fun s t => s.log <+: t.log where
  refl s := List.prefix_rfl
  trans := List.IsPrefix.trans
  send s cmd := List.prefix_rfl
  recv s := by
    show s.log <+: s.recv.2.log
    unfold Conversation.recv
    split
    · exact List.prefix_rfl
    · exact List.prefix_append _ _
  connect s r := List.prefix_rfl

theorem InStep.of_prefix {t : Conversation} (h : InStep t) (hlog : s.log <+: t.log) : InStep s :=
  fun e he => h e (hlog.subset he)

theorem exists_bytes_take (r : Reply) : ∃ b buf, r.bytes.take 512 = b :: buf :=
  ⟨_, _, by rw [Reply.bytes, List.take_succ_cons]⟩

/-- 溜まっている応答があれば、命令を送っても、読むのはその先頭である。 -/
theorem sendcmdRe_cons {n : Nat} {r : WholeReply} {rest : List (Nat × WholeReply)}
    (h : (x.send s cmd).unread = (n, r) :: rest) :
    ftpSendcmdRe x.peer cmd s = (some (cstr (r.1.bytes.take 512)),
      ⟨s.sent + 1, rest, s.log ++ [(s.sent + 1, n)]⟩) := by
  obtain ⟨b, buf, hbuf⟩ := exists_bytes_take r.1
  have hread : recv512 x.peer (x.send s cmd) =
      (some (r.1.bytes.take 512), ⟨s.sent + 1, rest, s.log ++ [(s.sent + 1, n)]⟩) := by
    simp only [recv512, ReplyServer.peer, Conversation.recv, h]
    rfl
  rw [hbuf] at hread ⊢
  exact ftpSendcmdRe_of_read rfl hread

theorem Calm.send_unread (h : Calm s) (cmd : Bytes) : (x.send s cmd).unread =
    (s.sent + 1, x.reply (s.sent + 1) cmd) :: x.finals (s.sent + 1) cmd := by
  simp [ReplyServer.send, h.unread]

/-- 溜まっている応答が無ければ、読むのは送った命令への応答である。 -/
theorem Calm.sendcmdRe (h : Calm s) (cmd : Bytes) :
    (ftpSendcmdRe x.peer cmd s).2 =
      ⟨s.sent + 1, x.finals (s.sent + 1) cmd, s.log ++ [(s.sent + 1, s.sent + 1)]⟩ := by
  rw [sendcmdRe_cons (h.send_unread cmd)]

theorem Calm.sendcmd_code (h : Calm s) (cmd : Bytes) :
    (ftpSendcmd x.peer cmd s).1 = (x.reply (s.sent + 1) cmd).1.code := by
  rw [ftpSendcmd, sendcmdRe_cons (h.send_unread cmd)]
  exact sendcmdResult_reply _

/-- 転送でない命令の後には、読まれていない応答は無い。 -/
theorem Calm.command (h : Calm s) (cmd : Bytes) (hcmd : isTransfer cmd = false) :
    Calm (ftpSendcmdRe x.peer cmd s).2 := by
  rw [h.sendcmdRe]
  exact ⟨by simp [ReplyServer.finals, hcmd], inStep_concat h.inStep _ rfl⟩

theorem Calm.pasvConnect (h : Calm s) : Calm (ftpPasvConnect x.peer s).2 :=
  h.command (ascii "PASV\r\n") rfl

theorem Calm.fileConnection (h : Calm s) : Calm (fileConnection x.peer s).2 :=
  (h.command (ascii "TYPE " ++ ascii "I" ++ ascii "\r\n") rfl).pasvConnect

theorem Awaits.finalReply (h : Awaits s) : Calm (finalReply x.peer s).2 := by
  obtain ⟨r, hr⟩ := h.behind
  have hread : (Ftp.finalReply x.peer s).2 = ⟨s.sent, [], s.log ++ [(s.sent, s.sent)]⟩ := by
    show s.recv.2 = _
    simp only [Conversation.recv, hr]
  rw [hread]
  exact ⟨rfl, inStep_concat h.inStep _ rfl⟩

/-- 転送の命令が断られたなら、応答はもう来ない。受け入れられたなら、終わりの応答が来る。 -/
theorem Calm.transferEnd (h : Calm s) (cmd : Bytes) (hcmd : isTransfer cmd = true)
    (completed : Bool) :
    (completed = false →
        ¬((ftpSendcmd x.peer cmd s).1 ≥ 300 ∨ (ftpSendcmd x.peer cmd s).1 = 0) →
        Awaits (transferEnd x.peer cmd completed s)) ∧
      (completed = true ∨
          ((ftpSendcmd x.peer cmd s).1 ≥ 300 ∨ (ftpSendcmd x.peer cmd s).1 = 0) →
        Calm (transferEnd x.peer cmd completed s)) := by
  have hstate := h.sendcmdRe (x := x) cmd
  have hlog : InStep (ftpSendcmd x.peer cmd s).2 := by
    show InStep (ftpSendcmdRe x.peer cmd s).2
    rw [hstate]
    exact inStep_concat h.inStep _ rfl
  have hlow := (x.reply (s.sent + 1) cmd).1.threeDigits.1
  by_cases hcode : (ftpSendcmd x.peer cmd s).1 ≥ 300 ∨ (ftpSendcmd x.peer cmd s).1 = 0
  · refine ⟨fun _ haccepted => absurd hcode haccepted, fun _ => ?_⟩
    rw [Ftp.transferEnd, if_pos hcode]
    refine ⟨?_, hlog⟩
    show (ftpSendcmdRe x.peer cmd s).2.unread = []
    rw [h.sendcmd_code] at hcode
    rw [hstate]
    exact if_neg fun hand => by omega
  · have hawaits : Awaits (ftpSendcmd x.peer cmd s).2 := by
      refine ⟨⟨x.final (s.sent + 1) cmd, ?_⟩, hlog⟩
      show (ftpSendcmdRe x.peer cmd s).2.unread = [((ftpSendcmdRe x.peer cmd s).2.sent, _)]
      rw [h.sendcmd_code] at hcode
      rw [hstate]
      exact if_pos ⟨hcmd, by omega⟩
    rw [Ftp.transferEnd, if_neg hcode]
    cases completed with
    | false => exact ⟨fun _ _ => hawaits, fun hend => absurd hend (by simpa using hcode)⟩
    | true => exact ⟨fun hfalse => Bool.noConfusion hfalse, fun _ => hawaits.finalReply⟩

/-! ## 呼び出しごと -/

/-- 受け入れられた転送が、途中で止められる。 -/
def Call.Aborts {σ : Type} (P : Peer σ) (s : σ) : Call → Prop
  | .retrfile _ f _ src => f.opened = true ∧ (fileConnection P s).1 = true ∧ ¬AllMoved f.recvs ∧
      ¬(sendcmdResult (fileReply P (ascii "RETR ") (cstr src) s).1 ≥ 300 ∨
        sendcmdResult (fileReply P (ascii "RETR ") (cstr src) s).1 = 0)
  | .storfile _ f _ dst => f.opened = true ∧ (fileConnection P s).1 = true ∧ ¬AllMoved f.reads ∧
      ¬(sendcmdResult (fileReply P (ascii "STOR ") (cstr dst) s).1 ≥ 300 ∨
        sendcmdResult (fileReply P (ascii "STOR ") (cstr dst) s).1 = 0)
  | _ => False

/-- file を開いた後の転送が応答を残すのは、受け入れられて、途中で止められたときに限る。 -/
theorem Calm.file (h : Calm s) (cmd : Bytes) (hcmd : isTransfer cmd = true) (ps : List Piece) :
    (¬AllMoved ps ∧ ¬((ftpSendcmd x.peer cmd (Ftp.fileConnection x.peer s).2).1 ≥ 300 ∨
        (ftpSendcmd x.peer cmd (Ftp.fileConnection x.peer s).2).1 = 0) →
      Awaits (Ftp.transferEnd x.peer cmd (moveLoop ps none).completed
        (Ftp.fileConnection x.peer s).2)) ∧
    (¬(¬AllMoved ps ∧ ¬((ftpSendcmd x.peer cmd (Ftp.fileConnection x.peer s).2).1 ≥ 300 ∨
        (ftpSendcmd x.peer cmd (Ftp.fileConnection x.peer s).2).1 = 0)) →
      Calm (Ftp.transferEnd x.peer cmd (moveLoop ps none).completed
        (Ftp.fileConnection x.peer s).2)) := by
  obtain ⟨hstopped, hended⟩ := (h.fileConnection (x := x)).transferEnd (x := x) cmd hcmd
    (moveLoop ps none).completed
  refine ⟨fun hand => hstopped ?_ hand.2, fun hand => hended ?_⟩
  · exact Bool.eq_false_iff.mpr (mt (moveLoop_completed ps none).mp hand.1)
  · rw [moveLoop_completed ps none]
    exact or_iff_not_imp_left.mpr fun hmoved => not_not.mp fun haccepted => hand ⟨hmoved, haccepted⟩

/-- 途中で止められない呼び出しは、応答を一つも残さない。 -/
theorem Calm.exec (h : Calm s) (hon : c.OnConnection) (hdone : ¬c.Aborts x.peer s) :
    Calm (c.exec x.peer s) := by
  cases c with
  | connect => exact hon.elim
  | quit => exact h.command _ rfl
  | datasock ready a b c d port =>
    simp only [Call.exec]
    split
    · exact h.command _ rfl
    · exact h
  | type mode => exact h.command _ rfl
  | cwd path => exact h.command _ rfl
  | cdup => exact h.command _ rfl
  | mkd path => exact h.command _ rfl
  | deletefile path => exact h.command _ rfl
  | deletefolder path => exact h.command _ rfl
  | renamefile src dst =>
    have hfrom : Calm (ftpSendcmd x.peer (commandText "RNFR " src) s).2 := h.command _ rfl
    simp only [Call.exec]
    split
    · exact hfrom
    · exact hfrom.command _ rfl
  | list init l path =>
    simp only [Call.exec, ftpList_state]
    split
    · exact h.pasvConnect
    · exact (h.pasvConnect.transferEnd _ rfl true).2 (.inl rfl)
  | retrfile init f hshort src =>
    simp only [Call.exec, ftpRetrfile_state]
    split
    · exact h
    · rename_i hopened
      split
      · exact h.fileConnection
      · rename_i hconn
        exact (h.file _ rfl f.recvs).2 fun hand =>
          hdone ⟨by simpa using hopened, by simpa using hconn, hand⟩
  | storfile init f hshort dst =>
    simp only [Call.exec, ftpStorfile_state]
    split
    · exact h
    · rename_i hopened
      split
      · exact h.fileConnection
      · rename_i hconn
        exact (h.file _ rfl f.reads).2 fun hand =>
          hdone ⟨by simpa using hopened, by simpa using hconn, hand⟩

/-- 途中で止められた転送は、終わりの応答を読まずに残す。 -/
theorem Calm.aborts (h : Calm s) (habort : c.Aborts x.peer s) : Awaits (c.exec x.peer s) := by
  cases c with
  | retrfile init f hshort src =>
    obtain ⟨hopened, hconn, hstopped⟩ := habort
    simp only [Call.exec, ftpRetrfile_state, hopened, hconn, Bool.true_eq_false, if_false]
    exact (h.file _ rfl f.recvs).1 hstopped
  | storfile init f hshort dst =>
    obtain ⟨hopened, hconn, hstopped⟩ := habort
    simp only [Call.exec, ftpStorfile_state, hopened, hconn, Bool.true_eq_false, if_false]
    exact (h.file _ rfl f.reads).1 hstopped
  | _ => exact habort.elim

/-- 前の応答が残っていれば、次に命令を送る呼び出しは、それを自分への応答として読む。 -/
theorem Stale.talks (h : Stale s) (hon : c.OnConnection) (htalk : c.Talks) :
    ¬InStep (c.exec x.peer s) := by
  obtain ⟨n, r, rest, hunread, hle⟩ := h
  obtain ⟨cmd, hrest⟩ := (keeps_log x).talks hon htalk s
  have hsend : (x.send s cmd).unread = (n, r) :: (rest ++
      (s.sent + 1, x.reply (s.sent + 1) cmd) :: x.finals (s.sent + 1) cmd) := by
    simp [ReplyServer.send, hunread]
  intro hstep
  have hread := hstep.of_prefix hrest
  rw [sendcmdRe_cons hsend] at hread
  have heq : s.sent + 1 = n := hread (s.sent + 1, n) (by simp)
  omega

/-- 前の応答が残っていれば、取り違えが起きないのは、もう命令を送らないときだけである。 -/
theorem Awaits.converse (h : Awaits s) (hon : ∀ c ∈ cs, c.OnConnection) :
    InStep (converse x.peer s cs) ↔ ∀ c ∈ cs, ¬c.Talks := by
  induction cs with
  | nil => exact ⟨fun _ => by simp, fun _ => h.inStep⟩
  | cons c cs ih =>
    obtain ⟨hc, hcs⟩ := List.forall_mem_cons.mp hon
    rw [List.forall_mem_cons]
    by_cases htalk : c.Talks
    · refine ⟨fun hstep => ?_, fun hall => absurd htalk hall.1⟩
      have hlog := (keeps_log x).converse hcs (c.exec x.peer s)
      exact absurd (hstep.of_prefix hlog) (h.stale.talks hc htalk)
    · show InStep (Ftp.converse x.peer (c.exec x.peer s) cs) ↔ _
      rw [exec_silent hc htalk, ih hcs]
      exact ⟨fun hall => ⟨htalk, hall⟩, And.right⟩

/-- 取り違えが起きないのは、転送が途中で止められたら、もう命令を送らないとき、そのときに限る。 -/
theorem Calm.converse (h : Calm s) (hon : ∀ c ∈ cs, c.OnConnection) :
    InStep (converse x.peer s cs) ↔ ∀ pre c post, cs = pre ++ c :: post →
      c.Aborts x.peer (converse x.peer s pre) → ∀ d ∈ post, ¬d.Talks := by
  induction cs generalizing s with
  | nil => exact ⟨fun _ pre c post heq => by simp at heq, fun _ => h.inStep⟩
  | cons c cs ih =>
    obtain ⟨hc, hcs⟩ := List.forall_mem_cons.mp hon
    show InStep (Ftp.converse x.peer (c.exec x.peer s) cs) ↔ _
    by_cases habort : c.Aborts x.peer s
    · rw [(h.aborts habort).converse hcs]
      constructor
      · intro hall pre c' post heq _ d hd
        cases pre with
        | nil =>
          obtain ⟨-, rfl⟩ := List.cons.inj heq
          exact hall d hd
        | cons a pre =>
          obtain ⟨-, rfl⟩ := List.cons.inj heq
          exact hall d (by simp [hd])
      · exact fun hall => hall [] c cs rfl habort
    · rw [ih (h.exec hc habort) hcs]
      constructor
      · intro hall pre c' post heq hab d hd
        cases pre with
        | nil =>
          obtain ⟨rfl, -⟩ := List.cons.inj heq
          exact absurd hab habort
        | cons a pre =>
          obtain ⟨rfl, hrest⟩ := List.cons.inj heq
          exact hall pre c' post hrest hab d hd
      · exact fun hall pre c' post heq hab => hall (c :: pre) c' post (by rw [heq]; rfl) hab

/-! ## 遅れ -/

/-- 一度に一つの命令を送り、転送をしない呼び出し。 -/
def Call.Plain : Call → Prop
  | .connect .. | .list .. | .retrfile .. | .storfile .. => False
  | _ => True

/-- `s` から `t` まで、どの応答も、次の命令を送った後に読まれた。 -/
def Lags (s t : Conversation) : Prop := ∃ log, t.log = s.log ++ log ∧ ∀ e ∈ log, e.1 = e.2 + 1

theorem Lags.refl (s : Conversation) : Lags s s := ⟨[], by simp⟩

theorem Lags.trans {t u : Conversation} (h : Lags s t) (h' : Lags t u) : Lags s u := by
  obtain ⟨log, hlog, hall⟩ := h
  obtain ⟨log', hlog', hall'⟩ := h'
  exact ⟨log ++ log', by rw [hlog', hlog, List.append_assoc], List.forall_mem_append.mpr ⟨hall, hall'⟩⟩

/-- 一つ遅れたまま命令を送ると、前の応答を読んで、一つ遅れたままである。 -/
theorem Behind.command (h : Behind s) (cmd : Bytes) (hcmd : isTransfer cmd = false) :
    Behind (ftpSendcmdRe x.peer cmd s).2 ∧ Lags s (ftpSendcmdRe x.peer cmd s).2 := by
  obtain ⟨r, hr⟩ := h
  have hsend : (x.send s cmd).unread = (s.sent, r) :: [(s.sent + 1, x.reply (s.sent + 1) cmd)] := by
    simp [ReplyServer.send, ReplyServer.finals, hr, hcmd]
  rw [sendcmdRe_cons hsend]
  exact ⟨⟨_, rfl⟩, [(s.sent + 1, s.sent)], rfl, by simp⟩

theorem Behind.exec (h : Behind s) (hplain : c.Plain) :
    Behind (c.exec x.peer s) ∧ Lags s (c.exec x.peer s) := by
  cases c with
  | datasock ready a b c d port =>
    simp only [Call.exec]
    split
    · exact h.command _ rfl
    · exact ⟨h, .refl s⟩
  | quit => exact h.command _ rfl
  | type mode => exact h.command _ rfl
  | cwd path => exact h.command _ rfl
  | cdup => exact h.command _ rfl
  | mkd path => exact h.command _ rfl
  | deletefile path => exact h.command _ rfl
  | deletefolder path => exact h.command _ rfl
  | renamefile src dst =>
    obtain ⟨hbehind, hlags⟩ : Behind (ftpSendcmd x.peer (commandText "RNFR " src) s).2 ∧
        Lags s (ftpSendcmd x.peer (commandText "RNFR " src) s).2 := h.command _ rfl
    simp only [Call.exec]
    split
    · exact ⟨hbehind, hlags⟩
    · obtain ⟨hbehind', hlags'⟩ := hbehind.command (x := x) (commandText "RNTO " dst) rfl
      exact ⟨hbehind', hlags.trans hlags'⟩
  | _ => exact hplain.elim

theorem Behind.converse (h : Behind s) (hplain : ∀ c ∈ cs, c.Plain) :
    Lags s (converse x.peer s cs) := by
  induction cs generalizing s with
  | nil => exact .refl s
  | cons c cs ih =>
    obtain ⟨hc, hcs⟩ := List.forall_mem_cons.mp hplain
    obtain ⟨hbehind, hlags⟩ := h.exec (x := x) hc
    exact hlags.trans (ih hbehind hcs)

/-! ## 会話の始まりから -/

theorem Calm.loginServer (h : Calm s) (user pwd : Bytes) : Calm (loginServer x.peer user pwd s).2 := by
  have huser : Calm (ftpSendcmd x.peer (ascii "USER " ++ user ++ ascii "\r\n") s).2 := h.command _ rfl
  simp only [Ftp.loginServer]
  split
  · exact huser
  · split
    · exact huser.command _ rfl
    · exact huser

/-- 繋いで挨拶を読み、login した後。 -/
theorem calm_connect {sock : Int} (hsock : sock ≠ -1) (buf : Bytes) (result : Int)
    (user pwd : Bytes) :
    Calm ((Call.connect sock buf result user pwd).exec x.peer x.start) := by
  have hgreeted : Calm (connectServer x.peer sock buf result x.start).2 := by
    have hread : (connectServer x.peer sock buf result x.start).2 = ⟨0, [], [(0, 0)]⟩ := by
      simp only [connectServer, if_neg hsock, apply_ite Prod.snd, ite_self]
      rfl
    rw [hread]
    exact ⟨rfl, by simp [InStep]⟩
  simp only [Call.exec]
  split
  · exact hgreeted
  · exact hgreeted.loginServer _ _

/--
**応答が命令と取り違えられないのは、途中で止めた転送の後に、もう命令を送らないとき、そのときに限る。**

どの応答も一回の `recv` で届く server が、どんな番号を返し、どんな命令を断っても成り立つ。止めた転送の終わりの応答は
読まれずに残り、次の命令への応答として読まれる。転送でない命令を続ける限り、どの応答も、次の命令への応答として読まれる。
-/
theorem in_step_iff (x : ReplyServer) {sock : Int} (hsock : sock ≠ -1) (buf : Bytes) (result : Int)
    (user pwd : Bytes) (cs : List Call) (hone : OneConnection cs) :
    (InStep (converse x.peer x.start (.connect sock buf result user pwd :: cs)) ↔
      ∀ pre c post, cs = pre ++ c :: post →
        c.Aborts x.peer (converse x.peer x.start (.connect sock buf result user pwd :: pre)) →
        ∀ d ∈ post, ¬d.Talks) ∧
    ∀ s c, Calm s → c.Aborts x.peer s → Awaits (c.exec x.peer s) ∧
      ∀ post, OneConnection post → (∀ d ∈ post, d.Plain) →
        Lags (c.exec x.peer s) (converse x.peer s (c :: post)) := by
  refine ⟨(calm_connect hsock buf result user pwd).converse hone.each, fun s c hcalm habort => ?_⟩
  have hawaits := hcalm.aborts habort
  exact ⟨hawaits, fun post _ hplain => hawaits.behind.converse hplain⟩

/-- どの命令にも同じ番号で答える server。 -/
def steadyServer : ReplyServer where
  greeting := ⟨greeted.greeting, by decide⟩
  reply := fun _ _ => ⟨{ greeted.greeting with code := 230, threeDigits := by decide }, by decide⟩
  final := fun _ _ => ⟨{ greeted.greeting with code := 426, threeDigits := by decide }, by decide⟩
  opens := fun _ _ => true

/-- 一 byte の file を送れずに、途中で止めた転送。 -/
def stoppedUpload : Call :=
  .storfile (fun _ => 0) ⟨true, [1], [⟨[1], -1, false⟩], List.prefix_refl _⟩ (by decide) (ascii "x")

theorem in_step_iff_stopped :
    ¬InStep (converse steadyServer.peer steadyServer.start
      [.connect 3 [] 0 (ascii "u") (ascii "p"), stoppedUpload, .cdup, .quit]) := by
  have hiff := (in_step_iff steadyServer (show (3 : Int) ≠ -1 by decide) [] 0 (ascii "u") (ascii "p")
    [stoppedUpload, .cdup, .quit] ⟨by simp [stoppedUpload, Call.OnConnection],
      by simp [stoppedUpload]⟩).1
  intro hstep
  refine hiff.mp hstep [] stoppedUpload [.cdup, .quit] rfl ⟨rfl, by decide +kernel, by decide, ?_⟩ .cdup
    (by simp) trivial
  decide +kernel

end RecordServer.Ftp
