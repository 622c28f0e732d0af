import RecordServer.Ftp.FixedBuffers
import RecordServer.Ftp.Properties.Transfers

/-!
# 呼び出しは命令と応答の列である

client のどの関数も、相手に対しては、命令を送ることと読むことと data 用に繋ぐことの列になる。

* `transferEnd` — 転送の三つの関数に共通の、data 用に繋いだ後の道
* `Keeps` — この三つの歩が保つ関係。呼び出しも、その列も保つ
* `Keeps.talks` — 命令を送る呼び出しは、初めに命令を一つ送って応答を一つ読む
-/

namespace RecordServer.Ftp

open Infra

theorem ftpSendcmdRe_of_read {σ : Type} {P : Peer σ} {cmd buf : Bytes} {b : UInt8} {s t : σ}
    (hsend : (P.send s cmd).1 = true)
    (hread : recv512 P (P.send s cmd).2 = (some (b :: buf), t)) :
    ftpSendcmdRe P cmd s = (some (cstr (b :: buf)), t) := by
  simp only [ftpSendcmdRe, hsend, hread, if_true]

/-! ## 転送の終わり -/

section Transfers

variable {σ : Type} (P : Peer σ)

/-- data 用に繋いだ後の、転送の関数に共通の道。 -/
def transferEnd (cmd : Bytes) (completed : Bool) (s : σ) : σ :=
  let r := ftpSendcmd P cmd s
  if r.1 ≥ 300 ∨ r.1 = 0 then r.2
  else if completed = false then r.2
  else (finalReply P r.2).2

theorem ftpStorfile_state (f : Upload) (d : Bytes) (size : Option Nat) (result : Int) (s : σ) :
    (ftpStorfile P f d size result s).2.2 =
      if f.opened = false then s
      else if (fileConnection P s).1 = false then (fileConnection P s).2
      else transferEnd P (ascii "STOR " ++ d ++ ascii "\r\n") (moveLoop f.reads size).completed
        (fileConnection P s).2 := by
  simp only [ftpStorfile, transferEnd, fileConnection, apply_ite Prod.snd, ite_self]
  rfl

theorem ftpRetrfile_state (f : Download) (d : Bytes) (size : Option Nat) (s : σ) :
    (ftpRetrfile P f d size s).2.2 =
      if f.opened = false then s
      else if (fileConnection P s).1 = false then (fileConnection P s).2
      else transferEnd P (ascii "RETR " ++ d ++ ascii "\r\n") (moveLoop f.recvs size).completed
        (fileConnection P s).2 := by
  simp only [ftpRetrfile, transferEnd, fileConnection, apply_ite Prod.snd, ite_self]
  rfl

theorem ftpList_state (l : Listing) (path : Bytes) (result : Int) (s : σ) :
    (ftpList P l path result s).2.2 =
      if (ftpPasvConnect P s).1 = false then (ftpPasvConnect P s).2
      else transferEnd P (ascii "LIST " ++ path ++ ascii "\r\n") true (ftpPasvConnect P s).2 := by
  simp only [ftpList, transferEnd, apply_ite Prod.snd, ite_self, Bool.true_eq_false, if_false]

end Transfers

/-! ## 命令を送る呼び出し -/

/-- 繋いだ後の呼び出し。 -/
def Call.OnConnection : Call → Prop
  | .connect .. => False
  | _ => True

/-- 一つの接続での呼び出し。`ftp_quit` は接続を閉じるので、最後に限る。 -/
structure OneConnection (cs : List Call) : Prop where
  each : ∀ c ∈ cs, c.OnConnection
  quitLast : Call.quit ∉ cs.dropLast

/-- 命令を一つは送る。 -/
def Call.Talks : Call → Prop
  | .datasock ready .. => ready = true
  | .retrfile _ f _ _ => f.opened = true
  | .storfile _ f _ _ => f.opened = true
  | _ => True

/-- 関数を順に呼んだ後の状態。 -/
def converse {σ : Type} (P : Peer σ) (s : σ) (cs : List Call) : σ :=
  cs.foldl (fun s c => c.exec P s) s

section Keeps

variable {σ : Type} {P : Peer σ} {R : σ → σ → Prop} {s : σ} {c : Call}

/-- 命令を送っても、読んでも、data 用に繋いでも、`R` の先へしか進まない。 -/
structure Keeps (P : Peer σ) (R : σ → σ → Prop) : Prop where
  refl : ∀ s, R s s
  trans : ∀ {s t u}, R s t → R t u → R s u
  send : ∀ s cmd, R s (P.send s cmd).2
  recv : ∀ s, R s (P.recv s).2
  connect : ∀ s r, R s (P.connect s r).2

theorem Keeps.sendcmdRe (h : Keeps P R) (cmd : Bytes) (s : σ) : R s (ftpSendcmdRe P cmd s).2 := by
  have hsend := h.send s cmd
  simp only [ftpSendcmdRe]
  split
  · have hread := h.trans hsend (h.recv (P.send s cmd).2)
    simp only [recv512]
    split <;> exact hread
  · exact hsend

theorem Keeps.sendcmd (h : Keeps P R) (cmd : Bytes) (s : σ) : R s (ftpSendcmd P cmd s).2 :=
  h.sendcmdRe cmd s

theorem Keeps.pasvConnect (h : Keeps P R) (s : σ) : R s (ftpPasvConnect P s).2 :=
  h.trans (h.sendcmdRe _ s) (h.connect _ _)

theorem Keeps.transferEnd (h : Keeps P R) (cmd : Bytes) (completed : Bool) (s : σ) :
    R s (transferEnd P cmd completed s) := by
  have hcmd := h.sendcmd cmd s
  simp only [Ftp.transferEnd]
  split
  · exact hcmd
  · split
    · exact hcmd
    · exact h.trans hcmd (h.recv _)

theorem Keeps.file (h : Keeps P R) (s : σ) (cmd : Bytes) (completed : Bool) :
    R (ftpType P (ascii "I") s).2
      (if (fileConnection P s).1 = false then (fileConnection P s).2
        else Ftp.transferEnd P cmd completed (fileConnection P s).2) := by
  have hpasv : R (ftpType P (ascii "I") s).2 (fileConnection P s).2 := h.pasvConnect _
  split
  · exact hpasv
  · exact h.trans hpasv (h.transferEnd cmd completed _)

/-- 命令を送る呼び出しは、初めに命令を一つ送って応答を一つ読む。 -/
theorem Keeps.talks (h : Keeps P R) (hon : c.OnConnection) (htalk : c.Talks) (s : σ) :
    ∃ cmd, R (ftpSendcmdRe P cmd s).2 (c.exec P s) := by
  cases c with
  | connect => exact hon.elim
  | quit => exact ⟨_, h.refl _⟩
  | datasock ready a b c d port =>
    simp only [Call.exec, if_pos (show ready = true from htalk)]
    exact ⟨_, h.refl _⟩
  | type mode => exact ⟨_, h.refl _⟩
  | cwd path => exact ⟨_, h.refl _⟩
  | cdup => exact ⟨_, h.refl _⟩
  | mkd path => exact ⟨_, h.refl _⟩
  | deletefile path => exact ⟨_, h.refl _⟩
  | deletefolder path => exact ⟨_, h.refl _⟩
  | renamefile src dst =>
    refine ⟨commandText "RNFR " src, ?_⟩
    simp only [Call.exec]
    split
    · exact h.refl _
    · exact h.sendcmd _ _
  | list init l path =>
    refine ⟨ascii "PASV\r\n", ?_⟩
    have hpasv : R (ftpSendcmdRe P (ascii "PASV\r\n") s).2 (ftpPasvConnect P s).2 := h.connect _ _
    simp only [Call.exec, ftpList_state]
    split
    · exact hpasv
    · exact h.trans hpasv (h.transferEnd _ _ _)
  | retrfile init f hshort src =>
    refine ⟨ascii "TYPE " ++ ascii "I" ++ ascii "\r\n", ?_⟩
    simp only [Call.exec, ftpRetrfile_state, show f.opened = true from htalk, Bool.true_eq_false,
      if_false]
    exact h.file s _ _
  | storfile init f hshort dst =>
    refine ⟨ascii "TYPE " ++ ascii "I" ++ ascii "\r\n", ?_⟩
    simp only [Call.exec, ftpStorfile_state, show f.opened = true from htalk, Bool.true_eq_false,
      if_false]
    exact h.file s _ _

/-- 命令を送らない呼び出しは、何も変えない。 -/
theorem exec_silent (hon : c.OnConnection) (htalk : ¬c.Talks) : c.exec P s = s := by
  cases c with
  | connect => exact hon.elim
  | datasock ready a b c d port => exact if_neg htalk
  | retrfile init f hshort src =>
    simp only [Call.exec, ftpRetrfile_state]
    exact if_pos (Bool.eq_false_iff.mpr htalk)
  | storfile init f hshort dst =>
    simp only [Call.exec, ftpStorfile_state]
    exact if_pos (Bool.eq_false_iff.mpr htalk)
  | _ => exact absurd trivial htalk

theorem Keeps.exec (h : Keeps P R) (hon : c.OnConnection) (s : σ) : R s (c.exec P s) := by
  by_cases htalk : c.Talks
  · obtain ⟨cmd, hrest⟩ := h.talks hon htalk s
    exact h.trans (h.sendcmdRe cmd s) hrest
  · rw [exec_silent hon htalk]
    exact h.refl s

theorem Keeps.converse {cs : List Call} (h : Keeps P R) (hon : ∀ c ∈ cs, c.OnConnection) (s : σ) :
    R s (converse P s cs) := by
  induction cs generalizing s with
  | nil => exact h.refl s
  | cons c cs ih =>
    obtain ⟨hc, hcs⟩ := List.forall_mem_cons.mp hon
    exact h.trans (h.exec hc s) (ih hcs _)

end Keeps

end RecordServer.Ftp
