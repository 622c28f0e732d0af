import RecordServer.Ftp.FixedBuffers
import RecordServer.Ftp.Properties.PortPasv

/-!
# 固定長の buffer に収まるか

引数は長さを確かめずに `sprintf` に渡される。応答は 512 byte まで受け取り、`ftp_sendcmd_re` は受け取れなかったときだけを見て
`buf[len] = 0` を書く。ほかの三つの関数はそれも見ない。

* `AllInside` — 書き込みはみな buffer の中である
* `ReplyShort` / `FinalShort` — 応答の終わりに 0 を置く余地がある
* `Call.Fits` — 呼び出しごとの、引数の長さと応答の長さの条件
* `fixed_buffers_iff` — どの呼び出しの並びでも、書き込みが収まるのは、その条件が成り立つときに限る
* `failed_recv_before_buffer` — 繋いだ直後の `recv` が失敗すると、`buf[-1]` に書く
-/

namespace RecordServer.Ftp

open Infra

/-- 書き込みはみな buffer の中である。 -/
def AllInside (ws : List Store) : Prop := ∀ w ∈ ws, w.Inside

@[simp] theorem allInside_nil : AllInside [] := fun _ h => absurd h List.not_mem_nil

@[simp] theorem allInside_cons {w : Store} {ws : List Store} :
    AllInside (w :: ws) ↔ w.Inside ∧ AllInside ws := List.forall_mem_cons

@[simp] theorem allInside_append {ws ws' : List Store} :
    AllInside (ws ++ ws') ↔ AllInside ws ∧ AllInside ws' := List.forall_mem_append

/-! ## 条件 -/

section Conditions

variable {σ : Type} (P : Peer σ)

/-- 命令を送れたなら、応答は 512 byte に届かない。 -/
def ReplyShort (cmd : Bytes) (s : σ) : Prop :=
  (P.send s cmd).1 = true → recvLen (recv512 P (P.send s cmd).2).1 < 512

/-- 受け取れて、512 byte に届かない。 -/
def FinalShort (s : σ) : Prop := 0 ≤ recvLen (recv512 P s).1 ∧ recvLen (recv512 P s).1 < 512

/-- 命令の引数は `n` byte までで、応答は短い。 -/
def CommandFits (n : Nat) (verb : String) (arg : Bytes) (s : σ) : Prop :=
  (cstr arg).length ≤ n ∧ ReplyShort P (commandText verb arg) s

/-- `login_server`。password を送るのは、331 を受けたときだけである。 -/
def LoginFits (user pwd : Bytes) (s : σ) : Prop :=
  let r := ftpSendcmd P (commandText "USER " user) s
  CommandFits P 120 "USER " user s ∧ (r.1 = 331 → CommandFits P 120 "PASS " pwd r.2)

/-- 転送の命令と、その後の応答。`moved` は、data を最後まで運べたかどうかである。 -/
def TransferFits (verb : String) (arg : Bytes) (moved : Prop) (s : σ) : Prop :=
  let c := ftpPasvConnect P s
  let r := ftpSendcmd P (commandText verb arg) c.2
  ReplyShort P (ascii "PASV\r\n") s ∧
    (c.1 = true → CommandFits P 504 verb arg c.2 ∧ (r.1 < 300 → r.1 ≠ 0 → moved → FinalShort P r.2))

/-- 呼び出しごとの条件。 -/
def Call.Fits (s : σ) : Call → Prop
  | .connect sock buf result user pwd =>
    let c := connectServer P sock buf result s
    sock ≠ -1 → FinalShort P s ∧ (c.1 ≠ -1 → LoginFits P user pwd c.2)
  | .quit => ReplyShort P (ascii "QUIT\r\n") s
  | .datasock ready a b c d port =>
    let sin := SockaddrIn.ofNetwork a b c d port
    ready = true → ReplyShort P (portCommand sin sin) s
  | .type mode => ReplyShort P (cstr (typeText mode)) s
  | .cwd path => CommandFits P 121 "CWD " path s
  | .cdup => ReplyShort P (ascii "CDUP\r\n") s
  | .mkd path => CommandFits P 505 "MKD " path s
  | .list _ _ path => TransferFits P "LIST " path True s
  | .retrfile _ f _ src =>
    f.opened = true → ReplyShort P (cstr (typeText 73)) s ∧
      TransferFits P "RETR " src ((moveLoop f.recvs none).completed = true)
        (ftpType P (ascii "I") s).2
  | .storfile _ f _ dst =>
    f.opened = true → ReplyShort P (cstr (typeText 73)) s ∧
      TransferFits P "STOR " dst ((moveLoop f.reads none).completed = true)
        (ftpType P (ascii "I") s).2
  | .renamefile src dst =>
    let r := ftpSendcmd P (commandText "RNFR " src) s
    CommandFits P 504 "RNFR " src s ∧ (r.1 = 350 → CommandFits P 504 "RNTO " dst r.2)
  | .deletefile path => CommandFits P 504 "DELE " path s
  | .deletefolder path => CommandFits P 505 "RMD " path s

/-- 呼び出しを順に行う間、条件が成り立つ。 -/
def SessionFits : List Call → σ → Prop
  | [], _ => True
  | c :: cs, s => c.Fits P s ∧ SessionFits cs (c.exec P s)

end Conditions

/-! ## 書き込み一つ -/

section One

variable {cap n : Nat} {text arg : Bytes} {len : Int}

theorem sprintf_inside : (sprintfStore cap text).Inside ↔ text.length < cap := by
  refine Span.within_iff.trans ?_
  show text.length + 1 = 0 ∨ (0 : Int) ≤ 0 ∧ (0 : Int) + (text.length + 1 : Nat) ≤ cap ↔ _
  omega

theorem bzero_inside : (bzeroStore cap).Inside := by
  refine Span.within_iff.mpr (.inr ?_)
  show (0 : Int) ≤ 0 ∧ (0 : Int) + cap ≤ cap
  omega

theorem fill_inside (h : n ≤ 512) : (fillStore n).Inside := by
  refine Span.within_iff.mpr (.inr ?_)
  show (0 : Int) ≤ 0 ∧ (0 : Int) + n ≤ (512 : Nat)
  omega

theorem end_inside : (endStore len).Inside ↔ 0 ≤ len ∧ len < 512 := by
  refine Span.within_iff.trans ?_
  show 1 = 0 ∨ (0 : Int) ≤ len ∧ len + (1 : Nat) ≤ (512 : Nat) ↔ _
  omega

theorem commandText_length (verb : String) (arg : Bytes) :
    (commandText verb arg).length = (ascii verb).length + (cstr arg).length + 2 := by
  rw [commandText, List.length_append, List.length_append]
  rfl

end One

section Commands

variable {σ : Type} {P : Peer σ} {cmd arg : Bytes} {s : σ} {cap n : Nat} {verb : String}

theorem recv_length (P : Peer σ) (s : σ) : ((recv512 P s).1.getD []).length ≤ 512 := by
  show (((P.recv s).1.map (·.take 512)).getD []).length ≤ 512
  cases (P.recv s).1 with
  | none => exact Nat.zero_le _
  | some w => exact List.length_take_le 512 w

/-- 応答が 512 byte に届かなければ、写すのも 512 byte に収まる。 -/
theorem sendcmdRe_inside : AllInside (ftpSendcmdReStores P 512 cmd s) ↔ ReplyShort P cmd s := by
  unfold ftpSendcmdReStores ReplyShort
  simp only
  by_cases hsend : (P.send s cmd).1 = true
  · rw [if_pos hsend, forall_prop_of_true hsend, allInside_cons,
      and_iff_right (fill_inside (recv_length P _))]
    by_cases hone : recvLen (recv512 P (P.send s cmd).2).1 < 1
    · rw [if_pos hone]
      exact iff_of_true allInside_nil (by omega)
    · rw [if_neg hone, allInside_cons, allInside_cons, end_inside, sprintf_inside]
      constructor
      · exact fun h => h.1.2
      · intro hshort
        refine ⟨⟨by omega, hshort⟩, ?_, allInside_nil⟩
        have hcopy := (List.takeWhile_prefix (p := fun b => decide (b ≠ 0))
          (l := (recv512 P (P.send s cmd).2).1.getD [])).length_le
        cases h : (recv512 P (P.send s cmd).2).1 with
        | none => decide
        | some w =>
          rw [h] at hshort hcopy
          simp only [recvLen] at hshort
          exact Nat.lt_of_le_of_lt hcopy (by simpa using hshort)
  · rw [if_neg hsend]
    exact iff_of_true allInside_nil fun h => absurd h hsend

theorem send_inside : AllInside (sendStores P cap cmd s) ↔ cmd.length < cap ∧ ReplyShort P cmd s := by
  rw [sendStores, allInside_cons, sprintf_inside, ftpSendcmdStores, sendcmdRe_inside]

/-- 命令の固定の部分と終端を除いた `n` byte までが書ける。 -/
theorem command_inside (hcap : (ascii verb).length + n + 3 = cap) :
    AllInside (sendStores P cap (commandText verb arg) s) ↔ CommandFits P n verb arg s := by
  rw [send_inside, commandText_length, CommandFits]
  refine and_congr_left fun _ => ?_
  omega

theorem finalReply_inside : AllInside (finalReplyStores P s) ↔ FinalShort P s := by
  rw [finalReplyStores, allInside_cons, allInside_cons, allInside_cons, end_inside,
    and_iff_right bzero_inside, and_iff_right (fill_inside (recv_length P s)), FinalShort]
  exact and_iff_left allInside_nil

end Commands

/-! ## 数の書き方 -/

section Numbers

variable {n : Int} {s : Bytes}

/-- `int` に入る。 -/
def IsInt (n : Int) : Prop := -2 ^ 31 ≤ n ∧ n < 2 ^ 31

theorem isInt_bmod (n : Int) : IsInt (Int.bmod n (2 ^ 32)) := by
  have hlo := Int.le_bmod (x := n) (m := 2 ^ 32) (by decide)
  have hhi := Int.bmod_lt (x := n) (m := 2 ^ 32) (by decide)
  unfold IsInt
  omega

theorem unsignedD_isInt {neg : Bool} (h : unsignedD neg s = some n) : IsInt n := by
  simp only [unsignedD] at h
  split at h
  · cases h
  · obtain rfl := Option.some.inj h
    exact isInt_bmod _

theorem scanD_isInt {rest : Bytes} (h : scanD s = some (n, rest)) : IsInt n := by
  unfold scanD at h
  split at h <;>
  · obtain ⟨v, hv, heq⟩ := Option.map_eq_some_iff.mp h
    obtain ⟨rfl, -⟩ := Prod.mk.inj heq
    exact unsignedD_isInt hv

theorem scanFields_isInt (k : Nat) (s : Bytes) : ∀ v ∈ scanFields k s, IsInt v := by
  induction k generalizing s with
  | zero => simp [scanFields]
  | succ k ih =>
    intro v hv
    rw [scanFields] at hv
    split at hv
    · cases hv
    · rename_i w t hscan
      rcases List.mem_cons.mp hv with rfl | hv
      · exact scanD_isInt hscan
      · exact ih _ v hv
    · rename_i hscan
      obtain rfl := List.mem_singleton.mp hv
      exact scanD_isInt hscan

theorem pasvFields_isInt (s : Bytes) : ∀ v ∈ pasvFields s, IsInt v := by
  intro v hv
  unfold pasvFields at hv
  simp only at hv
  split at hv
  · cases hv
  · split at hv
    · exact scanFields_isInt _ _ v hv
    · cases hv

theorem printD_length (h : IsInt n) : (printD n).length ≤ 11 := by
  have habs : (ascii (Nat.repr n.natAbs)).length ≤ 10 :=
    length_repr_le (by decide) (by unfold IsInt at h; omega)
  unfold printD
  split
  · exact Nat.succ_le_succ habs
  · exact Nat.le_succ_of_le habs

/-- 番地の文字列は 48 byte に収まる。 -/
theorem pasvTarget_length {addr : Nat → Int} (haddr : ∀ i, IsInt (addr i)) (r : Option Bytes) :
    (pasvTarget addr r).1.length < 48 := by
  have hfield : ∀ i, IsInt (((r.map pasvFields).getD []).getD i (addr i)) := by
    intro i
    by_cases hi : i < ((r.map pasvFields).getD []).length
    · rw [List.getD_eq_getElem _ _ hi]
      have hmem := List.getElem_mem hi
      cases r with
      | none => cases hmem
      | some s => exact pasvFields_isInt s _ hmem
    · rw [List.getD_eq_default _ _ (Nat.le_of_not_lt hi)]
      exact haddr i
  have hlen := fun i => printD_length (hfield i)
  have h₀ := hlen 0
  have h₁ := hlen 1
  have h₂ := hlen 2
  have h₃ := hlen 3
  show (dotted _ _ _ _).length < 48
  unfold dotted
  simp only [List.length_append, List.length_cons]
  omega

/-- PORT 命令は 128 byte に収まる。 -/
theorem portCommand_length (a b c d : UInt8) (port : UInt16) :
    (portCommand (SockaddrIn.ofNetwork a b c d port) (SockaddrIn.ofNetwork a b c d port)).length
      < 128 := by
  have hbyte : ∀ {k : Nat}, k < 256 → (ascii (Nat.repr k)).length ≤ 3 := fun hk =>
    length_repr_le (by decide) (by omega)
  have ha := hbyte a.toNat_lt
  have hb := hbyte b.toNat_lt
  have hc := hbyte c.toNat_lt
  have hd := hbyte d.toNat_lt
  have hport := port.toNat_lt
  have hlow := hbyte (k := port.toNat % 256) (by omega)
  have hhigh := hbyte (k := port.toNat / 256) (by omega)
  rw [portCommand, portNumbers_ofNetwork]
  simp only [commaList, List.length_append, List.length_cons]
  have hverb : (ascii "PORT ").length = 5 := by decide
  have hcrlf : (ascii "\r\n").length = 2 := by decide
  omega

end Numbers

/-! ## 呼び出し -/

section Calls

variable {σ : Type} {P : Peer σ} {s : σ} {verb : String} {arg : Bytes} {init : Nat → Int}

theorem pasv_inside :
    AllInside (ftpPasvConnectStores P init s) ↔ ReplyShort P (ascii "PASV\r\n") s := by
  have htarget := pasvTarget_length (fun i => isInt_bmod (init i))
    (ftpSendcmdRe P (ascii "PASV\r\n") s).1
  rw [ftpPasvConnectStores]
  simp only [allInside_append, allInside_cons, allInside_nil, and_true, sprintf_inside,
    sendcmdRe_inside]
  refine ⟨fun h => h.1.2, fun h => ⟨⟨⟨bzero_inside, by decide⟩, h⟩, bzero_inside, ?_⟩⟩
  exact Nat.lt_trans htarget (by decide)

theorem type_inside (mode : UInt8) :
    AllInside (ftpTypeStores P mode s) ↔ ReplyShort P (cstr (typeText mode)) s := by
  have hlen : (typeText mode).length < 128 := by
    rw [typeText, List.length_append, List.length_append]
    show 5 + 1 + 2 < 128
    decide
  rw [ftpTypeStores, allInside_cons, sprintf_inside, ftpSendcmdStores, sendcmdRe_inside,
    and_iff_right hlen]

theorem login_inside (user pwd : Bytes) :
    AllInside (loginServerStores P user pwd s) ↔ LoginFits P user pwd s := by
  rw [loginServerStores, allInside_append, command_inside (n := 120) (by decide), LoginFits]
  refine and_congr_right fun _ => ?_
  split
  · rename_i h230
    exact iff_of_true allInside_nil fun h => absurd (h230.symm.trans h) (by decide)
  · split
    · rename_i h331
      rw [command_inside (n := 120) (by decide), forall_prop_of_true h331]
    · rename_i h331
      exact iff_of_true allInside_nil fun h => absurd h h331

/-- 命令を送った後の書き込み `tail` のほかは、命令の引数と二つの応答で決まる。 -/
theorem transfer_inside (hverb : (ascii verb).length = 5) {tail : List Store} {moved : Prop}
    (htail : AllInside tail ↔
      (moved → FinalShort P (ftpSendcmd P (commandText verb arg) (ftpPasvConnect P s).2).2)) :
    AllInside (ftpPasvConnectStores P init s ++
        if (ftpPasvConnect P s).1 = false then []
        else
          bzeroStore 512 :: sendStores P 512 (commandText verb arg) (ftpPasvConnect P s).2 ++
            if (ftpSendcmd P (commandText verb arg) (ftpPasvConnect P s).2).1 ≥ 300 ∨
              (ftpSendcmd P (commandText verb arg) (ftpPasvConnect P s).2).1 = 0 then []
            else tail) ↔
      TransferFits P verb arg moved s := by
  rw [allInside_append, pasv_inside, TransferFits]
  refine and_congr_right fun _ => ?_
  by_cases hconnect : (ftpPasvConnect P s).1 = true
  · rw [if_neg (by simp [hconnect]), forall_prop_of_true hconnect, allInside_append, allInside_cons,
      and_iff_right bzero_inside, command_inside (n := 504) (by rw [hverb])]
    refine and_congr_right fun _ => ?_
    split
    · rename_i hcode
      exact iff_of_true allInside_nil fun h300 h0 => by omega
    · rename_i hcode
      rw [htail]
      exact ⟨fun h _ _ => h, fun h => h (by omega) (by omega)⟩
  · rw [if_pos (by simpa using hconnect)]
    exact iff_of_true allInside_nil fun h => absurd h hconnect

theorem move_inside {ps : List Piece} (h : ∀ p ∈ ps, p.bytes.length ≤ 512) :
    AllInside (moveStores ps) := by
  induction ps with
  | nil => exact allInside_nil
  | cons p ps ih =>
    obtain ⟨hp, hps⟩ := List.forall_mem_cons.mp h
    rw [moveStores, allInside_cons]
    refine ⟨fill_inside hp, ?_⟩
    split
    · exact allInside_nil
    · exact ih hps

theorem list_inside (l : Listing) (path : Bytes) :
    AllInside (ftpListStores P init l path s) ↔ TransferFits P "LIST " path True s := by
  refine transfer_inside (by decide) ?_
  rw [allInside_append, finalReply_inside, forall_prop_of_true trivial, and_iff_right]
  intro w hw
  obtain ⟨b, hb, rfl⟩ := List.mem_map.mp hw
  exact fill_inside (l.short b hb)

theorem transferStores_inside (hverb : (ascii verb).length = 5) (opened : Bool) {ps : List Piece}
    (hps : ∀ p ∈ ps, p.bytes.length ≤ 512) :
    AllInside (transferStores P init opened verb arg ps s) ↔
      (opened = true → ReplyShort P (cstr (typeText 73)) s ∧
        TransferFits P verb arg ((moveLoop ps none).completed = true)
          (ftpType P (ascii "I") s).2) := by
  unfold transferStores
  cases opened with
  | false => exact iff_of_true allInside_nil nofun
  | true =>
    rw [if_neg nofun, forall_prop_of_true rfl, List.append_assoc, allInside_append, type_inside]
    refine and_congr_right fun _ => transfer_inside hverb ?_
    rw [allInside_append, allInside_cons, and_iff_right bzero_inside, and_iff_right (move_inside hps)]
    by_cases hmoved : (moveLoop ps none).completed = true
    · rw [if_neg (by simp [hmoved]), finalReply_inside, forall_prop_of_true hmoved]
    · rw [if_pos (by simpa using hmoved)]
      exact iff_of_true allInside_nil fun h => absurd h hmoved

theorem call_inside (c : Call) : AllInside (c.stores P s) ↔ c.Fits P s := by
  cases c with
  | connect sock buf result user pwd =>
    unfold Call.stores Call.Fits connectServerStores
    simp only
    by_cases hsock : sock = -1
    · have hfail : (connectServer P sock buf result s).1 = -1 := by
        rw [connectServer, if_pos hsock]
      rw [if_pos hsock, if_pos hfail]
      exact iff_of_true allInside_nil fun h => absurd hsock h
    · rw [if_neg hsock, forall_prop_of_true hsock, allInside_append, allInside_cons, allInside_cons,
        end_inside, and_iff_right (fill_inside (recv_length P s)), and_iff_left allInside_nil]
      refine and_congr_right fun _ => ?_
      split
      · rename_i hfail
        exact iff_of_true allInside_nil fun h => absurd hfail h
      · rename_i hok
        rw [login_inside, forall_prop_of_true hok]
  | quit => exact sendcmdRe_inside
  | datasock ready a b c d port =>
    cases ready with
    | false => exact iff_of_true allInside_nil nofun
    | true =>
      refine send_inside.trans ?_
      rw [and_iff_right (portCommand_length a b c d port)]
      exact ⟨fun h _ => h, fun h => h rfl⟩
  | type mode => exact type_inside mode
  | cwd path => exact command_inside (by decide)
  | cdup => exact sendcmdRe_inside
  | mkd path => exact command_inside (by decide)
  | list init l path => exact list_inside l path
  | retrfile init f short src => exact transferStores_inside (by decide) f.opened short
  | storfile init f short dst => exact transferStores_inside (by decide) f.opened short
  | renamefile src dst =>
    show AllInside (ftpRenamefileStores P src dst s) ↔ _
    rw [ftpRenamefileStores, allInside_append, command_inside (n := 504) (by decide)]
    refine and_congr_right fun _ => ?_
    by_cases h350 : (ftpSendcmd P (commandText "RNFR " src) s).1 = 350
    · rw [if_neg (not_not.mpr h350), forall_prop_of_true h350]
      exact command_inside (by decide)
    · rw [if_pos h350]
      exact iff_of_true allInside_nil fun h => absurd h h350
  | deletefile path => exact command_inside (by decide)
  | deletefolder path => exact command_inside (by decide)

end Calls

/-- **書き込みがみな buffer に収まるのは、引数と応答がどれもその長さまでのときに限る。** -/
theorem fixed_buffers_iff {σ : Type} (P : Peer σ) (cs : List Call) (s : σ) :
    AllInside (sessionStores P cs s) ↔ SessionFits P cs s := by
  induction cs generalizing s with
  | nil => exact iff_of_true allInside_nil trivial
  | cons c cs ih => rw [sessionStores, allInside_append, call_inside, ih, SessionFits]

/-- 繋がるが、何も返さない相手。 -/
def silentPeer : Peer Unit where
  send _ _ := (true, ())
  recv _ := (none, ())
  connect _ _ := (false, ())

/-- `connect_server` の `recv` が `-1` を返すと、`buf[-1]` に 0 を書く。 -/
theorem failed_recv_before_buffer :
    ¬AllInside (sessionStores silentPeer [.connect 3 [] 0 (ascii "u") (ascii "p")] ()) := by
  intro h
  have hmem : endStore (-1) ∈
      sessionStores silentPeer [.connect 3 [] 0 (ascii "u") (ascii "p")] () := by decide
  exact absurd (h _ hmem) (by decide)

end RecordServer.Ftp
