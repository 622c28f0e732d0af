import RecordServer.Ftp.FtpClient

/-!
# 転送が成功と言うとき

`ftp_storfile`、`ftp_retrfile`、`ftp_list` が `0` を返すのに転送が成功していないのは、
どんな応答のときか。失敗の戻り値が応答の番号と同じ比較に混ざるために、次のものが見逃される。

* 命令への応答に数が無いか `0` である
* 命令を送れないか、応答の番号が 100 より小さい
* `read` や `recv` の失敗が、終わりと区別されずに loop を終える
* 最後の応答が来ないか数を持たず、`result` に前の値が残っている

`transfers_sound_iff` は、正しさがこれらの無いことと同値であることを述べる。
-/

namespace RecordServer.Ftp

open Infra

/-! ## loop -/

/-- どの塊も全部が運ばれ、止められていない。 -/
def AllMoved (ps : List Piece) : Prop := ∀ p ∈ ps, p.moved = p.bytes.length ∧ p.stop = false

instance (ps : List Piece) : Decidable (AllMoved ps) := inferInstanceAs (Decidable (∀ p ∈ ps, _))

theorem moveLoop_completed (ps : List Piece) (size : Option Nat) :
    (moveLoop ps size).completed = true ↔ AllMoved ps := by
  induction ps generalizing size with
  | nil => simp [moveLoop, AllMoved]
  | cons p ps ih =>
    simp only [moveLoop]
    split
    · next h =>
      simp only [Bool.false_eq_true, AllMoved, List.forall_mem_cons, false_iff, not_and]
      intro hp
      rcases h with h | h
      · exact absurd hp.1 h
      · rw [hp.2] at h
        cases h
    · next h =>
      simp only [not_or, not_not, Bool.not_eq_true] at h
      simp only [ih, AllMoved, List.forall_mem_cons, h, and_self, true_and]

theorem moveLoop_bytes {ps : List Piece} (h : AllMoved ps) (size : Option Nat) :
    (moveLoop ps size).bytes = ps.flatMap Piece.bytes := by
  induction ps generalizing size with
  | nil => rfl
  | cons p ps ih =>
    obtain ⟨hp, hps⟩ := List.forall_mem_cons.mp h
    simp only [moveLoop]
    rw [if_neg (by simp [hp.1, hp.2]), List.flatMap_cons, ih hps]

theorem listLoop_buf (bs : List Bytes) (buf : Bytes) (cap : Nat) :
    (listLoop bs buf cap).1 = buf ++ bs.flatten := by
  induction bs generalizing buf cap with
  | nil => simp [listLoop]
  | cons b bs ih => simp [listLoop, ih]

/-! ## 環境の応答 -/

section Responses

variable {σ : Type} (P : Peer σ)

/-- `TYPE` と `PASV` の後、data 用の接続ができたかどうか。 -/
def fileConnection (s : σ) : Bool × σ := ftpPasvConnect P (ftpType P (ascii "I") s).2

/-- `STOR` または `RETR` への応答。 -/
def fileReply (cmd d : Bytes) (s : σ) : Option Bytes × σ :=
  ftpSendcmdRe P (cmd ++ d ++ ascii "\r\n") (fileConnection P s).2

/-- `LIST` への応答。 -/
def listReply (path : Bytes) (s : σ) : Option Bytes × σ :=
  ftpSendcmdRe P (ascii "LIST " ++ path ++ ascii "\r\n") (ftpPasvConnect P s).2

end Responses

/-- 応答が番号 `c` を持つ。 -/
def Answered (x : Option Bytes) (c : Int) : Prop := ∃ buf, x = some buf ∧ sscanfD buf = some c

theorem answered_of_sendcmdResult {x : Option Bytes} {c : Int} (h : sendcmdResult x = c)
    (hc : c ≠ 0) (hneg : c ≠ -1) : Answered x c := by
  cases x with
  | none => exact absurd h.symm hneg
  | some buf =>
    simp only [sendcmdResult] at h
    cases hs : sscanfD buf with
    | none =>
      rw [hs] at h
      exact absurd h.symm hc
    | some v => exact ⟨buf, rfl, by rw [hs, ← h, hs, Option.getD_some]⟩

theorem sendcmdResult_of_answered {x : Option Bytes} {c : Int} (h : Answered x c) :
    sendcmdResult x = c := by
  obtain ⟨buf, rfl, hs⟩ := h
  simp [sendcmdResult, hs]

/-! ## 見逃される失敗 -/

/-- 命令への応答が読めて、数が無いか `0` である。 -/
def ZeroReply (x : Option Bytes) : Prop := ∃ buf, x = some buf ∧ (sscanfD buf).getD 0 = 0

/-- `ftp_storfile` が見逃す応答の組。`x` は命令への応答、`fin` は最後の応答の数。 -/
def StorMistaken (f : Upload) (x : Option Bytes) (fin : Option Int) (result : Int) : Prop :=
  ZeroReply x ∨
    (sendcmdResult x < 300 ∧ sendcmdResult x ≠ 0 ∧ AllMoved f.reads ∧ fin.getD result < 300 ∧
      (sendcmdResult x < 100 ∨ f.reads.flatMap Piece.bytes ≠ f.file ∨ fin = none))

/-- `ftp_retrfile` が見逃す応答の組。 -/
def RetrMistaken (f : Download) (x : Option Bytes) (fin : Option Int) : Prop :=
  ZeroReply x ∨
    (sendcmdResult x < 300 ∧ sendcmdResult x ≠ 0 ∧ AllMoved f.recvs ∧
      fin.getD (sendcmdResult x) < 300 ∧
      (sendcmdResult x < 100 ∨ f.orderly = false ∨ fin = none))

/-- `ftp_list` が見逃す応答の組。最後の番号が `0` でも `0` を返す。 -/
def ListMistaken (l : Listing) (x : Option Bytes) (fin : Option Int) (result : Int) : Prop :=
  ZeroReply x ∨
    (sendcmdResult x < 300 ∧ sendcmdResult x ≠ 0 ∧
      (fin.getD result = 0 ∨
        (fin.getD result = 226 ∧ (sendcmdResult x < 100 ∨ l.orderly = false ∨ fin = none))))

theorem sendcmdResult_eq_zero {x : Option Bytes} : sendcmdResult x = 0 ↔ ZeroReply x := by
  cases x with
  | none => simp [sendcmdResult, ZeroReply]
  | some buf => simp [sendcmdResult, ZeroReply]

/-! ## 成功の意味 -/

section Sound

variable {σ : Type} (P : Peer σ)

/-- `ftp_storfile` が `0` を返すのは、命令が受け入れられ、file が全部送られ、最後の応答が来たときだけである。 -/
def StorSound (f : Upload) (d : Bytes) (size : Option Nat) (result : Int) (s : σ) : Prop :=
  (ftpStorfile P f d size result s).1 = 0 →
    (∃ c, Answered (fileReply P (ascii "STOR ") d s).1 c ∧ 100 ≤ c ∧ c < 300) ∧
      (ftpStorfile P f d size result s).2.1.bytes = f.file ∧
      ∃ v, (finalReply P (fileReply P (ascii "STOR ") d s).2).1 = some v ∧ v < 300

/-- `ftp_retrfile` が `0` を返すのは、命令が受け入れられ、終わりまで受け取って全部書き、最後の応答が来たときだけである。 -/
def RetrSound (f : Download) (d : Bytes) (size : Option Nat) (s : σ) : Prop :=
  (ftpRetrfile P f d size s).1 = 0 →
    (∃ c, Answered (fileReply P (ascii "RETR ") d s).1 c ∧ 100 ≤ c ∧ c < 300) ∧
      (f.orderly = true ∧ (ftpRetrfile P f d size s).2.1.bytes = f.recvs.flatMap Piece.bytes) ∧
      ∃ v, (finalReply P (fileReply P (ascii "RETR ") d s).2).1 = some v ∧ v < 300

/-- `ftp_list` が `0` を返すのは、さらに一覧を返し、最後の番号が 226 のときだけである。 -/
def ListSound (l : Listing) (path : Bytes) (result : Int) (s : σ) : Prop :=
  (ftpList P l path result s).1 = 0 →
    (∃ c, Answered (listReply P path s).1 c ∧ 100 ≤ c ∧ c < 300) ∧
      (l.orderly = true ∧
        (ftpList P l path result s).2.1 = some (l.chunks.flatten, l.chunks.flatten.length)) ∧
      (finalReply P (listReply P path s).2).1 = some 226

/-- 同じ比較を通った戻り値が `0` になる場合。 -/
theorem funnel_eq_zero {code last : Int} {completed : Bool} :
    (if code ≥ 300 ∨ code = 0 then code
      else if completed = false then -1 else if last ≥ 300 then last else 0) = 0 ↔
      code = 0 ∨ (code < 300 ∧ code ≠ 0 ∧ completed = true ∧ last < 300) := by
  grind

/-- `ftp_storfile` が `0` を返す応答の組。 -/
theorem ftpStorfile_eq_zero (f : Upload) (d : Bytes) (size : Option Nat) (result : Int) (s : σ) :
    (ftpStorfile P f d size result s).1 = 0 ↔
      (f.opened = true ∧ (fileConnection P s).1 = true) ∧
        (ZeroReply (fileReply P (ascii "STOR ") d s).1 ∨
          (sendcmdResult (fileReply P (ascii "STOR ") d s).1 < 300 ∧
            sendcmdResult (fileReply P (ascii "STOR ") d s).1 ≠ 0 ∧ AllMoved f.reads ∧
            (finalReply P (fileReply P (ascii "STOR ") d s).2).1.getD result < 300)) := by
  rw [← sendcmdResult_eq_zero, ← moveLoop_completed f.reads size, ← funnel_eq_zero]
  unfold ftpStorfile fileReply fileConnection ftpSendcmd
  simp only [apply_ite Prod.fst]
  cases f.opened <;> cases (ftpPasvConnect P (ftpType P (ascii "I") s).2).1 <;> simp

/-- `ftp_retrfile` が `0` を返す応答の組。 -/
theorem ftpRetrfile_eq_zero (f : Download) (d : Bytes) (size : Option Nat) (s : σ) :
    (ftpRetrfile P f d size s).1 = 0 ↔
      (f.opened = true ∧ (fileConnection P s).1 = true) ∧
        (ZeroReply (fileReply P (ascii "RETR ") d s).1 ∨
          (sendcmdResult (fileReply P (ascii "RETR ") d s).1 < 300 ∧
            sendcmdResult (fileReply P (ascii "RETR ") d s).1 ≠ 0 ∧ AllMoved f.recvs ∧
            (finalReply P (fileReply P (ascii "RETR ") d s).2).1.getD
              (sendcmdResult (fileReply P (ascii "RETR ") d s).1) < 300)) := by
  rw [← sendcmdResult_eq_zero, ← moveLoop_completed f.recvs size, ← funnel_eq_zero]
  unfold ftpRetrfile fileReply fileConnection ftpSendcmd
  simp only [apply_ite Prod.fst]
  cases f.opened <;> cases (ftpPasvConnect P (ftpType P (ascii "I") s).2).1 <;> simp

/-- `ftp_list` が `0` を返す応答の組。 -/
theorem ftpList_eq_zero (l : Listing) (path : Bytes) (result : Int) (s : σ) :
    (ftpList P l path result s).1 = 0 ↔
      (ftpPasvConnect P s).1 = true ∧
        (ZeroReply (listReply P path s).1 ∨
          (sendcmdResult (listReply P path s).1 < 300 ∧
            sendcmdResult (listReply P path s).1 ≠ 0 ∧
            ((finalReply P (listReply P path s).2).1.getD result = 0 ∨
              (finalReply P (listReply P path s).2).1.getD result = 226))) := by
  rw [← sendcmdResult_eq_zero]
  unfold ftpList listReply ftpSendcmd
  simp only [apply_ite Prod.fst]
  cases (ftpPasvConnect P s).1 with
  | false => simp
  | true => grind

/-- 全部を運び終えた `ftp_storfile` が送ったもの。 -/
theorem ftpStorfile_bytes {f : Upload} {d : Bytes} {size : Option Nat} {result : Int} {s : σ}
    (ho : f.opened = true) (hc : (fileConnection P s).1 = true)
    (h1 : sendcmdResult (fileReply P (ascii "STOR ") d s).1 < 300)
    (h2 : sendcmdResult (fileReply P (ascii "STOR ") d s).1 ≠ 0) (hm : AllMoved f.reads) :
    (ftpStorfile P f d size result s).2.1.bytes = f.reads.flatMap Piece.bytes := by
  unfold fileReply fileConnection at *
  unfold ftpStorfile ftpSendcmd
  have hcomp := (moveLoop_completed f.reads size).mpr hm
  simp only [apply_ite Prod.snd, ho, hc, hcomp, moveLoop_bytes hm, Bool.true_eq_false, if_false, h2,
    not_le.mpr h1, or_self, ge_iff_le, ite_self]

/-- 全部を運び終えた `ftp_retrfile` が書いたもの。 -/
theorem ftpRetrfile_bytes {f : Download} {d : Bytes} {size : Option Nat} {s : σ}
    (ho : f.opened = true) (hc : (fileConnection P s).1 = true)
    (h1 : sendcmdResult (fileReply P (ascii "RETR ") d s).1 < 300)
    (h2 : sendcmdResult (fileReply P (ascii "RETR ") d s).1 ≠ 0) (hm : AllMoved f.recvs) :
    (ftpRetrfile P f d size s).2.1.bytes = f.recvs.flatMap Piece.bytes := by
  unfold fileReply fileConnection at *
  unfold ftpRetrfile ftpSendcmd
  have hcomp := (moveLoop_completed f.recvs size).mpr hm
  simp only [apply_ite Prod.snd, ho, hc, hcomp, moveLoop_bytes hm, Bool.true_eq_false, if_false, h2,
    not_le.mpr h1, or_self, ge_iff_le, ite_self]

/-- 最後の番号が 226 の `ftp_list` が返すもの。 -/
theorem ftpList_data {l : Listing} {path : Bytes} {result : Int} {s : σ}
    (hc : (ftpPasvConnect P s).1 = true)
    (h1 : sendcmdResult (listReply P path s).1 < 300)
    (h2 : sendcmdResult (listReply P path s).1 ≠ 0)
    (hfin : (finalReply P (listReply P path s).2).1.getD result = 226) :
    (ftpList P l path result s).2.1 = some (l.chunks.flatten, l.chunks.flatten.length) := by
  unfold listReply at *
  unfold ftpList ftpSendcmd
  simp only [hc, listLoop_buf, hfin, Bool.true_eq_false, if_false, h2, not_le.mpr h1, or_self, ne_eq,
    not_true_eq_false, List.nil_append]

/-! ## 同値 -/

/-- 番号が `0` と読まれる応答は、100 以上の番号を持たない。 -/
theorem not_answered_of_zeroReply {x : Option Bytes} (h : ZeroReply x) :
    ¬∃ c, Answered x c ∧ 100 ≤ c ∧ c < 300 := by
  rintro ⟨c, hc, hlo, -⟩
  have := sendcmdResult_eq_zero.mpr h
  rw [sendcmdResult_of_answered hc] at this
  omega

/-- 受け入れの番号を持つことは、`ftp_sendcmd` の戻り値で決まる。 -/
theorem answered_iff {x : Option Bytes} :
    (∃ c, Answered x c ∧ 100 ≤ c ∧ c < 300) ↔ 100 ≤ sendcmdResult x ∧ sendcmdResult x < 300 := by
  constructor
  · rintro ⟨c, hc, hlo, hhi⟩
    rw [sendcmdResult_of_answered hc]
    exact ⟨hlo, hhi⟩
  · rintro ⟨hlo, hhi⟩
    exact ⟨_, answered_of_sendcmdResult rfl (by omega) (by omega), hlo, hhi⟩

theorem storSound_iff (f : Upload) (d : Bytes) (size : Option Nat) (result : Int) (s : σ) :
    StorSound P f d size result s ↔
      (f.opened = true → (fileConnection P s).1 = true →
        ¬StorMistaken f (fileReply P (ascii "STOR ") d s).1
          (finalReply P (fileReply P (ascii "STOR ") d s).2).1 result) := by
  unfold StorSound StorMistaken
  rw [ftpStorfile_eq_zero, answered_iff]
  constructor
  · rintro h ho hc (hz | ⟨h1, h2, hm, hlast, hbad⟩)
    · exact not_answered_of_zeroReply hz (answered_iff.mpr (h ⟨⟨ho, hc⟩, .inl hz⟩).1)
    · obtain ⟨hcode, hbytes, v, hv, -⟩ := h ⟨⟨ho, hc⟩, .inr ⟨h1, h2, hm, hlast⟩⟩
      rw [ftpStorfile_bytes P ho hc h1 h2 hm] at hbytes
      rcases hbad with hlow | hcut | hnone
      · omega
      · exact hcut hbytes
      · rw [hv] at hnone
        cases hnone
  · rintro h ⟨⟨ho, hc⟩, hz | ⟨h1, h2, hm, hlast⟩⟩
    · exact absurd (.inl hz) (h ho hc)
    · have hgood := h ho hc
      simp only [not_or, not_and, not_lt] at hgood
      obtain ⟨hlow, hcut, hnone⟩ := hgood.2 h1 h2 hm hlast
      obtain ⟨v, hv⟩ := Option.ne_none_iff_exists'.mp hnone
      rw [hv, Option.getD_some] at hlast
      rw [ftpStorfile_bytes P ho hc h1 h2 hm]
      exact ⟨⟨hlow, h1⟩, not_not.mp hcut, v, hv, hlast⟩

theorem retrSound_iff (f : Download) (d : Bytes) (size : Option Nat) (s : σ) :
    RetrSound P f d size s ↔
      (f.opened = true → (fileConnection P s).1 = true →
        ¬RetrMistaken f (fileReply P (ascii "RETR ") d s).1
          (finalReply P (fileReply P (ascii "RETR ") d s).2).1) := by
  unfold RetrSound RetrMistaken
  rw [ftpRetrfile_eq_zero, answered_iff]
  constructor
  · rintro h ho hc (hz | ⟨h1, h2, hm, hlast, hbad⟩)
    · exact not_answered_of_zeroReply hz (answered_iff.mpr (h ⟨⟨ho, hc⟩, .inl hz⟩).1)
    · obtain ⟨hcode, ⟨hord, -⟩, v, hv, -⟩ := h ⟨⟨ho, hc⟩, .inr ⟨h1, h2, hm, hlast⟩⟩
      rcases hbad with hlow | hcut | hnone
      · omega
      · rw [hord] at hcut
        cases hcut
      · rw [hv] at hnone
        cases hnone
  · rintro h ⟨⟨ho, hc⟩, hz | ⟨h1, h2, hm, hlast⟩⟩
    · exact absurd (.inl hz) (h ho hc)
    · have hgood := h ho hc
      simp only [not_or, not_and, not_lt, Bool.not_eq_false] at hgood
      obtain ⟨hlow, hord, hnone⟩ := hgood.2 h1 h2 hm hlast
      obtain ⟨v, hv⟩ := Option.ne_none_iff_exists'.mp hnone
      rw [hv, Option.getD_some] at hlast
      exact ⟨⟨hlow, h1⟩, ⟨hord, ftpRetrfile_bytes P ho hc h1 h2 hm⟩, v, hv, hlast⟩

theorem listSound_iff (l : Listing) (path : Bytes) (result : Int) (s : σ) :
    ListSound P l path result s ↔
      ((ftpPasvConnect P s).1 = true →
        ¬ListMistaken l (listReply P path s).1 (finalReply P (listReply P path s).2).1 result) := by
  unfold ListSound ListMistaken
  rw [ftpList_eq_zero, answered_iff]
  constructor
  · rintro h hc (hz | ⟨h1, h2, hbad⟩)
    · exact not_answered_of_zeroReply hz (answered_iff.mpr (h ⟨hc, .inl hz⟩).1)
    · obtain ⟨hcode, ⟨hord, -⟩, hfin⟩ := h ⟨hc, .inr ⟨h1, h2, hbad.imp_right And.left⟩⟩
      rw [hfin] at hbad
      rcases hbad with hzero | ⟨-, hlow | hcut | hnone⟩
      · simp at hzero
      · omega
      · rw [hord] at hcut
        cases hcut
      · cases hnone
  · rintro h ⟨hc, hz | ⟨h1, h2, hlast⟩⟩
    · exact absurd (.inl hz) (h hc)
    · have hgood := h hc
      simp only [not_or, not_and, not_lt, Bool.not_eq_false] at hgood
      obtain ⟨hzero, hrest⟩ := hgood.2 h1 h2
      have hfin := hlast.resolve_left hzero
      obtain ⟨hlow, hord, hnone⟩ := hrest hfin
      obtain ⟨v, hv⟩ := Option.ne_none_iff_exists'.mp hnone
      refine ⟨⟨hlow, h1⟩, ⟨hord, ftpList_data P hc h1 h2 hfin⟩, ?_⟩
      rw [hv, Option.getD_some] at hfin
      rw [hv, hfin]

end Sound

/--
**`0` を返す転送が正しいのは、失敗が見逃されないとき、そのときに限る。**

どんな相手、どんな `send`・`recv`・`read`・`write` の結果についても、三つの関数それぞれで成り立つ。
-/
theorem transfers_sound_iff {σ : Type} (P : Peer σ) (s : σ) :
    (∀ (f : Upload) (d : Bytes) (size : Option Nat) (result : Int),
      StorSound P f d size result s ↔
        (f.opened = true → (fileConnection P s).1 = true →
          ¬StorMistaken f (fileReply P (ascii "STOR ") d s).1
            (finalReply P (fileReply P (ascii "STOR ") d s).2).1 result)) ∧
      (∀ (f : Download) (d : Bytes) (size : Option Nat),
        RetrSound P f d size s ↔
          (f.opened = true → (fileConnection P s).1 = true →
            ¬RetrMistaken f (fileReply P (ascii "RETR ") d s).1
              (finalReply P (fileReply P (ascii "RETR ") d s).2).1)) ∧
      ∀ (l : Listing) (path : Bytes) (result : Int),
        ListSound P l path result s ↔
          ((ftpPasvConnect P s).1 = true →
            ¬ListMistaken l (listReply P path s).1 (finalReply P (listReply P path s).2).1 result) :=
  ⟨fun f d size result => storSound_iff P f d size result s,
    fun f d size => retrSound_iff P f d size s,
    fun l path result => listSound_iff P l path result s⟩

/-- 決まった応答を順に返す相手。 -/
def scripted : Peer (List Bytes) where
  send s _ := (true, s)
  recv s := (s.head?, s.tail)
  connect s _ := (true, s)

/-- 一 byte の file。 -/
def oneByte : Upload := ⟨true, [1], [⟨[1], 1, false⟩], List.prefix_refl _⟩

/-- `STOR` への応答に数が無ければ、何も送らずに `0` を返す。 -/
theorem stor_zero_without_number :
    ¬StorSound scripted oneByte (ascii "x") none 0
      [ascii "200 ok", ascii "227 ok", ascii "no such command"] := by
  intro h
  have := (h (by decide +kernel)).2.1
  revert this
  decide +kernel

end RecordServer.Ftp
