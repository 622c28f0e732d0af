import RecordServer.Ftp.DataAddress
import Mathlib.Data.List.GetD
import Mathlib.Data.List.TakeWhile

/-!
# PORT の数を PASV の規則で読むと元に戻るか

* `scanFields_commaList` — `,` で区切って書いた数は、そのまま読める
* `portNumbers_ofNetwork` — 番地は書いた順に並び、port は二つの byte が入れ替わる
* `port_pasv_inverse_iff` — 元に戻るのは、port の上の byte と下の byte が等しいときに限る
-/

namespace RecordServer.Ftp

open Infra

/-- PORT 命令の六つの数を書いた応答を読むと、元の番地と port になる。 -/
def Inverse (a b c d : UInt8) (port : UInt16) : Prop :=
  ∀ (init : Nat → Int) (text tail : Bytes), text ≠ [] → 0 ∉ text → 40 ∉ text →
    pasvTarget init (some (text ++ 40 ::
        (commaList (portNumbers (SockaddrIn.ofNetwork a b c d port).sAddr
          (SockaddrIn.ofNetwork a b c d port).sinPort) ++ 41 :: tail)))
      = (dotted a.toNat b.toNat c.toNat d.toNat, (port.toNat : Int))

/-! ## 数を読む -/

theorem takeWhile_digits {n : Nat} {sep : UInt8} (hsep : ¬IsDigit sep) (s : Bytes) :
    (ascii (Nat.repr n) ++ sep :: s).takeWhile (IsDigit ·) = ascii (Nat.repr n) := by
  rw [List.takeWhile_append_of_pos fun b hb => decide_eq_true (digits_repr n b hb),
    List.takeWhile_cons_of_neg (by simpa using hsep), List.append_nil]

theorem dropWhile_digits {n : Nat} {sep : UInt8} (hsep : ¬IsDigit sep) (s : Bytes) :
    (ascii (Nat.repr n) ++ sep :: s).dropWhile (IsDigit ·) = sep :: s := by
  rw [List.dropWhile_append_of_pos fun b hb => decide_eq_true (digits_repr n b hb),
    List.dropWhile_cons_of_neg (by simpa using hsep)]

/-- `int` に入る数は、書いたとおりに読める。 -/
theorem scanD_repr {n : Nat} (hn : n < 2 ^ 31) {sep : UInt8} (hsep : ¬IsDigit sep) (s : Bytes) :
    scanD (ascii (Nat.repr n) ++ sep :: s) = some ((n : Int), sep :: s) := by
  obtain ⟨b, w, hw⟩ := List.exists_cons_of_ne_nil (repr_ne_nil n)
  have hb : IsDigit b := digits_repr n b (by rw [hw]; exact List.mem_cons_self)
  have hspace : isSpace b = false := by
    have hge : 48 ≤ b := hb.1
    rw [isSpace, decide_eq_false_iff_not]
    rintro (rfl | ⟨-, h⟩)
    · exact absurd hge (by decide)
    · exact absurd (UInt8.le_trans hge h) (by decide)
  have hdrop : (ascii (Nat.repr n) ++ sep :: s).dropWhile isSpace = ascii (Nat.repr n) ++ sep :: s := by
    rw [hw, List.cons_append, List.dropWhile_cons, hspace]
    rfl
  have hread : unsignedD false (ascii (Nat.repr n) ++ sep :: s) = some (n : Int) := by
    simp only [unsignedD, takeWhile_digits hsep, decValue_repr]
    rw [if_neg (by simpa using repr_ne_nil n)]
    have hint : toInt (n : Int) = n := by
      rw [toInt, min_eq_left (by omega), max_eq_right (by omega)]
      exact Int.bmod_eq_of_le (by omega) (by omega)
    simpa using hint
  rw [scanD, hdrop]
  split
  · next s' heq =>
    rw [hw, List.cons_append] at heq
    cases (List.cons.inj heq).1
    exact absurd hb.1 (by decide)
  · next s' heq =>
    rw [hw, List.cons_append] at heq
    cases (List.cons.inj heq).1
    exact absurd hb.1 (by decide)
  · rw [hread, dropWhile_digits hsep]
    rfl

theorem commaList_cons_cons (n m : Nat) (ns : List Nat) :
    commaList (n :: m :: ns) = ascii (Nat.repr n) ++ 44 :: commaList (m :: ns) := rfl

/-- `,` で区切って書いた数は、そのまま読める。 -/
theorem scanFields_commaList {ns : List Nat} (hne : ns ≠ []) (hns : ∀ n ∈ ns, n < 2 ^ 31) {sep : UInt8}
    (hsep : ¬IsDigit sep) (hcomma : sep ≠ 44) (s : Bytes) :
    scanFields ns.length (commaList ns ++ sep :: s) = ns.map Int.ofNat := by
  induction ns with
  | nil => exact absurd rfl hne
  | cons n ns ih =>
    obtain ⟨hn, hns⟩ := List.forall_mem_cons.mp hns
    cases ns with
    | nil =>
      rw [commaList, List.length_cons, scanFields, scanD_repr hn hsep]
      split
      · contradiction
      · next h =>
        cases h
        exact absurd rfl hcomma
      · next h =>
        cases h
        rfl
    | cons m ns =>
      rw [commaList_cons_cons, List.length_cons, scanFields, List.append_assoc, List.cons_append,
        scanD_repr hn (show ¬IsDigit 44 by decide)]
      simp only
      rw [ih (List.cons_ne_nil m ns) hns]
      rfl

theorem zero_not_mem_commaList (ns : List Nat) : 0 ∉ commaList ns := by
  have hrepr : ∀ n, 0 ∉ ascii (Nat.repr n) := fun n h => absurd (digits_repr n 0 h).1 (by decide)
  induction ns with
  | nil => simp [commaList]
  | cons n ns ih =>
    cases ns with
    | nil => exact hrepr n
    | cons m ns =>
      rw [commaList_cons_cons, List.mem_append, List.mem_cons]
      rintro (h | h | h)
      · exact hrepr n h
      · exact absurd h (by decide)
      · exact ih h

/-- 応答の `(` から後に書いた六つの数が読める。 -/
theorem pasvFields_reply {ns : List Nat} (hlen : ns.length = 6) (hns : ∀ n ∈ ns, n < 2 ^ 31)
    {text : Bytes} (hne : text ≠ []) (hzero : 0 ∉ text) (hopen : 40 ∉ text) (tail : Bytes) :
    pasvFields (text ++ 40 :: (commaList ns ++ 41 :: tail)) = ns.map Int.ofNat := by
  have hcstr : cstr (text ++ 40 :: (commaList ns ++ 41 :: tail))
      = text ++ 40 :: (commaList ns ++ 41 :: cstr tail) := by
    have hne0 : ∀ {s : Bytes}, 0 ∉ s → ∀ b ∈ s, decide (b ≠ 0) = true := fun hs b hb =>
      decide_eq_true fun h => hs (h ▸ hb)
    rw [cstr, List.takeWhile_append_of_pos (hne0 hzero), List.takeWhile_cons, if_pos (by decide),
      List.takeWhile_append_of_pos (hne0 (zero_not_mem_commaList ns)), List.takeWhile_cons,
      if_pos (by decide)]
    rfl
  have hbefore : ∀ b ∈ text, decide (b ≠ 40) = true := fun b hb =>
    decide_eq_true fun h => hopen (h ▸ hb)
  have htake : (text ++ 40 :: (commaList ns ++ 41 :: cstr tail)).takeWhile (· ≠ 40) = text := by
    rw [List.takeWhile_append_of_pos hbefore, List.takeWhile_cons, if_neg (by decide), List.append_nil]
  have hdrop : (text ++ 40 :: (commaList ns ++ 41 :: cstr tail)).dropWhile (· ≠ 40)
      = 40 :: (commaList ns ++ 41 :: cstr tail) := by
    rw [List.dropWhile_append_of_pos hbefore, List.dropWhile_cons, if_neg (by decide)]
  rw [pasvFields, hcstr, htake, hdrop, if_neg hne]
  have hfields := scanFields_commaList (List.ne_nil_of_length_pos (by omega)) hns
    (show ¬IsDigit 41 by decide) (by decide) (cstr tail)
  rwa [hlen] at hfields

/-! ## 書いた数 -/

/-- mask して下ろすと、その位置の byte になる。 -/
theorem mask_byte (n k : Nat) : (n &&& 0xFF <<< k) >>> k = n / 2 ^ k % 256 := by
  rw [Nat.shiftRight_and_distrib, Nat.shiftLeft_shiftRight, Nat.shiftRight_eq_div_pow]
  exact Nat.and_two_pow_sub_one_eq_mod _ 8

/-- 六つの数は、番地の四つの byte と、入れ替わった port の二つの byte である。 -/
theorem portNumbers_ofNetwork (a b c d : UInt8) (port : UInt16) :
    portNumbers (SockaddrIn.ofNetwork a b c d port).sAddr (SockaddrIn.ofNetwork a b c d port).sinPort
      = [a.toNat, b.toNat, c.toNat, d.toNat, port.toNat % 256, port.toNat / 256] := by
  have ha := a.toNat_lt
  have hb := b.toNat_lt
  have hc := c.toNat_lt
  have hd := d.toNat_lt
  have hport := port.toNat_lt
  have hmask := mask_byte (SockaddrIn.ofNetwork a b c d port).sAddr
  have hlow := Nat.and_two_pow_sub_one_eq_mod (SockaddrIn.ofNetwork a b c d port).sAddr 8
  have hport_low := Nat.and_two_pow_sub_one_eq_mod (SockaddrIn.ofNetwork a b c d port).sinPort 8
  have hsum : (SockaddrIn.ofNetwork a b c d port).sAddr
      = a.toNat + 256 * (b.toNat + 256 * (c.toNat + 256 * d.toNat)) := by
    simp [SockaddrIn.ofNetwork, littleEndian]
  have hswap : (SockaddrIn.ofNetwork a b c d port).sinPort
      = port.toNat / 256 + 256 * (port.toNat % 256) := by
    simp only [SockaddrIn.ofNetwork, littleEndian, UInt8.toNat_ofNat']
    omega
  rw [portNumbers, show (0x000000FF : Nat) = 2 ^ 8 - 1 by decide, hlow,
    show (0x0000FF00 : Nat) = 0xFF <<< 8 by decide, hmask,
    show (0x00FF0000 : Nat) = 0xFF <<< 16 by decide, hmask,
    show (0xFF000000 : Nat) = 0xFF <<< 24 by decide, hmask, hport_low, Nat.shiftRight_eq_div_pow,
    hsum, hswap]
  simp only [List.cons.injEq, and_true]
  refine ⟨?_, ?_, ?_, ?_, ?_, ?_⟩ <;> omega

/-- 応答を読んだ結果。番地は元のままで、port は二つの byte が入れ替わっている。 -/
theorem pasvTarget_portNumbers (a b c d : UInt8) (port : UInt16) (init : Nat → Int) {text : Bytes}
    (hne : text ≠ []) (hzero : 0 ∉ text) (hopen : 40 ∉ text) (tail : Bytes) :
    pasvTarget init (some (text ++ 40 ::
        (commaList (portNumbers (SockaddrIn.ofNetwork a b c d port).sAddr
          (SockaddrIn.ofNetwork a b c d port).sinPort) ++ 41 :: tail)))
      = (dotted a.toNat b.toNat c.toNat d.toNat,
          ((port.toNat % 256 * 256 + port.toNat / 256 : Nat) : Int)) := by
  have hport := port.toNat_lt
  rw [portNumbers_ofNetwork]
  have hns : ∀ n ∈ [a.toNat, b.toNat, c.toNat, d.toNat, port.toNat % 256, port.toNat / 256],
      n < 2 ^ 31 := by
    have ha := a.toNat_lt
    have hb := b.toNat_lt
    have hc := c.toNat_lt
    have hd := d.toNat_lt
    simp only [List.forall_mem_cons, List.not_mem_nil, false_imp_iff, implies_true, and_true]
    omega
  have hfields := pasvFields_reply rfl hns hne hzero hopen tail
  rw [pasvTarget, Option.map_some, Option.getD_some, hfields]
  simp only [List.map_cons, List.map_nil, List.getD_cons_zero, List.getD_cons_succ, Int.ofNat_eq_natCast]
  rw [Int.bmod_eq_of_le (by omega) (by omega)]
  rfl

/-- **PORT の数から元の番地と port が読めるのは、port の上の byte と下の byte が等しいときに限る。** -/
theorem port_pasv_inverse_iff (a b c d : UInt8) (port : UInt16) :
    Inverse a b c d port ↔ port.toNat / 256 = port.toNat % 256 := by
  have hport := port.toNat_lt
  constructor
  · intro h
    have hread := h (fun _ => 0) (ascii "227 ") [] (by decide) (by decide) (by decide)
    rw [pasvTarget_portNumbers a b c d port _ (by decide) (by decide) (by decide)] at hread
    have hvalue := congrArg Prod.snd hread
    simp only at hvalue
    omega
  · intro h init text tail hne hzero hopen
    rw [pasvTarget_portNumbers a b c d port _ hne hzero hopen]
    refine Prod.ext rfl ?_
    simp only
    omega

/-- 待ち受ける port 2021 は、58631 と読まれる。 -/
theorem port_2021_swapped : ¬Inverse 192 168 0 1 2021 := by
  intro h
  have hread := h (fun _ => 0) (ascii "227 ") [] (by decide) (by decide) (by decide)
  rw [pasvTarget_portNumbers 192 168 0 1 2021 _ (by decide) (by decide) (by decide)] at hread
  exact absurd (congrArg Prod.snd hread) (by decide)

end RecordServer.Ftp
