import RecordServer.Ftp.Segmented

/-!
# 戻り値は区切り方によらないか

どの関数も塊を一つだけ読み、その先頭の数を番号とみなす。挨拶の番号が 220 なら、
一 byte だけ届いた接続は失敗し、番号まで届いた接続は成功する。220 でなければ、どう区切っても失敗する。

* `sscanfD_digits` — 数字で始まる byte 列から読まれる数
* `parse_take` — 応答の先頭の一部分から読まれる数
* `segmentation_iff` — 戻り値が区切り方によらないことと、接続が受け入れられないこととの同値
-/

namespace RecordServer.Ftp

open Infra

/-! ## 番号の読み取り -/

theorem digit_spec : ∀ k < 10, IsDigit (digit k) ∧ (digit k).toNat - 48 = k := by decide

/-- 数字は空白でも符号でも NUL でもない。 -/
theorem isDigit_ne {b : UInt8} (h : IsDigit b) :
    b ≠ 0 ∧ b ≠ 43 ∧ b ≠ 45 ∧ isSpace b = false := by
  simp only [IsDigit, isSpace, decide_eq_false_iff_not, UInt8.le_iff_toNat_le,
    ne_eq, ← UInt8.toNat_inj, UInt8.reduceToNat] at h ⊢
  omega

theorem toInt_of_small {n : Nat} (h : n < 1000) : toInt n = n := by
  have hclamp : max (-2 ^ 63) (min (n : Int) (2 ^ 63 - 1)) = n := by omega
  unfold toInt
  rw [hclamp]
  exact Int.bmod_eq_of_le (by omega) (by omega)

/-- 三桁までの数字で始まる byte 列から読まれる数。 -/
theorem sscanfD_digits (ds rest : Bytes) (n : Nat) (hne : ds ≠ [])
    (hds : Digits ds) (hrest : ∀ b, rest.head? = some b → ¬IsDigit b)
    (hval : decValue ds = n) (hn : n < 1000) :
    sscanfD (ds ++ rest) = some (n : Int) := by
  obtain ⟨d, ds', rfl⟩ := List.exists_cons_of_ne_nil hne
  have hd := isDigit_ne (hds d (by simp))
  have hcstr : cstr (d :: ds' ++ rest) = d :: ds' ++ cstr rest := by
    unfold cstr
    rw [List.takeWhile_append_of_pos]
    intro b hb
    simpa using (isDigit_ne (hds b hb)).1
  have htake : (d :: ds' ++ cstr rest).takeWhile (IsDigit ·) = d :: ds' := by
    rw [List.takeWhile_append_of_pos fun b hb => decide_eq_true (hds b hb)]
    have hnil : (cstr rest).takeWhile (IsDigit ·) = [] := by
      cases rest with
      | nil => rfl
      | cons b rest =>
        have hb := hrest b rfl
        by_cases h0 : b = 0
        · simp [cstr, h0]
        · simp [cstr, h0, hb]
    rw [hnil, List.append_nil]
  have hdrop : (d :: ds' ++ cstr rest).dropWhile isSpace = d :: ds' ++ cstr rest := by
    simp [hd.2.2.2]
  unfold sscanfD
  rw [hcstr, hdrop]
  have hun : unsignedD false (d :: ds' ++ cstr rest) = some (n : Int) := by
    simp only [unsignedD, htake, hval]
    simp [toInt_of_small hn]
  rw [← hun]
  split
  · next h => exact absurd (List.cons.inj h).1 hd.2.1
  · next h => exact absurd (List.cons.inj h).1 hd.2.2.1
  · rfl

/-- 先頭 `n` byte に含まれる桁だけの数。 -/
def Reply.seen (r : Reply) (n : Nat) : Nat :=
  if n = 1 then r.code / 100 else if n = 2 then r.code / 10 else r.code

/-- 応答の先頭 `n` byte からは、届いた桁だけの数が読まれる。 -/
theorem parse_take (r : Reply) {n : Nat} (hn : 1 ≤ n) :
    sscanfD (r.bytes.take n) = some (r.seen n : Int) := by
  obtain ⟨hlo, hhi⟩ := r.threeDigits
  obtain ⟨h1, v1⟩ := digit_spec (r.code / 100) (by omega)
  obtain ⟨h2, v2⟩ := digit_spec (r.code / 10 % 10) (by omega)
  obtain ⟨h3, v3⟩ := digit_spec (r.code % 10) (by omega)
  rcases n with _ | _ | _ | m
  · omega
  · exact sscanfD_digits [digit (r.code / 100)] [] (r.code / 100) (by simp) (by simp [Digits, h1])
      (by simp) (by simp [decValue, v1]) (by omega)
  · exact sscanfD_digits [digit (r.code / 100), digit (r.code / 10 % 10)] [] (r.code / 10)
      (by simp) (by simp [Digits, h1, h2]) (by simp) (by simp [decValue, v1, v2]; omega) (by omega)
  · refine sscanfD_digits [digit (r.code / 100), digit (r.code / 10 % 10), digit (r.code % 10)]
      ((r.sep :: (r.text ++ [13, 10])).take m) r.code (by simp) (by simp [Digits, h1, h2, h3]) ?_
      (by simp [decValue, v1, v2, v3]; omega) (by omega)
    intro b hb
    cases m with
    | zero => simp at hb
    | succ m =>
      simp only [List.take_succ_cons, List.head?_cons, Option.some.injEq] at hb
      exact hb ▸ r.separated

/-- 届いた桁の数が 220 になるのは、三桁が届いて番号が 220 のときだけである。 -/
theorem seen_eq_iff (r : Reply) (n : Nat) :
    r.seen n = 220 ↔ n ≠ 1 ∧ n ≠ 2 ∧ r.code = 220 := by
  obtain ⟨-, hhi⟩ := r.threeDigits
  unfold Reply.seen
  split
  · omega
  · split <;> omega

/-! ## 区切り方 -/

/-- 最初の `recv` が返す長さ。 -/
def firstCut (cuts : Nat → Nat) : Nat := max 1 (min (cuts 0) 512)

/-- 最初の `recv` が返す塊から読まれる番号で、接続の成否が決まる。 -/
theorem connect_segmented (x : Session) (cuts : Nat → Nat) (hsock : x.sock ≠ -1) :
    (connectServer (Wire.segmented x.connect cuts) x.sock x.buf x.result
        ⟨x.greeting.bytes, [], x.script, 0⟩).1 =
      if x.greeting.seen (firstCut cuts) = 220 then x.sock else -1 := by
  have hrecv : (recv512 (Wire.segmented x.connect cuts) ⟨x.greeting.bytes, [], x.script, 0⟩).1 =
      some (x.greeting.bytes.take (firstCut cuts)) := by
    simp [recv512, Wire.segmented, Wire.recv, Reply.bytes, firstCut, List.take_take]
  have hparse := parse_take x.greeting (show 1 ≤ firstCut cuts from le_max_left _ _)
  unfold connectServer
  rw [if_neg hsock]
  simp only [hrecv, Option.getD_some, hparse]
  by_cases h : x.greeting.seen (firstCut cuts) = 220
  · simp [h]
  · have h' : (x.greeting.seen (firstCut cuts) : Int) ≠ 220 := by exact_mod_cast h
    simp [h, h']

/--
**戻り値の列が区切り方によらないのは、接続が受け入れられないとき、そのときに限る。**

`socket_connect` が失敗するか挨拶の番号が 220 でなければ、どう区切っても接続は失敗する。
挨拶の番号が 220 なら、続く命令が何であっても、接続の成否が区切り方で変わる。
-/
theorem segmentation_iff (x : Session) :
    (∀ cuts cuts', x.results cuts = x.results cuts') ↔ x.sock = -1 ∨ x.greeting.code ≠ 220 := by
  constructor
  · intro h
    by_contra hneg
    simp only [not_or, not_not] at hneg
    obtain ⟨hsock, hcode⟩ := hneg
    -- 一 byte だけ届く区切り方と、番号の次の文字まで届く区切り方
    have hone := connect_segmented x (fun _ => 1) hsock
    have hfour := connect_segmented x (fun _ => 4) hsock
    rw [if_neg (by simp [seen_eq_iff, firstCut])] at hone
    rw [if_pos (by simp [seen_eq_iff, firstCut, hcode])] at hfour
    have hres := h (fun _ => 1) (fun _ => 4)
    simp only [Session.results, hone, hfour, if_true, if_neg hsock, List.cons.injEq] at hres
    exact hsock hres.1.symm
  · intro h
    have hfail : ∀ cuts, x.results cuts = [-1] := by
      intro cuts
      rcases h with hsock | hcode
      · simp [Session.results, connectServer, hsock]
      · by_cases hsock : x.sock = -1
        · simp [Session.results, connectServer, hsock]
        · have hconn := connect_segmented x cuts hsock
          rw [if_neg (by simp [seen_eq_iff, hcode])] at hconn
          simp [Session.results, hconn]
    intro cuts cuts'
    rw [hfail, hfail]

/-- 挨拶が 220、命令が一つの session。 -/
def greeted : Session where
  sock := 3
  buf := []
  result := 0
  greeting := ⟨220, 32, ascii "ready", by decide, by decide⟩
  script := [⟨⟨200, 32, ascii "ok", by decide, by decide⟩, none, false⟩]
  connect := fun _ => true
  ops := [.sendcmd (ascii "NOOP\r\n")]

/-- 応答ごとに届けば `3` と `200` が返り、一 byte ずつ届けば接続に失敗する。 -/
theorem results_depend_on_cuts : ¬∀ cuts cuts', greeted.results cuts = greeted.results cuts' := by
  intro h
  have hwhole : greeted.results (fun _ => 512) = [3, 200] := by decide +kernel
  have hbyte : greeted.results (fun _ => 1) = [-1] := by decide +kernel
  have := h (fun _ => 512) (fun _ => 1)
  rw [hwhole, hbyte] at this
  cases this

end RecordServer.Ftp
