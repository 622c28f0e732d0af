import RecordServer.App.Properties.PlaylistRoot
import RecordServer.Infra.Json

/-!
# `create_record` の返事

`create_record` は、作った file の名前をそのまま JSON の文字列の中に置く。

* `Reports` — body は JSON の object で、member `path` を読むと file の名前になる
* `reply_reports_iff` — そうなるのは、名前の時刻より前の部分が UTF-8 で、避けるべき文字を含まないときに限る
* `quote_breaks_reply` — `"` を含む `path` では、別の名前が読まれる
-/

namespace RecordServer.App

open Infra

def codes (cs : List Char) : List Nat := cs.map Char.toNat

/-- body は JSON の object で、member `path` は `file` である。 -/
def Reports (body file : Bytes) : Prop :=
  ∃ text p : List Char, body = utf8 text ∧ utf8 p = file ∧
    ∃ ms, Json.parse (codes text) = some (.obj ms) ∧
      Json.member ms (codes "path".toList) = some (.str (codes p))

/-- UTF-8 の文字列で、避けるべき文字を含まない。 -/
def Quotable (s : Bytes) : Prop := ∃ cs : List Char, s = utf8 cs ∧ ∀ c ∈ cs, Json.Plain c.toNat

/-! ## 文を読む -/

def retKey : List Nat := [114, 101, 116]

def msgKey : List Nat := [109, 115, 103]

def msgText : List Nat :=
  [99, 114, 101, 97, 116, 101, 32, 116, 97, 115, 107, 32, 115, 116, 97, 114, 116]

def pathKey : List Nat := [112, 97, 116, 104]

/-- 三つ目の member を `x` とする文。 -/
def replyWith (x : List Nat) : List Nat :=
  123 :: 34 :: (retKey ++ 34 :: 58 :: 48 :: 44 :: 34 :: (msgKey ++ 34 :: 58 :: 34 ::
    (msgText ++ 34 :: 44 :: x)))

/-- `"path":"p"` と閉じ括弧。 -/
def pathMember (p : List Nat) : List Nat :=
  34 :: (pathKey ++ 34 :: 58 :: 34 :: (p ++ [34, 125]))

theorem readValue_zero (fuel : Nat) (s : List Nat) :
    Json.readValue (fuel + 1) (48 :: 44 :: s) = some (.num [48], 44 :: s) := by
  rw [Json.readValue, Json.skip_cons rfl]
  simp [Json.readNumber, Json.readInt, Json.readFrac, Json.readExp]

/-- 初めの二つの member は、`x` によらずに読まれる。 -/
theorem readValue_replyWith {fuel : Nat} (hfuel : 20 ≤ fuel) (x : List Nat) :
    Json.readValue (fuel + 3) (replyWith x) = (Json.readMembers fuel x).map fun (ms, r) =>
      (.obj ((retKey, .num [48]) :: (msgKey, .str msgText) :: ms), r) := by
  obtain ⟨f, rfl⟩ : ∃ f, fuel = f + 1 := ⟨fuel - 1, by omega⟩
  have htextLen : msgText.length < f := by
    simp only [msgText, List.length_cons, List.length_nil]
    omega
  have hmsgLen : msgKey.length < f + 1 := by
    simp only [msgKey, List.length_cons, List.length_nil]
    omega
  have hretLen : retKey.length < f + 2 := by
    simp only [retKey, List.length_cons, List.length_nil]
    omega
  have hmsg := Json.readValue_str (by decide) htextLen (44 :: x)
  have hsecond := Json.readMembers_comma (by decide) hmsgLen hmsg
  have hfirst := Json.readMembers_comma (by decide) hretLen
    (readValue_zero (f + 1) (34 :: (msgKey ++ 34 :: 58 :: 34 :: (msgText ++ 34 :: 44 :: x))))
  rw [replyWith, Json.readValue_obj, hfirst, hsecond, Option.map_map, Option.map_map]
  rfl

theorem parse_reply_plain {p : List Nat} (hp : ∀ c ∈ p, Json.Plain c) :
    ∃ ms, Json.parse (replyWith (pathMember p)) = some (.obj ms) ∧
      Json.member ms pathKey = some (.str p) := by
  have hlen : (replyWith (pathMember p)).length = p.length + 45 := by
    simp [replyWith, pathMember, retKey, msgKey, msgText, pathKey]
  have hkeyLen : pathKey.length < p.length + 42 := by
    simp only [pathKey, List.length_cons, List.length_nil]
    omega
  have hvalue := Json.readValue_str hp (show p.length < p.length + 41 by omega) [125]
  have hmember := Json.readMembers_close (by decide) hkeyLen hvalue
  have hread := readValue_replyWith (show 20 ≤ p.length + 43 by omega) (pathMember p)
  rw [show Json.readMembers (p.length + 43) (pathMember p) = some ([(pathKey, .str p)], []) from
    hmember] at hread
  refine ⟨[(retKey, .num [48]), (msgKey, .str msgText), (pathKey, .str p)], ?_, ?_⟩
  · rw [Json.parse, hlen, hread]
    rfl
  · simp [Json.member]

/-- 読まれた `path` が `p` なら、`p` に避けるべき文字は無い。 -/
theorem plain_of_parse_reply {p : List Nat} {ms : List (List Nat × Json.Value)}
    (hparse : Json.parse (replyWith (pathMember p)) = some (.obj ms))
    (hpath : Json.member ms pathKey = some (.str p)) : ∀ c ∈ p, Json.Plain c := by
  have hlen : (replyWith (pathMember p)).length = p.length + 45 := by
    simp [replyWith, pathMember, retKey, msgKey, msgText, pathKey]
  rw [Json.parse, hlen, show p.length + 45 + 1 = p.length + 43 + 3 from rfl,
    readValue_replyWith (by omega)] at hparse
  obtain ⟨⟨v, r⟩, hread, hdone⟩ := Option.bind_eq_some_iff.mp hparse
  obtain ⟨⟨ms', r'⟩, hmembers, hpair⟩ := Option.map_eq_some_iff.mp hread
  simp only [Prod.mk.injEq] at hpair
  obtain ⟨rfl, rfl⟩ := hpair
  obtain rfl : (retKey, .num [48]) :: (msgKey, .str msgText) :: ms' = ms := by
    simp only at hdone
    split at hdone
    · exact Json.Value.obj.inj (Option.some.inj hdone)
    · cases hdone
  have hmem : (pathKey, .str p) ∈ ms' := by
    rcases List.mem_cons.mp (Json.mem_of_member hpath) with heq | hmem
    · exact absurd (Prod.mk.inj heq).1 (by decide)
    · rcases List.mem_cons.mp hmem with heq | hmem
      · exact absurd (Prod.mk.inj heq).1 (by decide)
      · exact hmem
  obtain ⟨v, s, hvalue, htail⟩ := Json.readMembers_first (by decide)
    (by simp only [pathKey, List.length_cons, List.length_nil]; omega) hmembers
  obtain ⟨g, rfl, hg⟩ := Json.readValue_quote hvalue
  obtain ⟨hle, hplain⟩ := Json.readChars_length hg
  have hskip := Json.skip_length s
  rw [List.length_append, List.length_cons, List.length_singleton] at hle hplain
  -- 閉じ括弧が要るので、`g` が `p` なら一文字も余らない。
  have hfirst : g = p → 0 < s.length → ∀ c ∈ p, Json.Plain c := by
    rintro rfl hpos
    exact (hplain (by omega)).2
  rcases htail with ⟨s', ms'', heq, hrest, rfl⟩ | ⟨heq, rfl⟩
  · rw [heq, List.length_cons] at hskip
    rcases List.mem_cons.mp hmem with hpair | hmem
    · exact hfirst (Json.Value.str.inj (Prod.mk.inj hpair).2).symm (by omega)
    · have hlong := Json.mem_readMembers hrest hmem
      omega
  · rw [heq, List.length_cons] at hskip
    have hpair := List.mem_singleton.mp hmem
    exact hfirst (Json.Value.str.inj (Prod.mk.inj hpair).2).symm (by omega)

/-! ## byte の列として -/

def replyHead : List Char :=
  "\x7b\"ret\":0,\"msg\":\"create task start\",\"path\":\"".toList

def replyTail : List Char := "\"\x7d".toList

theorem codes_reply (p : List Char) :
    codes (replyHead ++ p ++ replyTail) = replyWith (pathMember (codes p)) := by
  have hhead : codes replyHead ++ [0] = replyWith (34 :: (pathKey ++ [34, 58, 34, 0])) := by decide
  have htail : codes replyTail = [34, 125] := by decide
  have hhead' : codes replyHead = (replyWith (34 :: (pathKey ++ [34, 58, 34, 0]))).dropLast := by
    rw [← hhead]
    simp
  rw [codes, List.map_append, List.map_append, ← codes, ← codes, ← codes, htail, hhead']
  simp [replyWith, pathMember, retKey, msgKey, msgText, pathKey]

theorem createOutput_eq {file : Bytes} (hz : cstr file = file) :
    createOutput file = utf8 replyHead ++ file ++ utf8 replyTail := by
  have hhead : ascii "\x7b\"ret\":" ++ ascii "0" ++ ascii ",\"" ++ ascii "msg\":\"" ++
      ascii "create task start\",\"path\":\"" = utf8 replyHead := by decide
  rw [createOutput, hz, hhead, ascii_eq_utf8 "\"\x7d"]
  rfl

/-- 返事が file の名前を伝えるのは、名前をそのまま書けるときに限る。 -/
theorem reports_createOutput {file : Bytes} (hz : cstr file = file) :
    Reports (createOutput file) file ↔ Quotable file := by
  rw [createOutput_eq hz]
  constructor
  · rintro ⟨text, p, htext, rfl, ms, hparse, hpath⟩
    rw [← utf8_append, ← utf8_append] at htext
    obtain rfl := utf8_injective htext
    rw [codes_reply] at hparse
    refine ⟨p, rfl, fun c hc => ?_⟩
    exact plain_of_parse_reply hparse hpath c.toNat (List.mem_map_of_mem hc)
  · rintro ⟨cs, rfl, hplain⟩
    obtain ⟨ms, hparse, hpath⟩ := parse_reply_plain (p := codes cs) fun c hc => by
      obtain ⟨d, hd, rfl⟩ := List.mem_map.mp hc
      exact hplain d hd
    refine ⟨replyHead ++ cs ++ replyTail, cs, by rw [utf8_append, utf8_append], rfl, ms, ?_, hpath⟩
    rw [codes_reply]
    exact hparse

/-- 後に続く ASCII の、避けなくてよい byte は、結果を変えない。 -/
theorem quotable_append {tail : Bytes} (htail : ∀ b ∈ tail, b < 128 ∧ Json.Plain b.toNat)
    (x : Bytes) : Quotable (x ++ tail) ↔ Quotable x := by
  induction tail using List.reverseRecOn with
  | nil => rw [List.append_nil]
  | append_singleton tail b ih =>
    rw [← List.append_assoc, ← ih fun c hc => htail c (List.mem_append_left _ hc)]
    obtain ⟨hlt, hplain⟩ := htail b (by simp)
    constructor
    · rintro ⟨cs, heq, hcs⟩
      obtain ⟨cs', c, rfl, hx, -⟩ := utf8_eq_concat hlt heq.symm
      exact ⟨cs', hx, fun d hd => hcs d (List.mem_append_left _ hd)⟩
    · rintro ⟨cs, heq, hcs⟩
      have hb : b.toNat < 128 := UInt8.lt_iff_toNat_lt.mp hlt
      have hchar : (Char.ofNat b.toNat).toNat = b.toNat := by
        rw [Char.ofNat, dif_pos (.inl (by omega))]
        rfl
      refine ⟨cs ++ [Char.ofNat b.toNat], ?_, fun d hd => ?_⟩
      · rw [utf8_append, ← heq]
        simp [utf8, utf8EncodeChar_of_lt (show (Char.ofNat b.toNat).toNat < 128 by omega), hchar]
      · rcases List.mem_append.mp hd with hd | hd
        · exact hcs d hd
        · rw [List.mem_singleton.mp hd, hchar]
          exact hplain

/-- 時刻の部分は、避けなくてよい ASCII である。 -/
theorem timeSuffix_plain (t : Int) : ∀ b ∈ timeSuffix t, b < 128 ∧ Json.Plain b.toNat := by
  obtain ⟨rest, heq, hrest⟩ := timeSuffix_cons t
  rw [heq]
  intro b hb
  rcases List.mem_cons.mp hb with rfl | hb
  · decide
  · obtain ⟨hlow, hhigh, -, hslash, -⟩ := hrest b hb
    have hlow' : 45 ≤ b.toNat := UInt8.le_iff_toNat_le.mp hlow
    have hslash' : b.toNat ≠ 92 := fun h => hslash (UInt8.toNat_inj.mp h)
    exact ⟨hhigh, by omega, by omega, hslash'⟩

/--
**file が作れたとき、返事が JSON の object でその名前を伝えるのは、`root_path`・切り取った `path`・`sid` を
繋いで 255 byte で切ったものが UTF-8 で、`"`・`\`・制御文字を含まないときに限る。**
-/
theorem reply_reports_iff {t t' : Tree} {rootPath path sid : Bytes} {now : Int} {param : M3u8Param}
    (h : createM3u8 t ⟨sid, createPath rootPath path, []⟩ now = (some param, t')) :
    Reports (createRecord t rootPath path sid now).1.body param.filePath ↔
      Quotable (((cstr rootPath ++ cstr (stripLast path) ++ [slash]).take 255 ++
        cstr sid).take 255) := by
  obtain ⟨-, rfl⟩ := createM3u8_eq_some.mp h
  have hbody : (createRecord t rootPath path sid now).1.body =
      createOutput (fileName (createPath rootPath path) sid now) := by
    rw [createRecord, h]
  have hname : fileName (createPath rootPath path) sid now =
      ((cstr rootPath ++ cstr (stripLast path) ++ [slash]).take 255 ++ cstr sid).take 255 ++
        (timeSuffix now).take (255 - (createPath rootPath path ++ cstr sid).length) := by
    rw [fileName, cstr_createPath, List.take_append, ← createPath_eq]
  have hz : cstr (fileName (createPath rootPath path) sid now) =
      fileName (createPath rootPath path) sid now := cstr_eq_self (zero_not_mem_fileName _ _ _)
  rw [hbody, reports_createOutput hz, hname]
  exact quotable_append (fun b hb => timeSuffix_plain now b (List.mem_of_mem_take hb)) _

/-- `/rec` だけのある木。 -/
def recTree : Tree := Tree.ofPlaces (places (ascii "/rec")) (parentClosed_places _)

theorem reply_reports_live :
    ∃ param t', createM3u8 recTree ⟨ascii "cam", createPath (ascii "/rec") (ascii "/live/"), []⟩
        1500000000 = (some param, t') ∧
      Reports (createRecord recTree (ascii "/rec") (ascii "/live/") (ascii "cam")
        1500000000).1.body param.filePath := by
  have hok : createM3u8 recTree ⟨ascii "cam", createPath (ascii "/rec") (ascii "/live/"), []⟩
      1500000000 = (some ⟨ascii "cam", createPath (ascii "/rec") (ascii "/live/"),
        ascii "/rec/live/cam_1500000000.m3u8"⟩, _) := Prod.ext (by decide +kernel) rfl
  refine ⟨_, _, hok, (reply_reports_iff hok).mpr ⟨"/rec/live/cam".toList, ?_, ?_⟩⟩
  · rw [← ascii_eq_utf8]
    decide +kernel
  · have hall : ("/rec/live/cam".toList.all fun c => Json.Plain c.toNat) = true := by decide +kernel
    exact fun c hc => of_decide_eq_true (List.all_eq_true.mp hall c hc)

/-- `path` が `/"x/` のとき、file は作られるが、返事の `"` が名前を途中で閉じる。 -/
theorem quote_breaks_reply :
    ∃ param t', createM3u8 recTree ⟨ascii "cam", createPath (ascii "/rec") (ascii "/\"x/"), []⟩
        1500000000 = (some param, t') ∧
      param.filePath = ascii "/rec/\"x/cam_1500000000.m3u8" ∧
      ¬ Reports (createRecord recTree (ascii "/rec") (ascii "/\"x/") (ascii "cam")
        1500000000).1.body param.filePath := by
  have hok : createM3u8 recTree ⟨ascii "cam", createPath (ascii "/rec") (ascii "/\"x/"), []⟩
      1500000000 = (some ⟨ascii "cam", createPath (ascii "/rec") (ascii "/\"x/"),
        ascii "/rec/\"x/cam_1500000000.m3u8"⟩, _) := Prod.ext (by decide +kernel) rfl
  refine ⟨_, _, hok, rfl, fun hrep => ?_⟩
  rw [createRecord, hok] at hrep
  obtain ⟨cs, heq, hcs⟩ := (reports_createOutput (by decide +kernel)).mp hrep
  have hname : utf8 "/rec/\"x/cam_1500000000.m3u8".toList = utf8 cs := by
    rw [← ascii_eq_utf8]
    exact heq
  obtain rfl := utf8_injective hname
  exact absurd (hcs (Char.ofNat 34) (by decide +kernel)) (by decide)

end RecordServer.App
