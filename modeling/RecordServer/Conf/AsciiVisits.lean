import RecordServer.Conf.Visits

/-!
# 調べる文字が ASCII だけなら、表の外は効かない

ASCII の上で一致する二つの表 `A`・`B` について、`A` で読む間に調べる文字がどれも ASCII なら、
`B` で読んでも同じ読み方になる。

* `Ascii A top p` — `p` から読む間に調べる文字は、どれも ASCII である
* `Ascii.visits` / `ascii_iff` — `B` で起こることは `A` でも起こり、`Ascii` は表の外によらない
-/

namespace RecordServer.Conf.Raw

open Infra

/-- ASCII の文字の上で一致する。 -/
def AgreeAscii (A B : Alphabet) : Prop :=
  ∀ b, b < 128 → A.name b = B.name b ∧ A.value b = B.value b

def Ascii (A : Alphabet) (top : Bool) (p : Bytes) : Prop :=
  ∀ t b, Visits A top p (.test t b) → b < 128

def ArrayAscii (A : Alphabet) (need : Bool) (p : Bytes) : Prop :=
  ∀ t b, ArrayVisits A need p (.test t b) → b < 128

variable {A B : Alphabet} {top need : Bool} {t : Table} {p p₁ p₂ q n v w : Bytes} {e : Event}
  {c d : UInt8 → Bool}

theorem AgreeAscii.chars (h : AgreeAscii A B) (t : Table) {b : UInt8} (hb : b < 128) :
    t.chars A b = t.chars B b := by
  cases t with
  | name => exact (h b hb).1
  | value => exact (h b hb).2

theorem AgreeAscii.symm (h : AgreeAscii A B) : AgreeAscii B A :=
  fun b hb => ⟨(h b hb).1.symm, (h b hb).2.symm⟩

/-! ## 並び -/

/-- 調べる文字の上で一致する述語は、同じ並びを取る。 -/
theorem takeWhile_looked (h : ∀ b ∈ looked c p, c b = d b) :
    p.takeWhile d = p.takeWhile c ∧ p.dropWhile d = p.dropWhile c := by
  induction p with
  | nil => exact ⟨rfl, rfl⟩
  | cons b p ih =>
    by_cases hb : c b = true
    · have hd : d b = true := by
        rw [← h b (by simp [looked, hb]), hb]
      have hrest : ∀ x ∈ looked c p, c x = d x := by
        intro x hx
        refine h x ?_
        simp only [looked, List.takeWhile_cons_of_pos hb, List.dropWhile_cons_of_pos hb]
        exact List.mem_cons_of_mem b hx
      obtain ⟨htake, hdrop⟩ := ih hrest
      simp [hb, hd, htake, hdrop]
    · have hd : ¬d b = true := by
        rwa [← h b (by simp [looked, hb])]
      simp [hb, hd]

theorem visited_congr (h : ∀ b ∈ visited c p, c b = d b) : visited d p = visited c p := by
  cases hp : skip p with
  | nil => simp [visited, hp]
  | cons b rest =>
    by_cases hb : c b = true
    · have hmem : ∀ x ∈ looked c (b :: rest), c x = d x := by
        intro x hx
        refine h x ?_
        simp only [visited, hp, hb, if_true]
        exact List.mem_cons_of_mem b hx
      have hd : d b = true := by rw [← h b (by simp [visited, hp, hb]), hb]
      obtain ⟨htake, hdrop⟩ := takeWhile_looked hmem
      simp only [visited, hp, hb, hd, if_true, looked, htake, hdrop]
    · have hd : ¬d b = true := by rwa [← h b (by simp [visited, hp, hb])]
      simp [visited, hp, hb, hd]

/-- 調べる文字の上で一致すれば、取れる並びも同じである。 -/
theorem run_of_visited (h : ∀ b ∈ visited c p, c b = d b) (hp : skip p = p₁)
    (hrun : Run d p₁ w q) : Run c p₁ w q := by
  obtain ⟨b, w', -, hp₁, hb⟩ := hrun.head
  have hc : c b = true := by
    rw [h b ?_, hb]
    simp only [visited, hp, hp₁]
    split <;> simp
  have hmem : ∀ x ∈ looked c p₁, c x = d x := by
    intro x hx
    refine h x ?_
    rw [hp₁] at hx
    simp only [visited, hp, hp₁, hc, if_true]
    exact List.mem_cons_of_mem b hx
  obtain ⟨htake, hdrop⟩ := takeWhile_looked hmem
  have hrun' : Run c p₁ (p₁.takeWhile c) (p₁.dropWhile c) := by
    rw [hp₁]
    exact .of_head hc
  rwa [← htake, ← hdrop, hrun.takeWhile_eq, hrun.dropWhile_eq] at hrun'

/-! ## 調べる文字が ASCII である -/

theorem ArrayAscii.tests (h : ArrayAscii A need p) (hexp : Expects need p q) :
    ∀ b, Event.test .value b ∈ tests A .value q → b < 128 :=
  fun b hb => h .value b (.here hexp hb)

theorem ArrayAscii.next (h : ArrayAscii A need p) (hexp : Expects need p q) (hsep : Sep q p₁)
    (hv : Value A p₁ v p₂) : ArrayAscii A true p₂ :=
  fun t b hb => h t b (.next hexp hsep hv hb)

theorem expects_of_value (hsep : Sep p p₁) (hv : Value B p₁ v p₂) : Expects false p p₁ := by
  refine .first hsep hv.solid fun hclose => ?_
  obtain ⟨rest, rfl⟩ := List.head?_eq_some_iff.mp hclose
  exact value_head_ne hv (by decide)

section Agree

variable (hAB : AgreeAscii A B)
include hAB

theorem visited_agree (h : ∀ b, Event.test t b ∈ tests A t p → b < 128) :
    ∀ b ∈ visited (t.chars A) p, t.chars A b = t.chars B b :=
  fun b hb => hAB.chars t (h b (List.mem_map_of_mem hb))

theorem tests_congr (h : ∀ b, Event.test t b ∈ tests A t p → b < 128) :
    tests B t p = tests A t p := by
  rw [tests, tests, visited_congr (visited_agree hAB h)]

theorem run_of_tests (h : ∀ b, Event.test t b ∈ tests A t p → b < 128) (hp : skip p = p₁)
    (hrun : Run (t.chars B) p₁ w q) : Run (t.chars A) p₁ w q :=
  run_of_visited (visited_agree hAB h) hp hrun

theorem value_of_tests (h : ∀ b, Event.test .value b ∈ tests A .value p → b < 128)
    (hsep : Sep p p₁) (hv : Value B p₁ v q) : Value A p₁ v q :=
  ⟨run_of_tests hAB (t := .value) h (hsep.skip_eq hv.solid) hv.1, hv.2⟩

theorem name_of_tests (h : ∀ b, Event.test .name b ∈ tests A .name p → b < 128)
    (hsep : Sep p p₁) (hname : Run B.name p₁ n q) : Run A.name p₁ n q :=
  run_of_tests hAB (t := .name) h (hsep.skip_eq (solid_of_name hname)) hname

/-! ## 配列 -/

theorem moreValues_of_ascii {vs : List Bytes} (hvals : MoreValues B p vs q) :
    ArrayAscii A true p → MoreValues A p vs q := by
  induction hvals with
  | close h => exact fun _ => .close h
  | comma hcomma hsep hv _ ih =>
    intro h
    have hv' := value_of_tests hAB (h.tests (.more hcomma)) hsep hv
    exact .comma hcomma hsep hv' (ih (h.next (.more hcomma) hsep hv'))

theorem values_of_ascii {vs : List Bytes} (hvals : Values B p vs q) (h : ArrayAscii A false p) :
    Values A p vs q := by
  cases hvals with
  | close hclose => exact .close hclose
  | first hsep hv hmore =>
    have hexp := expects_of_value hsep hv
    have hv' := value_of_tests hAB (h.tests hexp) (.refl _) hv
    exact .first hsep hv' (moreValues_of_ascii hAB hmore (h.next hexp (.refl _) hv'))

theorem arrayVisits_of_ascii (he : ArrayVisits B need p e) :
    ArrayAscii A need p → ArrayVisits A need p e := by
  induction he with
  | here hexp he =>
    intro h
    rw [tests_congr hAB (h.tests hexp)] at he
    exact .here hexp he
  | next hexp hsep hv _ ih =>
    intro h
    have hv' := value_of_tests hAB (h.tests hexp) hsep hv
    exact .next hexp hsep hv' (ih (h.next hexp hsep hv'))

/-! ## 項目の並び -/

theorem Ascii.name (h : Ascii A top p) (hsep : Sep p p₁) (hname : Run B.name p₁ n p₂) :
    Run A.name p₁ n p₂ := by
  refine name_of_tests hAB (fun b hb => h .name b (.head ?_)) hsep hname
  rw [headEvents, if_neg]
  · exact hb
  · -- 名前の先頭は閉じ波括弧ではない
    rintro ⟨-, hclose⟩
    rw [hsep.skip_eq (solid_of_name hname)] at hclose
    obtain ⟨rest, rfl⟩ := List.head?_eq_some_iff.mp hclose
    exact name_head_ne hname (by decide)

/-- 名前の後を読む間に調べる文字は、どれも ASCII である。 -/
def TailAscii (A : Alphabet) (top : Bool) (n p : Bytes) : Prop :=
  (∀ t b, Event.test t b ∈ tailEvents A top n p → b < 128) ∧
    ∀ t b, TailVisits A top n p (.test t b) → b < 128

omit hAB in
theorem Ascii.tail (h : Ascii A top p) (hsep : Sep p p₁) (hname : Run A.name p₁ n p₂)
    (hp₂ : p₂ ≠ []) : TailAscii A top n p₂ :=
  ⟨fun t b hb => h t b ((visits_name_iff hsep hname hp₂).mpr (Or.inr (Or.inl hb))),
    fun t b hb => h t b ((visits_name_iff hsep hname hp₂).mpr (Or.inr (Or.inr hb)))⟩

theorem keywordEvents_congr (h : ∀ t b, Event.test t b ∈ keywordEvents A top n p → b < 128) :
    keywordEvents B top n p = keywordEvents A top n p := by
  simp only [keywordEvents] at h ⊢
  split_ifs with hn htop
  · exact tests_congr hAB fun b hb => h .name b (by simpa [hn, htop] using hb)
  · rfl
  · exact tests_congr hAB fun b hb => h .value b (by simpa [hn] using hb)

theorem tailEvents_congr (h : ∀ t b, Event.test t b ∈ tailEvents A top n p → b < 128) :
    tailEvents B top n p = tailEvents A top n p := by
  simp only [tailEvents] at h ⊢
  split_ifs with hlb hlk
  · rfl
  · rfl
  · rw [keywordEvents_congr hAB]
    intro t b hb
    exact h t b (by simpa [hlb, hlk] using hb)

theorem headEvents_congr (h : Ascii A top p) : headEvents B top p = headEvents A top p := by
  simp only [headEvents]
  split_ifs with hclose
  · rfl
  · refine tests_congr hAB fun b hb => h .name b (.head ?_)
    rwa [headEvents, if_neg hclose]

/-- 名前の後が括弧でないとき、`keywordEvents` が起こる。 -/
theorem TailAscii.leaf {x : Leaf} (h : TailAscii A top n p) (htail : LeafTail B n p x q) :
    LeafTail A n p x q := by
  cases htail with
  | value hn hsep hv hopen hend =>
    refine .value hn hsep (value_of_tests hAB (fun b hb => h.1 .value b ?_) hsep hv) hopen hend
    obtain ⟨a, v', rfl, hp₁, ha⟩ := hv.1.head
    have hskip := hsep.skip_eq hv.solid
    rw [tailEvents, if_neg, if_neg, keywordEvents, if_neg hn]
    · exact List.mem_append_right _ hb
    · rw [hskip, hp₁]
      simpa using Alphabet.value_ne ha (d := lbracket) (by decide)
    · rw [hskip, hp₁]
      simpa using hopen
  | array hopen hvals =>
    exact .array hopen (values_of_ascii hAB hvals fun t b hb => h.2 t b (.inArray hopen hb))

theorem TailAscii.opens {k : BlockKind} {m : Bytes} (h : TailAscii A top n p)
    (hopens : Opens B top n p k m q) : Opens A top n p k m q := by
  cases hopens with
  | sub hopen => exact .sub hopen
  | proc htop hn hsep hname hopen =>
    refine .proc htop hn hsep (name_of_tests hAB (fun b hb => h.1 .name b ?_) hsep hname) hopen
    have hsolid := solid_of_name hname
    obtain ⟨a, m', -, rfl, ha⟩ := hname.head
    rw [tailEvents, if_neg, if_neg, keywordEvents, if_pos hn, if_pos htop]
    · exact List.mem_append_right _ hb
    · exact head?_skip_ne hsep hsolid (Alphabet.name_ne ha (by decide))
    · exact head?_skip_ne hsep hsolid (Alphabet.name_ne ha (by decide))

theorem parses_of_ascii {x : Entries} (hparse : Parses B top p x q) :
    Ascii A top p → Parses A top p x q := by
  induction hparse with
  | nil p => exact fun _ => .nil p
  | leaf hsep hname htail _ ih =>
    intro h
    have hname' := h.name hAB hsep hname
    have htail' := (h.tail hsep hname' htail.ne_nil).leaf hAB htail
    exact .leaf hsep hname' htail' (ih fun t b hb => h t b (.afterLeaf hsep hname' htail' hb))
  | block hsep hword hopens _ hclose _ ihsub ih =>
    intro h
    have hword' := h.name hAB hsep hword
    have hopens' := (h.tail hsep hword' hopens.ne_nil).opens hAB hopens
    have hsub' := ihsub fun t b hb => h t b (.inBlock hsep hword' hopens' hb)
    exact .block hsep hword' hopens' hsub' hclose
      (ih fun t b hb => h t b (.afterBlock hsep hword' hopens' hsub' hclose hb))

/-- **調べる文字が ASCII だけなら、`B` で起こることは `A` でも起こる。** -/
theorem Ascii.visits (he : Visits B top p e) : Ascii A top p → Visits A top p e := by
  induction he with
  | head he =>
    intro h
    rw [headEvents_congr hAB h] at he
    exact .head he
  | tail hsep hname hp₂ he =>
    intro h
    have hname' := h.name hAB hsep hname
    rw [tailEvents_congr hAB (h.tail hsep hname' hp₂).1] at he
    exact .tail hsep hname' hp₂ he
  | inArray hsep hname hopen he =>
    intro h
    have hname' := h.name hAB hsep hname
    exact .inArray hsep hname' hopen
      (arrayVisits_of_ascii hAB he fun t b hb => h t b (.inArray hsep hname' hopen hb))
  | inBlock hsep hword hopens _ ih =>
    intro h
    have hword' := h.name hAB hsep hword
    have hopens' := (h.tail hsep hword' hopens.ne_nil).opens hAB hopens
    exact .inBlock hsep hword' hopens' (ih fun t b hb => h t b (.inBlock hsep hword' hopens' hb))
  | afterLeaf hsep hname htail _ ih =>
    intro h
    have hname' := h.name hAB hsep hname
    have htail' := (h.tail hsep hname' htail.ne_nil).leaf hAB htail
    exact .afterLeaf hsep hname' htail'
      (ih fun t b hb => h t b (.afterLeaf hsep hname' htail' hb))
  | afterBlock hsep hword hopens hsub hclose _ ih =>
    intro h
    have hword' := h.name hAB hsep hword
    have hopens' := (h.tail hsep hword' hopens.ne_nil).opens hAB hopens
    have hsub' := parses_of_ascii hAB hsub fun t b hb => h t b (.inBlock hsep hword' hopens' hb)
    exact .afterBlock hsep hword' hopens' hsub' hclose
      (ih fun t b hb => h t b (.afterBlock hsep hword' hopens' hsub' hclose hb))

/-- **調べる文字が ASCII だけかどうかは、表の外によらない。** -/
theorem ascii_iff : Ascii A top p ↔ Ascii B top p :=
  ⟨fun h t b hb => h t b (Ascii.visits hAB hb h),
    fun h t b hb => h t b (Ascii.visits hAB.symm hb h)⟩

end Agree

end RecordServer.Conf.Raw
