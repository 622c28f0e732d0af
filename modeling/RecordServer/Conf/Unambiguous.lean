import RecordServer.Conf.Grammar

/-!
# 文法の読み方は一つに決まる

項目の並びを読める所まで読んだとき（`Done`）、木も残りも一つに決まる。

* `Parses.unique` — 読み方の一意性
* `Parses.congr` — 現れる文字の上で一致する表なら、読み方も同じである
-/

namespace RecordServer.Conf

open Infra

variable {A B : Alphabet} {top : Bool} {p p₁ p₂ q q' r v v' w n n' : Bytes}

/-! ## 字句の先頭 -/

theorem isBlank_iff {b : UInt8} : isBlank b = true ↔ b ∈ [32, 9, 13, newline] := by
  simp [isBlank, or_assoc]

theorem Alphabet.name_ne {b d : UInt8} (hb : A.name b = true)
    (hd : d ∈ [32, 9, 13, newline, sharp, lbrace, rbrace, lbracket]) : b ≠ d := by
  rintro rfl
  rw [A.name_delim b hd] at hb
  cases hb

theorem Alphabet.value_ne {b d : UInt8} (hb : A.value b = true)
    (hd : d ∈ [32, 9, 13, newline, semicolon, comma, lbracket, rbracket]) : b ≠ d := by
  rintro rfl
  rw [A.value_delim b hd] at hb
  cases hb

/-- 名前は区切りで始まらない。 -/
theorem solid_of_name (h : Run A.name p n q) : Solid p := by
  obtain ⟨b, w, -, rfl, hb⟩ := h.head
  refine solid_cons.mpr ⟨?_, Alphabet.name_ne hb (by decide)⟩
  rw [← Bool.not_eq_true, isBlank_iff]
  intro hmem
  exact Alphabet.name_ne hb (List.mem_append_left [sharp, lbrace, rbrace, lbracket] hmem) rfl

/-- 値は区切りで始まらない。 -/
theorem Value.solid (h : Value A p v q) : Solid p := by
  obtain ⟨b, w, rfl, rfl, hb⟩ := h.1.head
  refine solid_cons.mpr ⟨?_, fun hs => h.2 (by rw [hs]; rfl)⟩
  rw [← Bool.not_eq_true, isBlank_iff]
  intro hmem
  exact Alphabet.value_ne hb (List.mem_append_left [semicolon, comma, lbracket, rbracket] hmem) rfl

theorem name_head_ne {d : UInt8} (h : Run A.name (d :: p) n q)
    (hd : d ∈ [32, 9, 13, newline, sharp, lbrace, rbrace, lbracket]) : False := by
  obtain ⟨b, w, -, hp, hb⟩ := h.head
  cases hp
  exact Alphabet.name_ne hb hd rfl

theorem value_head_ne {d : UInt8} (h : Value A (d :: p) v q)
    (hd : d ∈ [32, 9, 13, newline, semicolon, comma, lbracket, rbracket]) : False := by
  obtain ⟨b, w, -, hp, hb⟩ := h.1.head
  cases hp
  exact Alphabet.value_ne hb hd rfl

theorem not_run_nil {c : UInt8 → Bool} : ¬Run c [] n q := by
  intro h
  obtain ⟨b, w, -, hp, -⟩ := h.head
  cases hp

/-! ## 一意性 -/

theorem Sep.unique (h : Sep p q) (h' : Sep p q') (hq : Solid q) (hq' : Solid q') : q = q' :=
  (h.skip_eq hq).symm.trans (h'.skip_eq hq')

theorem Value.unique (h : Value A p v q) (h' : Value A p v' q') : v = v' ∧ q = q' :=
  h.1.unique h'.1

theorem MoreValues.unique {vs vs' : List Bytes} (h : MoreValues A p vs q) :
    MoreValues A p vs' q' → vs = vs' ∧ q = q' := by
  induction h generalizing vs' with
  | close h =>
    rintro (h' | ⟨h', -, -, -⟩)
    · cases h.unique h' (solid_rbracket _) (solid_rbracket _)
      exact ⟨rfl, rfl⟩
    · cases h.unique h' (solid_rbracket _) (solid_comma _)
  | comma hcomma hsep hv _ ih =>
    rintro (h' | ⟨hcomma', hsep', hv', h'⟩)
    · cases hcomma.unique h' (solid_comma _) (solid_rbracket _)
    · cases hcomma.unique hcomma' (solid_comma _) (solid_comma _)
      cases hsep.unique hsep' hv.solid hv'.solid
      obtain ⟨rfl, rfl⟩ := hv.unique hv'
      obtain ⟨rfl, rfl⟩ := ih h'
      exact ⟨rfl, rfl⟩

theorem Values.unique {vs vs' : List Bytes} (h : Values A p vs q) (h' : Values A p vs' q') :
    vs = vs' ∧ q = q' := by
  rcases h with h | ⟨hsep, hv, h⟩ <;> rcases h' with h' | ⟨hsep', hv', h'⟩
  · cases h.unique h' (solid_rbracket _) (solid_rbracket _)
    exact ⟨rfl, rfl⟩
  · cases h.unique hsep' (solid_rbracket _) hv'.solid
    exact (value_head_ne hv' (by decide)).elim
  · cases h'.unique hsep (solid_rbracket _) hv.solid
    exact (value_head_ne hv (by decide)).elim
  · cases hsep.unique hsep' hv.solid hv'.solid
    obtain ⟨rfl, rfl⟩ := hv.unique hv'
    obtain ⟨rfl, rfl⟩ := h.unique h'
    exact ⟨rfl, rfl⟩

theorem LeafTail.unique {x x' : Leaf} (h : LeafTail A n p x q) (h' : LeafTail A n p x' q') :
    x = x' ∧ q = q' := by
  rcases h with ⟨-, hsep, hv, -, hend⟩ | ⟨hopen, h⟩ <;>
    rcases h' with ⟨-, hsep', hv', -, hend'⟩ | ⟨hopen', h'⟩
  · cases hsep.unique hsep' hv.solid hv'.solid
    obtain ⟨rfl, rfl⟩ := hv.unique hv'
    cases hend.unique hend' (solid_semicolon _) (solid_semicolon _)
    exact ⟨rfl, rfl⟩
  · cases hopen'.unique hsep (solid_lbracket _) hv.solid
    exact (value_head_ne hv (by decide)).elim
  · cases hopen.unique hsep' (solid_lbracket _) hv'.solid
    exact (value_head_ne hv' (by decide)).elim
  · cases hopen.unique hopen' (solid_lbracket _) (solid_lbracket _)
    obtain ⟨rfl, rfl⟩ := h.unique h'
    exact ⟨rfl, rfl⟩

theorem Opens.unique {k k' : BlockKind} (h : Opens A top w p k n q)
    (h' : Opens A top w p k' n' q') : k = k' ∧ n = n' ∧ q = q' := by
  rcases h with hopen | ⟨-, -, hsep, hname, hopen⟩ <;>
    rcases h' with hopen' | ⟨-, -, hsep', hname', hopen'⟩
  · cases hopen.unique hopen' (solid_lbrace _) (solid_lbrace _)
    exact ⟨rfl, rfl, rfl⟩
  · cases hopen.unique hsep' (solid_lbrace _) (solid_of_name hname')
    exact (name_head_ne hname' (by decide)).elim
  · cases hopen'.unique hsep (solid_lbrace _) (solid_of_name hname)
    exact (name_head_ne hname (by decide)).elim
  · cases hsep.unique hsep' (solid_of_name hname) (solid_of_name hname')
    obtain ⟨rfl, rfl⟩ := hname.unique hname'
    cases hopen.unique hopen' (solid_lbrace _) (solid_lbrace _)
    exact ⟨rfl, rfl, rfl⟩

/-- 一つの名前の後が、値や配列であり、かつ block であることはない。 -/
theorem LeafTail.not_opens {x : Leaf} {k : BlockKind} (h : LeafTail A w p x q)
    (h' : Opens A top w p k n q') : False := by
  rcases h with ⟨hw, hsep, hv, hhead, -⟩ | ⟨hopen, -⟩ <;>
    rcases h' with hopen' | ⟨-, hw', hsep', hname', -⟩
  · cases hopen'.unique hsep (solid_lbrace _) hv.solid
    obtain ⟨b, v, rfl, hb, -⟩ := hv.1.head
    cases hb
    exact hhead rfl
  · exact hw hw'
  · cases hopen'.unique hopen (solid_lbrace _) (solid_lbracket _)
  · cases hopen.unique hsep' (solid_lbracket _) (solid_of_name hname')
    exact name_head_ne hname' (by decide)

theorem not_leafTail_nil {x : Leaf} : ¬LeafTail A n [] x q := by
  rintro (⟨-, hsep, hv, -, -⟩ | ⟨hopen, -⟩)
  -- 空の残りからは区切りしか取れない
  · cases hsep.of_nil
    exact not_run_nil hv.1
  · cases hopen.of_nil

theorem not_opens_nil {k : BlockKind} : ¬Opens A top w [] k n q := by
  rintro (hopen | ⟨-, -, hsep, hname, -⟩)
  · cases hopen.of_nil
  · cases hsep.of_nil
    exact not_run_nil hname

/-- `q` の終わりに、名前だけが残っている。 -/
def BareName (A : Alphabet) (q : Bytes) : Prop := ∃ p n, Sep q p ∧ Run A.name p n []

/-- 項目をこれ以上読めない残り。閉じ波括弧か、ファイルの終わりか、終わりに接した名前である。 -/
def Done (A : Alphabet) (q : Bytes) : Prop :=
  (∃ r, Sep q (rbrace :: r)) ∨ SepEnd q ∨ BareName A q

/-- 読めない残りから名前が取れるなら、その後には何もない。 -/
theorem Done.name_end (hd : Done A q) (hsep : Sep q p) (hname : Run A.name p n r) : r = [] := by
  have hsolid := solid_of_name hname
  rcases hd with ⟨s, hs⟩ | hs | ⟨p', n', hs, hname'⟩
  · cases hs.unique hsep (solid_rbrace _) hsolid
    exact (name_head_ne hname (by decide)).elim
  · rw [sepEnd_iff, hsep.skip_eq hsolid] at hs
    exact absurd hs hsolid.ne_nil
  · cases hs.unique hsep (solid_of_name hname') hsolid
    exact (hname.unique hname').2

theorem Done.not_leaf {x : Leaf} (hd : Done A q) (hsep : Sep q p) (hname : Run A.name p n p₁)
    (htail : LeafTail A n p₁ x p₂) : False := by
  cases hd.name_end hsep hname
  exact not_leafTail_nil htail

theorem Done.not_opens {k : BlockKind} (hd : Done A q) (hsep : Sep q p) (hname : Run A.name p w p₁)
    (hopens : Opens A top w p₁ k n p₂) : False := by
  cases hd.name_end hsep hname
  exact not_opens_nil hopens

/-- **読める所まで読むと、木も残りも一つに決まる。** -/
theorem Parses.unique {t t' : Entries} (h : Parses A top p t q) :
    Parses A top p t' q' → Done A q → Done A q' → t = t' ∧ q = q' := by
  -- 一つ目の読み方についての帰納法。二つ目の読み方が違う形で始まる場合は、先頭の字句が食い違う
  induction h generalizing t' q' with
  | nil p =>
    intro h' hd _
    cases h' with
    | nil => exact ⟨rfl, rfl⟩
    | leaf hsep hname htail _ => exact (hd.not_leaf hsep hname htail).elim
    | block hsep hword hopens _ _ _ => exact (hd.not_opens hsep hword hopens).elim
  | leaf hsep hname htail _ ih =>
    intro h' hd hd'
    cases h' with
    | nil => exact (hd'.not_leaf hsep hname htail).elim
    | leaf hsep' hname' htail' h' =>
      cases hsep.unique hsep' (solid_of_name hname) (solid_of_name hname')
      obtain ⟨rfl, rfl⟩ := hname.unique hname'
      obtain ⟨rfl, rfl⟩ := htail.unique htail'
      obtain ⟨rfl, rfl⟩ := ih h' hd hd'
      exact ⟨rfl, rfl⟩
    | block hsep' hword' hopens' _ _ _ =>
      cases hsep.unique hsep' (solid_of_name hname) (solid_of_name hword')
      obtain ⟨rfl, rfl⟩ := hname.unique hword'
      exact (htail.not_opens hopens').elim
  | block hsep hword hopens _ hclose _ ihsub ih =>
    intro h' hd hd'
    cases h' with
    | nil => exact (hd'.not_opens hsep hword hopens).elim
    | leaf hsep' hname' htail' _ =>
      cases hsep.unique hsep' (solid_of_name hword) (solid_of_name hname')
      obtain ⟨rfl, rfl⟩ := hword.unique hname'
      exact (htail'.not_opens hopens).elim
    | block hsep' hword' hopens' hsub' hclose' h' =>
      cases hsep.unique hsep' (solid_of_name hword) (solid_of_name hword')
      obtain ⟨rfl, rfl⟩ := hword.unique hword'
      obtain ⟨rfl, rfl, rfl⟩ := hopens.unique hopens'
      obtain ⟨rfl, rfl⟩ := ihsub hsub' (Or.inl ⟨_, hclose⟩) (Or.inl ⟨_, hclose'⟩)
      cases hclose.unique hclose' (solid_rbrace _) (solid_rbrace _)
      obtain ⟨rfl, rfl⟩ := ih h' hd hd'
      exact ⟨rfl, rfl⟩

/-! ## 残りは後ろの部分である -/

theorem Value.suffix (h : Value A p v q) : q <:+ p := h.1.suffix

theorem MoreValues.suffix {vs : List Bytes} (h : MoreValues A p vs q) : q <:+ p := by
  induction h with
  | close h => exact (List.suffix_cons _ _).trans h.suffix
  | comma hcomma hsep hv _ ih =>
    exact ih.trans (hv.suffix.trans (hsep.suffix.trans ((List.suffix_cons _ _).trans hcomma.suffix)))

theorem Values.suffix {vs : List Bytes} (h : Values A p vs q) : q <:+ p := by
  rcases h with h | ⟨hsep, hv, h⟩
  · exact (List.suffix_cons _ _).trans h.suffix
  · exact h.suffix.trans (hv.suffix.trans hsep.suffix)

theorem LeafTail.suffix {x : Leaf} (h : LeafTail A n p x q) : q <:+ p := by
  rcases h with ⟨-, hsep, hv, -, hend⟩ | ⟨hopen, h⟩
  · exact (List.suffix_cons _ _).trans (hend.suffix.trans (hv.suffix.trans hsep.suffix))
  · exact h.suffix.trans ((List.suffix_cons _ _).trans hopen.suffix)

theorem Opens.suffix {k : BlockKind} (h : Opens A top w p k n q) : q <:+ p := by
  rcases h with hopen | ⟨-, -, hsep, hname, hopen⟩
  · exact (List.suffix_cons _ _).trans hopen.suffix
  · exact (List.suffix_cons _ _).trans (hopen.suffix.trans (hname.suffix.trans hsep.suffix))

theorem Parses.suffix {t : Entries} (h : Parses A top p t q) : q <:+ p := by
  induction h with
  | nil p => exact List.suffix_refl p
  | leaf hsep hname htail _ ih =>
    exact ih.trans (htail.suffix.trans (hname.suffix.trans hsep.suffix))
  | block hsep hword hopens _ hclose _ ihsub ih =>
    refine ih.trans ((List.suffix_cons _ _).trans (hclose.suffix.trans (ihsub.trans ?_)))
    exact hopens.suffix.trans (hword.suffix.trans hsep.suffix)

/-! ## 表の取り替え -/

/-- 二つの表が `p` の文字の上で一致する。 -/
def Agree (A B : Alphabet) (p : Bytes) : Prop :=
  ∀ b ∈ p, A.name b = B.name b ∧ A.value b = B.value b

theorem Agree.mono (h : Agree A B p) (hq : q <:+ p) : Agree A B q :=
  fun b hb => h b (hq.subset hb)

theorem Agree.symm (h : Agree A B p) : Agree B A p :=
  fun b hb => ⟨(h b hb).1.symm, (h b hb).2.symm⟩

theorem Agree.run_name (h : Agree A B p) (hn : Run A.name p n q) : Run B.name p n q :=
  hn.congr fun b hb => (h b hb).1

theorem Agree.value (h : Agree A B p) (hv : Value A p v q) : Value B p v q :=
  ⟨hv.1.congr fun b hb => (h b hb).2, hv.2⟩

theorem MoreValues.congr {vs : List Bytes} (h : MoreValues A p vs q) :
    Agree A B p → MoreValues B p vs q := by
  induction h with
  | close h =>
    intro _
    exact .close h
  | comma hcomma hsep hv _ ih =>
    intro hAB
    have hAB₂ := hAB.mono (hsep.suffix.trans ((List.suffix_cons _ _).trans hcomma.suffix))
    exact .comma hcomma hsep (hAB₂.value hv) (ih (hAB₂.mono hv.suffix))

theorem Values.congr {vs : List Bytes} (h : Values A p vs q) (hAB : Agree A B p) :
    Values B p vs q := by
  rcases h with h | ⟨hsep, hv, h⟩
  · exact .close h
  · have hAB₁ := hAB.mono hsep.suffix
    exact .first hsep (hAB₁.value hv) (h.congr (hAB₁.mono hv.suffix))

theorem LeafTail.congr {x : Leaf} (h : LeafTail A n p x q) (hAB : Agree A B p) :
    LeafTail B n p x q := by
  rcases h with ⟨hn, hsep, hv, hhead, hend⟩ | ⟨hopen, h⟩
  · exact .value hn hsep ((hAB.mono hsep.suffix).value hv) hhead hend
  · exact .array hopen (h.congr (hAB.mono ((List.suffix_cons _ _).trans hopen.suffix)))

theorem Opens.congr {k : BlockKind} (h : Opens A top w p k n q) (hAB : Agree A B p) :
    Opens B top w p k n q := by
  rcases h with hopen | ⟨htop, hw, hsep, hname, hopen⟩
  · exact .sub hopen
  · exact .proc htop hw hsep ((hAB.mono hsep.suffix).run_name hname) hopen

/-- **現れる文字の上で一致する表なら、読み方も同じである。** -/
theorem Parses.congr {t : Entries} (h : Parses A top p t q) :
    Agree A B p → Parses B top p t q := by
  induction h with
  | nil p =>
    intro _
    exact .nil p
  | leaf hsep hname htail _ ih =>
    intro hAB
    have hAB₁ := hAB.mono hsep.suffix
    have hAB₂ := hAB₁.mono hname.suffix
    exact .leaf hsep (hAB₁.run_name hname) (htail.congr hAB₂) (ih (hAB₂.mono htail.suffix))
  | block hsep hword hopens hsub hclose _ ihsub ih =>
    intro hAB
    have hAB₁ := hAB.mono hsep.suffix
    have hAB₂ := hAB₁.mono hword.suffix
    have hAB₃ := hAB₂.mono hopens.suffix
    have hAB₅ := (hAB₃.mono hsub.suffix).mono ((List.suffix_cons _ _).trans hclose.suffix)
    exact .block hsep (hAB₁.run_name hword) (hopens.congr hAB₂) (ihsub hAB₃) hclose (ih hAB₅)

end RecordServer.Conf
