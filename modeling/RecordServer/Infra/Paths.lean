import RecordServer.Infra.Bytes
import Mathlib.Data.List.Infix

/-!
# file の path

`/` で区切った path を、根から名前を並べた場所に解決する。`.` と空の component は動かず、`..` は一つ上がる。
symbolic link は無いものとする。

* `resolve` — path の指す場所
* `cuts` / `places` — path が component ごとに通る path と場所
* `Tree` — directory と file の木。どの node の親も directory である
* `Tree.mkdir` — 途中がみな directory で、まだ無い場所にだけ作る
-/

namespace RecordServer.Infra

/-- 根からの名前の列。 -/
abbrev Place := List Bytes

def slash : UInt8 := 47

/-- component を一つ辿る。 -/
def enter (cur : Place) (c : Bytes) : Place :=
  if c = [] ∨ c = ascii "." then cur
  else if c = ascii ".." then cur.dropLast
  else cur ++ [c]

/-- 場所 `cur` で component `c` を読みかけたところから、残りを辿った先。 -/
def resolveFrom (cur : Place) (c : Bytes) : Bytes → Place
  | [] => enter cur c
  | b :: s => if b = slash then resolveFrom (enter cur c) [] s else resolveFrom cur (c ++ [b]) s

/-- 絶対 path の指す場所。 -/
def resolve (s : Bytes) : Place := resolveFrom [] [] s

/-- `pre` の続きで、`/` に着くごとのそこまでの path。 -/
def cutsFrom (pre : Bytes) : Bytes → List Bytes
  | [] => []
  | b :: s => if b = slash then pre :: cutsFrom (pre ++ [b]) s else cutsFrom (pre ++ [b]) s

/-- 途中の directory の path。 -/
def cuts (s : Bytes) : List Bytes := cutsFrom [] s

/-- path が component ごとに通る場所。 -/
def places (s : Bytes) : List Place := (cuts s ++ [s]).map resolve

/-- 最後の `/` の位置。 -/
def rfindSlash : Bytes → Option Nat
  | [] => none
  | b :: s =>
    match rfindSlash s with
    | some i => some (i + 1)
    | none => if b = slash then some 0 else none

/-- 最後の `/` まで。 -/
def dirPart (s : Bytes) : Bytes :=
  match rfindSlash s with
  | some i => s.take (i + 1)
  | none => []

/-- 最後の `/` の後。 -/
def namePart (s : Bytes) : Bytes :=
  match rfindSlash s with
  | some i => s.drop (i + 1)
  | none => s

/-- 続いた `/` を一つにする。 -/
def squeeze : Bytes → Bytes
  | [] => []
  | [b] => [b]
  | b :: b' :: s => if b = slash ∧ b' = slash then squeeze (b' :: s) else b :: squeeze (b' :: s)

/-! ## 最後の `/` -/

theorem rfindSlash_eq_none {s : Bytes} (h : slash ∉ s) : rfindSlash s = none := by
  induction s with
  | nil => rfl
  | cons b s ih =>
    obtain ⟨hb, hs⟩ := not_or.mp (List.mem_cons.not.mp h)
    rw [rfindSlash, ih hs]
    exact if_neg (Ne.symm hb)

theorem rfindSlash_append (a : Bytes) {n : Bytes} (h : slash ∉ n) :
    rfindSlash (a ++ slash :: n) = some a.length := by
  induction a with
  | nil => simp [rfindSlash, rfindSlash_eq_none h]
  | cons b a ih => simp [rfindSlash, ih]

/-- `/` を含めば、最後の `/` で分かれる。 -/
theorem split_last_slash {s : Bytes} (h : slash ∈ s) : ∃ a n, s = a ++ slash :: n ∧ slash ∉ n := by
  obtain ⟨as, bs, heq, hnot⟩ := List.eq_append_cons_of_mem (List.mem_reverse.mpr h)
  refine ⟨bs.reverse, as.reverse, ?_, by simpa using hnot⟩
  have hrev := congrArg List.reverse heq
  simpa using hrev

theorem namePart_suffix (s : Bytes) : namePart s <:+ s := by
  unfold namePart
  split
  · exact List.drop_suffix _ _
  · exact List.suffix_rfl

theorem dirPart_append {x n : Bytes} (h : slash ∉ n) : dirPart (x ++ n) = dirPart x := by
  by_cases hx : slash ∈ x
  · obtain ⟨a, m, rfl, hm⟩ := split_last_slash hx
    have hmn : slash ∉ m ++ n := by simp [hm, h]
    rw [dirPart, dirPart, List.append_assoc, List.cons_append, rfindSlash_append a hmn,
      rfindSlash_append a hm]
    simp [List.take_append]
  · rw [dirPart, dirPart, rfindSlash_eq_none (by simp [hx, h]), rfindSlash_eq_none hx]

theorem namePart_append {x n : Bytes} (h : slash ∉ n) : namePart (x ++ n) = namePart x ++ n := by
  by_cases hx : slash ∈ x
  · obtain ⟨a, m, rfl, hm⟩ := split_last_slash hx
    have hmn : slash ∉ m ++ n := by simp [hm, h]
    rw [namePart, namePart, List.append_assoc, List.cons_append, rfindSlash_append a hmn,
      rfindSlash_append a hm]
    simp [List.drop_append]
  · rw [namePart, namePart, rfindSlash_eq_none (by simp [hx, h]), rfindSlash_eq_none hx]

theorem dirPart_concat_slash (p : Bytes) : dirPart (p ++ [slash]) = p ++ [slash] := by
  rw [dirPart, rfindSlash_append p (by simp)]
  simp

theorem namePart_concat_slash (p : Bytes) : namePart (p ++ [slash]) = [] := by
  rw [namePart, rfindSlash_append p (by simp)]
  simp

/-- 名前が残らないのは、空か `/` で終わるときである。 -/
theorem namePart_eq_nil {s : Bytes} (h : namePart s = []) : s = [] ∨ ∃ p, s = p ++ [slash] := by
  by_cases hs : slash ∈ s
  · obtain ⟨a, n, rfl, hn⟩ := split_last_slash hs
    rw [namePart, rfindSlash_append a hn] at h
    have hnil : n = [] := by simpa [List.drop_append] using h
    exact .inr ⟨a, by rw [hnil]⟩
  · rw [namePart, rfindSlash_eq_none hs] at h
    exact .inl h

theorem squeeze_eq_nil {s : Bytes} : squeeze s = [] ↔ s = [] := by
  fun_induction squeeze s with
  | case1 => simp
  | case2 => simp
  | case3 b b' s h ih => simpa using ih
  | case4 => simp

theorem squeeze_concat_slash (p : Bytes) :
    squeeze (p ++ [slash] ++ [slash]) = squeeze (p ++ [slash]) := by
  induction p with
  | nil => rfl
  | cons a p ih =>
    cases p with
    | nil =>
      by_cases ha : a = slash <;> simp [squeeze, ha]
    | cons b p =>
      simp only [List.cons_append] at ih ⊢
      rw [squeeze, squeeze, ih]

/-! ## 解決 -/

@[simp] theorem enter_nil (cur : Place) : enter cur [] = cur := if_pos (.inl rfl)

theorem resolveFrom_append_slash (cur : Place) (c a s : Bytes) :
    resolveFrom cur c (a ++ slash :: s) = resolveFrom (resolveFrom cur c a) [] s := by
  induction a generalizing cur c with
  | nil => simp [resolveFrom]
  | cons b a ih =>
    rw [List.cons_append, resolveFrom, resolveFrom]
    split
    · exact ih _ _
    · exact ih _ _

theorem resolveFrom_of_not_mem (cur : Place) (c : Bytes) {n : Bytes} (h : slash ∉ n) :
    resolveFrom cur c n = enter cur (c ++ n) := by
  induction n generalizing c with
  | nil => simp [resolveFrom]
  | cons b n ih =>
    obtain ⟨hb, hn⟩ := not_or.mp (List.mem_cons.not.mp h)
    rw [resolveFrom, if_neg (Ne.symm hb), ih _ hn, List.append_assoc]
    rfl

theorem resolve_append (a : Bytes) {n : Bytes} (h : slash ∉ n) :
    resolve (a ++ slash :: n) = enter (resolve a) n := by
  rw [resolve, resolveFrom_append_slash, resolveFrom_of_not_mem _ _ h]
  rfl

@[simp] theorem resolve_nil : resolve [] = [] := rfl

@[simp] theorem resolve_concat_slash (s : Bytes) : resolve (s ++ [slash]) = resolve s := by
  rw [resolve_append s (by simp), enter_nil]

theorem cutsFrom_concat (pre s : Bytes) (b : UInt8) :
    cutsFrom pre (s ++ [b]) = cutsFrom pre s ++ if b = slash then [pre ++ s] else [] := by
  induction s generalizing pre with
  | nil =>
    by_cases hb : b = slash <;> simp [cutsFrom, hb]
  | cons a s ih =>
    rw [List.cons_append, cutsFrom, cutsFrom, ih]
    by_cases ha : a = slash
    · simp [ha]
    · simp [ha]

theorem cuts_concat (s : Bytes) (b : UInt8) :
    cuts (s ++ [b]) = cuts s ++ if b = slash then [s] else [] := cutsFrom_concat [] s b

theorem cuts_concat_slash (s : Bytes) : cuts (s ++ [slash]) = cuts s ++ [s] := by
  rw [cuts_concat, if_pos rfl]

/-- 長い path の途中には、短い path の途中がみなある。 -/
theorem cuts_subset_append (s s' : Bytes) : cuts s ⊆ cuts (s ++ s') := by
  induction s' using List.reverseRecOn with
  | nil => simp
  | append_singleton s' b ih =>
    rw [← List.append_assoc, cuts_concat]
    exact fun d hd => List.mem_append_left _ (ih hd)

theorem cuts_append_of_not_mem (s : Bytes) {n : Bytes} (h : slash ∉ n) : cuts (s ++ n) = cuts s := by
  induction n using List.reverseRecOn with
  | nil => rw [List.append_nil]
  | append_singleton n b ih =>
    have hb : b ≠ slash := fun hb => h (by simp [hb])
    rw [← List.append_assoc, cuts_concat, if_neg hb, List.append_nil]
    exact ih fun hn => h (List.mem_append_left _ hn)

theorem cuts_append_slash (a : Bytes) {n : Bytes} (h : slash ∉ n) :
    cuts (a ++ slash :: n) = cuts a ++ [a] := by
  rw [List.append_cons, cuts_append_of_not_mem _ h, cuts_concat_slash]

/-- 最後の `/` で分けていく induction。 -/
theorem slash_induction {motive : Bytes → Prop} (last : ∀ n, slash ∉ n → motive n)
    (step : ∀ a n, slash ∉ n → motive a → motive (a ++ slash :: n)) (s : Bytes) : motive s := by
  induction hlen : s.length using Nat.strong_induction_on generalizing s with
  | _ k ih =>
    by_cases hs : slash ∈ s
    · obtain ⟨a, n, rfl, hn⟩ := split_last_slash hs
      refine step a n hn (ih a.length ?_ a rfl)
      rw [← hlen, List.length_append, List.length_cons]
      omega
    · exact last s hs

theorem mem_cuts_append_slash (a n : Bytes) : a ∈ cuts (a ++ slash :: n) := by
  have hsub := cuts_subset_append (a ++ [slash]) n
  rw [List.append_assoc, List.singleton_append] at hsub
  exact hsub (by simp [cuts_concat_slash])

/-- 一つ辿った先は、その場か、親か、子である。 -/
theorem enter_cases (cur : Place) (c : Bytes) :
    enter cur c = cur ∨ enter cur c = cur.dropLast ∨ (enter cur c).dropLast = cur := by
  unfold enter
  split
  · exact .inl rfl
  · split
    · exact .inr (.inl rfl)
    · exact .inr (.inr (by simp))

/-- path の最後の一歩は、途中の場所か根からである。 -/
theorem exists_last_step (s : Bytes) :
    ∃ q n, resolve s = enter q n ∧ (q = [] ∨ ∃ d ∈ cuts s, resolve d = q) := by
  by_cases hs : slash ∈ s
  · obtain ⟨a, n, rfl, hn⟩ := split_last_slash hs
    exact ⟨resolve a, n, resolve_append a hn, .inr ⟨a, mem_cuts_append_slash a n, rfl⟩⟩
  · exact ⟨[], s, resolveFrom_of_not_mem [] [] hs, .inl rfl⟩

/-! ## 親で閉じた場所の列 -/

/-- どの場所の親も、根か、列の中にある。 -/
def ParentClosed (ps : List Place) : Prop := ∀ p ∈ ps, p.dropLast = [] ∨ p.dropLast ∈ ps

theorem ParentClosed.append {ps qs : List Place} (hp : ParentClosed ps) (hq : ParentClosed qs) :
    ParentClosed (ps ++ qs) := by
  intro p hmem
  rcases List.mem_append.mp hmem with h | h
  · exact (hp p h).imp id (List.mem_append_left _)
  · exact (hq p h).imp id (List.mem_append_right _)

/-- 親で閉じた列の場所から一つ辿った先の親も、根か、列の中にある。 -/
theorem ParentClosed.enter {ps : List Place} (h : ParentClosed ps) {q : Place}
    (hq : q = [] ∨ q ∈ ps) (n : Bytes) :
    (enter q n).dropLast = [] ∨ (enter q n).dropLast ∈ ps := by
  have hparent : ∀ q, q = [] ∨ q ∈ ps → q.dropLast = [] ∨ q.dropLast ∈ ps := by
    rintro q (rfl | hq)
    · exact .inl rfl
    · exact h q hq
  rcases enter_cases q n with heq | heq | heq
  · rw [heq]
    exact hparent q hq
  · rw [heq]
    exact hparent _ (hparent q hq)
  · rw [heq]
    exact hq

theorem parentClosed_cuts (s : Bytes) : ParentClosed ((cuts s).map resolve) := by
  induction s using List.reverseRecOn with
  | nil => simp [ParentClosed, cuts, cutsFrom]
  | append_singleton s b ih =>
    by_cases hb : b = slash
    · subst hb
      rw [cuts_concat_slash, List.map_append]
      intro p hp
      rcases List.mem_append.mp hp with hp | hp
      · exact (ih p hp).imp id (List.mem_append_left _)
      · obtain rfl := List.mem_singleton.mp hp
        obtain ⟨q, n, heq, hq⟩ := exists_last_step s
        rw [heq]
        exact (ih.enter (hq.imp id List.mem_map.mpr) n).imp id (List.mem_append_left _)
    · rw [cuts_concat, if_neg hb, List.append_nil]
      exact ih

theorem parentClosed_places (s : Bytes) : ParentClosed (places s) := by
  have h := parentClosed_cuts (s ++ [slash])
  rwa [cuts_concat_slash] at h

/-! ## 木 -/

inductive Kind where
  | dir
  | file
deriving DecidableEq, Repr

structure Tree where
  node : Place → Option Kind
  top : node [] = some .dir
  parent : ∀ p, node p ≠ none → node p.dropLast = some .dir

namespace Tree

def IsDir (t : Tree) (p : Place) : Prop := t.node p = some .dir

instance (t : Tree) (p : Place) : Decidable (t.IsDir p) := inferInstanceAs (Decidable (_ = _))

/-- 途中の場所がみな directory である。 -/
def Passes (t : Tree) (s : Bytes) : Prop := s ≠ [] ∧ ∀ d ∈ cuts s, t.IsDir (resolve d)

instance (t : Tree) (s : Bytes) : Decidable (t.Passes s) := inferInstanceAs (Decidable (_ ∧ _))

/-- `access(s, F_OK)` が成功する。 -/
def Access (t : Tree) (s : Bytes) : Prop := t.Passes s ∧ t.node (resolve s) ≠ none

instance (t : Tree) (s : Bytes) : Decidable (t.Access s) := inferInstanceAs (Decidable (_ ∧ _))

/-- `opendir(s)` が成功する。 -/
def Opendir (t : Tree) (s : Bytes) : Prop := t.Passes s ∧ t.IsDir (resolve s)

instance (t : Tree) (s : Bytes) : Decidable (t.Opendir s) := inferInstanceAs (Decidable (_ ∧ _))

/-- 親が directory である場所に node を足す。 -/
def add (t : Tree) (p : Place) (k : Kind) (h : t.IsDir p.dropLast ∧ t.node p = none) : Tree where
  node := fun q => if q = p then some k else t.node q
  top := by
    have hne : [] ≠ p := by
      rintro rfl
      exact absurd t.top (by rw [h.2]; decide)
    rw [if_neg hne]
    exact t.top
  parent q hq := by
    have hdir : t.node q.dropLast = some .dir := by
      by_cases hqp : q = p
      · rw [hqp]
        exact h.1
      · rw [if_neg hqp] at hq
        exact t.parent q hq
    rw [if_neg fun heq => by rw [heq, h.2] at hdir; cases hdir]
    exact hdir

/-- 親で閉じた場所だけが directory である木。 -/
def ofPlaces (ps : List Place) (h : ParentClosed ps) : Tree where
  node p := if p = [] ∨ p ∈ ps then some .dir else none
  top := by simp
  parent p hp := by
    have hmem : p = [] ∨ p ∈ ps := by
      by_contra hnot
      exact hp (if_neg hnot)
    refine if_pos ?_
    rcases hmem with rfl | hmem
    · exact .inl rfl
    · exact h p hmem

/-- 末尾の `/` を除く。 -/
def trimSlashes (s : Bytes) : Bytes := (s.reverse.dropWhile (· = slash)).reverse

/-- `mkdir(s)`。作れなければ木は変わらない。 -/
def mkdir (t : Tree) (s : Bytes) : Tree :=
  let s := trimSlashes s
  if h : t.Passes s ∧ t.IsDir (resolve s).dropLast ∧ t.node (resolve s) = none then
    t.add (resolve s) .dir h.2
  else t

/-- `open(s, O_RDWR | O_CREAT)`。成功したかと、後の木。 -/
def openCreat (t : Tree) (s : Bytes) : Bool × Tree :=
  if h : t.Passes s ∧ t.IsDir (resolve s).dropLast ∧ t.node (resolve s) = none then
    (true, t.add (resolve s) .file h.2)
  else (decide (t.Passes s ∧ t.node (resolve s) = some .file), t)

/-! ## 木の操作 -/

variable {t : Tree} {s : Bytes} {p q : Place}

theorem isDir_ofPlaces {ps : List Place} {h : ParentClosed ps} :
    (ofPlaces ps h).IsDir p ↔ p = [] ∨ p ∈ ps := by
  show (if p = [] ∨ p ∈ ps then some Kind.dir else none) = some .dir ↔ _
  split <;> simp [*]

theorem node_ofPlaces {ps : List Place} {h : ParentClosed ps} :
    (ofPlaces ps h).node p = none ↔ ¬ (p = [] ∨ p ∈ ps) := by
  show (if p = [] ∨ p ∈ ps then some Kind.dir else none) = none ↔ _
  split <;> simp [*]

theorem trimSlashes_concat (s : Bytes) {b : UInt8} (hb : b ≠ slash) :
    trimSlashes (s ++ [b]) = s ++ [b] := by
  simp [trimSlashes, hb]

theorem resolve_trimSlashes (s : Bytes) : resolve (trimSlashes s) = resolve s := by
  induction s using List.reverseRecOn with
  | nil => rfl
  | append_singleton s b ih =>
    by_cases hb : b = slash
    · subst hb
      rw [resolve_concat_slash, ← ih]
      simp [trimSlashes]
    · rw [trimSlashes_concat s hb]

/-- `mkdir` は、無かった場所に directory を一つ作るか、何もしない。 -/
theorem mkdir_cases (t : Tree) (s : Bytes) :
    t.mkdir s = t ∨ (t.node (resolve s) = none ∧
      ∀ q, (t.mkdir s).node q = if q = resolve s then some .dir else t.node q) := by
  by_cases h : t.Passes (trimSlashes s) ∧ t.IsDir (resolve (trimSlashes s)).dropLast ∧
      t.node (resolve (trimSlashes s)) = none
  · refine .inr ⟨resolve_trimSlashes s ▸ h.2.2, fun q => ?_⟩
    rw [mkdir, dif_pos h, ← resolve_trimSlashes s]
    rfl
  · exact .inl (dif_neg h)

/-- 途中がみな directory なら、無い場所の親も directory である。 -/
theorem isDir_parent (hcuts : ∀ d ∈ cuts s, t.IsDir (resolve d)) (hnone : t.node (resolve s) = none) :
    t.IsDir (resolve s).dropLast := by
  obtain ⟨q, n, heq, hq⟩ := exists_last_step s
  have hdir : t.IsDir q := by
    rcases hq with rfl | ⟨d, hd, rfl⟩
    · exact t.top
    · exact hcuts d hd
  have hne : t.node q ≠ none := by rw [hdir]; decide
  rw [heq] at hnone ⊢
  rcases enter_cases q n with h | h | h
  · rw [h] at hnone
    exact absurd hnone hne
  · rw [h, t.parent q hne] at hnone
    cases hnone
  · rw [h]
    exact hdir

/-- 途中がみな directory なら、`mkdir` は無い場所を作る。 -/
theorem isDir_mkdir (hpass : t.Passes s) (hnone : t.node (resolve s) = none) :
    (t.mkdir s).IsDir (resolve s) := by
  obtain ⟨s', b, rfl⟩ : ∃ s' b, s = s' ++ [b] :=
    (List.eq_nil_or_concat s).elim (fun h => absurd h hpass.1) fun ⟨s', b, h⟩ =>
      ⟨s', b, by rw [h, List.concat_eq_append]⟩
  -- `/` で終わる path の指す場所は、途中の場所でもある。
  have hb : b ≠ slash := by
    rintro rfl
    have hdir := hpass.2 s' (by simp [cuts_concat_slash])
    rw [resolve_concat_slash, hdir] at hnone
    cases hnone
  have hmk : t.Passes (trimSlashes (s' ++ [b])) ∧
      t.IsDir (resolve (trimSlashes (s' ++ [b]))).dropLast ∧
      t.node (resolve (trimSlashes (s' ++ [b]))) = none := by
    rw [trimSlashes_concat s' hb]
    exact ⟨hpass, isDir_parent hpass.2 hnone, hnone⟩
  unfold mkdir
  rw [dif_pos hmk]
  show (if resolve (s' ++ [b]) = _ then some Kind.dir else _) = some .dir
  rw [resolve_trimSlashes, if_pos rfl]

/-- `open` が成功したなら、途中はみな directory で、そこは directory でない。 -/
theorem openCreat_true {t' : Tree} (h : t.openCreat s = (true, t')) :
    t.Passes s ∧ ¬ t.IsDir (resolve s) := by
  unfold openCreat at h
  split at h
  · rename_i hnew
    refine ⟨hnew.1, fun hdir => ?_⟩
    rw [IsDir, hnew.2.2] at hdir
    cases hdir
  · obtain ⟨hpass, hfile⟩ : t.Passes s ∧ t.node (resolve s) = some .file := by
      simpa using congrArg Prod.fst h
    refine ⟨hpass, fun hdir => ?_⟩
    rw [IsDir, hfile] at hdir
    cases hdir

/-- 途中がみな directory で、そこに何も無ければ、`open` は成功する。 -/
theorem openCreat_new (hpass : t.Passes s) (hnone : t.node (resolve s) = none) :
    ∃ t', t.openCreat s = (true, t') := by
  have hnew := And.intro hpass (And.intro (isDir_parent hpass.2 hnone) hnone)
  exact ⟨_, by rw [openCreat, dif_pos hnew]⟩

/-- `open` が成功するのは、途中がみな directory で、そこが directory でないときに限る。 -/
theorem openCreat_fst_iff : (t.openCreat s).1 = true ↔ t.Passes s ∧ ¬ t.IsDir (resolve s) := by
  constructor
  · exact fun h => openCreat_true (Prod.ext h rfl)
  · rintro ⟨hpass, hdir⟩
    cases hk : t.node (resolve s) with
    | none =>
      obtain ⟨t', ht'⟩ := openCreat_new hpass hk
      rw [ht']
    | some k =>
      cases k with
      | dir => exact absurd hk hdir
      | file => simp [openCreat, hk, hpass]

/-- 成功した `open` の後には、そこに file があり、ほかは変わらない。 -/
theorem openCreat_node (h : (t.openCreat s).1 = true) (q : Place) :
    (t.openCreat s).2.node q = if q = resolve s then some .file else t.node q := by
  by_cases hnew : t.Passes s ∧ t.IsDir (resolve s).dropLast ∧ t.node (resolve s) = none
  · rw [openCreat, dif_pos hnew]
    rfl
  · rw [openCreat, dif_neg hnew] at h ⊢
    have hfile : t.Passes s ∧ t.node (resolve s) = some .file := by simpa using h
    by_cases hq : q = resolve s
    · rw [if_pos hq, hq, hfile.2]
    · rw [if_neg hq]

/-- 失敗した `open` は、木を変えない。 -/
theorem openCreat_snd (h : (t.openCreat s).1 = false) : (t.openCreat s).2 = t := by
  by_cases hnew : t.Passes s ∧ t.IsDir (resolve s).dropLast ∧ t.node (resolve s) = none
  · rw [openCreat, dif_pos hnew] at h
    cases h
  · rw [openCreat, dif_neg hnew]

end Tree

end RecordServer.Infra
