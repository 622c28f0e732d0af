import RecordServer.Infra.Paths

/-!
# directory のつながり

directory に番号を付け、名前から別の directory への辺で結ぶ。同じ directory に幾つもの名前から着けるので、directory を
指す symbolic link もこの辺で表せる。相対 path は `cwd` から、絶対 path は `root` から辿る。

* `Dirs` — directory のつながり
* `locate` — path の最後の component のある directory と、その component
* `resolve` / `mkdir` — path の指すものと、`mkdir`
* `make` — path を根から順に、無い directory を作りながら辿る
* `Extends` — 在ったものはそのまま残り、directory だけが増えている
-/

namespace RecordServer.Infra

/-- 名前の指すもの。 -/
inductive DirEntry where
  | dir (d : Nat)
  | other
deriving DecidableEq, Repr

/-- directory のつながり。番号は `count` より前だけを使う。 -/
structure Dirs where
  count : Nat
  root : Nat
  cwd : Nat
  parent : Nat → Nat
  entry : Nat → Bytes → Option DirEntry
  root_lt : root < count
  cwd_lt : cwd < count
  parent_lt : ∀ d < count, parent d < count
  entry_dir : ∀ d c x, entry d c = some x → d < count
  entry_lt : ∀ d c e, entry d c = some (.dir e) → e < count

namespace Dirs

/-! ## 辿る -/

/-- directory `d` で component を一つ引く。 -/
def lookup (fs : Dirs) (d : Nat) (c : Bytes) : Option DirEntry :=
  if c = [] ∨ c = ascii "." then some (.dir d)
  else if c = ascii ".." then some (.dir (fs.parent d))
  else fs.entry d c

/-- directory `d` で component `c` を読みかけたところから、残りの最後の component まで辿る。 -/
def locate (fs : Dirs) (d : Nat) (c : Bytes) : Bytes → Option (Nat × Bytes)
  | [] => some (d, c)
  | b :: s =>
    if b = slash then
      match fs.lookup d c with
      | some (.dir e) => locate fs e [] s
      | _ => none
    else locate fs d (c ++ [b]) s

/-- path を辿り始める directory。 -/
def start (fs : Dirs) (s : Bytes) : Nat := if s.head? = some slash then fs.root else fs.cwd

/-- directory `d` から path を辿った先。 -/
def arrive (fs : Dirs) (d : Nat) (s : Bytes) : Option DirEntry :=
  match fs.locate d [] s with
  | some (e, c) => fs.lookup e c
  | none => none

/-- path の指すもの。空の path は何も指さない。 -/
def resolve (fs : Dirs) (s : Bytes) : Option DirEntry :=
  if s = [] then none else fs.arrive (fs.start s) s

/-! ## 作る -/

/-- 空の directory を `d` の中に作る。 -/
def create (fs : Dirs) (d : Nat) (c : Bytes) (hd : d < fs.count) : Dirs where
  count := fs.count + 1
  root := fs.root
  cwd := fs.cwd
  parent e := if e = fs.count then d else fs.parent e
  entry e x := if e = d ∧ x = c then some (.dir fs.count) else fs.entry e x
  root_lt := Nat.lt_succ_of_lt fs.root_lt
  cwd_lt := Nat.lt_succ_of_lt fs.cwd_lt
  parent_lt e he := by
    by_cases heq : e = fs.count
    · rw [if_pos heq]
      omega
    · rw [if_neg heq]
      exact Nat.lt_succ_of_lt (fs.parent_lt e (by omega))
  entry_dir e x y h := by
    by_cases heq : e = d ∧ x = c
    · omega
    · rw [if_neg heq] at h
      exact Nat.lt_succ_of_lt (fs.entry_dir e x y h)
  entry_lt e x y h := by
    by_cases heq : e = d ∧ x = c
    · rw [if_pos heq] at h
      injection h with h
      injection h with h
      omega
    · rw [if_neg heq] at h
      exact Nat.lt_succ_of_lt (fs.entry_lt e x y h)

/-- `d` が directory なら、その中に `c` を作る。 -/
def add (fs : Dirs) (d : Nat) (c : Bytes) : Dirs :=
  if hd : d < fs.count then fs.create d c hd else fs

/-- `access(s, F_OK)` が成功する。 -/
def access (fs : Dirs) (s : Bytes) : Bool := (fs.resolve s).isSome

/-- `mkdir(s)`。親が在り、名前がまだ無ければ成功する。末尾の `/` は名前に入らない。 -/
def mkdir (fs : Dirs) (s : Bytes) : Bool × Dirs :=
  match fs.locate (fs.start s) [] (Tree.trimSlashes s) with
  | some (d, c) => if fs.lookup d c = none then (true, fs.add d c) else (false, fs)
  | none => (false, fs)

/-- component を一つ辿る。無ければ作り、directory でないものには入れない。 -/
def enterOrAdd (fs : Dirs) (d : Nat) (c : Bytes) : Option (Nat × Dirs) :=
  match fs.lookup d c with
  | some (.dir e) => some (e, fs)
  | some .other => none
  | none => some (fs.count, fs.add d c)

/-- directory `d` で component `c` を読みかけたところから、無い directory を作りながら残りを辿る。 -/
def makeFrom (fs : Dirs) (d : Nat) (c : Bytes) : Bytes → Option (Nat × Dirs)
  | [] => fs.enterOrAdd d c
  | b :: s =>
    if b = slash then
      match fs.enterOrAdd d c with
      | some (e, fs) => makeFrom fs e [] s
      | none => none
    else makeFrom fs d (c ++ [b]) s

/-- path を根から、無い directory を作りながら辿る。 -/
def make (fs : Dirs) (s : Bytes) : Option (Nat × Dirs) := fs.makeFrom (fs.start s) [] s

/-- 作りながら辿る途中で、directory でない component に着かない。 -/
def Clear (fs : Dirs) (s : Bytes) : Prop := (fs.make s).isSome

instance (fs : Dirs) (s : Bytes) : Decidable (fs.Clear s) := inferInstanceAs (Decidable (_ = true))

variable {fs fs' fs'' : Dirs} {d e : Nat} {c n s : Bytes}

@[simp] theorem lookup_nil (fs : Dirs) (d : Nat) : fs.lookup d [] = some (.dir d) := if_pos (.inl rfl)

theorem start_lt (fs : Dirs) (s : Bytes) : fs.start s < fs.count := by
  unfold start
  split
  · exact fs.root_lt
  · exact fs.cwd_lt

theorem lookup_lt (hd : d < fs.count) (h : fs.lookup d c = some (.dir e)) : e < fs.count := by
  unfold lookup at h
  split at h
  · simp only [Option.some.injEq, DirEntry.dir.injEq] at h
    omega
  · split at h
    · simp only [Option.some.injEq, DirEntry.dir.injEq] at h
      exact h ▸ fs.parent_lt d hd
    · exact fs.entry_lt d c e h

/-- 名前を引けないのは、`.` や `..` でない名前だけである。 -/
theorem lookup_eq_none (h : fs.lookup d c = none) :
    ¬ (c = [] ∨ c = ascii ".") ∧ c ≠ ascii ".." ∧ fs.entry d c = none := by
  unfold lookup at h
  split at h
  · cases h
  · rename_i hdot
    split at h
    · cases h
    · rename_i hup
      exact ⟨hdot, hup, h⟩

/-! ## path を `/` で分ける -/

theorem locate_of_not_mem (fs : Dirs) (d : Nat) (c : Bytes) (h : slash ∉ n) :
    fs.locate d c n = some (d, c ++ n) := by
  induction n generalizing c with
  | nil => simp [locate]
  | cons b n ih =>
    obtain ⟨hb, hn⟩ := not_or.mp (List.mem_cons.not.mp h)
    rw [locate, if_neg (Ne.symm hb), ih _ hn, List.append_assoc]
    rfl

theorem locate_append_slash (fs : Dirs) (d : Nat) (c a s : Bytes) :
    fs.locate d c (a ++ slash :: s) =
      match (fs.locate d c a).bind fun p => fs.lookup p.1 p.2 with
      | some (.dir e) => fs.locate e [] s
      | _ => none := by
  induction a generalizing d c with
  | nil => simp [locate]
  | cons b a ih =>
    rw [List.cons_append, locate, locate]
    split
    · split
      · exact ih _ _
      · rfl
    · exact ih _ _

theorem makeFrom_of_not_mem (fs : Dirs) (d : Nat) (c : Bytes) (h : slash ∉ n) :
    fs.makeFrom d c n = fs.enterOrAdd d (c ++ n) := by
  induction n generalizing c with
  | nil => simp [makeFrom]
  | cons b n ih =>
    obtain ⟨hb, hn⟩ := not_or.mp (List.mem_cons.not.mp h)
    rw [makeFrom, if_neg (Ne.symm hb), ih _ hn, List.append_assoc]
    rfl

theorem makeFrom_append_slash (fs : Dirs) (d : Nat) (c a s : Bytes) :
    fs.makeFrom d c (a ++ slash :: s) =
      (fs.makeFrom d c a).bind fun p => p.2.makeFrom p.1 [] s := by
  induction a generalizing fs d c with
  | nil =>
    show (if slash = slash then _ else _) = (fs.enterOrAdd d c).bind _
    rw [if_pos rfl]
    cases fs.enterOrAdd d c <;> rfl
  | cons b a ih =>
    rw [List.cons_append, makeFrom, makeFrom]
    split
    · split
      · exact ih _ _ _
      · rfl
    · exact ih _ _ _

/-! ## directory が増える -/

/-- 在ったものはそのまま残り、新しい名前は新しい directory だけを指す。 -/
structure Extends (fs fs' : Dirs) : Prop where
  count_le : fs.count ≤ fs'.count
  root_eq : fs'.root = fs.root
  cwd_eq : fs'.cwd = fs.cwd
  parent_eq : ∀ d < fs.count, fs'.parent d = fs.parent d
  entry_eq : ∀ d c, fs'.entry d c = fs.entry d c ∨
    fs.entry d c = none ∧ ∃ e, fs.count ≤ e ∧ fs'.entry d c = some (.dir e)

theorem Extends.refl (fs : Dirs) : fs.Extends fs :=
  ⟨Nat.le_refl _, rfl, rfl, fun _ _ => rfl, fun _ _ => .inl rfl⟩

theorem Extends.trans (h : fs.Extends fs') (h' : fs'.Extends fs'') : fs.Extends fs'' where
  count_le := Nat.le_trans h.count_le h'.count_le
  root_eq := h'.root_eq.trans h.root_eq
  cwd_eq := h'.cwd_eq.trans h.cwd_eq
  parent_eq d hd := (h'.parent_eq d (Nat.lt_of_lt_of_le hd h.count_le)).trans (h.parent_eq d hd)
  entry_eq d c := by
    rcases h.entry_eq d c with heq | ⟨hnone, e, he, hdir⟩
    · rcases h'.entry_eq d c with heq' | ⟨hnone', e, he, hdir⟩
      · exact .inl (heq'.trans heq)
      · exact .inr ⟨heq ▸ hnone', e, Nat.le_trans h.count_le he, hdir⟩
    · rcases h'.entry_eq d c with heq' | ⟨hnone', -⟩
      · exact .inr ⟨hnone, e, he, heq'.trans hdir⟩
      · rw [hdir] at hnone'
        cases hnone'

theorem extends_add (hnone : fs.lookup d c = none) : fs.Extends (fs.add d c) := by
  by_cases hd : d < fs.count
  · rw [add, dif_pos hd]
    refine ⟨Nat.le_succ _, rfl, rfl, fun e he => if_neg (Nat.ne_of_lt he), fun e x => ?_⟩
    by_cases heq : e = d ∧ x = c
    · obtain ⟨rfl, rfl⟩ := heq
      exact .inr ⟨(lookup_eq_none hnone).2.2, fs.count, Nat.le_refl _, if_pos ⟨rfl, rfl⟩⟩
    · exact .inl (if_neg heq)
  · rw [add, dif_neg hd]
    exact .refl fs

theorem lookup_add (hd : d < fs.count) (hnone : fs.lookup d c = none) :
    (fs.add d c).lookup d c = some (.dir fs.count) := by
  obtain ⟨hdot, hup, -⟩ := lookup_eq_none hnone
  rw [add, dif_pos hd, lookup, if_neg hdot, if_neg hup]
  exact if_pos ⟨rfl, rfl⟩

namespace Extends

theorem start_eq (h : fs.Extends fs') (s : Bytes) : fs'.start s = fs.start s := by
  rw [start, start, h.root_eq, h.cwd_eq]

theorem lookup_eq (h : fs.Extends fs') (hd : d < fs.count) {x : DirEntry}
    (hx : fs.lookup d c = some x) : fs'.lookup d c = some x := by
  unfold lookup at hx ⊢
  rw [h.parent_eq d hd]
  split
  · rwa [if_pos ‹_›] at hx
  · rw [if_neg ‹_›] at hx
    split
    · rwa [if_pos ‹_›] at hx
    · rw [if_neg ‹_›] at hx
      rcases h.entry_eq d c with heq | ⟨hnone, -⟩
      · rw [heq, hx]
      · rw [hnone] at hx
        cases hx

/-- 辿れた path は、directory が増えても同じ所へ着く。 -/
theorem locate_eq (h : fs.Extends fs') (hd : d < fs.count) {p : Nat × Bytes}
    (hp : fs.locate d c s = some p) : fs'.locate d c s = some p ∧ p.1 < fs.count := by
  induction s generalizing d c with
  | nil =>
    obtain rfl : (d, c) = p := by simpa [locate] using hp
    exact ⟨rfl, hd⟩
  | cons b s ih =>
    rw [locate] at hp ⊢
    split
    · rw [if_pos ‹_›] at hp
      split at hp
      · rename_i e hl
        rw [h.lookup_eq hd hl]
        exact ih (lookup_lt hd hl) hp
      · cases hp
    · rw [if_neg ‹_›] at hp
      exact ih hd hp

theorem arrive_eq (h : fs.Extends fs') (hd : d < fs.count) {x : DirEntry}
    (hx : fs.arrive d s = some x) : fs'.arrive d s = some x := by
  unfold arrive at hx ⊢
  split at hx
  · rename_i e c hp
    obtain ⟨hp', he⟩ := h.locate_eq hd hp
    rw [hp']
    exact h.lookup_eq he hx
  · cases hx

theorem resolve_eq (h : fs.Extends fs') {x : DirEntry} (hx : fs.resolve s = some x) :
    fs'.resolve s = some x := by
  unfold resolve at hx ⊢
  split at hx
  · cases hx
  · rw [if_neg ‹_›, h.start_eq]
    exact h.arrive_eq (fs.start_lt s) hx

end Extends

/-! ## 作りながら辿った先 -/

theorem enterOrAdd_spec (hd : d < fs.count) (h : fs.enterOrAdd d c = some (e, fs')) :
    fs.Extends fs' ∧ e < fs'.count ∧ fs'.lookup d c = some (.dir e) := by
  unfold enterOrAdd at h
  split at h
  · rename_i x hl
    obtain ⟨rfl, rfl⟩ : x = e ∧ fs = fs' := by simpa using h
    exact ⟨.refl fs, lookup_lt hd hl, hl⟩
  · cases h
  · rename_i hnone
    obtain ⟨rfl, rfl⟩ : fs.count = e ∧ fs.add d c = fs' := by simpa using h
    refine ⟨extends_add hnone, ?_, lookup_add hd hnone⟩
    rw [add, dif_pos hd]
    exact Nat.lt_succ_self _

/-- 作りながら辿った後では、同じ path がそこへ着く。 -/
theorem makeFrom_spec (hd : d < fs.count) (h : fs.makeFrom d c s = some (e, fs')) :
    fs.Extends fs' ∧ e < fs'.count ∧
      ∃ p, fs'.locate d c s = some p ∧ fs'.lookup p.1 p.2 = some (.dir e) := by
  induction s generalizing fs d c with
  | nil =>
    obtain ⟨hext, he, hl⟩ := enterOrAdd_spec hd h
    exact ⟨hext, he, (d, c), rfl, hl⟩
  | cons b s ih =>
    rw [makeFrom] at h
    rw [locate]
    split
    · rw [if_pos ‹_›] at h
      split at h
      · rename_i x fs₁ hx
        obtain ⟨hext, hx₁, hl⟩ := enterOrAdd_spec hd hx
        obtain ⟨hext', he, p, hp, hlast⟩ := ih hx₁ h
        rw [hext'.lookup_eq (Nat.lt_of_lt_of_le hd hext.count_le) hl]
        exact ⟨hext.trans hext', he, p, hp, hlast⟩
      · cases h
    · rw [if_neg ‹_›] at h
      exact ih hd h

theorem makeFrom_arrive (hd : d < fs.count) (h : fs.makeFrom d [] s = some (e, fs')) :
    fs'.arrive d s = some (.dir e) := by
  obtain ⟨-, -, p, hp, hl⟩ := makeFrom_spec hd h
  rw [arrive, hp]
  exact hl

end Dirs

end RecordServer.Infra
