import Mathlib.Analysis.SpecialFunctions.Log.Base

/-!
# 赤黒木と、その穴のある文脈

要素の型を選ばない赤黒木の一般論である。左右の対称な議論を一度で済ませるため、
節は「`d` 側の子」と「反対側の子」で組む（`RBTree.mk`）。

* `Balanced` — 色と黒の高さの条件
* `fill` — 穴から根へ向かう frame の列（`Path`）に部分木をはめる
* `PathBalanced` — 穴に何をはめれば全体が `Balanced` になるか
* `Balanced.unfill` / `PathBalanced.fill` — 全体の条件と、文脈・部分木の条件の行き来
* `Balanced.height_le` — 高さは `2 * log₂ (n + 1)` を超えない
-/

namespace RecordServer.Infra

inductive Colour where
  | red
  | black
deriving DecidableEq, Repr

inductive Side where
  | left
  | right
deriving DecidableEq, Repr

def Side.other : Side → Side
  | .left => .right
  | .right => .left

@[simp] theorem Side.other_other (d : Side) : d.other.other = d := by cases d <;> rfl

theorem Side.eq_other_of_ne {d e : Side} (h : e ≠ d) : e = d.other := by
  cases d <;> cases e <;> first | rfl | exact absurd rfl h

inductive RBTree (α : Type*) where
  | leaf
  | node (c : Colour) (l : RBTree α) (a : α) (r : RBTree α)

namespace RBTree

variable {α : Type*}

/-- `d` 側に `near`、反対側に `far` を持つ節。 -/
def mk (d : Side) (c : Colour) (near : RBTree α) (a : α) (far : RBTree α) : RBTree α :=
  match d with
  | .left => .node c near a far
  | .right => .node c far a near

@[simp] theorem mk_left (c : Colour) (n f : RBTree α) (a : α) : mk .left c n a f = .node c n a f :=
  rfl

@[simp] theorem mk_right (c : Colour) (n f : RBTree α) (a : α) : mk .right c n a f = .node c f a n :=
  rfl

@[simp] theorem mk_other (d : Side) (c : Colour) (n f : RBTree α) (a : α) :
    mk d.other c n a f = mk d c f a n := by cases d <;> rfl

theorem node_eq_mk (d : Side) (c : Colour) (l r : RBTree α) (a : α) :
    ∃ n f, (RBTree.node c l a r : RBTree α) = mk d c n a f := by
  cases d with
  | left => exact ⟨l, r, rfl⟩
  | right => exact ⟨r, l, rfl⟩

/-- 中順の要素の列。 -/
def toList : RBTree α → List α
  | .leaf => []
  | .node _ l a r => l.toList ++ a :: r.toList

def height : RBTree α → Nat
  | .leaf => 0
  | .node _ l _ r => max l.height r.height + 1

/-- 根の色。葉は黒である。 -/
def colour : RBTree α → Colour
  | .leaf => .black
  | .node c _ _ _ => c

/-- 根を黒くする。 -/
def blacken : RBTree α → RBTree α
  | .leaf => .leaf
  | .node _ l a r => .node .black l a r

@[simp] theorem toList_leaf : (leaf : RBTree α).toList = [] := rfl

@[simp] theorem toList_node (c : Colour) (l r : RBTree α) (a : α) :
    (node c l a r).toList = l.toList ++ a :: r.toList := rfl

@[simp] theorem colour_mk (d : Side) (c : Colour) (n f : RBTree α) (a : α) :
    (mk d c n a f).colour = c := by cases d <;> rfl

theorem toList_mk_perm (d : Side) (c : Colour) (n f : RBTree α) (a : α) :
    (mk d c n a f).toList.Perm (a :: (n.toList ++ f.toList)) := by
  cases d with
  | left => exact List.perm_middle
  | right => exact List.perm_middle.trans (List.perm_append_comm.cons a)

/-- 回転は中順を変えない。 -/
theorem toList_rotate (d : Side) (c₁ c₂ c₃ c₄ : Colour) (t₁ t₂ t₃ : RBTree α) (a b : α) :
    (mk d c₁ (mk d c₂ t₁ a t₂) b t₃).toList = (mk d c₃ t₁ a (mk d c₄ t₂ b t₃)).toList := by
  cases d <;> simp

@[simp] theorem blacken_mk (d : Side) (c : Colour) (n f : RBTree α) (a : α) :
    (mk d c n a f).blacken = mk d .black n a f := by cases d <;> rfl

@[simp] theorem toList_blacken (t : RBTree α) : t.blacken.toList = t.toList := by cases t <;> rfl

/-! ## 平衡 -/

/-- 根の色が `c`、葉までの黒い節の数がどこも `n` で、赤い節に赤い子が無い。 -/
inductive Balanced : RBTree α → Colour → Nat → Prop
  | leaf : Balanced .leaf .black 0
  | red {l r a n} : Balanced l .black n → Balanced r .black n → Balanced (.node .red l a r) .red n
  | black {l r a n c c'} : Balanced l c n → Balanced r c' n →
      Balanced (.node .black l a r) .black (n + 1)

theorem Balanced.colour_eq {t : RBTree α} {c : Colour} {n : Nat} (h : Balanced t c n) :
    t.colour = c := by cases h <;> rfl

@[simp] theorem balanced_mk_red {d : Side} {l r : RBTree α} {a : α} {c : Colour} {n : Nat} :
    Balanced (mk d .red l a r) c n ↔ c = .red ∧ Balanced l .black n ∧ Balanced r .black n := by
  cases d with
  | left =>
    constructor
    · rintro (_ | ⟨hl, hr⟩)
      exact ⟨rfl, hl, hr⟩
    · rintro ⟨rfl, hl, hr⟩
      exact .red hl hr
  | right =>
    constructor
    · rintro (_ | ⟨hl, hr⟩)
      exact ⟨rfl, hr, hl⟩
    · rintro ⟨rfl, hl, hr⟩
      exact .red hr hl

@[simp] theorem balanced_mk_black {d : Side} {l r : RBTree α} {a : α} {c : Colour} {n : Nat} :
    Balanced (mk d .black l a r) c n ↔
      c = .black ∧ ∃ m, n = m + 1 ∧ Balanced l l.colour m ∧ Balanced r r.colour m := by
  cases d with
  | left =>
    constructor
    · rintro (_ | _ | ⟨hl, hr⟩)
      exact ⟨rfl, _, rfl, hl.colour_eq.symm ▸ hl, hr.colour_eq.symm ▸ hr⟩
    · rintro ⟨rfl, m, rfl, hl, hr⟩
      exact .black hl hr
  | right =>
    constructor
    · rintro (_ | _ | ⟨hl, hr⟩)
      exact ⟨rfl, _, rfl, hr.colour_eq.symm ▸ hr, hl.colour_eq.symm ▸ hl⟩
    · rintro ⟨rfl, m, rfl, hl, hr⟩
      exact .black hr hl

theorem Balanced.self {t : RBTree α} {c : Colour} {n : Nat} (h : Balanced t c n) :
    Balanced t t.colour n := by
  rw [h.colour_eq]
  exact h

/-- 黒の高さが正なら節である。 -/
theorem Balanced.exists_mk {t : RBTree α} {c : Colour} {n : Nat} (h : Balanced t c (n + 1))
    (d : Side) : ∃ l a r, t = mk d c l a r := by
  cases h with
  | red =>
    obtain ⟨l, r, h⟩ := node_eq_mk d .red _ _ _
    exact ⟨l, _, r, h⟩
  | black =>
    obtain ⟨l, r, h⟩ := node_eq_mk d .black _ _ _
    exact ⟨l, _, r, h⟩

/-- 赤い根を持つなら節である。 -/
theorem Balanced.exists_mk_red {t : RBTree α} {n : Nat} (h : Balanced t .red n) (d : Side) :
    ∃ l a r, t = mk d .red l a r := by
  cases h with
  | red =>
    obtain ⟨l, r, h⟩ := node_eq_mk d .red _ _ _
    exact ⟨l, _, r, h⟩

theorem Balanced.blacken {t : RBTree α} {c : Colour} {n : Nat} (h : Balanced t c n) :
    ∃ m, Balanced t.blacken .black m := by
  cases h with
  | leaf => exact ⟨0, .leaf⟩
  | red hl hr => exact ⟨n + 1, .black hl hr⟩
  | black hl hr => exact ⟨_, .black hl hr⟩

theorem blacken_of_black {t : RBTree α} (h : t.colour = .black) : t.blacken = t := by
  cases t with
  | leaf => rfl
  | node c l a r =>
    simp only [colour] at h
    subst h
    rfl

/-- 赤い節に赤い子が無い。 -/
def NoRedRed : RBTree α → Prop
  | .leaf => True
  | .node c l _ r =>
    (c = .red → l.colour = .black ∧ r.colour = .black) ∧ l.NoRedRed ∧ r.NoRedRed

/-- 根から葉までの道ごとの、黒い節の数。 -/
def blackCounts : RBTree α → List Nat
  | .leaf => [0]
  | .node c l _ r =>
    (l.blackCounts ++ r.blackCounts).map fun n => if c = .black then n + 1 else n

theorem Balanced.noRedRed {t : RBTree α} {c : Colour} {n : Nat} (h : Balanced t c n) :
    t.NoRedRed := by
  induction h with
  | leaf => trivial
  | red hl hr ihl ihr => exact ⟨fun _ => ⟨hl.colour_eq, hr.colour_eq⟩, ihl, ihr⟩
  | black _ _ ihl ihr => exact ⟨by simp, ihl, ihr⟩

/-- 平衡した木では、どの道にも黒い節が同じ数だけある。 -/
theorem Balanced.blackCounts_eq {t : RBTree α} {c : Colour} {n : Nat} (h : Balanced t c n) :
    ∀ k ∈ t.blackCounts, k = n := by
  induction h with
  | leaf => simp [blackCounts]
  | red _ _ ihl ihr =>
    intro k hk
    simp only [blackCounts, reduceCtorEq, if_false, List.map_id', List.mem_append] at hk
    rcases hk with hk | hk
    · exact ihl k hk
    · exact ihr k hk
  | black _ _ ihl ihr =>
    intro k hk
    simp only [blackCounts, if_true, List.mem_map, List.mem_append] at hk
    obtain ⟨j, hj | hj, rfl⟩ := hk
    · rw [ihl j hj]
    · rw [ihr j hj]

theorem Balanced.height_le_double {t : RBTree α} {c : Colour} {n : Nat} (h : Balanced t c n) :
    t.height ≤ 2 * n + if c = .red then 1 else 0 := by
  induction h with
  | leaf => simp [height]
  | red _ _ ihl ihr =>
    simp only [reduceCtorEq, if_false, if_true, height] at ihl ihr ⊢
    omega
  | black _ _ ihl ihr =>
    simp only [reduceCtorEq, if_false, height]
    split at ihl <;> split at ihr <;> omega

theorem Balanced.two_pow_le {t : RBTree α} {c : Colour} {n : Nat} (h : Balanced t c n) :
    2 ^ n ≤ t.toList.length + 1 := by
  induction h with
  | leaf => simp
  | red _ _ ihl ihr =>
    simp only [toList_node, List.length_append, List.length_cons]
    omega
  | black _ _ ihl ihr =>
    simp only [toList_node, List.length_append, List.length_cons, pow_succ]
    omega

/-- **赤黒木の高さは `2 * log₂ (n + 1)` を超えない。** -/
theorem Balanced.height_le {t : RBTree α} {n : Nat} (h : Balanced t .black n) :
    (t.height : ℝ) ≤ 2 * Real.logb 2 (t.toList.length + 1) := by
  have hdouble : (t.height : ℝ) ≤ 2 * n := by
    have := h.height_le_double
    simp only [reduceCtorEq, if_false, Nat.add_zero] at this
    exact_mod_cast this
  have hlog : (n : ℝ) ≤ Real.logb 2 (t.toList.length + 1) := by
    rw [Real.le_logb_iff_rpow_le one_lt_two (by positivity), Real.rpow_natCast]
    exact_mod_cast h.two_pow_le
  linarith

/-- 高さの上限を、切り捨てた `log₂` で言う。 -/
theorem Balanced.height_le_log {t : RBTree α} {n : Nat} (h : Balanced t .black n) :
    t.height ≤ 2 * Nat.log 2 (t.toList.length + 1) := by
  have hdouble := h.height_le_double
  have hlog : n ≤ Nat.log 2 (t.toList.length + 1) :=
    Nat.le_log_of_pow_le one_lt_two h.two_pow_le
  simp only [reduceCtorEq, if_false, Nat.add_zero] at hdouble
  omega

end RBTree

/-! ## 穴のある文脈 -/

/-- 穴の一つ上の節。穴は `side` 側の子である。 -/
structure Frame (α : Type*) where
  side : Side
  colour : Colour
  entry : α
  sibling : RBTree α

/-- 穴から根へ向かう frame の列。 -/
abbrev Path (α : Type*) := List (Frame α)

variable {α : Type*}

def Frame.fill (f : Frame α) (t : RBTree α) : RBTree α := .mk f.side f.colour t f.entry f.sibling

/-- 穴に `t` をはめた木。 -/
def fill : Path α → RBTree α → RBTree α
  | [], t => t
  | f :: path, t => fill path (f.fill t)

@[simp] theorem fill_nil (t : RBTree α) : fill [] t = t := rfl

theorem fill_cons (f : Frame α) (path : Path α) (t : RBTree α) :
    fill (f :: path) t = fill path (f.fill t) := rfl

theorem fill_append (path path' : Path α) (t : RBTree α) :
    fill (path ++ path') t = fill path' (fill path t) := by
  induction path generalizing t with
  | nil => rfl
  | cons f path ih => exact ih (f.fill t)

theorem Frame.height_lt_fill (f : Frame α) (t : RBTree α) : t.height < (f.fill t).height := by
  obtain ⟨d, c, e, sib⟩ := f
  cases d <;> simp only [Frame.fill, RBTree.mk, RBTree.height] <;> omega

/-- 穴までの深さと、はめた木の高さの和は、全体の高さを超えない。 -/
theorem length_add_height_le (path : Path α) (t : RBTree α) :
    path.length + t.height ≤ (fill path t).height := by
  induction path generalizing t with
  | nil => simp
  | cons f path ih =>
    have hlt := f.height_lt_fill t
    have hle := ih (f.fill t)
    rw [List.length_cons, fill_cons]
    omega

namespace Path

/-- 文脈に現れる要素。 -/
def toList : Path α → List α
  | [] => []
  | f :: path => f.entry :: (f.sibling.toList ++ toList path)

theorem toList_append (path path' : Path α) :
    toList (path ++ path') = toList path ++ toList path' := by
  induction path with
  | nil => rfl
  | cons f path ih => simp [toList, ih]

/-- 穴より前に来る要素。 -/
def before : Path α → List α
  | [] => []
  | f :: path => before path ++ match f.side with
    | .left => []
    | .right => f.sibling.toList ++ [f.entry]

/-- 穴より後に来る要素。 -/
def after : Path α → List α
  | [] => []
  | f :: path => (match f.side with
    | .left => f.entry :: f.sibling.toList
    | .right => []) ++ after path

end Path

theorem Frame.toList_fill (f : Frame α) (t : RBTree α) (path : Path α) :
    Path.before path ++ (f.fill t).toList ++ Path.after path =
      Path.before (f :: path) ++ t.toList ++ Path.after (f :: path) := by
  obtain ⟨d, c, a, sib⟩ := f
  cases d <;> simp [Frame.fill, Path.before, Path.after]

/-- 穴にはめた木の中順。 -/
theorem toList_fill (path : Path α) (t : RBTree α) :
    (fill path t).toList = Path.before path ++ t.toList ++ Path.after path := by
  induction path generalizing t with
  | nil => simp [Path.before, Path.after]
  | cons f path ih => rw [fill_cons, ih, Frame.toList_fill]

/-- 中順の等しい部分木は取り替えても中順が変わらない。 -/
theorem toList_fill_congr {path : Path α} {t u : RBTree α} (h : t.toList = u.toList) :
    (fill path t).toList = (fill path u).toList := by
  rw [toList_fill, toList_fill, h]

theorem toList_fill_perm (path : Path α) (t : RBTree α) :
    (fill path t).toList.Perm (t.toList ++ Path.toList path) := by
  induction path generalizing t with
  | nil => simp [Path.toList]
  | cons f path ih =>
    refine (ih _).trans ?_
    have h : (f.fill t).toList.Perm (f.entry :: (t.toList ++ f.sibling.toList)) :=
      RBTree.toList_mk_perm _ _ _ _ _
    refine (h.append_right _).trans ?_
    have hmid : (t.toList ++ f.entry :: (f.sibling.toList ++ Path.toList path)).Perm
        (f.entry :: (t.toList ++ (f.sibling.toList ++ Path.toList path))) := List.perm_middle
    simpa [Path.toList] using hmid.symm

/-- 中順で現れる要素には、それを根とする部分木と文脈がある。 -/
theorem exists_fill_of_mem {t : RBTree α} {a : α} (h : a ∈ t.toList) :
    ∃ path c l r, t = fill path (.node c l a r) := by
  induction t with
  | leaf => simp at h
  | node c l b r ihl ihr =>
    simp only [RBTree.toList_node, List.mem_append, List.mem_cons] at h
    rcases h with h | rfl | h
    · obtain ⟨path, c', l', r', rfl⟩ := ihl h
      exact ⟨path ++ [⟨.left, c, b, r⟩], c', l', r', by rw [fill_append]; rfl⟩
    · exact ⟨[], c, l, r, rfl⟩
    · obtain ⟨path, c', l', r', rfl⟩ := ihr h
      exact ⟨path ++ [⟨.right, c, b, l⟩], c', l', r', by rw [fill_append]; rfl⟩

/-- 根が黒い木の文脈で、色 `c`・黒の高さ `n` の部分木をはめてよい。 -/
inductive PathBalanced : Path α → Colour → Nat → Prop
  | root {n} : PathBalanced [] .black n
  | red {d a sib path n} : RBTree.Balanced sib .black n → PathBalanced path .red n →
      PathBalanced (⟨d, .red, a, sib⟩ :: path) .black n
  | black {d a sib path n c c'} : RBTree.Balanced sib c' n → PathBalanced path .black (n + 1) →
      PathBalanced (⟨d, .black, a, sib⟩ :: path) c n

/-- 文脈に合う部分木をはめると、全体が平衡する。 -/
theorem PathBalanced.fill {path : Path α} {c : Colour} {n : Nat} (hp : PathBalanced path c n)
    {t : RBTree α} (ht : t.Balanced c n) : ∃ m, (Infra.fill path t).Balanced .black m := by
  induction hp generalizing t with
  | root => exact ⟨_, ht⟩
  | red hs _ ih => exact ih (RBTree.balanced_mk_red.mpr ⟨rfl, ht, hs⟩)
  | black hs _ ih => exact ih (RBTree.balanced_mk_black.mpr ⟨rfl, _, rfl, ht.self, hs.self⟩)

/-- 平衡した木では、どの部分木もその文脈に合う。 -/
theorem RBTree.Balanced.unfill {path : Path α} {t : RBTree α} {m : Nat}
    (h : (fill path t).Balanced .black m) :
    ∃ n, t.Balanced t.colour n ∧ PathBalanced path t.colour n := by
  induction path generalizing t with
  | nil =>
    have hc : t.colour = .black := h.colour_eq
    exact ⟨m, h.self, hc ▸ .root⟩
  | cons f path ih =>
    obtain ⟨d, c, a, sib⟩ := f
    obtain ⟨n, ht, hp⟩ := ih h
    simp only [Frame.fill, colour_mk] at ht hp
    cases c with
    | red =>
      obtain ⟨-, ht, hs⟩ := balanced_mk_red.mp ht
      rw [ht.colour_eq]
      exact ⟨n, ht, .red hs hp⟩
    | black =>
      obtain ⟨-, m, rfl, ht, hs⟩ := balanced_mk_black.mp ht
      exact ⟨m, ht, .black hs hp⟩

/-- 赤い部分木をはめてよい文脈は、黒い部分木をはめてもよい。 -/
theorem PathBalanced.to_black {path : Path α} {n : Nat} (h : PathBalanced path .red n) :
    PathBalanced path .black n := by
  cases h with
  | black hs hp => exact .black hs hp

/-- 赤い部分木をはめてよい文脈の最も内側の節は黒い。 -/
theorem PathBalanced.of_red {path : Path α} {n : Nat} (h : PathBalanced path .red n) :
    ∃ d a sib path', path = ⟨d, .black, a, sib⟩ :: path' ∧ sib.Balanced sib.colour n ∧
      PathBalanced path' .black (n + 1) := by
  cases h with
  | black hs hp => exact ⟨_, _, _, _, rfl, hs.self, hp⟩

/-- 文脈の釣り合いは、節の要素によらない。 -/
theorem PathBalanced.replace {lpath path : Path α} {d : Side} {c c₀ : Colour} {z y : α}
    {l : RBTree α} {n : Nat} (h : PathBalanced (lpath ++ ⟨d, c, z, l⟩ :: path) c₀ n) :
    PathBalanced (lpath ++ ⟨d, c, y, l⟩ :: path) c₀ n := by
  induction lpath generalizing c₀ n with
  | nil =>
    cases h with
    | red hs hp => exact .red hs hp
    | black hs hp => exact .black hs hp
  | cons f lpath ih =>
    cases h with
    | red hs hp => exact .red hs (ih hp)
    | black hs hp => exact .black hs (ih hp)

end RecordServer.Infra
