import RecordServer.Conf.ParseBlock
import RecordServer.Conf.Rendering

/-!
# 木を写した list と取り出し

`mirror t` は、木 `t` をそのまま写した `CN_S` の list である。どの list も空の節一つで終わる。

* `stored_eq_mirror` — 書き出せる木では、`rc_strncpy` は何も切らない
* `mirror_readsBack` — 取り出す関数は、その名前と種類の最初の項目を返す
-/

namespace RecordServer.Conf

open Infra

/-! ## 写し -/

def mirrorArray : List Bytes → CN
  | [] => newNode
  | v :: vs => .node [] v .arrayEle .null (mirrorArray vs)

def mirror : Entries → CN
  | .nil => newNode
  | .leaf name (.value v) rest => .node name v .charT .null (mirror rest)
  | .leaf name (.array vs) rest => .node name [] .arrayT (mirrorArray vs) (mirror rest)
  | .block kind name sub rest => .node name [] kind.ntype (mirror sub) (mirror rest)

/-- 収まる長さで NUL を含まない文字列は、そのまま写る。 -/
theorem rcStrncpy_eq {dl : Nat} {w : Bytes} (hlen : w.length ≤ dl - 1) (hnul : ∀ b ∈ w, b ≠ 0) :
    rcStrncpy dl w = w := by
  have hall : w.takeWhile (· != 0) = w := by
    rw [List.takeWhile_eq_self_iff]
    intro b hb
    exact bne_iff_ne.mpr (hnul b hb)
  rw [rcStrncpy]
  split_ifs with h
  · rw [List.take_length, hall]
  · rw [List.take_of_length_le hlen, hall]

theorem NameOk.stored {n : Bytes} (h : NameOk n) : rcStrncpy confNamel n = n := by
  refine rcStrncpy_eq h.length_le ?_
  rintro b hb rfl
  cases h.all 0 hb

theorem ValueOk.stored {v : Bytes} (h : ValueOk v) : rcStrncpy confVarl v = v := by
  refine rcStrncpy_eq h.length_le ?_
  rintro b hb rfl
  cases h.all 0 hb

theorem storedArray_eq_mirrorArray {vs : List Bytes} (h : ∀ v ∈ vs, ValueOk v) :
    storedArray vs = mirrorArray vs := by
  induction vs with
  | nil => rfl
  | cons v vs ih =>
    obtain ⟨hv, hvs⟩ := List.forall_mem_cons.mp h
    rw [storedArray, ih hvs, hv.stored]
    rfl

/-- **書き出せる木では、名前も値も切られない。** -/
theorem stored_eq_mirror (t : Entries) : ∀ {top}, t.Ok top → stored t = mirror t := by
  induction t with
  | nil =>
    intro _ _
    rfl
  | leaf n x rest ih =>
    intro top hok
    obtain ⟨hn, hx, hrest⟩ := hok
    rw [stored, ih hrest]
    cases x with
    | value v =>
      rw [storedLeaf, hn.stored, hx.2.stored]
      rfl
    | array vs =>
      rw [storedLeaf, hn.stored, storedArray_eq_mirrorArray hx]
      rfl
  | block k n sub rest ihsub ih =>
    intro top hok
    obtain ⟨-, hn, hsub, hrest⟩ := hok
    rw [stored, hn.stored, ihsub hsub, ih hrest]
    rfl

/-! ## 取り出し -/

/-- 値の項目の名前と値。 -/
def Entries.values : Entries → List (Bytes × Bytes)
  | .nil => []
  | .leaf name (.value v) rest => (name, v) :: rest.values
  | .leaf _ (.array _) rest => rest.values
  | .block _ _ _ rest => rest.values

/-- 配列の項目の名前と要素。 -/
def Entries.arrays : Entries → List (Bytes × List Bytes)
  | .nil => []
  | .leaf _ (.value _) rest => rest.arrays
  | .leaf name (.array vs) rest => (name, vs) :: rest.arrays
  | .block _ _ _ rest => rest.arrays

/-- 名前つきの block の名前と中身。 -/
def Entries.subs : Entries → List (Bytes × Entries)
  | .nil => []
  | .leaf _ _ rest => rest.subs
  | .block .sub name sub rest => (name, sub) :: rest.subs
  | .block .proc _ _ rest => rest.subs

theorem getValueFromNode_mirror (vn : Bytes) (t : Entries) :
    getValueFromNode vn (mirror t) = t.values.lookup vn := by
  induction t with
  | nil => rfl
  | leaf n x rest ih =>
    cases x with
    | value v =>
      simp only [mirror, getValueFromNode, Entries.values, List.lookup_cons, strmatch, ih, true_and]
      by_cases h : vn = n
      · simp [h]
      · simp [beq_false_of_ne h]
    | array vs => exact ih
  | block k n sub rest _ ih => cases k <;> exact ih

theorem getSubmodFromNode_mirror (mn : Bytes) (t : Entries) :
    getSubmodFromNode mn (mirror t) = ((t.subs.lookup mn).map mirror).getD .null := by
  induction t with
  | nil => rfl
  | leaf n x rest ih => cases x <;> exact ih
  | block k n sub rest _ ih =>
    cases k with
    | sub =>
      simp only [mirror, getSubmodFromNode, Entries.subs, List.lookup_cons, strmatch, ih,
        BlockKind.ntype, true_and]
      by_cases h : mn = n
      · simp [h]
      · simp [beq_false_of_ne h]
    | proc => exact ih

theorem countElements_mirrorArray (vs : List Bytes) :
    countElements (mirrorArray vs) = vs.length := by
  induction vs with
  | nil => rfl
  | cons v vs ih => simp [mirrorArray, countElements, ih]

theorem elementAt_mirrorArray (vs : List Bytes) (i : Nat) :
    ∀ k : Nat, elementAt ((k + i : Nat) : Int) k (mirrorArray vs) = vs[i]? := by
  induction vs generalizing i with
  | nil =>
    intro k
    rfl
  | cons v vs ih =>
    intro k
    cases i with
    | zero => simp [mirrorArray, elementAt]
    | succ i =>
      have hne : ((k + (i + 1) : Nat) : Int) ≠ k := by omega
      have hrec := ih i (k + 1)
      rw [show k + 1 + i = k + (i + 1) by omega] at hrec
      rw [mirrorArray, elementAt, if_pos rfl, if_neg hne, List.getElem?_cons_succ]
      exact hrec

/-- 見つかった配列の節と、その要素。 -/
theorem getArrayFromNode_mirror (mn : Bytes) (t : Entries) :
    (t.arrays.lookup mn = none ∧ getArrayFromNode mn (mirror t) = .null) ∨
    ∃ vs next, t.arrays.lookup mn = some vs ∧
      getArrayFromNode mn (mirror t) = .node mn [] .arrayT (mirrorArray vs) next := by
  induction t with
  | nil => exact Or.inl ⟨rfl, rfl⟩
  | leaf n x rest ih =>
    cases x with
    | value v => exact ih
    | array vs =>
      simp only [mirror, getArrayFromNode, Entries.arrays, List.lookup_cons, strmatch, true_and]
      by_cases h : mn = n
      · subst h
        exact Or.inr ⟨vs, mirror rest, by simp, by simp⟩
      · simp only [beq_false_of_ne h, Bool.false_eq_true, if_false]
        exact ih
  | block k n sub rest _ ih => cases k <;> exact ih

theorem getArrayFromNode_none {mn : Bytes} {t : Entries} (h : t.arrays.lookup mn = none) :
    getArrayFromNode mn (mirror t) = .null := by
  rcases getArrayFromNode_mirror mn t with ⟨-, hnull⟩ | ⟨vs, next, hvs, -⟩
  · exact hnull
  · rw [h] at hvs
    cases hvs

theorem getArrayFromNode_some {mn : Bytes} {t : Entries} {vs : List Bytes}
    (h : t.arrays.lookup mn = some vs) :
    ∃ next, getArrayFromNode mn (mirror t) = .node mn [] .arrayT (mirrorArray vs) next := by
  rcases getArrayFromNode_mirror mn t with ⟨hnone, -⟩ | ⟨vs', next, hvs, hnode⟩
  · rw [h] at hnone
    cases hnone
  · rw [h] at hvs
    cases hvs
    exact ⟨next, hnode⟩

/-- 取り出す関数が、並び `t` のとおりに答える。 -/
structure ReadsBack (t : Entries) (cn : CN) : Prop where
  /-- 最初の、その名前の値 -/
  value : ∀ vn, getValueFromNode vn cn = t.values.lookup vn
  /-- 最初の、その名前の block の中身 -/
  submod : ∀ mn, getSubmodFromNode mn cn = ((t.subs.lookup mn).map mirror).getD .null
  /-- その名前の配列がなければ `NULL` である -/
  noArray : ∀ mn, t.arrays.lookup mn = none → getArrayFromNode mn cn = .null
  /-- 最初の、その名前の配列の要素の数 -/
  size : ∀ mn vs, t.arrays.lookup mn = some vs →
    getSizeFromArray (getArrayFromNode mn cn) = vs.length
  /-- 最初の、その名前の配列の要素。数を越えると `NULL` である -/
  element : ∀ mn vs, t.arrays.lookup mn = some vs → ∀ i : Nat,
    getValueFromArrayByIndex i (getArrayFromNode mn cn) = vs[i]?

/-- **木を写した list からは、その名前と種類の最初の項目が取り出される。** -/
theorem mirror_readsBack (t : Entries) : ReadsBack t (mirror t) where
  value := fun vn => getValueFromNode_mirror vn t
  submod := fun mn => getSubmodFromNode_mirror mn t
  noArray := fun _ h => getArrayFromNode_none h
  size := by
    intro mn vs h
    obtain ⟨next, hnode⟩ := getArrayFromNode_some h
    rw [hnode]
    exact countElements_mirrorArray vs
  element := by
    intro mn vs h i
    obtain ⟨next, hnode⟩ := getArrayFromNode_some h
    have helem := elementAt_mirrorArray vs i 0
    rw [Nat.zero_add] at helem
    rw [hnode]
    exact helem

/-! ## 中の block -/

/-- 名前をたどって着く並び。 -/
def Entries.descend : List Bytes → Entries → Option Entries
  | [], t => some t
  | mn :: path, t => (t.subs.lookup mn).bind (Entries.descend path)

/-- `get_submod_from_node` を続けて着く list。 -/
def descendCN : List Bytes → CN → CN
  | [], cn => cn
  | mn :: path, cn => descendCN path (getSubmodFromNode mn cn)

/-- 名前をたどっても、写しは写しのままである。 -/
theorem descendCN_mirror (path : List Bytes) :
    ∀ {t u : Entries}, t.descend path = some u → descendCN path (mirror t) = mirror u := by
  induction path with
  | nil =>
    rintro t u ⟨⟩
    rfl
  | cons mn path ih =>
    intro t u h
    obtain ⟨sub, hsub, hu⟩ := Option.bind_eq_some_iff.mp h
    rw [descendCN, getSubmodFromNode_mirror, hsub]
    exact ih hu

end RecordServer.Conf
