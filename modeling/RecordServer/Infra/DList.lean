import Mathlib.Data.List.Basic
import Mathlib.Data.List.Nodup

/-!
# 侵入型の双方向 list

節の中に前後の pointer を持つ list の一般論。節は型 `α` の番地で、番地ごとの前後を
二つの関数 `pre`、`next` で与える。`DList pre next head l` は、`head` から `next` を辿ると
`l` の節がちょうどこの順に現れて `none` で終わり、どの節の `pre` も直前の節
（先頭では `none`）であることをいう。

* `DList.unique`、`DList.nodup` — 辿った結果は一つに決まり、同じ節は二度現れない
* `DList.congr` — 載っている節の前後が変わらなければ list も変わらない
* `DList.push` — 先頭に足す
* `DList.snoc` — 末尾に足す
* `DList.remove` — 途中の節を外す
* `DList.reverse` — 末尾から `pre` を辿ると、逆の順に現れる
-/

namespace RecordServer.Infra

variable {α : Type*} {pre next pre' next' : α → Option α}

/-- `head` から `next` を辿ると `l` で、先頭の `pre` は `p`、その後は直前の節である。 -/
def Seg (pre next : α → Option α) (p : Option α) : Option α → List α → Prop
  | head, [] => head = none
  | head, x :: xs => head = some x ∧ pre x = p ∧ Seg pre next (some x) (next x) xs

/-- 先頭の `pre` が `none` である双方向 list。 -/
def DList (pre next : α → Option α) (head : Option α) (l : List α) : Prop :=
  Seg pre next none head l

/-! ## 切れ端 -/

@[simp] theorem seg_nil {p head : Option α} : Seg pre next p head [] ↔ head = none := Iff.rfl

@[simp] theorem seg_cons {p head : Option α} {x : α} {xs : List α} :
    Seg pre next p head (x :: xs) ↔
      head = some x ∧ pre x = p ∧ Seg pre next (some x) (next x) xs := Iff.rfl

theorem Seg.congr {p head : Option α} {l : List α} (h : Seg pre next p head l)
    (hpre : ∀ x ∈ l, pre' x = pre x) (hnext : ∀ x ∈ l, next' x = next x) :
    Seg pre' next' p head l := by
  induction l generalizing p head with
  | nil => exact h
  | cons x xs ih =>
    obtain ⟨hx, hp, hs⟩ := h
    have hs' := ih hs (fun y hy => hpre y (.tail _ hy)) (fun y hy => hnext y (.tail _ hy))
    rw [← hnext x (.head _)] at hs'
    exact ⟨hx, (hpre x (.head _)).trans hp, hs'⟩

/-- 辿った結果は始点だけで決まる。 -/
theorem Seg.unique {p p' head : Option α} {l l' : List α} (h : Seg pre next p head l)
    (h' : Seg pre next p' head l') : l = l' := by
  induction l generalizing p p' head l' with
  | nil =>
    cases l' with
    | nil => rfl
    | cons y ys =>
      have := h.symm.trans h'.1
      simp at this
  | cons x xs ih =>
    cases l' with
    | nil =>
      have := h'.symm.trans h.1
      simp at this
    | cons y ys =>
      obtain ⟨hx, _, hs⟩ := h
      obtain ⟨hy, _, hs'⟩ := h'
      have hxy : x = y := Option.some.inj (hx.symm.trans hy)
      subst hxy
      rw [ih hs hs']

/-- 途中の節からも、そこから先が辿れる。 -/
theorem Seg.suffix {p head : Option α} {a b : List α} {x : α}
    (h : Seg pre next p head (a ++ x :: b)) : ∃ q, Seg pre next q (some x) (x :: b) := by
  induction a generalizing p head with
  | nil =>
    obtain ⟨rfl, hp, hs⟩ := h
    exact ⟨p, rfl, hp, hs⟩
  | cons y ys ih => exact ih h.2.2

theorem Seg.nodup {p head : Option α} {l : List α} (h : Seg pre next p head l) : l.Nodup := by
  induction l generalizing p head with
  | nil => exact List.nodup_nil
  | cons x xs ih =>
    refine List.nodup_cons.mpr ⟨fun hx => ?_, ih h.2.2⟩
    -- もう一度 `x` に着くと、そこから先も `xs` 全体と同じ長さになる
    obtain ⟨a, b, rfl⟩ := List.append_of_mem hx
    obtain ⟨q, hq⟩ := h.2.2.suffix
    rw [← h.1] at hq
    have heq := h.unique hq
    have hlen := congrArg List.length heq
    simp only [List.length_cons, List.length_append] at hlen
    omega

/-! ## 載っている節の前後 -/

theorem Seg.next_mem {p head : Option α} {l : List α} (h : Seg pre next p head l) {x y : α}
    (hx : x ∈ l) (hy : next x = some y) : y ∈ l ∧ pre y = some x := by
  induction l generalizing p head with
  | nil => simp at hx
  | cons z zs ih =>
    obtain ⟨_, _, hs⟩ := h
    rcases List.mem_cons.mp hx with rfl | hx
    · cases zs with
      | nil => rw [hy] at hs; simp at hs
      | cons w ws =>
        obtain ⟨hw, hpw, _⟩ := hs
        have hyw : y = w := Option.some.inj (hy.symm.trans hw)
        subst hyw
        exact ⟨by simp, hpw⟩
    · obtain ⟨hm, hp⟩ := ih hs hx
      exact ⟨.tail _ hm, hp⟩

theorem Seg.pre_mem {p head : Option α} {l : List α} (h : Seg pre next p head l) {x : α}
    (hx : x ∈ l) : (head = some x ∧ pre x = p) ∨ ∃ y ∈ l, pre x = some y ∧ next y = some x := by
  induction l generalizing p head with
  | nil => simp at hx
  | cons z zs ih =>
    obtain ⟨hz, hp, hs⟩ := h
    rcases List.mem_cons.mp hx with rfl | hx
    · exact .inl ⟨hz, hp⟩
    · refine .inr ?_
      rcases ih hs hx with ⟨hn, hpx⟩ | ⟨y, hy, hpy, hny⟩
      · exact ⟨z, .head _, hpx, hn⟩
      · exact ⟨y, .tail _ hy, hpy, hny⟩

/-! ## 末尾に足す -/

section Snoc

variable [DecidableEq α]

theorem Seg.snoc {p head head' : Option α} {l : List α} {e : α} (h : Seg pre next p head l)
    (hhead : head' = if l = [] then some e else head) (hpre : ∀ x ∈ l, pre' x = pre x)
    (hnext : ∀ x ∈ l, next' x = if l.getLast? = some x then some e else next x)
    (hpe : pre' e = l.getLast?.or p) (hne : next' e = none) :
    Seg pre' next' p head' (l ++ [e]) := by
  have hnd := h.nodup
  induction l generalizing p head head' with
  | nil => exact ⟨hhead, by simpa using hpe, hne⟩
  | cons x xs ih =>
    obtain ⟨rfl, hpx, hs⟩ := h
    obtain ⟨hx, hnd'⟩ := List.nodup_cons.mp hnd
    have hlast : (x :: xs).getLast? = some (xs.getLast?.getD x) := List.getLast?_cons
    refine ⟨by simpa using hhead, (hpre x (.head _)).trans hpx, ?_⟩
    refine ih hs ?_ (fun y hy => hpre y (.tail _ hy)) (fun y hy => ?_) ?_ hnd'
    · rw [hnext x (.head _), hlast]
      cases xs with
      | nil => simp
      | cons y ys =>
        have hne' : (y :: ys).getLast?.getD x ≠ x := by
          intro heq
          refine hx (heq ▸ ?_)
          rw [List.getLast?_eq_some_getLast (List.cons_ne_nil y ys)]
          exact List.getLast_mem _
        rw [if_neg (fun heq => hne' (Option.some.inj heq)), if_neg (List.cons_ne_nil y ys)]
    · rw [hnext y (.tail _ hy), hlast]
      cases xs with
      | nil => simp at hy
      | cons z zs => simp [List.getLast?_cons]
    · rw [hpe, hlast]
      cases hxs : xs.getLast? <;> simp

/-- **末尾に足す。** もとの末尾の `next` だけが新しい節に変わる。 -/
theorem DList.snoc {head head' : Option α} {l : List α} {e : α} (h : DList pre next head l)
    (hhead : head' = if l = [] then some e else head) (hpre : ∀ x ∈ l, pre' x = pre x)
    (hnext : ∀ x ∈ l, next' x = if l.getLast? = some x then some e else next x)
    (hpe : pre' e = l.getLast?) (hne : next' e = none) :
    DList pre' next' head' (l ++ [e]) :=
  Seg.snoc h hhead hpre hnext (by simpa using hpe) hne

end Snoc

/-! ## 節を外す -/

section Remove

variable [DecidableEq α]

/-- `e` を外した list。`e` の前後の節だけが繋ぎ替わる。 -/
theorem Seg.remove {p head : Option α} {l : List α} {e : α} (h : Seg pre next p head l)
    (he : e ∈ l) (hp : ∀ x ∈ l, p ≠ some x)
    (hnext : ∀ x ∈ l, x ≠ e → next' x = if pre e = some x then next e else next x)
    (hpre : ∀ x ∈ l, x ≠ e → pre' x = if next e = some x then pre e else pre x) :
    Seg pre' next' p (if pre e = p then next e else head) (l.erase e) := by
  have hnd := h.nodup
  induction l generalizing p head with
  | nil => simp at he
  | cons x xs ih =>
    obtain ⟨rfl, hpx, hs⟩ := h
    have hxs : x ∉ xs := (List.nodup_cons.mp hnd).1
    by_cases hxe : x = e
    · -- 先頭を外す：次の節の `pre` だけが `p` に変わる
      subst hxe
      rw [List.erase_cons_head, if_pos hpx]
      cases xs with
      | nil => exact hs
      | cons y ys =>
        obtain ⟨hy, hpy, hys⟩ := hs
        have hyx : y ≠ x := fun hc => hxs (hc ▸ .head _)
        have hnd' := (List.nodup_cons.mp (List.nodup_cons.mp hnd).2).1
        have hny : next' y = next y := by
          rw [hnext y (by simp) hyx, if_neg]
          rw [hpx]
          exact hp y (by simp)
        refine ⟨hy, ?_, ?_⟩
        · rw [hpre y (by simp) hyx, if_pos hy]
          exact hpx
        · rw [hny]
          refine hys.congr ?_ ?_
          · intro z hz
            have hzx : z ≠ x := fun hc => hxs (hc ▸ .tail _ hz)
            rw [hpre z (by simp [hz]) hzx, if_neg]
            rw [hy]
            exact fun hc => hnd' (Option.some.inj hc ▸ hz)
          · intro z hz
            have hzx : z ≠ x := fun hc => hxs (hc ▸ .tail _ hz)
            rw [hnext z (by simp [hz]) hzx, if_neg]
            rw [hpx]
            exact hp z (by simp [hz])
    · have he' : e ∈ xs := (List.mem_cons.mp he).resolve_left (fun hc => hxe hc.symm)
      have hih := ih hs he' (fun z hz hc => hxs (Option.some.inj hc ▸ hz))
        (fun z hz => hnext z (.tail _ hz)) (fun z hz => hpre z (.tail _ hz))
        (List.nodup_cons.mp hnd).2
      have hpe : pre e ≠ p := by
        rcases hs.pre_mem he' with ⟨_, hc⟩ | ⟨y, hy, hc, _⟩
        · rw [hc]
          exact fun hcc => hp x (by simp) hcc.symm
        · rw [hc]
          exact fun hcc => hp y (by simp [hy]) hcc.symm
      have hnx : next' x = if pre e = some x then next e else next x := hnext x (by simp) hxe
      rw [List.erase_cons_tail (by simpa using hxe), if_neg hpe]
      refine ⟨rfl, ?_, ?_⟩
      · rw [hpre x (by simp) hxe, if_neg]
        · exact hpx
        · exact fun hc => hxs (hs.next_mem he' hc).1
      · rw [hnx]
        exact hih

/-- **途中の節を外す。** `head` を動かすのは、外す節の `pre` が `none` のときだけである。 -/
theorem DList.remove {head head' : Option α} {l : List α} {e : α} (h : DList pre next head l)
    (he : e ∈ l) (hhead : head' = if pre e = none then next e else head)
    (hnext : ∀ x ∈ l, x ≠ e → next' x = if pre e = some x then next e else next x)
    (hpre : ∀ x ∈ l, x ≠ e → pre' x = if next e = some x then pre e else pre x) :
    DList pre' next' head' (l.erase e) := by
  rw [hhead]
  exact Seg.remove h he (by simp) hnext hpre

/-- **先頭に足す。** もとの先頭の `pre` だけが新しい節に変わる。 -/
theorem DList.push {head : Option α} {l : List α} {e : α} (h : DList pre next head l)
    (hnext : ∀ x ∈ l, next' x = next x) (hne : next' e = head) (hpe : pre' e = none)
    (hpre : ∀ x ∈ l, pre' x = if head = some x then some e else pre x) :
    DList pre' next' (some e) (e :: l) := by
  refine ⟨rfl, hpe, ?_⟩
  rw [hne]
  have hnd := Seg.nodup h
  cases l with
  | nil => exact h
  | cons y ys =>
    obtain ⟨hy, hpy, hys⟩ := h
    refine ⟨hy, ?_, ?_⟩
    · rw [hpre y (.head _), if_pos hy]
    · rw [hnext y (.head _)]
      refine hys.congr ?_ (fun z hz => hnext z (.tail _ hz))
      intro z hz
      rw [hpre z (.tail _ hz), if_neg]
      rw [hy]
      exact fun hc => (List.nodup_cons.mp hnd).1 (Option.some.inj hc ▸ hz)

end Remove

/-! ## list 全体について -/

theorem DList.congr {head : Option α} {l : List α} (h : DList pre next head l)
    (hpre : ∀ x ∈ l, pre' x = pre x) (hnext : ∀ x ∈ l, next' x = next x) :
    DList pre' next' head l := Seg.congr h hpre hnext

theorem DList.unique {head : Option α} {l l' : List α} (h : DList pre next head l)
    (h' : DList pre next head l') : l = l' := Seg.unique h h'

theorem DList.nodup {head : Option α} {l : List α} (h : DList pre next head l) : l.Nodup :=
  Seg.nodup h

theorem DList.head_eq {head : Option α} {l : List α} (h : DList pre next head l) :
    head = l.head? := by
  cases l with
  | nil => exact h
  | cons x xs => exact h.1

/-- 載っている節の `pre` が `none` なのは、先頭のときに限る。 -/
theorem DList.pre_eq_none_iff {head : Option α} {l : List α} (h : DList pre next head l) {x : α}
    (hx : x ∈ l) : pre x = none ↔ head = some x := by
  rcases Seg.pre_mem h hx with ⟨hh, hp⟩ | ⟨y, hy, hp, hn⟩
  · simp [hh, hp]
  · rw [hp]
    constructor
    · simp
    · intro hh
      have : pre x = none := by
        rw [hh] at h
        cases l with
        | nil => simp at hx
        | cons z zs =>
          have hz : x = z := Option.some.inj h.1
          rw [hz]
          exact h.2.1
      rw [hp] at this
      simp at this

/-- 途中の節の `next` は、その次に載っている節である。 -/
theorem DList.next_eq {head : Option α} {a b : List α} {x : α}
    (h : DList pre next head (a ++ x :: b)) : next x = b.head? := by
  obtain ⟨q, -, -, hs⟩ := Seg.suffix h
  cases b with
  | nil => exact hs
  | cons y ys => exact hs.1

/-- `p` から `pre` を辿って `acc` なら、`l` の末尾からは `l` の逆に `acc` が続く。 -/
theorem Seg.reverse {p head : Option α} {l acc : List α} (h : Seg pre next p head l)
    (hacc : Seg next pre head p acc) :
    Seg next pre none (l.getLast?.or p) (l.reverse ++ acc) := by
  induction l generalizing p head acc with
  | nil =>
    obtain rfl : head = none := h
    exact hacc
  | cons x xs ih =>
    obtain ⟨rfl, rfl, hs⟩ := h
    have hrest := ih hs (show Seg next pre (next x) (some x) (x :: acc) from ⟨rfl, rfl, hacc⟩)
    rw [List.reverse_cons, List.append_assoc]
    have hlast : (x :: xs).getLast?.or (pre x) = xs.getLast?.or (some x) := by
      rw [List.getLast?_cons]
      cases xs.getLast? <;> rfl
    rw [hlast]
    exact hrest

theorem DList.reverse {head : Option α} {l : List α} (h : DList pre next head l) :
    DList next pre l.getLast? l.reverse := by
  have hs := Seg.reverse h (show Seg next pre head none [] from rfl)
  rwa [List.append_nil, Option.or_none] at hs

theorem DList.next_mem {head : Option α} {l : List α} (h : DList pre next head l) {x y : α}
    (hx : x ∈ l) (hy : next x = some y) : y ∈ l := (Seg.next_mem h hx hy).1

theorem DList.pre_mem {head : Option α} {l : List α} (h : DList pre next head l) {x y : α}
    (hx : x ∈ l) (hy : pre x = some y) : y ∈ l := by
  rcases Seg.pre_mem h hx with ⟨_, hp⟩ | ⟨z, hz, hp, _⟩
  · rw [hy] at hp
    simp at hp
  · rw [hy] at hp
    rw [Option.some.inj hp]
    exact hz

/-- 載っている節は自分自身を指さない。 -/
theorem DList.next_ne_self {head : Option α} {l : List α} (h : DList pre next head l) {x : α}
    (hx : x ∈ l) : next x ≠ some x := by
  intro hn
  obtain ⟨a, b, rfl⟩ := List.append_of_mem hx
  obtain ⟨q, hq⟩ := Seg.suffix h
  have hs := hq.2.2
  rw [hn] at hs
  have hlen := congrArg List.length (hq.unique hs)
  simp at hlen

theorem DList.pre_ne_self {head : Option α} {l : List α} (h : DList pre next head l) {x : α}
    (hx : x ∈ l) : pre x ≠ some x := by
  intro hp
  rcases Seg.pre_mem h hx with ⟨_, hc⟩ | ⟨y, hy, hc, hn⟩
  · rw [hp] at hc
    simp at hc
  · rw [hp] at hc
    rw [← Option.some.inj hc] at hn
    exact h.next_ne_self hx hn

end RecordServer.Infra
