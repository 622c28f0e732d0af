import Mathlib.Data.Nat.Basic
import Mathlib.Tactic.Ring
import Mathlib.Tactic.Tauto

/-!
# 2 の冪の block による敷き詰め

`[0, n)` を、長さ `2 ^ k` で始点が `2 ^ k` の倍数の block に分ける。block は持ち主 `ι` の誰かが持つ。
`H i k b` は、始点 `b`・次数 `k` の block を `i` が持つことをいう。

* `Tiling` — block は重ならず、`[0, n)` を覆う
* `Tiling.replace` — 同じ所を覆う block の組への差し替え。`move`・`split`・`merge` はその例である
* `Tiling.extend` — 末尾に一つ足す
* `Tiling.exists_ge` — 中で隣同士の両方が block にならない所は、一つの block に収まる
* `Tiling.unique` — 合わせられる二つの block が無い敷き詰めは一通りである
-/

namespace RecordServer.Infra

/-- `u` を含む次数 `k` の block の始点。 -/
def base (k u : Nat) : Nat := u / 2 ^ k * 2 ^ k

/-- 始点 `b`・次数 `k` の block が `u` を含む。 -/
def Covers (k b u : Nat) : Prop := b ≤ u ∧ u < b + 2 ^ k

/-! ## 揃った block -/

section Base

variable {k m u x b : Nat}

theorem base_le (k u : Nat) : base k u ≤ u := Nat.div_mul_le_self u (2 ^ k)

theorem lt_base_add (k u : Nat) : u < base k u + 2 ^ k := by
  unfold base
  exact Nat.lt_div_mul_add (Nat.two_pow_pos k)

theorem dvd_base (k u : Nat) : 2 ^ k ∣ base k u := Dvd.intro_left _ rfl

theorem covers_base (k u : Nat) : Covers k (base k u) u := ⟨base_le k u, lt_base_add k u⟩

/-- `2 ^ k` の倍数は、`base k u` より後で `u` に届かない所には無い。 -/
theorem le_base_of_dvd (hx : 2 ^ k ∣ x) (hle : x ≤ u) : x ≤ base k u := by
  obtain ⟨c, rfl⟩ := hx
  unfold base
  rw [Nat.mul_comm]
  refine Nat.mul_le_mul_right _ ((Nat.le_div_iff_mul_le (Nat.two_pow_pos k)).mpr ?_)
  rwa [Nat.mul_comm]

theorem base_add_le_of_dvd (hx : 2 ^ k ∣ x) (hlt : u < x) : base k u + 2 ^ k ≤ x := by
  obtain ⟨c, rfl⟩ := hx
  have hdiv : u / 2 ^ k < c := (Nat.div_lt_iff_lt_mul (Nat.two_pow_pos k)).mpr (by rwa [Nat.mul_comm])
  calc base k u + 2 ^ k = (u / 2 ^ k + 1) * 2 ^ k := by unfold base; ring
    _ ≤ c * 2 ^ k := Nat.mul_le_mul_right _ hdiv
    _ = 2 ^ k * c := Nat.mul_comm _ _

theorem base_eq_of_dvd (hb : 2 ^ k ∣ b) : base k b = b := Nat.div_mul_cancel hb

/-- 揃った block は、含む点で決まる。 -/
theorem eq_base_of_covers (hb : 2 ^ k ∣ b) (hu : Covers k b u) : b = base k u := by
  have h₁ := le_base_of_dvd hb hu.1
  by_contra hne
  have h₂ := base_add_le_of_dvd (u := b) (dvd_base k u) (by omega)
  rw [base_eq_of_dvd hb] at h₂
  have := base_le k u
  have := hu.2
  omega

theorem dvd_of_le (hkm : k ≤ m) (hx : 2 ^ m ∣ x) : 2 ^ k ∣ x := (Nat.pow_dvd_pow 2 hkm).trans hx

/-- 揃った block は入れ子になる。 -/
theorem base_nested (hkm : k ≤ m) (u : Nat) :
    base m u ≤ base k u ∧ base k u + 2 ^ k ≤ base m u + 2 ^ m :=
  ⟨le_base_of_dvd (dvd_of_le hkm (dvd_base m u)) (base_le m u),
    base_add_le_of_dvd (dvd_of_le hkm (Nat.dvd_add (dvd_base m u) (dvd_refl _))) (lt_base_add m u)⟩

/-- 次数 `k` の揃った block は、次数 `k + 1` の block の前半か後半である。 -/
theorem halves_of_dvd (hb : 2 ^ k ∣ b) : b = base (k + 1) b ∨ b = base (k + 1) b + 2 ^ k := by
  obtain ⟨c, rfl⟩ := hb
  have hpos := Nat.two_pow_pos k
  have hbase : base (k + 1) (2 ^ k * c) = 2 ^ k * (c / 2 * 2) := by
    unfold base
    rw [Nat.pow_succ, Nat.mul_div_mul_left _ _ hpos]
    ring
  rw [hbase]
  rcases Nat.mod_two_eq_zero_or_one c with hmod | hmod
  · left
    congr 1
    omega
  · right
    rw [← Nat.mul_succ]
    congr 1
    omega

theorem base_eq_of_covers (hu : Covers k (base k x) u) : base k u = base k x :=
  (eq_base_of_covers (dvd_base k x) hu).symm

theorem base_base (hkm : k ≤ m) (u : Nat) : base m (base k u) = base m u := by
  have hnest := base_nested hkm u
  have hpos := Nat.two_pow_pos k
  exact base_eq_of_covers ⟨hnest.1, by omega⟩

theorem base_div (hkm : k ≤ m) (u : Nat) : base k u / 2 ^ m = u / 2 ^ m :=
  Nat.eq_of_mul_eq_mul_right (Nat.two_pow_pos m) (base_base hkm u)

theorem not_dvd_half (hx : 2 ^ (k + 1) ∣ x) : ¬ 2 ^ (k + 1) ∣ x + 2 ^ k := by
  intro hdvd
  have hle := Nat.le_of_dvd (Nat.two_pow_pos k) ((Nat.dvd_add_right hx).mp hdvd)
  omega

theorem half_div (k j : Nat) : (j * 2 ^ (k + 1) + 2 ^ k) / 2 ^ (k + 1) = j := by
  rw [Nat.mul_comm, Nat.mul_add_div (Nat.two_pow_pos _),
    Nat.div_eq_of_lt (Nat.pow_lt_pow_right (by decide) (Nat.lt_succ_self k)), Nat.add_zero]

end Base

/-! ## 敷き詰め -/

variable {ι : Type*} {n M : Nat} {H H' A R : ι → Nat → Nat → Prop}

structure Tiling (n : Nat) (H : ι → Nat → Nat → Prop) : Prop where
  aligned : ∀ {i k b}, H i k b → 2 ^ k ∣ b
  inside : ∀ {i k b}, H i k b → b + 2 ^ k ≤ n
  disjoint : ∀ {i k b i' k' b' u}, H i k b → H i' k' b' → Covers k b u → Covers k' b' u →
    i = i' ∧ k = k' ∧ b = b'
  cover : ∀ {u}, u < n → ∃ i k, H i k (base k u)

/--
**block の組 `R` を、同じ所を覆う重ならない組 `A` に差し替える。**
-/
theorem Tiling.replace (h : Tiling n H) (hR : ∀ {i k b}, R i k b → H i k b)
    (hH' : ∀ i k b, H' i k b ↔ A i k b ∨ (H i k b ∧ ¬ R i k b))
    (haligned : ∀ {i k b}, A i k b → 2 ^ k ∣ b)
    (hdisjoint : ∀ {i k b i' k' b' u}, A i k b → A i' k' b' → Covers k b u → Covers k' b' u →
      i = i' ∧ k = k' ∧ b = b')
    (hcover : ∀ u, (∃ i k b, A i k b ∧ Covers k b u) ↔ ∃ i k b, R i k b ∧ Covers k b u) :
    Tiling n H' := by
  -- `A` の覆う点は `R` の block が覆うので、残した block とは重ならない。
  have hapart : ∀ {i k b i' k' b' u}, A i k b → H i' k' b' → Covers k b u → Covers k' b' u →
      R i' k' b' := by
    intro i k b i' k' b' u ha hh hu hu'
    obtain ⟨j, l, c, hr, hc⟩ := (hcover u).mp ⟨i, k, b, ha, hu⟩
    obtain ⟨rfl, rfl, rfl⟩ := h.disjoint (hR hr) hh hc hu'
    exact hr
  constructor
  · intro i k b hb
    rcases (hH' i k b).mp hb with ha | ⟨hh, -⟩
    · exact haligned ha
    · exact h.aligned hh
  · intro i k b hb
    rcases (hH' i k b).mp hb with ha | ⟨hh, -⟩
    · have hpos := Nat.two_pow_pos k
      obtain ⟨j, l, c, hr, hc⟩ := (hcover (b + 2 ^ k - 1)).mp ⟨i, k, b, ha, by omega, by omega⟩
      have := h.inside (hR hr)
      have := hc.2
      omega
    · exact h.inside hh
  · intro i k b i' k' b' u hb hb' hu hu'
    rcases (hH' i k b).mp hb with ha | ⟨hh, hnr⟩ <;>
      rcases (hH' i' k' b').mp hb' with ha' | ⟨hh', hnr'⟩
    · exact hdisjoint ha ha' hu hu'
    · exact absurd (hapart ha hh' hu hu') hnr'
    · exact absurd (hapart ha' hh hu' hu) hnr
    · exact h.disjoint hh hh' hu hu'
  · intro u hu
    obtain ⟨i, k, hh⟩ := h.cover hu
    by_cases hr : R i k (base k u)
    · obtain ⟨j, l, c, ha, hc⟩ := (hcover u).mpr ⟨i, k, _, hr, covers_base k u⟩
      refine ⟨j, l, (hH' _ _ _).mpr (.inl ?_)⟩
      rw [← eq_base_of_covers (haligned ha) hc]
      exact ha
    · exact ⟨i, k, (hH' _ _ _).mpr (.inr ⟨hh, hr⟩)⟩

theorem Tiling.congr (h : Tiling n H) (hH' : ∀ i k b, H' i k b ↔ H i k b) : Tiling n H' := by
  have heq : H' = H := by
    funext i k b
    exact propext (hH' i k b)
  rw [heq]
  exact h

/-- 一つの block の持ち主が替わる。 -/
theorem Tiling.move (h : Tiling n H) {i i' : ι} {k b : Nat} (hb : H i k b)
    (hH' : ∀ j l c, H' j l c ↔ (j = i' ∧ l = k ∧ c = b) ∨ (H j l c ∧ ¬ (j = i ∧ l = k ∧ c = b))) :
    Tiling n H' := by
  refine h.replace (R := fun j l c => j = i ∧ l = k ∧ c = b) ?_ hH' ?_ ?_ ?_
  · rintro j l c ⟨rfl, rfl, rfl⟩
    exact hb
  · rintro j l c ⟨rfl, rfl, rfl⟩
    exact h.aligned hb
  · rintro j l c j' l' c' u ⟨rfl, rfl, rfl⟩ ⟨rfl, rfl, rfl⟩ - -
    exact ⟨rfl, rfl, rfl⟩
  · intro u
    constructor
    · rintro ⟨j, l, c, ⟨rfl, rfl, rfl⟩, hu⟩
      exact ⟨i, l, c, ⟨rfl, rfl, rfl⟩, hu⟩
    · rintro ⟨j, l, c, ⟨rfl, rfl, rfl⟩, hu⟩
      exact ⟨i', l, c, ⟨rfl, rfl, rfl⟩, hu⟩

theorem covers_succ {k b u : Nat} :
    Covers (k + 1) b u ↔ Covers k b u ∨ Covers k (b + 2 ^ k) u := by
  unfold Covers
  rw [Nat.pow_succ]
  omega

/-- 左右の半分。 -/
def Halves (i₁ i₂ : ι) (k b : Nat) (j : ι) (l c : Nat) : Prop :=
  (j = i₁ ∧ l = k ∧ c = b) ∨ (j = i₂ ∧ l = k ∧ c = b + 2 ^ k)

theorem halves_covers {i₁ i₂ : ι} {k b u : Nat} :
    (∃ j l c, Halves i₁ i₂ k b j l c ∧ Covers l c u) ↔ Covers (k + 1) b u := by
  rw [covers_succ]
  constructor
  · rintro ⟨j, l, c, ⟨rfl, rfl, rfl⟩ | ⟨rfl, rfl, rfl⟩, hu⟩
    · exact .inl hu
    · exact .inr hu
  · rintro (hu | hu)
    · exact ⟨i₁, k, b, .inl ⟨rfl, rfl, rfl⟩, hu⟩
    · exact ⟨i₂, k, b + 2 ^ k, .inr ⟨rfl, rfl, rfl⟩, hu⟩

theorem one_covers {i : ι} {k b u : Nat} :
    (∃ j l c, (j = i ∧ l = k ∧ c = b) ∧ Covers l c u) ↔ Covers k b u := by
  constructor
  · rintro ⟨j, l, c, ⟨rfl, rfl, rfl⟩, hu⟩
    exact hu
  · exact fun hu => ⟨i, k, b, ⟨rfl, rfl, rfl⟩, hu⟩

/-- 一つの block を半分ずつに分ける。 -/
theorem Tiling.split (h : Tiling n H) {i i₁ i₂ : ι} {k b : Nat} (hb : H i (k + 1) b)
    (hH' : ∀ j l c, H' j l c ↔
      Halves i₁ i₂ k b j l c ∨ (H j l c ∧ ¬ (j = i ∧ l = k + 1 ∧ c = b))) :
    Tiling n H' := by
  have hdvd := dvd_of_le (Nat.le_succ k) (h.aligned hb)
  refine h.replace (R := fun j l c => j = i ∧ l = k + 1 ∧ c = b) ?_ hH' ?_ ?_ ?_
  · rintro j l c ⟨rfl, rfl, rfl⟩
    exact hb
  · rintro j l c (⟨rfl, rfl, rfl⟩ | ⟨rfl, rfl, rfl⟩)
    · exact hdvd
    · exact Nat.dvd_add hdvd (dvd_refl _)
  · rintro j l c j' l' c' u (⟨rfl, rfl, rfl⟩ | ⟨rfl, rfl, rfl⟩) (⟨rfl, rfl, rfl⟩ | ⟨rfl, rfl, rfl⟩)
      hu hu'
    · exact ⟨rfl, rfl, rfl⟩
    · exact absurd hu.2 (not_lt.mpr hu'.1)
    · exact absurd hu'.2 (not_lt.mpr hu.1)
    · exact ⟨rfl, rfl, rfl⟩
  · intro u
    rw [halves_covers, one_covers]

/-- 隣り合う二つの半分を一つに合わせる。 -/
theorem Tiling.merge (h : Tiling n H) {i i₁ i₂ : ι} {k b : Nat} (hdvd : 2 ^ (k + 1) ∣ b)
    (hb₁ : H i₁ k b) (hb₂ : H i₂ k (b + 2 ^ k))
    (hH' : ∀ j l c, H' j l c ↔
      (j = i ∧ l = k + 1 ∧ c = b) ∨ (H j l c ∧ ¬ Halves i₁ i₂ k b j l c)) :
    Tiling n H' := by
  refine h.replace (R := Halves i₁ i₂ k b) ?_ hH' ?_ ?_ ?_
  · rintro j l c (⟨rfl, rfl, rfl⟩ | ⟨rfl, rfl, rfl⟩)
    · exact hb₁
    · exact hb₂
  · rintro j l c ⟨rfl, rfl, rfl⟩
    exact hdvd
  · rintro j l c j' l' c' u ⟨rfl, rfl, rfl⟩ ⟨rfl, rfl, rfl⟩ - -
    exact ⟨rfl, rfl, rfl⟩
  · intro u
    rw [halves_covers, one_covers]

theorem Tiling.empty : Tiling 0 (fun (_ : ι) _ _ => False) where
  aligned h := h.elim
  inside h := h.elim
  disjoint h := h.elim
  cover hu := absurd hu (Nat.not_lt_zero _)

/-- 末尾に揃った block を一つ足す。 -/
theorem Tiling.extend (h : Tiling n H) {i : ι} {k : Nat} (hdvd : 2 ^ k ∣ n)
    (hH' : ∀ j l c, H' j l c ↔ (j = i ∧ l = k ∧ c = n) ∨ H j l c) : Tiling (n + 2 ^ k) H' := by
  constructor
  · intro j l c hb
    rcases (hH' j l c).mp hb with ⟨rfl, rfl, rfl⟩ | hh
    · exact hdvd
    · exact h.aligned hh
  · intro j l c hb
    rcases (hH' j l c).mp hb with ⟨rfl, rfl, rfl⟩ | hh
    · exact le_rfl
    · exact (h.inside hh).trans (Nat.le_add_right n _)
  · intro j l c j' l' c' u hb hb' hu hu'
    rcases (hH' j l c).mp hb with ⟨rfl, rfl, rfl⟩ | hh <;>
      rcases (hH' j' l' c').mp hb' with ⟨rfl, rfl, rfl⟩ | hh'
    · exact ⟨rfl, rfl, rfl⟩
    · exact absurd (lt_of_lt_of_le hu'.2 (h.inside hh')) (not_lt.mpr hu.1)
    · exact absurd (lt_of_lt_of_le hu.2 (h.inside hh)) (not_lt.mpr hu'.1)
    · exact h.disjoint hh hh' hu hu'
  · intro u hu
    by_cases hlt : u < n
    · obtain ⟨j, l, hh⟩ := h.cover hlt
      exact ⟨j, l, (hH' _ _ _).mpr (.inr hh)⟩
    · refine ⟨i, k, (hH' _ _ _).mpr (.inl ⟨rfl, rfl, ?_⟩)⟩
      exact (eq_base_of_covers hdvd ⟨not_lt.mp hlt, hu⟩).symm

/-! ## 合わせ切った敷き詰め -/

/-- 次数が `M` より小さい隣同士の半分は、両方が block になっていない。 -/
def Settled (M : Nat) (H : ι → Nat → Nat → Prop) : Prop :=
  ∀ k b, k < M → 2 ^ (k + 1) ∣ b → ¬ ((∃ i, H i k b) ∧ ∃ i, H i k (b + 2 ^ k))

/--
揃った所の中で隣同士の両方が block になることがなければ、そこは一つの block に収まる。

中にある block のうち、次数の最も小さいものを取る。その次数が `k` に届かなければ、隣もまた block である。
-/
theorem Tiling.exists_ge (h : Tiling n H) {k b : Nat} (hdvd : 2 ^ k ∣ b) (hle : b + 2 ^ k ≤ n)
    (hs : ∀ m x, m < k → 2 ^ (m + 1) ∣ x → Covers k b x →
      ¬ ((∃ i, H i m x) ∧ ∃ i, H i m (x + 2 ^ m))) :
    ∃ i m, k ≤ m ∧ H i m (base m b) := by
  have hpos := Nat.two_pow_pos k
  have hex : ∃ m, ∃ u, Covers k b u ∧ ∃ j, H j m (base m u) := by
    obtain ⟨j, m, hj⟩ := h.cover (u := b) (by omega)
    exact ⟨m, b, ⟨le_rfl, by omega⟩, j, hj⟩
  classical
  obtain ⟨u, hu, j, hj⟩ := Nat.find_spec hex
  have hmin : ∀ m', m' < Nat.find hex → ¬ _ := fun m' hlt => Nat.find_min hex hlt
  generalize Nat.find hex = m at hj hmin
  have hbase : b = base k u := eq_base_of_covers hdvd hu
  rcases Nat.lt_or_ge m k with hlt | hge
  swap
  · refine ⟨j, m, hge, ?_⟩
    rwa [hbase, base_base hge]
  exfalso
  have hin := base_nested (m := k) (k := m + 1) hlt u
  rw [← hbase] at hin
  -- その block の隣も、同じ次数の block である。
  have hbuddy : ∀ v, Covers (m + 1) (base (m + 1) u) v → ∃ j', H j' m (base m v) := by
    intro v hv
    have hvb : Covers k b v := ⟨hin.1.trans hv.1, lt_of_lt_of_le hv.2 hin.2⟩
    have hvn : v < n := lt_of_lt_of_le hvb.2 hle
    obtain ⟨j', m', hj'⟩ := h.cover hvn
    have hle' : m ≤ m' := by
      by_contra hlt'
      exact hmin m' (not_le.mp hlt') ⟨v, hvb, j', hj'⟩
    rcases Nat.eq_or_lt_of_le hle' with rfl | hlt'
    · exact ⟨j', hj'⟩
    · -- 次数が大きければ、初めの block と重なる。
      have hsame : base (m + 1) v = base (m + 1) u := base_eq_of_covers hv
      have hnest := base_nested (k := m + 1) (m := m') hlt' v
      rw [hsame] at hnest
      have hcu := covers_base (m + 1) u
      have hcov : Covers m' (base m' v) u :=
        ⟨hnest.1.trans hcu.1, lt_of_lt_of_le hcu.2 hnest.2⟩
      obtain ⟨-, heq, -⟩ := h.disjoint hj' hj hcov (covers_base m u)
      omega
  have hdvd₁ := dvd_base (m + 1) u
  have hdvd₀ := dvd_of_le (Nat.le_succ m) hdvd₁
  have hposm := Nat.two_pow_pos m
  refine hs m (base (m + 1) u) hlt hdvd₁ ⟨hin.1, by omega⟩ ⟨?_, ?_⟩
  · have hleft := hbuddy (base (m + 1) u) ⟨le_rfl, by omega⟩
    rwa [base_eq_of_dvd hdvd₀] at hleft
  · have hright := hbuddy (base (m + 1) u + 2 ^ m) ⟨by omega, by omega⟩
    rwa [base_eq_of_dvd (Nat.dvd_add hdvd₀ (dvd_refl _))] at hright

/-- 合わせ切った敷き詰めの block を倍にすると、`[0, n)` からはみ出す。 -/
theorem Tiling.maximal (h : Tiling n H) (hs : Settled M H) {i : ι} {k b : Nat} (hb : H i k b)
    (hk : k < M) : n < base (k + 1) b + 2 ^ (k + 1) := by
  by_contra hle
  rw [not_lt] at hle
  obtain ⟨j, m, hm, hj⟩ := h.exists_ge (dvd_base (k + 1) b) hle fun m x hmk hx _ =>
    hs m x (by omega) hx
  -- 倍にした所を覆う block は、初めの block とも重なる。
  rw [base_base hm] at hj
  obtain ⟨-, heq, -⟩ := h.disjoint hj hb (covers_base m b)
    ⟨le_rfl, Nat.lt_add_of_pos_right (Nat.two_pow_pos k)⟩
  omega

/-- `[0, n)` に収まり、倍にするとはみ出す block は、合わせ切った敷き詰めに現れる。 -/
theorem Tiling.of_maximal (h : Tiling n H) (hs : Settled M H)
    (hM : ∀ {i k b}, H i k b → k ≤ M) {k b : Nat} (hdvd : 2 ^ k ∣ b) (hle : b + 2 ^ k ≤ n)
    (hk : k ≤ M) (hmax : k < M → n < base (k + 1) b + 2 ^ (k + 1)) : ∃ i, H i k b := by
  obtain ⟨i, m, hm⟩ := h.cover (u := b) (by omega)
  rcases Nat.lt_trichotomy m k with hlt | rfl | hgt
  · have hout := h.maximal hs hm (by omega)
    have hsame : base (m + 1) (base m b) = base (m + 1) b := base_base (by omega) b
    have hnest := (base_nested (k := m + 1) (m := k) hlt b).2
    rw [base_eq_of_dvd hdvd] at hnest
    rw [hsame] at hout
    omega
  · rw [base_eq_of_dvd hdvd] at hm
    exact ⟨i, hm⟩
  · have hkM : k < M := lt_of_lt_of_le hgt (hM hm)
    have hnest := (base_nested (k := k + 1) (m := m) hgt b).2
    have := h.inside hm
    have := hmax hkM
    omega

/-- **合わせ切った敷き詰めは、どの block を含むかまで一通りに決まる。** -/
theorem Tiling.unique {ι' : Type*} {H' : ι' → Nat → Nat → Prop} (h : Tiling n H)
    (h' : Tiling n H') (hs : Settled M H) (hs' : Settled M H') (hM : ∀ {i k b}, H i k b → k ≤ M)
    (hM' : ∀ {i k b}, H' i k b → k ≤ M) (k b : Nat) : (∃ i, H i k b) ↔ ∃ i, H' i k b := by
  constructor
  · rintro ⟨i, hb⟩
    exact h'.of_maximal hs' hM' (h.aligned hb) (h.inside hb) (hM hb) (h.maximal hs hb)
  · rintro ⟨i, hb⟩
    exact h.of_maximal hs hM (h'.aligned hb) (h'.inside hb) (hM' hb) (h'.maximal hs' hb)

end RecordServer.Infra
