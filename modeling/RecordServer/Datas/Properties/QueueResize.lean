import RecordServer.Datas.Properties.QueueFifo
import Mathlib.Data.Nat.Prime.Basic

/-!
# 大きくした queue は中身を保つか

`queue_resize` は配列を同じ場所のまま写すが、index から場所を求める除数は変わる。中身が保たれるのは、
残っている要素の場所が、新しい除数でもたまたま同じ値を持つときに限る。

* `stored` — ある index から、別の index と同じ場所に着くまでの歩数
* `Drains`、`Takes` — 続く dequeue が渡す要素と、続く enqueue が積める個数
* `KeepsContents` — `queue_resize` の後も同じ要素を渡し、大きさより一つ少ない個数まで積める
* `SameRing`、`Unmoved` — 新しい大きさと index についての算術の条件
* `Marked` — 積んだ要素がみな違えば、場所ごとの値もみな違う
* `keepsContents_iff` — 中身が保たれるのは、歩数も残りの要素の場所も変わらないときに限る
-/

namespace RecordServer.Datas.TaskQueue

open Infra

variable {E : Type*}

/-! ## 場所の上の歩数 -/

/-- index が戻らないとしたときの、`x` から `y` の場所までの歩数。 -/
def ahead (size x y : Nat) : Nat := (y + (size - x % size)) % size

/-- 2^32 で 0 に戻りながら進むとき、`x` から、`y` の場所に初めて着くまでの歩数。 -/
def stored (size x y : Nat) : Nat :=
  if x + ahead size x y < 2 ^ 32 then ahead size x y else 2 ^ 32 - x + y % size

section Steps

variable {size x y : Nat}

theorem ahead_lt (hsize : 0 < size) : ahead size x y < size := Nat.mod_lt _ hsize

/-- `ahead` だけ進むと、`y` の場所に着く。 -/
theorem add_ahead_mod (hsize : 0 < size) : (x + ahead size x y) % size = y % size := by
  have hlt := Nat.mod_lt x hsize
  have hdm := Nat.div_add_mod x size
  have heq : x + (y + (size - x % size)) = y + size * (x / size + 1) := by
    rw [Nat.mul_add, Nat.mul_one]
    omega
  rw [ahead, Nat.add_mod_mod, heq, Nat.add_mul_mod_self_left]

/-- `ahead` は、`y` の場所に着く最も短い歩数である。 -/
theorem ahead_le (hsize : 0 < size) {k : Nat} (hk : (x + k) % size = y % size) :
    ahead size x y ≤ k := by
  by_contra hlt
  have hal := ahead_lt (x := x) (y := y) hsize
  refine mod_ne_of_lt (m := size) (show x + k < x + ahead size x y by omega) (by omega) ?_
  rw [hk, add_ahead_mod hsize]

/-- 一つ進めば、残りの歩数は一つ減る。 -/
theorem ahead_succ (hsize : 0 < size) (hne : x % size ≠ y % size) :
    ahead size x y = ahead size (x + 1) y + 1 := by
  have hpos : ahead size x y ≠ 0 := fun h0 => by
    have h := add_ahead_mod (x := x) (y := y) hsize
    rw [h0, Nat.add_zero] at h
    exact hne h
  apply le_antisymm
  · refine ahead_le hsize ?_
    rw [← Nat.add_assoc, Nat.add_right_comm]
    exact add_ahead_mod hsize
  · have hle : ahead size (x + 1) y ≤ ahead size x y - 1 := ahead_le hsize (by
      rw [show x + 1 + (ahead size x y - 1) = x + ahead size x y by omega]
      exact add_ahead_mod hsize)
    omega

theorem stored_eq_zero_iff (hsize : 0 < size) (hx : x < 2 ^ 32) :
    stored size x y = 0 ↔ x % size = y % size := by
  constructor
  · intro h0
    unfold stored at h0
    split at h0
    · have h := add_ahead_mod (x := x) (y := y) hsize
      rwa [h0, Nat.add_zero] at h
    · omega
  · intro heq
    have h0 : ahead size x y = 0 := Nat.le_zero.mp (ahead_le hsize heq)
    rw [stored, h0, if_pos (by omega)]

/-- `stored` も、一つ進めば一つ減る。index が 0 に戻るところも例外ではない。 -/
theorem stored_succ (hsize : 0 < size) (hx : x < 2 ^ 32) (hy : y < 2 ^ 32)
    (hne : x % size ≠ y % size) : stored size x y = stored size (u32 (x + 1)) y + 1 := by
  have hsucc := ahead_succ hsize hne
  rcases Nat.lt_or_ge (x + 1) (2 ^ 32) with hlt | hge
  · rw [u32_of_lt hlt, stored, stored, hsucc]
    split
    · rw [if_pos (by omega)]
    · rw [if_neg (by omega)]
      omega
  · have hwrap : u32 (x + 1) = 0 := by
      rw [show x + 1 = 2 ^ 32 by omega]
      rfl
    have hzero : ahead size 0 y = y % size := by simp [ahead]
    have hmod := Nat.mod_le y size
    rw [hwrap, stored, stored, if_neg (by omega), hzero, if_pos (by omega)]
    omega

/-- 戻る前の、輪の一周に満たない歩数は、index の差である。 -/
theorem ahead_of_le (hle : x ≤ y) (hlt : y < x + size) : ahead size x y = y - x := by
  have hsize : 0 < size := by omega
  have hxy : x + (y - x) = y := by omega
  apply le_antisymm
  · exact ahead_le hsize (by rw [hxy])
  · by_contra hc
    refine mod_ne_of_lt (m := size) (show x + ahead size x y < y by omega) (by omega) ?_
    exact add_ahead_mod hsize

end Steps

/-! ## 続けて呼ぶ dequeue と enqueue -/

/-- 続く dequeue が、`l` の要素を順に渡してから空と答える。 -/
def Drains (mode : Mode) (q : Queue E) (l : List E) : Prop :=
  Converges (fun fuel => (calls mode fuel q (List.replicate (l.length + 1) .dequeue)).map Prod.fst)
    (l.map (fun ele => .deq (some ele)) ++ [.deq none])

/-- 続く enqueue が、`k` 個を積んでから満杯と答える。 -/
def Takes (mode : Mode) (q : Queue E) (ele : E) (k : Nat) : Prop :=
  Converges (fun fuel => (calls mode fuel q (List.replicate (k + 1) (.enqueue ele))).map Prod.fst)
    (List.replicate k (.enq true) ++ [.enq false])

/-- index は u32 に収まり、途中の enqueue は無い。 -/
structure Ready (mode : Mode) (q : Queue E) : Prop where
  size : 0 < q.size
  wr : q.wrindex < 2 ^ 32
  rd : q.rdindex < 2 ^ 32
  published : mode = .multi → q.maxRdindex = q.wrindex

variable {mode : Mode} {q : Queue E}

/-- 要素を取り出し終えた queue。 -/
def popped (q : Queue E) : Queue E :=
  { q with
    rdindex := u32 (q.rdindex + 1)
    taken := q.taken ++ [q.elems (q.rdindex % q.size)] }

theorem Ready.popped (h : Ready mode q) : Ready mode (popped q) :=
  ⟨h.size, h.wr, u32_lt _, h.published⟩

theorem Ready.pushed (h : Ready mode q) (ele : E) : Ready mode (pushed mode q ele) := by
  refine ⟨h.size, u32_lt _, h.rd, ?_⟩
  rintro rfl
  simp [TaskQueue.pushed, h.published rfl]

theorem queueResize_eq {zero : E} {q q' : Queue E} {s : Nat}
    (h : q.queueResize zero s = some q') : q.size + s < 2 ^ 31 ∧ q' =
      { q with
        size := q.size + s
        elems := fun i => if i < q.size then q.elems i else zero } := by
  unfold Queue.queueResize at h
  split at h
  · next hlt => exact ⟨hlt, (Option.some.inj h).symm⟩
  · cases h

theorem Ready.resize (h : Ready mode q) {zero : E} {s : Nat} {q' : Queue E}
    (hq : q.queueResize zero s = some q') : Ready mode q' := by
  obtain ⟨-, rfl⟩ := queueResize_eq hq
  exact ⟨Nat.lt_of_lt_of_le h.size (Nat.le_add_right _ _), h.wr, h.rd, h.published⟩

/-- 初めの呼び出しの戻り値と、残りの呼び出しの戻り値。 -/
theorem calls_cons_iff {c : Call E} {cs : List (Call E)} {r r' : Ret E} {rs : List (Ret E)}
    {q' : Queue E} (hc : Converges (fun fuel => runCall mode fuel q c.entry) (r, q')) :
    Converges (fun fuel => (calls mode fuel q (c :: cs)).map Prod.fst) (r' :: rs) ↔
      r' = r ∧ Converges (fun fuel => (calls mode fuel q' cs).map Prod.fst) rs := by
  obtain ⟨n, hn⟩ := hc
  have heq : ∀ fuel, n ≤ fuel → (calls mode fuel q (c :: cs)).map Prod.fst =
      ((calls mode fuel q' cs).map Prod.fst).map (r :: ·) := by
    intro fuel hfuel
    have hrun := hn fuel hfuel
    simp only at hrun
    simp [calls, hrun, Function.comp_def]
  constructor
  · rintro ⟨m, hm⟩
    have hall : ∀ fuel, max n m ≤ fuel → ∃ rs', (calls mode fuel q' cs).map Prod.fst = some rs' ∧
        r :: rs' = r' :: rs := by
      intro fuel hfuel
      have hrun := hm fuel (le_trans (le_max_right n m) hfuel)
      simp only at hrun
      rw [heq fuel (le_trans (le_max_left n m) hfuel)] at hrun
      exact Option.map_eq_some_iff.mp hrun
    obtain ⟨_, -, hcons⟩ := hall _ le_rfl
    refine ⟨(List.cons.inj hcons).1.symm, max n m, fun fuel hfuel => ?_⟩
    obtain ⟨rs', hrs', hcons'⟩ := hall fuel hfuel
    rw [← (List.cons.inj hcons').2]
    exact hrs'
  · rintro ⟨rfl, m, hm⟩
    refine ⟨max n m, fun fuel hfuel => ?_⟩
    have hrun := hm fuel (le_trans (le_max_right n m) hfuel)
    simp only at hrun ⊢
    rw [heq fuel (le_trans (le_max_left n m) hfuel), hrun]
    rfl

/-- 場所を順に読んだ、queue の中身。 -/
def contents (q : Queue E) : List E :=
  (List.range (stored q.size q.rdindex q.wrindex)).map fun k =>
    q.elems (u32 (q.rdindex + k) % q.size)

theorem Ready.isEmpty_iff (h : Ready mode q) :
    q.isEmpty q.wrindex q.rdindex ↔ stored q.size q.rdindex q.wrindex = 0 := by
  rw [Queue.isEmpty, beq_iff_eq, stored_eq_zero_iff h.size h.rd]

theorem Ready.isFull_iff (h : Ready mode q) :
    q.isFull q.wrindex q.rdindex ↔ stored q.size (u32 (q.wrindex + 1)) q.rdindex = 0 := by
  rw [Queue.isFull, beq_iff_eq, stored_eq_zero_iff h.size (u32_lt _)]

theorem Ready.contents_cons (h : Ready mode q)
    (he : stored q.size q.rdindex q.wrindex ≠ 0) :
    contents q = q.elems (q.rdindex % q.size) :: contents (TaskQueue.popped q) := by
  have hne : q.rdindex % q.size ≠ q.wrindex % q.size :=
    mt (stored_eq_zero_iff h.size h.rd).mpr he
  rw [contents, stored_succ h.size h.rd h.wr hne, List.range_succ_eq_map, List.map_cons,
    Nat.add_zero, u32_of_lt h.rd, List.map_map]
  congr 1
  refine List.map_congr_left fun k _ => ?_
  simp only [TaskQueue.popped, Function.comp_apply, u32_add]
  rw [show q.rdindex + k.succ = q.rdindex + 1 + k by omega]

/-! 空かどうか、満杯かどうかで決まる、一つの呼び出しの結果。 -/

theorem Ready.dequeue_empty (h : Ready mode q) (he : stored q.size q.rdindex q.wrindex = 0) :
    Converges (fun fuel => runCall mode fuel q Call.dequeue.entry) (.deq none, q) :=
  TaskQueue.dequeue_empty (h.isEmpty_iff.mpr he)

theorem Ready.dequeue_some (h : Ready mode q) (he : stored q.size q.rdindex q.wrindex ≠ 0) :
    Converges (fun fuel => runCall mode fuel q Call.dequeue.entry)
      (.deq (some (q.elems (q.rdindex % q.size))), TaskQueue.popped q) :=
  TaskQueue.dequeue_some (Bool.eq_false_iff.mpr (mt h.isEmpty_iff.mp he))

theorem Ready.enqueue_full (h : Ready mode q) (ele : E)
    (hf : stored q.size (u32 (q.wrindex + 1)) q.rdindex = 0) :
    Converges (fun fuel => runCall mode fuel q (Call.enqueue ele).entry) (.enq false, q) :=
  TaskQueue.enqueue_full ele (h.isFull_iff.mpr hf)

theorem Ready.enqueue_room (h : Ready mode q) (ele : E)
    (hf : stored q.size (u32 (q.wrindex + 1)) q.rdindex ≠ 0) :
    Converges (fun fuel => runCall mode fuel q (Call.enqueue ele).entry)
      (.enq true, TaskQueue.pushed mode q ele) :=
  TaskQueue.enqueue_room h.published ele (Bool.eq_false_iff.mpr (mt h.isFull_iff.mp hf))

/-- 続く dequeue が渡すのは、ちょうど `contents` である。 -/
theorem Ready.drains_iff (h : Ready mode q) {l : List E} : Drains mode q l ↔ l = contents q := by
  induction l generalizing q with
  | nil =>
    by_cases he : stored q.size q.rdindex q.wrindex = 0
    · have hnil : contents q = [] := by simp [contents, he]
      rw [hnil, eq_self, iff_true]
      exact (calls_cons_iff (h.dequeue_empty he)).mpr ⟨rfl, .pure _⟩
    · rw [h.contents_cons he]
      refine iff_of_false (fun hd => ?_) (by simp)
      simpa using ((calls_cons_iff (h.dequeue_some he)).mp hd).1
  | cons e l ih =>
    by_cases he : stored q.size q.rdindex q.wrindex = 0
    · have hnil : contents q = [] := by simp [contents, he]
      rw [hnil]
      refine iff_of_false (fun hd => ?_) (by simp)
      simpa using ((calls_cons_iff (h.dequeue_empty he)).mp hd).1
    · rw [h.contents_cons he, List.cons.injEq, ← ih h.popped]
      refine (calls_cons_iff (h.dequeue_some he)).trans ?_
      rw [Ret.deq.injEq, Option.some.injEq]
      exact Iff.rfl

/-- 続く enqueue が積めるのは、`m_wrindex` の次から `m_rdindex` の場所までの歩数だけである。 -/
theorem Ready.takes_iff (h : Ready mode q) {ele : E} {k : Nat} :
    Takes mode q ele k ↔ k = stored q.size (u32 (q.wrindex + 1)) q.rdindex := by
  induction k generalizing q with
  | zero =>
    by_cases hf : stored q.size (u32 (q.wrindex + 1)) q.rdindex = 0
    · refine iff_of_true ?_ hf.symm
      exact (calls_cons_iff (h.enqueue_full ele hf)).mpr ⟨rfl, .pure _⟩
    · refine iff_of_false (fun hd => ?_) (Ne.symm hf)
      simpa using ((calls_cons_iff (h.enqueue_room ele hf)).mp hd).1
  | succ k ih =>
    by_cases hf : stored q.size (u32 (q.wrindex + 1)) q.rdindex = 0
    · refine iff_of_false (fun hd => ?_) (by omega)
      simpa using ((calls_cons_iff (h.enqueue_full ele hf)).mp hd).1
    · have hne : u32 (q.wrindex + 1) % q.size ≠ q.rdindex % q.size :=
        mt (stored_eq_zero_iff h.size (u32_lt _)).mpr hf
      rw [stored_succ h.size (u32_lt _) h.rd hne, Nat.add_right_cancel_iff]
      refine (calls_cons_iff (h.enqueue_room ele hf)).trans ?_
      rw [eq_self, true_and]
      exact ih (h.pushed ele)

/-! ## どの呼び出しの列の後でも -/

theorem ready_init (mode : Mode) (zero : E) {size : Nat} (hsize : 2 ≤ size) :
    Ready mode (Queue.queueInit zero size) :=
  ⟨by simp only [Queue.queueInit]; omega, by simp [Queue.queueInit], by simp [Queue.queueInit],
    fun _ => rfl⟩

/-! ## `queue_resize` の前と後 -/

/-- `queue_resize(s)` の後も同じ要素を同じ順に渡し、合わせて `m_size + s - 1` 個まで積める。 -/
def KeepsContents (mode : Mode) (zero : E) (q : Queue E) (s : Nat) : Prop :=
  ∃ q' l, q.queueResize zero s = some q' ∧ Drains mode q l ∧ Drains mode q' l ∧
    ∀ ele, ∃ k, Takes mode q' ele k ∧ l.length + k = q.size + s - 1

/--
除数 `n + s` の輪でも、`rd` から `c` 歩で `wr` の場所に着き、輪を一周できる。

一周の間に index が u32 の終わりを越えるなら、`n + s` は `2 ^ 32` を割り切る。
-/
structure SameRing (n s rd wr c : Nat) : Prop where
  size : n + s < 2 ^ 31
  count : c < n + s
  meets : rd + c ≡ wr [MOD n + s]
  turn : n + s ∣ 2 ^ 32 ∨ rd + c < 2 ^ 32 ∧ wr + (n + s) < 2 ^ 32 + c

/-- index `i` の場所が、除数が `n` から `n + s` に変わっても動かない。 -/
def Unmoved (n s i : Nat) : Prop := i % (n + s) = i % n

instance (n s i : Nat) : Decidable (Unmoved n s i) := inferInstanceAs (Decidable (_ = _))

/-- index `i` の新しい場所に、古い場所と同じ値がある。 -/
def Repeated (zero : E) (q : Queue E) (s i : Nat) : Prop :=
  (if i % (q.size + s) < q.size then q.elems (i % (q.size + s)) else zero) = q.elems (i % q.size)

instance [DecidableEq E] (zero : E) (q : Queue E) (s i : Nat) : Decidable (Repeated zero q s i) :=
  inferInstanceAs (Decidable (_ = _))

/-! ### 輪の一周 -/

section Ring

variable {size x y k : Nat}

/-- 大きさが `2 ^ 32` を割り切れば、u32 の終わりを越えた歩みは、越えなかったときと同じ場所に着く。 -/
theorem add_mod_of_dvd (hdvd : size ∣ 2 ^ 32) (hge : 2 ^ 32 ≤ x) (hlt : x < 2 ^ 32 + size) :
    2 ^ 32 + x % size = x := by
  obtain ⟨m, hm⟩ := hdvd
  have hmod : x % size = x - 2 ^ 32 := by
    rw [← Nat.mod_eq_of_lt (show x - 2 ^ 32 < size by omega), hm, Nat.sub_mul_mod (by omega)]
  omega

/-- 同じ場所に着くなら、大きさは `2 ^ 32` を割り切る。 -/
theorem dvd_of_add_eq (hk : 2 ^ 32 + y % size = x + k) (hmod : (x + k) % size = y % size) :
    size ∣ 2 ^ 32 := by
  rw [← hk] at hmod
  have hzero : 2 ^ 32 + y % size ≡ 0 + y % size [MOD size] := by
    show (2 ^ 32 + y % size) % size = (0 + y % size) % size
    rw [hmod, Nat.zero_add, Nat.mod_mod]
  exact (Nat.modEq_zero_iff_dvd).mp (Nat.ModEq.add_right_cancel' _ hzero)

theorem ahead_eq_iff (hsize : 0 < size) : ahead size x y = k ↔ k < size ∧ x + k ≡ y [MOD size] := by
  constructor
  · rintro rfl
    exact ⟨ahead_lt hsize, add_ahead_mod hsize⟩
  · rintro ⟨hlt, hmod⟩
    have hle := ahead_le hsize hmod
    by_contra hne
    refine mod_ne_of_lt (m := size) (show x + ahead size x y < x + k by omega) (by omega) ?_
    rw [add_ahead_mod hsize]
    exact hmod.symm

/-- `y` の次から `x` の場所までと、`x` から `y` の場所までを合わせて一周である。 -/
theorem ahead_add_ahead (hsize : 0 < size) :
    ahead size x y + ahead size (y + 1) x = size - 1 := by
  have hlt := ahead_lt (x := x) (y := y) hsize
  have hback : ahead size (y + 1) x = size - 1 - ahead size x y := by
    rw [ahead_eq_iff hsize]
    refine ⟨by omega, ?_⟩
    have hround : x + ahead size x y + (size - ahead size x y) ≡ y + (size - ahead size x y)
        [MOD size] := Nat.ModEq.add_right _ (add_ahead_mod hsize)
    calc y + 1 + (size - 1 - ahead size x y)
        = y + (size - ahead size x y) := by omega
      _ ≡ x + ahead size x y + (size - ahead size x y) [MOD size] := hround.symm
      _ = x + size := by omega
      _ ≡ x [MOD size] := Nat.add_mod_right x size
  omega

theorem stored_succ_eq (hx : x < 2 ^ 32) (hy : y < 2 ^ 32) : stored size (u32 (y + 1)) x =
    if y + 1 + ahead size (y + 1) x < 2 ^ 32 then ahead size (y + 1) x
    else 2 ^ 32 - (y + 1) + x % size := by
  rcases Nat.lt_or_ge (y + 1) (2 ^ 32) with hlt | hge
  · rw [u32_of_lt hlt, stored]
  · have hwrap : u32 (y + 1) = 0 := by
      rw [show y + 1 = 2 ^ 32 by omega]
      rfl
    have hzero : ahead size 0 x = x % size := by simp [ahead]
    have hmod := Nat.mod_le x size
    rw [hwrap, stored, hzero, if_pos (show 0 + x % size < 2 ^ 32 by omega), if_neg (by omega)]
    omega

/-- 二つの歩みが両方とも u32 の終わりを越えて、合わせて一周になることはない。 -/
theorem not_both_wrap (hsize : 0 < size) (hsize' : size < 2 ^ 31) (hx : x < 2 ^ 32)
    (hy : y < 2 ^ 32) (hxw : 2 ^ 32 ≤ x + ahead size x y)
    (hyw : 2 ^ 32 ≤ y + 1 + ahead size (y + 1) x) :
    2 ^ 32 - x + y % size + (2 ^ 32 - (y + 1) + x % size) ≠ size - 1 := by
  intro htotal
  have hxm := Nat.div_add_mod x size
  have hym := Nat.div_add_mod y size
  have hmul : size * (1 + x / size + y / size) = 2 ^ 33 := by
    rw [Nat.mul_add, Nat.mul_add, Nat.mul_one]
    omega
  -- 大きさは 2 の冪なので `2 ^ 32` を割り切り、越えた先は越えなかったときと変わらない。
  obtain ⟨j, -, rfl⟩ := (Nat.dvd_prime_pow Nat.prime_two).mp (Dvd.intro _ hmul)
  have hj : j < 31 := (Nat.pow_lt_pow_iff_right (by decide)).mp hsize'
  have hdvd : 2 ^ j ∣ 2 ^ 32 := pow_dvd_pow 2 (by omega)
  have hxlt := ahead_lt (x := x) (y := y) hsize
  have hylt := ahead_lt (x := y + 1) (y := x) hsize
  have hxe := add_mod_of_dvd hdvd hxw (by omega)
  have hye := add_mod_of_dvd hdvd hyw (by omega)
  rw [add_ahead_mod hsize] at hxe hye
  have hxl := add_mod_of_dvd (x := x + 2 ^ j) hdvd (by omega) (by omega)
  have hyl := add_mod_of_dvd (x := y + 2 ^ j) hdvd (by omega) (by omega)
  rw [Nat.add_mod_right] at hxl hyl
  omega

/-- 歩数が合い、輪を一周できる条件を、index の算術で述べる。 -/
theorem sameRing_iff {n s rd wr c : Nat} (hn : 0 < n) (hrd : rd < 2 ^ 32) (hwr : wr < 2 ^ 32) :
    SameRing n s rd wr c ↔ n + s < 2 ^ 31 ∧ stored (n + s) rd wr = c ∧
      c + stored (n + s) (u32 (wr + 1)) rd = n + s - 1 := by
  have hsize : 0 < n + s := by omega
  have hround := ahead_add_ahead (x := rd) (y := wr) hsize
  have hlt := ahead_lt (x := rd) (y := wr) hsize
  have hlt' := ahead_lt (x := wr + 1) (y := rd) hsize
  have hthere := add_ahead_mod (x := rd) (y := wr) hsize
  have hback := add_ahead_mod (x := wr + 1) (y := rd) hsize
  rw [stored_succ_eq hrd hwr, stored]
  constructor
  · rintro ⟨hs32, hc, hmeets, hturn⟩
    obtain rfl := (ahead_eq_iff hsize).mpr ⟨hc, hmeets⟩
    refine ⟨hs32, ?_, ?_⟩
    · split
      · rfl
      · next hge =>
        have hdvd := hturn.resolve_right fun h => hge h.1
        have heq := add_mod_of_dvd (x := rd + ahead (n + s) rd wr) hdvd (by omega) (by omega)
        rw [hthere] at heq
        omega
    · split
      · exact hround
      · next hge =>
        have hdvd := hturn.resolve_right fun h => hge (by omega)
        have heq := add_mod_of_dvd (x := wr + 1 + ahead (n + s) (wr + 1) rd) hdvd (by omega)
          (by omega)
        rw [hback] at heq
        omega
  · rintro ⟨hs32, hsteps, htotal⟩
    by_cases hrw : rd + ahead (n + s) rd wr < 2 ^ 32
    · rw [if_pos hrw] at hsteps
      obtain ⟨hc, hmeets⟩ := (ahead_eq_iff hsize).mp hsteps
      refine ⟨hs32, hc, hmeets, ?_⟩
      by_cases hww : wr + 1 + ahead (n + s) (wr + 1) rd < 2 ^ 32
      · exact .inr ⟨by omega, by omega⟩
      · rw [if_neg hww] at htotal
        exact .inl (dvd_of_add_eq (x := wr + 1) (k := ahead (n + s) (wr + 1) rd) (y := rd)
          (by omega) hback)
    · rw [if_neg hrw] at hsteps
      by_cases hww : wr + 1 + ahead (n + s) (wr + 1) rd < 2 ^ 32
      · rw [if_pos hww] at htotal
        obtain ⟨hc, hmeets⟩ := (ahead_eq_iff (x := rd) (y := wr) (k := c) hsize).mp (by omega)
        exact ⟨hs32, hc, hmeets, .inl (dvd_of_add_eq (x := rd) (k := ahead (n + s) rd wr) (y := wr)
          (by omega) hthere)⟩
      · rw [if_neg hww] at htotal
        exact absurd (hsteps ▸ htotal)
          (not_both_wrap hsize hs32 hrd hwr (Nat.le_of_not_lt hrw) (Nat.le_of_not_lt hww))

end Ring

/-! ### 場所の値 -/

theorem Ready.keeps_iff (h : Ready mode q) (zero : E) (s : Nat) :
    KeepsContents mode zero q s ↔
      SameRing q.size s q.rdindex q.wrindex (stored q.size q.rdindex q.wrindex) ∧
      ∀ k < stored q.size q.rdindex q.wrindex, Unmoved q.size s (u32 (q.rdindex + k)) ∨
        Repeated zero q s (u32 (q.rdindex + k)) := by
  rw [sameRing_iff h.size h.rd h.wr]
  constructor
  · rintro ⟨q', l, hq, hl, hl', htakes⟩
    have h' := h.resize hq
    obtain ⟨hlt, rfl⟩ := queueResize_eq hq
    obtain ⟨k, hk, hlen⟩ := htakes zero
    rw [h.drains_iff] at hl
    rw [h'.drains_iff, hl] at hl'
    rw [h'.takes_iff] at hk
    have hsteps : stored q.size q.rdindex q.wrindex =
        stored (q.size + s) q.rdindex q.wrindex := by
      simpa [contents] using congrArg List.length hl'
    refine ⟨⟨hlt, hsteps.symm, ?_⟩, fun k hk => .inr ?_⟩
    · rw [hl, hk] at hlen
      simpa [contents] using hlen
    · have hget := congrArg (fun xs => xs[k]?) hl'
      simpa [contents, hk, ← hsteps, Repeated, eq_comm] using hget
  · rintro ⟨⟨hlt, hsteps, hturn⟩, hcells⟩
    have hq : q.queueResize zero s = some
        { q with
          size := q.size + s
          elems := fun i => if i < q.size then q.elems i else zero } := if_pos hlt
    have h' := h.resize hq
    refine ⟨_, contents q, hq, h.drains_iff.mpr rfl, h'.drains_iff.mpr ?_, fun ele => ?_⟩
    · rw [contents, contents]
      simp only
      rw [hsteps]
      refine List.map_congr_left fun k hk => ?_
      rcases hcells k (List.mem_range.mp hk) with hsame | hrep
      · rw [hsame, if_pos (Nat.mod_lt _ h.size)]
      · exact hrep.symm
    · refine ⟨_, h'.takes_iff.mpr rfl, ?_⟩
      simpa [contents] using hturn

/-! ### 値がみな違うとき -/

/-- 積んだ要素がみな違うとき、場所ごとの値もみな違う。 -/
structure Marked (zero : E) (q : Queue E) : Prop where
  wr : q.wrindex = u32 q.claimed.length
  rd : q.rdindex = u32 q.taken.length
  size : 0 < q.size ∧ q.size < 2 ^ 32
  /-- 一周するまでは、index は戻らず、順に並ぶ。 -/
  early : q.claimed.length < q.size → q.taken.length ≤ q.claimed.length
  filled : ∀ j < q.size, j < q.claimed.length → q.elems j ∈ q.claimed
  cells : ∀ j, q.elems j = zero ∨ q.elems j ∈ q.claimed
  inj : q.claimed.Nodup → zero ∉ q.claimed →
    ∀ j j', q.elems j ∈ q.claimed → q.elems j = q.elems j' → j = j'

theorem marked_init (zero : E) {size : Nat} (hsize : 0 < size) (hsize' : size < 2 ^ 32) :
    Marked zero (Queue.queueInit zero size) where
  wr := rfl
  rd := rfl
  size := ⟨hsize, hsize'⟩
  early := fun _ => le_rfl
  filled := fun _ _ h => absurd h (Nat.not_lt_zero _)
  cells := fun _ => .inl rfl
  inj := fun _ _ _ _ h => absurd h List.not_mem_nil

section Marked

variable {zero : E}

theorem Marked.push (h : Marked zero q) (mode : Mode) (ele : E) :
    Marked zero (TaskQueue.pushed mode q ele) where
  wr := by simp [TaskQueue.pushed, h.wr, u32_add]
  rd := h.rd
  size := h.size
  early hlt := by
    simp only [TaskQueue.pushed, List.length_append, List.length_singleton] at hlt ⊢
    exact Nat.le_succ_of_le (h.early (by omega))
  filled j hj hlen := by
    simp only [TaskQueue.pushed, List.length_append, List.length_singleton] at hj hlen ⊢
    by_cases hw : j = q.wrindex % q.size
    · rw [hw, Function.update_self]
      exact List.mem_append_right _ (List.mem_singleton_self ele)
    · rw [Function.update_of_ne hw]
      refine List.mem_append_left _ (h.filled j hj ?_)
      -- 一周目の末尾の場所は、今書いた場所である。
      by_contra hge
      have hsize := h.size.2
      refine hw ?_
      rw [h.wr, u32_of_lt (by omega), Nat.mod_eq_of_lt (by omega)]
      omega
  cells j := by
    simp only [TaskQueue.pushed]
    by_cases hw : j = q.wrindex % q.size
    · rw [hw, Function.update_self]
      exact .inr (List.mem_append_right _ (List.mem_singleton_self ele))
    · rw [Function.update_of_ne hw]
      exact (h.cells j).imp_right (List.mem_append_left _)
  inj hnodup hzero j j' := by
    simp only [TaskQueue.pushed] at hnodup hzero ⊢
    obtain ⟨hold, -, hdisj⟩ := List.nodup_append.mp hnodup
    have hzero' : zero ∉ q.claimed := fun hmem => hzero (List.mem_append_left _ hmem)
    -- 今積んだ要素は、ほかのどの場所にもまだ無い。
    have hfresh : ∀ i, q.elems i ≠ ele := fun i heq => by
      rcases h.cells i with hi | hi
      · exact hzero (List.mem_append_right _ (by simp [← heq, hi]))
      · exact hdisj _ hi _ (List.mem_singleton_self ele) heq
    by_cases hw : j = q.wrindex % q.size
    · subst hw
      rw [Function.update_self]
      intro _ heq
      by_contra hne
      rw [Function.update_of_ne (Ne.symm hne)] at heq
      exact hfresh j' heq.symm
    · rw [Function.update_of_ne hw]
      intro hmem heq
      by_cases hw' : j' = q.wrindex % q.size
      · rw [hw', Function.update_self] at heq
        exact absurd heq (hfresh j)
      · rw [Function.update_of_ne hw'] at heq
        refine h.inj hold hzero' j j' ?_ heq
        rcases h.cells j with hj | hj
        · rcases List.mem_append.mp hmem with hm | hm
          · exact hm
          · exact absurd (List.mem_singleton.mp hm) (hfresh j)
        · exact hj

theorem Marked.pop (h : Marked zero q) (he : stored q.size q.rdindex q.wrindex ≠ 0) :
    Marked zero (TaskQueue.popped q) where
  wr := h.wr
  rd := by simp [TaskQueue.popped, h.rd, u32_add]
  size := h.size
  early hlt := by
    have hle := h.early hlt
    have hsize := h.size.2
    simp only [TaskQueue.popped, List.length_append, List.length_singleton] at hlt ⊢
    refine Nat.lt_of_le_of_ne hle fun heq => he ?_
    rw [stored_eq_zero_iff h.size.1 (h.rd ▸ u32_lt _), h.rd, h.wr, heq]
  filled := h.filled
  cells := h.cells
  inj := h.inj

theorem Ready.marked_call (h : Ready mode q) (hm : Marked zero q) (c : Call E) : ∃ r q',
    Converges (fun fuel => runCall mode fuel q c.entry) (r, q') ∧ Ready mode q' ∧
      Marked zero q' ∧ q'.size = q.size := by
  cases c with
  | enqueue ele =>
    by_cases hf : stored q.size (u32 (q.wrindex + 1)) q.rdindex = 0
    · exact ⟨_, q, h.enqueue_full ele hf, h, hm, rfl⟩
    · exact ⟨_, _, h.enqueue_room ele hf, h.pushed ele, hm.push mode ele, rfl⟩
  | dequeue =>
    by_cases he : stored q.size q.rdindex q.wrindex = 0
    · exact ⟨_, q, h.dequeue_empty he, h, hm, rfl⟩
    · exact ⟨_, _, h.dequeue_some he, h.popped, hm.pop he, rfl⟩

/-- どの呼び出しの列の後でも、場所の値は要素と対応する。 -/
theorem Ready.marked_calls (h : Ready mode q) (hm : Marked zero q) (cs : List (Call E)) :
    ∃ rs q', Converges (fun fuel => TaskQueue.calls mode fuel q cs) (rs, q') ∧ Ready mode q' ∧
      Marked zero q' ∧ q'.size = q.size := by
  induction cs generalizing q with
  | nil => exact ⟨[], q, .pure _, h, hm, rfl⟩
  | cons c cs ih =>
    obtain ⟨r, q₁, hc, h₁, hm₁, hsz₁⟩ := h.marked_call hm c
    obtain ⟨rs, q₂, hcs, h₂, hm₂, hsz₂⟩ := ih h₁ hm₁
    exact ⟨r :: rs, q₂, calls_cons hc hcs, h₂, hm₂, hsz₂.trans hsz₁⟩

/-- 残っている要素の場所には、積んだ要素がある。 -/
theorem Marked.mem_of_lt (h : Marked zero q) {k : Nat}
    (hk : k < stored q.size q.rdindex q.wrindex) :
    q.elems (u32 (q.rdindex + k) % q.size) ∈ q.claimed := by
  obtain ⟨hpos, hsize⟩ := h.size
  have hlt := Nat.mod_lt (u32 (q.rdindex + k)) hpos
  refine h.filled _ hlt ?_
  rcases Nat.lt_or_ge q.claimed.length q.size with hearly | hlate
  · have hle := h.early hearly
    have hold : stored q.size q.rdindex q.wrindex = q.claimed.length - q.taken.length := by
      rw [h.rd, h.wr, u32_of_lt (by omega), u32_of_lt (by omega), stored,
        ahead_of_le hle (by omega), if_pos (by omega)]
    rw [hold] at hk
    rw [h.rd, u32_of_lt (show q.taken.length < 2 ^ 32 by omega),
      u32_of_lt (show q.taken.length + k < 2 ^ 32 by omega), Nat.mod_eq_of_lt (by omega)]
    omega
  · omega

/-- 要素がみな違えば、新しい場所に同じ値があるのは、場所が動かないときだけである。 -/
theorem Marked.unmoved (h : Marked zero q) (hnodup : q.claimed.Nodup) (hzero : zero ∉ q.claimed)
    {k s : Nat} (hk : k < stored q.size q.rdindex q.wrindex)
    (hrep : Repeated zero q s (u32 (q.rdindex + k))) : Unmoved q.size s (u32 (q.rdindex + k)) := by
  have hmem := h.mem_of_lt hk
  unfold Repeated at hrep
  split at hrep
  · exact (h.inj hnodup hzero _ _ hmem hrep.symm).symm
  · rw [← hrep] at hmem
    exact absurd hmem hzero

end Marked

/--
**`queue_resize` が中身を保つのは、輪の上の歩数と残りの要素の場所が、新しい除数でも変わらないときに限る。**

どちらの mode でも、2 以上の大きさで始めたどの呼び出しの列の後でも、呼び出しの途中でなければ同じである。
場所が動いても同じ値に出会えば中身は変わらないが、0 でない要素がみな違えば、そういうことは起こらない。
-/
theorem keepsContents_iff (mode : Mode) (zero : E) {n : Nat} (hn : 2 ≤ n) (hn' : n < 2 ^ 31)
    (s : Nat) {cs : List (Call E)} {rs : List (Ret E)} {q : Queue E}
    (hq : Converges (fun fuel => calls mode fuel (Queue.queueInit zero n) cs) (rs, q)) :
    q.size = n ∧
    (KeepsContents mode zero q s ↔
      SameRing n s q.rdindex q.wrindex (stored n q.rdindex q.wrindex) ∧
      ∀ k < stored n q.rdindex q.wrindex,
        Unmoved n s (u32 (q.rdindex + k)) ∨ Repeated zero q s (u32 (q.rdindex + k))) ∧
    (q.claimed.Nodup → zero ∉ q.claimed →
      (KeepsContents mode zero q s ↔
        SameRing n s q.rdindex q.wrindex (stored n q.rdindex q.wrindex) ∧
        ∀ k < stored n q.rdindex q.wrindex, Unmoved n s (u32 (q.rdindex + k)))) := by
  obtain ⟨rs', q', hq', h, hm, hsz⟩ := (ready_init mode zero hn).marked_calls
    (marked_init zero (by omega) (by omega)) cs
  obtain ⟨-, rfl⟩ := Prod.mk.inj (hq.unique hq')
  obtain rfl : q.size = n := hsz
  refine ⟨rfl, h.keeps_iff zero s, fun hnodup hzero => (h.keeps_iff zero s).trans ?_⟩
  refine and_congr_right fun _ => forall₂_congr fun k hk => ?_
  exact ⟨fun hcell => hcell.elim id (hm.unmoved hnodup hzero hk), .inl⟩

/-- 二つ積んで一つ取り出した大きさ 4 の queue は、4 だけ大きくしても中身を保つ。 -/
theorem keepsContents_four_to_eight :
    ∃ rs q, Converges (fun fuel => calls .multi fuel (Queue.queueInit 0 4)
      [.enqueue 7, .enqueue 8, .dequeue]) (rs, q) ∧ KeepsContents .multi 0 q 4 := by
  have hrun : Converges (fun fuel => calls .multi fuel (Queue.queueInit 0 4)
      [.enqueue 7, .enqueue 8, .dequeue]) _ := ⟨5, fun fuel hfuel => by
    obtain ⟨k, rfl⟩ := Nat.exists_eq_add_of_le' hfuel
    rfl⟩
  refine ⟨_, _, hrun, ((keepsContents_iff .multi 0 (by decide) (by decide) 4 hrun).2.2
    (by decide) (by decide)).mpr ⟨⟨by decide, by decide, by decide, .inl (by decide)⟩, by decide⟩⟩

/--
大きさ 2 の queue に積んで取り出すことを二度繰り返し、もう一つ 9 を積む。`queue_resize(1)` の前の dequeue は
9 を渡すが、後の dequeue は 0 を渡す。
-/
theorem resize_loses_element :
    ∃ rs q q', Converges (fun fuel => calls .single fuel (Queue.queueInit 0 2)
      [.enqueue 7, .dequeue, .enqueue 8, .dequeue, .enqueue 9]) (rs, q) ∧
      q.queueResize 0 1 = some q' ∧ Drains .single q [9] ∧ Drains .single q' [0] ∧
      ¬ KeepsContents .single 0 q 1 := by
  have hrun : Converges (fun fuel => calls .single fuel (Queue.queueInit 0 2)
      [.enqueue 7, .dequeue, .enqueue 8, .dequeue, .enqueue 9]) _ := ⟨5, fun fuel hfuel => by
    obtain ⟨k, rfl⟩ := Nat.exists_eq_add_of_le' hfuel
    rfl⟩
  obtain ⟨rs', q', hrun', h, -⟩ := (ready_init .single 0 (le_refl 2)).marked_calls
    (marked_init 0 (by decide) (by decide)) [.enqueue 7, .dequeue, .enqueue 8, .dequeue, .enqueue 9]
  obtain ⟨-, rfl⟩ := Prod.mk.inj (hrun.unique hrun')
  refine ⟨_, _, _, hrun, rfl, h.drains_iff.mpr (by decide),
    (h.resize (s := 1) rfl).drains_iff.mpr (by decide), ?_⟩
  rw [h.keeps_iff]
  rintro ⟨-, hcells⟩
  rcases hcells 0 (by decide) with hsame | hrep
  · exact absurd hsame (by decide)
  · exact absurd hrep (by decide)

end RecordServer.Datas.TaskQueue
