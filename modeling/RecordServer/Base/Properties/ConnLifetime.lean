import RecordServer.Base.BaseConnPool
import RecordServer.Infra.RefCount
import RecordServer.MemPool.Properties.SlabPartition

/-!
# 接続の一生

接続を作り、参照を増やし、手放し、片付ける操作が、どの thread からどの順に呼ばれても、接続は最後の参照が
無くなった後にちょうど一度だけ `slab_free` され、参照のある間は別の接続に使われない。

* `Sharing` — pool と、持たれている参照、片付けを待つ接続。作った接続と片付けた接続も数える
* `Able` — 参照を増やすのも手放すのも、それを持つ者に限る
* `Sharing.Ok` — `m_refc` は参照の数であり、`slab_alloc` の渡した block は、片付いていない接続である
* `Sharing.step_steady` — run の着く状態は、燃料を決めて計算できる
* `freed_once_after_last` — どの run の後でも成り立ち、次の操作は終わる
-/

namespace RecordServer.Base

open Infra MemPool

/-- `made` と `freed` は、作った接続と `conn_free` した接続を、回数も含めて並べたもの。 -/
structure Sharing where
  pool : ConnPool
  refs : List Nat
  dying : List Nat
  made : List Nat
  freed : List Nat

inductive ConnAct where
  /-- `new_zone` を呼べば `zone` が返る。 -/
  | create (zone : Option Nat)
  | addRef (p : Nat)
  | release (p : Nat)
  /-- `release` が `0` を見た後の後始末。 -/
  | dispose (p : Nat)

namespace Sharing

def start (s : Slab) (conn : Nat → ConnRef) : Sharing := ⟨⟨s, conn⟩, [], [], [], []⟩

def step (fuel : Nat) (z : Sharing) : ConnAct → Option Sharing
  | .create zone =>
    (z.pool.connectCreate fuel zone).map fun out =>
      { z with pool := out.2, refs := out.1.toList ++ z.refs, made := out.1.toList ++ z.made }
  | .addRef p => some { z with pool := z.pool.addRef p, refs := p :: z.refs }
  | .release p =>
    let out := z.pool.release p
    some { z with
      pool := out.2
      refs := z.refs.erase p
      dying := if out.1 then p :: z.dying else z.dying }
  | .dispose p =>
    (z.pool.dispose p).map fun pool =>
      { z with pool := pool, dying := z.dying.erase p, freed := p :: z.freed }

/-- `slab_alloc` から見た状態。渡した block は、片付いていない接続である。 -/
def machine (z : Sharing) : Machine := ⟨z.pool.slab, occupied z.refs z.dying⟩

/--
許された一手。`m_refc` が溢れるほどの参照は作られず、上限の無い pool では、渡した block の数が `s32` に
収まる。
-/
def Able (z : Sharing) : ConnAct → Prop
  | .create zone => Allowed z.machine (.alloc zone) ∧ Counts z.machine (.alloc zone)
  | .addRef p => p ∈ z.refs ∧ z.refs.count p < 2 ^ 32 - 1
  | .release p => p ∈ z.refs
  | .dispose p => p ∈ z.dying

structure Ok (maxNum : Int) (z : Sharing) : Prop where
  maxNum : z.pool.slab.maxNum = maxNum
  partition : ∃ ps free used, Partition z.machine ps free used
  counted : Counted 32 (fun p => (z.pool.conn p).refc) z.refs z.dying
  pdelete : ∀ p ∈ occupied z.refs z.dying, (z.pool.conn p).pdelete = true
  history : z.made.Perm (z.freed ++ occupied z.refs z.dying)

variable {max : Int} {z z' : Sharing} {p : Nat} {zone : Option Nat} {act : ConnAct} {acts : List ConnAct}

theorem perm_partition {m : Machine} {ps out : List Nat} {free used : Nat → List Nat}
    (h : Partition m ps free used) (hout : out.Perm m.out) :
    Partition ⟨m.slab, out⟩ ps free used := ⟨h.ok, hout.trans h.out⟩

/-! ## 一手ごと -/

/-- 後の `slab_alloc` が、次の状態の分割を決める。 -/
theorem Ok.alloc (h : z.Ok max) (hable : z.Able (.create zone)) :
    ∃ ps free used r s, Partition z.machine ps free used ∧
      Converges (fun fuel => z.pool.slab.slabAlloc fuel zone) (r, s) ∧ s.maxNum = max ∧
      Allocated z.pool.slab ps free used zone r s ∧
      (∀ data, r = some data → data ∉ occupied z.refs z.dying) ∧
      ∃ ps' free' used', Partition ⟨s, r.toList ++ occupied z.refs z.dying⟩ ps' free' used' := by
  obtain ⟨ps, free, used, hpart⟩ := h.partition
  obtain ⟨r, s, hrun, hres, hnew⟩ := hpart.alloc hable.1 hable.2
  obtain ⟨m, ps', free', used', hstep, hpart', hfields⟩ := hpart.step hable.1 hable.2
  have hstep' : Converges (fun fuel => MemPool.step fuel z.machine (.alloc zone))
      ⟨s, r.toList ++ occupied z.refs z.dying⟩ :=
    Converges.map (fun out : Option Nat × Slab =>
      (⟨out.2, out.1.toList ++ occupied z.refs z.dying⟩ : Machine)) hrun
  obtain rfl := hstep.unique hstep'
  exact ⟨ps, free, used, r, s, hpart, hrun, hfields.2.1.trans h.maxNum, hres, hnew, ps', free',
    used', hpart'⟩

/-- 作られた接続は、どの片付いていない接続とも別の番地にある。 -/
theorem Ok.create (h : z.Ok max) (hable : z.Able (.create zone)) :
    ∃ z', Converges (fun fuel => z.step fuel (.create zone)) z' ∧ z'.Ok max := by
  obtain ⟨-, -, -, r, s, -, hrun, hmax, -, hnew, ps', free', used', hpart'⟩ := h.alloc hable
  cases r with
  | none =>
    have hcreate : Converges (fun fuel => z.pool.connectCreate fuel zone)
        (none, { z.pool with slab := s }) := hrun.map _
    exact ⟨_, hcreate.map _, hmax, ⟨ps', free', used', hpart'⟩, h.counted, h.pdelete, h.history⟩
  | some r =>
    let pool := { z.pool with slab := s }.modify r fun _ => ConnRef.construct.setFunc
    have hcreate : Converges (fun fuel => z.pool.connectCreate fuel zone) (some r, pool) :=
      hrun.map _
    have hstep : Converges (fun fuel => z.step fuel (.create zone))
        { z with pool := pool, refs := r :: z.refs, made := r :: z.made } := hcreate.map _
    have hr := hnew r rfl
    have hocc : occupied (r :: z.refs) z.dying = r :: occupied z.refs z.dying := occupied_create hr
    refine ⟨_, hstep, hmax, ⟨ps', free', used', ?_⟩, ?_, fun q hq => ?_, ?_⟩
    · exact perm_partition hpart' (.of_eq hocc)
    · have hrefc : (fun q => (pool.conn q).refc) = _ := ConnPool.modify_refc _ _ _
      simp only [hrefc]
      exact h.counted.create (by decide) hr
    · rw [ConnPool.modify_conn]
      split
      · rfl
      · rename_i hne
        simp only [hocc, List.mem_cons, hne, false_or] at hq
        exact h.pdelete q hq
    · simp only [hocc]
      exact (h.history.cons r).trans List.perm_middle.symm

/-- 参照を増やしても、片付いていない接続は変わらない。 -/
theorem Ok.addRef (h : z.Ok max) (hable : z.Able (.addRef p)) :
    Ok max { z with pool := z.pool.addRef p, refs := p :: z.refs } := by
  obtain ⟨hp, hlt⟩ := hable
  have hocc : occupied (p :: z.refs) z.dying = occupied z.refs z.dying := occupied_retain hp
  obtain ⟨ps, free, used, hpart⟩ := h.partition
  refine ⟨h.maxNum, ⟨ps, free, used, perm_partition hpart (.of_eq hocc)⟩, ?_, fun q hq => ?_, ?_⟩
  · have hrefc : (fun q => ((z.pool.addRef p).conn q).refc) = _ := ConnPool.modify_refc _ _ _
    simp only [hrefc]
    exact h.counted.retain hp hlt
  · have hkeep := h.pdelete q (hocc ▸ hq)
    rw [ConnPool.addRef, ConnPool.modify_conn]
    split
    · rename_i heq
      exact heq ▸ hkeep
    · exact hkeep
  · simp only [hocc]
    exact h.history

/-- 参照を手放しても、片付くまでは block を返さない。 -/
theorem Ok.release (h : z.Ok max) (hp : p ∈ z.refs) :
    Ok max { z with
      pool := (z.pool.release p).2
      refs := z.refs.erase p
      dying := if (z.pool.release p).1 then p :: z.dying else z.dying } := by
  obtain ⟨ps, free, used, hpart⟩ := h.partition
  have hpos := h.counted.pos hp
  have hfits := h.counted.fits p
  rw [← h.counted.exact p hp] at hfits
  have hret : subU32 (z.pool.conn p).refc 1 = (z.pool.conn p).refc - 1 :=
    subU32_of_le (by omega) (by omega)
  have hrefc : (fun q => ((z.pool.release p).2.conn q).refc) =
      Function.update (fun q => (z.pool.conn q).refc) p ((z.pool.conn p).refc - 1) := by
    rw [← hret]
    exact ConnPool.modify_refc z.pool p fun r => { r with refc := subU32 (z.pool.conn p).refc 1 }
  have hdelete : ∀ q ∈ occupied z.refs z.dying,
      ((z.pool.release p).2.conn q).pdelete = true := by
    intro q hq
    have hkeep := h.pdelete q hq
    simp only [ConnPool.release, ConnPool.modify_conn]
    split
    · rename_i heq
      exact heq ▸ hkeep
    · exact hkeep
  -- 最後の参照かどうかで、片付けを待つ接続が増えるかが分かれる。
  by_cases hmore : p ∈ z.refs.erase p
  · obtain ⟨hcounted, hocc⟩ := h.counted.drop hp hmore
    have hkeep : (z.pool.release p).1 = false := by
      simp only [ConnPool.release, hret]
      exact decide_eq_false fun hzero => (h.counted.sub_eq_zero hp).mp hzero hmore
    simp only [hkeep, Bool.false_eq_true, if_false]
    refine ⟨h.maxNum, ⟨ps, free, used, perm_partition hpart hocc⟩, ?_, fun q hq => ?_, ?_⟩
    · simp only [hrefc]
      exact hcounted
    · exact hdelete q (hocc.mem_iff.mp hq)
    · exact h.history.trans (hocc.symm.append_left _)
  · obtain ⟨hcounted, hocc⟩ := h.counted.last hp hmore
    have hzero : (z.pool.release p).1 = true := by
      simp only [ConnPool.release, hret]
      exact decide_eq_true ((h.counted.sub_eq_zero hp).mpr hmore)
    simp only [hzero, if_true]
    refine ⟨h.maxNum, ⟨ps, free, used, perm_partition hpart hocc⟩, ?_, fun q hq => ?_, ?_⟩
    · simp only [hrefc]
      exact hcounted
    · exact hdelete q (hocc.mem_iff.mp hq)
    · exact h.history.trans (hocc.symm.append_left _)

/-- 後始末は `conn_free` を呼び、block を返す。 -/
theorem Ok.dispose (h : z.Ok max) (hp : p ∈ z.dying) :
    ∃ z', Converges (fun fuel => z.step fuel (.dispose p)) z' ∧ z'.Ok max := by
  obtain ⟨ps, free, used, hpart⟩ := h.partition
  have hin : p ∈ occupied z.refs z.dying := mem_occupied.mpr (.inr hp)
  obtain ⟨m, ps', free', used', hstep, hpart', hfields⟩ :=
    hpart.step (a := .free p) hin trivial
  obtain ⟨n, hn⟩ := hstep
  obtain ⟨s, hfree, rfl⟩ := Option.map_eq_some_iff.mp (hn n le_rfl)
  have hdispose : z.pool.dispose p = some { z.pool with slab := s } := by
    have hslab : z.pool.slab.slabFree p = some s := hfree
    rw [ConnPool.dispose, if_pos (h.pdelete p hin), ConnPool.connFree, hslab]
    rfl
  have hocc : occupied z.refs (z.dying.erase p) = (occupied z.refs z.dying).erase p :=
    h.counted.occupied_bury hp
  refine ⟨{ z with pool := { z.pool with slab := s }, dying := z.dying.erase p, freed := p :: z.freed },
    (Converges.pure _).congr fun fuel => ?_, hfields.2.1.trans h.maxNum, ⟨ps', free', used', ?_⟩,
    h.counted.bury,
    fun q hq => ?_, ?_⟩
  · rw [Sharing.step, hdispose]
    rfl
  · exact perm_partition hpart' (.of_eq hocc)
  · simp only [hocc] at hq
    exact h.pdelete q (List.mem_of_mem_erase hq)
  · simp only [hocc]
    exact h.history.trans ((List.perm_cons_erase hin).append_left _ |>.trans List.perm_middle)

/-- **許された一手は必ず終わり、整いを保つ。** -/
theorem Ok.step (h : z.Ok max) (hable : z.Able act) :
    ∃ z', Converges (fun fuel => z.step fuel act) z' ∧ z'.Ok max := by
  cases act with
  | create zone => exact h.create hable
  | addRef p => exact ⟨_, Converges.pure _, h.addRef hable⟩
  | release p => exact ⟨_, Converges.pure _, h.release hable⟩
  | dispose p => exact h.dispose hable

theorem Ok.runs (h : z.Ok max) (hrun : FuelRuns Able Sharing.step z acts z') : z'.Ok max :=
  FuelRuns.invariant (fun _ _ ht hable => ht.step hable) hrun h

end Sharing

/-! ## どの run の後でも -/

section Limits

variable {pool : Nat → Mempool} {block : Nat → Memblock} {sizeofT : Nat} {limit : Int}
  (hlimit : limit < 2 ^ 31)
include hlimit

theorem limits_range (n : Nat) (hn : (ConnPool.limits sizeofT limit).2.2 = some n) :
    1 ≤ n ∧ n < 2 ^ 31 := by
  unfold ConnPool.limits at hn
  split at hn
  · have heq := Option.some.inj hn
    omega
  · cases hn

/-- 上限を渡さない pool の `m_max_num` は `-1` である。 -/
theorem initial_maxNum : (ConnPool.initial pool block sizeofT limit).maxNum =
    if 0 < limit then limit else -1 := by
  unfold ConnPool.initial ConnPool.limits
  split
  · simp only [Slab.initial]
    rw [Int.bmod_eq_of_le (by omega) (by omega)]
    omega
  · rfl

/-- 初めの領域が取れれば、何も作っていない pool は整っている。 -/
theorem start_ok {a : Nat} (hsize : sizeofMemblock ≤ (ConnPool.initial pool block sizeofT limit).mbsize)
    (hfits : Fits (ConnPool.initial pool block sizeofT limit) a) (conn : Nat → ConnRef) :
    ∃ s, Converges (fun fuel =>
        (ConnPool.initial pool block sizeofT limit).construct fuel (some a)) s ∧
      (Sharing.start s conn).Ok (if 0 < limit then limit else -1) := by
  obtain ⟨s, ps, free, hs, hok, hmax, -⟩ := construct_spec (a := a) rfl
    (initial_limit (limits_range hlimit)) (lt_of_lt_of_le (by decide) hsize)
    (alignU32_lt _ 4096) hfits
  have hpart : Partition (Sharing.start s conn).machine ps free (fun _ => []) :=
    ⟨hok, by simp [Sharing.machine, Sharing.start, occupied]⟩
  refine ⟨s, hs, hmax.trans (initial_maxNum hlimit), ⟨ps, free, _, hpart⟩, .nil, ?_, ?_⟩
  · simp [Sharing.start, occupied]
  · simp [Sharing.start, occupied]

end Limits

/-- 一つの状態で、接続について言えること。 -/
structure SharedOk (z : Sharing) (limit : Int) : Prop where
  /-- 作った接続のうち、片付いていないものが、持たれているか、片付けを待っている。 -/
  history : z.made.Perm (z.freed ++ occupied z.refs z.dying)
  nodup : (occupied z.refs z.dying).Nodup
  /-- 参照のある接続は片付けを待っておらず、`m_refc` はその数である。 -/
  held : ∀ p ∈ z.refs, p ∉ z.dying ∧ (z.pool.conn p).refc = z.refs.count p
  limited : 0 < limit → (occupied z.refs z.dying).length ≤ limit
  /-- 許された操作は、`NULL` も `delete this` も踏まずに終わる。 -/
  progress : ∀ act, z.Able act → ∃ z', Converges (fun fuel => z.step fuel act) z'
  /-- 接続を作れないのは、上限に達したか、領域が取れないときに限る。 -/
  refused : ∀ zone, z.Able (.create zone) → ∀ s,
    Converges (fun fuel => z.pool.connectCreate fuel zone) (none, s) →
      (0 < limit ∧ (occupied z.refs z.dying).length = limit) ∨ zone = none

/--
**接続は、最後の参照が手放された後にちょうど一度だけ片付けられ、参照のある間は使い回されない。**

どの thread がどの順に操作しても成り立つ。上限のある pool では、片付いていない接続は上限を越えない。
-/
theorem freed_once_after_last (pool : Nat → Mempool) (block : Nat → Memblock) (sizeofT : Nat)
    (limit : Int) (hlimit : limit < 2 ^ 31) (a : Nat)
    (hsize : sizeofMemblock ≤ (ConnPool.initial pool block sizeofT limit).mbsize)
    (hfits : Fits (ConnPool.initial pool block sizeofT limit) a) (s : Slab)
    (hs : Converges (fun fuel => (ConnPool.initial pool block sizeofT limit).construct fuel (some a)) s)
    (conn : Nat → ConnRef) (acts : List ConnAct) (z : Sharing)
    (hrun : FuelRuns Sharing.Able Sharing.step (.start s conn) acts z) : SharedOk z limit := by
  obtain ⟨s₁, hs₁, h₀⟩ := start_ok hlimit hsize hfits conn
  obtain rfl := hs.unique hs₁
  have h := h₀.runs hrun
  obtain ⟨ps, free, used, hpart⟩ := h.partition
  have hlen : (z.pool.slab.allocedNum : Int) = (occupied z.refs z.dying).length := by
    have heq := hpart.out.length_eq
    rw [List.length_map] at heq
    exact hpart.ok.count.trans (by rw [← heq]; rfl)
  refine ⟨h.history, h.counted.occupied_nodup, fun p hp => ⟨fun hin => h.counted.apart p hin hp,
    h.counted.exact p hp⟩, fun hpos => ?_, fun act hable => ?_, fun zone hable s hnone => ?_⟩
  · have hmax' := h.maxNum
    have hle := hpart.ok.limit
    rw [if_pos hpos] at hmax'
    have hm : z.machine.slab = z.pool.slab := rfl
    rw [hm] at hle
    omega
  · obtain ⟨z', hstep, -⟩ := h.step hable
    exact ⟨z', hstep⟩
  · obtain ⟨ps, free, used, r, s', -, hrun', -, hres, -⟩ := h.alloc hable
    have hcreate : Converges (fun fuel => z.pool.connectCreate fuel zone) _ := hrun'.map _
    have heq := hcreate.unique hnone
    cases r with
    | some r => cases congrArg Prod.fst heq
    | none =>
      obtain ⟨-, ⟨hmax', hfull⟩ | ⟨hzone, -⟩⟩ := hres
      · have hm := h.maxNum
        split at hm
        · exact .inl ⟨‹_›, by omega⟩
        · exact absurd hm hmax'
      · exact .inr hzone

/-! ## 使い回す run -/

namespace Sharing

/-- 領域を取らずに `Able` な一手。 -/
def Ready (z : Sharing) : ConnAct → Prop
  | .create zone =>
    zone = none ∧ (z.pool.slab.maxNum = -1 → z.pool.slab.allocedNum < 2 ^ 31 - 1)
  | .addRef p => p ∈ z.refs ∧ z.refs.count p < 2 ^ 32 - 1
  | .release p => p ∈ z.refs
  | .dispose p => p ∈ z.dying

instance (z : Sharing) : (act : ConnAct) → Decidable (z.Ready act)
  | .create _ => inferInstanceAs (Decidable (_ ∧ _))
  | .addRef _ => inferInstanceAs (Decidable (_ ∧ _))
  | .release _ => inferInstanceAs (Decidable (_ ∈ _))
  | .dispose _ => inferInstanceAs (Decidable (_ ∈ _))

theorem Ready.able {z : Sharing} {act : ConnAct} (h : z.Ready act) : z.Able act := by
  cases act with
  | create zone =>
    obtain ⟨rfl, hcounts⟩ := h
    exact ⟨by simp [Allowed], hcounts⟩
  | addRef p => exact h
  | release p => exact h
  | dispose p => exact h

theorem step_steady (z : Sharing) (act : ConnAct) : Steady fun fuel => z.step fuel act := by
  cases act with
  | create zone => exact ((slabAlloc_steady _ _).map _).map _
  | addRef p => exact .const _
  | release p => exact .const _
  | dispose p => exact .const ((z.pool.dispose p).map _)

end Sharing

/-- 1000 byte の接続を一つだけ置く pool。 -/
def onePlace : Slab :=
  ConnPool.initial (fun _ => ⟨none, none, none, 0, 0⟩) (fun _ => ⟨none, none, none⟩) 1000 1

/-- 参照を二つ手放してから片付け、同じ番地に次の接続を作る。間に作ろうとしても作れない。 -/
theorem sharing_after_reuse :
    ∃ s z, Converges (fun fuel => onePlace.construct fuel (some 4096)) s ∧
      FuelRuns Sharing.Able Sharing.step (.start s fun _ => ⟨0, false⟩)
        [.create none, .addRef 4152, .create none, .release 4152, .release 4152, .create none,
          .dispose 4152, .create none] z ∧
      z.made = [4152, 4152] ∧ z.freed = [4152] ∧ z.refs = [4152] ∧ SharedOk z 1 := by
  have hfits : Fits onePlace 4096 := by
    unfold Fits
    decide
  have hexec : ((onePlace.construct 9 (some 4096)).bind fun s =>
      (execRun Sharing.Ready Sharing.step 9 (.start s fun _ => ⟨0, false⟩)
        [.create none, .addRef 4152, .create none, .release 4152, .release 4152, .create none,
          .dispose 4152, .create none]).map fun z => (z.made, z.freed, z.refs)) =
      some ([4152, 4152], [4152], [4152]) := by
    decide +kernel
  obtain ⟨s, hs, hrest⟩ := Option.bind_eq_some_iff.mp hexec
  obtain ⟨z, hz, hout⟩ := Option.map_eq_some_iff.mp hrest
  simp only [Prod.mk.injEq] at hout
  have hconv := (construct_steady onePlace (some 4096)).converges hs
  have hrun : FuelRuns Sharing.Able Sharing.step (.start s fun _ => ⟨0, false⟩) _ z :=
    (FuelRuns.of_execRun Sharing.step_steady hz).mono fun _ _ h => h.able
  exact ⟨s, z, hconv, hrun, hout.1, hout.2.1, hout.2.2,
    freed_once_after_last _ _ 1000 1 (by decide) 4096 (by decide) hfits s hconv _ _ z hrun⟩

end RecordServer.Base
