import RecordServer.Infra.Bytes
import Mathlib.Data.List.Nodup

/-!
# 録画の記録（`common.h`・`mongo_adaptor.cpp`）

collection `process_info` は document の列である。MongoDB の操作はどれも成功するとし、
一つの操作を一つの関数にする。

* `insert` — document を末尾に足す
* `update` — `MONGOC_UPDATE_NONE`。query に合う最初の document だけを書き換える
* `find` / `findOne` — query に合うもの全部と、その最初の一つ
* `remove` — `MONGOC_REMOVE_SINGLE_REMOVE`。query に合う最初の一つだけを消す

文字列はどれも `c_str()` で渡り、最初の NUL までしか読まれないので、`CString` で表す。
-/

namespace RecordServer.App

open Infra

/-- `_process_info`。document の field もこれと同じである（`stream_id` が `sid`）。 -/
structure ProcessInfo where
  sid : CString
  pid : Nat
  ppid : Nat
  srcUrl : CString
  m3u8Path : CString
  type : CString
  status : CString
  host : CString
deriving DecidableEq, Repr

/-- `error_code`。 -/
inductive ErrorCode where
  | ok
  | streamExist
  | porcessInfoNone
  | getCollectionFailed
  | forkFailed
  | streamNotExist
  | mongodb
  | jsonParser
  | internal
  | portUnspecified
  | rootPathUnspecified
  | createM3u8File
  | jsonParserException
deriving DecidableEq, Repr

/-- collection `process_info`。 -/
abbrev Store := List ProcessInfo

namespace MongoAdaptor

def insert (c : Store) (d : ProcessInfo) : Store := c ++ [d]

def update (query : ProcessInfo → Bool) (set : ProcessInfo → ProcessInfo) : Store → Store
  | [] => []
  | d :: c => if query d then set d :: c else d :: update query set c

def find (query : ProcessInfo → Bool) (c : Store) : List ProcessInfo := c.filter query

def findOne (query : ProcessInfo → Bool) (c : Store) : Option ProcessInfo := c.find? query

def remove (query : ProcessInfo → Bool) (c : Store) : Store := c.eraseP query

end MongoAdaptor

/-- query `{stream_id: sid}`。 -/
def byStream (sid : CString) (d : ProcessInfo) : Bool := d.sid == sid

/-- query `{pid: pid}`。 -/
def byPid (pid : Nat) (d : ProcessInfo) : Bool := d.pid == pid

@[simp] theorem byStream_iff {sid : CString} {d : ProcessInfo} :
    byStream sid d = true ↔ d.sid = sid := beq_iff_eq

@[simp] theorem byPid_iff {pid : Nat} {d : ProcessInfo} :
    byPid pid d = true ↔ d.pid = pid := by simp [byPid]

/-! ## 記録のある stream -/

/-- 記録のある stream の列。 -/
def Store.sids (c : Store) : List CString := c.map ProcessInfo.sid

theorem Store.mem_sids {c : Store} {sid : CString} : sid ∈ c.sids ↔ ∃ d ∈ c, d.sid = sid := by
  simp [sids]

theorem findOne_some {q : ProcessInfo → Bool} {c : Store} {d : ProcessInfo}
    (h : MongoAdaptor.findOne q c = some d) : d ∈ c ∧ q d = true :=
  ⟨List.mem_of_find?_eq_some h, List.find?_some h⟩

theorem findOne_none {q : ProcessInfo → Bool} {c : Store}
    (h : MongoAdaptor.findOne q c = none) : ∀ d ∈ c, ¬ q d = true :=
  List.find?_eq_none.mp h

theorem findOne_byStream_none {c : Store} {sid : CString} :
    MongoAdaptor.findOne (byStream sid) c = none ↔ sid ∉ c.sids := by
  simp [MongoAdaptor.findOne, Store.sids]

@[simp] theorem sids_insert (c : Store) (d : ProcessInfo) :
    (MongoAdaptor.insert c d).sids = c.sids ++ [d.sid] := by
  simp [MongoAdaptor.insert, Store.sids]

/-- stream を変えない書き換えは、記録のある stream の列を変えない。 -/
theorem sids_update {q : ProcessInfo → Bool} {f : ProcessInfo → ProcessInfo}
    (hf : ∀ d, (f d).sid = d.sid) (c : Store) : (MongoAdaptor.update q f c).sids = c.sids := by
  induction c with
  | nil => rfl
  | cons d c ih =>
    simp only [MongoAdaptor.update]
    split
    · simp [Store.sids, hf]
    · simpa [Store.sids] using ih

theorem sids_remove (c : Store) (sid : CString) :
    (MongoAdaptor.remove (byStream sid) c).sids = c.sids.erase sid := by
  induction c with
  | nil => rfl
  | cons d c ih =>
    simp only [MongoAdaptor.remove, Store.sids, List.map_cons] at ih ⊢
    by_cases h : d.sid = sid
    · rw [List.eraseP_cons_of_pos (by simpa using h), h, List.erase_cons_head]
    · rw [List.eraseP_cons_of_neg (by simpa using h), List.map_cons, ih,
        List.erase_cons_tail (by rwa [beq_iff_eq])]

/-- 消した後に残る document は元からあった。 -/
theorem mem_of_mem_remove {q : ProcessInfo → Bool} {c : Store} {d : ProcessInfo}
    (h : d ∈ MongoAdaptor.remove q c) : d ∈ c := List.mem_of_mem_eraseP h

/-- 別の stream の document は消えない。 -/
theorem mem_remove_of_ne {c : Store} {d : ProcessInfo} {sid : CString} (h : d ∈ c)
    (hne : d.sid ≠ sid) : d ∈ MongoAdaptor.remove (byStream sid) c :=
  (List.mem_eraseP_of_neg (by simpa using hne)).mpr h

/-! ## stream ごとに記録は一つ -/

/-- 同じ stream の document は同じものである。 -/
theorem eq_of_sid_eq {c : Store} (hnd : c.sids.Nodup) {d e : ProcessInfo} (hd : d ∈ c)
    (he : e ∈ c) (h : d.sid = e.sid) : d = e :=
  List.inj_on_of_nodup_map hnd hd he h

/-- 記録が一つずつなら、書き換え後の document は元の document か、書き換えた一つである。 -/
theorem mem_update_byStream {c : Store} {sid : CString} {f : ProcessInfo → ProcessInfo}
    (hnd : c.sids.Nodup) {e : ProcessInfo} :
    e ∈ MongoAdaptor.update (byStream sid) f c ↔
      (e ∈ c ∧ e.sid ≠ sid) ∨ ∃ d ∈ c, d.sid = sid ∧ e = f d := by
  induction c with
  | nil => simp [MongoAdaptor.update]
  | cons d c ih =>
    have hnd' : d.sid ∉ Store.sids c ∧ (Store.sids c).Nodup := List.nodup_cons.mp hnd
    simp only [MongoAdaptor.update, byStream_iff]
    split
    · next hd =>
      have hne : ∀ x ∈ c, x.sid ≠ sid := fun x hx hxs =>
        hnd'.1 (Store.mem_sids.mpr ⟨x, hx, by rw [hxs, hd]⟩)
      simp only [List.mem_cons]
      constructor
      · rintro (rfl | h)
        · exact Or.inr ⟨d, Or.inl rfl, hd, rfl⟩
        · exact Or.inl ⟨Or.inr h, hne e h⟩
      · rintro (⟨rfl | h, hs⟩ | ⟨x, rfl | hx, hs, rfl⟩)
        · exact absurd hd hs
        · exact Or.inr h
        · exact Or.inl rfl
        · exact absurd hs (hne x hx)
    · next hd =>
      simp only [List.mem_cons, ih hnd'.2]
      constructor
      · rintro (rfl | ⟨h, hs⟩ | ⟨x, hx, hs, rfl⟩)
        · exact Or.inl ⟨Or.inl rfl, hd⟩
        · exact Or.inl ⟨Or.inr h, hs⟩
        · exact Or.inr ⟨x, Or.inr hx, hs, rfl⟩
      · rintro (⟨rfl | h, hs⟩ | ⟨x, rfl | hx, hs, rfl⟩)
        · exact Or.inl rfl
        · exact Or.inr (Or.inl ⟨h, hs⟩)
        · exact absurd hs hd
        · exact Or.inr (Or.inr ⟨x, hx, hs, rfl⟩)

theorem sid_notMem_remove {c : Store} {sid : CString} (hnd : c.sids.Nodup) :
    sid ∉ (MongoAdaptor.remove (byStream sid) c).sids := by
  rw [sids_remove]
  exact hnd.not_mem_erase

end RecordServer.App
