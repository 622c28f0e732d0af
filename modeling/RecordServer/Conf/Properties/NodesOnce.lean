import RecordServer.Conf.LinkedReads
import RecordServer.Conf.Properties.Acceptance

/-!
# 節の一生

`mod_tree` の節を作ってから `parse` し、`destroy` するまで。ファイルの中身も、それまでにあった節も問わない。

* `accessors_answer` — `mod_tree` から辿れるどの pointer への `get_*` も、無い節や `NULL` の先に触れずに終わる
* `nodes_deleted_once` — `new_node` の作った節は、`destroy` で一度ずつ消え、一つも残らない
-/

namespace RecordServer.Conf.Linked

open Infra NodeHeap

variable {h : Nodes}

/-- `mod_tree` の節。 -/
theorem blank_modTree (h : Nodes) : Blank (newNode h) h.fresh where
  cell := by simp [newNode, fresh]
  le := by simp [newNode, fresh]

/-- `parse` は必ず終わり、`mod_tree` から、作った節だけの木を残す。 -/
theorem parse_nodes (env : Env) (buf : Bytes) (h : Nodes) :
    ∃ code s cn h' ps, Conf.parse env buf = some (code, s, cn) ∧
      parse env buf h.fresh (newNode h) = some (code, s, h') ∧ Ended cn ∧
      Placed (newNode h) h' h.fresh (forest cn) ps := by
  obtain ⟨⟨code, s, cn⟩, hparse⟩ : ∃ r, Conf.parse env buf = some r := by
    rcases returnCode_total env buf with h | h
    · obtain ⟨r, hr, -⟩ := Option.map_eq_some_iff.mp h
      exact ⟨r, hr⟩
    · obtain ⟨r, hr, -⟩ := Option.map_eq_some_iff.mp h
      exact ⟨r, hr⟩
  have hblank := blank_modTree h
  obtain ⟨hplaces, hnode⟩ := parse_places env buf hblank hparse
  obtain ⟨ps, hplaced⟩ := place_spec .zero (forest cn) hnode (newNode h) h.fresh _ hblank.cell
    (Nat.succ_ne_zero _) hblank.le
  exact ⟨code, s, cn, _, ps, hparse, hplaces, parse_ended hparse, hplaced⟩

/--
**`mod_tree` から辿れるどの pointer への `get_*` も、無い節や `NULL` の先に触れずに終わる。**

返すのは、`parse` の返す木から取り出したものである。`parse` がファイルを拒んだときも、そうである。
-/
theorem accessors_answer (env : Env) (buf : Bytes) (h : Nodes) :
    ∃ code s cn h', Conf.parse env buf = some (code, s, cn) ∧
      parse env buf h.fresh (newNode h) = some (code, s, h') ∧ Answers h' h.fresh cn ∧
      ∀ q, h'.Reaches h.fresh q → ∃ u, At h' q u ∧ Answers h' q u := by
  obtain ⟨code, s, cn, h', ps, hconf, hparse, hended, hplaced⟩ := parse_nodes env buf h
  have hat : At h' h.fresh cn := ⟨ps, hplaced.rep⟩
  refine ⟨code, s, cn, h', hconf, hparse, answers hat hended, fun q hq => ?_⟩
  obtain ⟨u, hu, hendedu⟩ := hat.reaches hended hq
  exact ⟨u, hu, answers hu hendedu⟩

/-- `parse` の間に作った節が、`destroy` の前後でどうなるか。 -/
structure DeletedOnce (h h' h'' : Nodes) (ps : List Nat) : Prop where
  nodup : ps.Nodup
  /-- 消すのは、`mod_tree` から後に作った節のすべてである -/
  mem : ∀ x, x ∈ ps ↔ h.count < x ∧ x ≤ h'.count
  freed : h''.freed = h.freed ++ ps
  gone : ∀ x, h.count < x → x ≤ h'.count → h''.cell x = none
  others : ∀ x, x ≤ h.count → h''.cell x = h.cell x

/--
**`new_node` の作った節は、`destroy` で一度ずつ消え、一つも残らない。**

`destroy` は消した節に触れずに終わり、再帰の深さは節の数を越えない。`parse` がファイルを拒んだときも、そうである。
-/
theorem nodes_deleted_once (env : Env) (buf : Bytes) (h : Nodes) :
    ∃ code s h' h'' ps, parse env buf h.fresh (newNode h) = some (code, s, h') ∧
      Yields (ps.length + 1) (fun fuel => deleteNode fuel h' h.fresh) h'' ∧
      DeletedOnce h h' h'' ps := by
  obtain ⟨code, s, cn, h', ps, -, hparse, -, hplaced⟩ := parse_nodes env buf h
  have hdestroy := destroy_yields hplaced.rep hplaced.nodup
  rw [← hplaced.rep.length] at hdestroy
  have hcount : h.count + 1 ≤ h'.count := hplaced.count
  have hmem : ∀ x, x ∈ ps ↔ h.count < x ∧ x ≤ h'.count := fun x => by
    have hx : x ∈ ps ↔ x = h.count + 1 ∨ (h.count + 1 < x ∧ x ≤ h'.count) := hplaced.mem x
    rw [hx]
    omega
  refine ⟨code, s, h', _, ps, hparse, hdestroy, hplaced.nodup, hmem, ?_, fun x hlt hle => ?_,
    fun x hx => ?_⟩
  · rw [without_freed, hplaced.freed]
    rfl
  · rw [without_cell, if_pos ((hmem x).mpr ⟨hlt, hle⟩)]
  · have hnew : x ∉ ps := fun hin => by
      have hin' := (hmem x).mp hin
      omega
    have hne : x ≠ h.count + 1 := by omega
    rw [without_cell, if_neg hnew, hplaced.others x hne (by simp [newNode]; omega)]
    simp [newNode, hne]

end RecordServer.Conf.Linked
