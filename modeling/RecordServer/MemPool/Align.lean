import RecordServer.Infra.Word

/-!
# 番地と長さの切り上げ

`pure_slab.cpp` と `pure_buddy_mem.cpp` が同じ形で持つ macro。`a` は 2 の冪で渡される。
-/

namespace RecordServer.MemPool

/-- `pure_align_ptr`。 -/
def alignPtr (p a : Nat) : Nat := (p + (a - 1)) / a * a

/-- `pure_align_u32`。 -/
def alignU32 (p a : Nat) : Nat := (p + (a - 1)) % 2 ^ 32 / a * a

theorem alignPtr_bounds (a : Nat) : a ≤ alignPtr a 64 ∧ alignPtr a 64 < a + 64 := by
  unfold alignPtr
  omega

theorem alignU32_lt (p a : Nat) : alignU32 p a < 2 ^ 32 :=
  lt_of_le_of_lt (Nat.div_mul_le_self _ a) (Nat.mod_lt _ (by decide))

end RecordServer.MemPool
