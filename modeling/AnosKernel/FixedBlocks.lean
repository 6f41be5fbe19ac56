import Mathlib.Data.BitVec

/-!
# Answers of the fixed block allocator

`kernel/fba/alloc.c` hands out runs of 4 KiB blocks from a region of 1 GiB. The tables built on
it only see whether a request is answered. That depends on the blocks and physical pages in use,
so it is an argument here; no request for zero blocks or for more than the region has is
answered.
-/

namespace FixedBlocks

def kernelFbaSizeBlocks : Nat := 0x40000000 / 4096

def fbaAllocBlocks (granted : Bool) (count : BitVec 32) : Bool :=
  granted && decide (count ≠ 0) && decide (count.toNat ≤ kernelFbaSizeBlocks)

theorem fbaAllocBlocks_count {granted : Bool} {count : BitVec 32}
    (h : fbaAllocBlocks granted count = true) :
    0 < count.toNat ∧ count.toNat ≤ 262144 := by
  simp only [fbaAllocBlocks, kernelFbaSizeBlocks, Bool.and_eq_true, decide_eq_true_eq] at h
  obtain ⟨⟨-, hne⟩, hle⟩ := h
  have hle' : count.toNat ≤ 1073741824 / 4096 := of_decide_eq_true hle
  exact ⟨Nat.pos_of_ne_zero fun h0 => hne (BitVec.eq_of_toNat_eq h0), by omega⟩

end FixedBlocks
