import Mathlib.Data.List.Basic
import Mathlib.Data.Nat.ModEq
import Mathlib.Logic.Function.Basic

/-!
# Ring buffers

A ring is an array of `size` slots, the slot of its oldest entry and the number of entries. The
entries are the slots from the oldest on, wrapping around at the end. A push writes the slot
behind the newest entry, a pop moves on from the oldest one.
-/

namespace Rings

universe u
variable {α : Type u} {slots : Nat → α} {size oldest count : Nat}

/-- The slot of the entry with the given age. -/
def slot (size oldest k : Nat) : Nat := (oldest + k) % size

/-- The entries, oldest first. -/
def entries (slots : Nat → α) (size oldest count : Nat) : List α :=
  (List.range count).map fun k => slots (slot size oldest k)

/-- Ages below the size have slots of their own. -/
theorem slot_injective {j k : Nat} (hj : j < size) (hk : k < size)
    (h : slot size oldest j = slot size oldest k) : j = k := by
  have hmod : j % size = k % size := Nat.ModEq.add_left_cancel' oldest h
  rwa [Nat.mod_eq_of_lt hj, Nat.mod_eq_of_lt hk] at hmod

/-- Writing the slot behind the newest entry appends an entry. -/
theorem entries_push (room : count < size) (x : α) :
    entries (Function.update slots (slot size oldest count) x) size oldest (count + 1) =
      entries slots size oldest count ++ [x] := by
  rw [entries, List.range_succ, List.map_append, List.map_singleton, Function.update_self]
  congr 1
  refine List.map_congr_left (fun k hk => Function.update_of_ne (fun heq => ?_) _ _)
  have hlt := List.mem_range.mp hk
  exact absurd (slot_injective (Nat.lt_trans hlt room) room heq) (Nat.ne_of_lt hlt)

/-- The oldest entry and the ones behind it. -/
theorem entries_pop : entries slots size oldest (count + 1) =
    slots (oldest % size) :: entries slots size ((oldest + 1) % size) count := by
  rw [entries, List.range_succ_eq_map, List.map_cons, List.map_map, entries]
  congr 1
  refine List.map_congr_left (fun k _ => ?_)
  have hslot : slot size oldest (k + 1) = slot size ((oldest + 1) % size) k := by
    rw [slot, slot, Nat.mod_add_mod, Nat.add_assoc, Nat.add_comm 1 k]
  exact congrArg slots hslot

end Rings
