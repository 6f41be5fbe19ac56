import Mathlib.Data.List.Range

/-!
# Windows

A window is a stretch of an indexed family: the members from a start on, so many of them. A deque
on an array is a window of its slots, which grows and shrinks at both ends and is moved as a whole.
-/

namespace Windows

universe u
variable {α : Type u} {f g : Nat → α} {s t n : Nat}

def window (f : Nat → α) (s n : Nat) : List α := (List.range n).map fun k => f (s + k)

@[simp] theorem window_zero : window f s 0 = [] := rfl

@[simp] theorem length_window : (window f s n).length = n := by
  rw [window, List.length_map, List.length_range]

theorem window_eq_nil_iff : window f s n = [] ↔ n = 0 := by
  rw [← List.length_eq_zero_iff, length_window]

/-- The first member and the others. -/
theorem window_cons : window f s (n + 1) = f s :: window f (s + 1) n := by
  rw [window, List.range_succ_eq_map, List.map_cons, List.map_map, Nat.add_zero, window]
  congr 1
  apply List.map_congr_left
  intro k _
  exact congrArg f (by simp only [Nat.succ_eq_add_one]; omega)

/-- The last member and the others. -/
theorem window_concat : window f s (n + 1) = window f s n ++ [f (s + n)] := by
  rw [window, List.range_succ, List.map_append, List.map_singleton, window]

/-- Windows of two families, each at a place of its own. -/
theorem window_congr (same : ∀ k < n, f (s + k) = g (t + k)) : window f s n = window g t n := by
  apply List.map_congr_left
  intro k hk
  exact same k (List.mem_range.mp hk)

end Windows
