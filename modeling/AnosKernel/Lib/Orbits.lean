import Mathlib.Data.Fintype.Pigeonhole
import Mathlib.Logic.Function.Iterate

/-!
# Following links until something stops

Links are followed from a start. Among finitely many values, either one that stops is met or the
links go round in a circle.
-/

namespace Orbits

universe u
variable {α : Type u} {next : α → α} {stop : α → Prop} {a : α} {i j k n : Nat}

/-- A value comes again before any that stops. -/
def Circles (next : α → α) (stop : α → Prop) (a : α) : Prop :=
  ∃ i j, i < j ∧ next^[i] a = next^[j] a ∧ ∀ k < j, ¬ stop (next^[k] a)

theorem iterate_again (again : next^[i] a = next^[j] a) (n : Nat) :
    next^[n + i] a = next^[n + j] a := by
  rw [Function.iterate_add_apply, again, Function.iterate_add_apply]

theorem never_of_circles (circles : Circles next stop a) (k : Nat) : ¬ stop (next^[k] a) := by
  obtain ⟨i, j, hlt, hagain, hfree⟩ := circles
  induction k using Nat.strongRecOn with
  | ind k ih =>
    by_cases hk : k < j
    · exact hfree k hk
    · have hback := iterate_again hagain (k - j)
      rw [Nat.sub_add_cancel (Nat.le_of_not_lt hk)] at hback
      rw [← hback]
      exact ih (k - j + i) (by omega)

/-- Among finitely many values the links go round in a circle unless one of them stops. -/
theorem circles_iff [Finite α] : Circles next stop a ↔ ∀ k, ¬ stop (next^[k] a) := by
  constructor
  · exact never_of_circles
  · intro hnever
    obtain ⟨i, j, hne, hagain⟩ := Finite.exists_ne_map_eq_of_infinite fun k => next^[k] a
    rcases Nat.lt_or_gt_of_ne hne with hlt | hlt
    · exact ⟨i, j, hlt, hagain, fun k _ => hnever k⟩
    · exact ⟨j, i, hlt, hagain.symm, fun k _ => hnever k⟩

section Follow

variable [DecidablePred stop]

/-- The first value that stops, within so many links. -/
def follow (next : α → α) (stop : α → Prop) [DecidablePred stop] : Nat → α → Option α
  | 0, _ => none
  | n + 1, a => if stop a then some a else follow next stop n (next a)

theorem follow_eq_some {b : α} : follow next stop n a = some b ↔
    ∃ k < n, next^[k] a = b ∧ stop b ∧ ∀ i < k, ¬ stop (next^[i] a) := by
  induction n generalizing a with
  | zero =>
    rw [follow]
    constructor
    · intro h
      cases h
    · rintro ⟨k, hk, -⟩
      exact absurd hk (Nat.not_lt_zero k)
  | succ n ih =>
    rw [follow]
    by_cases hstop : stop a
    · rw [if_pos hstop]
      constructor
      · intro h
        cases h
        exact ⟨0, Nat.zero_lt_succ n, rfl, hstop, fun i hi => absurd hi (Nat.not_lt_zero i)⟩
      · rintro ⟨k, -, hk, -, hfirst⟩
        rcases Nat.eq_zero_or_pos k with rfl | hpos
        · exact congrArg some hk
        · exact absurd hstop (hfirst 0 hpos)
    · rw [if_neg hstop, ih]
      constructor
      · rintro ⟨k, hk, hb, hbstop, hfirst⟩
        refine ⟨k + 1, Nat.succ_lt_succ hk, hb, hbstop, ?_⟩
        intro i hi
        cases i with
        | zero => exact hstop
        | succ i => exact hfirst i (Nat.lt_of_succ_lt_succ hi)
      · rintro ⟨k, hk, hb, hbstop, hfirst⟩
        cases k with
        | zero =>
          have hab : a = b := hb
          exact absurd (hab ▸ hbstop) hstop
        | succ k =>
          exact ⟨k, Nat.lt_of_succ_lt_succ hk, hb, hbstop,
            fun i hi => hfirst (i + 1) (Nat.succ_lt_succ hi)⟩

/-- The end is reached just if the links do not go round in a circle. -/
theorem follow_ends_iff [Finite α] :
    (∃ n b, follow next stop n a = some b) ↔ ¬ Circles next stop a := by
  rw [circles_iff]
  constructor
  · rintro ⟨n, b, h⟩ hnever
    obtain ⟨k, -, rfl, hstop, -⟩ := follow_eq_some.mp h
    exact hnever k hstop
  · intro hsome
    have hexists : ∃ k, stop (next^[k] a) := by
      by_contra hnone
      exact hsome fun k hk => hnone ⟨k, hk⟩
    classical
    exact ⟨Nat.find hexists + 1, _, follow_eq_some.mpr ⟨Nat.find hexists, Nat.lt_succ_self _, rfl,
      Nat.find_spec hexists, fun i hi => Nat.find_min hexists hi⟩⟩

end Follow

end Orbits
