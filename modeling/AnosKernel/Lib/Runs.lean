import Mathlib.Data.List.Basic

/-!
# Labelled transition systems and their invariants

A system is a set of start states and a labelled step relation. Safety results
about whole runs are stated over `Reachable`: what holds at the start and is kept
by every step holds wherever a run may end. `System.restrict` keeps only the steps
that meet a condition on the state before the step, so a result about a restricted
system is a result about the runs whose steps all meet that condition.
-/

namespace Runs

universe u v

structure System (S : Type u) (A : Type v) where
  init : S → Prop
  step : S → A → S → Prop

variable {S : Type u} {A : Type v}

inductive Reachable (M : System S A) : S → Prop
  | start {s : S} : M.init s → Reachable M s
  | next {s t : S} {a : A} : Reachable M s → M.step s a t → Reachable M t

/-- Keep only the steps whose label meets the guard in the state before the step. -/
def System.restrict (M : System S A) (guard : S → A → Prop) : System S A where
  init := M.init
  step := fun s a t => guard s a ∧ M.step s a t

/-- Keep only the runs all of whose states meet `P`. -/
def System.within (M : System S A) (P : S → Prop) : System S A where
  init := fun s => M.init s ∧ P s
  step := fun s a t => M.step s a t ∧ P t

/-- The invariant rule: a property of the start states that every step keeps. -/
theorem Reachable.invariant {M : System S A} (P : S → Prop)
    (base : ∀ s, M.init s → P s)
    (kept : ∀ s a t, P s → M.step s a t → P t)
    {s : S} (h : Reachable M s) : P s := by
  induction h with
  | start hs => exact base _ hs
  | next _ hstep ih => exact kept _ _ _ ih hstep

/-- A run of a restricted system is a run of the system. -/
theorem Reachable.of_restrict {M : System S A} {guard : S → A → Prop} {s : S}
    (h : Reachable (M.restrict guard) s) : Reachable M s := by
  induction h with
  | start hs => exact .start hs
  | next _ hstep ih => exact .next ih hstep.2

/-- A stronger guard admits fewer runs. -/
theorem Reachable.restrict_mono {M : System S A} {guard guard' : S → A → Prop}
    (weaker : ∀ s a, guard s a → guard' s a) {s : S} (h : Reachable (M.restrict guard) s) :
    Reachable (M.restrict guard') s := by
  induction h with
  | start hs => exact .start hs
  | next _ hstep ih => exact .next ih ⟨weaker _ _ hstep.1, hstep.2⟩

/-- What every restricted step keeps holds throughout the restricted runs. -/
theorem Reachable.within_of_restrict {M : System S A} {guard : S → A → Prop} {P : S → Prop}
    (base : ∀ s, M.init s → P s)
    (kept : ∀ s a t, Reachable (M.within P) s → guard s a → M.step s a t → P t)
    {s : S} (h : Reachable (M.restrict guard) s) : Reachable (M.within P) s := by
  induction h with
  | start hs => exact .start ⟨hs, base _ hs⟩
  | next _ hstep ih => exact .next ih ⟨hstep.2, kept _ _ _ ih hstep.1 hstep.2⟩

/-- The system of a deterministic operation that may be called in the states `valid` admits. -/
def System.ofExec (init : S → Prop) (valid : S → A → Prop) (exec : S → A → S) : System S A where
  init := init
  step := fun s a t => valid s a ∧ t = exec s a

end Runs
