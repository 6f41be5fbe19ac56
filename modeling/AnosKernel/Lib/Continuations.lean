import AnosKernel.Lib.Runs

/-!
# Continuations of a run

The system that starts in a state has the runs that go on from it. What is reachable from a
reachable state is reachable, and a list of actions is a run of a deterministic operation.
-/

namespace Runs

universe u v

variable {S : Type u} {A : Type v} {M : System S A} {s t : S}

/-- The runs that go on from a state. -/
def System.from (M : System S A) (s : S) : System S A where
  init := (· = s)
  step := M.step

theorem Reachable.trans (h : Reachable M s) (hfrom : Reachable (M.from s) t) : Reachable M t := by
  induction hfrom with
  | start heq =>
    rw [show _ = s from heq]
    exact h
  | next _ hstep ih => exact .next ih hstep

/-- What a state has and every step keeps is there for good. -/
theorem Reachable.always (P : S → Prop) (now : P s) (kept : ∀ s a t, P s → M.step s a t → P t)
    (h : Reachable (M.from s) t) : P t := by
  apply h.invariant P
  · rintro s rfl
    exact now
  · exact kept

theorem Reachable.exec {init : S → Prop} {exec : S → A → S}
    (h : Reachable (System.ofExec init (fun _ _ => True) exec) s) (actions : List A) :
    Reachable (System.ofExec init (fun _ _ => True) exec) (actions.foldl exec s) := by
  induction actions generalizing s with
  | nil => exact h
  | cons a actions ih => exact ih (.next h ⟨trivial, rfl⟩)

end Runs
