import Mathlib.Data.List.Basic

/-!
# Assembly routines

A program text is a list of labelled blocks in the order of the file; control falls from the end
of one block into the next one. A machine says what the first instruction of the code ahead does:
it goes on somewhere, leaves the routine, or does something the text gives no meaning to. The
rules below follow one instruction at a time, so that a routine is executed by rewriting.
-/

namespace Routines

universe u v w
variable {L : Type u} {I : Type v} {S : Type w}

/-- The code from a label to the end of the text. -/
def textFrom [DecidableEq L] (text : List (L × List I)) (label : L) : List I :=
  (text.dropWhile fun block => block.1 ≠ label).flatMap Prod.snd

inductive Next (I : Type v) (S : Type w) where
  | go (code : List I) (s : S)
  | leave (s : S)
  | wild

abbrev Machine (I : Type v) (S : Type w) := I → List I → S → Next I S

/-- Running out of code is as wild as a jump to where there is none. -/
def run (M : Machine I S) : Nat → List I → S → Option S
  | 0, _, _ => none
  | _ + 1, [], _ => none
  | fuel + 1, i :: rest, s =>
    match M i rest s with
    | .go code s' => run M fuel code s'
    | .leave s' => some s'
    | .wild => none

/-- The routine that starts with this code is left in the state `t`. -/
def Returns (M : Machine I S) (code : List I) (s t : S) : Prop := ∃ fuel, run M fuel code s = some t

variable {M : Machine I S} {i : I} {rest code : List I} {s s' t : S}

theorem returns_go (h : M i rest s = .go code s') :
    Returns M (i :: rest) s t ↔ Returns M code s' t := by
  constructor
  · rintro ⟨fuel, hrun⟩
    cases fuel with
    | zero => simp [run] at hrun
    | succ fuel =>
      rw [run, h] at hrun
      exact ⟨fuel, hrun⟩
  · rintro ⟨fuel, hrun⟩
    refine ⟨fuel + 1, ?_⟩
    rw [run, h]
    exact hrun

theorem returns_leave (h : M i rest s = .leave s') : Returns M (i :: rest) s t ↔ s' = t := by
  constructor
  · rintro ⟨fuel, hrun⟩
    cases fuel with
    | zero => simp [run] at hrun
    | succ fuel =>
      rw [run, h] at hrun
      exact Option.some.inj hrun
  · rintro rfl
    refine ⟨1, ?_⟩
    rw [run, h]

theorem not_returns_wild (h : M i rest s = .wild) : ¬ Returns M (i :: rest) s t := by
  rintro ⟨fuel, hrun⟩
  cases fuel with
  | zero => simp [run] at hrun
  | succ fuel =>
    rw [run, h] at hrun
    exact absurd hrun (by simp)

end Routines
