import Mathlib.Logic.Function.Basic

/-!
# One party inside

Parties with local states share something that at most one of them may be inside. `Owned` names
the party that is, and says that there is no other. A step of a party changes its own local state
only, so what the step has to show is whether that state is inside before and after.
-/

namespace Owners

universe u v

variable {C : Type u} {L : Type v} {inside : L → Prop} {locals : C → L} {owner : Option C}

def Owned (inside : L → Prop) (locals : C → L) (owner : Option C) : Prop :=
  ∀ c, inside (locals c) ↔ owner = some c

theorem Owned.unique (h : Owned inside locals owner) {c d : C} (hc : inside (locals c))
    (hd : inside (locals d)) : c = d := by
  apply Option.some.inj
  rw [← (h c).mp hc, ← (h d).mp hd]

theorem Owned.eq_some (h : Owned inside locals owner) {c : C} (hc : inside (locals c)) :
    owner = some c := (h c).mp hc

theorem owned_none (h : ∀ c, ¬ inside (locals c)) : Owned inside locals none := fun c =>
  ⟨fun hc => absurd hc (h c), fun hc => by cases hc⟩

/-- With a word that says whether somebody is inside, one party at most is, and the word knows. -/
theorem Owned.excludes (h : Owned inside locals owner) {word : BitVec 64}
    (hword : word = if owner.isSome then 1 else 0) :
    (∀ c d, inside (locals c) → inside (locals d) → c = d) ∧
      (word = 0 ∧ (∀ c, ¬ inside (locals c)) ∨ word = 1 ∧ ∃ c, inside (locals c)) := by
  refine ⟨fun c d hc hd => h.unique hc hd, ?_⟩
  cases owner with
  | none =>
    refine .inl ⟨hword, fun c hc => ?_⟩
    cases h.eq_some hc
  | some c => exact .inr ⟨hword, c, (h c).mpr rfl⟩

variable [DecidableEq C]

/-- A step that stays inside or stays outside. -/
theorem Owned.stay (h : Owned inside locals owner) {c : C} {l : L}
    (same : inside l ↔ inside (locals c)) : Owned inside (Function.update locals c l) owner := by
  apply (Function.forall_update_iff locals fun d l => inside l ↔ owner = some d).mpr
  exact ⟨same.trans (h c), fun d _ => h d⟩

/-- Entering is a step that only the first party takes. -/
theorem Owned.enter (h : Owned inside locals none) {c : C} {l : L} (hl : inside l) :
    Owned inside (Function.update locals c l) (some c) := by
  apply (Function.forall_update_iff locals fun d l => inside l ↔ some c = some d).mpr
  refine ⟨⟨fun _ => rfl, fun _ => hl⟩, fun d hd => ⟨fun hin => ?_, fun heq => ?_⟩⟩
  · cases (h d).mp hin
  · exact absurd (Option.some.inj heq).symm hd

theorem Owned.leave (h : Owned inside locals owner) {c : C} {l : L} (was : inside (locals c))
    (hl : ¬ inside l) : Owned inside (Function.update locals c l) none := by
  apply owned_none
  apply (Function.forall_update_iff locals fun _ l => ¬ inside l).mpr
  exact ⟨hl, fun d hd hin => hd (h.unique hin was)⟩

end Owners
