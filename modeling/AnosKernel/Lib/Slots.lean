import Mathlib.Data.List.Nodup
import Mathlib.Logic.Function.Basic

/-!
# Slots of a memory

A slot is a list of places. Slots that have no place in common can be written one after the other
as if each were alone, and writing them again with what they held before restores the memory.
-/

namespace Slots

universe u v

variable {A : Type u} {B : Type v} [DecidableEq A] {mem : A → B} {places : List A}
  {values values' : List B} {x : A}

def readAt (mem : A → B) (places : List A) : List B := places.map mem

def writeAt (mem : A → B) : List A → List B → A → B
  | a :: places, b :: values => Function.update (writeAt mem places values) a b
  | _, _ => mem

theorem writeAt_other (h : x ∉ places) : writeAt mem places values x = mem x := by
  induction places generalizing values with
  | nil =>
    cases values
    all_goals rfl
  | cons a places ih =>
    rw [List.mem_cons, not_or] at h
    cases values with
    | nil => rfl
    | cons b values => rw [writeAt, Function.update_of_ne h.1, ih h.2]

/-- A slot that shares no place with the one written. -/
theorem readAt_writeAt_other {others : List A} (apart : List.Disjoint others places) :
    readAt (writeAt mem places values) others = readAt mem others := by
  apply List.map_congr_left
  intro x hx
  exact writeAt_other fun h => apart hx h

/-- What was written is read back. -/
theorem readAt_writeAt (nodup : places.Nodup) (same : values.length = places.length) :
    readAt (writeAt mem places values) places = values := by
  induction places generalizing values with
  | nil => exact (List.length_eq_zero_iff.mp same).symm
  | cons a places ih =>
    rw [List.nodup_cons] at nodup
    cases values with
    | nil => cases same
    | cons b values =>
      have hrest : places.map (Function.update (writeAt mem places values) a b) =
          places.map (writeAt mem places values) := by
        apply List.map_congr_left
        intro x hx
        have hne : x ≠ a := by
          rintro rfl
          exact nodup.1 hx
        exact Function.update_of_ne hne _ _
      have htail : places.map (writeAt mem places values) = values :=
        ih nodup.2 (Nat.succ.inj same)
      rw [readAt, writeAt, List.map_cons, Function.update_self, hrest, htail]

/-- What stands there anyway. -/
theorem writeAt_readAt : writeAt mem places (readAt mem places) = mem := by
  induction places with
  | nil => rfl
  | cons a places ih =>
    rw [readAt, List.map_cons, writeAt]
    rw [readAt] at ih
    rw [ih, Function.update_eq_self]

/-! ## One slot after the other -/

def writeAll (mem : A → B) : List (List A) → List (List B) → A → B
  | slot :: slots, content :: contents => writeAll (writeAt mem slot content) slots contents
  | _, _ => mem

variable {slots : List (List A)} {contents contents' : List (List B)}

theorem writeAll_other (h : x ∉ slots.flatten) : writeAll mem slots contents x = mem x := by
  induction slots generalizing mem contents with
  | nil => rfl
  | cons slot slots ih =>
    rw [List.flatten_cons, List.mem_append, not_or] at h
    cases contents with
    | nil => rfl
    | cons content contents => rw [writeAll, ih h.2, writeAt_other h.1]

theorem readAt_writeAll_other {places : List A} (apart : List.Disjoint places slots.flatten) :
    readAt (writeAll mem slots contents) places = readAt mem places := by
  apply List.map_congr_left
  intro x hx
  exact writeAll_other fun h => apart hx h

/-- Contents that fill their slots. -/
def Fill (slots : List (List A)) (contents : List (List B)) : Prop :=
  List.Forall₂ (fun slot content => content.length = slot.length) slots contents

/-- Every slot holds what was written to it. -/
theorem map_readAt_writeAll (nodup : slots.flatten.Nodup) (fill : Fill slots contents) :
    slots.map (readAt (writeAll mem slots contents)) = contents := by
  induction slots generalizing mem contents with
  | nil =>
    cases fill
    rfl
  | cons slot slots ih =>
    cases fill with
    | cons hlength fill =>
      rw [List.flatten_cons, List.nodup_append] at nodup
      have hdisjoint : List.Disjoint slot slots.flatten := fun x hx hx' => nodup.2.2 x hx x hx' rfl
      rw [List.map_cons, writeAll, readAt_writeAll_other hdisjoint, readAt_writeAt nodup.1 hlength,
        ih nodup.2.1 fill]

/-- Where a memory differs from another in the slots only, what the slots held restores it. -/
theorem writeAll_restores {mem' : A → B} (nodup : slots.flatten.Nodup) (fill : Fill slots contents)
    (holds : slots.map (readAt mem) = contents) (other : x ∉ slots.flatten → mem' x = mem x) :
    writeAll mem' slots contents x = mem x := by
  have hread : slots.map (readAt (writeAll mem' slots contents)) = slots.map (readAt mem) :=
    (map_readAt_writeAll nodup fill).trans holds.symm
  by_cases hx : x ∈ slots.flatten
  · obtain ⟨slot, hslot, hx⟩ := List.mem_flatten.mp hx
    have hsame := List.map_inj_left.mp hread slot hslot
    exact List.map_inj_left.mp hsame x hx
  · rw [writeAll_other hx, other hx]

end Slots
