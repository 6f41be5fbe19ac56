import Mathlib.Algebra.BigOperators.Group.Finset.Basic
import Mathlib.Algebra.Order.BigOperators.Group.Finset
import Mathlib.Data.Fintype.Prod

/-!
# Counting over a finite type

Totals over all members of a finite type, the number of members that meet a test, and how both
change when one member does.
-/

open scoped BigOperators

namespace Counting

variable {T : Type} [Fintype T]

def total (f : T → Nat) : Nat := ∑ t, f t

def count (test : T → Bool) : Nat := total fun t => (test t).toNat

theorem total_mono {f g : T → Nat} (h : ∀ t, f t ≤ g t) : total f ≤ total g :=
  Finset.sum_le_sum fun t _ => h t

theorem le_total (f : T → Nat) (a : T) : f a ≤ total f :=
  Finset.single_le_sum (fun _ _ => Nat.zero_le _) (Finset.mem_univ a)

theorem total_eq_zero_iff {f : T → Nat} : total f = 0 ↔ ∀ t, f t = 0 := by
  simp [total, Finset.sum_eq_zero_iff]

theorem count_eq_zero_iff {test : T → Bool} : count test = 0 ↔ ∀ t, test t = false := by
  simp [count, total_eq_zero_iff]

theorem count_mono {test test' : T → Bool} (h : ∀ t, test t = true → test' t = true) :
    count test ≤ count test' := by
  refine total_mono fun t => ?_
  cases htest : test t with
  | false => exact Nat.zero_le _
  | true => rw [h t htest]

theorem count_pos {test : T → Bool} {a : T} (h : test a = true) : 0 < count test := by
  have hone := le_total (fun t => (test t).toNat) a
  rw [h] at hone
  exact hone

variable [DecidableEq T]

/-- One member changes, and the total by as much. -/
theorem total_change {before after : T → Nat} (a : T)
    (same : ∀ t, t ≠ a → after t = before t) :
    total after + before a = total before + after a := by
  have hothers : ∑ t ∈ Finset.univ.erase a, after t = ∑ t ∈ Finset.univ.erase a, before t :=
    Finset.sum_congr rfl fun t ht => same t (Finset.ne_of_mem_erase ht)
  have hafter := Finset.sum_erase_add Finset.univ after (Finset.mem_univ a)
  have hbefore := Finset.sum_erase_add Finset.univ before (Finset.mem_univ a)
  unfold total
  omega

theorem count_change {before after : T → Bool} (a : T)
    (same : ∀ t, t ≠ a → after t = before t) :
    count after + (before a).toNat = count before + (after a).toNat :=
  total_change a fun t ht => congrArg Bool.toNat (same t ht)

theorem count_gain {before after : T → Bool} {a : T} (same : ∀ t, t ≠ a → after t = before t)
    (lost : before a = false) (gained : after a = true) : count after = count before + 1 := by
  have hchange := count_change a same
  rwa [lost, gained] at hchange

theorem count_loss {before after : T → Bool} {a : T} (same : ∀ t, t ≠ a → after t = before t)
    (had : before a = true) (lost : after a = false) : count after + 1 = count before := by
  have hchange := count_change a same
  rwa [had, lost] at hchange

end Counting
