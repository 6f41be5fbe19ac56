import Mathlib.Data.List.Basic

/-!
# Bounded queues by their history

A bounded queue accepts what it is offered while fewer than `size` entries are in it, and counts
what it turns away. Its history is what an observer has seen of it: the offers that found room,
the entries taken, and the number of the other offers. An observer knows from it alone how many
entries are in the queue. A list of entries is what a history leaves when the offers accepted are
the entries taken and then the list, in that order.
-/

namespace Queues

universe u
variable {α : Type u} {size : Nat} {queue : List α} {x : α}

structure History (α : Type u) where
  accepted : List α
  taken : List α
  refused : Nat

namespace History

def empty : History α := { accepted := [], taken := [], refused := 0 }

/-- How many entries have been accepted and not yet taken. -/
def waiting (h : History α) : Nat := h.accepted.length - h.taken.length

def offer (size : Nat) (h : History α) (x : α) : History α :=
  if h.waiting < size then { h with accepted := h.accepted ++ [x] }
  else { h with refused := h.refused + 1 }

def take (h : History α) (x : α) : History α := { h with taken := h.taken ++ [x] }

structure Leaves (h : History α) (size : Nat) (queue : List α) : Prop where
  accepted : h.accepted = h.taken ++ queue
  bound : queue.length ≤ size

variable {h : History α}

theorem leaves_empty : (empty : History α).Leaves size [] := ⟨rfl, Nat.zero_le _⟩

/-- The history tells the length of the queue. -/
theorem Leaves.waiting (hq : h.Leaves size queue) : h.waiting = queue.length := by
  rw [History.waiting, hq.accepted, List.length_append, Nat.add_sub_cancel_left]

theorem Leaves.offer_room (hq : h.Leaves size queue) (room : queue.length < size) (x : α) :
    (h.offer size x).Leaves size (queue ++ [x]) ∧ (h.offer size x).refused = h.refused := by
  have hoffer : h.offer size x = { h with accepted := h.accepted ++ [x] } :=
    if_pos (hq.waiting ▸ room)
  rw [hoffer]
  refine ⟨⟨?_, ?_⟩, rfl⟩
  · simp only [hq.accepted, List.append_assoc]
  · rw [List.length_append]
    exact room

theorem Leaves.offer_full (hq : h.Leaves size queue) (full : size ≤ queue.length) (x : α) :
    (h.offer size x).Leaves size queue ∧ (h.offer size x).refused = h.refused + 1 := by
  have hoffer : h.offer size x = { h with refused := h.refused + 1 } :=
    if_neg (Nat.not_lt_of_le (hq.waiting ▸ full))
  rw [hoffer]
  exact ⟨⟨hq.accepted, hq.bound⟩, rfl⟩

/-- Taking the oldest entry leaves the others. -/
theorem Leaves.take (hq : h.Leaves size (x :: queue)) : (h.take x).Leaves size queue := by
  refine ⟨?_, Nat.le_of_succ_le hq.bound⟩
  simp only [History.take, hq.accepted, List.append_assoc, List.singleton_append]

end History

end Queues
