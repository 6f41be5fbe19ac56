import AnosKernel.Lib.Directories

/-!
# The entries that a walk reads

Tables in memory need not be a tree: a walk may come to one entry on two levels, and two walks to
one entry. What a walk finds after an entry was made a leaf depends on the level on which it first
reads that entry.
-/

namespace Directories

universe u v w

theorem div_same {fan t k n n' : Nat} (same : n / fan ^ t = n' / fan ^ t) (le : t ≤ k) :
    n / fan ^ k = n' / fan ^ k := by
  obtain ⟨d, rfl⟩ := Nat.exists_eq_add_of_le le
  rw [pow_add, ← Nat.div_div_eq_div_mul, ← Nat.div_div_eq_div_mul, same]

variable {F : Type u} {A B : Type v} {E : Type w} {fan l k t n n' : Nat} [NeZero fan] {f g : F}
  {i : Fin fan} {decode : Nat → E → Decoded F A} {mem mem' : F → Fin fan → E}

/-- The level on which the walk for a page first reads an entry. -/
def firstRead [DecidableEq F] (fan : Nat) [NeZero fan] (decode : Nat → E → Decoded F A)
    (mem : F → Fin fan → E) (g : F) (i : Fin fan) : Nat → F → Nat → Option Nat
  | 0, f, n => if f = g ∧ Fin.ofNat fan n = i then some 0 else none
  | l + 1, f, n =>
    if f = g ∧ Fin.ofNat fan (n / fan ^ (l + 1)) = i then some (l + 1)
    else
      match decode (l + 1) (mem f (Fin.ofNat fan (n / fan ^ (l + 1)))) with
      | .table f => firstRead fan decode mem g i l f n
      | _ => none

/-- The table with the entry of a page on level `t`. -/
def tableOn (fan : Nat) [NeZero fan] (decode : Nat → E → Decoded F A) (mem : F → Fin fan → E)
    (t : Nat) : Nat → F → Nat → Option F
  | 0, f, _ => if t = 0 then some f else none
  | l + 1, f, n =>
    if t = l + 1 then some f
    else
      match decode (l + 1) (mem f (Fin.ofNat fan (n / fan ^ (l + 1)))) with
      | .table f => tableOn fan decode mem t l f n
      | _ => none

theorem walk_level {a : A} (h : walk fan decode mem l f n = some (k, a)) : k ≤ l := by
  induction l generalizing f with
  | zero =>
    rw [walk] at h
    split at h
    · exact Nat.le_of_eq (Prod.mk.inj (Option.some.inj h)).1.symm
    · exact absurd h.symm (Option.some_ne_none _)
  | succ l ih =>
    rw [walk] at h
    split at h
    · exact Nat.le_of_eq (Prod.mk.inj (Option.some.inj h)).1.symm
    · exact Nat.le_succ_of_le (ih h)
    · exact absurd h.symm (Option.some_ne_none _)

/-- A second reading of the entries, which agrees on those that lead to a table, finds the leaves
that the first one finds. -/
theorem walk_reading {decode' : Nat → E → Decoded F B} {rel : A → B → Prop}
    (tables : ∀ l e f, decode l e = .table f → decode' l e = .table f)
    (leaves : ∀ l e a, decode l e = .leaf a → ∃ b, decode' l e = .leaf b ∧ rel a b) {a : A}
    (h : walk fan decode mem l f n = some (k, a)) :
    ∃ b, walk fan decode' mem l f n = some (k, b) ∧ rel a b := by
  induction l generalizing f with
  | zero =>
    rw [walk] at h
    split at h
    · next a' hleaf =>
      obtain ⟨b, hb, hrel⟩ := leaves _ _ _ hleaf
      obtain ⟨rfl, rfl⟩ := Prod.mk.inj (Option.some.inj h)
      refine ⟨b, ?_, hrel⟩
      rw [walk, hb]
    · exact absurd h.symm (Option.some_ne_none _)
  | succ l ih =>
    rw [walk] at h
    split at h
    · next a' hleaf =>
      obtain ⟨b, hb, hrel⟩ := leaves _ _ _ hleaf
      obtain ⟨rfl, rfl⟩ := Prod.mk.inj (Option.some.inj h)
      refine ⟨b, ?_, hrel⟩
      rw [walk, hb]
    · next f' htable =>
      rw [walk, tables _ _ _ htable]
      exact ih h
    · exact absurd h.symm (Option.some_ne_none _)

section Written

variable [DecidableEq F]

/-- After an entry was made a leaf, walks that read it end there, and others are as before. -/
theorem walk_written {a : Nat → A} (leaf : ∀ k, decode k (mem' g i) = .leaf (a k))
    (others : ∀ f j, ¬ (f = g ∧ j = i) → mem' f j = mem f j) :
    walk fan decode mem' l f n =
      ((firstRead fan decode mem g i l f n).map fun k => (k, a k)).or
        (walk fan decode mem l f n) := by
  induction l generalizing f with
  | zero =>
    rw [walk, firstRead]
    by_cases hread : f = g ∧ Fin.ofNat fan n = i
    · rw [if_pos hread, hread.1, hread.2, leaf]
      rfl
    · rw [if_neg hread, others _ _ hread, walk]
      rfl
  | succ l ih =>
    rw [walk, firstRead]
    by_cases hread : f = g ∧ Fin.ofNat fan (n / fan ^ (l + 1)) = i
    · rw [if_pos hread, hread.1, hread.2, leaf]
      rfl
    · rw [if_neg hread, others _ _ hread, walk]
      cases decode (l + 1) (mem f (Fin.ofNat fan (n / fan ^ (l + 1)))) with
      | absent => rfl
      | table f' => exact ih
      | leaf a' => rfl
      | other => rfl

/-- What a walk finds that reads an entry. -/
theorem walk_of_firstRead {a : A} (h : firstRead fan decode mem g i l f n = some k) :
    walk fan decode mem l f n = some (k, a) ↔ decode k (mem g i) = .leaf a := by
  induction l generalizing f with
  | zero =>
    rw [firstRead] at h
    split at h
    · next hread =>
      obtain rfl := Option.some.inj h
      rw [walk, hread.1, hread.2]
      cases decode 0 (mem g i) with
      | leaf a' => simp
      | absent => simp
      | table f' => simp
      | other => simp
    · exact absurd h.symm (Option.some_ne_none _)
  | succ l ih =>
    rw [firstRead] at h
    split at h
    · next hread =>
      obtain rfl := Option.some.inj h
      rw [walk, hread.1, hread.2]
      cases decode (l + 1) (mem g i) with
      | leaf a' => simp
      | absent => simp
      | table f' =>
        -- a leaf further down is on another level
        refine iff_of_false ?_ (by simp)
        intro hwalk
        exact absurd (walk_level hwalk) (Nat.not_succ_le_self l)
      | other => simp
    · rw [walk]
      cases hentry : decode (l + 1) (mem f (Fin.ofNat fan (n / fan ^ (l + 1)))) with
      | absent =>
        rw [hentry] at h
        exact absurd h.symm (Option.some_ne_none _)
      | table f' =>
        rw [hentry] at h
        exact ih h
      | leaf a' =>
        rw [hentry] at h
        exact absurd h.symm (Option.some_ne_none _)
      | other =>
        rw [hentry] at h
        exact absurd h.symm (Option.some_ne_none _)

theorem firstRead_level (h : firstRead fan decode mem g i l f n = some k) : k ≤ l := by
  induction l generalizing f with
  | zero =>
    rw [firstRead] at h
    split at h
    · exact Nat.le_of_eq (Option.some.inj h).symm
    · exact absurd h.symm (Option.some_ne_none _)
  | succ l ih =>
    rw [firstRead] at h
    split at h
    · exact Nat.le_of_eq (Option.some.inj h).symm
    · split at h
      · exact Nat.le_succ_of_le (ih h)
      · exact absurd h.symm (Option.some_ne_none _)

/-- Pages of one block have the same entries down to the one of the block. -/
theorem firstRead_block (h : firstRead fan decode mem g i l f n = some k) (le : t ≤ k)
    (same : n / fan ^ t = n' / fan ^ t) : firstRead fan decode mem g i l f n' = some k := by
  induction l generalizing f with
  | zero =>
    have hk := firstRead_level h
    have hpage := div_same same (Nat.le_trans le hk)
    rw [pow_zero, Nat.div_one, Nat.div_one] at hpage
    rw [firstRead] at h ⊢
    rwa [← hpage]
  | succ l ih =>
    have hpage := div_same same (Nat.le_trans le (firstRead_level h))
    rw [firstRead] at h ⊢
    rw [← hpage]
    split at h
    · next hread =>
      rw [if_pos hread]
      exact h
    · next hread =>
      rw [if_neg hread]
      cases hentry : decode (l + 1) (mem f (Fin.ofNat fan (n / fan ^ (l + 1)))) with
      | absent =>
        rw [hentry] at h
        exact h
      | table f' =>
        rw [hentry] at h
        exact ih h
      | leaf a' =>
        rw [hentry] at h
        exact h
      | other =>
        rw [hentry] at h
        exact h

/-- A walk that comes to a table reads its entry there at the latest. -/
theorem firstRead_of_tableOn (h : tableOn fan decode mem t l f n = some g) :
    ∃ k, firstRead fan decode mem g (Fin.ofNat fan (n / fan ^ t)) l f n = some k ∧ t ≤ k := by
  induction l generalizing f with
  | zero =>
    rw [tableOn] at h
    split at h
    · next ht =>
      obtain rfl := Option.some.inj h
      subst ht
      refine ⟨0, ?_, Nat.le_refl 0⟩
      rw [firstRead, pow_zero, Nat.div_one]
      exact if_pos ⟨rfl, rfl⟩
    · exact absurd h.symm (Option.some_ne_none _)
  | succ l ih =>
    rw [tableOn] at h
    rw [firstRead]
    split at h
    · next ht =>
      obtain rfl := Option.some.inj h
      subst ht
      exact ⟨l + 1, if_pos ⟨rfl, rfl⟩, Nat.le_refl _⟩
    · split at h
      · obtain ⟨k, hk, hle⟩ := ih h
        by_cases hread : f = g ∧
            Fin.ofNat fan (n / fan ^ (l + 1)) = Fin.ofNat fan (n / fan ^ t)
        · exact ⟨l + 1, if_pos hread, Nat.le_succ_of_le (Nat.le_trans hle (firstRead_level hk))⟩
        · exact ⟨k, (if_neg hread).trans hk, hle⟩
      · exact absurd h.symm (Option.some_ne_none _)

end Written

end Directories
