import Mathlib.Algebra.Order.Ring.Nat
import Mathlib.Data.Nat.Basic
import Mathlib.Logic.Basic

/-!
# Directories of pages

A directory is a tree of tables with `fan` entries each. An entry on level `l` is for a block of
`fan ^ l` pages and leads to a table of entries for smaller blocks, or it is a leaf for the whole
block. Here a directory is described by the tables and leaves it has, each under the number of its
block, and memory represents it. A table belongs to one block, so that writing an entry of it
changes the directory at one place.
-/

namespace Directories

universe u v w

/-- What an entry says; `other` is what no directory has. -/
inductive Decoded (F : Type u) (A : Type v) where
  | absent
  | table (f : F)
  | leaf (a : A)
  | other

/-- By level and block: the table that the entry leads to, and the leaf that it is. -/
structure Directory (F : Type u) (A : Type v) where
  table : Nat → Nat → Option F
  leaf : Nat → Nat → Option A

section Definitions

variable {F : Type u} {A : Type v} {E : Type w}

def Directory.entry (d : Directory F A) (l b : Nat) : Decoded F A :=
  match d.table l b with
  | some f => .table f
  | none =>
    match d.leaf l b with
    | some a => .leaf a
    | none => .absent

/-- The table that holds the entry of a block. -/
def Directory.home (d : Directory F A) (fan top : Nat) (root : F) (l b : Nat) : Option F :=
  if l = top then some root else d.table (l + 1) (b / fan)

/-- The leaf found for a page, from level `l` on. -/
def Directory.lookup (d : Directory F A) (fan : Nat) : Nat → Nat → Option (Nat × A)
  | 0, n =>
    match d.entry 0 n with
    | .leaf a => some (0, a)
    | _ => none
  | l + 1, n =>
    match d.entry (l + 1) (n / fan ^ (l + 1)) with
    | .leaf a => some (l + 1, a)
    | .table _ => d.lookup fan l n
    | _ => none

/-- The walk through memory, from a table with entries on level `l` on. -/
def walk (fan : Nat) [NeZero fan] (decode : Nat → E → Decoded F A) (mem : F → Fin fan → E) :
    Nat → F → Nat → Option (Nat × A)
  | 0, f, n =>
    match decode 0 (mem f (Fin.ofNat fan n)) with
    | .leaf a => some (0, a)
    | _ => none
  | l + 1, f, n =>
    match decode (l + 1) (mem f (Fin.ofNat fan (n / fan ^ (l + 1)))) with
    | .leaf a => some (l + 1, a)
    | .table f => walk fan decode mem l f n
    | _ => none

/-- Tables hang together, and each is for one block. -/
structure WellFormed (fan top : Nat) (root : F) (d : Directory F A) : Prop where
  levels : ∀ l b f, d.table l b = some f → 0 < l ∧ l ≤ top
  leafLevels : ∀ l b a, d.leaf l b = some a → l ≤ top
  parents : ∀ l b f, l < top → d.table l b = some f → ∃ g, d.table (l + 1) (b / fan) = some g
  leafParents : ∀ l b a, l < top → d.leaf l b = some a → ∃ g, d.table (l + 1) (b / fan) = some g
  apart : ∀ l b l' b' f, d.table l b = some f → d.table l' b' = some f → l = l' ∧ b = b'
  below : ∀ l b f, d.table l b = some f → f ≠ root
  exclusive : ∀ l b f, d.table l b = some f → d.leaf l b = none

/-- Memory represents the directory, in the part of the root for the blocks of `part`. -/
def Holds (fan : Nat) [NeZero fan] (top : Nat) (root : F) (part : Nat → Prop)
    (decode : Nat → E → Decoded F A) (mem : F → Fin fan → E) (d : Directory F A) : Prop :=
  ∀ l b f, l ≤ top → d.home fan top root l b = some f → (l = top → part b) →
    decode l (mem f (Fin.ofNat fan b)) = d.entry l b

def Directory.addTable (d : Directory F A) (l b : Nat) (f : F) : Directory F A where
  table := fun l' b' => if l' = l ∧ b' = b then some f else d.table l' b'
  leaf := d.leaf

def Directory.addLeaf (d : Directory F A) (l b : Nat) (a : A) : Directory F A where
  table := d.table
  leaf := fun l' b' => if l' = l ∧ b' = b then some a else d.leaf l' b'

end Definitions

section Lookup

variable {F : Type u} {A : Type v} {E : Type w} {fan top l k b n : Nat} {root f : F} {a : A}
  {d : Directory F A}

theorem div_next : n / fan ^ l / fan = n / fan ^ (l + 1) := by
  rw [Nat.div_div_eq_div_mul, ← pow_succ]

theorem entry_of_table (h : d.table l b = some f) : d.entry l b = .table f := by
  simp [Directory.entry, h]

theorem table_of_entry (h : d.entry l b = .table f) : d.table l b = some f := by
  cases htable : d.table l b with
  | some g => simpa [Directory.entry, htable] using h
  | none => cases hleaf : d.leaf l b <;> simp [Directory.entry, htable, hleaf] at h

theorem entry_ne_other : d.entry l b ≠ .other := by
  cases htable : d.table l b with
  | some f => simp [Directory.entry, htable]
  | none => cases hleaf : d.leaf l b <;> simp [Directory.entry, htable, hleaf]

theorem entry_of_leaf (wf : WellFormed fan top root d) (h : d.leaf l b = some a) :
    d.entry l b = .leaf a := by
  cases htable : d.table l b with
  | none => simp [Directory.entry, htable, h]
  | some f =>
    have hnone := wf.exclusive l b f htable
    rw [h] at hnone
    exact absurd hnone (by simp)

theorem entry_absent_iff : d.entry l b = .absent ↔ d.table l b = none ∧ d.leaf l b = none := by
  cases htable : d.table l b with
  | some f => simp [Directory.entry, htable]
  | none => cases hleaf : d.leaf l b <;> simp [Directory.entry, htable, hleaf]

/-- The tables above a block, once one is above it. -/
theorem WellFormed.tables_above (wf : WellFormed fan top root d)
    (h : l < top → ∃ f, d.table (l + 1) (n / fan ^ (l + 1)) = some f) (le : l ≤ k) (lt : k < top) :
    ∃ f, d.table (k + 1) (n / fan ^ (k + 1)) = some f := by
  induction k, le using Nat.le_induction with
  | base => exact h lt
  | succ k hk ih =>
    obtain ⟨f, hf⟩ := ih (by omega)
    have hparent := wf.parents (k + 1) _ f lt hf
    rwa [div_next] at hparent

theorem WellFormed.above_leaf (wf : WellFormed fan top root d)
    (h : d.leaf l (n / fan ^ l) = some a) (le : l ≤ k) (lt : k < top) :
    ∃ f, d.table (k + 1) (n / fan ^ (k + 1)) = some f := by
  apply wf.tables_above _ le lt
  intro hl
  have hparent := wf.leafParents l _ a hl h
  rwa [div_next] at hparent

/-- A leaf is found for the pages of its block, and nothing else is. -/
theorem WellFormed.lookup_iff (wf : WellFormed fan top root d) :
    d.lookup fan top n = some (l, a) ↔ d.leaf l (n / fan ^ l) = some a := by
  constructor
  · generalize top = m
    intro h
    induction m with
    | zero =>
      rw [Directory.lookup, Directory.entry] at h
      cases htable : d.table 0 n with
      | some f => simp [htable] at h
      | none =>
        cases hleaf : d.leaf 0 n with
        | none => simp [htable, hleaf] at h
        | some a' =>
          simp only [htable, hleaf, Option.some.injEq, Prod.mk.injEq] at h
          obtain ⟨rfl, rfl⟩ := h
          rw [pow_zero, Nat.div_one, hleaf]
    | succ m ih =>
      rw [Directory.lookup, Directory.entry] at h
      cases htable : d.table (m + 1) (n / fan ^ (m + 1)) with
      | some f =>
        simp only [htable] at h
        exact ih h
      | none =>
        cases hleaf : d.leaf (m + 1) (n / fan ^ (m + 1)) with
        | none => simp [htable, hleaf] at h
        | some a' =>
          simp only [htable, hleaf, Option.some.injEq, Prod.mk.injEq] at h
          obtain ⟨rfl, rfl⟩ := h
          exact hleaf
  · intro h
    have hdown : ∀ k, l ≤ k → k ≤ top → d.lookup fan k n = some (l, a) := by
      intro k hlk
      induction k, hlk using Nat.le_induction with
      | base =>
        intro _
        have hentry := entry_of_leaf wf h
        cases l with
        | zero =>
          rw [pow_zero, Nat.div_one] at hentry
          simp [Directory.lookup, hentry]
        | succ l => simp [Directory.lookup, hentry]
      | succ k hk ih =>
        intro hk1
        obtain ⟨f, hf⟩ := wf.above_leaf h hk (by omega)
        simp only [Directory.lookup, entry_of_table hf]
        exact ih (by omega)
    exact hdown top (wf.leafLevels l _ a h) (Nat.le_refl top)

variable [NeZero fan] {part : Nat → Prop} {decode : Nat → E → Decoded F A} {mem : F → Fin fan → E}

/-- A walk through memory finds what the directory has. -/
theorem Holds.walk_eq (holds : Holds fan top root part decode mem d) (le : l ≤ top)
    (inPart : part (n / fan ^ top)) (home : d.home fan top root l (n / fan ^ l) = some f) :
    walk fan decode mem l f n = d.lookup fan l n := by
  induction l generalizing f with
  | zero =>
    have hentry := holds 0 (n / fan ^ 0) f le home (fun htop => by rw [htop]; exact inPart)
    rw [pow_zero, Nat.div_one] at hentry
    rw [walk, Directory.lookup, hentry]
  | succ l ih =>
    have hentry := holds (l + 1) _ f le home (fun htop => by rw [htop]; exact inPart)
    rw [walk, Directory.lookup, hentry]
    cases hchild : d.table (l + 1) (n / fan ^ (l + 1)) with
    | none =>
      cases hleaf : d.leaf (l + 1) (n / fan ^ (l + 1)) <;>
        simp [Directory.entry, hchild, hleaf]
    | some c =>
      simp only [Directory.entry, hchild]
      apply ih (by omega)
      rw [Directory.home, if_neg (by omega), div_next, hchild]

end Lookup

/-! ## Growing -/

section Growing

variable {F : Type u} {A : Type v} {E : Type w} {fan top l k b n : Nat} {root f g : F} {a : A}
  {d : Directory F A}

/-- A table that the directory does not have yet. -/
def Directory.Fresh (d : Directory F A) (root f : F) : Prop :=
  f ≠ root ∧ ∀ l b, d.table l b ≠ some f

theorem home_above (home : d.home fan top root l b = some g) (lt : l < top) :
    d.table (l + 1) (b / fan) = some g := by
  rwa [Directory.home, if_neg (Nat.ne_of_lt lt)] at home

theorem WellFormed.addTable (wf : WellFormed fan top root d) (pos : 0 < l) (le : l ≤ top)
    (home : d.home fan top root l b = some g) (absent : d.entry l b = .absent)
    (fresh : d.Fresh root f) : WellFormed fan top root (d.addTable l b f) := by
  have hleaf := (entry_absent_iff.mp absent).2
  -- a table of the new directory is the new one or an old one
  have cases : ∀ l' b' f', (d.addTable l b f).table l' b' = some f' →
      (l' = l ∧ b' = b ∧ f' = f) ∨ d.table l' b' = some f' := by
    intro l' b' f' h
    simp only [Directory.addTable] at h
    split_ifs at h with hnew
    · exact Or.inl ⟨hnew.1, hnew.2, (Option.some.inj h).symm⟩
    · exact Or.inr h
  have old : ∀ l' b' f', d.table l' b' = some f' → ∃ f', (d.addTable l b f).table l' b' = some f' := by
    intro l' b' f' h
    simp only [Directory.addTable]
    split_ifs
    · exact ⟨f, rfl⟩
    · exact ⟨f', h⟩
  constructor
  · intro l' b' f' h
    rcases cases l' b' f' h with ⟨rfl, _, _⟩ | hold
    · exact ⟨pos, le⟩
    · exact wf.levels l' b' f' hold
  · exact wf.leafLevels
  · intro l' b' f' hlt h
    rcases cases l' b' f' h with ⟨rfl, rfl, _⟩ | hold
    · exact old _ _ g (home_above home hlt)
    · obtain ⟨g', hg'⟩ := wf.parents l' b' f' hlt hold
      exact old _ _ g' hg'
  · intro l' b' a' hlt h
    obtain ⟨g', hg'⟩ := wf.leafParents l' b' a' hlt h
    exact old _ _ g' hg'
  · intro l₁ b₁ l₂ b₂ f' h₁ h₂
    rcases cases l₁ b₁ f' h₁ with ⟨rfl, rfl, rfl⟩ | hold₁
    · rcases cases l₂ b₂ f' h₂ with ⟨rfl, rfl, _⟩ | hold₂
      · exact ⟨rfl, rfl⟩
      · exact absurd hold₂ (fresh.2 l₂ b₂)
    · rcases cases l₂ b₂ f' h₂ with ⟨rfl, rfl, rfl⟩ | hold₂
      · exact absurd hold₁ (fresh.2 l₁ b₁)
      · exact wf.apart l₁ b₁ l₂ b₂ f' hold₁ hold₂
  · intro l' b' f' h
    rcases cases l' b' f' h with ⟨_, _, rfl⟩ | hold
    · exact fresh.1
    · exact wf.below l' b' f' hold
  · intro l' b' f' h
    rcases cases l' b' f' h with ⟨rfl, rfl, _⟩ | hold
    · exact hleaf
    · exact wf.exclusive l' b' f' hold

theorem WellFormed.addLeaf (wf : WellFormed fan top root d) (le : l ≤ top)
    (home : d.home fan top root l b = some g) (absent : d.entry l b = .absent) :
    WellFormed fan top root (d.addLeaf l b a) := by
  have htable := (entry_absent_iff.mp absent).1
  have cases : ∀ l' b' a', (d.addLeaf l b a).leaf l' b' = some a' →
      (l' = l ∧ b' = b) ∨ d.leaf l' b' = some a' := by
    intro l' b' a' h
    simp only [Directory.addLeaf] at h
    split_ifs at h with hnew
    · exact Or.inl hnew
    · exact Or.inr h
  constructor
  · exact wf.levels
  · intro l' b' a' h
    rcases cases l' b' a' h with ⟨rfl, _⟩ | hold
    · exact le
    · exact wf.leafLevels l' b' a' hold
  · exact wf.parents
  · intro l' b' a' hlt h
    rcases cases l' b' a' h with ⟨rfl, rfl⟩ | hold
    · exact ⟨g, home_above home hlt⟩
    · exact wf.leafParents l' b' a' hlt hold
  · exact wf.apart
  · exact wf.below
  · intro l' b' f' h
    have hne : ¬ (l' = l ∧ b' = b) := by
      rintro ⟨rfl, rfl⟩
      rw [Directory.addLeaf, htable] at h
      exact absurd h (by simp)
    simp only [Directory.addLeaf, if_neg hne]
    exact wf.exclusive l' b' f' h

/-! ### In memory -/

variable [NeZero fan] {part : Nat → Prop} {decode : Nat → E → Decoded F A}
  {mem mem' : F → Fin fan → E}

/-- The entry `i` of table `g` belongs to the directory. -/
def Directory.Owns (d : Directory F A) (fan : Nat) [NeZero fan] (top : Nat) (root : F)
    (part : Nat → Prop) (g : F) (i : Fin fan) : Prop :=
  ∃ l b, l ≤ top ∧ d.home fan top root l b = some g ∧ (l = top → part b) ∧ i = Fin.ofNat fan b

theorem Holds.congr (holds : Holds fan top root part decode mem d)
    (same : ∀ g i, d.Owns fan top root part g i → mem' g i = mem g i) :
    Holds fan top root part decode mem' d := by
  intro l b f le home inPart
  rw [same f _ ⟨l, b, le, home, inPart, rfl⟩]
  exact holds l b f le home inPart

theorem eq_of_slot {b' : Nat} (high : b / fan = b' / fan)
    (slot : Fin.ofNat fan b = Fin.ofNat fan b') : b = b' := by
  have hlow : b % fan = b' % fan := congrArg Fin.val slot
  rw [← Nat.div_add_mod b fan, ← Nat.div_add_mod b' fan, high, hlow]

/-- An entry of a table is the entry of one block. -/
theorem WellFormed.home_inj (wf : WellFormed fan top root d) (small : ∀ b, part b → b < fan)
    {l' b' : Nat} (home : d.home fan top root l b = some g)
    (home' : d.home fan top root l' b' = some g) (inPart : l = top → part b)
    (inPart' : l' = top → part b') (slot : Fin.ofNat fan b = Fin.ofNat fan b') :
    l = l' ∧ b = b' := by
  rw [Directory.home] at home home'
  split_ifs at home home' with htop htop' htop'
  · refine ⟨htop.trans htop'.symm, eq_of_slot ?_ slot⟩
    rw [Nat.div_eq_of_lt (small b (inPart htop)), Nat.div_eq_of_lt (small b' (inPart' htop'))]
  · exact absurd (Option.some.inj home).symm (wf.below _ _ g home')
  · exact absurd (Option.some.inj home').symm (wf.below _ _ g home)
  · obtain ⟨hlevel, hblock⟩ := wf.apart _ _ _ _ g home home'
    exact ⟨Nat.succ.inj hlevel, eq_of_slot hblock slot⟩

/-- A new table of absent entries, and the entry that leads to it. -/
theorem Holds.addTable (holds : Holds fan top root part decode mem d)
    (wf : WellFormed fan top root d) (small : ∀ b, part b → b < fan) (pos : 0 < l) (le : l ≤ top)
    (home : d.home fan top root l b = some g) (inPart : l = top → part b)
    (absent : d.entry l b = .absent) (fresh : d.Fresh root f)
    (empty : ∀ i, decode (l - 1) (mem' f i) = .absent)
    (link : decode l (mem' g (Fin.ofNat fan b)) = .table f)
    (others : ∀ g' i, d.Owns fan top root part g' i → ¬ (g' = g ∧ i = Fin.ofNat fan b) →
      mem' g' i = mem g' i) :
    Holds fan top root part decode mem' (d.addTable l b f) := by
  obtain ⟨htable, hleaf⟩ := entry_absent_iff.mp absent
  intro l' b' f' le' home' inPart'
  have hsplit : (l' + 1 = l ∧ b' / fan = b ∧ f' = f) ∨ d.home fan top root l' b' = some f' := by
    rw [Directory.home] at home' ⊢
    split_ifs at home' ⊢ with htop
    · exact Or.inr home'
    · simp only [Directory.addTable] at home'
      split_ifs at home' with hnew
      · exact Or.inl ⟨hnew.1, hnew.2, (Option.some.inj home').symm⟩
      · exact Or.inr home'
  rcases hsplit with ⟨rfl, rfl, rfl⟩ | hhome
  · -- an entry of the new table
    have hnone : d.entry l' b' = .absent := by
      rw [entry_absent_iff]
      constructor
      · rw [Option.eq_none_iff_forall_ne_some]
        intro g' hg'
        obtain ⟨g'', hg''⟩ := wf.parents l' b' g' le hg'
        rw [htable] at hg''
        exact absurd hg'' (by simp)
      · rw [Option.eq_none_iff_forall_ne_some]
        intro a' ha'
        obtain ⟨g'', hg''⟩ := wf.leafParents l' b' a' le ha'
        rw [htable] at hg''
        exact absurd hg'' (by simp)
    have hentry : (d.addTable (l' + 1) (b' / fan) f').entry l' b' = d.entry l' b' := by
      have hne : ¬ (l' = l' + 1 ∧ b' = b' / fan) := by omega
      simp only [Directory.entry, Directory.addTable, if_neg hne]
    rw [hentry, hnone]
    exact empty _
  · by_cases hsame : f' = g ∧ Fin.ofNat fan b' = Fin.ofNat fan b
    · obtain ⟨rfl, hslot⟩ := hsame
      obtain ⟨rfl, rfl⟩ := wf.home_inj small hhome home inPart' inPart hslot
      rw [link]
      simp [Directory.entry, Directory.addTable]
    · have hne : ¬ (l' = l ∧ b' = b) := by
        rintro ⟨rfl, rfl⟩
        exact hsame ⟨Option.some.inj (hhome.symm.trans home), rfl⟩
      rw [others f' _ ⟨l', b', le', hhome, inPart', rfl⟩ hsame,
        holds l' b' f' le' hhome inPart']
      simp only [Directory.entry, Directory.addTable, if_neg hne]

/-- A new leaf. -/
theorem Holds.addLeaf (holds : Holds fan top root part decode mem d)
    (wf : WellFormed fan top root d) (small : ∀ b, part b → b < fan)
    (home : d.home fan top root l b = some g) (inPart : l = top → part b)
    (absent : d.entry l b = .absent)
    (written : decode l (mem' g (Fin.ofNat fan b)) = .leaf a)
    (others : ∀ g' i, d.Owns fan top root part g' i → ¬ (g' = g ∧ i = Fin.ofNat fan b) →
      mem' g' i = mem g' i) :
    Holds fan top root part decode mem' (d.addLeaf l b a) := by
  obtain ⟨htable, _⟩ := entry_absent_iff.mp absent
  intro l' b' f' le' (hhome : d.home fan top root l' b' = some f') inPart'
  by_cases hsame : f' = g ∧ Fin.ofNat fan b' = Fin.ofNat fan b
  · obtain ⟨rfl, hslot⟩ := hsame
    obtain ⟨rfl, rfl⟩ := wf.home_inj small hhome home inPart' inPart hslot
    rw [written]
    simp [Directory.entry, Directory.addLeaf, htable]
  · have hne : ¬ (l' = l ∧ b' = b) := by
      rintro ⟨rfl, rfl⟩
      exact hsame ⟨Option.some.inj (hhome.symm.trans home), rfl⟩
    rw [others f' _ ⟨l', b', le', hhome, inPart', rfl⟩ hsame, holds l' b' f' le' hhome inPart']
    simp only [Directory.entry, Directory.addLeaf, if_neg hne]

end Growing

/-! ## Tables that are needed -/

section Filled

variable {F : Type u} {A : Type v} {fan l k n : Nat} {f : F} {a : A} {d : Directory F A}

/-- There is a leaf below the entry of a block. -/
def Directory.Above (d : Directory F A) (fan l b : Nat) : Prop :=
  ∃ n k a, k < l ∧ n / fan ^ l = b ∧ d.leaf k (n / fan ^ k) = some a

/-- Every table has a leaf below it, but for those above level `k` on the way of page `n`. -/
def Directory.FilledBut (d : Directory F A) (fan n k : Nat) : Prop :=
  ∀ l b f, d.table l b = some f → d.Above fan l b ∨ k < l ∧ b = n / fan ^ l

def Directory.Filled (d : Directory F A) (fan : Nat) : Prop :=
  ∀ l b f, d.table l b = some f → d.Above fan l b

theorem Directory.Filled.but (h : d.Filled fan) (n k : Nat) : d.FilledBut fan n k :=
  fun l b f hf => Or.inl (h l b f hf)

theorem Directory.FilledBut.addTable (h : d.FilledBut fan n k) (lt : k < l) :
    (d.addTable l (n / fan ^ l) f).FilledBut fan n k := by
  intro l' b' f' hf'
  simp only [Directory.addTable] at hf'
  split_ifs at hf' with hnew
  · obtain ⟨rfl, rfl⟩ := hnew
    exact Or.inr ⟨lt, rfl⟩
  · exact h l' b' f' hf'

/-- The leaf that the tables on the way were made for. -/
theorem Directory.FilledBut.addLeaf (h : d.FilledBut fan n k) :
    (d.addLeaf k (n / fan ^ k) a).Filled fan := by
  intro l b f hf
  rcases h l b f hf with ⟨m, j, a', hlt, hm, hleaf⟩ | ⟨hlt, rfl⟩
  · refine ⟨m, j, ?_⟩
    by_cases hnew : j = k ∧ m / fan ^ j = n / fan ^ k
    · exact ⟨a, hlt, hm, if_pos hnew⟩
    · exact ⟨a', hlt, hm, (if_neg hnew).trans hleaf⟩
  · exact ⟨n, k, a, hlt, rfl, if_pos ⟨rfl, rfl⟩⟩

/-- A block without a leaf for one of its pages has no table. -/
theorem Directory.Filled.table_none (h : d.Filled fan)
    (free : ∀ m, m / fan ^ l = n / fan ^ l → ∀ k a, d.leaf k (m / fan ^ k) ≠ some a) :
    d.table l (n / fan ^ l) = none := by
  rw [Option.eq_none_iff_forall_ne_some]
  intro f hf
  obtain ⟨m, k, a, _, hm, hleaf⟩ := h l _ f hf
  exact free m hm k a hleaf

end Filled

end Directories
