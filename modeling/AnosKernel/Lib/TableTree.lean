import Mathlib.Logic.Basic
import Mathlib.Logic.Function.Basic

/-!
# Trees of tables in memory

A table is an array of entries, and `down` reads the table an entry points to, if it points to
one. A table with `n` levels below it is a tree when following entries never arrives at the
same table along two ways. What is under one entry can then be rebuilt without touching what
is under the others.
-/

namespace TableTree

universe u v w
variable {F : Type u} {I : Type v} {E : Type w} {down : E → Option F} {mem mem' : F → I → E}

/-- The tables met from `t` on, `n` levels down. -/
def Member (down : E → Option F) (mem : F → I → E) : Nat → F → F → Prop
  | 0, t, f => f = t
  | n + 1, t, f => f = t ∨ ∃ i c, down (mem t i) = some c ∧ Member down mem n c f

def Tree (down : E → Option F) (mem : F → I → E) : Nat → F → Prop
  | 0, _ => True
  | n + 1, t =>
    (∀ i c, down (mem t i) = some c → Tree down mem n c ∧ ¬ Member down mem n c t) ∧
      ∀ i j c d, i ≠ j → down (mem t i) = some c → down (mem t j) = some d →
        ∀ f, Member down mem n c f → ¬ Member down mem n d f

theorem member_self (n : Nat) (t : F) : Member down mem n t t := by
  cases n with
  | zero => rfl
  | succ n => exact Or.inl rfl

theorem Member.child {n : Nat} {t c f : F} {i : I} (hc : down (mem t i) = some c)
    (h : Member down mem n c f) : Member down mem (n + 1) t f :=
  Or.inr ⟨i, c, hc, h⟩

theorem member_congr {n : Nat} {t : F} (same : ∀ f, Member down mem n t f → mem' f = mem f) (f : F) :
    Member down mem' n t f ↔ Member down mem n t f := by
  induction n generalizing t with
  | zero => rfl
  | succ n ih =>
    have ht : mem' t = mem t := same t (member_self _ _)
    simp only [Member, ht]
    constructor
    · rintro (rfl | ⟨i, c, hc, h⟩)
      · exact Or.inl rfl
      · exact Or.inr ⟨i, c, hc, (ih (fun g hg => same g (hg.child hc))).mp h⟩
    · rintro (rfl | ⟨i, c, hc, h⟩)
      · exact Or.inl rfl
      · exact Or.inr ⟨i, c, hc, (ih (fun g hg => same g (hg.child hc))).mpr h⟩

/-- A tree is still a tree after writes to tables that are not in it. -/
theorem Tree.congr {n : Nat} {t : F} (h : Tree down mem n t)
    (same : ∀ f, Member down mem n t f → mem' f = mem f) : Tree down mem' n t := by
  induction n generalizing t with
  | zero => trivial
  | succ n ih =>
    have ht : mem' t = mem t := same t (member_self _ _)
    have hsub : ∀ i c, down (mem t i) = some c → ∀ f, Member down mem n c f → mem' f = mem f :=
      fun i c hc f hf => same f (hf.child hc)
    refine ⟨?_, ?_⟩
    · intro i c hc
      rw [ht] at hc
      rw [member_congr (hsub i c hc)]
      exact ⟨ih (h.1 i c hc).1 (hsub i c hc), (h.1 i c hc).2⟩
    · intro i j c d hij hc hd f hf
      rw [ht] at hc hd
      rw [member_congr (hsub i c hc)] at hf
      rw [member_congr (hsub j d hd)]
      exact h.2 i j c d hij hc hd f hf

section Graft

variable {n : Nat} {t c : F} {i : I}

/-- The tables under one entry of `t` were rebuilt, and the entry now points to `c`. What is
under the other entries is as it was, and apart from the tables under `c`. -/
structure Graft (down : E → Option F) (mem mem' : F → I → E) (n : Nat) (t : F) (i : I) (c : F) :
    Prop where
  others : ∀ j ≠ i, mem' t j = mem t j
  link : down (mem' t i) = some c
  subtree : Tree down mem' n c
  above : ¬ Member down mem' n c t
  same : ∀ j ≠ i, ∀ d, down (mem t j) = some d → ∀ f, Member down mem n d f → mem' f = mem f
  apart : ∀ j ≠ i, ∀ d, down (mem t j) = some d → ∀ f, Member down mem n d f →
    ¬ Member down mem' n c f

theorem Graft.member (g : Graft down mem mem' n t i c) (f : F)
    (h : Member down mem' (n + 1) t f) : Member down mem' n c f ∨ Member down mem (n + 1) t f := by
  rcases h with rfl | ⟨j, d, hd, h⟩
  · exact Or.inr (member_self _ _)
  · by_cases hj : j = i
    · subst hj
      obtain rfl := Option.some.inj (g.link.symm.trans hd)
      exact Or.inl h
    · rw [g.others j hj] at hd
      exact Or.inr (((member_congr (g.same j hj d hd) f).mp h).child hd)

theorem Graft.tree (g : Graft down mem mem' n t i c) (h : Tree down mem (n + 1) t) :
    Tree down mem' (n + 1) t := by
  -- the child under an entry other than `i`, as it was before
  have other : ∀ j d, j ≠ i → down (mem' t j) = some d →
      down (mem t j) = some d ∧ ∀ f, Member down mem' n d f ↔ Member down mem n d f := by
    intro j d hj hd
    rw [g.others j hj] at hd
    exact ⟨hd, member_congr (g.same j hj d hd)⟩
  have grafted : ∀ d, down (mem' t i) = some d → d = c :=
    fun d hd => Option.some.inj (hd.symm.trans g.link)
  refine ⟨?_, ?_⟩
  · intro j d hd
    by_cases hj : j = i
    · subst hj
      obtain rfl := grafted d hd
      exact ⟨g.subtree, g.above⟩
    · obtain ⟨hold, hmem⟩ := other j d hj hd
      rw [hmem]
      exact ⟨(h.1 j d hold).1.congr (g.same j hj d hold), (h.1 j d hold).2⟩
  · intro j l d e hjl hd he f hfd hfe
    by_cases hj : j = i
    · subst hj
      obtain rfl := grafted d hd
      obtain ⟨hold, hmem⟩ := other l e hjl.symm he
      exact g.apart l hjl.symm e hold f ((hmem f).mp hfe) hfd
    · obtain ⟨hold, hmem⟩ := other j d hj hd
      by_cases hl : l = i
      · subst hl
        obtain rfl := grafted e he
        exact g.apart j hj d hold f ((hmem f).mp hfd) hfe
      · obtain ⟨hold', hmem'⟩ := other l e hl he
        exact h.2 j l d e hjl hold hold' f ((hmem f).mp hfd) ((hmem' f).mp hfe)

end Graft

end TableTree
