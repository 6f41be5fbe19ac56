import Mathlib.Data.List.Induction

/-!
# Runs of steps that may be refused

Often a small part of the state decides whether a step is possible, and what becomes of that part.
`Tracks` says so; a run is then possible just if each step is allowed when its turn comes, and
`Allowed` is about the small part alone. `along_iff` is about all states on the way.
-/

namespace Checked

universe u v w
variable {σ : Type u} {α : Type v} {κ : Type w}

/-- In states with the invariant, the part `part s` decides about a step. -/
structure Tracks (step : σ → α → Option σ) (inv : σ → Prop) (part : σ → κ)
    (fine : κ → α → Prop) (next : κ → α → κ) : Prop where
  possible : ∀ s a, inv s → fine (part s) a → ∃ s', step s a = some s'
  effect : ∀ s a s', inv s → step s a = some s' →
    fine (part s) a ∧ inv s' ∧ part s' = next (part s) a

def Allowed (fine : κ → α → Prop) (next : κ → α → κ) : κ → List α → Prop
  | _, [] => True
  | k, a :: rest => fine k a ∧ Allowed fine next (next k a) rest

variable {step : σ → α → Option σ} {inv : σ → Prop} {part : σ → κ} {fine : κ → α → Prop}
  {next : κ → α → κ} {s s' : σ} {k : κ} {as bs : List α}

theorem allowed_append : Allowed fine next k (as ++ bs) ↔
    Allowed fine next k as ∧ Allowed fine next (as.foldl next k) bs := by
  induction as generalizing k with
  | nil => exact (and_iff_right trivial).symm
  | cons a as ih =>
    rw [List.cons_append, Allowed, Allowed, ih, List.foldl_cons, and_assoc]

/-- What a step keeps and what makes the next one possible makes every run possible. -/
theorem allowed_of_invariant {good : κ → Prop} (kept : ∀ k a, good k → fine k a ∧ good (next k a))
    (start : good k) : Allowed fine next k as := by
  induction as generalizing k with
  | nil => exact trivial
  | cons a as ih => exact ⟨(kept k a start).1, ih (kept k a start).2⟩

/-- Where nothing is tracked, each step has to be possible by itself. -/
theorem allowed_unit {fine : Unit → α → Prop} {next : Unit → α → Unit} :
    Allowed fine next () as ↔ ∀ a ∈ as, fine () a := by
  induction as with
  | nil => exact iff_of_true trivial fun a hmem => absurd hmem List.not_mem_nil
  | cons a as ih =>
    rw [Allowed, List.forall_mem_cons]
    exact and_congr_right fun _ => ih

theorem Tracks.run_possible (tracks : Tracks step inv part fine next) (start : inv s)
    (allowed : Allowed fine next (part s) as) : ∃ s', as.foldlM step s = some s' := by
  induction as generalizing s with
  | nil => exact ⟨s, rfl⟩
  | cons a as ih =>
    obtain ⟨s₁, hstep⟩ := tracks.possible s a start allowed.1
    obtain ⟨-, hinv, hpart⟩ := tracks.effect s a s₁ start hstep
    obtain ⟨s', hrun⟩ := ih hinv (by rw [hpart]; exact allowed.2)
    refine ⟨s', ?_⟩
    rw [List.foldlM_cons, hstep]
    exact hrun

theorem Tracks.run_effect (tracks : Tracks step inv part fine next) (start : inv s)
    (run : as.foldlM step s = some s') :
    Allowed fine next (part s) as ∧ inv s' ∧ part s' = as.foldl next (part s) := by
  induction as generalizing s with
  | nil =>
    cases run
    exact ⟨trivial, start, rfl⟩
  | cons a as ih =>
    rw [List.foldlM_cons] at run
    obtain ⟨s₁, hstep, hrest⟩ := Option.bind_eq_some_iff.mp run
    obtain ⟨hfine, hinv, hpart⟩ := tracks.effect s a s₁ start hstep
    obtain ⟨hallowed, hinv', hpart'⟩ := ih hinv hrest
    rw [hpart] at hallowed hpart'
    exact ⟨⟨hfine, hallowed⟩, hinv', hpart'⟩

/-- A run is possible just if every step of it is allowed. -/
theorem Tracks.run_iff (tracks : Tracks step inv part fine next) (start : inv s) :
    (∃ s', as.foldlM step s = some s') ↔ Allowed fine next (part s) as := by
  constructor
  · rintro ⟨s', hrun⟩
    exact (tracks.run_effect start hrun).1
  · exact tracks.run_possible start

/-- What holds at first holds all along, if each step that keeps it is one that may be taken, and
the other way round. -/
theorem along_iff {holds : List α → Prop} {may : List α → α → Prop} (start : holds [])
    (step_iff : ∀ done a, holds done → (holds (done ++ [a]) ↔ may done a)) :
    (∀ done, done <+: as → holds done) ↔ ∀ done a, done ++ [a] <+: as → may done a := by
  constructor
  · intro hall done a hprefix
    exact (step_iff done a (hall done ((List.prefix_append done [a]).trans hprefix))).mp
      (hall _ hprefix)
  · intro hmay done
    induction done using List.reverseRecOn with
    | nil => exact fun _ => start
    | append_singleton done a ih =>
      intro hprefix
      have hdone := ih ((List.prefix_append done [a]).trans hprefix)
      exact (step_iff done a hdone).mpr (hmay done a hprefix)

/-! ## A step for each element -/

theorem mapM_eq_some {β : Type w} {f : α → Option β} {l : List α} {r : List β} :
    l.mapM f = some r ↔ l.map f = r.map some := by
  induction l generalizing r with
  | nil =>
    rw [List.mapM_nil, List.map_nil]
    constructor
    · intro h
      cases h
      rfl
    · intro h
      rw [List.map_eq_nil_iff.mp h.symm]
      rfl
  | cons x l ih =>
    rw [List.mapM_cons, List.map_cons]
    constructor
    · intro h
      obtain ⟨y, hy, h⟩ := Option.bind_eq_some_iff.mp h
      obtain ⟨ys, hys, h⟩ := Option.bind_eq_some_iff.mp h
      cases h
      rw [List.map_cons, hy, ih.mp hys]
    · intro h
      rcases r with _ | ⟨y, r⟩
      · cases h
      rw [List.map_cons, List.cons.injEq] at h
      rw [h.1, ih.mpr h.2]
      rfl

theorem mapM_isSome {β : Type w} {f : α → Option β} {l : List α} :
    (l.mapM f).isSome ↔ ∀ x ∈ l, (f x).isSome := by
  induction l with
  | nil => exact iff_of_true rfl fun x hmem => absurd hmem List.not_mem_nil
  | cons x l ih =>
    rw [List.mapM_cons, List.forall_mem_cons, ← ih]
    cases f x with
    | none => exact iff_of_false Bool.false_ne_true fun h => absurd h.1 Bool.false_ne_true
    | some y =>
      cases l.mapM f with
      | none => exact iff_of_false Bool.false_ne_true fun h => absurd h.2 Bool.false_ne_true
      | some ys => exact iff_of_true rfl ⟨rfl, rfl⟩

end Checked
