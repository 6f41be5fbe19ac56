import AnosKernel.Lib.Continuations
import Mathlib.Algebra.BigOperators.Group.Finset.Basic
import Mathlib.Algebra.Order.BigOperators.Group.Finset
import Mathlib.Data.Fintype.Basic
import Mathlib.Data.Set.Basic

/-!
# The locks of the run queues

Every CPU has a lock for its run queues. The timer interrupt of a CPU takes the CPU's own lock,
and `check_sleepers`, which runs under it, takes the lock of another CPU for each task to wake
whose target is not this CPU. System calls and `ipc_channel_destroy` take the lock of the target
alone. The target is any CPU here: it depends on the lengths of the queues, which are not.

Two CPUs that wake a task on each other wait for each other's lock.
-/

namespace SchedLocks

open Runs

universe u

/-- How far a CPU is; `n` is the number of tasks that `check_sleepers` has still to wake. -/
inductive Place (C : Type u)
  | idle
  | waitOwn (n : Nat)
  | owns (n : Nat)
  | waitOther (target : C) (n : Nat)
  | holdsOther (target : C) (n : Nat)
  | waitAny (target : C)
  | holdsAny (target : C)
  deriving DecidableEq

structure State (C : Type u) where
  place : C → Place C
  owner : C → Option C

/-- Whether an idle CPU has a timer interrupt, with how many tasks due, or a system call, and what
`sched_find_target_cpu` answers. -/
structure Choice (C : Type u) where
  tick : Bool
  due : Nat
  target : C

variable {C : Type u} [DecidableEq C]

def State.goto (s : State C) (c : C) (p : Place C) : State C :=
  { s with place := Function.update s.place c p }

/-- `sched_lock_any_cpu`: the lock is taken, or the CPU spins on. -/
def State.schedLockAnyCpu (s : State C) (c target : C) (p : Place C) : State C :=
  match s.owner target with
  | none => { s.goto c p with owner := Function.update s.owner target (some c) }
  | some _ => s

def State.schedUnlockAnyCpu (s : State C) (c target : C) (p : Place C) : State C :=
  { s.goto c p with owner := Function.update s.owner target none }

/-- One step of `handle_ap_timer_interrupt` or of a system call on the CPU `c`. -/
def State.step (s : State C) (c : C) (choice : Choice C) : State C :=
  match s.place c with
  | .idle => s.goto c (if choice.tick then .waitOwn choice.due else .waitAny choice.target)
  | .waitOwn n => s.schedLockAnyCpu c c (.owns n)
  | .owns 0 => s.schedUnlockAnyCpu c c .idle
  | .owns (n + 1) =>
    s.goto c (if choice.target = c then .owns n else .waitOther choice.target n)
  | .waitOther t n => s.schedLockAnyCpu c t (.holdsOther t n)
  | .holdsOther t n => s.schedUnlockAnyCpu c t (.owns n)
  | .waitAny t => s.schedLockAnyCpu c t (.holdsAny t)
  | .holdsAny t => s.schedUnlockAnyCpu c t .idle

def ticks : System (State C) (C × Choice C) :=
  System.ofExec (fun s => ∀ c, s.place c = .idle ∧ s.owner c = none) (fun _ _ => True)
    fun s a => s.step a.1 a.2

/-- A CPU at this place has the lock of `lock`. -/
def Place.Holds (c lock : C) : Place C → Prop
  | .idle | .waitOwn _ | .waitAny _ => False
  | .owns _ | .waitOther _ _ => lock = c
  | .holdsOther t _ => lock = c ∨ lock = t
  | .holdsAny t => lock = t

/-- The CPU that `check_sleepers` locks is another one. -/
def Place.Apart (c : C) : Place C → Prop
  | .waitOther t _ | .holdsOther t _ => t ≠ c
  | _ => True

structure Inv (s : State C) : Prop where
  owner : ∀ c lock, (s.place c).Holds c lock ↔ s.owner lock = some c
  apart : ∀ c, (s.place c).Apart c

/-- Some CPUs each hold their own lock and wait for that of another one of them. -/
def Deadlocked (s : State C) : Prop :=
  ∃ K : Set C, K.Nonempty ∧ ∀ c ∈ K, ∃ d ∈ K, ∃ n, s.place c = .waitOther d n

section Steps

variable {s t : State C} {c d lock : C} {p : Place C}

theorem goto_self : (s.goto c p).place c = p := Function.update_self _ _ _

theorem goto_other (h : d ≠ c) : (s.goto c p).place d = s.place d := Function.update_of_ne h _ _

theorem Inv.apart_goto (inv : Inv s) (apart : p.Apart c) : ∀ d, ((s.goto c p).place d).Apart d :=
  (Function.forall_update_iff s.place fun d p => p.Apart d).mpr ⟨apart, fun d _ => inv.apart d⟩

/-- A step that takes and frees no lock. -/
theorem Inv.goto (inv : Inv s) (same : ∀ lock, p.Holds c lock ↔ (s.place c).Holds c lock)
    (apart : p.Apart c) : Inv (s.goto c p) := by
  refine ⟨?_, inv.apart_goto apart⟩
  apply (Function.forall_update_iff s.place fun d p =>
    ∀ lock, p.Holds d lock ↔ s.owner lock = some d).mpr
  exact ⟨fun l => (same l).trans (inv.owner c l), fun d _ => inv.owner d⟩

theorem Inv.take (inv : Inv s)
    (more : ∀ l, p.Holds c l ↔ l = lock ∨ (s.place c).Holds c l) (apart : p.Apart c) :
    Inv (s.schedLockAnyCpu c lock p) := by
  unfold State.schedLockAnyCpu
  cases hfree : s.owner lock with
  | some o => exact inv
  | none =>
    refine ⟨?_, inv.apart_goto apart⟩
    apply (Function.forall_update_iff s.place fun d p =>
      ∀ l, p.Holds d l ↔ Function.update s.owner lock (some c) l = some d).mpr
    refine ⟨fun l => ?_, fun d hd l => ?_⟩
    · rw [more]
      by_cases hl : l = lock
      · subst hl
        rw [Function.update_self]
        exact ⟨fun _ => rfl, fun _ => .inl rfl⟩
      · rw [Function.update_of_ne hl, ← inv.owner c l]
        exact ⟨fun h => h.resolve_left hl, .inr⟩
    · rw [inv.owner d l]
      by_cases hl : l = lock
      · subst hl
        rw [Function.update_self, hfree]
        exact ⟨fun h => (by cases h), fun h => absurd (Option.some.inj h).symm hd⟩
      · rw [Function.update_of_ne hl]

theorem Inv.free (inv : Inv s) (had : (s.place c).Holds c lock)
    (fewer : ∀ l, p.Holds c l ↔ l ≠ lock ∧ (s.place c).Holds c l) (apart : p.Apart c) :
    Inv (s.schedUnlockAnyCpu c lock p) := by
  refine ⟨?_, inv.apart_goto apart⟩
  have howner := (inv.owner c lock).mp had
  apply (Function.forall_update_iff s.place fun d p =>
    ∀ l, p.Holds d l ↔ Function.update s.owner lock none l = some d).mpr
  refine ⟨fun l => ?_, fun d hd l => ?_⟩
  · rw [fewer]
    by_cases hl : l = lock
    · subst hl
      rw [Function.update_self]
      exact ⟨fun h => absurd rfl h.1, fun h => by cases h⟩
    · rw [Function.update_of_ne hl, ← inv.owner c l]
      exact ⟨And.right, fun h => ⟨hl, h⟩⟩
  · rw [inv.owner d l]
    by_cases hl : l = lock
    · subst hl
      rw [Function.update_self, howner]
      exact ⟨fun h => absurd (Option.some.inj h).symm hd, fun h => by cases h⟩
    · rw [Function.update_of_ne hl]

theorem Inv.step (inv : Inv s) (c : C) (choice : Choice C) : Inv (s.step c choice) := by
  have hapart := inv.apart c
  unfold State.step
  split
  case h_1 hp =>
    split_ifs
    all_goals exact inv.goto (fun l => by rw [hp]; rfl) trivial
  case h_2 n hp =>
    refine inv.take (fun l => ?_) trivial
    rw [hp]
    exact ⟨.inl, fun h => h.resolve_right id⟩
  case h_3 hp =>
    refine inv.free (by rw [hp]; rfl) (fun l => ?_) trivial
    rw [hp]
    exact ⟨False.elim, fun h => h.1 h.2⟩
  case h_4 n hp =>
    split_ifs with ht
    · exact inv.goto (fun l => by rw [hp]; rfl) trivial
    · exact inv.goto (fun l => by rw [hp]; rfl) ht
  case h_5 t n hp =>
    rw [hp] at hapart
    refine inv.take (fun l => ?_) hapart
    rw [hp]
    exact or_comm
  case h_6 t n hp =>
    rw [hp] at hapart
    refine inv.free (by rw [hp]; exact .inr rfl) (fun l => ?_) trivial
    rw [hp]
    constructor
    · intro h
      have hl : l = c := h
      refine ⟨?_, .inl hl⟩
      rw [hl]
      exact Ne.symm hapart
    · exact fun h => h.2.resolve_right h.1
  case h_7 t hp =>
    refine inv.take (fun l => ?_) trivial
    rw [hp]
    exact ⟨.inl, fun h => h.resolve_right id⟩
  case h_8 t hp =>
    refine inv.free (by rw [hp]; rfl) (fun l => ?_) trivial
    rw [hp]
    exact ⟨False.elim, fun h => h.1 h.2⟩

theorem inv_reachable (h : Reachable ticks s) : Inv s := by
  apply h.invariant Inv
  · intro s hs
    refine ⟨fun c lock => ?_, fun c => ?_⟩
    · rw [(hs c).1, (hs lock).2]
      exact ⟨False.elim, fun h => by cases h⟩
    · rw [(hs c).1]
      trivial
  · rintro s ⟨c, choice⟩ t inv ⟨-, rfl⟩
    exact inv.step c choice

/-- A step of one CPU leaves the places of the others. -/
theorem step_other (h : d ≠ c) (choice : Choice C) : (s.step c choice).place d = s.place d := by
  have htake : ∀ l p, (s.schedLockAnyCpu c l p).place d = s.place d := by
    intro l p
    unfold State.schedLockAnyCpu
    cases s.owner l with
    | none => exact goto_other h
    | some o => rfl
  unfold State.step
  split
  case h_2 => exact htake _ _
  case h_5 => exact htake _ _
  case h_7 => exact htake _ _
  all_goals exact goto_other h

/-- The CPUs of a deadlock do not move again. -/
theorem deadlock_stays {K : Set C} (inv : Inv s)
    (waits : ∀ c ∈ K, ∃ d ∈ K, ∃ n, s.place c = .waitOther d n)
    (h : Reachable (ticks.from s) t) : ∀ c ∈ K, t.place c = s.place c := by
  have hboth : Inv t ∧ ∀ c ∈ K, t.place c = s.place c := by
    apply h.always (fun t => Inv t ∧ ∀ c ∈ K, t.place c = s.place c) ⟨inv, fun _ _ => rfl⟩
    rintro t ⟨e, choice⟩ t' ⟨hinv, hsame⟩ ⟨-, rfl⟩
    refine ⟨hinv.step e choice, fun c hc => ?_⟩
    by_cases hce : c = e
    · subst hce
      obtain ⟨d, hd, n, hplace⟩ := waits c hc
      obtain ⟨d', -, n', hplace'⟩ := waits d hd
      rw [← hsame c hc] at hplace
      rw [← hsame d hd] at hplace'
      -- the lock that it waits for is the other's own
      have howner : t.owner d = some d := by
        apply (hinv.owner d d).mp
        rw [hplace']
        rfl
      have hstep : t.step c choice = t := by
        simp only [State.step, hplace, State.schedLockAnyCpu, howner]
      show (t.step c choice).place c = s.place c
      rw [hstep]
      exact hsame c hc
    · show (t.step e choice).place c = s.place c
      rw [step_other hce]
      exact hsame c hc
  exact hboth.2

/-- The steps that are left to a CPU that wakes every task on itself. -/
def Place.left : Place C → Nat
  | .idle => 0
  | .owns n => n + 1
  | .waitOwn n => n + 2
  | .holdsOther _ n => n + 2
  | .waitOther _ n => n + 3
  | .holdsAny _ => 1
  | .waitAny _ => 2

/-- Where the CPU waits for a lock, and which. -/
def Place.waitsFor (c : C) : Place C → Option C
  | .waitOwn _ => some c
  | .waitOther t _ => some t
  | .waitAny t => some t
  | _ => none

/-- A CPU whose lock is free, or that waits for none, gets on. -/
theorem step_left (busy : s.place c ≠ .idle)
    (free : ∀ l, (s.place c).waitsFor c = some l → s.owner l = none) :
    ((s.step c ⟨false, 0, c⟩).place c).left < (s.place c).left ∧
      ∀ t n, (s.step c ⟨false, 0, c⟩).place c ≠ .waitOther t n := by
  unfold State.step
  cases hp : s.place c
  case idle => exact absurd hp busy
  case owns n =>
    cases n
    all_goals
      simp only [State.schedUnlockAnyCpu, goto_self, if_pos]
      exact ⟨Nat.lt_succ_self _, fun t n h => by cases h⟩
  case holdsOther t n =>
    simp only [State.schedUnlockAnyCpu, goto_self]
    exact ⟨Nat.lt_succ_self _, fun t n h => by cases h⟩
  case holdsAny t =>
    simp only [State.schedUnlockAnyCpu, goto_self]
    exact ⟨Nat.lt_succ_self _, fun t n h => by cases h⟩
  all_goals
    have hfree := free _ (by rw [hp]; rfl)
    simp only [State.schedLockAnyCpu, hfree, goto_self]
    exact ⟨Nat.lt_succ_self _, fun t n h => by cases h⟩

omit [DecidableEq C] in
/-- If no CPU gets on, those that hold a lock and wait for another are deadlocked. -/
theorem exists_free (inv : Inv s) (live : ¬ Deadlocked s) (busy : ∃ c, s.place c ≠ .idle) :
    ∃ c, s.place c ≠ .idle ∧ ∀ l, (s.place c).waitsFor c = some l → s.owner l = none := by
  by_contra hall
  have hwait : ∀ c, s.place c ≠ .idle →
      ∃ l d, (s.place c).waitsFor c = some l ∧ s.owner l = some d := by
    intro c hc
    by_contra hnone
    apply hall
    refine ⟨c, hc, fun l hl => ?_⟩
    cases hown : s.owner l with
    | none => rfl
    | some d => exact absurd ⟨l, d, hl, hown⟩ hnone
  -- who holds a lock and waits waits for the lock of another, and holds its own
  have hholder : ∀ l d, s.owner l = some d → d = l ∧ ∃ t n, s.place d = .waitOther t n := by
    intro l d hown
    have hholds := (inv.owner d l).mpr hown
    have hbusy : s.place d ≠ .idle := by
      intro hidle
      rw [hidle] at hholds
      exact hholds
    obtain ⟨l', -, hl', -⟩ := hwait d hbusy
    cases hp : s.place d with
    | waitOther t n =>
      rw [hp] at hholds
      exact ⟨Eq.symm hholds, t, n, rfl⟩
    | waitOwn n =>
      rw [hp] at hholds
      exact hholds.elim
    | waitAny t =>
      rw [hp] at hholds
      exact hholds.elim
    | _ =>
      rw [hp] at hl'
      cases hl'
  apply live
  refine ⟨{ c | ∃ t n, s.place c = .waitOther t n }, ?_, ?_⟩
  · obtain ⟨c, hc⟩ := busy
    obtain ⟨l, d, -, hown⟩ := hwait c hc
    exact ⟨d, (hholder l d hown).2⟩
  · rintro c ⟨t, n, hp⟩
    obtain ⟨l, d, hl, hown⟩ := hwait c (by rw [hp]; exact fun h => by cases h)
    have hlt : t = l := by
      rw [hp] at hl
      exact Option.some.inj hl
    obtain ⟨hdl, hplace⟩ := hholder l d hown
    refine ⟨t, ?_, n, hp⟩
    rw [hlt, ← hdl]
    exact hplace

theorem not_deadlocked_step (live : ¬ Deadlocked s) {choice : Choice C}
    (notWait : ∀ t n, (s.step c choice).place c ≠ .waitOther t n) :
    ¬ Deadlocked (s.step c choice) := by
  rintro ⟨K, hne, hK⟩
  apply live
  refine ⟨K, hne, fun d hd => ?_⟩
  obtain ⟨e, he, n, hp⟩ := hK d hd
  have hdc : d ≠ c := by
    rintro rfl
    exact notWait e n hp
  rw [step_other hdc] at hp
  exact ⟨e, he, n, hp⟩

variable [Fintype C]

theorem finishes (k : Nat) : ∀ s : State C, Inv s → ¬ Deadlocked s →
    ∑ c, (s.place c).left = k → ∃ t, Reachable (ticks.from s) t ∧ ∀ c, t.place c = .idle := by
  induction k using Nat.strongRecOn with
  | ind k ih =>
    intro s inv live hsum
    by_cases busy : ∃ c, s.place c ≠ .idle
    · obtain ⟨c, hc, free⟩ := exists_free inv live busy
      obtain ⟨hless, hwait⟩ := step_left hc free
      let s' := s.step c ⟨false, 0, c⟩
      have hlt : ∑ d, (s'.place d).left < k := by
        rw [← hsum]
        apply Finset.sum_lt_sum
        · intro d _
          by_cases hd : d = c
          · subst hd
            exact Nat.le_of_lt hless
          · rw [show s'.place d = s.place d from step_other hd _]
        · exact ⟨c, Finset.mem_univ c, hless⟩
      obtain ⟨t, ht, hidle⟩ := ih _ hlt s' (inv.step c _) (not_deadlocked_step live hwait) rfl
      have hnext : Reachable (ticks.from s) s' :=
        .next (a := (c, ⟨false, 0, c⟩)) (.start rfl) ⟨trivial, rfl⟩
      exact ⟨t, hnext.trans ht, hidle⟩
    · simp only [not_exists, not_not] at busy
      exact ⟨s, .start rfl, busy⟩

end Steps

section Example

def idle : State Bool where
  place _ := .idle
  owner _ := none

def moves (c : Bool) : List (Bool × Choice Bool) :=
  List.replicate 3 (c, { tick := true, due := 1, target := !c })

/-- Two timer interrupts, each with a task to wake on the other CPU. -/
def crossed : State Bool := (moves true ++ moves false).foldl (fun s a => s.step a.1 a.2) idle

theorem crossed_reachable : Reachable ticks crossed := by
  apply Reachable.exec
  exact .start fun c => ⟨rfl, rfl⟩

end Example

end SchedLocks
