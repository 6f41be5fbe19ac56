import AnosKernel.Lib.Continuations
import AnosKernel.Lib.Owners
import Mathlib.Tactic.SplitIfs

/-!
# Spinlocks on riscv64

`kernel/arch/riscv64/spinlock.S`, one access to memory or to `sstatus` a step, by any number of
harts. `lr.d` reserves the lock's word for the hart. `sc.d` stores only while the reservation
lasts, may fail for no reason, and ends it; another hart's store to the word ends it too.

The routines order no accesses but those to the word itself, so what the lock protects is not
here.
-/

namespace SpinLocksRiscV

open Owners Runs

universe u

/-- `csrrci t0, sstatus, 2`. -/
def clearSie (sstatus : BitVec 64) : BitVec 64 := sstatus &&& ~~~2

/-- The next instruction. `saved` is what `csrrci` has read, and `none` in `spinlock_lock`, which
is otherwise the same; `t` is what the instruction before a branch has left in its register. -/
inductive Pc
  | outside
  | csrrci
  | lr (saved : Option (BitVec 64))
  | bnezLr (saved : Option (BitVec 64)) (t : BitVec 64)
  | sc (saved : Option (BitVec 64))
  | bnezSc (saved : Option (BitVec 64)) (t : BitVec 64)
  | pause (saved : Option (BitVec 64))
  | held (saved : Option (BitVec 64))
  | csrw (a1 : BitVec 64)
  deriving DecidableEq

structure Hart where
  pc : Pc
  sstatus : BitVec 64
  deriving DecidableEq

structure Machine (C : Type u) where
  word : BitVec 64
  reserved : C → Bool
  hart : C → Hart

/-- What a step leaves open: the routine that a hart outside calls, and whether `sc.d` fails
although it has its reservation. -/
structure Choice where
  irqsave : Bool
  fails : Bool

variable {C : Type u} [DecidableEq C]

def Machine.set (m : Machine C) (c : C) (h : Hart) : Machine C :=
  { m with hart := Function.update m.hart c h }

def Machine.goto (m : Machine C) (c : C) (pc : Pc) : Machine C :=
  m.set c { m.hart c with pc := pc }

/-- A store to the word. -/
def Machine.write (m : Machine C) (word : BitVec 64) : Machine C :=
  { m with word := word, reserved := fun _ => false }

def Machine.step (m : Machine C) (c : C) (choice : Choice) : Machine C :=
  match (m.hart c).pc with
  | .outside => m.goto c (if choice.irqsave then .csrrci else .lr none)
  | .csrrci =>
    m.set c { pc := .lr (some (m.hart c).sstatus), sstatus := clearSie (m.hart c).sstatus }
  | .lr saved =>
    { m.goto c (.bnezLr saved m.word) with reserved := Function.update m.reserved c true }
  | .bnezLr saved t => m.goto c (if t = 0 then .sc saved else .pause saved)
  | .sc saved =>
    if m.reserved c && !choice.fails then (m.goto c (.bnezSc saved 0)).write 1
    else { m.goto c (.bnezSc saved 1) with reserved := Function.update m.reserved c false }
  | .bnezSc saved t => m.goto c (if t = 0 then .held saved else .lr saved)
  | .pause saved => m.goto c (.lr saved)
  | .held saved =>
    match saved with
    | none => (m.goto c .outside).write 0
    | some a1 => (m.goto c (.csrw a1)).write 0
  | .csrw a1 => m.set c { pc := .outside, sstatus := a1 }

/-- After `spinlock_init`, with every hart outside and its `sstatus` as `home` has it. -/
def Machine.Starts (home : C → BitVec 64) (m : Machine C) : Prop :=
  m.word = 0 ∧ ∀ c, (m.hart c).pc = .outside ∧ (m.hart c).sstatus = home c

def spinlocks (home : C → BitVec 64) : System (Machine C) (C × Choice) :=
  System.ofExec (Machine.Starts home) (fun _ _ => True) fun m a => m.step a.1 a.2

/-- The lock is a hart's from the `sc.d` that succeeds to the `sd` of the unlock. -/
def Hart.inside (h : Hart) : Prop :=
  match h.pc with
  | .bnezSc _ t => t = 0
  | .held _ => True
  | _ => False

/-- The `sstatus` that the routine has saved, from `csrrci` to `csrw`. -/
def Pc.saved : Pc → Option (BitVec 64)
  | .lr saved | .bnezLr saved _ | .sc saved | .bnezSc saved _ | .pause saved | .held saved => saved
  | .csrw a1 => some a1
  | .outside | .csrrci => none

/-- The `sstatus` of a hart that came with `home`. -/
def Hart.Proper (home : BitVec 64) (h : Hart) : Prop :=
  match h.pc.saved with
  | none => h.sstatus = home
  | some saved => h.sstatus = clearSie home ∧ saved = home

/-- The hart has read the word as zero and is about to store to it. -/
def Hart.sawFree (h : Hart) : Prop :=
  match h.pc with
  | .bnezLr _ t => t = 0
  | .sc _ => True
  | _ => False

/-- `owner` is inside and nobody else, the word says whether there is one, and a hart that still
has its reservation has read what is still there. -/
structure Inv (m : Machine C) (owner : Option C) : Prop where
  owned : Owned Hart.inside m.hart owner
  word : m.word = if owner.isSome then 1 else 0
  free : ∀ c, (m.hart c).sawFree → m.reserved c = true → m.word = 0

section Runs

variable {home : C → BitVec 64} {m : Machine C} {owner : Option C} {c d : C}

theorem not_inside {h : Hart} {pc : Pc} (hpc : h.pc = pc)
    (hout : ¬ Hart.inside ⟨pc, h.sstatus⟩) : ¬ h.inside := by
  subst hpc
  exact hout

/-- A step that leaves the word as it is. -/
theorem Inv.set (inv : Inv m owner) {h : Hart} (reserved : C → Bool)
    (same : h.inside ↔ (m.hart c).inside)
    (saw : h.sawFree → reserved c = true → m.word = 0)
    (others : ∀ d, d ≠ c → reserved d = true → m.reserved d = true) :
    Inv { m.set c h with reserved := reserved } owner := by
  refine ⟨inv.owned.stay same, inv.word, ?_⟩
  apply (Function.forall_update_iff m.hart fun d h =>
    h.sawFree → reserved d = true → m.word = 0).mpr
  exact ⟨saw, fun d hd hsaw hres => inv.free d hsaw (others d hd hres)⟩

omit [DecidableEq C] in
/-- A step that stores to the word ends every reservation. -/
theorem Inv.write {word : BitVec 64} (owned : Owned Hart.inside m.hart owner)
    (hword : word = if owner.isSome then 1 else 0) : Inv (m.write word) owner :=
  ⟨owned, hword, fun d _ hres => by cases hres⟩

theorem Inv.sc (inv : Inv m owner) {saved : Option (BitVec 64)} (choice : Choice)
    (hpc : (m.hart c).pc = .sc saved) : ∃ owner', Inv (m.step c choice) owner' := by
  have hout : ¬ (m.hart c).inside := not_inside hpc id
  unfold Machine.step
  simp only [hpc]
  split_ifs with hstored
  · have hres : m.reserved c = true := (Bool.and_eq_true_iff.mp hstored).1
    have hfree : m.word = 0 := by
      apply inv.free c _ hres
      unfold Hart.sawFree
      rw [hpc]
      trivial
    have hnone : owner = none := by
      cases owner with
      | none => rfl
      | some o =>
        rw [inv.word] at hfree
        cases hfree
    subst hnone
    refine ⟨some c, Inv.write (inv.owned.enter ?_) rfl⟩
    show (0 : BitVec 64) = 0
    rfl
  · refine ⟨owner, inv.set _ ⟨fun hin => ?_, fun hin => absurd hin hout⟩ False.elim ?_⟩
    · cases show (1 : BitVec 64) = 0 from hin
    · intro d hd hres
      rwa [Function.update_of_ne hd] at hres

theorem Inv.held (inv : Inv m owner) {saved : Option (BitVec 64)} (choice : Choice)
    (hpc : (m.hart c).pc = .held saved) : Inv (m.step c choice) none := by
  have hin : (m.hart c).inside := by
    unfold Hart.inside
    rw [hpc]
    trivial
  unfold Machine.step
  simp only [hpc]
  cases saved with
  | none => exact Inv.write (inv.owned.leave hin id) rfl
  | some a1 => exact Inv.write (inv.owned.leave hin id) rfl

/-- A step from a place outside to a place outside, where nothing has been read. -/
theorem Inv.outside (inv : Inv m owner) {h : Hart} (before : ¬ (m.hart c).inside)
    (after : ¬ h.inside) (saw : ¬ h.sawFree) : Inv (m.set c h) owner :=
  inv.set m.reserved ⟨fun hin => absurd hin after, fun hin => absurd hin before⟩
    (fun hsaw => absurd hsaw saw) fun _ _ hres => hres

theorem Inv.step (inv : Inv m owner) (c : C) (choice : Choice) :
    ∃ owner', Inv (m.step c choice) owner' := by
  cases hpc : (m.hart c).pc
  case sc saved => exact inv.sc choice hpc
  case held saved => exact ⟨none, inv.held choice hpc⟩
  case bnezSc saved t =>
    have hin : (m.hart c).inside ↔ t = 0 := by
      unfold Hart.inside
      rw [hpc]
    unfold Machine.step
    simp only [hpc]
    split_ifs with ht
    · exact ⟨owner, inv.set m.reserved ⟨fun _ => hin.mpr ht, fun _ => trivial⟩ False.elim
        fun _ _ hres => hres⟩
    · exact ⟨owner, inv.outside (fun h => ht (hin.mp h)) id id⟩
  all_goals
    have hout : ¬ (m.hart c).inside := not_inside hpc id
    unfold Machine.step
    simp only [hpc]
  case outside =>
    split_ifs
    all_goals exact ⟨owner, inv.outside hout id id⟩
  case lr saved =>
    -- what the hart has seen is what is there
    refine ⟨owner, inv.set _ ⟨False.elim, fun hin => absurd hin hout⟩ (fun hsaw _ => hsaw) ?_⟩
    intro d hd hres
    rwa [Function.update_of_ne hd] at hres
  case bnezLr saved t =>
    split_ifs with ht
    · refine ⟨owner, inv.set m.reserved ⟨False.elim, fun hin => absurd hin hout⟩ ?_
        fun _ _ hres => hres⟩
      intro _ hres
      apply inv.free c _ hres
      unfold Hart.sawFree
      rw [hpc]
      exact ht
    · exact ⟨owner, inv.outside hout id id⟩
  all_goals exact ⟨owner, inv.outside hout id id⟩

theorem inv_reachable (h : Reachable (spinlocks home) m) : ∃ owner, Inv m owner := by
  apply h.invariant (fun m => ∃ owner, Inv m owner)
  · rintro m ⟨hword, hhart⟩
    refine ⟨none, owned_none fun c hin => ?_, hword, fun c hsaw _ => ?_⟩
    · unfold Hart.inside at hin
      rw [(hhart c).1] at hin
      exact hin
    · unfold Hart.sawFree at hsaw
      rw [(hhart c).1] at hsaw
      exact hsaw.elim
  · rintro m ⟨c, choice⟩ t ⟨owner, inv⟩ ⟨-, rfl⟩
    exact inv.step c choice

/-- In every interleaving one hart at most has the lock, and the word says whether one has. -/
theorem spinlock_excludes (h : Reachable (spinlocks home) m) :
    (∀ c d, (m.hart c).inside → (m.hart d).inside → c = d) ∧
      (m.word = 0 ∧ (∀ c, ¬ (m.hart c).inside) ∨ m.word = 1 ∧ ∃ c, (m.hart c).inside) := by
  obtain ⟨owner, inv⟩ := inv_reachable h
  exact inv.owned.excludes inv.word

theorem step_hart_other (h : d ≠ c) (choice : Choice) :
    (m.step c choice).hart d = m.hart d := by
  unfold Machine.step
  split
  case h_5 => split_ifs <;> exact Function.update_of_ne h _ _
  case h_8 => split <;> exact Function.update_of_ne h _ _
  all_goals exact Function.update_of_ne h _ _

/-- No step loses the `sstatus` that the hart came with. -/
theorem proper_step {home : BitVec 64} (h : (m.hart c).Proper home) (choice : Choice) :
    ((m.step c choice).hart c).Proper home := by
  have hmove : ∀ x : Hart, (m.set c x).hart c = x := fun x => Function.update_self _ _ _
  unfold Hart.Proper at h
  unfold Machine.step
  cases hpc : (m.hart c).pc
  all_goals
    rw [hpc] at h
    simp only
  case csrrci =>
    simp only [hmove]
    have hsame : (m.hart c).sstatus = home := h
    exact ⟨congrArg clearSie hsame, hsame⟩
  case sc saved =>
    split_ifs
    all_goals
      simp only [Machine.goto, Machine.write, hmove]
      exact h
  case held saved =>
    cases saved
    all_goals
      simp only [Machine.goto, Machine.write, hmove]
      exact h
  case csrw a1 =>
    simp only [hmove]
    exact h.2
  case lr saved =>
    simp only [Machine.goto, hmove]
    exact h
  case pause saved =>
    simp only [Machine.goto, hmove]
    exact h
  all_goals
    simp only [Machine.goto, hmove]
    split_ifs
    all_goals exact h

/-- Outside the routines `sstatus` is what it was, and in a routine that has saved it the
interrupts are off, also while the hart waits for the lock. -/
theorem irqsave_sstatus (h : Reachable (spinlocks home) m) (c : C) :
    ((m.hart c).pc = .outside → (m.hart c).sstatus = home c) ∧
      ∀ saved, (m.hart c).pc.saved = some saved →
        saved = home c ∧ (m.hart c).sstatus = clearSie (home c) ∧
          (m.hart c).sstatus.getLsbD 1 = false := by
  have hproper : (m.hart c).Proper (home c) := by
    apply h.invariant (fun m => ∀ c, (m.hart c).Proper (home c))
    · rintro m ⟨-, hhart⟩ c
      unfold Hart.Proper
      rw [(hhart c).1]
      exact (hhart c).2
    · rintro m ⟨c', choice⟩ t hm ⟨-, ht⟩ d
      rw [ht]
      by_cases hd : d = c'
      · subst hd
        exact proper_step (hm d) choice
      · rw [step_hart_other hd]
        exact hm d
  unfold Hart.Proper at hproper
  constructor
  · intro hpc
    rw [hpc] at hproper
    exact hproper
  · intro saved hsaved
    rw [hsaved] at hproper
    refine ⟨hproper.2, hproper.1, ?_⟩
    rw [hproper.1, clearSie]
    simp

end Runs

section Example

/-- Two harts with interrupts on. -/
def idle : Machine Bool where
  word := 0
  reserved _ := false
  hart _ := ⟨.outside, 2⟩

def moves (c : Bool) (n : Nat) : List (Bool × Choice) :=
  List.replicate n (c, { irqsave := true, fails := false })

/-- Both harts have read the word as zero, the first has stored, and the second has not and waits. -/
def contended : Machine Bool :=
  (moves true 4 ++ moves false 4 ++ moves true 2 ++ moves false 4).foldl
    (fun m a => m.step a.1 a.2) idle

theorem contended_reachable : Reachable (spinlocks fun _ => 2) contended := by
  apply Reachable.exec
  exact .start ⟨rfl, fun c => ⟨rfl, rfl⟩⟩

theorem spinlock_excludes_contended :
    (contended.hart true).inside ∧ contended.word = 1 ∧
      ∀ c d, (contended.hart c).inside → (contended.hart d).inside → c = d :=
  ⟨trivial, by decide, (spinlock_excludes contended_reachable).1⟩

theorem irqsave_sstatus_contended :
    (contended.hart false).pc = .pause (some 2) ∧ (contended.hart false).sstatus = 0 := by
  have hpc : (contended.hart false).pc = .pause (some 2) := by decide
  refine ⟨hpc, ?_⟩
  have hkept := (irqsave_sstatus contended_reachable false).2 2 (by rw [hpc]; rfl)
  rw [hkept.2.1]
  rfl

end Example

end SpinLocksRiscV
