import AnosKernel.Lib.Continuations
import AnosKernel.Lib.Owners
import Mathlib.Tactic.SplitIfs

/-!
# Reentrant spinlocks

`spinlock_reentrant_lock` and `spinlock_reentrant_unlock`, one access to memory a step, by any
number of threads, each with an identity of its own. What sets the bit is `lock bts` on x86_64,
and the pair of `lr.d` and `sc.d` on riscv64, where it may fail for no reason.

The unlock clears the bit before the identity. A thread that takes the lock in between stores its
identity where the unlock then stores zero.
-/

namespace ReentrantLocks

open Owners Runs

universe u

/-- The next access of a thread; `body` is the caller. -/
inductive Pc
  | body
  | cmpLock
  | tryLock
  | wait
  | storeIdent
  | cmpUnlock
  | clearLock
  | clearIdent
  deriving DecidableEq

/-- `holds` is history: the thread has set the bit and has not cleared it since. -/
structure Thread where
  pc : Pc
  holds : Bool
  deriving DecidableEq

structure Machine (C : Type u) where
  lock : BitVec 64
  ident : BitVec 64
  thread : C → Thread

/-- The call that a thread in its body makes, and whether `sc.d` fails although it need not. -/
structure Choice where
  unlocks : Bool
  fails : Bool

variable {C : Type u} [DecidableEq C]

def Machine.set (m : Machine C) (c : C) (x : Thread) : Machine C :=
  { m with thread := Function.update m.thread c x }

def Machine.goto (m : Machine C) (c : C) (pc : Pc) : Machine C :=
  m.set c { m.thread c with pc := pc }

def Machine.step (id : C → BitVec 64) (m : Machine C) (c : C) (choice : Choice) : Machine C :=
  match (m.thread c).pc with
  | .body => m.goto c (if choice.unlocks then .cmpUnlock else .cmpLock)
  | .cmpLock => m.goto c (if m.ident = id c then .body else .tryLock)
  | .tryLock =>
    if m.lock.getLsbD 0 then m.goto c .wait
    else if choice.fails then m
    else { m.set c { pc := .storeIdent, holds := true } with lock := m.lock ||| 1 }
  | .wait => if m.lock.getLsbD 0 then m else m.goto c .tryLock
  | .storeIdent => { m.goto c .body with ident := id c }
  | .cmpUnlock => m.goto c (if m.ident = id c then .clearLock else .body)
  | .clearLock =>
    { m.set c { pc := .clearIdent, holds := false } with lock := m.lock &&& ~~~1 }
  | .clearIdent => { m.goto c .body with ident := 0 }

/-- After `spinlock_reentrant_init`, with every thread in its body. -/
def Machine.Starts (m : Machine C) : Prop :=
  m.lock = 0 ∧ m.ident = 0 ∧ ∀ c, m.thread c = { pc := .body, holds := false }

def reentrant (id : C → BitVec 64) : System (Machine C) (C × Choice) :=
  System.ofExec Machine.Starts (fun _ _ => True) fun m a => m.step id a.1 a.2

/-- No two threads have one identity, and none has the identity of nobody. -/
structure Distinct (id : C → BitVec 64) : Prop where
  inj : Function.Injective id
  nonzero : ∀ c, id c ≠ 0

/-- Whether a thread has the lock, as far as its place says, where the identity is its own or not. -/
def Thread.Proper (own : Prop) (x : Thread) : Prop :=
  match x.pc with
  | .body | .cmpLock | .cmpUnlock => own → x.holds = true
  | .tryLock | .wait => ¬ own
  | .storeIdent => x.holds = true ∧ ¬ own
  | .clearLock => x.holds = true
  | .clearIdent => x.holds = false

theorem Thread.Proper.mono {own own' : Prop} {x : Thread} (h : x.Proper own) (less : own' → own) :
    x.Proper own' := by
  unfold Thread.Proper at h ⊢
  split at h
  case h_4 => exact fun own => h (less own)
  case h_5 => exact fun own => h (less own)
  case h_6 => exact ⟨h.1, fun own => h.2 (less own)⟩
  case h_7 => exact h
  case h_8 => exact h
  all_goals exact fun own => h (less own)

structure Inv (id : C → BitVec 64) (m : Machine C) (owner : Option C) : Prop where
  owned : Owned (fun x : Thread => x.holds = true) m.thread owner
  lock : m.lock = if owner.isSome then 1 else 0
  proper : ∀ c, (m.thread c).Proper (m.ident = id c)

section Steps

variable {id : C → BitVec 64} {m : Machine C} {owner : Option C} {c d : C}

theorem set_thread_self (x : Thread) : (m.set c x).thread c = x := Function.update_self _ _ _

theorem set_thread_other (h : d ≠ c) (x : Thread) : (m.set c x).thread d = m.thread d :=
  Function.update_of_ne h _ _

/-- A step that changes the identity, if it does, to one that no other thread has. -/
theorem Inv.proper_set (inv : Inv id m owner) {x : Thread} {ident : BitVec 64}
    (self : x.Proper (ident = id c)) (others : ∀ d, d ≠ c → ident = id d → m.ident = id d) :
    ∀ d, ((m.set c x).thread d).Proper (ident = id d) := by
  apply (Function.forall_update_iff m.thread fun d x => x.Proper (ident = id d)).mpr
  exact ⟨self, fun d hd => (inv.proper d).mono (others d hd)⟩

/-- A step that stores nothing. -/
theorem Inv.move (inv : Inv id m owner) {x : Thread} (holds : x.holds = (m.thread c).holds)
    (self : x.Proper (m.ident = id c)) : Inv id (m.set c x) owner :=
  ⟨inv.owned.stay (by rw [holds]), inv.lock, inv.proper_set self fun _ _ h => h⟩

omit [DecidableEq C] in
theorem Inv.bit (inv : Inv id m owner) : m.lock.getLsbD 0 = owner.isSome := by
  rw [inv.lock]
  cases owner with
  | none => simp
  | some o => simp

theorem Inv.step (distinct : Distinct id) (inv : Inv id m owner) (c : C) (choice : Choice) :
    ∃ owner', Inv id (m.step id c choice) owner' := by
  have hproper := inv.proper c
  unfold Thread.Proper at hproper
  unfold Machine.step
  cases hpc : (m.thread c).pc
  all_goals
    rw [hpc] at hproper
    simp only
  case body =>
    split_ifs
    all_goals exact ⟨owner, inv.move rfl hproper⟩
  case cmpLock =>
    split_ifs with heq
    · exact ⟨owner, inv.move rfl hproper⟩
    · exact ⟨owner, inv.move rfl heq⟩
  case tryLock =>
    split_ifs with hbit
    · exact ⟨owner, inv.move rfl hproper⟩
    · exact ⟨owner, inv⟩
    · rw [inv.bit] at hbit
      cases owner with
      | some o => exact absurd rfl hbit
      | none =>
        refine ⟨some c, inv.owned.enter rfl, ?_, inv.proper_set ⟨rfl, hproper⟩ fun _ _ h => h⟩
        simp [inv.lock]
  case wait =>
    split_ifs
    · exact ⟨owner, inv⟩
    · exact ⟨owner, inv.move rfl hproper⟩
  case storeIdent =>
    refine ⟨owner, inv.owned.stay Iff.rfl, inv.lock, inv.proper_set (fun _ => hproper.1) ?_⟩
    exact fun d hd heq => absurd (distinct.inj heq).symm hd
  case cmpUnlock =>
    split_ifs with heq
    · exact ⟨owner, inv.move rfl (hproper heq)⟩
    · exact ⟨owner, inv.move rfl hproper⟩
  case clearLock =>
    refine ⟨none, inv.owned.leave hproper (fun h => by cases h), ?_,
      inv.proper_set rfl fun _ _ h => h⟩
    simp [inv.lock, inv.owned.eq_some hproper]
  case clearIdent =>
    have hnobody : ∀ d, 0 ≠ id d := fun d h => distinct.nonzero d h.symm
    refine ⟨owner, inv.owned.stay Iff.rfl, inv.lock, inv.proper_set ?_ ?_⟩
    · exact fun h => absurd h (hnobody c)
    · exact fun d _ h => absurd h (hnobody d)

theorem inv_reachable (distinct : Distinct id) (h : Reachable (reentrant id) m) :
    ∃ owner, Inv id m owner := by
  apply h.invariant (fun m => ∃ owner, Inv id m owner)
  · rintro m ⟨hlock, hident, hthread⟩
    refine ⟨none, owned_none fun c hc => ?_, hlock, fun c => ?_⟩
    · rw [hthread c] at hc
      cases hc
    · rw [hthread c, hident]
      exact fun h => absurd h.symm (distinct.nonzero c)
  · rintro m ⟨c, choice⟩ t ⟨owner, inv⟩ ⟨-, rfl⟩
    exact inv.step distinct c choice

/-- In every interleaving one thread at most has the lock, and the bit says whether one has. -/
theorem reentrant_excludes (distinct : Distinct id) (h : Reachable (reentrant id) m) :
    (∀ c d, (m.thread c).holds = true → (m.thread d).holds = true → c = d) ∧
      (m.lock = 0 ∧ (∀ c, (m.thread c).holds = false) ∨
        m.lock = 1 ∧ ∃ c, (m.thread c).holds = true) := by
  obtain ⟨owner, inv⟩ := inv_reachable distinct h
  have hexcludes := inv.owned.excludes inv.lock
  simp only [Bool.not_eq_true] at hexcludes
  exact hexcludes

/-- The thread has the lock, but the identity is not its own and it will not store it again. -/
structure Lost (id : C → BitVec 64) (c : C) (m : Machine C) : Prop where
  holds : (m.thread c).holds = true
  ident : m.ident ≠ id c
  storeIdent : (m.thread c).pc ≠ .storeIdent
  clearLock : (m.thread c).pc ≠ .clearLock

/-- Only the thread itself could store its identity, and it does not get that far. -/
theorem Lost.step_self (lost : Lost id c m) (inv : Inv id m owner) (choice : Choice) :
    Lost id c (m.step id c choice) := by
  have hbit : m.lock.getLsbD 0 = true := by
    rw [inv.bit, inv.owned.eq_some lost.holds]
    rfl
  have hgoto : ∀ pc, pc ≠ .storeIdent → pc ≠ .clearLock → Lost id c (m.goto c pc) := by
    intro pc hstore hclear
    unfold Machine.goto
    refine ⟨?_, lost.ident, ?_, ?_⟩
    all_goals rw [set_thread_self]
    · exact lost.holds
    · exact hstore
    · exact hclear
  have hproper := inv.proper c
  unfold Thread.Proper at hproper
  unfold Machine.step
  cases hpc : (m.thread c).pc with
  | body =>
    simp only
    split_ifs
    all_goals exact hgoto _ (by decide) (by decide)
  | cmpLock =>
    simp only [if_neg lost.ident]
    exact hgoto _ (by decide) (by decide)
  | tryLock =>
    simp only [if_pos hbit]
    exact hgoto _ (by decide) (by decide)
  | wait =>
    simp only [if_pos hbit]
    exact lost
  | storeIdent => exact absurd hpc lost.storeIdent
  | cmpUnlock =>
    simp only [if_neg lost.ident]
    exact hgoto _ (by decide) (by decide)
  | clearLock => exact absurd hpc lost.clearLock
  | clearIdent =>
    rw [hpc, lost.holds] at hproper
    cases hproper

theorem step_thread_other (h : d ≠ c) (choice : Choice) :
    (m.step id c choice).thread d = m.thread d := by
  unfold Machine.step
  split
  case h_3 =>
    split_ifs
    · exact set_thread_other h _
    · rfl
    · exact set_thread_other h _
  case h_4 =>
    split_ifs
    · rfl
    · exact set_thread_other h _
  all_goals exact set_thread_other h _

/-- The identity changes by a thread's own identity and by zero only. -/
theorem step_ident (distinct : Distinct id) (h : d ≠ c) (hident : m.ident ≠ id d)
    (choice : Choice) : (m.step id c choice).ident ≠ id d := by
  unfold Machine.step
  split
  case h_3 =>
    split_ifs
    all_goals exact hident
  case h_4 =>
    split_ifs
    all_goals exact hident
  case h_5 => exact fun heq => h (distinct.inj heq).symm
  case h_8 => exact fun heq => distinct.nonzero d heq.symm
  all_goals exact hident

theorem Lost.step (distinct : Distinct id) (lost : Lost id d m) (inv : Inv id m owner) (c : C)
    (choice : Choice) : Lost id d (m.step id c choice) := by
  by_cases hd : d = c
  · subst hd
    exact lost.step_self inv choice
  · refine ⟨?_, step_ident distinct hd lost.ident choice, ?_, ?_⟩
    all_goals rw [step_thread_other hd]
    · exact lost.holds
    · exact lost.storeIdent
    · exact lost.clearLock

theorem Lost.always {t : Machine C} (distinct : Distinct id) (lost : Lost id c m)
    (inv : Inv id m owner) (h : Reachable ((reentrant id).from m) t) : Lost id c t := by
  have hboth : (∃ owner, Inv id t owner) ∧ Lost id c t := by
    apply h.always (fun m => (∃ owner, Inv id m owner) ∧ Lost id c m) ⟨⟨owner, inv⟩, lost⟩
    rintro m ⟨d, choice⟩ t ⟨⟨owner, inv⟩, lost⟩ ⟨-, rfl⟩
    exact ⟨inv.step distinct d choice, lost.step distinct inv d choice⟩
  exact hboth.2

/-- Some continuation has the thread give the lock back. -/
def Releasable (id : C → BitVec 64) (c : C) (m : Machine C) : Prop :=
  ∃ t, Reachable ((reentrant id).from m) t ∧ (t.thread c).holds = false

theorem Releasable.of_step (choice : Choice) (h : Releasable id c (m.step id d choice)) :
    Releasable id c m := by
  obtain ⟨t, hreach, hholds⟩ := h
  have hnext : Reachable ((reentrant id).from m) (m.step id d choice) :=
    .next (a := (d, choice)) (.start rfl) ⟨trivial, rfl⟩
  exact ⟨t, hnext.trans hreach, hholds⟩

theorem releasable_clearLock (hpc : (m.thread c).pc = .clearLock) : Releasable id c m := by
  apply Releasable.of_step (d := c) ⟨true, false⟩
  refine ⟨_, .start rfl, ?_⟩
  simp only [Machine.step, hpc, set_thread_self]

theorem releasable_cmpUnlock (hpc : (m.thread c).pc = .cmpUnlock) (hident : m.ident = id c) :
    Releasable id c m := by
  apply Releasable.of_step (d := c) ⟨true, false⟩
  apply releasable_clearLock
  simp only [Machine.step, hpc, if_pos hident, Machine.goto, set_thread_self]

theorem releasable_body (hpc : (m.thread c).pc = .body) (hident : m.ident = id c) :
    Releasable id c m := by
  apply Releasable.of_step (d := c) ⟨true, false⟩
  apply releasable_cmpUnlock
  · simp only [Machine.step, hpc, if_pos, Machine.goto, set_thread_self]
  · simp only [Machine.step, hpc, Machine.goto, Machine.set]
    exact hident

theorem releasable_cmpLock (hpc : (m.thread c).pc = .cmpLock) (hident : m.ident = id c) :
    Releasable id c m := by
  apply Releasable.of_step (d := c) ⟨true, false⟩
  apply releasable_body
  · simp only [Machine.step, hpc, if_pos hident, Machine.goto, set_thread_self]
  · simp only [Machine.step, hpc, Machine.goto, Machine.set]
    exact hident

theorem Inv.releasable (inv : Inv id m owner) (holds : (m.thread c).holds = true)
    (stored : (m.thread c).pc ≠ .storeIdent) (hident : m.ident = id c) : Releasable id c m := by
  have hproper := inv.proper c
  unfold Thread.Proper at hproper
  cases hpc : (m.thread c).pc with
  | body => exact releasable_body hpc hident
  | cmpLock => exact releasable_cmpLock hpc hident
  | cmpUnlock => exact releasable_cmpUnlock hpc hident
  | clearLock => exact releasable_clearLock hpc
  | clearIdent =>
    rw [hpc, holds] at hproper
    cases hproper
  | storeIdent => exact absurd hpc stored
  | tryLock =>
    rw [hpc] at hproper
    exact absurd hident hproper
  | wait =>
    rw [hpc] at hproper
    exact absurd hident hproper

/-- A thread that has the lock and has stored its identity can give the lock back if the identity
is still there, or if it has just been found there. Otherwise no continuation frees the lock. -/
theorem reentrant_releasable_iff (distinct : Distinct id) (h : Reachable (reentrant id) m)
    (holds : (m.thread c).holds = true) (stored : (m.thread c).pc ≠ .storeIdent) :
    Releasable id c m ↔ m.ident = id c ∨ (m.thread c).pc = .clearLock := by
  obtain ⟨owner, inv⟩ := inv_reachable distinct h
  constructor
  · rintro ⟨t, hreach, hfree⟩
    by_contra hnot
    rw [not_or] at hnot
    have hlost := Lost.always distinct ⟨holds, hnot.1, stored, hnot.2⟩ inv hreach
    rw [hlost.holds] at hfree
    cases hfree
  · rintro (hident | hpc)
    · exact inv.releasable holds stored hident
    · exact releasable_clearLock hpc

end Steps

section Example

def ident (c : Bool) : BitVec 64 := if c then 1 else 2

theorem distinct_ident : Distinct ident where
  inj c d := by revert c d; decide
  nonzero := by decide

def unlocked : Machine Bool where
  lock := 0
  ident := 0
  thread _ := { pc := .body, holds := false }

def moves (c unlocks : Bool) (n : Nat) : List (Bool × Choice) :=
  List.replicate n (c, { unlocks := unlocks, fails := false })

/-- The second thread has taken the lock before the first cleared the identity. -/
def overtaken : Machine Bool :=
  (moves true false 4 ++ moves true true 3 ++ moves false false 4 ++ moves true false 1).foldl
    (fun m a => m.step ident a.1 a.2) unlocked

theorem overtaken_reachable : Reachable (reentrant ident) overtaken := by
  apply Reachable.exec
  exact .start ⟨rfl, rfl, fun c => rfl⟩

theorem reentrant_excludes_overtaken :
    (overtaken.thread false).holds = true ∧
      ∀ c d, (overtaken.thread c).holds = true → (overtaken.thread d).holds = true → c = d :=
  ⟨by decide, (reentrant_excludes distinct_ident overtaken_reachable).1⟩

/-- No continuation frees the lock of the thread that was overtaken. -/
theorem overtaken_not_releasable :
    (overtaken.thread false).holds = true ∧ ¬ Releasable ident false overtaken := by
  refine ⟨by decide, fun h => ?_⟩
  have hident := (reentrant_releasable_iff distinct_ident overtaken_reachable (by decide)
    (by decide)).mp h
  revert hident
  decide

end Example

end ReentrantLocks
