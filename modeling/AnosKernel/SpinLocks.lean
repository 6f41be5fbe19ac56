import AnosKernel.Lib.Continuations
import AnosKernel.Lib.Owners
import Mathlib.Tactic.SplitIfs

/-!
# Spinlocks on x86_64

`kernel/arch/x86_64/spinlock.asm`, one instruction a step, by any number of contexts (the threads
of control of the CPUs and their interrupt handlers). Between a lock and its unlock a context
loads what the lock protects and stores it with an update of its own, in two steps. Of the flags
register the carry, zero and interrupt flags are here, which are all that the routines use.

`done` is history: the updates in the order of their stores.
-/

namespace SpinLocks

open Owners Runs

universe u v w

structure Flags where
  carry : Bool
  zero : Bool
  interrupt : Bool
  deriving DecidableEq, Repr

/-- The next instruction, and the registers and stack slots that the rest of the routine uses.
`rax` is `none` in `spinlock_lock`, which `spinlock_lock_irqsave` shares its loop with. -/
inductive Pc (U : Type v) (D : Type w)
  | outside
  | pushfq (update : U)
  | cli (update : U) (top : Flags)
  | popRax (update : U) (top : Flags)
  | tryCli (update : U) (rax : Flags)
  | bts (update : U) (rax : Option Flags)
  | jc (update : U) (rax : Option Flags)
  | pushRax (update : U) (rax : Flags)
  | holdPopfq (update : U) (rax top : Flags)
  | pause (update : U) (rax : Option Flags)
  | test (update : U) (rax : Option Flags)
  | jz (update : U) (rax : Option Flags)
  | jmp (update : U) (rax : Option Flags)
  | load (update : U) (rax : Option Flags)
  | store (update : U) (rax : Option Flags) (value : D)
  | btr (rsi : Option Flags)
  | pushRsi (rsi : Flags)
  | popfq (top : Flags)
  deriving DecidableEq

structure Context (U : Type v) (D : Type w) where
  pc : Pc U D
  flags : Flags
  deriving DecidableEq

structure Shared (U : Type v) (D : Type w) where
  word : BitVec 64
  data : D
  done : List U

/-- The routine that a context outside calls. -/
inductive Call (U : Type v)
  | spinlockLock (update : U)
  | spinlockLockIrqsave (update : U)

variable {C : Type u} {U : Type v} {D : Type w}

def Context.goto (x : Context U D) (pc : Pc U D) : Context U D := { x with pc := pc }

def Context.disable (x : Context U D) : Context U D :=
  { x with flags := { x.flags with interrupt := false } }

/-- Where `jc` goes when the bit was set already: `.wait`, or `.hold`. -/
def wait (update : U) : Option Flags → Pc U D
  | none => .pause update none
  | some rax => .pushRax update rax

/-- Where `jz` goes when the bit looks clear: `spinlock_lock`, or `.try`. -/
def retry (update : U) : Option Flags → Pc U D
  | none => .bts update none
  | some rax => .tryCli update rax

/-- What follows `btr` in the unlock that belongs to the lock: `ret`, or the flags' return. -/
def released : Option Flags → Pc U D
  | none => .outside
  | some rsi => .pushRsi rsi

def instruction (work : U → D → D) (call : Call U) (x : Context U D) (s : Shared U D) :
    Context U D × Shared U D :=
  match x.pc with
  | .outside =>
    match call with
    | .spinlockLock u => (x.goto (.bts u none), s)
    | .spinlockLockIrqsave u => (x.goto (.pushfq u), s)
  | .pushfq u => (x.goto (.cli u x.flags), s)
  | .cli u top => (x.disable.goto (.popRax u top), s)
  | .popRax u top => (x.goto (.tryCli u top), s)
  | .tryCli u rax => (x.disable.goto (.bts u (some rax)), s)
  | .bts u rax =>
    ({ pc := .jc u rax, flags := { x.flags with carry := s.word.getLsbD 0 } },
      { s with word := s.word ||| 1 })
  | .jc u rax => (x.goto (if x.flags.carry then wait u rax else .load u rax), s)
  | .pushRax u rax => (x.goto (.holdPopfq u rax rax), s)
  | .holdPopfq u rax top => ({ pc := .pause u (some rax), flags := top }, s)
  | .pause u rax => (x.goto (.test u rax), s)
  | .test u rax =>
    ({ pc := .jz u rax, flags := { x.flags with carry := false, zero := s.word &&& 1 == 0 } }, s)
  | .jz u rax => (x.goto (if x.flags.zero then retry u rax else .jmp u rax), s)
  | .jmp u rax => (x.goto (.pause u rax), s)
  | .load u rax => (x.goto (.store u rax s.data), s)
  | .store u rax value =>
    (x.goto (.btr rax), { s with data := work u value, done := s.done ++ [u] })
  | .btr rsi =>
    ({ pc := released rsi, flags := { x.flags with carry := s.word.getLsbD 0 } },
      { s with word := s.word &&& ~~~1 })
  | .pushRsi rsi => (x.goto (.popfq rsi), s)
  | .popfq top => ({ pc := .outside, flags := top }, s)

structure Machine (C : Type u) (U : Type v) (D : Type w) where
  shared : Shared U D
  context : C → Context U D

variable [DecidableEq C]

def Machine.step (work : U → D → D) (m : Machine C U D) (c : C) (call : Call U) :
    Machine C U D :=
  let after := instruction work call (m.context c) m.shared
  { shared := after.2, context := Function.update m.context c after.1 }

/-- After `spinlock_init`, with every context outside and its interrupts as `home` has them. -/
def Machine.Starts (home : C → Bool) (d₀ : D) (m : Machine C U D) : Prop :=
  m.shared = { word := 0, data := d₀, done := [] } ∧
    ∀ c, (m.context c).pc = .outside ∧ (m.context c).flags.interrupt = home c

def spinlocks (work : U → D → D) (home : C → Bool) (d₀ : D) :
    System (Machine C U D) (C × Call U) :=
  System.ofExec (Machine.Starts home d₀) (fun _ _ => True) fun m a => m.step work a.1 a.2

/-- The lock is a context's from the `bts` that finds the bit clear to the `btr`. -/
def Context.inside (x : Context U D) : Prop :=
  match x.pc with
  | .jc _ _ => x.flags.carry = false
  | .load _ _ | .store _ _ _ | .btr _ => True
  | _ => False

/-- The context holds the lock, taken by `spinlock_lock_irqsave`. -/
def Context.saved (x : Context U D) : Prop :=
  match x.pc with
  | .jc _ (some _) => x.flags.carry = false
  | .load _ (some _) | .store _ (some _) _ | .btr (some _) => True
  | _ => False

/-- The context spins on the lock that it found taken, or is at none of the routines. -/
def Context.waits (x : Context U D) : Prop :=
  match x.pc with
  | .outside | .pause _ _ | .test _ _ | .jz _ _ | .jmp _ _ => True
  | _ => False

/-- The interrupt flag in a routine whose saved flags are these. -/
def Kept (home now : Bool) : Option Flags → Prop
  | none => now = home
  | some saved => now = false ∧ saved.interrupt = home

/-- The interrupt flag, here and in every copy that the routine has made of it. -/
def Context.Proper (home : Bool) (x : Context U D) : Prop :=
  match x.pc with
  | .outside | .pushfq _ => x.flags.interrupt = home
  | .cli _ top => x.flags.interrupt = home ∧ top.interrupt = home
  | .popRax _ saved | .pushRax _ saved | .pushRsi saved | .popfq saved =>
    x.flags.interrupt = false ∧ saved.interrupt = home
  | .tryCli _ rax => rax.interrupt = home
  | .bts _ rax | .jc _ rax | .load _ rax | .store _ rax _ | .btr rax =>
    Kept home x.flags.interrupt rax
  | .holdPopfq _ rax top => rax.interrupt = home ∧ top.interrupt = home
  | .pause _ rax | .test _ rax | .jz _ rax | .jmp _ rax =>
    x.flags.interrupt = home ∧ ∀ saved ∈ rax, saved.interrupt = home

section Steps

variable {work : U → D → D} {call : Call U} {x : Context U D} {s : Shared U D} {home : Bool}

theorem proper_wait {u : U} {rax : Option Flags} (h : Kept home x.flags.interrupt rax) :
    (x.goto (wait u rax)).Proper home := by
  cases rax with
  | none => exact ⟨h, fun saved hs => by cases hs⟩
  | some rax => exact h

theorem proper_retry {u : U} {rax : Option Flags} (h : x.flags.interrupt = home)
    (saved : ∀ f ∈ rax, f.interrupt = home) : (x.goto (retry u rax)).Proper home := by
  cases rax with
  | none => exact h
  | some rax => exact saved rax rfl

/-- No instruction loses the interrupt flag that the context came with. -/
theorem proper_instruction (h : x.Proper home) : (instruction work call x s).1.Proper home := by
  obtain ⟨pc, flags⟩ := x
  cases pc with
  | outside =>
    cases call
    all_goals exact h
  | pushfq u => exact ⟨h, h⟩
  | cli u top => exact ⟨rfl, h.2⟩
  | popRax u top => exact h.2
  | tryCli u rax => exact ⟨rfl, h⟩
  | bts u rax => exact h
  | jc u rax =>
    dsimp only [instruction]
    split_ifs
    · exact proper_wait h
    · exact h
  | pushRax u rax => exact ⟨h.2, h.2⟩
  | holdPopfq u rax top =>
    refine ⟨h.2, fun saved hs => ?_⟩
    cases hs
    exact h.1
  | pause u rax => exact h
  | test u rax => exact h
  | jz u rax =>
    dsimp only [instruction]
    split_ifs
    · exact proper_retry h.1 h.2
    · exact h
  | jmp u rax => exact h
  | load u rax => exact h
  | store u rax value => exact h
  | btr rsi =>
    cases rsi
    all_goals exact h
  | pushRsi rsi => exact h
  | popfq top => exact h.2

/-- An instruction that neither takes, uses nor gives back the lock. -/
theorem instruction_stays (hbts : ∀ u rax, x.pc ≠ .bts u rax)
    (hstore : ∀ u rax v, x.pc ≠ .store u rax v) (hbtr : ∀ rsi, x.pc ≠ .btr rsi) :
    (instruction work call x s).2 = s ∧
      ((instruction work call x s).1.inside ↔ x.inside) := by
  obtain ⟨pc, flags⟩ := x
  cases pc with
  | outside =>
    cases call
    all_goals exact ⟨rfl, Iff.rfl⟩
  | bts u rax => exact absurd rfl (hbts u rax)
  | store u rax value => exact absurd rfl (hstore u rax value)
  | btr rsi => exact absurd rfl (hbtr rsi)
  | jc u rax =>
    refine ⟨rfl, ?_⟩
    dsimp only [instruction]
    split_ifs with hcarry
    · have hout : ¬ Context.inside (D := D) ⟨.jc u rax, flags⟩ := fun hin => by
        cases hcarry.symm.trans hin
      cases rax
      all_goals exact ⟨False.elim, fun hin => absurd hin hout⟩
    · exact ⟨fun _ => Bool.not_eq_true _ |>.mp hcarry, fun _ => trivial⟩
  | jz u rax =>
    refine ⟨rfl, ?_⟩
    dsimp only [instruction]
    split_ifs
    · cases rax
      all_goals exact Iff.rfl
    · exact Iff.rfl
  | _ => exact ⟨rfl, Iff.rfl⟩

/-- What a context is about to store an update of is what it has just loaded. -/
theorem instruction_loads {u : U} {rax : Option Flags} {v : D}
    (h : (instruction work call x s).1.pc = .store u rax v) : v = s.data := by
  obtain ⟨pc, flags⟩ := x
  cases pc with
  | outside =>
    cases call
    all_goals cases h
  | jc u' rax' =>
    dsimp only [instruction] at h
    split_ifs at h
    · cases rax'
      all_goals cases h
    · cases h
  | jz u' rax' =>
    dsimp only [instruction] at h
    split_ifs at h
    · cases rax'
      all_goals cases h
    · cases h
  | btr rsi =>
    cases rsi
    all_goals cases h
  | load u' rax' =>
    cases h
    rfl
  | _ => cases h

theorem Context.Proper.off (h : x.Proper home) (hsaved : x.saved) :
    x.flags.interrupt = false := by
  obtain ⟨pc, flags⟩ := x
  cases pc with
  | jc u rax =>
    cases rax with
    | none => exact hsaved.elim
    | some rax => exact h.1
  | load u rax =>
    cases rax with
    | none => exact hsaved.elim
    | some rax => exact h.1
  | store u rax v =>
    cases rax with
    | none => exact hsaved.elim
    | some rax => exact h.1
  | btr rsi =>
    cases rsi with
    | none => exact hsaved.elim
    | some rsi => exact h.1
  | _ => exact hsaved.elim

theorem Context.Proper.as_before (h : x.Proper home) (hwaits : x.waits) :
    x.flags.interrupt = home := by
  obtain ⟨pc, flags⟩ := x
  cases pc with
  | outside => exact h
  | pause u rax => exact h.1
  | test u rax => exact h.1
  | jz u rax => exact h.1
  | jmp u rax => exact h.1
  | _ => exact hwaits.elim

end Steps

/-- `owner` is inside and nobody else, the word says whether there is one, and what it has loaded
is still there. -/
structure Inv (work : U → D → D) (d₀ : D) (m : Machine C U D) (owner : Option C) : Prop where
  owned : Owned Context.inside m.context owner
  word : m.shared.word = if owner.isSome then 1 else 0
  loaded : ∀ c u rax v, (m.context c).pc = .store u rax v → v = m.shared.data
  data : m.shared.data = m.shared.done.foldl (fun d u => work u d) d₀

section Runs

variable {work : U → D → D} {home : C → Bool} {d₀ : D} {m : Machine C U D} {owner : Option C}

/-- The data may change under a step of a context that is alone inside. -/
theorem Inv.loaded_update (inv : Inv work d₀ m owner) {c : C} {x : Context U D} {data : D}
    (alone : data = m.shared.data ∨ owner = some c)
    (own : ∀ u rax v, x.pc = .store u rax v → v = data) :
    ∀ d u rax v, (Function.update m.context c x d).pc = .store u rax v → v = data := by
  apply (Function.forall_update_iff m.context fun _ x =>
    ∀ u rax v, x.pc = .store u rax v → v = data).mpr
  refine ⟨own, fun d hd u rax v hv => ?_⟩
  rcases alone with rfl | howner
  · exact inv.loaded d u rax v hv
  · have hin : (m.context d).inside := by
      unfold Context.inside
      rw [hv]
      trivial
    rw [inv.owned.eq_some hin] at howner
    exact absurd (Option.some.inj howner) hd

theorem Inv.bts (inv : Inv work d₀ m owner) {c : C} {call : Call U} {u : U} {rax : Option Flags}
    (hpc : (m.context c).pc = .bts u rax) :
    ∃ owner', Inv work d₀ (m.step work c call) owner' := by
  have hout : ¬ (m.context c).inside := by
    unfold Context.inside
    rw [hpc]
    exact id
  have hloaded := fun flags => inv.loaded_update (c := c) (x := ⟨.jc u rax, flags⟩) (.inl rfl)
    fun _ _ _ h => by cases h
  simp only [Machine.step, instruction, hpc]
  cases owner with
  | some o =>
    have hword : m.shared.word = 1 := inv.word
    refine ⟨some o, inv.owned.stay ⟨fun hin => ?_, fun hin => absurd hin hout⟩, ?_, hloaded _,
      inv.data⟩
    · have hcarry : m.shared.word.getLsbD 0 = false := hin
      rw [hword] at hcarry
      cases hcarry
    · simp [hword]
  | none =>
    have hword : m.shared.word = 0 := inv.word
    refine ⟨some c, inv.owned.enter ?_, ?_, hloaded _, inv.data⟩
    · show m.shared.word.getLsbD 0 = false
      rw [hword]
      rfl
    · simp [hword]

theorem Inv.store (inv : Inv work d₀ m owner) {c : C} {call : Call U} {u : U}
    {rax : Option Flags} {v : D} (hpc : (m.context c).pc = .store u rax v) :
    Inv work d₀ (m.step work c call) owner := by
  have hin : (m.context c).inside := by
    unfold Context.inside
    rw [hpc]
    trivial
  simp only [Machine.step, instruction, hpc]
  refine ⟨inv.owned.stay ⟨fun _ => hin, fun _ => trivial⟩, inv.word,
    inv.loaded_update (.inr (inv.owned.eq_some hin)) (fun _ _ _ h => by cases h), ?_⟩
  -- the value is the one that the updates before this one have made
  rw [List.foldl_append, ← inv.data, inv.loaded c u rax v hpc]
  rfl

theorem Inv.btr (inv : Inv work d₀ m owner) {c : C} {call : Call U} {rsi : Option Flags}
    (hpc : (m.context c).pc = .btr rsi) : Inv work d₀ (m.step work c call) none := by
  have hin : (m.context c).inside := by
    unfold Context.inside
    rw [hpc]
    trivial
  have hword : m.shared.word = 1 := by
    rw [inv.word, inv.owned.eq_some hin]
    rfl
  simp only [Machine.step, instruction, hpc]
  refine ⟨inv.owned.leave hin ?_, ?_, inv.loaded_update (.inl rfl) ?_, inv.data⟩
  · cases rsi
    all_goals exact id
  · simp [hword]
  · cases rsi
    all_goals exact fun _ _ _ h => by cases h

theorem Inv.step (inv : Inv work d₀ m owner) (c : C) (call : Call U) :
    ∃ owner', Inv work d₀ (m.step work c call) owner' := by
  by_cases hbts : ∃ u rax, (m.context c).pc = .bts u rax
  · obtain ⟨u, rax, hpc⟩ := hbts
    exact inv.bts hpc
  by_cases hstore : ∃ u rax v, (m.context c).pc = .store u rax v
  · obtain ⟨u, rax, v, hpc⟩ := hstore
    exact ⟨owner, inv.store hpc⟩
  by_cases hbtr : ∃ rsi, (m.context c).pc = .btr rsi
  · obtain ⟨rsi, hpc⟩ := hbtr
    exact ⟨none, inv.btr hpc⟩
  -- every other instruction leaves what is shared as it is
  simp only [not_exists] at hbts hstore hbtr
  have hstays : (instruction work call (m.context c) m.shared).2 = m.shared ∧
      ((instruction work call (m.context c) m.shared).1.inside ↔ (m.context c).inside) :=
    instruction_stays hbts hstore hbtr
  obtain ⟨hshared, hinside⟩ := hstays
  have hloads : ∀ u rax v, (instruction work call (m.context c) m.shared).1.pc =
      .store u rax v → v = m.shared.data := fun _ _ _ h => instruction_loads h
  simp only [Machine.step, hshared]
  exact ⟨owner, inv.owned.stay hinside, inv.word, inv.loaded_update (.inl rfl) hloads, inv.data⟩

theorem inv_reachable (h : Reachable (spinlocks work home d₀) m) :
    ∃ owner, Inv work d₀ m owner := by
  apply h.invariant (fun m => ∃ owner, Inv work d₀ m owner)
  · rintro m ⟨hshared, hcontext⟩
    refine ⟨none, owned_none fun c hin => ?_, ?_, fun c u rax v hv => ?_, ?_⟩
    · unfold Context.inside at hin
      rw [(hcontext c).1] at hin
      exact hin
    · rw [hshared]
      rfl
    · rw [(hcontext c).1] at hv
      cases hv
    · rw [hshared]
      rfl
  · rintro m ⟨c, call⟩ t ⟨owner, inv⟩ ⟨-, rfl⟩
    exact inv.step c call

theorem proper_reachable (h : Reachable (spinlocks work home d₀) m) (c : C) :
    (m.context c).Proper (home c) := by
  apply h.invariant (fun m => ∀ c, (m.context c).Proper (home c))
  · rintro m ⟨-, hcontext⟩ c
    unfold Context.Proper
    rw [(hcontext c).1]
    exact (hcontext c).2
  · rintro m ⟨c', call⟩ t hm ⟨-, ht⟩
    rw [ht]
    apply (Function.forall_update_iff m.context fun d x => x.Proper (home d)).mpr
    exact ⟨proper_instruction (hm c'), fun d _ => hm d⟩

/-- In every interleaving one context at most has the lock, the word says whether one has, and
the updates under the lock happen one after the other. -/
theorem spinlock_serialises (h : Reachable (spinlocks work home d₀) m) :
    (∀ c d, (m.context c).inside → (m.context d).inside → c = d) ∧
      (m.shared.word = 0 ∧ (∀ c, ¬ (m.context c).inside) ∨
        m.shared.word = 1 ∧ ∃ c, (m.context c).inside) ∧
      m.shared.data = m.shared.done.foldl (fun d u => work u d) d₀ := by
  obtain ⟨owner, inv⟩ := inv_reachable h
  obtain ⟨hunique, hword⟩ := inv.owned.excludes inv.word
  exact ⟨hunique, hword, inv.data⟩

/-- With the lock of `spinlock_lock_irqsave` interrupts are off; a context that spins, or that is
at none of the routines, has them as it came. -/
theorem irqsave_interrupts (h : Reachable (spinlocks work home d₀) m) (c : C) :
    ((m.context c).saved → (m.context c).flags.interrupt = false) ∧
      ((m.context c).waits → (m.context c).flags.interrupt = home c) := by
  have hproper := proper_reachable h c
  exact ⟨hproper.off, hproper.as_before⟩

end Runs

section Example

/-- Two contexts that come with interrupts on, and a counter from 10. -/
def counter : Machine Bool Nat Nat where
  shared := { word := 0, data := 10, done := [] }
  context _ := ⟨.outside, { carry := false, zero := false, interrupt := true }⟩

def moves (c : Bool) (n : Nat) : List (Bool × Call Nat) :=
  List.replicate n (c, .spinlockLockIrqsave 5)

/-- The first context has the lock and has loaded; the second has found it taken and spins. -/
def contended : Machine Bool Nat Nat :=
  (moves true 8 ++ moves false 9).foldl (fun m a => m.step (· + ·) a.1 a.2) counter

theorem contended_reachable : Reachable (spinlocks (· + ·) (fun _ => true) 10) contended := by
  apply Reachable.exec
  exact .start ⟨rfl, fun c => ⟨rfl, rfl⟩⟩

theorem spinlock_serialises_contended :
    (contended.context true).inside ∧ contended.shared.word = 1 ∧
      contended.shared.data = contended.shared.done.foldl (fun d u => u + d) 10 ∧
      ∀ c d, (contended.context c).inside → (contended.context d).inside → c = d := by
  obtain ⟨hunique, -, hdata⟩ := spinlock_serialises contended_reachable
  exact ⟨trivial, by decide, hdata, hunique⟩

theorem irqsave_interrupts_contended :
    (contended.context true).flags.interrupt = false ∧
      (contended.context false).flags.interrupt = true :=
  ⟨(irqsave_interrupts contended_reachable true).1 trivial,
    (irqsave_interrupts contended_reachable false).2 trivial⟩

end Example

end SpinLocks
