import AnosKernel.Lib.Runs
import AnosKernel.RunQueues
import Mathlib.Logic.Relation

/-!
# Scheduler-backed mutexes

`mutex_lock` and `mutex_unlock` of `kernel/sched/mutex.c`, called by any number of tasks on any
number of CPUs. What runs under the mutex's spinlock is one step; between these steps a call can
be overtaken anywhere. A task that blocks runs on only after it has been unblocked. The links of
the wait queue are the `next` fields the run queues also use: the scheduler may change those of
the tasks that do not wait here, and their priorities, at any time.

The history of the calls (which of them have returned true, and when a waiter queued) is kept
beside the mutex.
-/

namespace Mutexes

open Chains Runs Scheduler
open RunQueues (SameLink)

structure Mutex where
  owner : Option (BitVec 64)
  waitQueue : Option (BitVec 64)
  locked : Bool

/-- `mutex_init`. -/
def mutexInit : Mutex := { owner := none, waitQueue := none, locked := false }

/-- One turn of the loop of `mutex_lock`: the call returns true, or the task has queued. -/
def mutexLockTurn (fuel : Nat) (m : Mutex) (s : Sched) (task : BitVec 64) :
    Option (Bool × Mutex × Sched) :=
  if m.locked = false then some (true, { m with owner := some task, locked := true }, s)
  -- the mutex is reentrant
  else if m.owner = some task then some (true, m, s)
  else
    (taskPqPush fuel s m.waitQueue task).map fun (head, s) =>
      (false, { m with waitQueue := head }, s)

/-- What `mutex_unlock` does under the spinlock, with the waiter it hands the mutex to. -/
def mutexUnlockSection (m : Mutex) (s : Sched) : Option (BitVec 64) × Mutex × Sched :=
  match taskPqPop s m.waitQueue with
  | none => (none, { m with locked := false, owner := none }, s)
  | some (next, head, s) => (some next, { m with owner := some next, waitQueue := head }, s)

/-- Where a task is in its calls. A task in the wait queue has released the spinlock and is
about to block (`queued`) or has blocked, and `woken` says whether it has been unblocked since. -/
inductive Phase
  | outside
  | locking
  | queued (woken : Bool)
  | blocked (woken : Bool)
  | unlocking
  | leaving
  deriving DecidableEq, Repr

def Phase.wake : Phase → Phase
  | .queued _ => .queued true
  | .blocked _ => .blocked true
  | phase => phase

/-- Queued and not unblocked since. -/
def Phase.waits (phase : Phase) : Prop := phase = .queued false ∨ phase = .blocked false

def Phase.woken (phase : Phase) : Prop := phase = .queued true ∨ phase = .blocked true

structure World where
  mutex : Mutex
  sched : Sched
  phase : BitVec 64 → Phase
  acquired : List (BitVec 64)
  released : List (BitVec 64)
  ticket : BitVec 64 → Nat
  clock : Nat

def World.setPhase (w : World) (t : BitVec 64) (phase : Phase) : World :=
  { w with phase := Function.update w.phase t phase }

/-- After a turn of `mutex_lock` with the given result. -/
def World.turned (w : World) (t : BitVec 64) : Bool × Mutex × Sched → World
  | (true, m, s) =>
    { w.setPhase t .outside with
      mutex := m
      sched := s
      acquired := w.acquired ++ [t] }
  | (false, m, s) =>
    { w.setPhase t (.queued false) with
      mutex := m
      sched := s
      ticket := Function.update w.ticket t w.clock
      clock := w.clock + 1 }

/-- After the critical section of `mutex_unlock` with the given result: a call that has handed
the mutex over unblocks the waiter and returns only when it is scheduled again. -/
def World.unlocked (w : World) (t : BitVec 64) : Option (BitVec 64) × Mutex × Sched → World
  | (none, m, s) =>
    { w.setPhase t .outside with
      mutex := m
      sched := s
      released := w.released ++ [t] }
  | (some next, m, s) =>
    { (w.setPhase t .leaving).setPhase next (w.phase next).wake with
      mutex := m
      sched := s }

/-- `lock` and `unlock` are the calls, `turn` and `unlockSection` what they do under the
spinlock; `reschedule` is whatever the scheduler does meanwhile. -/
inductive Action
  | lock (t : BitVec 64)
  | turn (t : BitVec 64)
  | block (t : BitVec 64)
  | resume (t : BitVec 64)
  | unlock (t : BitVec 64)
  | unlockSection (t : BitVec 64)
  | ret (t : BitVec 64)
  | reschedule (s : Sched)

def Step (w : World) : Action → World → Prop
  | .lock t, w' => w.phase t = .outside ∧ w' = w.setPhase t .locking
  | .turn t, w' => w.phase t = .locking ∧
      ∃ fuel result, mutexLockTurn fuel w.mutex w.sched t = some result ∧ w' = w.turned t result
  | .block t, w' => ∃ woken, w.phase t = .queued woken ∧
      w' = { w.setPhase t (.blocked woken) with sched := w.sched.setState t .blocked }
  | .resume t, w' => w.phase t = .blocked true ∧ w' = w.setPhase t .locking
  -- a task that is not the owner gets false
  | .unlock t, w' => w.phase t = .outside ∧
      w' = if w.mutex.owner = some t then w.setPhase t .unlocking else w
  | .unlockSection t, w' => w.phase t = .unlocking ∧
      w' = w.unlocked t (mutexUnlockSection w.mutex w.sched)
  | .ret t, w' => w.phase t = .leaving ∧
      w' = { w.setPhase t .outside with released := w.released ++ [t] }
  | .reschedule s, w' => (∀ t, (w.phase t).waits → SameLink w.sched s t) ∧
      w' = { w with sched := s }

def Fresh (w : World) : Prop :=
  w.mutex = mutexInit ∧ (∀ t, w.phase t = .outside) ∧ w.acquired = [] ∧ w.released = [] ∧
    w.clock = 0

def mutexCalls : System World Action where
  init := Fresh
  step := Step

/-- No task calls `mutex_lock` while it is the owner. -/
def NotNested (w : World) : Action → Prop
  | .lock t => w.mutex.owner ≠ some t
  | _ => True

/-- Moreover, `mutex_lock` returns true only when no call of `mutex_unlock` is still on its way
back to its caller after it has handed the mutex over. -/
def Guard (w : World) (a : Action) : Prop :=
  NotNested w a ∧ match a with
    | .turn t => w.mutex.locked = false ∨ w.mutex.owner = some t → ∀ u, w.phase u ≠ .leaving
    | _ => True

/-! ## The order of the wait queue -/

/-- `t` is more urgent than `u`, or queued before it with the same priority. -/
def Before (prio : BitVec 64 → BitVec 8) (ticket : BitVec 64 → Nat) (t u : BitVec 64) : Prop :=
  prio t < prio u ∨ prio t = prio u ∧ ticket t < ticket u

theorem Before.prio_le {prio : BitVec 64 → BitVec 8} {ticket : BitVec 64 → Nat}
    {t u : BitVec 64} (h : Before prio ticket t u) : prio t ≤ prio u := by
  rcases h with h | ⟨h, -⟩
  · exact BitVec.le_of_lt h
  · exact h ▸ BitVec.le_refl _

/-- A task that queues last goes behind all that are not less urgent. -/
theorem pairwise_insert {prio : BitVec 64 → BitVec 8} {ticket : BitVec 64 → Nat} {clock : Nat}
    {t : BitVec 64} {before after : List (BitVec 64)}
    (sorted : (before ++ after).Pairwise (Before prio ticket)) (fresh : t ∉ before ++ after)
    (tickets : ∀ u ∈ before ++ after, ticket u < clock) (hbefore : ∀ u ∈ before, prio u ≤ prio t)
    (hafter : ∀ u, after.head? = some u → prio t < prio u) :
    (before ++ t :: after).Pairwise (Before prio (Function.update ticket t clock)) := by
  have hsame : ∀ u ∈ before ++ after, Function.update ticket t clock u = ticket u :=
    fun u hu => Function.update_of_ne (ne_of_mem_of_not_mem hu fresh) _ _
  have hold : (before ++ after).Pairwise (Before prio (Function.update ticket t clock)) := by
    refine sorted.imp_of_mem (fun {u v} hu hv h => ?_)
    rw [Before, hsame u hu, hsame v hv]
    exact h
  have hlast : ∀ u ∈ before, Before prio (Function.update ticket t clock) u t := by
    intro u hu
    have hlt := tickets u (List.mem_append_left _ hu)
    have hle := hbefore u hu
    have hcases : prio u < prio t ∨ prio u = prio t := by bv_omega
    rcases hcases with h | h
    · exact Or.inl h
    · refine Or.inr ⟨h, ?_⟩
      rw [hsame u (List.mem_append_left _ hu), Function.update_self]
      exact hlt
  have hless : ∀ u ∈ after, Before prio (Function.update ticket t clock) t u := by
    intro u hu
    cases after with
    | nil => exact absurd hu List.not_mem_nil
    | cons first rest =>
      have hfirst := hafter first rfl
      rcases List.mem_cons.mp hu with rfl | hu
      · exact Or.inl hfirst
      · have hsorted := (List.pairwise_append.mp hold).2.1
        have hle := ((List.pairwise_cons.mp hsorted).1 u hu).prio_le
        exact Or.inl (by bv_omega)
  obtain ⟨hb, ha, hba⟩ := List.pairwise_append.mp hold
  refine List.pairwise_append.mpr ⟨hb, List.pairwise_cons.mpr ⟨hless, ha⟩, ?_⟩
  intro u hu v hv
  rcases List.mem_cons.mp hv with rfl | hv
  · exact hlast u hu
  · exact hba u hu v hv

/-! ## The invariant -/

/-- What is true of a task in each phase: whether it owns the mutex, whether it is in the wait
queue, and how many of its calls of `mutex_lock` and of `mutex_unlock` have returned true. -/
def Fits (owns inQueue : Prop) (locks unlocks : Nat) : Phase → Prop
  | .outside => ¬ inQueue ∧ (owns → locks = unlocks + 1) ∧ (¬ owns → locks = unlocks)
  | .locking => ¬ inQueue ∧ locks = unlocks
  | .queued false => inQueue ∧ ¬ owns ∧ locks = unlocks
  | .blocked false => inQueue ∧ ¬ owns ∧ locks = unlocks
  | .queued true => ¬ inQueue ∧ owns ∧ locks = unlocks
  | .blocked true => ¬ inQueue ∧ owns ∧ locks = unlocks
  | .unlocking => ¬ inQueue ∧ owns ∧ locks = unlocks + 1
  | .leaving => ¬ inQueue ∧ ¬ owns ∧ locks = unlocks + 1

/-- The task is where its phase says, if it is in phase `phase`. -/
def World.fits (w : World) (ws : List (BitVec 64)) (t : BitVec 64) (phase : Phase) : Prop :=
  Fits (w.mutex.owner = some t) (t ∈ ws) (w.acquired.count t) (w.released.count t) phase

structure Inv (w : World) (ws : List (BitVec 64)) : Prop where
  chain : Chain w.sched.next w.mutex.waitQueue ws
  sorted : ws.Pairwise (Before w.sched.prio w.ticket)
  tickets : ∀ t ∈ ws, w.ticket t < w.clock
  free : w.mutex.locked = false → w.mutex.owner = none ∧ ws = []
  fits : ∀ t, w.fits ws t (w.phase t)

theorem Fits.waits {owns inQueue : Prop} {locks unlocks : Nat} {phase : Phase}
    (h : Fits owns inQueue locks unlocks phase) : inQueue ↔ phase.waits := by
  cases phase with
  | queued woken => cases woken <;> simp_all [Fits, Phase.waits]
  | blocked woken => cases woken <;> simp_all [Fits, Phase.waits]
  | _ => simp_all [Fits, Phase.waits]

/-- A task that has got the mutex and not given it back owns it or is leaving. -/
theorem Fits.owns_of_lt {owns inQueue : Prop} {locks unlocks : Nat} {phase : Phase}
    (h : Fits owns inQueue locks unlocks phase) (more : unlocks < locks) :
    owns ∨ phase = .leaving := by
  have hne : locks ≠ unlocks := Nat.ne_of_gt more
  cases phase with
  | outside => exact Or.inl (not_imp_comm.mp h.2.2 hne)
  | locking => exact absurd h.2 hne
  | queued woken => cases woken <;> exact absurd h.2.2 hne
  | blocked woken => cases woken <;> exact absurd h.2.2 hne
  | unlocking => exact Or.inl h.2.1
  | leaving => exact Or.inr rfl

/-- A task waiting in the queue that is handed the mutex. -/
theorem Fits.wake {inQueue owns owns' : Prop} {locks unlocks : Nat} {phase : Phase}
    {inQueue' : Prop} (h : Fits owns inQueue locks unlocks phase) (waits : phase.waits)
    (out : ¬ inQueue') (handed : owns') : Fits owns' inQueue' locks unlocks phase.wake := by
  rcases waits with rfl | rfl
  · exact ⟨out, handed, h.2.2⟩
  · exact ⟨out, handed, h.2.2⟩

/-- A task moves on by itself. -/
theorem Inv.setPhase {w : World} {ws : List (BitVec 64)} (inv : Inv w ws) {t : BitVec 64}
    {phase : Phase} (fits : w.fits ws t phase) : Inv (w.setPhase t phase) ws := by
  refine ⟨inv.chain, inv.sorted, inv.tickets, inv.free, fun u => ?_⟩
  by_cases hne : u = t
  · subst hne
    simpa [World.setPhase, World.fits] using fits
  · simpa [World.setPhase, World.fits, hne] using inv.fits u

/-- The scheduler changes no link and no priority in the wait queue. -/
theorem Inv.reschedule {w : World} {ws : List (BitVec 64)} (inv : Inv w ws) {s : Sched}
    (same : ∀ t, (w.phase t).waits → SameLink w.sched s t) : Inv { w with sched := s } ws := by
  have hwaits := fun t ht => same t ((inv.fits t).waits.mp ht)
  refine ⟨Seg.congr inv.chain (fun t ht => (hwaits t ht).1), ?_, inv.tickets, inv.free, inv.fits⟩
  refine inv.sorted.imp_of_mem (fun {t u} ht hu h => ?_)
  rw [Before, (hwaits t ht).2, (hwaits u hu).2]
  exact h

/-- The scheduler of one CPU is such a scheduler, as long as no task that waits for the mutex is
queued, running or unblocked there. -/
theorem reschedule_of_exec {w : World} {cpu cpu' : RunQueues.Cpu} {call : RunQueues.Call}
    {fuel : Nat} (sched : cpu.sched = w.sched) (inv : RunQueues.Inv cpu)
    (fit : RunQueues.Valid cpu call) (run : RunQueues.exec fuel cpu call = some cpu')
    (apart : ∀ t, (w.phase t).waits → RunQueues.Apart cpu call t) :
    Step w (.reschedule cpu'.sched) { w with sched := cpu'.sched } := by
  refine ⟨fun t ht => ?_, rfl⟩
  rw [← sched]
  exact inv.exec_keeps fit run (apart t ht)

theorem count_append_self (t : BitVec 64) (xs : List (BitVec 64)) :
    (xs ++ [t]).count t = xs.count t + 1 := by
  simp

theorem count_append_of_ne {t u : BitVec 64} (xs : List (BitVec 64)) (hne : u ≠ t) :
    (xs ++ [t]).count u = xs.count u := by
  simp [hne.symm]

theorem count_le_append {u : BitVec 64} (xs ys : List (BitVec 64)) :
    xs.count u ≤ (xs ++ ys).count u := by
  rw [List.count_append]
  exact Nat.le_add_right _ _

/-- The call of `mutex_lock` returns true: the mutex was free or had been handed to the task. -/
theorem Inv.acquire {w : World} {ws : List (BitVec 64)} (inv : Inv w ws) {t : BitVec 64}
    (phase : w.phase t = .locking) (may : w.mutex.locked = false ∨ w.mutex.owner = some t) :
    Inv (w.turned t (true, { w.mutex with owner := some t, locked := true }, w.sched)) ws := by
  have hmine : ∀ u ≠ t, w.mutex.owner ≠ some u := by
    intro u hne howner
    rcases may with hfree | hmine
    · rw [(inv.free hfree).1] at howner
      exact absurd howner (by simp)
    · exact hne (Option.some.inj (howner.symm.trans hmine))
  refine ⟨inv.chain, inv.sorted, inv.tickets, fun h => absurd h (by simp [World.turned]), ?_⟩
  intro u
  by_cases hne : u = t
  · subst hne
    have hfits := inv.fits u
    rw [phase] at hfits
    simp only [World.turned, World.setPhase, World.fits, Function.update_self, Fits,
      count_append_self]
    exact ⟨hfits.1, fun _ => congrArg (· + 1) hfits.2, fun h => absurd trivial h⟩
  · have hfits := inv.fits u
    simp only [World.turned, World.setPhase, World.fits, Function.update_of_ne hne,
      count_append_of_ne _ hne]
    have howner : (some t = some u) = (w.mutex.owner = some u) := by
      simp [hmine u hne, Ne.symm hne]
    rw [howner]
    exact hfits

/-- The task queues behind the waiters that are not less urgent. -/
theorem Inv.push {w : World} {ws : List (BitVec 64)} (inv : Inv w ws) {t : BitVec 64} {fuel : Nat}
    {head : Option (BitVec 64)} {s : Sched} (phase : w.phase t = .locking)
    (locked : w.mutex.locked = true) (other : w.mutex.owner ≠ some t)
    (push : taskPqPush fuel w.sched w.mutex.waitQueue t = some (head, s)) :
    ∃ ws', Inv (w.turned t (false, { w.mutex with waitQueue := head }, s)) ws' := by
  have hfits := inv.fits t
  rw [phase] at hfits
  obtain ⟨-, -, htask⟩ := taskPqPush_task push
  have hprio : s.prio = w.sched.prio := funext (fun u => (htask u).2.2)
  obtain ⟨before, after, rfl, hbefore, hafter, hchain, -, -⟩ :=
    (taskPqPush_pushed push).chain inv.chain hfits.1
  have hmem : ∀ u ≠ t, (u ∈ before ++ t :: after ↔ u ∈ before ++ after) := by
    intro u hne
    rw [List.perm_middle.mem_iff, List.mem_cons, or_iff_right hne]
  refine ⟨before ++ t :: after, hchain, ?_, ?_, ?_, ?_⟩
  · simp only [World.turned, hprio]
    exact pairwise_insert inv.sorted hfits.1 inv.tickets hbefore hafter
  · intro u hu
    simp only [World.turned]
    by_cases hne : u = t
    · subst hne
      rw [Function.update_self]
      exact Nat.lt_succ_self _
    · rw [Function.update_of_ne hne]
      exact Nat.lt_succ_of_lt (inv.tickets u ((hmem u hne).mp hu))
  · intro hfree
    exact absurd (locked.symm.trans hfree) (by simp)
  · intro u
    by_cases hne : u = t
    · subst hne
      simp only [World.turned, World.setPhase, World.fits, Function.update_self]
      exact ⟨by simp, other, hfits.2⟩
    · simp only [World.turned, World.setPhase, World.fits, Function.update_of_ne hne,
        hmem u hne]
      exact inv.fits u

/-- The mutex is free again: nobody waited. -/
theorem Inv.unlockFree {w : World} (inv : Inv w []) {t : BitVec 64}
    (phase : w.phase t = .unlocking) :
    Inv (w.unlocked t (none, { w.mutex with locked := false, owner := none }, w.sched)) [] := by
  have hfits := inv.fits t
  rw [phase] at hfits
  refine ⟨inv.chain, inv.sorted, inv.tickets, fun _ => ⟨rfl, rfl⟩, fun u => ?_⟩
  by_cases hne : u = t
  · subst hne
    simp only [World.unlocked, World.setPhase, World.fits, Function.update_self,
      count_append_self]
    exact ⟨hfits.1, fun h => absurd h (by simp), fun _ => hfits.2.2⟩
  · have hother : w.mutex.owner ≠ some u :=
      fun h => hne (Option.some.inj (h.symm.trans hfits.2.1))
    have howner : (none = some u) = (w.mutex.owner = some u) := by simp [hother]
    simp only [World.unlocked, World.setPhase, World.fits, Function.update_of_ne hne,
      count_append_of_ne _ hne]
    rw [howner]
    exact inv.fits u

/-- The mutex is handed to the first of the wait queue. -/
theorem Inv.handOver {w : World} {next : BitVec 64} {ws : List (BitVec 64)}
    (inv : Inv w (next :: ws)) {t : BitVec 64} (phase : w.phase t = .unlocking) :
    Inv (w.unlocked t (some next, { w.mutex with
      owner := some next
      waitQueue := w.sched.next next }, w.sched.setNext next none)) ws := by
  have hnodup := List.nodup_cons.mp (chain_nodup inv.chain)
  have hwaits := (inv.fits next).waits.mp List.mem_cons_self
  have hne : next ≠ t := by
    rintro rfl
    rw [phase] at hwaits
    exact absurd hwaits (by simp [Phase.waits])
  have hmine : w.mutex.owner = some t := by
    have hfits := inv.fits t
    rw [phase] at hfits
    exact hfits.2.1
  have hprio : (w.sched.setNext next none).prio = w.sched.prio :=
    funext fun u => (setNext_task w.sched next u none).2.2
  refine ⟨?_, ?_, fun u hu => inv.tickets u (List.mem_cons_of_mem _ hu), ?_, fun u => ?_⟩
  · simp only [World.unlocked, setNext_next]
    exact Seg.update inv.chain.2 hnodup.1
  · simp only [World.unlocked, hprio]
    exact (List.pairwise_cons.mp inv.sorted).2
  · intro hfree
    have hnone := (inv.free hfree).1
    rw [hmine] at hnone
    exact absurd hnone (by simp)
  · have hfits := inv.fits u
    by_cases hun : u = next
    · subst hun
      simp only [World.unlocked, World.setPhase, World.fits, Function.update_self]
      exact hfits.wake hwaits hnodup.1 trivial
    · have hmem : (u ∈ next :: ws) = (u ∈ ws) := propext (List.mem_cons.trans (or_iff_right hun))
      by_cases hut : u = t
      · subst hut
        rw [phase, World.fits, hmem] at hfits
        simp only [World.unlocked, World.setPhase, World.fits, Function.update_of_ne hun,
          Function.update_self]
        exact ⟨hfits.1, fun h => hun (Option.some.inj h).symm, hfits.2.2⟩
      · have howner : (some next = some u) = (w.mutex.owner = some u) := by
          simp [hmine, Ne.symm hun, Ne.symm hut]
        rw [World.fits, hmem] at hfits
        simp only [World.unlocked, World.setPhase, World.fits, Function.update_of_ne hun,
          Function.update_of_ne hut]
        rw [howner]
        exact hfits

/-- A call of `mutex_unlock` that has handed the mutex over returns. -/
theorem Inv.ret {w : World} {ws : List (BitVec 64)} (inv : Inv w ws) {t : BitVec 64}
    (phase : w.phase t = .leaving) :
    Inv { w.setPhase t .outside with released := w.released ++ [t] } ws := by
  refine ⟨inv.chain, inv.sorted, inv.tickets, inv.free, fun u => ?_⟩
  have hfits := inv.fits u
  by_cases hne : u = t
  · subst hne
    rw [phase] at hfits
    simp only [World.setPhase, World.fits, Function.update_self, count_append_self]
    exact ⟨hfits.1, fun h => absurd h hfits.2.1, fun _ => hfits.2.2⟩
  · simp only [World.setPhase, World.fits, Function.update_of_ne hne, count_append_of_ne _ hne]
    exact hfits

/-! ## The steps -/

/-- What a turn of `mutex_lock` can do. -/
theorem mutexLockTurn_cases {fuel : Nat} {m : Mutex} {s : Sched} {t : BitVec 64}
    {result : Bool × Mutex × Sched} (h : mutexLockTurn fuel m s t = some result) :
    ((m.locked = false ∨ m.owner = some t) ∧
      result = (true, { m with owner := some t, locked := true }, s)) ∨
    (m.locked = true ∧ m.owner ≠ some t ∧ ∃ head s',
      taskPqPush fuel s m.waitQueue t = some (head, s') ∧
      result = (false, { m with waitQueue := head }, s')) := by
  rw [mutexLockTurn] at h
  split_ifs at h with hfree hmine
  · exact Or.inl ⟨Or.inl hfree, (Option.some.inj h).symm⟩
  · refine Or.inl ⟨Or.inr hmine, (Option.some.inj h).symm.trans ?_⟩
    obtain ⟨owner, waitQueue, locked⟩ := m
    simp_all
  · obtain ⟨⟨head, s'⟩, hpush, rfl⟩ := Option.map_eq_some_iff.mp h
    exact Or.inr ⟨by simpa using hfree, hmine, head, s', hpush, rfl⟩

/-- What `mutex_unlock` does to a wait queue. -/
theorem mutexUnlockSection_chain {m : Mutex} {s : Sched} {ws : List (BitVec 64)}
    (chain : Chain s.next m.waitQueue ws) :
    (ws = [] ∧ mutexUnlockSection m s = (none, { m with locked := false, owner := none }, s)) ∨
    ∃ next rest, ws = next :: rest ∧ mutexUnlockSection m s =
      (some next, { m with owner := some next, waitQueue := s.next next },
        s.setNext next none) := by
  cases ws with
  | nil =>
    have hhead : m.waitQueue = none := chain
    exact Or.inl ⟨rfl, by simp [mutexUnlockSection, taskPqPop, hhead]⟩
  | cons next rest =>
    have hhead : m.waitQueue = some next := chain.1
    exact Or.inr ⟨next, rest, rfl, by simp [mutexUnlockSection, taskPqPop, hhead]⟩

theorem Inv.step {w w' : World} {ws : List (BitVec 64)} {a : Action} (inv : Inv w ws)
    (notNested : NotNested w a) (step : Step w a w') : ∃ ws', Inv w' ws' := by
  cases a with
  | lock t =>
    obtain ⟨hphase, rfl⟩ := step
    have hfits := inv.fits t
    rw [hphase] at hfits
    exact ⟨ws, inv.setPhase ⟨hfits.1, hfits.2.2 notNested⟩⟩
  | turn t =>
    obtain ⟨hphase, fuel, result, hturn, rfl⟩ := step
    rcases mutexLockTurn_cases hturn with ⟨hmay, rfl⟩ | ⟨hlocked, hother, head, s, hpush, rfl⟩
    · exact ⟨ws, inv.acquire hphase hmay⟩
    · exact inv.push hphase hlocked hother hpush
  | block t =>
    obtain ⟨woken, hphase, rfl⟩ := step
    have hfits := inv.fits t
    rw [hphase] at hfits
    have hmoved : Inv (w.setPhase t (.blocked woken)) ws := by
      refine inv.setPhase ?_
      cases woken with
      | false => exact hfits
      | true => exact hfits
    exact ⟨ws, hmoved.reschedule fun u _ => RunQueues.sameLink_setState w.sched t .blocked u⟩
  | resume t =>
    obtain ⟨hphase, rfl⟩ := step
    have hfits := inv.fits t
    rw [hphase] at hfits
    exact ⟨ws, inv.setPhase ⟨hfits.1, hfits.2.2⟩⟩
  | unlock t =>
    obtain ⟨hphase, rfl⟩ := step
    split_ifs with hmine
    · have hfits := inv.fits t
      rw [hphase] at hfits
      exact ⟨ws, inv.setPhase ⟨hfits.1, hmine, hfits.2.1 hmine⟩⟩
    · exact ⟨ws, inv⟩
  | unlockSection t =>
    obtain ⟨hphase, rfl⟩ := step
    rcases mutexUnlockSection_chain inv.chain with ⟨rfl, hsection⟩ | ⟨next, rest, rfl, hsection⟩
    · rw [hsection]
      exact ⟨[], inv.unlockFree hphase⟩
    · rw [hsection]
      exact ⟨rest, inv.handOver hphase⟩
  | ret t =>
    obtain ⟨hphase, rfl⟩ := step
    exact ⟨ws, inv.ret hphase⟩
  | reschedule s =>
    obtain ⟨hsame, rfl⟩ := step
    exact ⟨ws, inv.reschedule hsame⟩

theorem Inv.fresh {w : World} (h : Fresh w) : Inv w [] := by
  obtain ⟨hmutex, hphase, hacquired, hreleased, -⟩ := h
  refine ⟨?_, List.Pairwise.nil, fun t ht => absurd ht List.not_mem_nil, ?_, fun t => ?_⟩
  · rw [hmutex]
    rfl
  · rw [hmutex]
    exact fun _ => ⟨rfl, rfl⟩
  · rw [World.fits, hphase, hmutex, hacquired, hreleased]
    exact ⟨List.not_mem_nil, fun h => absurd h (by simp [mutexInit]), fun _ => rfl⟩

theorem inv_reachable {w : World} (h : Reachable (mutexCalls.restrict NotNested) w) :
    ∃ ws, Inv w ws := by
  refine h.invariant (fun w => ∃ ws, Inv w ws) (fun w hw => ⟨[], Inv.fresh hw⟩) ?_
  rintro w a w' ⟨ws, inv⟩ ⟨hnested, hstep⟩
  exact inv.step hnested hstep

/-! ## Three tasks -/

def taskA : BitVec 64 := 0x1000

def taskB : BitVec 64 := 0x2000

def taskC : BitVec 64 := 0x3000

/-- A new mutex; `taskC` is the most urgent of the tasks. -/
def newWorld : World where
  mutex := mutexInit
  sched :=
    { cpuCount := 1
      cpu := fun _ => ⟨none, none, none, none, 0⟩
      task := fun t =>
        { next := none
          state := .running
          taskClass := .normal
          prio := if t = taskC then 1 else 5 } }
  phase := fun _ => .outside
  acquired := []
  released := []
  ticket := fun _ => 0
  clock := 0

theorem fresh_newWorld : Fresh newWorld := ⟨rfl, fun _ => rfl, rfl, rfl, rfl⟩

/-- A call of `mutex_lock` up to the end of its first turn. -/
theorem lockTurn_reachable {guard : World → Action → Prop} {w : World} {t : BitVec 64}
    {result : Bool × Mutex × Sched} (h : Reachable (mutexCalls.restrict guard) w)
    (outside : w.phase t = .outside) (call : guard w (.lock t))
    (turn : guard (w.setPhase t .locking) (.turn t))
    (run : mutexLockTurn 1 w.mutex w.sched t = some result) :
    Reachable (mutexCalls.restrict guard) ((w.setPhase t .locking).turned t result) := by
  refine .next (.next h ⟨call, outside, rfl⟩) ⟨turn, ?_, 1, result, run, rfl⟩
  exact Function.update_self _ _ _

/-- A call of `mutex_unlock` by the owner, up to the end of its critical section. -/
theorem unlockSection_reachable {guard : World → Action → Prop} {w : World} {t : BitVec 64}
    (h : Reachable (mutexCalls.restrict guard) w) (outside : w.phase t = .outside)
    (owner : w.mutex.owner = some t) (call : guard w (.unlock t))
    (unlock : guard (w.setPhase t .unlocking) (.unlockSection t)) :
    Reachable (mutexCalls.restrict guard)
      ((w.setPhase t .unlocking).unlocked t (mutexUnlockSection w.mutex w.sched)) := by
  refine .next (.next h ⟨call, outside, ?_⟩) ⟨unlock, ?_, rfl⟩
  · rw [if_pos owner]
  · exact Function.update_self _ _ _

/-- `taskA` has the mutex, `taskB` has queued and then `taskC`. -/
def contended : World :=
  let held := (newWorld.setPhase taskA .locking).turned taskA
    (true, { owner := some taskA, waitQueue := none, locked := true }, newWorld.sched)
  let waiting := (held.setPhase taskB .locking).turned taskB
    (false, { owner := some taskA, waitQueue := some taskB, locked := true },
      held.sched.setNext taskB none)
  (waiting.setPhase taskC .locking).turned taskC
    (false, { owner := some taskA, waitQueue := some taskC, locked := true },
      waiting.sched.setNext taskC (some taskB))

theorem contended_reachable : Reachable (mutexCalls.restrict Guard) contended := by
  have hnobody : ∀ u, (newWorld.setPhase taskA .locking).phase u ≠ .leaving := by
    intro u
    simp only [World.setPhase, newWorld, Function.update_apply]
    split_ifs
    · decide
    · decide
  have hstart : Reachable (mutexCalls.restrict Guard) newWorld := .start fresh_newWorld
  have hheld := lockTurn_reachable (t := taskA) hstart rfl
    ⟨(Option.some_ne_none taskA).symm, trivial⟩ ⟨trivial, fun _ => hnobody⟩ rfl
  have hwaiting := lockTurn_reachable (t := taskB) hheld rfl
    ⟨fun h => absurd (Option.some.inj h) (by decide), trivial⟩
    ⟨trivial, fun h => absurd h (by decide)⟩ rfl
  exact lockTurn_reachable (t := taskC) hwaiting rfl
    ⟨fun h => absurd (Option.some.inj h) (by decide), trivial⟩
    ⟨trivial, fun h => absurd h (by decide)⟩ rfl

/-! ## Exclusion -/

/-- The task has got the mutex more often than it has given it back. -/
def World.ahead (w : World) (t : BitVec 64) : Prop := w.released.count t < w.acquired.count t

/-- Only a turn of `mutex_lock` that returns true puts a task ahead. -/
theorem Step.ahead {w w' : World} {a : Action} {t : BitVec 64} (step : Step w a w')
    (ahead : w'.ahead t) :
    w.ahead t ∨ a = .turn t ∧ (w.mutex.locked = false ∨ w.mutex.owner = some t) := by
  cases a with
  | lock u | resume u =>
    obtain ⟨-, rfl⟩ := step
    exact Or.inl ahead
  | turn u =>
    obtain ⟨-, fuel, result, hturn, rfl⟩ := step
    rcases mutexLockTurn_cases hturn with ⟨hmay, rfl⟩ | ⟨-, -, head, s, -, rfl⟩
    · by_cases hne : t = u
      · subst hne
        exact Or.inr ⟨rfl, hmay⟩
      · rw [World.ahead, World.turned, count_append_of_ne _ hne] at ahead
        exact Or.inl ahead
    · exact Or.inl ahead
  | block u =>
    obtain ⟨woken, -, rfl⟩ := step
    exact Or.inl ahead
  | unlock u =>
    obtain ⟨-, rfl⟩ := step
    split_ifs at ahead
    · exact Or.inl ahead
    · exact Or.inl ahead
  | unlockSection u =>
    obtain ⟨-, rfl⟩ := step
    generalize mutexUnlockSection w.mutex w.sched = result at ahead
    obtain ⟨_ | next, m, s⟩ := result
    · exact Or.inl (Nat.lt_of_le_of_lt (count_le_append _ _) ahead)
    · exact Or.inl ahead
  | ret u =>
    obtain ⟨-, rfl⟩ := step
    exact Or.inl (Nat.lt_of_le_of_lt (count_le_append _ _) ahead)
  | reschedule s =>
    obtain ⟨-, rfl⟩ := step
    exact Or.inl ahead

/-- What the guarded calls keep: the books of the mutex, and that one task at most is ahead. -/
def Exclusive (w : World) : Prop :=
  (∃ ws, Inv w ws) ∧ ∀ t u, w.ahead t → w.ahead u → t = u

theorem Exclusive.step {w w' : World} {a : Action} (h : Exclusive w) (guard : Guard w a)
    (step : Step w a w') : Exclusive w' := by
  obtain ⟨⟨ws, inv⟩, hone⟩ := h
  -- whoever gets the mutex finds nobody ahead
  have hnone : ∀ t u, a = .turn t → w.mutex.locked = false ∨ w.mutex.owner = some t →
      w.ahead u → u = t := by
    rintro t u rfl hmay hu
    rcases (inv.fits u).owns_of_lt hu with howner | hleaving
    · rcases hmay with hfree | hmine
      · exact absurd (howner.symm.trans (inv.free hfree).1) (by simp)
      · exact Option.some.inj (howner.symm.trans hmine)
    · exact absurd hleaving (guard.2 hmay u)
  refine ⟨inv.step guard.1 step, fun t u ht hu => ?_⟩
  rcases step.ahead ht with ht | ⟨hat, hmay⟩
  · rcases step.ahead hu with hu | ⟨hau, hmay⟩
    · exact hone t u ht hu
    · exact hnone u t hau hmay ht
  · rcases step.ahead hu with hu | ⟨hau, -⟩
    · exact (hnone t u hat hmay hu).symm
    · exact Action.turn.inj (hat.symm.trans hau)

/-- In every run without nested calls of `mutex_lock`, in which `mutex_lock` returns true only
when no `mutex_unlock` is still leaving, at most one task has got the mutex more often than it
has given it back. -/
theorem mutex_excludes {w : World} (h : Reachable (mutexCalls.restrict Guard) w)
    (t u : BitVec 64) (ht : w.released.count t < w.acquired.count t)
    (hu : w.released.count u < w.acquired.count u) : t = u := by
  have hexclusive : Exclusive w := by
    refine h.invariant Exclusive (fun w hw => ⟨⟨[], Inv.fresh hw⟩, fun t u ht => ?_⟩) ?_
    · obtain ⟨-, -, hacquired, -⟩ := hw
      rw [World.ahead, hacquired] at ht
      exact absurd ht (Nat.not_lt_zero _)
    · exact fun w a w' hw hstep => hw.step hstep.1 hstep.2
  exact hexclusive.2 t u ht hu

/-- After the hand-over to `taskC` that task alone is ahead. -/
theorem mutex_excludes_handed_over : ∃ w, Reachable (mutexCalls.restrict Guard) w ∧
    w.released.count taskC < w.acquired.count taskC ∧
    ∀ t, w.released.count t < w.acquired.count t → t = taskC := by
  have hhanded := unlockSection_reachable (t := taskA) contended_reachable rfl rfl
    ⟨trivial, trivial⟩ ⟨trivial, trivial⟩
  have hreturned := Reachable.next (a := Action.ret taskA) hhanded ⟨⟨trivial, trivial⟩, rfl, rfl⟩
  have hblocked := Reachable.next (a := Action.block taskC) hreturned
    ⟨⟨trivial, trivial⟩, true, rfl, rfl⟩
  have hresumed := Reachable.next (a := Action.resume taskC) hblocked
    ⟨⟨trivial, trivial⟩, rfl, rfl⟩
  obtain ⟨ws, inv⟩ := inv_reachable (hresumed.restrict_mono fun _ _ h => h.1)
  have hgot := Reachable.next (a := Action.turn taskC) hresumed
    ⟨⟨trivial, fun _ u hleaving => ?_⟩, rfl, 1, _, rfl, rfl⟩
  · exact ⟨_, hgot, by decide, fun t ht => mutex_excludes hgot t taskC ht (by decide)⟩
  · -- the calls of a task that is leaving do not balance yet
    have hfits := inv.fits u
    rw [hleaving] at hfits
    have hcount : [taskA].count u = [taskA].count u + 1 := hfits.2.2
    exact absurd hcount (Nat.ne_of_lt (Nat.lt_succ_self _))

/-- The owner locks twice and unlocks once: the mutex goes to the next one although the owner has
given back only one of its two locks. -/
theorem nested_lock_is_forgotten : ∃ w, Reachable mutexCalls w ∧
    w.released.count taskA < w.acquired.count taskA ∧
    w.released.count taskB < w.acquired.count taskB ∧ taskA ≠ taskB := by
  have hstart : Reachable (mutexCalls.restrict fun _ _ => True) newWorld := .start fresh_newWorld
  have hlocked := lockTurn_reachable (t := taskA) hstart rfl trivial trivial rfl
  have hnested := lockTurn_reachable (t := taskA) hlocked rfl trivial trivial rfl
  have hunlocked := unlockSection_reachable (t := taskA) hnested rfl rfl trivial trivial
  have hother := lockTurn_reachable (t := taskB) hunlocked rfl trivial trivial rfl
  exact ⟨_, hother.of_restrict, by decide, by decide, by decide⟩

/-! ## Hand-over -/

/-- The mutex belongs to a task whose call of `mutex_lock` has not returned yet. -/
def HandedTo (w : World) (t : BitVec 64) : Prop :=
  w.mutex.owner = some t ∧ ((w.phase t).woken ∨ w.phase t = .locking)

theorem HandedTo.ne {w : World} {n t : BitVec 64} (h : HandedTo w n) {phase : Phase}
    (there : w.phase t = phase) (out : ¬ (phase.woken ∨ phase = .locking)) : n ≠ t := by
  rintro rfl
  exact out (there ▸ h.2)

theorem HandedTo.setPhase {w : World} {n t : BitVec 64} (h : HandedTo w n) (hne : n ≠ t)
    (phase : Phase) : HandedTo (w.setPhase t phase) n := by
  refine ⟨h.1, ?_⟩
  simp only [World.setPhase, Function.update_of_ne hne]
  exact h.2

/-- Until the call returns the mutex stays with its owner and no other call returns true. -/
theorem HandedTo.step {w w' : World} {ws : List (BitVec 64)} {a : Action} {n : BitVec 64}
    (h : HandedTo w n) (inv : Inv w ws) (step : Step w a w') :
    (HandedTo w' n ∧ w'.acquired = w.acquired) ∨ w'.acquired = w.acquired ++ [n] := by
  cases a with
  | lock t =>
    obtain ⟨hphase, rfl⟩ := step
    exact Or.inl ⟨h.setPhase (h.ne hphase (by simp [Phase.woken])) _, rfl⟩
  | turn t =>
    obtain ⟨hphase, fuel, result, hturn, rfl⟩ := step
    rcases mutexLockTurn_cases hturn with ⟨hmay, rfl⟩ | ⟨-, hother, head, s, -, rfl⟩
    · have hmine : w.mutex.owner = some t := by
        refine hmay.resolve_left (fun hfree => ?_)
        exact absurd (h.1.symm.trans (inv.free hfree).1) (by simp)
      obtain rfl : n = t := Option.some.inj (h.1.symm.trans hmine)
      exact Or.inr rfl
    · have hne : n ≠ t := fun e => hother (e ▸ h.1)
      exact Or.inl ⟨h.setPhase hne _, rfl⟩
  | block t =>
    obtain ⟨woken, hphase, rfl⟩ := step
    refine Or.inl ⟨⟨h.1, ?_⟩, rfl⟩
    by_cases hne : n = t
    · subst hne
      have hwoken := h.2
      rw [hphase] at hwoken
      simpa [Phase.woken, World.setPhase] using hwoken
    · exact (h.setPhase hne (.blocked woken)).2
  | resume t =>
    obtain ⟨hphase, rfl⟩ := step
    refine Or.inl ⟨⟨h.1, ?_⟩, rfl⟩
    by_cases hne : n = t
    · exact Or.inr (by simp [World.setPhase, hne])
    · exact (h.setPhase hne .locking).2
  | unlock t =>
    obtain ⟨hphase, rfl⟩ := step
    have hne : n ≠ t := h.ne hphase (by simp [Phase.woken])
    split_ifs
    · exact Or.inl ⟨h.setPhase hne _, rfl⟩
    · exact Or.inl ⟨h, rfl⟩
  | unlockSection t =>
    -- only the owner unlocks, and the owner is in `mutex_lock`
    obtain ⟨hphase, rfl⟩ := step
    have hfits := inv.fits t
    rw [hphase] at hfits
    obtain rfl : n = t := Option.some.inj (h.1.symm.trans hfits.2.1)
    exact absurd rfl (h.ne hphase (by simp [Phase.woken]))
  | ret t =>
    obtain ⟨hphase, rfl⟩ := step
    exact Or.inl ⟨h.setPhase (h.ne hphase (by simp [Phase.woken])) _, rfl⟩
  | reschedule s =>
    obtain ⟨-, rfl⟩ := step
    exact Or.inl ⟨h, rfl⟩

theorem Step.acquired {w w' : World} {a : Action} (step : Step w a w') :
    ∃ later, w'.acquired = w.acquired ++ later := by
  cases a with
  | turn t =>
    obtain ⟨-, fuel, result, hturn, rfl⟩ := step
    rcases mutexLockTurn_cases hturn with ⟨-, rfl⟩ | ⟨-, -, head, s, -, rfl⟩
    · exact ⟨[t], rfl⟩
    · exact ⟨[], (List.append_nil _).symm⟩
  | unlockSection t =>
    obtain ⟨-, rfl⟩ := step
    refine ⟨[], ?_⟩
    rcases mutexUnlockSection w.mutex w.sched with ⟨_ | next, m, s⟩
    · exact (List.append_nil _).symm
    · exact (List.append_nil _).symm
  | unlock t =>
    obtain ⟨-, rfl⟩ := step
    refine ⟨[], ?_⟩
    split_ifs
    · exact (List.append_nil _).symm
    · exact (List.append_nil _).symm
  | block t =>
    obtain ⟨woken, -, rfl⟩ := step
    exact ⟨[], (List.append_nil _).symm⟩
  | reschedule s =>
    obtain ⟨-, rfl⟩ := step
    exact ⟨[], (List.append_nil _).symm⟩
  | lock t | resume t | ret t =>
    obtain ⟨-, rfl⟩ := step
    exact ⟨[], (List.append_nil _).symm⟩

/-- One step of some call, none of them nested. -/
def Next (w w' : World) : Prop := ∃ a, (mutexCalls.restrict NotNested).step w a w'

/-- However long a run goes on, the first call of `mutex_lock` that returns true is the one the
mutex was handed to. -/
theorem HandedTo.run {w w' : World} {n : BitVec 64} (h : HandedTo w n) (inv : ∃ ws, Inv w ws)
    (run : Relation.ReflTransGen Next w w') :
    (∃ ws, Inv w' ws) ∧ ((HandedTo w' n ∧ w'.acquired = w.acquired) ∨
      ∃ later, w'.acquired = w.acquired ++ n :: later) := by
  induction run with
  | refl => exact ⟨inv, Or.inl ⟨h, rfl⟩⟩
  | tail _ hnext ih =>
    obtain ⟨a, hnested, hstep⟩ := hnext
    obtain ⟨⟨ws, hinv⟩, hsofar⟩ := ih
    refine ⟨hinv.step hnested hstep, ?_⟩
    rcases hsofar with ⟨hhanded, hsame⟩ | ⟨later, hlater⟩
    · rcases hhanded.step hinv hstep with ⟨hhanded, hnone⟩ | hfirst
      · exact Or.inl ⟨hhanded, hnone.trans hsame⟩
      · exact Or.inr ⟨[], by rw [hfirst, hsame]⟩
    · obtain ⟨more, hmore⟩ := hstep.acquired
      exact Or.inr ⟨later ++ more, by rw [hmore, hlater, List.append_assoc, List.cons_append]⟩

/-- A waiter that is handed the mutex is in `mutex_lock`. -/
theorem handedTo_unlocked {w : World} {next : BitVec 64} {ws : List (BitVec 64)} (t : BitVec 64)
    (inv : Inv w (next :: ws)) {m : Mutex} (s : Sched) (owner : m.owner = some next) :
    HandedTo (w.unlocked t (some next, m, s)) next := by
  refine ⟨owner, Or.inl ?_⟩
  simp only [World.unlocked, World.setPhase, Function.update_self]
  rcases (inv.fits next).waits.mp List.mem_cons_self with hwaits | hwaits
  · exact Or.inl (by rw [hwaits]; rfl)
  · exact Or.inr (by rw [hwaits]; rfl)

/-- In every run without nested calls: a free mutex has no owner and no waiters; a task blocked in
`mutex_lock` is in the wait queue once or owns the mutex; and `mutex_unlock` hands the mutex to
the most urgent waiter, the one that queued first among equals, which is then the first whose
call of `mutex_lock` returns true. -/
theorem mutex_hands_over {w : World} (h : Reachable (mutexCalls.restrict NotNested) w) :
    (w.mutex.locked = false → w.mutex.owner = none ∧ w.mutex.waitQueue = none) ∧
    ∃ ws, Chain w.sched.next w.mutex.waitQueue ws ∧
      (∀ t woken, w.phase t = .queued woken ∨ w.phase t = .blocked woken →
        ws.count t = 1 ∨ w.mutex.owner = some t) ∧
      ∀ t w', (mutexCalls.restrict NotNested).step w (.unlockSection t) w' →
        w.mutex.waitQueue ≠ none →
        ∃ next ∈ ws, w'.mutex.owner = some next ∧
          (∀ u ∈ ws, u ≠ next → Before w.sched.prio w.ticket next u) ∧
          ∀ w'', Relation.ReflTransGen Next w' w'' →
            ∃ later, w''.acquired = w'.acquired ++ later ∧
              ∀ u, later.head? = some u → u = next := by
  obtain ⟨ws, inv⟩ := inv_reachable h
  refine ⟨fun hfree => ?_, ws, inv.chain, ?_, ?_⟩
  · obtain ⟨hnone, rfl⟩ := inv.free hfree
    exact ⟨hnone, inv.chain⟩
  · intro t woken hphase
    have hfits := inv.fits t
    cases woken with
    | false =>
      have hwaits : (w.phase t).waits := hphase
      exact Or.inl (List.count_eq_one_of_mem (chain_nodup inv.chain) (hfits.waits.mpr hwaits))
    | true =>
      rcases hphase with hphase | hphase
      · rw [hphase] at hfits
        exact Or.inr hfits.2.1
      · rw [hphase] at hfits
        exact Or.inr hfits.2.1
  · rintro t w' ⟨hnested, hphase, rfl⟩ hwaiting
    rcases mutexUnlockSection_chain inv.chain with ⟨rfl, -⟩ | ⟨next, rest, rfl, hsection⟩
    · exact absurd inv.chain hwaiting
    · have hinv := inv.handOver hphase
      rw [hsection]
      refine ⟨next, List.mem_cons_self, rfl, ?_, fun w'' run => ?_⟩
      · intro u hu hne
        exact (List.pairwise_cons.mp inv.sorted).1 u ((List.mem_cons.mp hu).resolve_left hne)
      · rcases ((handedTo_unlocked t inv _ rfl).run ⟨rest, hinv⟩ run).2 with
          ⟨-, hsame⟩ | ⟨later, hlater⟩
        · exact ⟨[], by rw [hsame, List.append_nil], by simp⟩
        · exact ⟨next :: later, hlater, fun u hu => (Option.some.inj hu).symm⟩

/-- `taskC` queued last and is handed the mutex first. -/
theorem mutex_hands_over_most_urgent : ∃ w w', Reachable (mutexCalls.restrict NotNested) w ∧
    (mutexCalls.restrict NotNested).step w (.unlockSection taskA) w' ∧
    w'.mutex.owner = some taskC ∧ ∀ w'', Relation.ReflTransGen Next w' w'' →
      ∃ later, w''.acquired = w'.acquired ++ later ∧
        ∀ u, later.head? = some u → u = taskC := by
  have hcalled := Reachable.next (a := Action.unlock taskA) contended_reachable
    ⟨⟨trivial, trivial⟩, rfl, rfl⟩
  have hreach : Reachable (mutexCalls.restrict NotNested) _ :=
    hcalled.restrict_mono fun _ _ h => h.1
  obtain ⟨-, ws, -, -, hhand⟩ := mutex_hands_over hreach
  obtain ⟨next, -, howner, -, hfirst⟩ := hhand taskA _ ⟨trivial, rfl, rfl⟩ (by decide)
  obtain rfl : taskC = next := Option.some.inj howner
  exact ⟨_, _, hreach, ⟨trivial, rfl, rfl⟩, rfl, hfirst⟩

end Mutexes
