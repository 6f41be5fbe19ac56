import AnosKernel.Lib.Chains
import Mathlib.Data.List.ProdSigma

/-!
# Run queues

`kernel/sched/prr.c` keeps four run queues for each CPU, one for each task class, and
`kernel/structs/pq.c` keeps each of them as a list in priority order, threaded through the
`next` field of the tasks. A task pointer is its address and the tasks are a heap of records.
Walking a list may not end when the links form a cycle, so the walk takes fuel and answers
`none` when it is used up.
-/

namespace Scheduler

open Chains

inductive TaskClass
  | idle
  | normal
  | high
  | realtime
  | invalid
  deriving DecidableEq, Repr

inductive TaskState
  | blocked
  | ready
  | running
  | terminating
  | terminated
  deriving DecidableEq, Repr

/-- The fields of a task that queueing reads and writes; `next` is `this.next`. -/
structure Task where
  next : Option (BitVec 64)
  state : TaskState
  taskClass : TaskClass
  prio : BitVec 8
  deriving DecidableEq, Repr

structure PerCPUSchedState where
  realtimeHead : Option (BitVec 64)
  highHead : Option (BitVec 64)
  normalHead : Option (BitVec 64)
  idleHead : Option (BitVec 64)
  allQueueTotal : BitVec 64
  deriving DecidableEq, Repr

/-- The head of a class's queue; there is no queue for the invalid class. -/
def PerCPUSchedState.head (cpu : PerCPUSchedState) : TaskClass → Option (BitVec 64)
  | .realtime => cpu.realtimeHead
  | .high => cpu.highHead
  | .normal => cpu.normalHead
  | .idle => cpu.idleHead
  | .invalid => none

def PerCPUSchedState.setHead (cpu : PerCPUSchedState) (head : Option (BitVec 64)) :
    TaskClass → PerCPUSchedState
  | .realtime => { cpu with realtimeHead := head }
  | .high => { cpu with highHead := head }
  | .normal => { cpu with normalHead := head }
  | .idle => { cpu with idleHead := head }
  | .invalid => cpu

/-- The CPUs by number, `cpuCount` of them, and the task heap. -/
structure Sched where
  cpuCount : Nat
  cpu : Nat → PerCPUSchedState
  task : BitVec 64 → Task

def Sched.next (s : Sched) (t : BitVec 64) : Option (BitVec 64) := (s.task t).next

def Sched.prio (s : Sched) (t : BitVec 64) : BitVec 8 := (s.task t).prio

def Sched.setNext (s : Sched) (t : BitVec 64) (next : Option (BitVec 64)) : Sched :=
  { s with task := Function.update s.task t { s.task t with next := next } }

def Sched.setState (s : Sched) (t : BitVec 64) (state : TaskState) : Sched :=
  { s with task := Function.update s.task t { s.task t with state := state } }

/-- The loop of `task_pq_push`: go on while the next task is not less urgent. -/
def pushAfter (s : Sched) (newNode : BitVec 64) : Nat → BitVec 64 → Option (BitVec 64)
  | 0, _ => none
  | fuel + 1, current =>
    match s.next current with
    | none => some current
    | some n => if s.prio n ≤ s.prio newNode then pushAfter s newNode fuel n else some current

/-- `task_pq_push` on the queue that starts at `head`: the new head and the new links. -/
def taskPqPush (fuel : Nat) (s : Sched) (head : Option (BitVec 64)) (newNode : BitVec 64) :
    Option (Option (BitVec 64) × Sched) :=
  match head with
  | none => some (some newNode, s.setNext newNode none)
  | some first =>
    if s.prio newNode < s.prio first then some (some newNode, s.setNext newNode (some first))
    else
      (pushAfter s newNode fuel first).map fun current =>
        (some first, (s.setNext newNode (s.next current)).setNext current (some newNode))

/-- `task_pq_pop` on the queue that starts at `head`: the first task, the new head and the new
links. -/
def taskPqPop (s : Sched) (head : Option (BitVec 64)) :
    Option (BitVec 64 × Option (BitVec 64) × Sched) :=
  head.map fun minNode => (minNode, s.next minNode, s.setNext minNode none)

/-- `sched_enqueue_on`; a task of no schedulable class is not enqueued. -/
def schedEnqueueOn (fuel : Nat) (s : Sched) (t : BitVec 64) (cpu : Nat) : Option (Bool × Sched) :=
  let cls := (s.task t).taskClass
  if cls = .invalid then some (false, s)
  else
    (taskPqPush fuel s ((s.cpu cpu).head cls) t).map fun (head, s') =>
      (true, { s' with
        cpu := Function.update s'.cpu cpu
          { (s'.cpu cpu).setHead head cls with
            allQueueTotal := (s'.cpu cpu).allQueueTotal + 1 } })

def schedUnblockOn (fuel : Nat) (s : Sched) (t : BitVec 64) (cpu : Nat) : Option Sched :=
  (schedEnqueueOn fuel (s.setState t .ready) t cpu).map (·.2)

/-- The loop of `sched_find_target_cpu` over the CPUs `i, i + 1, …`, `n` of them, with the
best one so far. It reads only the number of tasks each CPU has queued. -/
def findTarget (total : Nat → BitVec 64) : Nat → Nat → Option Nat → Option Nat
  | 0, _, target => target
  | n + 1, i, target =>
    -- a CPU with only its idle thread is taken at once
    if total i = 1 then some i
    else
      match target with
      | none => findTarget total n (i + 1) (some i)
      | some t =>
        if total i < total t then findTarget total n (i + 1) (some i)
        else findTarget total n (i + 1) (some t)

def Sched.totals (s : Sched) (c : Nat) : BitVec 64 := (s.cpu c).allQueueTotal

/-- `sched_find_target_cpu`; null only on a machine without CPUs. -/
def schedFindTargetCpu (s : Sched) : Option Nat := findTarget s.totals s.cpuCount 0 none

/-! ## What the updates leave alone -/

@[simp] theorem setNext_next (s : Sched) (t : BitVec 64) (n : Option (BitVec 64)) :
    (s.setNext t n).next = Function.update s.next t n := by
  funext u
  by_cases h : u = t
  · simp [Sched.next, Sched.setNext, h]
  · simp [Sched.next, Sched.setNext, h]

theorem setNext_task (s : Sched) (t u : BitVec 64) (n : Option (BitVec 64)) :
    ((s.setNext t n).task u).state = (s.task u).state ∧
      ((s.setNext t n).task u).taskClass = (s.task u).taskClass ∧
      ((s.setNext t n).task u).prio = (s.task u).prio := by
  by_cases h : u = t
  · simp [Sched.setNext, h]
  · simp [Sched.setNext, h]

@[simp] theorem setState_next (s : Sched) (t : BitVec 64) (st : TaskState) :
    (s.setState t st).next = s.next := by
  funext u
  by_cases h : u = t
  · simp [Sched.next, Sched.setState, h]
  · simp [Sched.next, Sched.setState, h]

theorem setState_task (s : Sched) (t u : BitVec 64) (st : TaskState) :
    ((s.setState t st).task u).taskClass = (s.task u).taskClass ∧
      ((s.setState t st).task u).prio = (s.task u).prio := by
  by_cases h : u = t
  · simp [Sched.setState, h]
  · simp [Sched.setState, h]

theorem head_setHead (cpu : PerCPUSchedState) (head : Option (BitVec 64)) {cls : TaskClass}
    (valid : cls ≠ .invalid) (k : TaskClass) :
    (cpu.setHead head cls).head k = if k = cls then head else cpu.head k := by
  cases cls <;> cases k <;> first | rfl | exact absurd rfl valid

/-! ## One push -/

/-- What a push on the queue that starts at `head` can do: the task goes first, before a less
urgent one, or behind the last of the tasks walked over, before a less urgent one or at the
end. -/
inductive Pushed (next : BitVec 64 → Option (BitVec 64)) (prio : BitVec 64 → BitVec 8)
    (head : Option (BitVec 64)) (t : BitVec 64) :
    Option (BitVec 64) → (BitVec 64 → Option (BitVec 64)) → Prop
  | front : (∀ first, head = some first → prio t < prio first) →
      Pushed next prio head t (some t) (Function.update next t head)
  | after {walked : List (BitVec 64)} {current : BitVec 64} :
      Seg next head walked (some current) →
      (∀ u ∈ walked ++ [current], prio u ≤ prio t) →
      (∀ n, next current = some n → prio t < prio n) →
      Pushed next prio head t head
        (Function.update (Function.update next t (next current)) current (some t))

theorem pushAfter_walk {s : Sched} {t : BitVec 64} {fuel : Nat} {start current : BitVec 64}
    (h : pushAfter s t fuel start = some current) (hstart : s.prio start ≤ s.prio t) :
    ∃ walked, Seg s.next (some start) walked (some current) ∧
      (∀ u ∈ walked ++ [current], s.prio u ≤ s.prio t) ∧
      ∀ n, s.next current = some n → s.prio t < s.prio n := by
  induction fuel generalizing start with
  | zero => simp [pushAfter] at h
  | succ fuel ih =>
    cases hnext : s.next start with
    | none =>
      simp only [pushAfter, hnext, Option.some.injEq] at h
      subst h
      exact ⟨[], rfl, by simpa using hstart, by simp [hnext]⟩
    | some n =>
      simp only [pushAfter, hnext] at h
      split_ifs at h with hle
      · obtain ⟨walked, hseg, hprio, hstop⟩ := ih h hle
        refine ⟨start :: walked, ⟨rfl, hnext ▸ hseg⟩, ?_, hstop⟩
        intro u hu
        rcases List.mem_cons.mp hu with rfl | hu
        · exact hstart
        · exact hprio u hu
      · obtain rfl := Option.some.inj h
        refine ⟨[], rfl, by simpa using hstart, ?_⟩
        intro m hm
        obtain rfl : n = m := Option.some.inj (hnext.symm.trans hm)
        exact BitVec.not_le.mp hle

/-- On a chain the walk ends. -/
theorem pushAfter_chain {s : Sched} {t : BitVec 64} {fuel : Nat} {start : BitVec 64}
    {xs : List (BitVec 64)} (h : Chain s.next (some start) xs) (enough : xs.length ≤ fuel) :
    (pushAfter s t fuel start).isSome := by
  induction fuel generalizing start xs with
  | zero =>
    obtain ⟨rest, rfl, -⟩ := h.cons_of_some
    simp at enough
  | succ fuel ih =>
    obtain ⟨rest, rfl, htail⟩ := h.cons_of_some
    cases hnext : s.next start with
    | none => simp [pushAfter, hnext]
    | some n =>
      simp only [pushAfter, hnext]
      split_ifs
      · rw [hnext] at htail
        exact ih htail (by simpa using enough)
      · rfl

theorem taskPqPush_pushed {fuel : Nat} {s s' : Sched} {head head' : Option (BitVec 64)}
    {t : BitVec 64} (h : taskPqPush fuel s head t = some (head', s')) :
    Pushed s.next s.prio head t head' s'.next := by
  cases head with
  | none =>
    simp only [taskPqPush, Option.some.injEq, Prod.mk.injEq] at h
    obtain ⟨rfl, rfl⟩ := h
    rw [setNext_next]
    exact .front (by simp)
  | some first =>
    simp only [taskPqPush] at h
    split_ifs at h with hlt
    · simp only [Option.some.injEq, Prod.mk.injEq] at h
      obtain ⟨rfl, rfl⟩ := h
      rw [setNext_next]
      refine .front (fun f hf => ?_)
      obtain rfl := Option.some.inj hf
      exact hlt
    · obtain ⟨current, hcurrent, h⟩ := Option.map_eq_some_iff.mp h
      obtain ⟨rfl, rfl⟩ := Prod.mk.injEq .. ▸ h
      obtain ⟨walked, hseg, hprio, hstop⟩ := pushAfter_walk hcurrent (BitVec.not_lt.mp hlt)
      rw [setNext_next, setNext_next]
      exact .after hseg hprio hstop

theorem taskPqPush_task {fuel : Nat} {s s' : Sched} {head head' : Option (BitVec 64)}
    {t : BitVec 64} (h : taskPqPush fuel s head t = some (head', s')) :
    s'.cpuCount = s.cpuCount ∧ s'.cpu = s.cpu ∧ ∀ u, (s'.task u).state = (s.task u).state ∧
      (s'.task u).taskClass = (s.task u).taskClass ∧ (s'.task u).prio = (s.task u).prio := by
  cases head with
  | none =>
    simp only [taskPqPush, Option.some.injEq, Prod.mk.injEq] at h
    obtain ⟨-, rfl⟩ := h
    exact ⟨rfl, rfl, fun u => setNext_task _ _ _ _⟩
  | some first =>
    simp only [taskPqPush] at h
    split_ifs at h with hlt
    · simp only [Option.some.injEq, Prod.mk.injEq] at h
      obtain ⟨-, rfl⟩ := h
      exact ⟨rfl, rfl, fun u => setNext_task _ _ _ _⟩
    · obtain ⟨current, -, h⟩ := Option.map_eq_some_iff.mp h
      obtain ⟨-, rfl⟩ := Prod.mk.injEq .. ▸ h
      refine ⟨rfl, rfl, fun u => ?_⟩
      obtain ⟨hs, hc, hp⟩ := setNext_task s t u (s.next current)
      obtain ⟨hs', hc', hp'⟩ := setNext_task (s.setNext t (s.next current)) current u (some t)
      exact ⟨hs'.trans hs, hc'.trans hc, hp'.trans hp⟩

/-- The head of the queue of a class on a CPU. -/
def Sched.headAt (s : Sched) (i : Nat × TaskClass) : Option (BitVec 64) := (s.cpu i.1).head i.2

/-- One queue of one CPU starts elsewhere. -/
theorem headAt_setHead (s : Sched) (c : Nat) (head : Option (BitVec 64)) {cls : TaskClass}
    (total : BitVec 64) (valid : cls ≠ .invalid) :
    ({ s with
      cpu := Function.update s.cpu c
        { (s.cpu c).setHead head cls with allQueueTotal := total } } : Sched).headAt =
      Function.update s.headAt (c, cls) head := by
  funext ⟨c', k⟩
  by_cases hc : c' = c
  · subst hc
    have hset := head_setHead (s.cpu c') head valid k
    by_cases hk : k = cls
    · subst hk
      rw [Function.update_self]
      simp only [Sched.headAt, Function.update_self]
      exact hset.trans (if_pos rfl)
    · rw [Function.update_of_ne (fun e => hk (congrArg Prod.snd e))]
      simp only [Sched.headAt, Function.update_self]
      exact hset.trans (if_neg hk)
  · rw [Function.update_of_ne (fun e => hc (congrArg Prod.fst e))]
    simp [Sched.headAt, hc]

/-- The queue a task goes to on a CPU. -/
def Sched.queueFor (s : Sched) (t : BitVec 64) (cpu : Nat) : Nat × TaskClass :=
  (cpu, (s.task t).taskClass)

/-- Everything `sched_unblock_on` does with a task of a schedulable class. -/
structure Unblocked (s : Sched) (t : BitVec 64) (cpu : Nat) (s' : Sched) : Prop where
  cpuCount : s'.cpuCount = s.cpuCount
  prio : s'.prio = s.prio
  taskClass : ∀ u, (s'.task u).taskClass = (s.task u).taskClass
  ready : (s'.task t).state = .ready
  others : ∀ u ≠ t, (s'.task u).state = (s.task u).state
  totals : s'.totals = Function.update s.totals cpu (s.totals cpu + 1)
  pushed : ∃ head, s'.headAt = Function.update s.headAt (s.queueFor t cpu) head ∧
    Pushed s.next s.prio (s.headAt (s.queueFor t cpu)) t head s'.next

theorem schedUnblockOn_unblocked {fuel : Nat} {s s' : Sched} {t : BitVec 64} {cpu : Nat}
    (valid : (s.task t).taskClass ≠ .invalid) (h : schedUnblockOn fuel s t cpu = some s') :
    Unblocked s t cpu s' := by
  have hready := fun u => setState_task s t u .ready
  simp only [schedUnblockOn, schedEnqueueOn, (hready t).1, if_neg valid, Option.map_map,
    Option.map_eq_some_iff] at h
  obtain ⟨⟨head, s1⟩, hpush, rfl⟩ := h
  obtain ⟨hcount, hcpu, htask⟩ := taskPqPush_task hpush
  have hprio : (s.setState t .ready).prio = s.prio := funext (fun u => (hready u).2)
  have hpushed := taskPqPush_pushed hpush
  rw [setState_next, hprio] at hpushed
  refine ⟨hcount, ?_, ?_, ?_, ?_, ?_, head, ?_, hpushed⟩
  · exact (funext (fun u => (htask u).2.2)).trans hprio
  · exact fun u => (htask u).2.1.trans (hready u).1
  · exact (htask t).1.trans (by simp [Sched.setState])
  · exact fun u hu => (htask u).1.trans (by simp [Sched.setState, hu])
  · funext c
    by_cases hc : c = cpu
    · subst hc
      simp [Sched.totals, hcpu, Sched.setState]
    · simp [Sched.totals, hc, hcpu, Sched.setState]
  · funext ⟨c, k⟩
    by_cases hc : c = cpu
    · subst hc
      by_cases hk : k = (s.task t).taskClass
      · subst hk
        simp only [Sched.headAt, Sched.queueFor, Function.comp_apply, Function.update_self]
        exact (head_setHead _ _ valid _).trans (if_pos rfl)
      · have hne : (c, k) ≠ s.queueFor t c := fun e => hk (congrArg Prod.snd e)
        rw [Function.update_of_ne hne]
        simp only [Sched.headAt, Function.comp_apply, Function.update_self, hcpu]
        exact (head_setHead _ _ valid _).trans (if_neg hk)
    · have hne : (c, k) ≠ s.queueFor t cpu := fun e => hc (congrArg Prod.fst e)
      rw [Function.update_of_ne hne]
      simp [Sched.headAt, hc, hcpu, Sched.setState]

/-- Unblocking returns when the queue it walks ends. -/
theorem schedUnblockOn_isSome {fuel : Nat} {s : Sched} {t : BitVec 64} {cpu : Nat}
    {xs : List (BitVec 64)} (h : Chain s.next (s.headAt (s.queueFor t cpu)) xs)
    (enough : xs.length ≤ fuel) : (schedUnblockOn fuel s t cpu).isSome := by
  have hready := setState_task s t t .ready
  have hhead : ((s.setState t .ready).cpu cpu).head (s.task t).taskClass =
      s.headAt (s.queueFor t cpu) := rfl
  rw [schedUnblockOn, Option.isSome_map, schedEnqueueOn]
  simp only [hready.1, hhead]
  split_ifs
  · rfl
  · rw [Option.isSome_map]
    cases hfirst : s.headAt (s.queueFor t cpu) with
    | none => rfl
    | some first =>
      simp only [taskPqPush]
      split_ifs
      · rfl
      · rw [Option.isSome_map]
        rw [hfirst, ← setState_next s t .ready] at h
        exact pushAfter_chain h enough

theorem findTarget_mem (total : Nat → BitVec 64) {n i c : Nat} {target : Option Nat}
    (h : findTarget total n i target = some c) : target = some c ∨ (i ≤ c ∧ c < i + n) := by
  induction n generalizing i target with
  | zero => exact Or.inl h
  | succ n ih =>
    simp only [findTarget] at h
    split_ifs at h with hone
    · obtain rfl := Option.some.inj h
      exact Or.inr ⟨Nat.le_refl _, by omega⟩
    · cases target with
      | none =>
        rcases ih h with hc | hc
        · obtain rfl := Option.some.inj hc
          exact Or.inr ⟨Nat.le_refl _, by omega⟩
        · exact Or.inr ⟨by omega, by omega⟩
      | some best =>
        dsimp only at h
        split_ifs at h
        · rcases ih h with hc | hc
          · obtain rfl := Option.some.inj hc
            exact Or.inr ⟨Nat.le_refl _, by omega⟩
          · exact Or.inr ⟨by omega, by omega⟩
        · rcases ih h with hc | hc
          · exact Or.inl hc
          · exact Or.inr ⟨by omega, by omega⟩

theorem findTarget_isSome (total : Nat → BitVec 64) (n i : Nat) {target : Option Nat}
    (h : target.isSome ∨ 0 < n) : (findTarget total n i target).isSome := by
  induction n generalizing i target with
  | zero => simpa [findTarget] using h
  | succ n ih =>
    simp only [findTarget]
    split_ifs
    · rfl
    · cases target with
      | none => exact ih _ (Or.inl rfl)
      | some best =>
        dsimp only
        split_ifs
        · exact ih _ (Or.inl rfl)
        · exact ih _ (Or.inl rfl)

/-- On a machine with CPUs a target is found, and it is one of them. -/
theorem schedFindTargetCpu_lt {s : Sched} (cpus : 0 < s.cpuCount) :
    ∃ c, schedFindTargetCpu s = some c ∧ c < s.cpuCount := by
  obtain ⟨c, hc⟩ := Option.isSome_iff_exists.mp
    (findTarget_isSome s.totals s.cpuCount 0 (Or.inr cpus))
  refine ⟨c, hc, ?_⟩
  rcases findTarget_mem s.totals hc with h | h
  · exact absurd h (by simp)
  · omega

/-- The CPU found has one queued task, or none of those passed has one, and it is one of the least
loaded of them. -/
theorem findTarget_cases {total : Nat → BitVec 64} {n i c : Nat} {target : Option Nat}
    (h : findTarget total n i target = some c) :
    total c = 1 ∨ (∀ d, i ≤ d → d < i + n → total d ≠ 1 ∧ total c ≤ total d) ∧
      ∀ t, target = some t → total c ≤ total t := by
  induction n generalizing i target with
  | zero =>
    refine Or.inr ⟨fun d hid hdi => absurd hid (by omega), fun t ht => ?_⟩
    obtain rfl := Option.some.inj (h.symm.trans ht)
    exact BitVec.le_refl _
  | succ n ih =>
    simp only [findTarget] at h
    split_ifs at h with hone
    · obtain rfl := Option.some.inj h
      exact Or.inl hone
    · -- what is left to show once the rest of the loop is at most as loaded as CPU `i`
      have hrange : ((∀ d, i + 1 ≤ d → d < i + 1 + n → total d ≠ 1 ∧ total c ≤ total d) ∧
          total c ≤ total i) →
          ∀ d, i ≤ d → d < i + (n + 1) → total d ≠ 1 ∧ total c ≤ total d := by
        rintro ⟨hrest, hhere⟩ d hid hdi
        by_cases hd : d = i
        · subst hd
          exact ⟨hone, hhere⟩
        · exact hrest d (by omega) (by omega)
      cases target with
      | none =>
        rcases ih h with hc | ⟨hrest, hbest⟩
        · exact Or.inl hc
        · refine Or.inr ⟨hrange ⟨hrest, hbest i rfl⟩, fun t ht => ?_⟩
          exact absurd ht (by simp)
      | some best =>
        dsimp only at h
        split_ifs at h with hless
        · rcases ih h with hc | ⟨hrest, hbest⟩
          · exact Or.inl hc
          · refine Or.inr ⟨hrange ⟨hrest, hbest i rfl⟩, fun t ht => ?_⟩
            obtain rfl := Option.some.inj ht
            exact BitVec.le_trans (hbest i rfl) (BitVec.le_of_lt hless)
        · rcases ih h with hc | ⟨hrest, hbest⟩
          · exact Or.inl hc
          · have hle := hbest best rfl
            exact Or.inr ⟨hrange ⟨hrest, BitVec.le_trans hle (BitVec.not_lt.mp hless)⟩, hbest⟩

/-- The target is one of the CPUs with the fewest queued tasks. -/
def FindsLeastLoaded (s : Sched) : Prop :=
  ∃ c < s.cpuCount, schedFindTargetCpu s = some c ∧ ∀ d < s.cpuCount, s.totals c ≤ s.totals d

/-- A CPU with one queued task is taken at once, although one that runs its idle thread has none
queued: the target is a least loaded CPU exactly if there are not both of them. -/
theorem schedFindTargetCpu_least_iff (s : Sched) :
    FindsLeastLoaded s ↔ 0 < s.cpuCount ∧
      ((∀ c < s.cpuCount, s.totals c ≠ 1) ∨ ∀ c < s.cpuCount, s.totals c ≠ 0) := by
  constructor
  · rintro ⟨c, hc, hfound, hleast⟩
    refine ⟨by omega, ?_⟩
    rcases findTarget_cases hfound with hone | ⟨hnone, -⟩
    · right
      intro d hd hzero
      have hle := hleast d hd
      rw [hone, hzero] at hle
      exact absurd hle (by decide)
    · left
      intro d hd
      exact (hnone d (Nat.zero_le d) (by omega)).1
  · rintro ⟨hcpus, hloads⟩
    obtain ⟨c, hfound, hc⟩ := schedFindTargetCpu_lt hcpus
    refine ⟨c, hc, hfound, fun d hd => ?_⟩
    rcases findTarget_cases hfound with hone | ⟨hrest, -⟩
    · rcases hloads with hnone | hbusy
      · exact absurd hone (hnone c hc)
      · rw [hone]
        have hpos := hbusy d hd
        bv_omega
    · exact (hrest d (Nat.zero_le d) (by omega)).2

/-- CPU 0 runs a task while its idle thread is queued, and CPU 1 runs its idle thread. -/
def idleAndBusy : Sched where
  cpuCount := 2
  cpu := fun c => ⟨none, none, none, none, if c = 0 then 1 else 0⟩
  task := fun _ => ⟨none, .ready, .normal, 0⟩

/-- The task goes to the busy CPU. -/
theorem busy_cpu_is_found : ¬ FindsLeastLoaded idleAndBusy := by
  rintro ⟨c, -, hfound, hleast⟩
  have htarget : schedFindTargetCpu idleAndBusy = some 0 := rfl
  obtain rfl := Option.some.inj (htarget.symm.trans hfound)
  exact absurd (hleast 1 (by decide)) (by decide)

/-! ## All run queues together -/

/-- The queues of a machine: four on each CPU. -/
def indices (cpuCount : Nat) : List (Nat × TaskClass) :=
  (List.range cpuCount).product [.realtime, .high, .normal, .idle]

theorem indices_nodup (cpuCount : Nat) : (indices cpuCount).Nodup :=
  List.nodup_range.product (by decide)

theorem mem_indices {cpuCount : Nat} {i : Nat × TaskClass} :
    i ∈ indices cpuCount ↔ i.1 < cpuCount ∧ i.2 ≠ .invalid := by
  obtain ⟨c, k⟩ := i
  rw [indices, List.pair_mem_product, List.mem_range]
  cases k <;> simp

/-- The tasks in the run queues, queue after queue. -/
def queued (s : Sched) (queue : Nat × TaskClass → List (BitVec 64)) : List (BitVec 64) :=
  (indices s.cpuCount).flatMap queue

/-- The links and heads spell out the listed queues, and no task is queued twice. -/
structure Queues (s : Sched) (queue : Nat × TaskClass → List (BitVec 64)) : Prop where
  family : Family s.next s.headAt queue (indices s.cpuCount)
  nodup : (queued s queue).Nodup

/-- Pushing a task that is not on the chain. -/
theorem Pushed.chain {next next' : BitVec 64 → Option (BitVec 64)} {prio : BitVec 64 → BitVec 8}
    {head head' : Option (BitVec 64)} {t : BitVec 64} {xs : List (BitVec 64)}
    (h : Pushed next prio head t head' next') (chain : Chain next head xs) (fresh : t ∉ xs) :
    ∃ before after, xs = before ++ after ∧ (∀ u ∈ before, prio u ≤ prio t) ∧
      (∀ u, after.head? = some u → prio t < prio u) ∧
      Chain next' head' (before ++ t :: after) ∧ next' t = after.head? ∧
      ∀ u, u ≠ t → u ∉ xs → next' u = next u := by
  cases h with
  | front hprio =>
    refine ⟨[], xs, rfl, by simp, ?_, chain.push fresh, ?_, fun u hu _ => ?_⟩
    · intro u hu
      exact hprio u (chain.start_eq.trans hu)
    · rw [Function.update_self]
      exact chain.start_eq
    · exact Function.update_of_ne hu _ _
  | @after walked current walk hprio hstop =>
    obtain ⟨rest, rfl, hrest⟩ := chain.split_of_seg walk
    obtain ⟨tail, rfl, htail⟩ := hrest.cons_of_some
    have hne : t ≠ current := fun e => fresh (e ▸ by simp)
    have hinsert := chain.insertAfter fresh
    refine ⟨walked ++ [current], tail, by simp, hprio, ?_, by simpa using hinsert, ?_, ?_⟩
    · intro u hu
      exact hstop u (Chain.start_eq htail ▸ hu)
    · rw [Function.update_of_ne hne, Function.update_self]
      exact Chain.start_eq htail
    · intro u hut hu
      have huc : u ≠ current := fun e => hu (e ▸ by simp)
      rw [Function.update_of_ne huc, Function.update_of_ne hut]

/-- Unblocking a task that is in no queue puts it, once, behind the tasks of its queue that
are not less urgent. -/
theorem Queues.unblock {s s' : Sched} {queue : Nat × TaskClass → List (BitVec 64)} {t : BitVec 64}
    {cpu : Nat} (h : Queues s queue) (hu : Unblocked s t cpu s')
    (hi : s.queueFor t cpu ∈ indices s.cpuCount) (fresh : t ∉ queued s queue) :
    ∃ before after, queue (s.queueFor t cpu) = before ++ after ∧
      (∀ u ∈ before, s.prio u ≤ s.prio t) ∧ (∀ u, after.head? = some u → s.prio t < s.prio u) ∧
      Queues s' (Function.update queue (s.queueFor t cpu) (before ++ t :: after)) ∧
      (queued s' (Function.update queue (s.queueFor t cpu) (before ++ t :: after))).Perm
        (t :: queued s queue) ∧
      s'.next t = after.head? ∧ ∀ u ∉ t :: queued s queue, s'.next u = s.next u := by
  obtain ⟨head, hhead, hpushed⟩ := hu.pushed
  have hout : t ∉ queue (s.queueFor t cpu) :=
    fun ht => fresh (List.mem_flatMap.mpr ⟨_, hi, ht⟩)
  obtain ⟨before, after, hsplit, hbefore, hafter, hchain, hnext, hsame⟩ :=
    hpushed.chain (h.family _ hi) hout
  have hxs : (before ++ t :: after).Perm (t :: queue (s.queueFor t cpu)) := by
    rw [hsplit]
    exact List.perm_middle
  have hperm : (queued s' (Function.update queue (s.queueFor t cpu) (before ++ t :: after))).Perm
      (t :: queued s queue) := by
    rw [queued, hu.cpuCount]
    exact flatMap_update_perm (indices_nodup _) hi hxs
  refine ⟨before, after, hsplit, hbefore, hafter, ⟨?_, ?_⟩, hperm, hnext, ?_⟩
  · rw [hu.cpuCount, hhead]
    exact h.family.replace h.nodup hi fresh hsame hchain
  · exact hperm.nodup_iff.mpr (List.nodup_cons.mpr ⟨fresh, h.nodup⟩)
  · intro u hu'
    simp only [List.mem_cons, not_or] at hu'
    exact hsame u hu'.1 (fun hq => hu'.2 (List.mem_flatMap.mpr ⟨_, hi, hq⟩))

/-- What taking the first task off one of the queues leaves. -/
theorem Queues.pop {s s' : Sched} {queue : Nat × TaskClass → List (BitVec 64)} {t : BitVec 64}
    {rest : List (BitVec 64)} {i : Nat × TaskClass} (h : Queues s queue)
    (hi : i ∈ indices s.cpuCount) (hqueue : queue i = t :: rest)
    (hcount : s'.cpuCount = s.cpuCount) (hnext : s'.next = Function.update s.next t none)
    (hhead : s'.headAt = Function.update s.headAt i (s.next t)) :
    Queues s' (Function.update queue i rest) ∧
      (queued s queue).Perm (t :: queued s' (Function.update queue i rest)) := by
  have hperm : (queued s queue).Perm (t :: queued s' (Function.update queue i rest)) := by
    have hold : (queue i).Perm (t :: Function.update queue i rest i) := by
      rw [Function.update_self, hqueue]
    have hback := flatMap_update_perm (indices_nodup s.cpuCount) hi hold
    rw [Function.update_idem, Function.update_eq_self] at hback
    rw [queued, queued, hcount]
    exact hback
  refine ⟨⟨?_, ?_⟩, hperm⟩
  · rw [hcount, hnext, hhead]
    exact h.family.pop h.nodup hi hqueue
  · exact (List.nodup_cons.mp (hperm.nodup_iff.mp h.nodup)).2

end Scheduler
