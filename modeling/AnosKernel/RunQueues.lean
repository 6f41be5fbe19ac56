import AnosKernel.Lib.Runs
import AnosKernel.Scheduler
import Mathlib.Data.Set.Insert

/-!
# The scheduler of one CPU

`sched_schedule`, `sched_block`, `sched_unblock` and the two initialisers of
`kernel/sched/prr.c` on a machine with one CPU. Beside the run queues and the task heap of
`Scheduler` the state has the remaining timeslices, the flags of the tasks and the current
task; `task_current` is null before the first switch.
-/

namespace RunQueues

open Chains Runs Scheduler

def defaultTimeslice : BitVec 16 := 10

structure Cpu where
  sched : Sched
  tsRemain : BitVec 64 → BitVec 16
  statusFlags : BitVec 64 → BitVec 16
  current : Option (BitVec 64)

/-- The only CPU. -/
def thisCpu : Nat := 0

/-- The value of the enumerator. -/
def classValue : TaskClass → Nat
  | .idle => 0
  | .normal => 1
  | .high => 2
  | .realtime => 3
  | .invalid => 4

/-- The first queue with a task, from the most urgent class down. -/
def candidateQueue (cpu : PerCPUSchedState) : Option TaskClass :=
  [TaskClass.realtime, .high, .normal, .idle].find? fun cls => (cpu.head cls).isSome

def threadToBeKilled (cpu : Cpu) (t : BitVec 64) : Bool :=
  cpu.statusFlags t &&& 1 != 0 && cpu.statusFlags t &&& 2 == 0

def decrementTimeslice (cpu : Cpu) (t : BitVec 64) : Cpu :=
  if cpu.tsRemain t > 0 then
    { cpu with tsRemain := Function.update cpu.tsRemain t (cpu.tsRemain t - 1) }
  else cpu

/-- The current task goes on: its timeslice is not used up and the candidate does not preempt
it. -/
def timesliceContinues (cpu : Cpu) (current candidate : BitVec 64) : Bool :=
  let cur := cpu.sched.task current
  let cand := cpu.sched.task candidate
  cur.state ≠ .blocked && decide (cpu.tsRemain current > 0) &&
    (decide (classValue cand.taskClass ≤ classValue cur.taskClass) ||
      (decide (classValue cand.taskClass = classValue cur.taskClass) &&
        decide (cand.prio ≥ cur.prio)))

/-- A queue of this CPU starts at another task, and one task less is queued. -/
def unqueue (s : Sched) (head : Option (BitVec 64)) (cls : TaskClass) : Sched :=
  { s with
    cpu := Function.update s.cpu thisCpu
      { (s.cpu thisCpu).setHead head cls with
        allQueueTotal := (s.cpu thisCpu).allQueueTotal - 1 } }

/-- Take the first task off a queue of this CPU. -/
def dequeue (s : Sched) (cls : TaskClass) : Option (BitVec 64 × Sched) :=
  (taskPqPop s ((s.cpu thisCpu).head cls)).map fun (next, head, s) => (next, unqueue s head cls)

/-- A current task that was running is set ready and enqueued again. -/
def requeueCurrent (fuel : Nat) (s : Sched) : Option (BitVec 64) → Option Sched
  | none => some s
  | some t =>
    if (s.task t).state = .running then
      (schedEnqueueOn fuel (s.setState t .ready) t thisCpu).map (·.2)
    else some s

/-- The end of `sched_schedule`, with the queue of the candidate. -/
def switchTask (fuel : Nat) (cpu : Cpu) (cls : TaskClass) : Option Cpu := do
  let (next, s) ← dequeue cpu.sched cls
  let s ← requeueCurrent fuel s cpu.current
  return { cpu with
    sched := s.setState next .running
    tsRemain := Function.update cpu.tsRemain next defaultTimeslice
    current := some next }

/-- `sched_schedule`. `none` when the requeueing does not end or the current task, being killed,
goes to its exit point. -/
def schedSchedule (fuel : Nat) (cpu : Cpu) : Option Cpu :=
  match candidateQueue (cpu.sched.cpu thisCpu) with
  | none => some cpu
  | some cls =>
    match cpu.current with
    | none => switchTask fuel cpu cls
    | some t =>
      let cpu := decrementTimeslice cpu t
      if threadToBeKilled cpu t then none
      else if ((cpu.sched.cpu thisCpu).head cls).any (timesliceContinues cpu t) then some cpu
      else switchTask fuel cpu cls

def schedUnblock (fuel : Nat) (cpu : Cpu) (t : BitVec 64) : Option Cpu :=
  (schedUnblockOn fuel cpu.sched t thisCpu).map fun s => { cpu with sched := s }

def schedBlock (cpu : Cpu) (t : BitVec 64) : Cpu :=
  { cpu with sched := cpu.sched.setState t .blocked }

/-- What `task_create_new` writes to the new task. -/
def taskCreateNew (cpu : Cpu) (t : BitVec 64) (cls : TaskClass) : Cpu :=
  { cpu with
    sched := { cpu.sched with
      task := Function.update cpu.sched.task t
        { next := none, state := .ready, taskClass := cls, prio := 0 } }
    tsRemain := Function.update cpu.tsRemain t defaultTimeslice
    statusFlags := Function.update cpu.statusFlags t 0 }

/-- A new task enqueued, as `sched_init` and `sched_init_idle` do it. -/
def createAndEnqueue (fuel : Nat) (cpu : Cpu) (t : BitVec 64) (cls : TaskClass) :
    Option (Bool × Cpu) :=
  let created := taskCreateNew cpu t cls
  (schedEnqueueOn fuel created.sched t thisCpu).map fun (ok, s) =>
    (ok, { created with sched := s })

/-! ## Runs -/

/-- A walk along one of the queues arrives at the task. -/
def Queued (s : Sched) (t : BitVec 64) : Prop :=
  ∃ cls walked, Seg s.next ((s.cpu thisCpu).head cls) walked (some t)

/-- `spawn` is the end of `create_thread` and `create_process`: a new task with the class the
caller asked for, unblocked. -/
inductive Call
  | unblock (t : BitVec 64)
  | spawn (t : BitVec 64) (cls : TaskClass)
  | block
  | schedule

def exec (fuel : Nat) (cpu : Cpu) : Call → Option Cpu
  | .unblock t => schedUnblock fuel cpu t
  | .spawn t cls => schedUnblock fuel (taskCreateNew cpu t cls) t
  | .block => cpu.current.map (schedBlock cpu)
  | .schedule => schedSchedule fuel cpu

/-- The tasks unblocked are neither queued nor running, and the current task is not killed. -/
def Valid (cpu : Cpu) : Call → Prop
  | .unblock t => t ≠ 0 ∧ ¬ Queued cpu.sched t ∧ cpu.current ≠ some t
  | .spawn t _ => t ≠ 0 ∧ ¬ Queued cpu.sched t ∧ cpu.current ≠ some t
  | .block => cpu.current.isSome
  | .schedule => ∀ t, cpu.current = some t → threadToBeKilled cpu t = false

/-- The memory before any task is created. -/
structure Blank (cpu : Cpu) : Prop where
  one : cpu.sched.cpuCount = 1
  heads : ∀ cls, (cpu.sched.cpu thisCpu).head cls = none
  total : (cpu.sched.cpu thisCpu).allQueueTotal = 0
  none_ready : ∀ t, (cpu.sched.task t).state ≠ .ready
  idle : cpu.current = none

/-- The state `sched_init` and then `sched_init_idle` leave. -/
def Booted (cpu : Cpu) : Prop :=
  ∃ blank started newTask idleTask cls fuel, Blank blank ∧ newTask ≠ 0 ∧ idleTask ≠ 0 ∧
    idleTask ≠ newTask ∧ createAndEnqueue fuel blank newTask cls = some (true, started) ∧
    createAndEnqueue fuel started idleTask .idle = some (true, cpu)

def prr : System Cpu Call where
  init := Booted
  step := fun cpu call cpu' => Valid cpu call ∧ ∃ fuel, exec fuel cpu call = some cpu'

/-- The task unblocked has one of the four classes. `create_thread` sees to that,
`create_process` does not. -/
def Guard (cpu : Cpu) : Call → Prop
  | .unblock t => (cpu.sched.task t).taskClass ≠ .invalid
  | .spawn _ cls => cls ≠ .invalid
  | _ => True

/-- The books of the CPU: `queue` lists the tasks of each class. -/
structure Accounts (cpu : Cpu) (queue : TaskClass → List (BitVec 64)) : Prop where
  spelled : ∀ cls ≠ .invalid,
    Chain cpu.sched.next ((cpu.sched.cpu thisCpu).head cls) (queue cls)
  total : (cpu.sched.cpu thisCpu).allQueueTotal.toNat = (queue .realtime).length +
    (queue .high).length + (queue .normal).length + (queue .idle).length
  once : (queue .realtime ++ queue .high ++ queue .normal ++ queue .idle).Nodup
  placed : ∀ cls ≠ .invalid, ∀ t ∈ queue cls,
    (cpu.sched.task t).taskClass = cls ∧ (cpu.sched.task t).state = .ready
  current : ∀ t, cpu.current = some t → ∀ cls ≠ .invalid, t ∉ queue cls
  ready : ∀ t, (cpu.sched.task t).state = .ready → ∃ cls ≠ .invalid, t ∈ queue cls

/-! ## The books between two calls -/

/-- The books of the run queues, where the tasks of `out` may be ready without being queued. -/
structure Books (s : Sched) (queue : Nat × TaskClass → List (BitVec 64))
    (out : Set (BitVec 64)) : Prop where
  one : s.cpuCount = 1
  queues : Queues s queue
  placed : ∀ i ∈ indices 1, ∀ t ∈ queue i,
    (s.task t).taskClass = i.2 ∧ (s.task t).state = .ready ∧ t ≠ 0
  total : (s.totals thisCpu).toNat = (queued s queue).length
  ready : ∀ t ∉ out, (s.task t).state = .ready → t ∈ queued s queue

theorem Books.mem {s : Sched} {queue : Nat × TaskClass → List (BitVec 64)}
    {out : Set (BitVec 64)} (h : Books s queue out) {t : BitVec 64} :
    t ∈ queued s queue ↔ ∃ i ∈ indices 1, t ∈ queue i := by
  rw [queued, h.one, List.mem_flatMap]

/-- A walk along the queues arrives at the tasks that are listed. -/
theorem queued_iff {s : Sched} {queue : Nat × TaskClass → List (BitVec 64)} (h : Queues s queue)
    (one : s.cpuCount = 1) {t : BitVec 64} : Queued s t ↔ t ∈ queued s queue := by
  rw [queued, one, List.mem_flatMap]
  constructor
  · rintro ⟨cls, walked, hwalk⟩
    by_cases hcls : cls = .invalid
    · subst hcls
      cases walked with
      | nil => exact absurd hwalk (by simp [PerCPUSchedState.head])
      | cons x walked => exact absurd hwalk.1 (by simp [PerCPUSchedState.head])
    · have hi : (thisCpu, cls) ∈ indices 1 := mem_indices.mpr ⟨Nat.one_pos, hcls⟩
      have hwalk' : Seg s.next (s.headAt (thisCpu, cls)) walked (some t) := hwalk
      exact ⟨_, hi, (Chain.mem_iff (h.family _ (one ▸ hi))).mpr ⟨walked, hwalk'⟩⟩
  · rintro ⟨i, hi, hti⟩
    obtain ⟨walked, hwalk⟩ := (Chain.mem_iff (h.family i (one ▸ hi))).mp hti
    have hcpu : i.1 = thisCpu := by
      have := (mem_indices.mp hi).1
      simp only [thisCpu]
      omega
    rw [Sched.headAt, hcpu] at hwalk
    exact ⟨i.2, walked, hwalk⟩

theorem Books.not_mem {s : Sched} {queue : Nat × TaskClass → List (BitVec 64)}
    {out : Set (BitVec 64)} (h : Books s queue out) {t : BitVec 64} (off : ¬ Queued s t) :
    t ∉ queued s queue :=
  fun ht => off ((queued_iff h.queues h.one).mpr ht)

/-- Fewer tasks are queued than there are addresses. -/
theorem Books.length_lt {s : Sched} {queue : Nat × TaskClass → List (BitVec 64)}
    {out : Set (BitVec 64)} (h : Books s queue out) {t : BitVec 64} (nonnull : t ≠ 0)
    (fresh : t ∉ queued s queue) : (queued s queue).length + 1 < 0x10000000000000000 := by
  apply length_lt_of_nodup (List.nodup_cons.mpr ⟨fresh, h.queues.nodup⟩)
  intro hz
  rcases List.mem_cons.mp hz with hz | hz
  · exact nonnull hz.symm
  · obtain ⟨i, hi, hzi⟩ := h.mem.mp hz
    exact (h.placed i hi 0 hzi).2.2 rfl

theorem Books.narrow {s : Sched} {queue : Nat × TaskClass → List (BitVec 64)}
    {out out' : Set (BitVec 64)} (h : Books s queue out)
    (settled : ∀ t ∈ out, t ∉ out' → (s.task t).state ≠ .ready) : Books s queue out' :=
  { h with
    ready := fun t ht hr => h.ready t (fun hout => settled t hout ht hr) hr }

/-- Writing the record of a task that is not queued. -/
theorem Books.write {s : Sched} {queue : Nat × TaskClass → List (BitVec 64)}
    {out : Set (BitVec 64)} (h : Books s queue out) {t : BitVec 64} (off : t ∉ queued s queue)
    (record : Task) :
    Books { s with task := Function.update s.task t record } queue (insert t out) := by
  have hoff : ∀ i ∈ indices 1, t ∉ queue i := fun i hi ht => off (h.mem.mpr ⟨i, hi, ht⟩)
  refine ⟨h.one, ⟨fun i hi => ?_, h.queues.nodup⟩, fun i hi u hu => ?_, h.total, ?_⟩
  · refine Seg.congr (h.queues.family i hi) (fun u hu => ?_)
    have hne : u ≠ t := ne_of_mem_of_not_mem hu (hoff i (h.one ▸ hi))
    simp [Sched.next, hne]
  · have hne : u ≠ t := ne_of_mem_of_not_mem hu (hoff i hi)
    simpa [hne] using h.placed i hi u hu
  · intro u hu hready
    simp only [Set.mem_insert_iff, not_or] at hu
    simp only [Function.update_of_ne hu.1] at hready
    exact h.ready u hu.2 hready

/-- A task that is not queued leaves the ready ones. -/
theorem Books.setState {s : Sched} {queue : Nat × TaskClass → List (BitVec 64)}
    {out : Set (BitVec 64)} (h : Books s queue out) {t : BitVec 64} (off : t ∉ queued s queue)
    {st : TaskState} (settled : st ≠ .ready) : Books (s.setState t st) queue (out \ {t}) := by
  refine (h.write off { s.task t with state := st }).narrow (fun u hu hout => ?_)
  obtain rfl : u = t := by
    by_contra hne
    exact hout ⟨(Set.mem_insert_iff.mp hu).resolve_left hne, hne⟩
  simpa using settled

theorem Books.unblock {s s' : Sched} {queue : Nat × TaskClass → List (BitVec 64)}
    {out : Set (BitVec 64)} (h : Books s queue out) {t : BitVec 64} {fuel : Nat}
    (nonnull : t ≠ 0) (off : t ∉ queued s queue) (valid : (s.task t).taskClass ≠ .invalid)
    (run : schedUnblockOn fuel s t thisCpu = some s') :
    ∃ queue', Books s' queue' (out \ {t}) ∧
      ∀ u, u ∈ queued s' queue' ↔ u = t ∨ u ∈ queued s queue := by
  have hu := schedUnblockOn_unblocked valid run
  have hi : s.queueFor t thisCpu ∈ indices 1 := mem_indices.mpr ⟨Nat.one_pos, valid⟩
  obtain ⟨before, after, hsplit, -, -, hqueues, hperm, -, -⟩ :=
    h.queues.unblock hu (h.one ▸ hi) off
  have hmem : ∀ u, u ∈ queued s' (Function.update queue (s.queueFor t thisCpu)
      (before ++ t :: after)) ↔ u = t ∨ u ∈ queued s queue :=
    fun u => hperm.mem_iff.trans List.mem_cons
  have hold : ∀ i ∈ indices 1, ∀ u ∈ queue i,
      (s'.task u).taskClass = i.2 ∧ (s'.task u).state = .ready ∧ u ≠ 0 := by
    intro i hi u hui
    obtain ⟨hclass, hready, hnull⟩ := h.placed i hi u hui
    have hne : u ≠ t := fun e => off (e ▸ h.mem.mpr ⟨i, hi, hui⟩)
    exact ⟨(hu.taskClass u).trans hclass, (hu.others u hne).trans hready, hnull⟩
  refine ⟨_, ⟨hu.cpuCount.trans h.one, hqueues, ?_, ?_, ?_⟩, hmem⟩
  · intro i hi' u hui
    by_cases hne : i = s.queueFor t thisCpu
    · subst hne
      rw [Function.update_self] at hui
      rcases List.mem_cons.mp (List.perm_middle.mem_iff.mp hui) with rfl | hui
      · exact ⟨hu.taskClass u, hu.ready, nonnull⟩
      · exact hold _ hi' u (hsplit ▸ hui)
    · rw [Function.update_of_ne hne] at hui
      exact hold i hi' u hui
  · have hbound := h.length_lt nonnull off
    rw [hperm.length_eq, hu.totals, Function.update_self, BitVec.toNat_add, h.total,
      List.length_cons]
    exact Nat.mod_eq_of_lt hbound
  · intro u hout hready
    refine (hmem u).mpr ?_
    by_cases hne : u = t
    · exact Or.inl hne
    · rw [hu.others u hne] at hready
      exact Or.inr (h.ready u (fun hin => hout ⟨hin, hne⟩) hready)

theorem headAt_unqueue (s : Sched) (head : Option (BitVec 64)) {cls : TaskClass}
    (valid : cls ≠ .invalid) :
    (unqueue s head cls).headAt = Function.update s.headAt (thisCpu, cls) head :=
  headAt_setHead s thisCpu head _ valid

theorem totals_unqueue (s : Sched) (head : Option (BitVec 64)) (cls : TaskClass) {n : Nat}
    (h : (s.totals thisCpu).toNat = n + 1) :
    ((unqueue s head cls).totals thisCpu).toNat = n := by
  have htotal : (unqueue s head cls).totals thisCpu = s.totals thisCpu - 1 := by
    simp [Sched.totals, unqueue]
  rw [htotal]
  bv_omega

/-- What `dequeue` does to the listed queues. -/
theorem Queues.dequeue {s s' : Sched} {queue : Nat × TaskClass → List (BitVec 64)}
    (h : Queues s queue) (one : s.cpuCount = 1) {next : BitVec 64} {cls : TaskClass}
    (valid : cls ≠ .invalid) (run : dequeue s cls = some (next, s')) :
    ∃ rest, queue (thisCpu, cls) = next :: rest ∧
      Queues s' (Function.update queue (thisCpu, cls) rest) ∧
      (queued s queue).Perm
        (next :: queued s' (Function.update queue (thisCpu, cls) rest)) ∧
      s'.cpuCount = s.cpuCount ∧
      (∀ {n}, (s.totals thisCpu).toNat = n + 1 → (s'.totals thisCpu).toNat = n) ∧
      ∀ u, (s'.task u).state = (s.task u).state ∧
        (s'.task u).taskClass = (s.task u).taskClass ∧ (s'.task u).prio = (s.task u).prio := by
  obtain ⟨⟨_, head, _⟩, hpop, run⟩ := Option.map_eq_some_iff.mp run
  obtain ⟨first, hfirst, hpop⟩ := Option.map_eq_some_iff.mp hpop
  simp only [Prod.mk.injEq] at hpop run
  obtain ⟨rfl, rfl, rfl⟩ := hpop
  obtain ⟨rfl, rfl⟩ := run
  have hi : (thisCpu, cls) ∈ indices s.cpuCount :=
    one ▸ mem_indices.mpr ⟨Nat.one_pos, valid⟩
  have hchain := h.family _ hi
  have hhead : s.headAt (thisCpu, cls) = some first := hfirst
  rw [hhead] at hchain
  obtain ⟨rest, hqueue, -⟩ := hchain.cons_of_some
  have hnext : (unqueue (s.setNext first none) (s.next first) cls).next =
      Function.update s.next first none := setNext_next s first none
  have hcount : (unqueue (s.setNext first none) (s.next first) cls).cpuCount = s.cpuCount := rfl
  obtain ⟨hqueues, hperm⟩ := h.pop hi hqueue hcount hnext
    (headAt_unqueue (s.setNext first none) (s.next first) valid)
  exact ⟨rest, hqueue, hqueues, hperm, hcount, fun hn => totals_unqueue _ _ _ hn,
    fun u => setNext_task s first u none⟩

/-- What `dequeue` does to the books. -/
theorem Books.dequeue {s s' : Sched} {queue : Nat × TaskClass → List (BitVec 64)}
    (h : Books s queue ∅) {next : BitVec 64} {cls : TaskClass} (valid : cls ≠ .invalid)
    (run : dequeue s cls = some (next, s')) :
    ∃ queue', Books s' queue' {next} ∧ next ∉ queued s' queue' ∧
      (∀ u, u ∈ queued s queue ↔ u = next ∨ u ∈ queued s' queue') ∧
      ∀ u, (s'.task u).state = (s.task u).state ∧
        (s'.task u).taskClass = (s.task u).taskClass := by
  obtain ⟨rest, hqueue, hqueues, hperm, hcount, htotals, htask⟩ :=
    Queues.dequeue h.queues h.one valid run
  have hnodup := List.nodup_cons.mp (hperm.nodup_iff.mp h.queues.nodup)
  have hmem := fun u => (hperm.mem_iff (a := u)).trans List.mem_cons
  refine ⟨_, ⟨hcount.trans h.one, hqueues, ?_, ?_, ?_⟩, hnodup.1, hmem,
    fun u => ⟨(htask u).1, (htask u).2.1⟩⟩
  · intro i hi' u hu
    have hui : u ∈ queue i := by
      by_cases hne : i = (thisCpu, cls)
      · subst hne
        rw [Function.update_self] at hu
        exact hqueue ▸ List.mem_cons_of_mem _ hu
      · rwa [Function.update_of_ne hne] at hu
    obtain ⟨hclass, hready, hnull⟩ := h.placed i hi' u hui
    exact ⟨(htask u).2.1.trans hclass, (htask u).1.trans hready, hnull⟩
  · apply htotals
    exact h.total.trans hperm.length_eq
  · intro u hne hready
    have hold := h.ready u (Set.notMem_empty u) ((htask u).1.symm.trans hready)
    exact ((hmem u).mp hold).resolve_left hne

/-! ## What the calls keep -/

/-- What holds between two calls. The current task can be enqueued again. -/
def Inv (cpu : Cpu) : Prop :=
  ∃ queue, Books cpu.sched queue ∅ ∧ ∀ t, cpu.current = some t →
    t ∉ queued cpu.sched queue ∧ t ≠ 0 ∧ (cpu.sched.task t).taskClass ≠ .invalid

theorem candidateQueue_ne {cpu : PerCPUSchedState} {cls : TaskClass}
    (h : candidateQueue cpu = some cls) : cls ≠ .invalid := by
  rintro rfl
  exact absurd (List.mem_of_find?_eq_some h) (by decide)

theorem candidateQueue_isSome {cpu : PerCPUSchedState} {cls : TaskClass}
    (h : candidateQueue cpu = some cls) : (cpu.head cls).isSome :=
  List.find?_some (p := fun cls => (cpu.head cls).isSome) h

theorem requeueCurrent_books {s s' : Sched} {queue : Nat × TaskClass → List (BitVec 64)}
    {out : Set (BitVec 64)} {current : Option (BitVec 64)} {fuel : Nat} (h : Books s queue out)
    (fit : ∀ t, current = some t → t ∉ queued s queue ∧ t ∉ out ∧ t ≠ 0 ∧
      (s.task t).taskClass ≠ .invalid)
    (run : requeueCurrent fuel s current = some s') :
    ∃ queue', Books s' queue' out ∧
      (∀ u ∈ queued s' queue', current = some u ∨ u ∈ queued s queue) ∧
      ∀ u, (s'.task u).taskClass = (s.task u).taskClass := by
  cases current with
  | none =>
    obtain rfl : s = s' := Option.some.inj run
    exact ⟨queue, h, fun u hu => Or.inr hu, fun u => rfl⟩
  | some t =>
    obtain ⟨hoff, hout, hnull, hclass⟩ := fit t rfl
    simp only [requeueCurrent] at run
    split_ifs at run with hrunning
    · have hunblock : schedUnblockOn fuel s t thisCpu = some s' := run
      obtain ⟨queue', hbooks, hmem⟩ := h.unblock hnull hoff hclass hunblock
      refine ⟨queue', hbooks.narrow ?_, ?_, (schedUnblockOn_unblocked hclass hunblock).taskClass⟩
      · exact fun u hu hout' => absurd hu.1 hout'
      · exact fun u hu => ((hmem u).mp hu).imp_left (congrArg some ·.symm)
    · obtain rfl : s = s' := Option.some.inj run
      exact ⟨queue, h, fun u hu => Or.inr hu, fun u => rfl⟩

theorem Inv.switchTask {cpu cpu' : Cpu} {cls : TaskClass} {fuel : Nat} (inv : Inv cpu)
    (valid : cls ≠ .invalid) (run : switchTask fuel cpu cls = some cpu') : Inv cpu' := by
  obtain ⟨queue, hbooks, hcurrent⟩ := inv
  obtain ⟨⟨next, s1⟩, hdequeue, run⟩ := Option.bind_eq_some_iff.mp run
  obtain ⟨s2, hrequeue, run⟩ := Option.bind_eq_some_iff.mp run
  obtain rfl := Option.some.inj run
  obtain ⟨queue1, hbooks1, hnext1, hmem1, htask1⟩ := hbooks.dequeue valid hdequeue
  have hnext := (hmem1 next).mpr (Or.inl rfl)
  obtain ⟨i, hi, hnexti⟩ := hbooks.mem.mp hnext
  obtain ⟨hclass, -, hnull⟩ := hbooks.placed i hi next hnexti
  have hfit : ∀ t, cpu.current = some t → t ∉ queued s1 queue1 ∧ t ∉ ({next} : Set _) ∧ t ≠ 0 ∧
      (s1.task t).taskClass ≠ .invalid := by
    intro t ht
    obtain ⟨hoff, hnull, hclass⟩ := hcurrent t ht
    refine ⟨fun hin => hoff ((hmem1 t).mpr (Or.inr hin)), ?_, hnull, (htask1 t).2 ▸ hclass⟩
    rintro rfl
    exact hoff hnext
  obtain ⟨queue2, hbooks2, hmem2, hclass2⟩ := requeueCurrent_books hbooks1 hfit hrequeue
  have hnext2 : next ∉ queued s2 queue2 := by
    intro hin
    rcases hmem2 next hin with hin | hin
    · exact (hcurrent next hin).1 hnext
    · exact hnext1 hin
  refine ⟨queue2, (hbooks2.setState hnext2 (by decide)).narrow (by simp), ?_⟩
  intro t ht
  obtain rfl : next = t := Option.some.inj ht
  refine ⟨hnext2, hnull, ?_⟩
  rw [(setState_task s2 next next .running).1, hclass2, (htask1 next).2, hclass]
  exact (mem_indices.mp hi).2

/-- The invariant reads neither timeslices nor flags. -/
theorem Inv.congr {cpu cpu' : Cpu} (inv : Inv cpu) (sched : cpu'.sched = cpu.sched)
    (current : cpu'.current = cpu.current) : Inv cpu' := by
  rw [Inv, sched, current]
  exact inv

theorem decrementTimeslice_keeps (cpu : Cpu) (t : BitVec 64) :
    (decrementTimeslice cpu t).sched = cpu.sched ∧
      (decrementTimeslice cpu t).current = cpu.current ∧
      (decrementTimeslice cpu t).statusFlags = cpu.statusFlags := by
  rw [decrementTimeslice]
  split_ifs
  · exact ⟨rfl, rfl, rfl⟩
  · exact ⟨rfl, rfl, rfl⟩

theorem Inv.schedSchedule {cpu cpu' : Cpu} {fuel : Nat} (inv : Inv cpu)
    (run : schedSchedule fuel cpu = some cpu') : Inv cpu' := by
  rw [RunQueues.schedSchedule] at run
  split at run
  · obtain rfl := Option.some.inj run
    exact inv
  · rename_i cls hcls
    have hvalid := candidateQueue_ne hcls
    split at run
    · exact inv.switchTask hvalid run
    · rename_i t ht
      obtain ⟨hsched, hcurrent, -⟩ := decrementTimeslice_keeps cpu t
      have hkept := inv.congr hsched hcurrent
      dsimp only at run
      split_ifs at run
      · obtain rfl := Option.some.inj run
        exact hkept
      · exact hkept.switchTask hvalid run

/-- Unblocking a task that was ready at most outside the queues. -/
theorem Books.schedUnblock {cpu cpu' : Cpu} {queue : Nat × TaskClass → List (BitVec 64)}
    {t : BitVec 64} {fuel : Nat} (books : Books cpu.sched queue {t}) (nonnull : t ≠ 0)
    (off : t ∉ queued cpu.sched queue) (valid : (cpu.sched.task t).taskClass ≠ .invalid)
    (run : schedUnblock fuel cpu t = some cpu') :
    ∃ queue', Books cpu'.sched queue' ∅ ∧
      (∀ u, u ∈ queued cpu'.sched queue' ↔ u = t ∨ u ∈ queued cpu.sched queue) ∧
      cpu'.current = cpu.current ∧
      ∀ u, (cpu'.sched.task u).taskClass = (cpu.sched.task u).taskClass := by
  obtain ⟨s, hrun, rfl⟩ := Option.map_eq_some_iff.mp run
  obtain ⟨queue', hbooks, hmem⟩ := books.unblock nonnull off valid hrun
  exact ⟨queue', hbooks.narrow (by simp), hmem, rfl,
    (schedUnblockOn_unblocked valid hrun).taskClass⟩

theorem Books.taskCreateNew {cpu : Cpu} {queue : Nat × TaskClass → List (BitVec 64)}
    {t : BitVec 64} (books : Books cpu.sched queue ∅) (off : t ∉ queued cpu.sched queue)
    (cls : TaskClass) : Books (taskCreateNew cpu t cls).sched queue {t} :=
  (books.write off _).narrow (by simp)

theorem Inv.unblock {cpu cpu' : Cpu} {t : BitVec 64} {fuel : Nat} (inv : Inv cpu)
    (fit : Valid cpu (.unblock t)) (valid : (cpu.sched.task t).taskClass ≠ .invalid)
    (run : schedUnblock fuel cpu t = some cpu') : Inv cpu' := by
  obtain ⟨queue, hbooks, hcurrent⟩ := inv
  obtain ⟨hnull, hqueued, hne⟩ := fit
  have hoff := hbooks.not_mem hqueued
  obtain ⟨queue', hbooks', hmem, hsame, hclass⟩ :=
    Books.schedUnblock (hbooks.narrow (by simp)) hnull hoff valid run
  refine ⟨queue', hbooks', fun u hu => ?_⟩
  rw [hsame] at hu
  obtain ⟨hout, hnull', hvalid⟩ := hcurrent u hu
  refine ⟨fun hin => ?_, hnull', hclass u ▸ hvalid⟩
  rcases (hmem u).mp hin with rfl | hin
  · exact hne hu
  · exact hout hin

theorem Inv.spawn {cpu cpu' : Cpu} {t : BitVec 64} {cls : TaskClass} {fuel : Nat} (inv : Inv cpu)
    (fit : Valid cpu (.spawn t cls)) (valid : cls ≠ .invalid)
    (run : schedUnblock fuel (taskCreateNew cpu t cls) t = some cpu') : Inv cpu' := by
  obtain ⟨queue, hbooks, hcurrent⟩ := inv
  obtain ⟨hnull, hqueued, hne⟩ := fit
  have hoff := hbooks.not_mem hqueued
  obtain ⟨queue', hbooks', hmem, hsame, hclass⟩ :=
    (hbooks.taskCreateNew hoff cls).schedUnblock hnull hoff (by simpa [taskCreateNew]) run
  refine ⟨queue', hbooks', fun u hu => ?_⟩
  have hu : cpu.current = some u := hsame ▸ hu
  have hut : u ≠ t := fun e => hne (e ▸ hu)
  obtain ⟨hout, hnull', hvalid⟩ := hcurrent u hu
  refine ⟨fun hin => ?_, hnull', ?_⟩
  · exact ((hmem u).mp hin).elim hut hout
  · rw [hclass u]
    simpa [taskCreateNew, hut] using hvalid

theorem Inv.schedBlock {cpu : Cpu} {t : BitVec 64} (inv : Inv cpu)
    (current : cpu.current = some t) : Inv (schedBlock cpu t) := by
  obtain ⟨queue, hbooks, hcurrent⟩ := inv
  obtain ⟨hoff, hnull, hvalid⟩ := hcurrent t current
  refine ⟨queue, (hbooks.setState hoff (by decide)).narrow (by simp), fun u hu => ?_⟩
  obtain rfl : t = u := Option.some.inj (current.symm.trans hu)
  refine ⟨hoff, hnull, ?_⟩
  rw [RunQueues.schedBlock, (setState_task cpu.sched t t .blocked).1]
  exact hvalid

theorem Inv.step {cpu cpu' : Cpu} {call : Call} (inv : Inv cpu) (guard : Guard cpu call)
    (step : prr.step cpu call cpu') : Inv cpu' := by
  obtain ⟨hfit, fuel, run⟩ := step
  cases call with
  | unblock t => exact inv.unblock hfit guard run
  | spawn t cls => exact inv.spawn hfit guard run
  | block =>
    obtain ⟨t, ht, rfl⟩ := Option.map_eq_some_iff.mp run
    exact inv.schedBlock ht
  | schedule => exact inv.schedSchedule run

/-! ## Every call returns -/

/-- The queue that a task goes to can be walked to its end; for a task of no class there is none. -/
theorem chain_queueFor {s : Sched} {queue : Nat × TaskClass → List (BitVec 64)}
    (h : Queues s queue) (one : s.cpuCount = 1) (t : BitVec 64) :
    ∃ xs, Chain s.next (s.headAt (s.queueFor t thisCpu)) xs := by
  by_cases hclass : (s.task t).taskClass = .invalid
  · refine ⟨[], ?_⟩
    rw [Sched.queueFor, hclass]
    rfl
  · exact ⟨_, h.family _ (one ▸ mem_indices.mpr ⟨Nat.one_pos, hclass⟩)⟩

theorem Books.unblock_returns {s : Sched} {queue : Nat × TaskClass → List (BitVec 64)}
    {out : Set (BitVec 64)} (h : Books s queue out) (t : BitVec 64) :
    ∃ fuel s', schedUnblockOn fuel s t thisCpu = some s' := by
  obtain ⟨xs, hchain⟩ := chain_queueFor h.queues h.one t
  exact ⟨xs.length, Option.isSome_iff_exists.mp (schedUnblockOn_isSome hchain (Nat.le_refl _))⟩

theorem Inv.switchTask_returns {cpu : Cpu} {cls : TaskClass} (inv : Inv cpu)
    (candidate : candidateQueue (cpu.sched.cpu thisCpu) = some cls) :
    ∃ fuel cpu', RunQueues.switchTask fuel cpu cls = some cpu' := by
  obtain ⟨queue, hbooks, hcurrent⟩ := inv
  obtain ⟨first, hfirst⟩ := Option.isSome_iff_exists.mp (candidateQueue_isSome candidate)
  obtain ⟨next, s, hdequeue⟩ : ∃ next s, dequeue cpu.sched cls = some (next, s) := by
    rw [dequeue, hfirst]
    exact ⟨_, _, rfl⟩
  obtain ⟨queue', hbooks', -⟩ := hbooks.dequeue (candidateQueue_ne candidate) hdequeue
  have hrequeue : ∃ fuel s', requeueCurrent fuel s cpu.current = some s' := by
    cases cpu.current with
    | none => exact ⟨0, s, rfl⟩
    | some t =>
      by_cases hrunning : (s.task t).state = .running
      · obtain ⟨fuel, s', hs'⟩ := hbooks'.unblock_returns t
        exact ⟨fuel, s', by rw [requeueCurrent, if_pos hrunning]; exact hs'⟩
      · exact ⟨0, s, by rw [requeueCurrent, if_neg hrunning]⟩
  obtain ⟨fuel, s', hrequeue⟩ := hrequeue
  refine ⟨fuel, ?_⟩
  simp only [RunQueues.switchTask, hdequeue, Option.bind_eq_bind, Option.bind_some, hrequeue]
  exact ⟨_, rfl⟩

/-- With enough fuel for the queues every call returns. -/
theorem Inv.returns {cpu : Cpu} {call : Call} (inv : Inv cpu) (fit : Valid cpu call) :
    ∃ fuel cpu', exec fuel cpu call = some cpu' := by
  cases call with
  | unblock t =>
    obtain ⟨queue, hbooks, -⟩ := inv
    obtain ⟨fuel, s, hs⟩ := hbooks.unblock_returns t
    exact ⟨fuel, { cpu with sched := s }, by rw [exec, schedUnblock, hs, Option.map_some]⟩
  | spawn t cls =>
    obtain ⟨queue, hbooks, -⟩ := inv
    obtain ⟨fuel, s, hs⟩ := (hbooks.taskCreateNew (hbooks.not_mem fit.2.1) cls).unblock_returns t
    exact ⟨fuel, { taskCreateNew cpu t cls with sched := s },
      by rw [exec, schedUnblock, hs, Option.map_some]⟩
  | block =>
    obtain ⟨t, ht⟩ := Option.isSome_iff_exists.mp fit
    exact ⟨0, RunQueues.schedBlock cpu t, by rw [exec, ht, Option.map_some]⟩
  | schedule =>
    cases hcandidate : candidateQueue (cpu.sched.cpu thisCpu) with
    | none => exact ⟨0, cpu, by rw [exec, RunQueues.schedSchedule, hcandidate]⟩
    | some cls =>
      cases hcurrent : cpu.current with
      | none =>
        obtain ⟨fuel, cpu', hswitch⟩ := inv.switchTask_returns hcandidate
        exact ⟨fuel, cpu', by simp only [exec, RunQueues.schedSchedule, hcandidate, hcurrent,
          hswitch]⟩
      | some t =>
        obtain ⟨hsched, hcur, hflags⟩ := decrementTimeslice_keeps cpu t
        have halive : threadToBeKilled (decrementTimeslice cpu t) t = false := by
          rw [threadToBeKilled, hflags]
          exact fit t hcurrent
        obtain ⟨fuel, cpu', hswitch⟩ :=
          (inv.congr hsched hcur).switchTask_returns (by rw [hsched]; exact hcandidate)
        refine ⟨fuel, ?_⟩
        simp only [exec, RunQueues.schedSchedule, hcandidate, hcurrent, halive,
          Bool.false_eq_true, if_false]
        split_ifs
        · exact ⟨_, rfl⟩
        · exact ⟨cpu', hswitch⟩

/-! ## What the calls leave alone -/

/-- The link and the priority of the task are the same. -/
def SameLink (s s' : Sched) (u : BitVec 64) : Prop := s'.next u = s.next u ∧ s'.prio u = s.prio u

theorem SameLink.trans {s1 s2 s3 : Sched} {u : BitVec 64} (h : SameLink s1 s2 u)
    (h' : SameLink s2 s3 u) : SameLink s1 s3 u :=
  ⟨h'.1.trans h.1, h'.2.trans h.2⟩

theorem sameLink_setState (s : Sched) (t : BitVec 64) (st : TaskState) (u : BitVec 64) :
    SameLink s (s.setState t st) u :=
  ⟨congrFun (setState_next s t st) u, (setState_task s t u st).2⟩

theorem Books.unblock_keeps {s s' : Sched} {queue : Nat × TaskClass → List (BitVec 64)}
    {out : Set (BitVec 64)} (h : Books s queue out) {t u : BitVec 64} {fuel : Nat}
    (off : t ∉ queued s queue) (run : schedUnblockOn fuel s t thisCpu = some s') (hne : u ≠ t)
    (apart : u ∉ queued s queue) : SameLink s s' u := by
  by_cases hclass : (s.task t).taskClass = .invalid
  · have hsame := (setState_task s t t .ready).1.trans hclass
    simp only [schedUnblockOn, schedEnqueueOn, hsame, if_pos, Option.map_some,
      Option.some.injEq] at run
    exact run ▸ sameLink_setState s t .ready u
  · have hu := schedUnblockOn_unblocked hclass run
    have hi : s.queueFor t thisCpu ∈ indices 1 := mem_indices.mpr ⟨Nat.one_pos, hclass⟩
    obtain ⟨-, -, -, -, -, -, -, -, hlinks⟩ := h.queues.unblock hu (h.one ▸ hi) off
    exact ⟨hlinks u (by simp [hne, apart]), congrFun hu.prio u⟩

theorem dequeue_keeps {s s' : Sched} {cls : TaskClass} {next u : BitVec 64}
    (run : dequeue s cls = some (next, s')) (hne : u ≠ next) : SameLink s s' u := by
  obtain ⟨⟨_, head, _⟩, hpop, run⟩ := Option.map_eq_some_iff.mp run
  obtain ⟨first, -, hpop⟩ := Option.map_eq_some_iff.mp hpop
  simp only [Prod.mk.injEq] at hpop run
  obtain ⟨rfl, rfl, rfl⟩ := hpop
  obtain ⟨rfl, rfl⟩ := run
  refine ⟨?_, (setNext_task s first u none).2.2⟩
  have hnext := congrFun (setNext_next s first none) u
  exact hnext.trans (Function.update_of_ne hne _ _)

theorem Inv.switchTask_keeps {cpu cpu' : Cpu} {cls : TaskClass} {fuel : Nat} {u : BitVec 64}
    (inv : Inv cpu) (valid : cls ≠ .invalid) (run : RunQueues.switchTask fuel cpu cls = some cpu')
    (off : ¬ Queued cpu.sched u) (notCurrent : cpu.current ≠ some u) :
    SameLink cpu.sched cpu'.sched u := by
  obtain ⟨queue, hbooks, hcurrent⟩ := inv
  obtain ⟨⟨next, s1⟩, hdequeue, run⟩ := Option.bind_eq_some_iff.mp run
  obtain ⟨s2, hrequeue, run⟩ := Option.bind_eq_some_iff.mp run
  obtain rfl := Option.some.inj run
  obtain ⟨queue1, hbooks1, -, hmem1, -⟩ := hbooks.dequeue valid hdequeue
  have hout := hbooks.not_mem off
  have hfirst : SameLink cpu.sched s1 u :=
    dequeue_keeps hdequeue fun e => hout ((hmem1 u).mpr (Or.inl e))
  have hsecond : SameLink s1 s2 u := by
    have hout1 : u ∉ queued s1 queue1 := fun hin => hout ((hmem1 u).mpr (Or.inr hin))
    cases hcur : cpu.current with
    | none =>
      rw [hcur] at hrequeue
      obtain rfl : s1 = s2 := Option.some.inj hrequeue
      exact ⟨rfl, rfl⟩
    | some t =>
      rw [hcur] at hrequeue notCurrent
      simp only [requeueCurrent] at hrequeue
      split_ifs at hrequeue
      · have hoff : t ∉ queued s1 queue1 :=
          fun hin => (hcurrent t hcur).1 ((hmem1 t).mpr (Or.inr hin))
        have hne : u ≠ t := fun e => notCurrent (congrArg some e.symm)
        exact hbooks1.unblock_keeps hoff hrequeue hne hout1
      · obtain rfl : s1 = s2 := Option.some.inj hrequeue
        exact ⟨rfl, rfl⟩
  exact (hfirst.trans hsecond).trans (sameLink_setState s2 next .running u)

/-- The task is neither queued nor running, and the call is not about it. -/
def Apart (cpu : Cpu) (call : Call) (u : BitVec 64) : Prop :=
  ¬ Queued cpu.sched u ∧ cpu.current ≠ some u ∧ match call with
    | .unblock t => u ≠ t
    | .spawn t _ => u ≠ t
    | _ => True

/-- A call keeps the links and priorities of the tasks it has nothing to do with. -/
theorem Inv.exec_keeps {cpu cpu' : Cpu} {call : Call} {fuel : Nat} {u : BitVec 64} (inv : Inv cpu)
    (fit : Valid cpu call) (run : exec fuel cpu call = some cpu') (apart : Apart cpu call u) :
    SameLink cpu.sched cpu'.sched u := by
  obtain ⟨off, notCurrent, hne⟩ := apart
  cases call with
  | unblock t =>
    obtain ⟨queue, hbooks, -⟩ := inv
    obtain ⟨s, hrun, rfl⟩ := Option.map_eq_some_iff.mp run
    exact hbooks.unblock_keeps (hbooks.not_mem fit.2.1) hrun hne (hbooks.not_mem off)
  | spawn t cls =>
    obtain ⟨queue, hbooks, -⟩ := inv
    obtain ⟨s, hrun, rfl⟩ := Option.map_eq_some_iff.mp run
    have hoff := hbooks.not_mem fit.2.1
    have hcreated : SameLink cpu.sched (RunQueues.taskCreateNew cpu t cls).sched u := by
      have hrecord : (RunQueues.taskCreateNew cpu t cls).sched.task u = cpu.sched.task u :=
        Function.update_of_ne hne _ _
      exact ⟨congrArg Task.next hrecord, congrArg Task.prio hrecord⟩
    exact hcreated.trans
      ((hbooks.taskCreateNew hoff cls).unblock_keeps hoff hrun hne (hbooks.not_mem off))
  | block =>
    obtain ⟨t, -, rfl⟩ := Option.map_eq_some_iff.mp run
    exact sameLink_setState cpu.sched t .blocked u
  | schedule =>
    rw [exec, RunQueues.schedSchedule] at run
    split at run
    · obtain rfl := Option.some.inj run
      exact ⟨rfl, rfl⟩
    · rename_i cls hcls
      have hvalid := candidateQueue_ne hcls
      split at run
      · exact inv.switchTask_keeps hvalid run off notCurrent
      · rename_i t ht
        obtain ⟨hsched, hcur, -⟩ := decrementTimeslice_keeps cpu t
        dsimp only at run
        split_ifs at run
        · obtain rfl := Option.some.inj run
          rw [hsched]
          exact ⟨rfl, rfl⟩
        · rw [← hsched]
          refine (inv.congr hsched hcur).switchTask_keeps hvalid run ?_ ?_
          · rwa [hsched]
          · rwa [hcur]

/-! ## From the boot on -/

theorem Books.blank {cpu : Cpu} (h : Blank cpu) : Books cpu.sched (fun _ => []) ∅ := by
  have hempty : queued cpu.sched (fun _ => []) = [] := by
    rw [queued, h.one]
    rfl
  refine ⟨h.one, ⟨fun i hi => ?_, ?_⟩, by simp, ?_, ?_⟩
  · have hcpu : i.1 = thisCpu := by
      have hlt := (mem_indices.mp hi).1
      rw [h.one] at hlt
      exact Nat.lt_one_iff.mp hlt
    rw [Sched.headAt, hcpu, h.heads]
    rfl
  · rw [hempty]
    exact List.nodup_nil
  · rw [Sched.totals, h.total, hempty]
    rfl
  · intro t _ hready
    exact absurd hready (h.none_ready t)

theorem createAndEnqueue_unblock {cpu cpu' : Cpu} {t : BitVec 64} {cls : TaskClass} {fuel : Nat}
    (run : createAndEnqueue fuel cpu t cls = some (true, cpu')) :
    cls ≠ .invalid ∧ schedUnblock fuel (taskCreateNew cpu t cls) t = some cpu' := by
  have hready : (taskCreateNew cpu t cls).sched.setState t .ready =
      (taskCreateNew cpu t cls).sched := by
    simp [Sched.setState, taskCreateNew]
  obtain ⟨⟨ok, s⟩, hrun, hpair⟩ := Option.map_eq_some_iff.mp run
  simp only [Prod.mk.injEq] at hpair
  obtain ⟨rfl, rfl⟩ := hpair
  refine ⟨?_, ?_⟩
  · rintro rfl
    simp [schedEnqueueOn, taskCreateNew] at hrun
  · rw [schedUnblock, schedUnblockOn, hready, hrun]
    rfl

theorem Inv.booted {cpu : Cpu} (h : Booted cpu) : Inv cpu := by
  obtain ⟨blank, started, newTask, idleTask, cls, fuel, hblank, hnew, hidle, hne, hfirst,
    hsecond⟩ := h
  obtain ⟨hvalid, hfirst⟩ := createAndEnqueue_unblock hfirst
  obtain ⟨hidleValid, hsecond⟩ := createAndEnqueue_unblock hsecond
  have hnone : ∀ t, t ∉ queued blank.sched (fun _ => []) := by simp [queued]
  obtain ⟨queue, hbooks, hmem, hcurrent, -⟩ :=
    ((Books.blank hblank).taskCreateNew (hnone newTask) cls).schedUnblock hnew (hnone newTask)
      (by simpa [taskCreateNew]) hfirst
  have hoff : idleTask ∉ queued started.sched queue := by
    intro hin
    exact ((hmem idleTask).mp hin).elim hne (hnone idleTask)
  obtain ⟨queue', hbooks', -, hcurrent', -⟩ :=
    (hbooks.taskCreateNew hoff .idle).schedUnblock hidle hoff (by simp [taskCreateNew]) hsecond
  refine ⟨queue', hbooks', fun t ht => ?_⟩
  rw [hcurrent'.trans (hcurrent.trans hblank.idle)] at ht
  exact absurd ht (by simp)

/-- The invariant says what the books of the CPU are. -/
theorem Inv.accounts {cpu : Cpu} (inv : Inv cpu) : ∃ queue, Accounts cpu queue := by
  obtain ⟨queue, hbooks, hcurrent⟩ := inv
  have hindex : ∀ cls ≠ TaskClass.invalid, (thisCpu, cls) ∈ indices 1 :=
    fun cls hcls => mem_indices.mpr ⟨Nat.one_pos, hcls⟩
  have hall : queued cpu.sched queue = queue (thisCpu, .realtime) ++ (queue (thisCpu, .high) ++
      (queue (thisCpu, .normal) ++ (queue (thisCpu, .idle) ++ []))) := by
    rw [queued, hbooks.one]
    rfl
  refine ⟨fun cls => queue (thisCpu, cls), ?_, ?_, ?_, ?_, ?_, ?_⟩
  · exact fun cls hcls => hbooks.queues.family (thisCpu, cls) (hbooks.one ▸ hindex cls hcls)
  · have htotal := hbooks.total
    rw [hall, Sched.totals] at htotal
    simp only [List.length_append, List.length_nil] at htotal
    omega
  · simpa [hall] using hbooks.queues.nodup
  · intro cls hcls t ht
    obtain ⟨hclass, hready, -⟩ := hbooks.placed _ (hindex cls hcls) t ht
    exact ⟨hclass, hready⟩
  · intro t ht cls hcls hin
    exact (hcurrent t ht).1 (hbooks.mem.mpr ⟨_, hindex cls hcls, hin⟩)
  · intro t hready
    obtain ⟨⟨c, cls⟩, hi, ht⟩ := hbooks.mem.mp (hbooks.ready t (Set.notMem_empty t) hready)
    obtain ⟨hcpu, hcls⟩ := mem_indices.mp hi
    obtain rfl : c = thisCpu := Nat.lt_one_iff.mp hcpu
    exact ⟨cls, hcls, ht⟩

/-- In every run that unblocks only tasks of the four classes, every task that is ready is in
the queue of its class, once, and the total counts them. -/
theorem ready_tasks_conserved {cpu : Cpu} (h : Reachable (prr.restrict Guard) cpu) :
    ∃ queue, Accounts cpu queue := by
  refine Inv.accounts (h.invariant Inv (fun _ => Inv.booted) ?_)
  exact fun _ _ _ inv hstep => inv.step hstep.1 hstep.2

/-- Memory with no task in it. -/
def emptyCpu : Cpu where
  sched :=
    { cpuCount := 1
      cpu := fun _ => ⟨none, none, none, none, 0⟩
      task := fun _ => { next := none, state := .blocked, taskClass := .normal, prio := 0 } }
  tsRemain := fun _ => 0
  statusFlags := fun _ => 0
  current := none

def systemTask : BitVec 64 := 0x1000

def idleTask : BitVec 64 := 0x2000

def startedCpu : Cpu :=
  ((createAndEnqueue 1 emptyCpu systemTask .normal).map (·.2)).getD emptyCpu

/-- The scheduler after the boot, with the first task and the idle task queued. -/
def bootedCpu : Cpu :=
  ((createAndEnqueue 1 startedCpu idleTask .idle).map (·.2)).getD startedCpu

theorem booted_bootedCpu : Booted bootedCpu := by
  refine ⟨emptyCpu, startedCpu, systemTask, idleTask, .normal, 1, ?_, by decide, by decide,
    by decide, rfl, rfl⟩
  exact ⟨rfl, fun cls => by cases cls <;> rfl, rfl, fun t => by simp [emptyCpu], rfl⟩

theorem bootedCpu_current : bootedCpu.current = none := rfl

/-- The CPU switches to the first task it has queued. -/
theorem ready_tasks_conserved_switched : ∃ cpu, Reachable (prr.restrict Guard) cpu ∧
    cpu.current = some systemTask ∧ ∃ queue, Accounts cpu queue := by
  have hrun : ∃ cpu, schedSchedule 1 bootedCpu = some cpu ∧ cpu.current = some systemTask :=
    ⟨_, rfl, rfl⟩
  obtain ⟨cpu, hrun, hcurrent⟩ := hrun
  have hreach : Reachable (prr.restrict Guard) cpu := by
    refine .next (.start booted_bootedCpu) (a := .schedule) ⟨trivial, ?_, 1, hrun⟩
    intro t ht
    exact absurd (bootedCpu_current.symm.trans ht) (by simp)
  exact ⟨cpu, hreach, hcurrent, ready_tasks_conserved hreach⟩

def unclassedTask : BitVec 64 := 0x3000

theorem bootedCpu_not_queued : ¬ Queued bootedCpu.sched unclassedTask := by
  rintro ⟨cls, walked, hwalk⟩
  have hnext : ∀ t, t = systemTask ∨ t = idleTask → bootedCpu.sched.next t = none := by
    rintro t (rfl | rfl)
    · rfl
    · rfl
  have hhead : ∀ t, (bootedCpu.sched.cpu thisCpu).head cls = some t →
      t = systemTask ∨ t = idleTask := by
    intro t ht
    cases cls with
    | normal => exact Or.inl (Option.some.inj ht).symm
    | idle => exact Or.inr (Option.some.inj ht).symm
    | high => exact absurd ht (Option.some_ne_none t).symm
    | realtime => exact absurd ht (Option.some_ne_none t).symm
    | invalid => exact absurd ht (Option.some_ne_none t).symm
  have harrived := hwalk.closed (fun t => t = systemTask ∨ t = idleTask) hhead
    (fun t u ht hu => absurd ((hnext t ht).symm.trans hu) (by simp))
  exact absurd harrived (by decide)

/-- A process created with a class that does not exist has a task that is ready for ever and in
no queue. -/
theorem unclassed_task_is_lost : ∃ cpu, Reachable prr cpu ∧ ¬ ∃ queue, Accounts cpu queue := by
  have hrun : ∃ cpu, exec 1 bootedCpu (.spawn unclassedTask .invalid) = some cpu ∧
      (cpu.sched.task unclassedTask).state = .ready ∧
      (cpu.sched.task unclassedTask).taskClass = .invalid := ⟨_, rfl, rfl, rfl⟩
  obtain ⟨cpu, hrun, hready, hclass⟩ := hrun
  have hfit : Valid bootedCpu (.spawn unclassedTask .invalid) :=
    ⟨by decide, bootedCpu_not_queued, by simp [bootedCpu_current]⟩
  refine ⟨cpu, .next (.start booted_bootedCpu) ⟨hfit, 1, hrun⟩, ?_⟩
  rintro ⟨queue, haccounts⟩
  obtain ⟨cls, hcls, ht⟩ := haccounts.ready unclassedTask hready
  exact hcls ((haccounts.placed cls hcls unclassedTask ht).1.symm.trans hclass)

end RunQueues
