import AnosKernel.ChannelDestroy
import AnosKernel.RunQueues
import AnosKernel.SleepQueue
import Mathlib.Data.List.Flatten

/-!
# Putting tasks to sleep

`kernel/sleep.c` on a machine with several CPUs, each with its queue of sleepers and its current
task. `sleep_task` blocks the task whether or not it could be enqueued. `check_sleepers` reads
the link of a task before it unblocks it, as that pushes the task on a run queue.
-/

namespace Sleeping

open Chains ChannelDestroy Runs RunQueues Scheduler SleepQueues

def nanosPerTick : BitVec 64 := 10000000

structure World where
  sched : Sched
  tsRemain : BitVec 64 → BitVec 16
  statusFlags : BitVec 64 → BitVec 16
  current : Nat → Option (BitVec 64)
  queue : Nat → SleepQueue
  sleeper : BitVec 64 → Sleeper
  upticks : BitVec 64
  /-- History: the tasks put to sleep on each CPU, with the ticks to wake them at. -/
  asleep : Nat → List (BitVec 64 × BitVec 64)

/-- What the scheduler works on when it runs on a CPU. -/
def World.cpu (w : World) (c : Nat) : Cpu := ⟨w.sched, w.tsRemain, w.statusFlags, w.current c⟩

/-- What the sleep queue of a CPU is made of. -/
def World.view (w : World) (c : Nat) : State := ⟨w.queue c, w.sleeper, w.sched.next⟩

def World.put (w : World) (c : Nat) (q : State) : World :=
  { w with
    queue := Function.update w.queue c q.queue
    sleeper := q.sleeper
    sched := { w.sched with task := fun t => { w.sched.task t with next := q.taskNext t } } }

/-! ## Scheduling on one of the CPUs -/

/-- Take the first task off a queue of the CPU. -/
def dequeueOn (s : Sched) (c : Nat) (cls : TaskClass) : Option (BitVec 64 × Sched) :=
  (taskPqPop s ((s.cpu c).head cls)).map fun (next, head, s) =>
    (next, { s with
      cpu := Function.update s.cpu c
        { (s.cpu c).setHead head cls with allQueueTotal := (s.cpu c).allQueueTotal - 1 } })

/-- A current task that was running is set ready and enqueued again. -/
def requeueOn (fuel : Nat) (s : Sched) (c : Nat) : Option (BitVec 64) → Option Sched
  | none => some s
  | some t =>
    if (s.task t).state = .running then
      (schedEnqueueOn fuel (s.setState t .ready) t c).map (·.2)
    else some s

/-- The end of `sched_schedule`, with the queue of the candidate. -/
def switchOn (fuel : Nat) (w : World) (c : Nat) (cls : TaskClass) : Option World := do
  let (next, s) ← dequeueOn w.sched c cls
  let s ← requeueOn fuel s c (w.current c)
  return { w with
    sched := s.setState next .running
    tsRemain := Function.update w.tsRemain next defaultTimeslice
    current := Function.update w.current c (some next) }

/-- `sched_schedule` on a CPU. `none` when the requeueing does not end or the current task, being
killed, goes to its exit point. -/
def schedScheduleOn (fuel : Nat) (w : World) (c : Nat) : Option World :=
  match candidateQueue (w.sched.cpu c) with
  | none => some w
  | some cls =>
    match w.current c with
    | none => switchOn fuel w c cls
    | some t =>
      let cpu := decrementTimeslice (w.cpu c) t
      let w := { w with tsRemain := cpu.tsRemain }
      if threadToBeKilled cpu t then none
      else if ((w.sched.cpu c).head cls).any (timesliceContinues cpu t) then some w
      else switchOn fuel w c cls

theorem switchOn_this (fuel : Nat) (w : World) (cls : TaskClass) :
    (switchOn fuel w thisCpu cls).map (·.cpu thisCpu) = switchTask fuel (w.cpu thisCpu) cls := by
  have hdequeue : dequeueOn w.sched thisCpu cls = dequeue w.sched cls := rfl
  have hrequeue : ∀ s, requeueOn fuel s thisCpu (w.current thisCpu) =
      requeueCurrent fuel s (w.current thisCpu) := by
    intro s
    cases w.current thisCpu with
    | none => rfl
    | some t => rfl
  simp only [switchOn, switchTask, hdequeue, World.cpu, Option.bind_eq_bind, Option.pure_def,
    Option.map_bind]
  refine Option.bind_congr fun result _ => ?_
  simp only [Function.comp_apply, hrequeue, Option.map_bind]
  refine Option.bind_congr fun s _ => ?_
  simp

/-- On the first CPU this is the scheduler of a machine with one CPU. -/
theorem schedScheduleOn_this (fuel : Nat) (w : World) :
    (schedScheduleOn fuel w thisCpu).map (·.cpu thisCpu) =
      schedSchedule fuel (w.cpu thisCpu) := by
  rw [schedScheduleOn, schedSchedule]
  cases hcandidate : candidateQueue (w.sched.cpu thisCpu) with
  | none => simp [World.cpu, hcandidate]
  | some cls =>
    have hcandidate' : candidateQueue ((w.cpu thisCpu).sched.cpu thisCpu) = some cls := hcandidate
    cases hcurrent : w.current thisCpu with
    | none =>
      have hcurrent' : (w.cpu thisCpu).current = none := hcurrent
      simp only [hcandidate', hcurrent']
      exact switchOn_this fuel w cls
    | some t =>
      have hcurrent' : (w.cpu thisCpu).current = some t := hcurrent
      have hused : (World.cpu { w with
          tsRemain := (decrementTimeslice (w.cpu thisCpu) t).tsRemain } thisCpu) =
            decrementTimeslice (w.cpu thisCpu) t := by
        rw [decrementTimeslice]
        split_ifs <;> rfl
      have hsched : (decrementTimeslice (w.cpu thisCpu) t).sched = w.sched :=
        (decrementTimeslice_keeps _ _).1
      simp only [hcandidate', hcurrent', hsched]
      split_ifs
      · rfl
      · rw [Option.map_some, hused]
      · rw [switchOn_this, hused]

def schedBlock (w : World) (t : BitVec 64) : World :=
  { w with sched := w.sched.setState t .blocked }

/-! ## Sleeping -/

/-- `sleep_task` on a CPU, with the answer of `slab_alloc_block`; whether the task was enqueued is
not looked at. -/
def sleepTask (fuel : Nat) (w : World) (c : Nat) (task : Option (BitVec 64))
    (nanos : BitVec 64) (slab : Option (BitVec 64)) : Option World :=
  match task with
  | none => some w
  | some t =>
    match sleepQueueEnqueue fuel (w.view c) (some t) (w.upticks + nanos / nanosPerTick) slab with
    | none => none
    | some (_, q) => schedScheduleOn fuel (schedBlock (w.put c q) t) c

/-- The loop of `check_sleepers`. -/
def wakeSleepers (fuel : Nat) : Nat → Sched → Option (BitVec 64) → Option Sched
  | 0, _, _ => none
  | _ + 1, s, none => some s
  | turns + 1, s, some waker =>
    let next := s.next waker
    (wake fuel s waker).bind fun s => wakeSleepers fuel turns s next

def checkSleepers (fuel : Nat) (w : World) (c : Nat) : Option World :=
  match sleepQueueDequeue fuel (w.view c) w.upticks with
  | none => none
  | some (first, q) =>
    (wakeSleepers fuel fuel (w.put c q).sched first).map fun s => { w.put c q with sched := s }

/-! ## Runs -/

/-- `block` and `unblock` stand for waits of other kinds, `write` for the creation of a task and
other writes to a task that is nowhere. -/
inductive Call where
  | sleep (c : Nat) (nanos : BitVec 64) (slab : Option (BitVec 64))
  | tick
  | check (c : Nat)
  | schedule (c : Nat)
  | block (c : Nat)
  | unblock (t : BitVec 64) (c : Nat)
  | write (t : BitVec 64) (task : Task)

/-- The tasks asleep after a call: the caller of `sleep_task` from then on, until the first check
of its CPU that finds its time has come. -/
def asleepAfter (w : World) : Call → Nat → List (BitVec 64 × BitVec 64)
  | .sleep c nanos _ =>
    Function.update w.asleep c
      ((w.current c).toList.map (·, w.upticks + nanos / nanosPerTick) ++ w.asleep c)
  | .check c =>
    Function.update w.asleep c ((w.asleep c).filter fun (_, deadline) => w.upticks < deadline)
  | _ => w.asleep

def run (fuel : Nat) (w : World) : Call → Option World
  | .sleep c nanos slab => sleepTask fuel w c (w.current c) nanos slab
  | .tick => some { w with upticks := w.upticks + 1 }
  | .check c => checkSleepers fuel w c
  | .schedule c => schedScheduleOn fuel w c
  | .block c => (w.current c).map (schedBlock w)
  | .unblock t c => (schedUnblockOn fuel w.sched t c).map fun s => { w with sched := s }
  | .write t task =>
    some { w with sched := { w.sched with task := Function.update w.sched.task t task } }

def World.record (w : World) (asleep : Nat → List (BitVec 64 × BitVec 64)) : World :=
  { w with asleep := asleep }

def exec (fuel : Nat) (w : World) (call : Call) : Option World :=
  (run fuel w call).map (·.record (asleepAfter w call))

/-- A walk along one of the run queues arrives at the task. -/
def QueuedTask (s : Sched) (t : BitVec 64) : Prop :=
  ∃ i ∈ indices s.cpuCount, ∃ walked, Seg s.next (s.headAt i) walked (some t)

/-- A walk along one of the sleep queues arrives at a sleeper with the task. -/
def SleepingTask (w : World) (t : BitVec 64) : Prop :=
  ∃ c < w.sched.cpuCount, ∃ b, OnQueue (w.view c) b ∧ (w.sleeper b).task = t

/-- In no run queue and no sleep queue, and on no CPU. -/
def Nowhere (w : World) (t : BitVec 64) : Prop :=
  ¬ QueuedTask w.sched t ∧ ¬ SleepingTask w t ∧ ∀ c, w.current c ≠ some t

/-- The CPU of a call runs a task. -/
def Runs (w : World) (c : Nat) : Prop :=
  c < w.sched.cpuCount ∧ ∃ t, w.current c = some t ∧ (w.sched.task t).state = .running

/-- The callers run, the slab allocator answers blocks that are not in use, and other tasks are
unblocked that wait for something else. -/
def Valid (w : World) : Call → Prop
  | .sleep c _ slab =>
    Runs w c ∧ ∀ b, slab = some b → b ≠ 0 ∧ ∀ c < w.sched.cpuCount, ¬ OnQueue (w.view c) b
  | .tick => True
  | .check c => c < w.sched.cpuCount
  | .schedule c => c < w.sched.cpuCount
  | .block c => Runs w c
  | .unblock t c =>
    c < w.sched.cpuCount ∧ Nowhere w t ∧ (w.sched.task t).taskClass ≠ .invalid
  | .write t _ => Nowhere w t

/-- The state behind the boot: no sleepers yet, and run queues of tasks with a class. -/
structure Booted (w : World) : Prop where
  cpus : 0 < w.sched.cpuCount
  awake : ∀ c, w.queue c = ⟨none, none, 0⟩ ∧ w.asleep c = []
  current : ∀ c t, w.current c = some t → (w.sched.task t).taskClass ≠ .invalid
  runnable : ∃ queue, Queues w.sched queue ∧ ∀ t ∈ queued w.sched queue,
    (w.sched.task t).state = .ready ∧ (w.sched.task t).taskClass ≠ .invalid

def sleep : System World Call where
  init := Booted
  step := fun w call w' => Valid w call ∧ ∃ fuel, exec fuel w call = some w'

/-- `sleep_queue_enqueue` gets its block. -/
def Granted (_ : World) : Call → Prop
  | .sleep _ _ slab => slab ≠ none
  | _ => True

/-! ## What holds between two calls -/

/-- The run queues list ready tasks with a class, and the current tasks have one. -/
structure Runnable (w : World) (queue : Nat × TaskClass → List (BitVec 64)) : Prop where
  queues : Queues w.sched queue
  ready : ∀ t ∈ queued w.sched queue,
    (w.sched.task t).state = .ready ∧ (w.sched.task t).taskClass ≠ .invalid
  current : ∀ c t, w.current c = some t → (w.sched.task t).taskClass ≠ .invalid

/-- The sleepers' tasks are blocked, and each of them sleeps once. -/
structure Asleep (w : World) (blocks : Nat → List (BitVec 64)) : Prop where
  holds : ∀ c < w.sched.cpuCount, Holds (w.view c) (blocks c)
  once : (((List.range w.sched.cpuCount).flatMap blocks).map fun b => (w.sleeper b).task).Nodup
  blocked : ∀ c < w.sched.cpuCount, ∀ b ∈ blocks c,
    (w.sched.task (w.sleeper b).task).state = .blocked ∧
      (w.sched.task (w.sleeper b).task).taskClass ≠ .invalid

/-- There is a sleeper for each task put to sleep. -/
def Recorded (w : World) (blocks : Nat → List (BitVec 64)) : Prop :=
  ∀ c < w.sched.cpuCount, ∀ t deadline, (t, deadline) ∈ w.asleep c →
    ∃ b ∈ blocks c, (w.sleeper b).task = t ∧ (w.sleeper b).wakeAt = deadline

/-- The scheduler leaves the sleep queues and the blocked tasks alone. -/
structure Kept (w w' : World) : Prop where
  queue : w'.queue = w.queue
  sleeper : w'.sleeper = w.sleeper
  cpuCount : w'.sched.cpuCount = w.sched.cpuCount
  blocked : ∀ t, (w.sched.task t).state = .blocked →
    (w'.sched.task t).state = .blocked ∧ (w'.sched.task t).taskClass = (w.sched.task t).taskClass

theorem Kept.refl (w : World) : Kept w w := ⟨rfl, rfl, rfl, fun _ h => ⟨h, rfl⟩⟩

theorem Asleep.sleeping {w : World} {blocks : Nat → List (BitVec 64)} (h : Asleep w blocks)
    {t : BitVec 64} :
    SleepingTask w t ↔ ∃ c < w.sched.cpuCount, ∃ b ∈ blocks c, (w.sleeper b).task = t := by
  constructor
  · rintro ⟨c, hc, b, hb, ht⟩
    exact ⟨c, hc, b, (onQueue_iff (h.holds c hc).chain).mp hb, ht⟩
  · rintro ⟨c, hc, b, hb, ht⟩
    exact ⟨c, hc, b, (onQueue_iff (h.holds c hc).chain).mpr hb, ht⟩

/-- Only the sleep queues and the tasks of the sleepers matter. -/
theorem Asleep.congr {w w' : World} {blocks : Nat → List (BitVec 64)} (h : Asleep w blocks)
    (queue : w'.queue = w.queue) (sleeper : w'.sleeper = w.sleeper)
    (cpuCount : w'.sched.cpuCount = w.sched.cpuCount)
    (same : ∀ t, SleepingTask w t → (w.sched.task t).state = .blocked →
      (w'.sched.task t).state = .blocked ∧
        (w'.sched.task t).taskClass = (w.sched.task t).taskClass) : Asleep w' blocks := by
  constructor
  · intro c hc
    rw [cpuCount] at hc
    exact (h.holds c hc).congr (congrFun queue c) fun b _ => congrFun sleeper b
  · rw [cpuCount, sleeper]
    exact h.once
  · intro c hc b hb
    rw [cpuCount] at hc
    rw [sleeper]
    obtain ⟨hstate, hclass⟩ := h.blocked c hc b hb
    obtain ⟨hstate', hclass'⟩ := same _ (h.sleeping.mpr ⟨c, hc, b, hb, rfl⟩) hstate
    exact ⟨hstate', hclass' ▸ hclass⟩

theorem Asleep.kept {w w' : World} {blocks : Nat → List (BitVec 64)} (h : Asleep w blocks)
    (kept : Kept w w') : Asleep w' blocks :=
  h.congr kept.queue kept.sleeper kept.cpuCount fun t _ => kept.blocked t

/-- What the run queues are made of. -/
theorem Runnable.congr {w w' : World} {queue : Nat × TaskClass → List (BitVec 64)}
    (h : Runnable w queue) (sched : w'.sched = w.sched) (current : w'.current = w.current) :
    Runnable w' queue := by
  constructor
  · rw [sched]
    exact h.queues
  · rw [sched]
    exact h.ready
  · rw [sched, current]
    exact h.current

theorem queuedTask_iff {s : Sched} {queue : Nat × TaskClass → List (BitVec 64)}
    (h : Queues s queue) {t : BitVec 64} : QueuedTask s t ↔ t ∈ queued s queue := by
  rw [queued, List.mem_flatMap]
  constructor
  · rintro ⟨i, hi, hwalk⟩
    exact ⟨i, hi, (Chain.mem_iff (h.family i hi)).mpr hwalk⟩
  · rintro ⟨i, hi, ht⟩
    exact ⟨i, hi, (Chain.mem_iff (h.family i hi)).mp ht⟩

section Switch

variable {s s' : Sched} {w w' : World} {queue : Nat × TaskClass → List (BitVec 64)}
  {c fuel : Nat} {cls : TaskClass} {next : BitVec 64}

/-- What taking the first task off a queue leaves. -/
theorem dequeueOn_spec (h : Queues s queue) (hc : c < s.cpuCount) (valid : cls ≠ .invalid)
    (hrun : dequeueOn s c cls = some (next, s')) :
    (∃ queue', Queues s' queue' ∧ (queued s queue).Perm (next :: queued s' queue')) ∧
      s'.cpuCount = s.cpuCount ∧ ∀ t, (s'.task t).state = (s.task t).state ∧
        (s'.task t).taskClass = (s.task t).taskClass := by
  have hi : (c, cls) ∈ indices s.cpuCount := mem_indices.mpr ⟨hc, valid⟩
  obtain ⟨⟨popped, head, s1⟩, hpop, hout⟩ := Option.map_eq_some_iff.mp hrun
  obtain ⟨first, hfirst, hpopped⟩ := Option.map_eq_some_iff.mp hpop
  simp only [Prod.mk.injEq] at hpopped hout
  obtain ⟨rfl, rfl, rfl⟩ := hpopped
  obtain ⟨rfl, rfl⟩ := hout
  have hchain := h.family _ hi
  have hhead : s.headAt (c, cls) = some first := hfirst
  rw [hhead] at hchain
  obtain ⟨rest, hqueue, -⟩ := Chain.cons_of_some hchain
  have hfields := fun t => setNext_task s first t none
  refine ⟨⟨_, h.pop hi hqueue rfl ?_ ?_⟩, rfl, fun t => ⟨(hfields t).1, (hfields t).2.1⟩⟩
  · exact setNext_next s first none
  · exact headAt_setHead (s.setNext first none) c _ _ valid

/-- The current task, if it runs, goes back to a run queue. -/
theorem requeueOn_spec (h : Queues s queue) (hc : c < s.cpuCount) {current : Option (BitVec 64)}
    (fresh : ∀ t, current = some t → (s.task t).state = .running →
      (s.task t).taskClass ≠ .invalid ∧ t ∉ queued s queue)
    (hrun : requeueOn fuel s c current = some s') :
    (∃ queue', Queues s' queue' ∧ ∀ t ∈ queued s' queue', t ∈ queued s queue ∨
        (current = some t ∧ (s.task t).state = .running ∧ (s'.task t).state = .ready)) ∧
      s'.cpuCount = s.cpuCount ∧ (∀ t, (s'.task t).taskClass = (s.task t).taskClass) ∧
      ∀ t, (current = some t → (s.task t).state ≠ .running) →
        (s'.task t).state = (s.task t).state := by
  cases current with
  | none =>
    obtain rfl := Option.some.inj hrun
    exact ⟨⟨queue, h, fun t ht => Or.inl ht⟩, rfl, fun _ => rfl, fun _ _ => rfl⟩
  | some t =>
    rw [requeueOn] at hrun
    split_ifs at hrun with hstate
    · obtain ⟨hclass, hfresh⟩ := fresh t rfl hstate
      have hu := schedUnblockOn_unblocked hclass hrun
      obtain ⟨before, after, -, -, -, hqueues, hperm, -, -⟩ :=
        h.unblock hu (mem_indices.mpr ⟨hc, hclass⟩) hfresh
      refine ⟨⟨_, hqueues, fun u hmem => ?_⟩, hu.cpuCount, hu.taskClass, fun u hother => ?_⟩
      · rcases List.mem_cons.mp (hperm.mem_iff.mp hmem) with rfl | hold
        · exact Or.inr ⟨rfl, hstate, hu.ready⟩
        · exact Or.inl hold
      · have hne : u ≠ t := fun hsame => hother (hsame ▸ rfl) (hsame ▸ hstate)
        exact hu.others u hne
    · obtain rfl := Option.some.inj hrun
      exact ⟨⟨queue, h, fun u hmem => Or.inl hmem⟩, rfl, fun _ => rfl, fun _ _ => rfl⟩

theorem switchOn_spec (h : Runnable w queue) (hc : c < w.sched.cpuCount)
    (valid : cls ≠ .invalid) (hrun : switchOn fuel w c cls = some w') :
    (∃ queue', Runnable w' queue') ∧ Kept w w' := by
  simp only [switchOn, Option.bind_eq_bind, Option.pure_def, Option.bind_eq_some_iff] at hrun
  obtain ⟨⟨next, s1⟩, hdequeue, s2, hrequeue, hout⟩ := hrun
  obtain rfl := Option.some.inj hout
  obtain ⟨⟨queue1, hqueues1, hperm1⟩, hcount1, hfields1⟩ :=
    dequeueOn_spec h.queues hc valid hdequeue
  obtain ⟨hfresh1, -⟩ := List.nodup_cons.mp (hperm1.nodup_iff.mp h.queues.nodup)
  obtain ⟨hready, hclass⟩ := h.ready next (hperm1.mem_iff.mpr List.mem_cons_self)
  have hold : ∀ t ∈ queued s1 queue1, (s1.task t).state = .ready ∧
      (s1.task t).taskClass ≠ .invalid := by
    intro t ht
    rw [(hfields1 t).1, (hfields1 t).2]
    exact h.ready t (hperm1.mem_iff.mpr (List.mem_cons_of_mem _ ht))
  obtain ⟨⟨queue2, hqueues2, hmem2⟩, hcount2, hclass2, hstate2⟩ :=
    requeueOn_spec hqueues1 (hcount1 ▸ hc) (fun t hcurrent hrunning => by
      refine ⟨(hfields1 t).2 ▸ h.current c t hcurrent, fun hqueued => ?_⟩
      rw [(hold t hqueued).1] at hrunning
      exact absurd hrunning (by decide)) hrequeue
  have hnext : next ∉ queued s2 queue2 := by
    intro hmem
    rcases hmem2 next hmem with hin | ⟨-, hrunning, -⟩
    · exact hfresh1 hin
    · rw [(hfields1 next).1, hready] at hrunning
      exact absurd hrunning (by decide)
  have hclasses : ∀ t, ((s2.setState next .running).task t).taskClass =
      (w.sched.task t).taskClass := fun t =>
    (setState_task s2 next t .running).1.trans ((hclass2 t).trans (hfields1 t).2)
  have hstates : ∀ t, t ≠ next → (w.current c = some t → (w.sched.task t).state ≠ .running) →
      ((s2.setState next .running).task t).state = (w.sched.task t).state := by
    intro t hne hother
    rw [← (hfields1 t).1] at hother
    simp only [Sched.setState, Function.update_of_ne hne]
    exact (hstate2 t hother).trans (hfields1 t).1
  refine ⟨⟨queue2, ⟨?_, hqueues2.nodup⟩, fun t ht => ⟨?_, ?_⟩, fun c' t hcurrent => ?_⟩,
    rfl, rfl, hcount2.trans hcount1, fun t hblocked => ⟨?_, hclasses t⟩⟩
  · simp only [setState_next]
    exact hqueues2.family
  · have hne : t ≠ next := fun hsame => hnext (hsame ▸ ht)
    simp only [Sched.setState, Function.update_of_ne hne]
    rcases hmem2 t ht with hin | ⟨-, -, hrequeued⟩
    · have hwas := (hold t hin).1
      rw [hstate2 t (fun _ => by rw [hwas]; decide), hwas]
    · exact hrequeued
  · rw [hclasses]
    rcases hmem2 t ht with hin | ⟨hcurrent, -, -⟩
    · exact (hfields1 t).2 ▸ (hold t hin).2
    · exact h.current c t hcurrent
  · simp only at hcurrent ⊢
    rw [hclasses]
    by_cases hcc : c' = c
    · rw [hcc, Function.update_self] at hcurrent
      obtain rfl := Option.some.inj hcurrent
      exact hclass
    · rw [Function.update_of_ne hcc] at hcurrent
      exact h.current c' t hcurrent
  · have hne : t ≠ next := by
      rintro rfl
      rw [hready] at hblocked
      exact absurd hblocked (by decide)
    rw [hstates t hne (fun _ => by rw [hblocked]; decide), hblocked]

/-- `sched_schedule` keeps the run queues, the sleep queues and the blocked tasks. -/
theorem schedScheduleOn_spec (h : Runnable w queue) (hc : c < w.sched.cpuCount)
    (hrun : schedScheduleOn fuel w c = some w') : (∃ queue', Runnable w' queue') ∧ Kept w w' := by
  rw [schedScheduleOn] at hrun
  cases hcandidate : candidateQueue (w.sched.cpu c) with
  | none =>
    rw [hcandidate] at hrun
    obtain rfl := Option.some.inj hrun
    exact ⟨⟨queue, h⟩, Kept.refl w⟩
  | some cls =>
    have hvalid := candidateQueue_ne hcandidate
    rw [hcandidate] at hrun
    simp only at hrun
    cases hcurrent : w.current c with
    | none =>
      rw [hcurrent] at hrun
      exact switchOn_spec h hc hvalid hrun
    | some t =>
      simp only [hcurrent] at hrun
      have hused : Runnable { w with tsRemain := (decrementTimeslice (w.cpu c) t).tsRemain }
          queue := ⟨h.queues, h.ready, h.current⟩
      split_ifs at hrun
      · obtain rfl := Option.some.inj hrun
        exact ⟨⟨queue, hused⟩, rfl, rfl, rfl, fun _ hblocked => ⟨hblocked, rfl⟩⟩
      · obtain ⟨hrunnable, hkept⟩ := switchOn_spec hused hc hvalid hrun
        exact ⟨hrunnable, hkept.queue, hkept.sleeper, hkept.cpuCount, hkept.blocked⟩

end Switch

section Sleep

variable {w w' : World} {queue : Nat × TaskClass → List (BitVec 64)}
  {blocks : Nat → List (BitVec 64)} {c fuel : Nat} {t new nanos : BitVec 64}

theorem put_sched {q : State} (h : q.taskNext = w.sched.next) : (w.put c q).sched = w.sched := by
  have htask : (fun u => { w.sched.task u with next := q.taskNext u }) = w.sched.task := by
    rw [h]
    rfl
  simp only [World.put]
  rw [htask]

/-- The caller is blocked while it runs, so it is in no run queue. -/
theorem Runnable.block (h : Runnable w queue) (running : (w.sched.task t).state = .running) :
    Runnable (schedBlock w t) queue := by
  have hclass := fun u => (setState_task w.sched t u .blocked).1
  refine ⟨⟨?_, h.queues.nodup⟩, fun u hu => ⟨?_, ?_⟩, fun c u hcurrent => ?_⟩
  · simp only [schedBlock, setState_next]
    exact h.queues.family
  · have hne : u ≠ t := by
      rintro rfl
      rw [(h.ready u hu).1] at running
      exact absurd running (by decide)
    simp only [schedBlock, Sched.setState, Function.update_of_ne hne]
    exact (h.ready u hu).1
  · simp only [schedBlock, hclass]
    exact (h.ready u hu).2
  · simp only [schedBlock, hclass]
    exact h.current c u hcurrent

theorem Asleep.apart (h : Asleep w blocks) {c c' : Nat} (hc : c < w.sched.cpuCount)
    (hc' : c' < w.sched.cpuCount) (hne : c' ≠ c) {b : BitVec 64} (hb : b ∈ blocks c) :
    b ∉ blocks c' := by
  intro hb'
  exact hne (index_unique h.once.of_map (List.mem_range.mpr hc') (List.mem_range.mpr hc) hb' hb)

/-- The caller and its sleeper, before the scheduler looks for another task. -/
theorem Asleep.enqueue (h : Asleep w blocks) (hc : c < w.sched.cpuCount)
    (running : (w.sched.task t).state = .running) (valid : (w.sched.task t).taskClass ≠ .invalid)
    (nonnull : new ≠ 0) (off : ∀ c < w.sched.cpuCount, new ∉ blocks c) {deadline : BitVec 64}
    {ok : Bool} {q : State}
    (hrun : sleepQueueEnqueue fuel (w.view c) (some t) deadline (some new) = some (ok, q)) :
    ∃ before after, blocks c = before ++ after ∧
      Inserted (w.view c) new t deadline (blocks c) q ∧
      Asleep (schedBlock (w.put c q) t) (Function.update blocks c (before ++ new :: after)) := by
  obtain ⟨-, hinserted, before, after, hsplit, hholds⟩ :=
    sleepQueueEnqueue_spec (h.holds c hc) (off c hc) nonnull hrun
  refine ⟨before, after, hsplit, hinserted, ?_⟩
  have hsched : (w.put c q).sched = w.sched := put_sched hinserted.taskNext
  have hperm : ((List.range w.sched.cpuCount).flatMap
      (Function.update blocks c (before ++ new :: after))).Perm
        (new :: (List.range w.sched.cpuCount).flatMap blocks) := by
    apply flatMap_update_perm List.nodup_range (List.mem_range.mpr hc)
    rw [hsplit]
    exact List.perm_middle
  have hmember : ∀ c' < w.sched.cpuCount, ∀ b ∈ blocks c',
      b ≠ new ∧ (q.sleeper b).task = (w.sleeper b).task := by
    intro c' hc' b hb
    have hne : b ≠ new := fun hsame => off c' hc' (hsame ▸ hb)
    have htask := congrFun hinserted.task b
    rw [Function.update_of_ne hne] at htask
    exact ⟨hne, htask⟩
  have htask : (q.sleeper new).task = t := by
    have hself := congrFun hinserted.task new
    rwa [Function.update_self] at hself
  have hawake : ∀ c' < w.sched.cpuCount, ∀ b ∈ blocks c', (w.sleeper b).task ≠ t := by
    rintro c' hc' b hb rfl
    rw [(h.blocked c' hc' b hb).1] at running
    exact absurd running (by decide)
  constructor
  · intro c' hc'
    simp only [schedBlock, Sched.setState, hsched] at hc'
    by_cases hcc : c' = c
    · subst hcc
      rw [Function.update_self]
      exact hholds.congr (Function.update_self _ _ _) fun _ _ => rfl
    · rw [Function.update_of_ne hcc]
      refine (h.holds c' hc').congr (Function.update_of_ne hcc _ _) fun b hb => ?_
      apply hinserted.others
      rintro (_ | ⟨_, hbc⟩)
      · exact off c' hc' hb
      · exact h.apart hc' hc (Ne.symm hcc) hb hbc
  · have hcount : (schedBlock (w.put c q) t).sched.cpuCount = w.sched.cpuCount := by
      rw [schedBlock, hsched]
      rfl
    have hsleeper : (schedBlock (w.put c q) t).sleeper = q.sleeper := rfl
    rw [hcount, hsleeper, (hperm.map _).nodup_iff, List.map_cons, htask]
    have hsame : ((List.range w.sched.cpuCount).flatMap blocks).map (fun b => (q.sleeper b).task) =
        ((List.range w.sched.cpuCount).flatMap blocks).map fun b => (w.sleeper b).task := by
      apply List.map_congr_left
      intro b hb
      obtain ⟨c', hc', hb⟩ := List.mem_flatMap.mp hb
      exact (hmember c' (List.mem_range.mp hc') b hb).2
    rw [hsame]
    refine List.nodup_cons.mpr ⟨fun hmem => ?_, h.once⟩
    obtain ⟨b, hb, hbt⟩ := List.mem_map.mp hmem
    obtain ⟨c', hc', hb⟩ := List.mem_flatMap.mp hb
    exact hawake c' (List.mem_range.mp hc') b hb hbt
  · intro c' hc' b hb
    have hc'' : c' < w.sched.cpuCount := by
      simpa only [schedBlock, Sched.setState, hsched] using hc'
    simp only [schedBlock, hsched]
    have hnew : b = new ∨ b ∈ blocks c' := by
      by_cases hcc : c' = c
      · subst hcc
        rw [Function.update_self, List.mem_append, List.mem_cons] at hb
        rw [hsplit, List.mem_append]
        tauto
      · rw [Function.update_of_ne hcc] at hb
        exact Or.inr hb
    have hclass := fun u => (setState_task w.sched t u .blocked).1
    rcases hnew with rfl | hold
    · have hq : ((w.put c q).sleeper b).task = t := htask
      rw [hq, hclass]
      exact ⟨by simp [Sched.setState], valid⟩
    · have hq : ((w.put c q).sleeper b).task = (w.sleeper b).task := (hmember c' hc'' b hold).2
      obtain ⟨hblocked, hvalid⟩ := h.blocked c' hc'' b hold
      rw [hq, hclass]
      refine ⟨?_, hvalid⟩
      simp only [Sched.setState, Function.update_of_ne (hawake c' hc'' b hold)]
      exact hblocked

end Sleep

section Wake

variable {s s' : Sched} {queue : Nat × TaskClass → List (BitVec 64)} {first : Option (BitVec 64)}
  {ws : List (BitVec 64)} {fuel turns : Nat}

/-- The link of a task is read before it is pushed on a run queue, so the loop wakes all the tasks
of the list. -/
theorem wakeSleepers_woke (cpus : 0 < s.cpuCount) (h : Queues s queue)
    (chain : Chain s.next first ws) (valid : ∀ t ∈ ws, (s.task t).taskClass ≠ .invalid)
    (nodup : (queued s queue ++ ws).Nodup) (run : wakeSleepers fuel turns s first = some s') :
    ∃ queue', Woke s queue ws s' queue' := by
  induction ws generalizing s queue first turns with
  | nil =>
    obtain rfl : first = none := chain
    cases turns with
    | zero => exact absurd run (by simp [wakeSleepers])
    | succ turns =>
      obtain rfl := Option.some.inj run
      exact ⟨queue, Woke.nil h⟩
  | cons t ws ih =>
    obtain ⟨rfl, hrest⟩ := chain
    cases turns with
    | zero => exact absurd run (by simp [wakeSleepers])
    | succ turns =>
      obtain ⟨s1, hwake, hrun⟩ := Option.bind_eq_some_iff.mp run
      have hws : t ∉ ws := (List.nodup_cons.mp (List.nodup_append.mp nodup).2.1).1
      obtain ⟨c, before, after, htarget, hu, hsplit, -, -, hqueues, hperm, hnodup, -, hlinks⟩ :=
        wake_fresh cpus h (valid t List.mem_cons_self) nodup hwake
      have hchain : Chain s1.next (s.next t) ws := by
        refine Seg.congr hrest fun u hu => hlinks u ?_
        rintro (_ | ⟨_, hqueued⟩)
        · exact hws hu
        · exact (List.nodup_append.mp nodup).2.2 u hqueued u (List.mem_cons_of_mem _ hu) rfl
      obtain ⟨queue', hwoke⟩ := ih (hu.cpuCount ▸ cpus) hqueues hchain
        (fun u hmem => (hu.taskClass u).symm ▸ valid u (List.mem_cons_of_mem _ hmem)) hnodup hrun
      exact ⟨queue', hwoke.cons htarget hu hsplit hperm hlinks hws⟩

theorem wakeSleepers_isSome (cpus : 0 < s.cpuCount) (h : Queues s queue)
    (chain : Chain s.next first ws) (valid : ∀ t ∈ ws, (s.task t).taskClass ≠ .invalid)
    (nodup : (queued s queue ++ ws).Nodup) (enough : (queued s queue).length + ws.length ≤ fuel)
    (through : ws.length < turns) : (wakeSleepers fuel turns s first).isSome := by
  induction ws generalizing s queue first turns with
  | nil =>
    obtain rfl : first = none := chain
    obtain ⟨turns, rfl⟩ := Nat.exists_eq_add_one.mpr through
    rfl
  | cons t ws ih =>
    obtain ⟨rfl, hrest⟩ := chain
    obtain ⟨turns, rfl⟩ := Nat.exists_eq_add_one.mpr (Nat.zero_lt_of_lt through)
    rw [List.length_cons] at enough through
    have htvalid := valid t List.mem_cons_self
    have hws : t ∉ ws := (List.nodup_cons.mp (List.nodup_append.mp nodup).2.1).1
    obtain ⟨s1, hwake⟩ := Option.isSome_iff_exists.mp
      (wake_isSome cpus h htvalid (show (queued s queue).length ≤ fuel by omega))
    obtain ⟨c, before, after, -, hu, -, -, -, hqueues, hperm, hnodup, -, hlinks⟩ :=
      wake_fresh cpus h htvalid nodup hwake
    have hgrown := hperm.length_eq
    rw [List.length_cons] at hgrown
    have hchain : Chain s1.next (s.next t) ws := by
      refine Seg.congr hrest fun u hu => hlinks u ?_
      rintro (_ | ⟨_, hqueued⟩)
      · exact hws hu
      · exact (List.nodup_append.mp nodup).2.2 u hqueued u (List.mem_cons_of_mem _ hu) rfl
    rw [wakeSleepers, hwake, Option.bind_some]
    exact ih (hu.cpuCount ▸ cpus) hqueues hchain
      (fun u hmem => (hu.taskClass u).symm ▸ valid u (List.mem_cons_of_mem _ hmem)) hnodup
      (by omega) (by omega)

end Wake

section Check

variable {w w' : World} {queue : Nat × TaskClass → List (BitVec 64)}
  {blocks : Nat → List (BitVec 64)} {c fuel : Nat}

/-- The tasks that are due on a CPU. -/
def World.dueTasks (w : World) (c : Nat) (blocks : List (BitVec 64)) : List (BitVec 64) :=
  ((w.view c).due w.upticks blocks).map (w.view c).task

/-- The tasks of one CPU's sleepers are distinct, and none of them is in a run queue. -/
theorem Asleep.due (h : Asleep w blocks) (hrunnable : Runnable w queue)
    (hc : c < w.sched.cpuCount) :
    (queued w.sched queue ++ w.dueTasks c (blocks c)).Nodup ∧
      ∀ t ∈ w.dueTasks c (blocks c),
        (w.sched.task t).state = .blocked ∧ (w.sched.task t).taskClass ≠ .invalid := by
  have hsub : (w.dueTasks c (blocks c)).Sublist
      (((List.range w.sched.cpuCount).flatMap blocks).map fun b => (w.sleeper b).task) := by
    obtain ⟨before, after, hsplit⟩ := List.append_of_mem (List.mem_range.mpr hc)
    have hblocks : (blocks c).Sublist ((List.range w.sched.cpuCount).flatMap blocks) := by
      rw [hsplit, List.flatMap_append, List.flatMap_cons]
      exact (List.sublist_append_left _ _).trans (List.sublist_append_right _ _)
    exact (List.filter_sublist.trans hblocks).map _
  have hblocked : ∀ t ∈ w.dueTasks c (blocks c),
      (w.sched.task t).state = .blocked ∧ (w.sched.task t).taskClass ≠ .invalid := by
    intro t ht
    obtain ⟨b, hb, rfl⟩ := List.mem_map.mp ht
    exact h.blocked c hc b (List.mem_filter.mp hb).1
  refine ⟨List.nodup_append.mpr ⟨hrunnable.queues.nodup, h.once.sublist hsub, ?_⟩, hblocked⟩
  rintro u hu t ht rfl
  have hstate := (hblocked u ht).1
  rw [(hrunnable.ready u hu).1] at hstate
  exact absurd hstate (by decide)

/-- The sleepers left when those of one CPU that are due have gone. -/
def World.left (w : World) (c : Nat) (blocks : Nat → List (BitVec 64)) :
    Nat → List (BitVec 64) :=
  Function.update blocks c ((w.view c).later w.upticks (blocks c))

theorem left_sublist (w : World) (c : Nat) (blocks : Nat → List (BitVec 64)) (c' : Nat) :
    (w.left c blocks c').Sublist (blocks c') := by
  by_cases hcc : c' = c
  · subst hcc
    rw [World.left, Function.update_self]
    exact List.filter_sublist
  · rw [World.left, Function.update_of_ne hcc]

/-- A sleeper that is left does not share its task with one that is due. -/
theorem Asleep.not_due (h : Asleep w blocks) (hc : c < w.sched.cpuCount) {c' : Nat}
    (hc' : c' < w.sched.cpuCount) {b : BitVec 64} (hb : b ∈ w.left c blocks c') :
    (w.sleeper b).task ∉ w.dueTasks c (blocks c) := by
  intro hmem
  obtain ⟨b', hb', htask⟩ := List.mem_map.mp hmem
  have hdue := List.mem_filter.mp hb'
  have hbc := (left_sublist w c blocks c').subset hb
  obtain rfl : b' = b := List.inj_on_of_nodup_map h.once
    (List.mem_flatMap.mpr ⟨c, List.mem_range.mpr hc, hdue.1⟩)
    (List.mem_flatMap.mpr ⟨c', List.mem_range.mpr hc', hbc⟩) htask
  by_cases hcc : c' = c
  · subst hcc
    rw [World.left, Function.update_self] at hb
    exact BitVec.not_lt.mpr (wakeAt_due hb') (wakeAt_later hb)
  · exact h.apart hc hc' hcc hdue.1 hbc

/-- What `check_sleepers` leaves on its CPU. -/
structure Checked (w : World) (c : Nat) (blocks : Nat → List (BitVec 64)) (w' : World) :
    Prop where
  runnable : ∃ queue', Runnable w' queue'
  asleep : Asleep w' (w.left c blocks)
  cpuCount : w'.sched.cpuCount = w.sched.cpuCount
  sleeper : w'.sleeper = w.sleeper
  woken : ∀ t ∈ w.dueTasks c (blocks c), (w'.sched.task t).state = .ready ∧ QueuedTask w'.sched t

/-- Taking out the sleepers changes no more of the run queues than links of tasks that are in
none. -/
theorem Queues.put (h : Queues w.sched queue) {q : State}
    (same : ∀ t ∈ queued w.sched queue, q.taskNext t = w.sched.next t) :
    Queues (w.put c q).sched queue := by
  refine ⟨fun i hi => ?_, h.nodup⟩
  exact Seg.congr (h.family i hi) fun t ht => same t (List.mem_flatMap.mpr ⟨i, hi, ht⟩)

/-- The tasks whose time has come are in no run queue. -/
theorem Asleep.dequeued_queues (hasleep : Asleep w blocks) (hrunnable : Runnable w queue)
    (hc : c < w.sched.cpuCount) {first : Option (BitVec 64)} {q : State}
    (hdequeue : sleepQueueDequeue fuel (w.view c) w.upticks = some (first, q)) :
    Queues (w.put c q).sched queue := by
  have hout := sleepQueueDequeue_spec (hasleep.holds c hc) hdequeue
  have hapart := List.nodup_append.mp (hasleep.due hrunnable hc).1
  exact Queues.put hrunnable.queues fun t ht =>
    hout.others t fun hmem => hapart.2.2 t ht t hmem rfl

theorem checkSleepers_spec (cpus : 0 < w.sched.cpuCount) (hrunnable : Runnable w queue)
    (hasleep : Asleep w blocks) (hc : c < w.sched.cpuCount)
    (hrun : checkSleepers fuel w c = some w') : Checked w c blocks w' := by
  rw [checkSleepers] at hrun
  cases hdequeue : sleepQueueDequeue fuel (w.view c) w.upticks with
  | none => simp [hdequeue] at hrun
  | some result =>
    obtain ⟨first, q⟩ := result
    rw [hdequeue] at hrun
    obtain ⟨s', hwake, rfl⟩ := Option.map_eq_some_iff.mp hrun
    have hout := sleepQueueDequeue_spec (hasleep.holds c hc) hdequeue
    obtain ⟨hnodup, hdue⟩ := hasleep.due hrunnable hc
    have hapart := List.nodup_append.mp hnodup
    have hqueues := hasleep.dequeued_queues hrunnable hc hdequeue
    have hcpus : 0 < (w.put c q).sched.cpuCount := cpus
    obtain ⟨queue', hwoke⟩ := wakeSleepers_woke hcpus hqueues (hout.tasks hapart.2.1)
      (fun t ht => (hdue t ht).2) hnodup hwake
    have hclass : ∀ t, (s'.task t).taskClass = (w.sched.task t).taskClass := hwoke.taskClass
    have hstate : ∀ t ∉ w.dueTasks c (blocks c), (s'.task t).state = (w.sched.task t).state :=
      hwoke.state
    have hready : ∀ t ∈ queued s' queue', (s'.task t).state = .ready ∧
        (s'.task t).taskClass ≠ .invalid := by
      intro t ht
      rw [hclass]
      rcases List.mem_append.mp (hwoke.perm.mem_iff.mp ht) with hnew | hold
      · exact ⟨hwoke.ready t hnew, (hdue t hnew).2⟩
      · obtain ⟨hwas, hvalid⟩ := hrunnable.ready t hold
        rw [hstate t fun hmem => hapart.2.2 t hold t hmem rfl]
        exact ⟨hwas, hvalid⟩
    have hcount : s'.cpuCount = w.sched.cpuCount := hwoke.cpuCount
    have hsleeper : q.sleeper = w.sleeper := hout.sleeper
    refine ⟨⟨queue', hwoke.queues, hready, fun c' t hcurrent => ?_⟩, ⟨?_, ?_, ?_⟩, hcount, hsleeper,
      fun t ht => ⟨hwoke.ready t ht, ?_⟩⟩
    · rw [hclass]
      exact hrunnable.current c' t hcurrent
    · intro c' hc'
      rw [hcount] at hc'
      by_cases hcc : c' = c
      · subst hcc
        rw [World.left, Function.update_self]
        exact hout.holds.congr (Function.update_self _ _ _) fun _ _ => rfl
      · rw [World.left, Function.update_of_ne hcc]
        exact (hasleep.holds c' hc').congr (Function.update_of_ne hcc _ _)
          fun b _ => congrFun hsleeper b
    · have hsub : ((List.range s'.cpuCount).flatMap (w.left c blocks)).Sublist
          ((List.range w.sched.cpuCount).flatMap blocks) := by
        rw [hcount]
        exact List.Sublist.flatMap_right _ fun c' _ => left_sublist w c blocks c'
      have hq : (World.sleeper { w.put c q with sched := s' }) = w.sleeper := hsleeper
      rw [hq]
      exact hasleep.once.sublist (hsub.map _)
    · intro c' hc' b hb
      rw [hcount] at hc'
      have hq : ((w.put c q).sleeper b).task = (w.sleeper b).task :=
        congrArg Sleeper.task (congrFun hsleeper b)
      have hbc : b ∈ blocks c' := (left_sublist w c blocks c').subset hb
      obtain ⟨hblocked, hvalid⟩ := hasleep.blocked c' hc' b hbc
      simp only [hq]
      rw [hclass, hstate _ (hasleep.not_due hc hc' hb)]
      exact ⟨hblocked, hvalid⟩
    · apply (queuedTask_iff hwoke.queues).mpr
      exact hwoke.perm.mem_iff.mpr (List.mem_append_left _ ht)

/-- With as much fuel as there are sleepers and tasks queued the check returns. -/
theorem checkSleepers_isSome (cpus : 0 < w.sched.cpuCount) (hrunnable : Runnable w queue)
    (hasleep : Asleep w blocks) (hc : c < w.sched.cpuCount)
    (through : (blocks c).length < fuel)
    (enough : (queued w.sched queue).length + (blocks c).length ≤ fuel) :
    (checkSleepers fuel w c).isSome := by
  obtain ⟨⟨first, q⟩, hdequeue⟩ := Option.isSome_iff_exists.mp
    (@sleepQueueDequeue_isSome (w.view c) (blocks c) w.upticks fuel (hasleep.holds c hc) through)
  have hout := sleepQueueDequeue_spec (hasleep.holds c hc) hdequeue
  obtain ⟨hnodup, hdue⟩ := hasleep.due hrunnable hc
  have hapart := List.nodup_append.mp hnodup
  have hqueues := hasleep.dequeued_queues hrunnable hc hdequeue
  have hfew : (w.dueTasks c (blocks c)).length ≤ (blocks c).length := by
    rw [World.dueTasks, List.length_map]
    exact List.length_filter_le _ _
  have hcpus : 0 < (w.put c q).sched.cpuCount := cpus
  have hwoken := @wakeSleepers_isSome (w.put c q).sched queue first (w.dueTasks c (blocks c))
    fuel fuel hcpus hqueues (hout.tasks hapart.2.1) (fun t ht => (hdue t ht).2) hnodup
    (show (queued w.sched queue).length + _ ≤ fuel by omega) (by omega)
  rw [checkSleepers, hdequeue]
  simpa only [Option.isSome_map] using hwoken

end Check

/-! ## Every run -/

/-- The books of the machine between two calls. -/
structure Settled (w : World) (queue : Nat × TaskClass → List (BitVec 64))
    (blocks : Nat → List (BitVec 64)) : Prop where
  cpus : 0 < w.sched.cpuCount
  runnable : Runnable w queue
  asleep : Asleep w blocks
  recorded : Recorded w blocks

def Inv (w : World) : Prop := ∃ queue blocks, Settled w queue blocks

section Step

variable {w w' : World} {queue : Nat × TaskClass → List (BitVec 64)}
  {blocks : Nat → List (BitVec 64)} {c fuel : Nat} {t : BitVec 64}

theorem Booted.inv (h : Booted w) : Inv w := by
  obtain ⟨queue, hqueues, hready⟩ := h.runnable
  refine ⟨queue, fun _ => [], h.cpus, ⟨hqueues, hready, h.current⟩, ⟨?_, ?_, ?_⟩, ?_⟩
  · intro c _
    have hqueue : (w.view c).queue = ⟨none, none, 0⟩ := (h.awake c).1
    refine ⟨?_, List.not_mem_nil, List.Pairwise.nil, ?_, ?_⟩
    · rw [hqueue]
      rfl
    · rw [hqueue]
      rfl
    · rw [hqueue]
      rfl
  · have hnone : (List.range w.sched.cpuCount).flatMap (fun _ => ([] : List (BitVec 64))) = [] :=
      List.flatMap_eq_nil_iff.mpr fun _ _ => rfl
    rw [hnone]
    exact List.nodup_nil
  · intro c _ b hb
    exact absurd hb List.not_mem_nil
  · intro c _ t deadline ht
    rw [(h.awake c).2] at ht
    exact absurd ht List.not_mem_nil

/-- The calls that put no task to sleep and look for no sleeper. -/
theorem Settled.kept (h : Settled w queue blocks) (runnable : ∃ queue', Runnable w' queue')
    (asleep : Asleep w' blocks) (cpuCount : w'.sched.cpuCount = w.sched.cpuCount)
    (sleeper : w'.sleeper = w.sleeper) : Inv (w'.record w.asleep) := by
  obtain ⟨queue', hrunnable⟩ := runnable
  refine ⟨queue', blocks, ?_, hrunnable.congr rfl rfl, asleep.congr rfl rfl rfl ?_, ?_⟩
  · exact cpuCount ▸ h.cpus
  · exact fun _ _ hblocked => ⟨hblocked, rfl⟩
  · intro c hc t deadline ht
    have hc' : c < w.sched.cpuCount := cpuCount ▸ hc
    have hsleeper : (w'.record w.asleep).sleeper = w.sleeper := sleeper
    rw [hsleeper]
    exact h.recorded c hc' t deadline ht

/-- A task that runs is no sleeper's. -/
theorem Asleep.running (h : Asleep w blocks) (running : (w.sched.task t).state = .running) :
    ¬ SleepingTask w t := by
  intro hsleeping
  obtain ⟨c, hc, b, hb, rfl⟩ := h.sleeping.mp hsleeping
  rw [(h.blocked c hc b hb).1] at running
  exact absurd running (by decide)

/-- `sched_block` on the task that runs. -/
theorem kept_block (w : World) (t : BitVec 64) : Kept w (schedBlock w t) := by
  refine ⟨rfl, rfl, rfl, fun u hblocked => ⟨?_, (setState_task w.sched t u .blocked).1⟩⟩
  by_cases hu : u = t
  · simp [schedBlock, Sched.setState, hu]
  · simp only [schedBlock, Sched.setState, Function.update_of_ne hu]
    exact hblocked

theorem Kept.trans {w₁ w₂ w₃ : World} (h : Kept w₁ w₂) (h' : Kept w₂ w₃) : Kept w₁ w₃ := by
  refine ⟨h'.queue.trans h.queue, h'.sleeper.trans h.sleeper, h'.cpuCount.trans h.cpuCount, ?_⟩
  intro t hblocked
  obtain ⟨hmid, hclass⟩ := h.blocked t hblocked
  obtain ⟨hlast, hclass'⟩ := h'.blocked t hmid
  exact ⟨hlast, hclass'.trans hclass⟩

theorem put_view (w : World) (c : Nat) : w.put c (w.view c) = w := by
  have hqueue : Function.update w.queue c (w.view c).queue = w.queue := Function.update_eq_self _ _
  simp only [World.put]
  rw [hqueue]
  rfl

/-- `sleep_task` with a block for the sleeper. -/
theorem sleepTask_granted (h : Settled w queue blocks) (hc : c < w.sched.cpuCount)
    (hcurrent : w.current c = some t) (running : (w.sched.task t).state = .running)
    {new nanos : BitVec 64} (nonnull : new ≠ 0) (off : ∀ c < w.sched.cpuCount, new ∉ blocks c)
    (hrun : sleepTask fuel w c (some t) nanos (some new) = some w') :
    ∃ queue' before after q, blocks c = before ++ after ∧
      Inserted (w.view c) new t (w.upticks + nanos / nanosPerTick) (blocks c) q ∧
      Runnable w' queue' ∧ Asleep w' (Function.update blocks c (before ++ new :: after)) ∧
      w'.sched.cpuCount = w.sched.cpuCount ∧ w'.sleeper = q.sleeper ∧
      (w'.sched.task t).state = .blocked := by
  rw [sleepTask] at hrun
  cases henqueue : sleepQueueEnqueue fuel (w.view c) (some t)
      (w.upticks + nanos / nanosPerTick) (some new) with
  | none => simp [henqueue] at hrun
  | some result =>
    obtain ⟨ok, q⟩ := result
    simp only [henqueue] at hrun
    obtain ⟨before, after, hsplit, hinserted, hasleep⟩ :=
      h.asleep.enqueue hc running (h.runnable.current c t hcurrent) nonnull off henqueue
    have hsched : (w.put c q).sched = w.sched := put_sched hinserted.taskNext
    have hrunnable : Runnable (schedBlock (w.put c q) t) queue := by
      apply Runnable.block (h.runnable.congr hsched rfl)
      rw [hsched]
      exact running
    have hblocked : ((schedBlock (w.put c q) t).sched.task t).state = .blocked := by
      simp [schedBlock, Sched.setState]
    obtain ⟨⟨queue', hrunnable'⟩, hkept⟩ := schedScheduleOn_spec hrunnable hc hrun
    exact ⟨queue', before, after, q, hsplit, hinserted, hrunnable', hasleep.kept hkept,
      hkept.cpuCount, hkept.sleeper, (hkept.blocked t hblocked).1⟩

/-- Without a block the caller is blocked all the same. -/
theorem sleepTask_refused (h : Settled w queue blocks) (hc : c < w.sched.cpuCount)
    (running : (w.sched.task t).state = .running) {nanos : BitVec 64}
    (hrun : sleepTask fuel w c (some t) nanos none = some w') :
    (∃ queue', Runnable w' queue') ∧ Kept w w' ∧ (w'.sched.task t).state = .blocked := by
  simp only [sleepTask, sleepQueueEnqueue, put_view] at hrun
  obtain ⟨hrunnable, hkept⟩ := schedScheduleOn_spec (h.runnable.block running) hc hrun
  have hblocked : ((schedBlock w t).sched.task t).state = .blocked := by
    simp [schedBlock, Sched.setState]
  exact ⟨hrunnable, (kept_block w t).trans hkept, (hkept.blocked t hblocked).1⟩

/-- The caller of `sleep_task` gets the new sleeper, the other sleepers keep their tasks and
their times. -/
theorem Settled.sleep (h : Settled w queue blocks) {nanos : BitVec 64}
    {slab : Option (BitVec 64)} (valid : Valid w (.sleep c nanos slab)) (granted : slab ≠ none)
    (hrun : exec fuel w (.sleep c nanos slab) = some w') :
    Inv w' ∧ w'.sched.cpuCount = w.sched.cpuCount := by
  obtain ⟨⟨hc, t, hcurrent, hrunning⟩, hfree⟩ := valid
  obtain ⟨new, rfl⟩ := Option.ne_none_iff_exists'.mp granted
  obtain ⟨hnonnull, hoff⟩ := hfree new rfl
  have hnot : ∀ c < w.sched.cpuCount, new ∉ blocks c := fun c hc hb =>
    hoff c hc ((onQueue_iff (h.asleep.holds c hc).chain).mpr hb)
  obtain ⟨w1, hsleep, rfl⟩ := Option.map_eq_some_iff.mp hrun
  simp only [run, hcurrent] at hsleep
  obtain ⟨queue', before, after, q, hsplit, hinserted, hrunnable, hasleep, hcount, hsleeper, -⟩ :=
    sleepTask_granted h hc hcurrent hrunning hnonnull hnot hsleep
  refine ⟨⟨queue', _, ?_, hrunnable.congr rfl rfl, hasleep.congr rfl rfl rfl ?_, ?_⟩, hcount⟩
  · exact hcount ▸ h.cpus
  · exact fun _ _ hblocked => ⟨hblocked, rfl⟩
  · intro c' hc' u deadline hu
    have hc'' : c' < w.sched.cpuCount := hcount ▸ hc'
    have hq : (w1.record (asleepAfter w (.sleep c nanos (some new)))).sleeper = q.sleeper :=
      hsleeper
    rw [hq]
    have hold : ∀ b ∈ blocks c', (q.sleeper b).task = (w.sleeper b).task ∧
        (q.sleeper b).wakeAt = (w.sleeper b).wakeAt := by
      intro b hb
      have hne : b ≠ new := ne_of_mem_of_not_mem hb (hnot c' hc'')
      have htask := congrFun hinserted.task b
      have hwakeAt := congrFun hinserted.wakeAt b
      rw [Function.update_of_ne hne] at htask hwakeAt
      exact ⟨htask, hwakeAt⟩
    have hkeep : (u, deadline) ∈ w.asleep c' → ∃ b ∈ blocks c',
        (q.sleeper b).task = u ∧ (q.sleeper b).wakeAt = deadline := by
      intro hmem
      obtain ⟨b, hb, htask, hwakeAt⟩ := h.recorded c' hc'' u deadline hmem
      exact ⟨b, hb, (hold b hb).1.trans htask, (hold b hb).2.trans hwakeAt⟩
    simp only [World.record, asleepAfter] at hu
    by_cases hcc : c' = c
    · subst hcc
      rw [Function.update_self, hcurrent, List.mem_append] at hu
      rw [Function.update_self]
      rcases hu with hnew | hmem
      · obtain ⟨rfl, rfl⟩ := Prod.mk.inj (List.mem_singleton.mp hnew)
        refine ⟨new, List.mem_append_right _ List.mem_cons_self, ?_, ?_⟩
        · exact (congrFun hinserted.task new).trans (Function.update_self _ _ _)
        · exact (congrFun hinserted.wakeAt new).trans (Function.update_self _ _ _)
      · obtain ⟨b, hb, hfields⟩ := hkeep hmem
        refine ⟨b, ?_, hfields⟩
        rw [hsplit] at hb
        exact List.perm_middle.mem_iff.mpr (List.mem_cons_of_mem _ hb)
    · rw [Function.update_of_ne hcc] at hu ⊢
      exact hkeep hu

/-- The sleepers a check leaves are those whose time has not come. -/
theorem Settled.check (h : Settled w queue blocks) (hc : c < w.sched.cpuCount)
    (hrun : exec fuel w (.check c) = some w') : Inv w' := by
  obtain ⟨w1, hcheck, rfl⟩ := Option.map_eq_some_iff.mp hrun
  have hchecked := checkSleepers_spec h.cpus h.runnable h.asleep hc hcheck
  obtain ⟨queue', hrunnable⟩ := hchecked.runnable
  refine ⟨queue', w.left c blocks, ?_, hrunnable.congr rfl rfl,
    hchecked.asleep.congr rfl rfl rfl ?_, ?_⟩
  · exact hchecked.cpuCount ▸ h.cpus
  · exact fun _ _ hblocked => ⟨hblocked, rfl⟩
  · intro c' hc' t deadline ht
    have hc'' : c' < w.sched.cpuCount := hchecked.cpuCount ▸ hc'
    have hsleeper : (w1.record (asleepAfter w (.check c))).sleeper = w.sleeper := hchecked.sleeper
    rw [hsleeper]
    simp only [World.record, asleepAfter] at ht
    by_cases hcc : c' = c
    · subst hcc
      rw [Function.update_self] at ht
      obtain ⟨hmem, hlate⟩ := List.mem_filter.mp ht
      obtain ⟨b, hb, htask, hwakeAt⟩ := h.recorded c' hc'' t deadline hmem
      refine ⟨b, ?_, htask, hwakeAt⟩
      rw [World.left, Function.update_self]
      refine List.mem_filter.mpr ⟨hb, ?_⟩
      rw [State.wakeAt, World.view, hwakeAt]
      exact hlate
    · rw [Function.update_of_ne hcc] at ht
      rw [World.left, Function.update_of_ne hcc]
      exact h.recorded c' hc'' t deadline ht

/-- Tasks that are nowhere may be unblocked. -/
theorem Settled.unblock (h : Settled w queue blocks) (valid : Valid w (.unblock t c))
    (hrun : exec fuel w (.unblock t c) = some w') : Inv w' := by
  obtain ⟨hc, ⟨hoff, hawake, -⟩, hclass⟩ := valid
  obtain ⟨w1, hunblock, rfl⟩ := Option.map_eq_some_iff.mp hrun
  obtain ⟨s', hs', rfl⟩ := Option.map_eq_some_iff.mp hunblock
  have hfresh : t ∉ queued w.sched queue := fun ht =>
    hoff ((queuedTask_iff h.runnable.queues).mpr ht)
  have hu := schedUnblockOn_unblocked hclass hs'
  obtain ⟨before, after, -, -, -, hqueues, hperm, -, -⟩ :=
    h.runnable.queues.unblock hu (mem_indices.mpr ⟨hc, hclass⟩) hfresh
  refine h.kept ⟨_, hqueues, fun u hmem => ?_, fun c' u hcurrent => ?_⟩ ?_ hu.cpuCount rfl
  · simp only [hu.taskClass]
    rcases List.mem_cons.mp (hperm.mem_iff.mp hmem) with rfl | hold
    · exact ⟨hu.ready, hclass⟩
    · rw [hu.others u fun hsame => hfresh (hsame ▸ hold)]
      exact h.runnable.ready u hold
  · simp only [hu.taskClass]
    exact h.runnable.current c' u hcurrent
  · refine h.asleep.congr rfl rfl hu.cpuCount fun u hsleeping hblocked => ?_
    have hne : u ≠ t := fun hsame => hawake (hsame ▸ hsleeping)
    exact ⟨(hu.others u hne).trans hblocked, hu.taskClass u⟩

/-- The record of a task that is nowhere may be written. -/
theorem Settled.write (h : Settled w queue blocks) (nowhere : Nowhere w t) {task : Task}
    (hrun : exec fuel w (.write t task) = some w') : Inv w' := by
  obtain ⟨hoff, hawake, hidle⟩ := nowhere
  obtain rfl := Option.some.inj hrun
  have hfresh : ∀ u ∈ queued w.sched queue, u ≠ t := by
    rintro u hmem rfl
    exact hoff ((queuedTask_iff h.runnable.queues).mpr hmem)
  refine h.kept ⟨queue, ⟨fun i hi => ?_, h.runnable.queues.nodup⟩, fun u hmem => ?_,
    fun c' u hcurrent => ?_⟩ ?_ rfl rfl
  · refine Seg.congr (h.runnable.queues.family i hi) fun u hmem => ?_
    have hne := hfresh u (List.mem_flatMap.mpr ⟨i, hi, hmem⟩)
    simp [Sched.next, hne]
  · simp only [Function.update_of_ne (hfresh u hmem)]
    exact h.runnable.ready u hmem
  · have hne : u ≠ t := fun hsame => hidle c' (hsame ▸ hcurrent)
    simp only [Function.update_of_ne hne]
    exact h.runnable.current c' u hcurrent
  · refine h.asleep.congr rfl rfl rfl fun u hsleeping hblocked => ?_
    have hne : u ≠ t := fun hsame => hawake (hsame ▸ hsleeping)
    simp only [Function.update_of_ne hne]
    exact ⟨hblocked, trivial⟩

theorem Inv.step {call : Call} (inv : Inv w) (valid : Valid w call) (granted : Granted w call)
    (hrun : exec fuel w call = some w') : Inv w' := by
  obtain ⟨queue, blocks, h⟩ := inv
  cases call with
  | sleep c nanos slab => exact (h.sleep valid granted hrun).1
  | tick =>
    obtain rfl := Option.some.inj hrun
    exact h.kept ⟨queue, h.runnable.congr rfl rfl⟩
      (h.asleep.congr rfl rfl rfl fun _ _ hblocked => ⟨hblocked, rfl⟩) rfl rfl
  | check c => exact h.check valid hrun
  | schedule c =>
    obtain ⟨w1, hschedule, rfl⟩ := Option.map_eq_some_iff.mp hrun
    obtain ⟨hrunnable, hkept⟩ := schedScheduleOn_spec h.runnable valid hschedule
    exact h.kept hrunnable (h.asleep.kept hkept) hkept.cpuCount hkept.sleeper
  | block c =>
    obtain ⟨hc, t, hcurrent, hrunning⟩ := valid
    simp only [exec, run, hcurrent] at hrun
    obtain rfl := Option.some.inj hrun
    exact h.kept ⟨queue, h.runnable.block hrunning⟩ (h.asleep.kept (kept_block w t)) rfl rfl
  | unblock t c => exact h.unblock valid hrun
  | write t task => exact h.write valid hrun

theorem reachable_inv (h : Reachable (sleep.restrict Granted) w) : Inv w := by
  refine h.invariant Inv (fun _ => Booted.inv) ?_
  rintro w call w' inv ⟨hgranted, hvalid, fuel, hrun⟩
  exact inv.step hvalid hgranted hrun

end Step

/-! ## Waking up again -/

/-- A sleeper on the CPU's queue has the task and the ticks to wake it at. -/
def SleepsOn (w : World) (c : Nat) (t deadline : BitVec 64) : Prop :=
  ∃ b, OnQueue (w.view c) b ∧ (w.sleeper b).task = t ∧ (w.sleeper b).wakeAt = deadline

/-- The task is blocked, its CPU knows of it, and a check of the CPU wakes it once its time has
come. -/
structure WillWake (w : World) (c : Nat) (t deadline : BitVec 64) : Prop where
  blocked : (w.sched.task t).state = .blocked
  sleeps : SleepsOn w c t deadline
  returns : ∃ fuel, (checkSleepers fuel w c).isSome
  woken : deadline ≤ w.upticks → ∀ fuel w', checkSleepers fuel w c = some w' →
    (w'.sched.task t).state = .ready ∧ QueuedTask w'.sched t

section Wakes

variable {w w' : World} {c fuel : Nat} {t deadline nanos : BitVec 64}
  {slab : Option (BitVec 64)}

theorem Inv.willWake (inv : Inv w) (hc : c < w.sched.cpuCount)
    (asleep : (t, deadline) ∈ w.asleep c) : WillWake w c t deadline := by
  obtain ⟨queue, blocks, h⟩ := inv
  obtain ⟨b, hb, rfl, rfl⟩ := h.recorded c hc t deadline asleep
  refine ⟨(h.asleep.blocked c hc b hb).1, ⟨b, ?_, rfl, rfl⟩, ?_, fun hdue fuel w' hcheck => ?_⟩
  · exact (onQueue_iff (h.asleep.holds c hc).chain).mpr hb
  · exact ⟨(queued w.sched queue).length + (blocks c).length + 1,
      checkSleepers_isSome h.cpus h.runnable h.asleep hc (by omega) (by omega)⟩
  · have hchecked := checkSleepers_spec h.cpus h.runnable h.asleep hc hcheck
    apply hchecked.woken
    refine List.mem_map.mpr ⟨b, List.mem_filter.mpr ⟨hb, ?_⟩, rfl⟩
    exact decide_eq_true hdue

/-- The caller that got no block is blocked, and no sleeper has it. -/
theorem Inv.not_sleepsOn (inv : Inv w) (valid : Valid w (.sleep c nanos none))
    (hcurrent : w.current c = some t) (hrun : exec fuel w (.sleep c nanos none) = some w') :
    ¬ SleepsOn w' c t deadline := by
  obtain ⟨queue, blocks, h⟩ := inv
  obtain ⟨⟨hc, u, hu, hrunning⟩, -⟩ := valid
  obtain rfl := Option.some.inj (hcurrent.symm.trans hu)
  obtain ⟨w1, hsleep, rfl⟩ := Option.map_eq_some_iff.mp hrun
  simp only [run, hcurrent] at hsleep
  obtain ⟨-, hkept, -⟩ := sleepTask_refused h hc hrunning hsleep
  rintro ⟨b, ⟨walked, hwalk⟩, htask, -⟩
  have hhead : (w1.view c).queue = (w.view c).queue := congrFun hkept.queue c
  have hnext : (w1.view c).next = (w.view c).next :=
    funext fun b => congrArg Sleeper.next (congrFun hkept.sleeper b)
  have hwalk1 : Seg (w1.view c).next (w1.view c).queue.head walked (some b) := hwalk
  rw [hhead, hnext] at hwalk1
  apply h.asleep.running hrunning
  refine ⟨c, hc, b, ⟨walked, hwalk1⟩, ?_⟩
  rw [← hkept.sleeper]
  exact htask

/-- As long as the blocks for the sleepers are granted every task put to sleep is woken, and a call
that gets no block is one whose caller is not. -/
theorem sleepers_are_woken (h : Reachable (sleep.restrict Granted) w) :
    (∀ c < w.sched.cpuCount, ∀ t deadline, (t, deadline) ∈ w.asleep c →
      WillWake w c t deadline) ∧
    ∀ fuel c nanos slab w' t, Valid w (.sleep c nanos slab) → w.current c = some t →
      exec fuel w (.sleep c nanos slab) = some w' →
        (WillWake w' c t (w.upticks + nanos / nanosPerTick) ↔ slab ≠ none) := by
  have inv := reachable_inv h
  refine ⟨fun c hc t deadline => inv.willWake hc, ?_⟩
  intro fuel c nanos slab w' t hvalid hcurrent hrun
  constructor
  · rintro hwakes rfl
    exact inv.not_sleepsOn hvalid hcurrent hrun hwakes.sleeps
  · intro hgranted
    obtain ⟨queue, blocks, hsettled⟩ := inv
    obtain ⟨inv', hcount⟩ := hsettled.sleep hvalid hgranted hrun
    have hc : c < w'.sched.cpuCount := hcount ▸ hvalid.1.1
    apply inv'.willWake hc
    obtain ⟨w1, hsleep, rfl⟩ := Option.map_eq_some_iff.mp hrun
    simp [World.record, asleepAfter, hcurrent]

end Wakes

/-! ### One CPU with a task that sleeps -/

def sleepyTask : BitVec 64 := 0x2000

/-- A task runs, and the idle thread is queued. -/
def sleepyWorld : World where
  sched := (idleMachine (fun _ => none) ⟨[], none⟩).sched.setState sleepyTask .running
  tsRemain := fun _ => defaultTimeslice
  statusFlags := fun _ => 0
  current := fun _ => some sleepyTask
  queue := fun _ => ⟨none, none, 0⟩
  sleeper := fun _ => ⟨none, 0, 0⟩
  upticks := 0
  asleep := fun _ => []

theorem sleepyWorld_booted : Booted sleepyWorld := by
  have hwf : WellFormed (idleMachine (fun _ => none) ⟨[], none⟩) ⟨[], none⟩ idleQueue [] :=
    idleMachine_wellFormed rfl (by decide)
  have hqueued : queued sleepyWorld.sched idleQueue = [0x1000] := rfl
  refine ⟨Nat.one_pos, fun _ => ⟨rfl, rfl⟩, fun c t ht => ?_, idleQueue, ⟨?_, ?_⟩, ?_⟩
  · obtain rfl := Option.some.inj ht
    decide
  · have hnext : sleepyWorld.sched.next = (idleMachine (fun _ => none) ⟨[], none⟩).sched.next :=
      setState_next _ _ _
    rw [hnext]
    exact hwf.queues.family
  · rw [hqueued]
    decide
  · intro t ht
    rw [hqueued] at ht
    obtain rfl := List.mem_singleton.mp ht
    decide

theorem sleepyWorld_runs : Runs sleepyWorld 0 := ⟨Nat.one_pos, sleepyTask, rfl, rfl⟩

/-- One tick's sleep. -/
theorem sleepers_are_woken_one : ∃ w, Reachable (sleep.restrict Granted) w ∧
    WillWake w 0 sleepyTask 1 := by
  have hrun : ∃ w, exec 8 sleepyWorld (.sleep 0 10000000 (some 0x5000)) = some w ∧
      0 < w.sched.cpuCount ∧ (sleepyTask, 1) ∈ w.asleep 0 :=
    ⟨_, rfl, Nat.one_pos, List.mem_cons_self⟩
  obtain ⟨w, hrun, hcpus, hasleep⟩ := hrun
  have hreach : Reachable (sleep.restrict Granted) w := by
    refine (Reachable.start sleepyWorld_booted).next (a := .sleep 0 10000000 (some 0x5000))
      ⟨by simp [Granted], ⟨sleepyWorld_runs, ?_⟩, 8, hrun⟩
    intro b hb
    obtain rfl := Option.some.inj hb
    refine ⟨by decide, ?_⟩
    rintro c - ⟨walked, hwalk⟩
    cases walked with
    | nil => exact absurd hwalk (by simp [Seg, sleepyWorld, World.view])
    | cons x walked => exact absurd hwalk.1 (by simp [sleepyWorld, World.view])
  exact ⟨w, hreach, (sleepers_are_woken hreach).1 0 hcpus sleepyTask 1 hasleep⟩

/-- No block for the sleeper: the task is blocked, no sleep queue knows of it, and checks leave it
where it is. -/
theorem unqueued_task_sleeps_for_ever : ∃ w, Reachable sleep w ∧ (sleepyTask, 1) ∈ w.asleep 0 ∧
    (w.sched.task sleepyTask).state = .blocked ∧ ¬ SleepingTask w sleepyTask ∧
    ∀ fuel w', checkSleepers fuel w 0 = some w' →
      (w'.sched.task sleepyTask).state = .blocked := by
  have hrun : ∃ w, exec 8 sleepyWorld (.sleep 0 10000000 none) = some w ∧
      (sleepyTask, 1) ∈ w.asleep 0 ∧ (w.sched.task sleepyTask).state = .blocked ∧
      w.sched.cpuCount = 1 ∧ w.queue 0 = ⟨none, none, 0⟩ :=
    ⟨_, rfl, List.mem_cons_self, rfl, rfl, rfl⟩
  obtain ⟨w, hrun, hasleep, hblocked, hcount, hqueue⟩ := hrun
  refine ⟨w, ?_, hasleep, hblocked, ?_, ?_⟩
  · refine (Reachable.start sleepyWorld_booted).next (a := .sleep 0 10000000 none)
      ⟨⟨sleepyWorld_runs, ?_⟩, 8, hrun⟩
    intro b hb
    exact absurd hb.symm (Option.some_ne_none b)
  · rintro ⟨c, hc, b, ⟨walked, hwalk⟩, -⟩
    obtain rfl : c = 0 := by omega
    cases walked with
    | nil => exact absurd hwalk (by simp [Seg, World.view, hqueue])
    | cons x walked => exact absurd hwalk.1 (by simp [World.view, hqueue])
  · intro fuel w' hcheck
    have hnone : sleepQueueDequeue fuel (w.view 0) w.upticks = some (none, w.view 0) := by
      simp [sleepQueueDequeue, World.view, hqueue]
    rw [checkSleepers, hnone] at hcheck
    simp only [put_view] at hcheck
    cases fuel with
    | zero => simp [wakeSleepers] at hcheck
    | succ fuel =>
      obtain rfl := Option.some.inj hcheck
      exact hblocked

end Sleeping
