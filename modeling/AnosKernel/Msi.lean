import AnosKernel.Lib.Rings
import AnosKernel.Lib.Runs

/-!
# Message-signalled interrupts

`kernel/arch/x86_64/msi.c`: the allocation of interrupt vectors to processes, the queue of events
of each vector, and the tasks that wait for an event. Every call is one step, but for
`msi_wait_interrupt`, which drops the lock and blocks: it registers the task, blocks it, and pops
an event after the task has been unblocked and scheduled again. Anything may happen in between.

Two things are history and not in the source: an event has the process its vector belonged to
when it was pushed, and the state has the events that were returned and the process each vector
was last allocated to.
-/

namespace Msi

open Runs Rings

def msiVectorBase : Nat := 0x40

def msiVectorTop : Nat := 0xDF

def msiVectorCount : Nat := msiVectorTop - msiVectorBase + 1

def msiQueueSize : Nat := 4

def msiTimeoutMs : BitVec 64 := 100

/-- `pushedFor` is the owner of the vector at the time of the push. -/
structure MSIEvent where
  data : BitVec 32
  timestampMs : BitVec 64
  pushedFor : BitVec 64
  deriving DecidableEq, Repr

structure MSIDevice where
  vector : BitVec 8
  busDeviceFunc : BitVec 32
  ownerPid : BitVec 64
  queue : Nat → MSIEvent
  head : Nat
  tail : Nat
  count : Nat
  lastEventMs : BitVec 64
  overflowCount : BitVec 32
  slowConsumerDetected : Bool
  waitingTask : Option (BitVec 64)
  totalEvents : BitVec 64

structure MSIManager where
  devices : Nat → MSIDevice
  allocatedVectors : Nat → Bool
  nextVectorHint : Nat

def MSIManager.setDevice (m : MSIManager) (i : Nat) (d : MSIDevice) : MSIManager :=
  { m with devices := Function.update m.devices i d }

def msiIndex (v : BitVec 8) : Nat := v.toNat - msiVectorBase

def msiValid (v : BitVec 8) : Bool :=
  decide (msiVectorBase ≤ v.toNat) && decide (v.toNat ≤ msiVectorTop)

def msiQueuePush (d : MSIDevice) (data : BitVec 32) (now : BitVec 64) : MSIDevice :=
  { d with
    queue := Function.update d.queue d.head
      { data := data, timestampMs := now, pushedFor := d.ownerPid }
    head := (d.head + 1) % msiQueueSize
    count := d.count + 1
    lastEventMs := now
    totalEvents := d.totalEvents + 1 }

/-- `msi_queue_pop`; the source hands out the `data` of the event. -/
def msiQueuePop (d : MSIDevice) : Option (MSIEvent × MSIDevice) :=
  if d.count = 0 then none
  else some (d.queue d.tail, { d with tail := (d.tail + 1) % msiQueueSize, count := d.count - 1 })

/-- What `msi_init` writes to each device; the memory of its queue is as it was. -/
def msiInitDevice (queue : Nat → MSIEvent) : MSIDevice where
  vector := 0
  busDeviceFunc := 0
  ownerPid := 0
  queue := queue
  head := 0
  tail := 0
  count := 0
  lastEventMs := 0
  overflowCount := 0
  slowConsumerDetected := false
  waitingTask := none
  totalEvents := 0

/-- The search of `msi_allocate_vector` over `n` vectors from `i` on, wrapping around. -/
def findFree (allocated : Nat → Bool) : Nat → Nat → Option Nat
  | 0, _ => none
  | n + 1, i => if allocated i then findFree allocated n ((i + 1) % msiVectorCount) else some i

/-- The local APIC of the CPU that gets the interrupts of the vector with index `i`. -/
def targetApicId (cpus : List (BitVec 8)) (i : Nat) : BitVec 8 := (cpus[i % cpus.length]?).getD 0

structure MSIGrant where
  vector : BitVec 8
  msiAddress : BitVec 64
  msiData : BitVec 32

/-- What `msi_allocate_vector` writes to the device it gives away. -/
def allocatedDevice (d : MSIDevice) (i : Nat) (busDeviceFunc : BitVec 32)
    (ownerPid now : BitVec 64) : MSIDevice :=
  { d with
    vector := BitVec.ofNat 8 (msiVectorBase + i)
    busDeviceFunc := busDeviceFunc
    ownerPid := ownerPid
    head := 0
    tail := 0
    count := 0
    lastEventMs := now
    overflowCount := 0
    slowConsumerDetected := false
    waitingTask := none
    totalEvents := 0 }

/-- `msi_allocate_vector` at the time `now`; `none` when it returns 0. -/
def msiAllocateVector (cpus : List (BitVec 8)) (m : MSIManager) (busDeviceFunc : BitVec 32)
    (ownerPid now : BitVec 64) : Option (MSIGrant × MSIManager) :=
  (findFree m.allocatedVectors msiVectorCount m.nextVectorHint).map fun i =>
    let vector := BitVec.ofNat 8 (msiVectorBase + i)
    ({ vector := vector
       msiAddress := 0xFEE00000 ||| ((targetApicId cpus i).zeroExtend 64 <<< 12)
       msiData := vector.zeroExtend 32 },
      { devices := Function.update m.devices i
          (allocatedDevice (m.devices i) i busDeviceFunc ownerPid now)
        allocatedVectors := Function.update m.allocatedVectors i true
        nextVectorHint := (i + 1) % msiVectorCount })

/-- A device whose vector is given back. -/
def MSIDevice.freed (d : MSIDevice) : MSIDevice :=
  { d with waitingTask := none, vector := 0, ownerPid := 0 }

/-- `msi_deallocate_vector`: the task to wake; `none` when it returns false. -/
def msiDeallocateVector (m : MSIManager) (vector : BitVec 8) (ownerPid : BitVec 64) :
    Option (Option (BitVec 64) × MSIManager) :=
  let i := msiIndex vector
  if msiValid vector && m.allocatedVectors i && (m.devices i).ownerPid == ownerPid then
    some ((m.devices i).waitingTask,
      { m.setDevice i (m.devices i).freed with
        allocatedVectors := Function.update m.allocatedVectors i false })
  else none

inductive WaitStart
  | refused
  | event (e : MSIEvent) (m : MSIManager)
  | waits (i : Nat) (m : MSIManager)

/-- `msi_wait_interrupt` up to the place where it blocks. -/
def msiWaitInterrupt (m : MSIManager) (vector : BitVec 8) (task pid : BitVec 64) : WaitStart :=
  let i := msiIndex vector
  let d := m.devices i
  if msiValid vector && m.allocatedVectors i && d.ownerPid == pid && !d.slowConsumerDetected then
    match msiQueuePop d with
    | some (e, d') => .event e (m.setDevice i d')
    | none => .waits i (m.setDevice i { d with waitingTask := some task })
  else .refused

/-- The end of `msi_wait_interrupt` after it has blocked; `none` when it returns false. -/
def msiWaitResumed (m : MSIManager) (i : Nat) : Option (MSIEvent × MSIManager) :=
  (msiQueuePop (m.devices i)).map fun (e, d) => (e, m.setDevice i d)

/-- `msi_handle_interrupt` at the time `now`, with the task to wake. -/
def msiHandleInterrupt (m : MSIManager) (vector : BitVec 8) (data : BitVec 32) (now : BitVec 64) :
    Option (BitVec 64) × MSIManager :=
  let i := msiIndex vector
  let d := m.devices i
  if msiValid vector && m.allocatedVectors i then
    if d.count ≥ msiQueueSize then
      (none, m.setDevice i { d with
        overflowCount := d.overflowCount + 1
        slowConsumerDetected :=
          d.slowConsumerDetected || decide (now - d.lastEventMs > msiTimeoutMs) })
    else
      (d.waitingTask, m.setDevice i { msiQueuePush d data now with waitingTask := none })
  else (none, m)

/-- The vectors `msi_cleanup_process` gives back. -/
def MSIManager.cleans (m : MSIManager) (pid : BitVec 64) (i : Nat) : Bool :=
  decide (i < msiVectorCount) && m.allocatedVectors i && (m.devices i).ownerPid == pid

/-- `msi_cleanup_process`, with the tasks to wake. -/
def msiCleanupProcess (m : MSIManager) (pid : BitVec 64) : List (BitVec 64) × MSIManager :=
  ((List.range msiVectorCount).filterMap fun i =>
      if m.cleans pid i then (m.devices i).waitingTask else none,
    { m with
      devices := fun i => if m.cleans pid i then (m.devices i).freed else m.devices i
      allocatedVectors := fun i => if m.cleans pid i then false else m.allocatedVectors i })

/-! ## Runs -/

/-- Where a task is in `msi_wait_interrupt`: it has registered with the device and dropped the
lock, or it has blocked. `queued` says whether it is in a run queue. -/
inductive Phase
  | outside
  | registered (i : Nat) (queued : Bool)
  | blocked (i : Nat) (queued : Bool)
  deriving DecidableEq, Repr

/-- `sched_unblock` puts the task into a run queue. -/
def Phase.unblock : Phase → Phase
  | .outside => .outside
  | .registered i _ => .registered i true
  | .blocked i _ => .blocked i true

/-- `pidOf` is `task->owner->pid`. -/
structure World where
  manager : MSIManager
  pidOf : BitVec 64 → BitVec 64
  phase : BitVec 64 → Phase
  granted : Nat → BitVec 64
  returned : List (BitVec 64 × MSIEvent)

def World.setPhase (w : World) (t : BitVec 64) (phase : Phase) : World :=
  { w with phase := Function.update w.phase t phase }

def World.unblockAll (w : World) (tasks : List (BitVec 64)) : World :=
  { w with phase := fun t => if tasks.contains t then (w.phase t).unblock else w.phase t }

/-- `reschedule` is a preemption of a task that has registered and not yet blocked: it goes on
when it is taken off a run queue. -/
inductive Call
  | allocate (cpus : List (BitVec 8)) (busDeviceFunc : BitVec 32) (ownerPid now : BitVec 64)
  | deallocate (vector : BitVec 8) (ownerPid : BitVec 64)
  | interrupt (vector : BitVec 8) (data : BitVec 32) (now : BitVec 64)
  | cleanup (pid : BitVec 64)
  | wait (t : BitVec 64) (vector : BitVec 8)
  | reschedule (t : BitVec 64)
  | block (t : BitVec 64)
  | resume (t : BitVec 64)

def World.allocate (w : World) (cpus : List (BitVec 8)) (busDeviceFunc : BitVec 32)
    (ownerPid now : BitVec 64) : World :=
  match msiAllocateVector cpus w.manager busDeviceFunc ownerPid now with
  | some (grant, m) =>
    { w with
      manager := m
      granted := Function.update w.granted (msiIndex grant.vector) ownerPid }
  | none => w

def World.deallocate (w : World) (vector : BitVec 8) (ownerPid : BitVec 64) : World :=
  match msiDeallocateVector w.manager vector ownerPid with
  | some (toWake, m) => { w with manager := m }.unblockAll toWake.toList
  | none => w

def World.interrupt (w : World) (vector : BitVec 8) (data : BitVec 32) (now : BitVec 64) : World :=
  let (toWake, m) := msiHandleInterrupt w.manager vector data now
  { w with manager := m }.unblockAll toWake.toList

def World.cleanup (w : World) (pid : BitVec 64) : World :=
  let (wakeList, m) := msiCleanupProcess w.manager pid
  { w with manager := m }.unblockAll wakeList

def World.wait (w : World) (t : BitVec 64) (vector : BitVec 8) : World :=
  match msiWaitInterrupt w.manager vector t (w.pidOf t) with
  | .refused => w
  | .event e m => { w with manager := m, returned := w.returned ++ [(t, e)] }
  | .waits i m => { w.setPhase t (.registered i false) with manager := m }

def World.resume (w : World) (t : BitVec 64) (i : Nat) : World :=
  match msiWaitResumed w.manager i with
  | some (e, m) =>
    { w.setPhase t .outside with manager := m, returned := w.returned ++ [(t, e)] }
  | none => w.setPhase t .outside

def Step (w : World) : Call → World → Prop
  | .allocate cpus bdf pid now, w' => w' = w.allocate cpus bdf pid now
  | .deallocate vector pid, w' => w' = w.deallocate vector pid
  | .interrupt vector data now, w' => w' = w.interrupt vector data now
  | .cleanup pid, w' => w' = w.cleanup pid
  | .wait t vector, w' => w.phase t = .outside ∧ w' = w.wait t vector
  | .reschedule t, w' => ∃ i, w.phase t = .registered i true ∧
      w' = w.setPhase t (.registered i false)
  | .block t, w' => ∃ i queued, w.phase t = .registered i queued ∧
      w' = w.setPhase t (.blocked i queued)
  | .resume t, w' => ∃ i, w.phase t = .blocked i true ∧ w' = w.resume t i

/-- After `msi_init`. -/
def Initialised (w : World) : Prop :=
  (∀ i, ∃ queue, w.manager.devices i = msiInitDevice queue) ∧
    (∀ i, w.manager.allocatedVectors i = false) ∧ w.manager.nextVectorHint = 0 ∧
    (∀ t, w.phase t = .outside) ∧ w.returned = []

def msiCalls : System World Call where
  init := Initialised
  step := Step

/-- When a task resumes, its vector has no event or is still the one of its own process. -/
def ResumeGuard (w : World) : Call → Prop
  | .resume t => ∀ i, w.phase t = .blocked i true →
      (w.manager.devices i).count = 0 ∨ w.granted i = w.pidOf t
  | _ => True

/-- A task that waits for its vector is the only one, and one that has been unblocked before it
blocks is not preempted until it does. -/
def WaitGuard (w : World) : Call → Prop
  | .wait t vector => ∀ i m, msiWaitInterrupt w.manager vector t (w.pidOf t) = .waits i m →
      (w.manager.devices i).waitingTask = none
  | .reschedule _ => False
  | _ => True

/-! ## The queue of a device -/

/-- The events of the device that have not been returned, oldest first. -/
def MSIDevice.pending (d : MSIDevice) : List MSIEvent := entries d.queue msiQueueSize d.tail d.count

structure MSIDevice.WellFormed (d : MSIDevice) : Prop where
  head : d.head = slot msiQueueSize d.tail d.count
  tail : d.tail < msiQueueSize
  count : d.count ≤ msiQueueSize

theorem MSIDevice.WellFormed.push {d : MSIDevice} (h : d.WellFormed) (room : d.count < msiQueueSize)
    (data : BitVec 32) (now : BitVec 64) :
    (msiQueuePush d data now).WellFormed ∧ (msiQueuePush d data now).pending =
      d.pending ++ [{ data := data, timestampMs := now, pushedFor := d.ownerPid }] := by
  refine ⟨⟨?_, h.tail, room⟩, ?_⟩
  · simp only [msiQueuePush, h.head, slot]
    rw [Nat.mod_add_mod, Nat.add_assoc]
  · simp only [MSIDevice.pending, msiQueuePush, h.head]
    exact entries_push room _

theorem msiQueuePop_count {d d' : MSIDevice} {e : MSIEvent}
    (h : msiQueuePop d = some (e, d')) : d.count ≠ 0 := by
  intro hempty
  simp [msiQueuePop, hempty] at h

theorem msiQueuePop_keeps {d d' : MSIDevice} {e : MSIEvent}
    (h : msiQueuePop d = some (e, d')) :
    d'.ownerPid = d.ownerPid ∧ d'.waitingTask = d.waitingTask := by
  rw [msiQueuePop] at h
  split_ifs at h
  rw [← (Prod.mk.inj (Option.some.inj h)).2]
  exact ⟨rfl, rfl⟩

/-- A pop returns the oldest event. -/
theorem MSIDevice.WellFormed.pop {d d' : MSIDevice} {e : MSIEvent} (h : d.WellFormed)
    (run : msiQueuePop d = some (e, d')) : d'.WellFormed ∧ d.pending = e :: d'.pending := by
  rw [msiQueuePop] at run
  split_ifs at run with hempty
  obtain ⟨rfl, rfl⟩ := Prod.mk.injEq .. ▸ Option.some.inj run
  obtain ⟨n, hn⟩ := Nat.exists_eq_succ_of_ne_zero hempty
  have htail := Nat.mod_eq_of_lt h.tail
  refine ⟨⟨?_, Nat.mod_lt _ (by decide), ?_⟩, ?_⟩
  · simp only [h.head, hn, slot, Nat.succ_sub_one, Nat.succ_eq_add_one]
    rw [Nat.mod_add_mod, Nat.add_assoc, Nat.add_comm 1 n]
  · exact Nat.le_trans (Nat.sub_le _ _) h.count
  · simp only [MSIDevice.pending, hn, Nat.succ_eq_add_one, Nat.add_sub_cancel]
    rw [entries_pop, htail]

/-! ## Vectors and their indices -/

theorem findFree_spec {allocated : Nat → Bool} {n i j : Nat} (start : i < msiVectorCount)
    (h : findFree allocated n i = some j) : j < msiVectorCount ∧ allocated j = false := by
  induction n generalizing i with
  | zero => simp [findFree] at h
  | succ n ih =>
    rw [findFree] at h
    split_ifs at h with hused
    · exact ih (Nat.mod_lt _ (by decide)) h
    · obtain rfl := Option.some.inj h
      exact ⟨start, by simpa using hused⟩

theorem msiIndex_ofNat {i : Nat} (h : i < msiVectorCount) :
    msiIndex (BitVec.ofNat 8 (msiVectorBase + i)) = i := by
  have hcount : msiVectorCount = 160 := rfl
  have hbase : msiVectorBase = 64 := rfl
  rw [msiIndex, BitVec.toNat_ofNat, hbase, Nat.mod_eq_of_lt (by omega)]
  omega

theorem msiIndex_lt {vector : BitVec 8} (h : msiValid vector = true) :
    msiIndex vector < msiVectorCount := by
  have hcount : msiVectorCount = 160 := rfl
  have hbase : msiVectorBase = 64 := rfl
  have htop : msiVectorTop = 223 := rfl
  simp only [msiValid, Bool.and_eq_true, decide_eq_true_eq] at h
  rw [msiIndex]
  omega

/-- What an allocation does to the state. -/
theorem World.allocate_cases (w : World) (hint : w.manager.nextVectorHint < msiVectorCount)
    (cpus : List (BitVec 8)) (busDeviceFunc : BitVec 32) (ownerPid now : BitVec 64) :
    w.allocate cpus busDeviceFunc ownerPid now = w ∨
    ∃ i < msiVectorCount, w.manager.allocatedVectors i = false ∧
      w.allocate cpus busDeviceFunc ownerPid now =
        { w with
          manager :=
            { devices := Function.update w.manager.devices i
                (allocatedDevice (w.manager.devices i) i busDeviceFunc ownerPid now)
              allocatedVectors := Function.update w.manager.allocatedVectors i true
              nextVectorHint := (i + 1) % msiVectorCount }
          granted := Function.update w.granted i ownerPid } := by
  rw [World.allocate, msiAllocateVector]
  cases hfree : findFree w.manager.allocatedVectors msiVectorCount w.manager.nextVectorHint with
  | none => exact Or.inl rfl
  | some i =>
    obtain ⟨hi, hunused⟩ := findFree_spec hint hfree
    refine Or.inr ⟨i, hi, hunused, ?_⟩
    simp only [Option.map_some, msiIndex_ofNat hi]

/-- What giving a vector back does to the state. -/
theorem World.deallocate_cases (w : World) (vector : BitVec 8) (ownerPid : BitVec 64) :
    (¬ (msiValid vector = true ∧ w.manager.allocatedVectors (msiIndex vector) = true ∧
        (w.manager.devices (msiIndex vector)).ownerPid = ownerPid) ∧
      w.deallocate vector ownerPid = w) ∨
    (msiValid vector = true ∧ w.manager.allocatedVectors (msiIndex vector) = true ∧
      (w.manager.devices (msiIndex vector)).ownerPid = ownerPid ∧
      w.deallocate vector ownerPid =
        { w with
          manager := { w.manager.setDevice (msiIndex vector)
              (w.manager.devices (msiIndex vector)).freed with
            allocatedVectors :=
              Function.update w.manager.allocatedVectors (msiIndex vector) false } }.unblockAll
          (w.manager.devices (msiIndex vector)).waitingTask.toList) := by
  rw [World.deallocate, msiDeallocateVector]
  by_cases hmay : (msiValid vector && w.manager.allocatedVectors (msiIndex vector) &&
      (w.manager.devices (msiIndex vector)).ownerPid == ownerPid) = true
  · rw [if_pos hmay]
    simp only [Bool.and_eq_true, beq_iff_eq] at hmay
    exact Or.inr ⟨hmay.1.1, hmay.1.2, hmay.2, rfl⟩
  · rw [if_neg hmay]
    refine Or.inl ⟨fun h => hmay ?_, rfl⟩
    simp [h.1, h.2.1, h.2.2]

/-- The interrupt changes one device and may wake the task that waits for it. -/
theorem World.interrupt_cases (w : World) (vector : BitVec 8) (data : BitVec 32)
    (now : BitVec 64) :
    (¬ (msiValid vector = true ∧ w.manager.allocatedVectors (msiIndex vector) = true) ∧
      w.interrupt vector data now = w.unblockAll []) ∨
    (msiValid vector = true ∧ w.manager.allocatedVectors (msiIndex vector) = true ∧
      ((msiQueueSize ≤ (w.manager.devices (msiIndex vector)).count ∧
        ∃ slow, w.interrupt vector data now =
          { w with
            manager := w.manager.setDevice (msiIndex vector)
              { w.manager.devices (msiIndex vector) with
                overflowCount := (w.manager.devices (msiIndex vector)).overflowCount + 1
                slowConsumerDetected := slow } }.unblockAll []) ∨
      ((w.manager.devices (msiIndex vector)).count < msiQueueSize ∧
        w.interrupt vector data now =
          { w with
            manager := w.manager.setDevice (msiIndex vector)
              { msiQueuePush (w.manager.devices (msiIndex vector)) data now with
                waitingTask := none } }.unblockAll
            (w.manager.devices (msiIndex vector)).waitingTask.toList))) := by
  rw [World.interrupt, msiHandleInterrupt]
  by_cases hmay : (msiValid vector && w.manager.allocatedVectors (msiIndex vector)) = true
  · simp only [hmay, if_true]
    simp only [Bool.and_eq_true] at hmay
    by_cases hfull : (w.manager.devices (msiIndex vector)).count ≥ msiQueueSize
    · simp only [if_pos hfull]
      exact Or.inr ⟨hmay.1, hmay.2, Or.inl ⟨hfull, _, rfl⟩⟩
    · simp only [if_neg hfull]
      exact Or.inr ⟨hmay.1, hmay.2, Or.inr ⟨Nat.lt_of_not_le hfull, trivial⟩⟩
  · refine Or.inl ⟨by simpa using hmay, ?_⟩
    simp only [hmay]
    rfl

/-- What `msi_wait_interrupt` does before it blocks. -/
theorem World.wait_cases (w : World) (t : BitVec 64) (vector : BitVec 8) :
    w.wait t vector = w ∨
    (msiValid vector = true ∧ w.manager.allocatedVectors (msiIndex vector) = true ∧
      (w.manager.devices (msiIndex vector)).ownerPid = w.pidOf t ∧
      ((∃ e d, msiQueuePop (w.manager.devices (msiIndex vector)) = some (e, d) ∧
        w.wait t vector =
          { w with
            manager := w.manager.setDevice (msiIndex vector) d
            returned := w.returned ++ [(t, e)] }) ∨
      ((w.manager.devices (msiIndex vector)).count = 0 ∧
        (∃ m, msiWaitInterrupt w.manager vector t (w.pidOf t) = .waits (msiIndex vector) m) ∧
        w.wait t vector =
          { w.setPhase t (.registered (msiIndex vector) false) with
            manager := w.manager.setDevice (msiIndex vector)
              { w.manager.devices (msiIndex vector) with waitingTask := some t } }))) := by
  have hwait : w.wait t vector = match msiWaitInterrupt w.manager vector t (w.pidOf t) with
    | .refused => w
    | .event e m => { w with manager := m, returned := w.returned ++ [(t, e)] }
    | .waits i m => { w.setPhase t (.registered i false) with manager := m } := rfl
  by_cases hmay : (msiValid vector && w.manager.allocatedVectors (msiIndex vector) &&
      (w.manager.devices (msiIndex vector)).ownerPid == w.pidOf t &&
      !(w.manager.devices (msiIndex vector)).slowConsumerDetected) = true
  · have hstart : msiWaitInterrupt w.manager vector t (w.pidOf t) =
        match msiQueuePop (w.manager.devices (msiIndex vector)) with
        | some (e, d) => .event e (w.manager.setDevice (msiIndex vector) d)
        | none => .waits (msiIndex vector) (w.manager.setDevice (msiIndex vector)
            { w.manager.devices (msiIndex vector) with waitingTask := some t }) := if_pos hmay
    simp only [Bool.and_eq_true, beq_iff_eq] at hmay
    refine Or.inr ⟨hmay.1.1.1, hmay.1.1.2, hmay.1.2, ?_⟩
    cases hpop : msiQueuePop (w.manager.devices (msiIndex vector)) with
    | some result =>
      rw [hpop] at hstart
      rw [hwait, hstart]
      exact Or.inl ⟨result.1, result.2, rfl, rfl⟩
    | none =>
      have hempty : (w.manager.devices (msiIndex vector)).count = 0 := by
        by_contra hne
        simp [msiQueuePop, hne] at hpop
      rw [hpop] at hstart
      rw [hwait, hstart]
      exact Or.inr ⟨hempty, ⟨_, rfl⟩, rfl⟩
  · have hrefused : msiWaitInterrupt w.manager vector t (w.pidOf t) = .refused := if_neg hmay
    rw [hwait, hrefused]
    exact Or.inl rfl

/-- What `msi_wait_interrupt` does after it has blocked. -/
theorem World.resume_cases (w : World) (t : BitVec 64) (i : Nat) :
    (msiQueuePop (w.manager.devices i) = none ∧ w.resume t i = w.setPhase t .outside) ∨
    ∃ e d, msiQueuePop (w.manager.devices i) = some (e, d) ∧ w.resume t i =
      { w.setPhase t .outside with
        manager := w.manager.setDevice i d
        returned := w.returned ++ [(t, e)] } := by
  cases hpop : msiQueuePop (w.manager.devices i) with
  | none => exact Or.inl ⟨rfl, by simp [World.resume, msiWaitResumed, hpop]⟩
  | some result => exact Or.inr ⟨_, _, rfl, by simp [World.resume, msiWaitResumed, hpop]⟩

/-! ## Two tasks of one process -/

def firstTask : BitVec 64 := 0x1000

def secondTask : BitVec 64 := 0x2000

def firstVector : BitVec 8 := 0x40

def firstPid : BitVec 64 := 1

def secondPid : BitVec 64 := 2

/-- The state after `msi_init`; both tasks belong to the first process. -/
def freshWorld : World where
  manager :=
    { devices := fun _ => msiInitDevice fun _ => { data := 0, timestampMs := 0, pushedFor := 0 }
      allocatedVectors := fun _ => false
      nextVectorHint := 0 }
  pidOf := fun _ => firstPid
  phase := fun _ => .outside
  granted := fun _ => 0
  returned := []

theorem initialised_freshWorld : Initialised freshWorld :=
  ⟨fun _ => ⟨_, rfl⟩, fun _ => rfl, rfl, fun _ => rfl, rfl⟩

/-- The first process has a vector, and the first task has blocked on it. -/
def blockedWorld : World :=
  ((freshWorld.allocate [] 0 firstPid 0).wait firstTask firstVector).setPhase firstTask
    (.blocked 0 false)

theorem blockedWorld_reachable :
    Reachable (msiCalls.restrict fun w call => ResumeGuard w call ∧ WaitGuard w call)
      blockedWorld := by
  have hallocated := Reachable.next (M := msiCalls.restrict
    fun w call => ResumeGuard w call ∧ WaitGuard w call) (a := Call.allocate [] 0 firstPid 0)
    (.start initialised_freshWorld) ⟨⟨trivial, trivial⟩, rfl⟩
  have hwaits := Reachable.next (a := Call.wait firstTask firstVector) hallocated
    ⟨⟨trivial, fun i m hwaits => ?_⟩, rfl, rfl⟩
  · exact Reachable.next (a := Call.block firstTask) hwaits
      ⟨⟨trivial, trivial⟩, 0, false, rfl, rfl⟩
  · have hindex : WaitStart.waits 0 _ = .waits i m := hwaits
    obtain ⟨rfl, -⟩ := WaitStart.waits.inj hindex
    rfl

/-! ## Whose events are pending -/

/-- The events pending on a device were pushed for the process its vector was last allocated to. -/
structure MSIDevice.Holds (d : MSIDevice) (allocated : Bool) (pid : BitVec 64) : Prop where
  wellFormed : d.WellFormed
  pending : ∀ e ∈ d.pending, e.pushedFor = pid
  owner : allocated = true → d.ownerPid = pid

/-- Only the queue and, for an allocated vector, the owner matter. -/
theorem MSIDevice.Holds.congr {d d' : MSIDevice} {allocated allocated' : Bool} {pid : BitVec 64}
    (h : d.Holds allocated pid) (queue : d'.queue = d.queue) (head : d'.head = d.head)
    (tail : d'.tail = d.tail) (count : d'.count = d.count)
    (owner : allocated' = true → d'.ownerPid = pid) : d'.Holds allocated' pid := by
  refine ⟨⟨?_, tail ▸ h.wellFormed.tail, count ▸ h.wellFormed.count⟩, ?_, owner⟩
  · rw [head, tail, count]
    exact h.wellFormed.head
  · rw [MSIDevice.pending, queue, tail, count]
    exact h.pending

theorem MSIDevice.Holds.freed {d : MSIDevice} {allocated : Bool} {pid : BitVec 64}
    (h : d.Holds allocated pid) : d.freed.Holds false pid :=
  h.congr rfl rfl rfl rfl (by simp)

/-- A device with an empty queue. -/
theorem MSIDevice.Holds.empty {d : MSIDevice} {allocated : Bool} {pid : BitVec 64}
    (head : d.head = 0) (tail : d.tail = 0) (count : d.count = 0)
    (owner : allocated = true → d.ownerPid = pid) : d.Holds allocated pid := by
  refine ⟨⟨?_, ?_, ?_⟩, ?_, owner⟩
  · rw [head, tail, count]
    rfl
  · rw [tail]
    decide
  · rw [count]
    exact Nat.zero_le _
  · intro e he
    rw [MSIDevice.pending, count] at he
    exact absurd he List.not_mem_nil

theorem MSIDevice.Holds.push {d : MSIDevice} {pid : BitVec 64} (h : d.Holds true pid)
    (room : d.count < msiQueueSize) (data : BitVec 32) (now : BitVec 64) :
    { msiQueuePush d data now with waitingTask := none }.Holds true pid := by
  obtain ⟨hwell, hpending⟩ := h.wellFormed.push room data now
  refine ⟨⟨hwell.head, hwell.tail, hwell.count⟩, fun e he => ?_, h.owner⟩
  have he' : e ∈ (msiQueuePush d data now).pending := he
  rw [hpending] at he'
  rcases List.mem_append.mp he' with he' | he'
  · exact h.pending e he'
  · rw [List.mem_singleton.mp he']
    exact h.owner rfl

theorem MSIDevice.Holds.pop {d d' : MSIDevice} {e : MSIEvent} {allocated : Bool} {pid : BitVec 64}
    (h : d.Holds allocated pid) (run : msiQueuePop d = some (e, d')) :
    d'.Holds allocated pid ∧ e.pushedFor = pid := by
  obtain ⟨hwell, hpending⟩ := h.wellFormed.pop run
  obtain ⟨howner, -⟩ := msiQueuePop_keeps run
  refine ⟨⟨hwell, fun e' he' => ?_, fun ha => howner.trans (h.owner ha)⟩, ?_⟩
  · exact h.pending e' (hpending ▸ List.mem_cons_of_mem _ he')
  · exact h.pending e (hpending ▸ List.mem_cons_self)

/-- What holds in every state: of each device, and of the events returned. -/
structure Tagged (w : World) : Prop where
  hint : w.manager.nextVectorHint < msiVectorCount
  devices : ∀ i, (w.manager.devices i).Holds (w.manager.allocatedVectors i) (w.granted i)
  returned : ∀ r ∈ w.returned, r.2.pushedFor = w.pidOf r.1

theorem Tagged.setDevice {w : World} (h : Tagged w) {i : Nat} {d : MSIDevice}
    (holds : d.Holds (w.manager.allocatedVectors i) (w.granted i)) (j : Nat) :
    ((w.manager.setDevice i d).devices j).Holds (w.manager.allocatedVectors j) (w.granted j) := by
  by_cases hj : j = i
  · subst hj
    simpa [MSIManager.setDevice] using holds
  · simpa [MSIManager.setDevice, hj] using h.devices j

theorem Tagged.append {w : World} (h : Tagged w) {t : BitVec 64} {e : MSIEvent}
    (own : e.pushedFor = w.pidOf t) :
    ∀ r ∈ w.returned ++ [(t, e)], r.2.pushedFor = w.pidOf r.1 := by
  intro r hr
  rcases List.mem_append.mp hr with hr | hr
  · exact h.returned r hr
  · obtain rfl := List.mem_singleton.mp hr
    exact own

theorem Tagged.allocate {w : World} (h : Tagged w) (cpus : List (BitVec 8)) (bdf : BitVec 32)
    (pid now : BitVec 64) : Tagged (w.allocate cpus bdf pid now) := by
  rcases w.allocate_cases h.hint cpus bdf pid now with hsame | ⟨i, hi, -, heq⟩
  · rw [hsame]
    exact h
  · rw [heq]
    refine ⟨Nat.mod_lt _ (by decide), fun j => ?_, h.returned⟩
    by_cases hj : j = i
    · subst hj
      have hempty : (allocatedDevice (w.manager.devices j) j bdf pid now).Holds true pid :=
        .empty rfl rfl rfl fun _ => rfl
      simpa using hempty
    · simpa [hj] using h.devices j

theorem Tagged.deallocate {w : World} (h : Tagged w) (vector : BitVec 8) (pid : BitVec 64) :
    Tagged (w.deallocate vector pid) := by
  rcases w.deallocate_cases vector pid with ⟨-, hsame⟩ | ⟨-, -, -, heq⟩
  · rw [hsame]
    exact h
  · rw [heq]
    refine ⟨h.hint, fun j => ?_, h.returned⟩
    by_cases hj : j = msiIndex vector
    · subst hj
      simpa [World.unblockAll, MSIManager.setDevice] using (h.devices _).freed
    · simpa [World.unblockAll, MSIManager.setDevice, hj] using h.devices j

theorem Tagged.interrupt {w : World} (h : Tagged w) (vector : BitVec 8) (data : BitVec 32)
    (now : BitVec 64) : Tagged (w.interrupt vector data now) := by
  rcases w.interrupt_cases vector data now with ⟨-, hsame⟩ | ⟨-, hused, hcases⟩
  · rw [hsame]
    exact ⟨h.hint, h.devices, h.returned⟩
  · have hdevice := h.devices (msiIndex vector)
    rcases hcases with ⟨-, slow, heq⟩ | ⟨hroom, heq⟩
    · rw [heq]
      exact ⟨h.hint, h.setDevice (hdevice.congr rfl rfl rfl rfl hdevice.owner), h.returned⟩
    · rw [heq]
      rw [hused] at hdevice
      exact ⟨h.hint, h.setDevice (hused ▸ hdevice.push hroom data now), h.returned⟩

theorem Tagged.cleanup {w : World} (h : Tagged w) (pid : BitVec 64) : Tagged (w.cleanup pid) := by
  refine ⟨h.hint, fun j => ?_, h.returned⟩
  simp only [World.cleanup, msiCleanupProcess, World.unblockAll]
  split_ifs with hclean
  · exact (h.devices j).freed
  · exact h.devices j

/-- Before it blocks, a task is given events only of a vector it has been found to own. -/
theorem Tagged.wait {w : World} (h : Tagged w) (t : BitVec 64) (vector : BitVec 8) :
    Tagged (w.wait t vector) := by
  rcases w.wait_cases t vector with hsame | ⟨-, hused, howner, hcases⟩
  · rw [hsame]
    exact h
  · have hdevice := h.devices (msiIndex vector)
    rcases hcases with ⟨e, d, hpop, heq⟩ | ⟨-, -, heq⟩
    · obtain ⟨hkept, htag⟩ := hdevice.pop hpop
      rw [heq]
      refine ⟨h.hint, h.setDevice hkept, h.append ?_⟩
      calc
        e.pushedFor = w.granted (msiIndex vector) := htag
        _ = (w.manager.devices (msiIndex vector)).ownerPid := (hdevice.owner hused).symm
        _ = w.pidOf t := howner
    · rw [heq]
      exact ⟨h.hint, h.setDevice (hdevice.congr rfl rfl rfl rfl hdevice.owner), h.returned⟩

theorem Tagged.resume {w : World} (h : Tagged w) {t : BitVec 64} {i : Nat}
    (own : (w.manager.devices i).count = 0 ∨ w.granted i = w.pidOf t) :
    Tagged (w.resume t i) := by
  rcases w.resume_cases t i with ⟨-, heq⟩ | ⟨e, d, hpop, heq⟩
  · rw [heq]
    exact ⟨h.hint, h.devices, h.returned⟩
  · obtain ⟨hkept, htag⟩ := (h.devices i).pop hpop
    rw [heq]
    refine ⟨h.hint, h.setDevice hkept, h.append ?_⟩
    exact htag.trans (own.resolve_left (msiQueuePop_count hpop))

theorem Tagged.step {w w' : World} {call : Call} (h : Tagged w) (guard : ResumeGuard w call)
    (step : Step w call w') : Tagged w' := by
  cases call with
  | allocate cpus bdf pid now =>
    obtain rfl := step
    exact h.allocate cpus bdf pid now
  | deallocate vector pid =>
    obtain rfl := step
    exact h.deallocate vector pid
  | interrupt vector data now =>
    obtain rfl := step
    exact h.interrupt vector data now
  | cleanup pid =>
    obtain rfl := step
    exact h.cleanup pid
  | wait t vector =>
    obtain ⟨-, rfl⟩ := step
    exact h.wait t vector
  | reschedule t =>
    obtain ⟨i, -, rfl⟩ := step
    exact ⟨h.hint, h.devices, h.returned⟩
  | block t =>
    obtain ⟨i, queued, -, rfl⟩ := step
    exact ⟨h.hint, h.devices, h.returned⟩
  | resume t =>
    obtain ⟨i, hphase, rfl⟩ := step
    exact h.resume (guard i hphase)

theorem Tagged.initialised {w : World} (h : Initialised w) : Tagged w := by
  obtain ⟨hdevices, hfree, hhint, -, hreturned⟩ := h
  refine ⟨by rw [hhint]; decide, fun i => ?_, by simp [hreturned]⟩
  obtain ⟨queue, hdevice⟩ := hdevices i
  rw [hdevice, hfree]
  exact .empty rfl rfl rfl (by simp)

/-- In every run in which a waiter that resumes finds its vector without events or still allocated
to its own process, no task is given an event pushed for another process. -/
theorem events_stay_in_process {w : World} (h : Reachable (msiCalls.restrict ResumeGuard) w)
    (t : BitVec 64) (e : MSIEvent) (given : (t, e) ∈ w.returned) : e.pushedFor = w.pidOf t := by
  have htagged : Tagged w := by
    refine h.invariant Tagged (fun _ => Tagged.initialised) ?_
    exact fun _ _ _ htagged hstep => htagged.step hstep.1 hstep.2
  exact htagged.returned (t, e) given

/-- The first task is woken by an interrupt and gets the event pushed for its own process. -/
theorem events_stay_in_process_first : ∃ w e, Reachable (msiCalls.restrict ResumeGuard) w ∧
    (firstTask, e) ∈ w.returned ∧ e.pushedFor = w.pidOf firstTask := by
  have hblocked := blockedWorld_reachable.restrict_mono fun _ _ h => h.1
  have hinterrupt := Reachable.next (a := Call.interrupt firstVector 7 1) hblocked
    ⟨trivial, rfl⟩
  have hresumed := Reachable.next (a := Call.resume firstTask) hinterrupt
    ⟨fun i hphase => ?_, 0, rfl, rfl⟩
  · have hgiven : (firstTask, { data := 7, timestampMs := 1, pushedFor := firstPid }) ∈
        ((blockedWorld.interrupt firstVector 7 1).resume firstTask 0).returned :=
      List.mem_singleton.mpr rfl
    exact ⟨_, _, hresumed, hgiven, events_stay_in_process hresumed firstTask _ hgiven⟩
  · have hindex : Phase.blocked 0 true = .blocked i true := hphase
    obtain ⟨rfl, -⟩ := Phase.blocked.inj hindex
    exact Or.inr rfl

/-- A vector that is free at the hint is the one allocated. -/
theorem allocate_hint {w : World} {i : Nat} (hint : w.manager.nextVectorHint = i)
    (lt : i < msiVectorCount) (free : w.manager.allocatedVectors i = false)
    (pid : BitVec 64) :
    w.allocate [] 0 pid 0 =
      { w with
        manager :=
          { devices := Function.update w.manager.devices i
              (allocatedDevice (w.manager.devices i) i 0 pid 0)
            allocatedVectors := Function.update w.manager.allocatedVectors i true
            nextVectorHint := (i + 1) % msiVectorCount }
        granted := Function.update w.granted i pid } := by
  have hfind : findFree w.manager.allocatedVectors msiVectorCount i = some i := by
    have hcount : msiVectorCount = 159 + 1 := rfl
    rw [hcount, findFree, if_neg (by simp [free])]
  simp only [World.allocate, msiAllocateVector, hint, hfind, Option.map_some, msiIndex_ofNat lt]

/-- The vector of the first task has been given back, and the second process has allocated the
`k` vectors behind it. -/
structure Refilled (k : Nat) (w : World) : Prop where
  reachable : Reachable msiCalls w
  hint : w.manager.nextVectorHint = (k + 1) % msiVectorCount
  free : ∀ j, j = 0 ∨ k < j → w.manager.allocatedVectors j = false
  phase : w.phase firstTask = .blocked 0 true
  pidOf : w.pidOf firstTask = firstPid

theorem exists_refilled {k : Nat} (hk : k < msiVectorCount) : ∃ w, Refilled k w := by
  induction k with
  | zero =>
    have hfreed := Reachable.next (a := Call.deallocate firstVector firstPid)
      blockedWorld_reachable.of_restrict rfl
    have hvectors : (blockedWorld.deallocate firstVector firstPid).manager.allocatedVectors =
        Function.update (Function.update (fun _ => false) 0 true) 0 false := rfl
    refine ⟨_, hfreed, rfl, fun j _ => ?_, rfl, rfl⟩
    rw [hvectors]
    simp [Function.update_apply]
  | succ k ih =>
    obtain ⟨w, hw⟩ := ih (Nat.lt_of_succ_lt hk)
    have hhint : w.manager.nextVectorHint = k + 1 := hw.hint.trans (Nat.mod_eq_of_lt hk)
    have hnext := Reachable.next (a := Call.allocate [] 0 secondPid 0) hw.reachable rfl
    have hfree : w.manager.allocatedVectors (k + 1) = false :=
      hw.free _ (Or.inr (Nat.lt_succ_self k))
    rw [allocate_hint hhint hk hfree] at hnext
    refine ⟨_, hnext, rfl, fun j hj => ?_, hw.phase, hw.pidOf⟩
    have hne : j ≠ k + 1 := by omega
    simp only [Function.update_of_ne hne]
    exact hw.free j (by omega)

/-- The event the second process is sent. -/
def secondEvent : MSIEvent := { data := 7, timestampMs := 1, pushedFor := secondPid }

/-- The vector of a blocked task is given back and comes round to another process before the task
runs again: it is given the event of that process. -/
theorem foreign_event_returned : ∃ w, Reachable msiCalls w ∧
    (firstTask, secondEvent) ∈ w.returned ∧ secondEvent.pushedFor ≠ w.pidOf firstTask := by
  obtain ⟨w, hw⟩ := exists_refilled (show 159 < msiVectorCount by decide)
  have hallocated := Reachable.next (a := Call.allocate [] 0 secondPid 0) hw.reachable rfl
  rw [allocate_hint hw.hint (by decide) (hw.free 0 (Or.inl rfl))] at hallocated
  have hinterrupt := Reachable.next (a := Call.interrupt firstVector 7 1) hallocated rfl
  have hresumed := Reachable.next (a := Call.resume firstTask) hinterrupt ⟨0, hw.phase, rfl⟩
  refine ⟨_, hresumed, List.mem_append_right w.returned (List.mem_singleton.mpr rfl), ?_⟩
  have hpid : w.pidOf firstTask ≠ secondPid := by
    rw [hw.pidOf]
    decide
  exact hpid.symm

/-! ## Who waits -/

/-- The task has registered with the device and is in no run queue. -/
def Phase.asleep (phase : Phase) (i : Nat) : Prop :=
  phase = .registered i false ∨ phase = .blocked i false

theorem Phase.asleep_unique {phase : Phase} {i j : Nat} (hi : phase.asleep i)
    (hj : phase.asleep j) : i = j := by
  rcases hi with rfl | rfl
  · rcases hj with h | h
    · exact (Phase.registered.inj h).1
    · exact absurd h (by simp)
  · rcases hj with h | h
    · exact absurd h (by simp)
    · exact (Phase.blocked.inj h).1

theorem Phase.not_asleep_unblock (phase : Phase) (i : Nat) : ¬ phase.unblock.asleep i := by
  cases phase with
  | outside => simp [Phase.unblock, Phase.asleep]
  | registered j queued => simp [Phase.unblock, Phase.asleep]
  | blocked j queued => simp [Phase.unblock, Phase.asleep]

/-- Every device knows the task that sleeps on it, and has no event while it does. -/
structure Recorded (w : World) : Prop where
  hint : w.manager.nextVectorHint < msiVectorCount
  waiting : ∀ i t, (w.manager.devices i).waitingTask = some t ↔ (w.phase t).asleep i
  used : ∀ i t, (w.manager.devices i).waitingTask = some t →
    i < msiVectorCount ∧ w.manager.allocatedVectors i = true ∧
      (w.manager.devices i).count = 0 ∧ (w.manager.devices i).ownerPid = w.pidOf t

theorem unblockAll_of_mem (w : World) {tasks : List (BitVec 64)} {t : BitVec 64} (h : t ∈ tasks) :
    (w.unblockAll tasks).phase t = (w.phase t).unblock := by
  simp [World.unblockAll, h]

theorem unblockAll_of_not_mem (w : World) {tasks : List (BitVec 64)} {t : BitVec 64}
    (h : t ∉ tasks) : (w.unblockAll tasks).phase t = w.phase t := by
  simp [World.unblockAll, h]

/-- The devices that satisfy `cleared` forget their tasks, and these are unblocked. -/
theorem Recorded.wake {w : World} (h : Recorded w) {m : MSIManager} {tasks : List (BitVec 64)}
    (cleared : Nat → Prop) (hint : m.nextVectorHint < msiVectorCount)
    (forgotten : ∀ i, cleared i → (m.devices i).waitingTask = none)
    (kept : ∀ i, ¬ cleared i →
      (m.devices i).waitingTask = (w.manager.devices i).waitingTask ∧
      m.allocatedVectors i = w.manager.allocatedVectors i ∧
      (m.devices i).count = (w.manager.devices i).count ∧
      (m.devices i).ownerPid = (w.manager.devices i).ownerPid)
    (woken : ∀ t, t ∈ tasks ↔ ∃ i, cleared i ∧ (w.manager.devices i).waitingTask = some t) :
    Recorded ({ w with manager := m }.unblockAll tasks) := by
  refine ⟨hint, fun i t => ?_, fun i t hi => ?_⟩
  · by_cases hcleared : cleared i
    · refine iff_of_false (fun hi => ?_) (fun hasleep => ?_)
      · exact absurd ((forgotten i hcleared).symm.trans hi) (by simp)
      · by_cases hwoken : t ∈ tasks
        · rw [unblockAll_of_mem _ hwoken] at hasleep
          exact Phase.not_asleep_unblock _ _ hasleep
        · rw [unblockAll_of_not_mem _ hwoken] at hasleep
          exact hwoken ((woken t).mpr ⟨i, hcleared, (h.waiting i t).mpr hasleep⟩)
    · have hsame : (({ w with manager := m }.unblockAll tasks).manager.devices i).waitingTask =
          (w.manager.devices i).waitingTask := (kept i hcleared).1
      rw [hsame, h.waiting i t]
      by_cases hwoken : t ∈ tasks
      · rw [unblockAll_of_mem _ hwoken]
        refine iff_of_false (fun hasleep => ?_) (Phase.not_asleep_unblock _ _)
        -- a task that is woken slept on a cleared device, and on no other one
        obtain ⟨j, hj, hwaiting⟩ := (woken t).mp hwoken
        exact hcleared (Phase.asleep_unique hasleep ((h.waiting j t).mp hwaiting) ▸ hj)
      · rw [unblockAll_of_not_mem _ hwoken]
  · by_cases hcleared : cleared i
    · exact absurd ((forgotten i hcleared).symm.trans hi) (by simp)
    · obtain ⟨hwaiting, hused, hcount, howner⟩ := kept i hcleared
      simp only [World.unblockAll] at hi ⊢
      rw [hused, hcount, howner]
      exact h.used i t (hwaiting ▸ hi)

/-- A task moves on that sleeps neither before nor after, or goes on sleeping. -/
theorem Recorded.setPhase {w : World} (h : Recorded w) {t : BitVec 64} {phase : Phase}
    (same : ∀ i, phase.asleep i ↔ (w.phase t).asleep i) : Recorded (w.setPhase t phase) := by
  refine ⟨h.hint, fun i u => ?_, h.used⟩
  by_cases hu : u = t
  · subst hu
    simp only [World.setPhase, Function.update_self]
    exact (h.waiting i u).trans (same i).symm
  · simp only [World.setPhase, Function.update_of_ne hu]
    exact h.waiting i u

/-- A pop leaves the devices that somebody waits for alone. -/
theorem Recorded.pop {w : World} (h : Recorded w) {i : Nat} {e : MSIEvent} {d : MSIDevice}
    (pop : msiQueuePop (w.manager.devices i) = some (e, d))
    (returned : List (BitVec 64 × MSIEvent)) :
    Recorded { w with manager := w.manager.setDevice i d, returned := returned } := by
  obtain ⟨-, hwaiting⟩ := msiQueuePop_keeps pop
  have hnobody : (w.manager.devices i).waitingTask = none := by
    by_contra hsome
    obtain ⟨t, ht⟩ := Option.ne_none_iff_exists'.mp hsome
    exact msiQueuePop_count pop (h.used i t ht).2.2.1
  refine ⟨h.hint, fun j t => ?_, fun j t hj => ?_⟩
  · by_cases hj : j = i
    · subst hj
      simp only [MSIManager.setDevice, Function.update_self, hwaiting]
      exact h.waiting j t
    · simp only [MSIManager.setDevice, Function.update_of_ne hj]
      exact h.waiting j t
  · by_cases hji : j = i
    · subst hji
      simp only [MSIManager.setDevice, Function.update_self, hwaiting, hnobody] at hj
      exact absurd hj (by simp)
    · simp only [MSIManager.setDevice, Function.update_of_ne hji] at hj ⊢
      exact h.used j t hj

/-- The invariant reads the manager and the phases. -/
theorem Recorded.congr {w w' : World} (h : Recorded w) (manager : w'.manager = w.manager)
    (pidOf : w'.pidOf = w.pidOf) (phase : w'.phase = w.phase) : Recorded w' := by
  refine ⟨manager ▸ h.hint, ?_, ?_⟩
  · rw [manager, phase]
    exact h.waiting
  · rw [manager, pidOf]
    exact h.used

theorem unblockAll_nil (w : World) : w.unblockAll [] = w := by
  simp [World.unblockAll]

/-- A device that nobody waits for and that is given a task to wake. -/
theorem Recorded.register {w : World} (h : Recorded w) {i : Nat} {t : BitVec 64}
    (valid : i < msiVectorCount) (used : w.manager.allocatedVectors i = true)
    (empty : (w.manager.devices i).count = 0)
    (owner : (w.manager.devices i).ownerPid = w.pidOf t)
    (nobody : (w.manager.devices i).waitingTask = none) (outside : w.phase t = .outside) :
    Recorded { w.setPhase t (.registered i false) with
      manager := w.manager.setDevice i
        { w.manager.devices i with waitingTask := some t } } := by
  refine ⟨h.hint, fun j u => ?_, fun j u hj => ?_⟩
  · by_cases hj : j = i
    · subst hj
      simp only [MSIManager.setDevice, World.setPhase, Function.update_self, Option.some.injEq]
      by_cases hu : u = t
      · subst hu
        rw [Function.update_self]
        exact iff_of_true rfl (Or.inl rfl)
      · rw [Function.update_of_ne hu, ← h.waiting j u, nobody]
        exact iff_of_false (Ne.symm hu) (by simp)
    · simp only [MSIManager.setDevice, World.setPhase, Function.update_of_ne hj]
      by_cases hu : u = t
      · subst hu
        rw [Function.update_self, h.waiting j u, outside]
        simp [Phase.asleep, Ne.symm hj]
      · rw [Function.update_of_ne hu]
        exact h.waiting j u
  · by_cases hji : j = i
    · subst hji
      simp only [MSIManager.setDevice, World.setPhase, Function.update_self,
        Option.some.injEq] at hj ⊢
      exact ⟨valid, used, empty, hj ▸ owner⟩
    · simp only [MSIManager.setDevice, World.setPhase, Function.update_of_ne hji] at hj ⊢
      exact h.used j u hj

/-- The one device a call changes. -/
theorem setDevice_of_ne (m : MSIManager) {i j : Nat} (d : MSIDevice) (hne : j ≠ i) :
    (m.setDevice i d).devices j = m.devices j := Function.update_of_ne hne _ _

theorem setDevice_self (m : MSIManager) (i : Nat) (d : MSIDevice) :
    (m.setDevice i d).devices i = d := Function.update_self _ _ _

theorem mem_toList_iff {tasks : Option (BitVec 64)} {waiting : Nat → Option (BitVec 64)} {i : Nat}
    (h : tasks = waiting i) (t : BitVec 64) :
    t ∈ tasks.toList ↔ ∃ j, j = i ∧ waiting j = some t := by
  rw [Option.mem_toList, h]
  constructor
  · exact fun ht => ⟨i, rfl, ht⟩
  · rintro ⟨j, rfl, ht⟩
    exact ht

theorem mem_wakeList (m : MSIManager) (pid t : BitVec 64) :
    t ∈ (msiCleanupProcess m pid).1 ↔
      ∃ i, m.cleans pid i = true ∧ (m.devices i).waitingTask = some t := by
  simp only [msiCleanupProcess, List.mem_filterMap, List.mem_range]
  constructor
  · rintro ⟨i, -, hi⟩
    split_ifs at hi with hclean
    exact ⟨i, hclean, hi⟩
  · rintro ⟨i, hclean, hi⟩
    have hlt : i < msiVectorCount := by
      simp only [MSIManager.cleans, Bool.and_eq_true, decide_eq_true_eq] at hclean
      exact hclean.1.1
    exact ⟨i, hlt, by rw [if_pos hclean, hi]⟩

/-- A free vector is given away: nobody waits for it. -/
theorem Recorded.allocate {w : World} (h : Recorded w) (cpus : List (BitVec 8)) (bdf : BitVec 32)
    (pid now : BitVec 64) : Recorded (w.allocate cpus bdf pid now) := by
  rcases w.allocate_cases h.hint cpus bdf pid now with hsame | ⟨i, hi, hfree, heq⟩
  · rw [hsame]
    exact h
  · have hnobody : (w.manager.devices i).waitingTask = none := by
      by_contra hsome
      obtain ⟨t, ht⟩ := Option.ne_none_iff_exists'.mp hsome
      exact absurd (hfree.symm.trans (h.used i t ht).2.1) (by simp)
    have hwake : Recorded ({ w with
        manager := (w.allocate cpus bdf pid now).manager }.unblockAll []) := by
      rw [heq]
      refine h.wake (· = i) (Nat.mod_lt _ (by decide)) ?_ ?_ ?_
      · rintro j rfl
        simp [allocatedDevice]
      · intro j hj
        simp [hj]
      · simp [hnobody]
    rw [unblockAll_nil] at hwake
    rw [heq] at hwake ⊢
    exact hwake.congr rfl rfl rfl

theorem Recorded.deallocate {w : World} (h : Recorded w) (vector : BitVec 8) (pid : BitVec 64) :
    Recorded (w.deallocate vector pid) := by
  rcases w.deallocate_cases vector pid with ⟨-, hsame⟩ | ⟨-, -, -, heq⟩
  · rw [hsame]
    exact h
  · rw [heq]
    refine h.wake (· = msiIndex vector) h.hint ?_ ?_ (mem_toList_iff rfl)
    · rintro j rfl
      rw [setDevice_self]
      rfl
    · intro j hj
      simp [setDevice_of_ne _ _ hj, Function.update_of_ne hj]

theorem Recorded.interrupt {w : World} (h : Recorded w) (vector : BitVec 8) (data : BitVec 32)
    (now : BitVec 64) : Recorded (w.interrupt vector data now) := by
  rcases w.interrupt_cases vector data now with
    ⟨-, hsame⟩ | ⟨-, -, ⟨-, slow, heq⟩ | ⟨-, heq⟩⟩
  · rw [hsame, unblockAll_nil]
    exact h
  · -- an event that is lost wakes nobody
    rw [heq]
    refine h.wake (fun _ => False) h.hint (fun _ hf => hf.elim) (fun j _ => ?_) (by simp)
    by_cases hj : j = msiIndex vector
    · subst hj
      rw [setDevice_self]
      exact ⟨rfl, rfl, rfl, rfl⟩
    · rw [setDevice_of_ne _ _ hj]
      exact ⟨rfl, rfl, rfl, rfl⟩
  · rw [heq]
    refine h.wake (· = msiIndex vector) h.hint ?_ ?_ (mem_toList_iff rfl)
    · rintro j rfl
      rw [setDevice_self]
    · intro j hj
      rw [setDevice_of_ne _ _ hj]
      exact ⟨rfl, rfl, rfl, rfl⟩

theorem Recorded.cleanup {w : World} (h : Recorded w) (pid : BitVec 64) :
    Recorded (w.cleanup pid) := by
  refine h.wake (w.manager.cleans pid · = true) h.hint (fun j hj => ?_) (fun j hj => ?_) ?_
  · simp [hj, MSIDevice.freed]
  · simp [hj]
  · exact mem_wakeList w.manager pid

theorem Recorded.wait {w : World} (h : Recorded w) {t : BitVec 64} {vector : BitVec 8}
    (guard : WaitGuard w (.wait t vector)) (outside : w.phase t = .outside) :
    Recorded (w.wait t vector) := by
  rcases w.wait_cases t vector with hsame | ⟨hvalid, hused, howner, hcases⟩
  · rw [hsame]
    exact h
  · rcases hcases with ⟨e, d, hpop, heq⟩ | ⟨hempty, ⟨m, hwaits⟩, heq⟩
    · rw [heq]
      exact h.pop hpop _
    · rw [heq]
      exact h.register (msiIndex_lt hvalid) hused hempty howner (guard _ m hwaits) outside

theorem Recorded.resume {w : World} (h : Recorded w) {t : BitVec 64} {i : Nat}
    (woken : w.phase t = .blocked i true) : Recorded (w.resume t i) := by
  have hawake : Recorded (w.setPhase t .outside) := by
    refine h.setPhase (fun j => ?_)
    rw [woken]
    simp [Phase.asleep]
  rcases w.resume_cases t i with ⟨-, heq⟩ | ⟨e, d, hpop, heq⟩
  · rw [heq]
    exact hawake
  · rw [heq]
    exact hawake.pop hpop _

theorem Recorded.step {w w' : World} {call : Call} (h : Recorded w) (guard : WaitGuard w call)
    (step : Step w call w') : Recorded w' := by
  cases call with
  | allocate cpus bdf pid now =>
    obtain rfl := step
    exact h.allocate cpus bdf pid now
  | deallocate vector pid =>
    obtain rfl := step
    exact h.deallocate vector pid
  | interrupt vector data now =>
    obtain rfl := step
    exact h.interrupt vector data now
  | cleanup pid =>
    obtain rfl := step
    exact h.cleanup pid
  | wait t vector =>
    obtain ⟨hphase, rfl⟩ := step
    exact h.wait guard hphase
  | reschedule t => exact guard.elim
  | block t =>
    obtain ⟨i, queued, hphase, rfl⟩ := step
    refine h.setPhase (fun j => ?_)
    rw [hphase]
    cases queued with
    | false => simp [Phase.asleep]
    | true => simp [Phase.asleep]
  | resume t =>
    obtain ⟨i, hphase, rfl⟩ := step
    exact h.resume hphase

theorem Recorded.initialised {w : World} (h : Initialised w) : Recorded w := by
  obtain ⟨hdevices, -, hhint, hphase, -⟩ := h
  have hnobody : ∀ i, (w.manager.devices i).waitingTask = none := by
    intro i
    obtain ⟨queue, hdevice⟩ := hdevices i
    rw [hdevice]
    rfl
  refine ⟨by rw [hhint]; decide, fun i t => ?_, fun i t hi => ?_⟩
  · rw [hnobody, hphase]
    simp [Phase.asleep]
  · rw [hnobody] at hi
    exact absurd hi (by simp)

theorem unblockAll_blocked {w : World} {t : BitVec 64} {i : Nat} {tasks : List (BitVec 64)}
    (asleep : w.phase t = .blocked i false) (woken : t ∈ tasks) :
    (w.unblockAll tasks).phase t = .blocked i true := by
  rw [unblockAll_of_mem w woken, asleep]
  rfl

/-- In every run in which a task that waits is the only one on its vector, and is not preempted
between an early unblocking and its blocking, a task that has blocked and is in no run queue is
recorded by its vector; the next interrupt, the deallocation of the vector and the clean-up of
the process each wake it. -/
theorem waiters_are_recorded {w : World} (h : Reachable (msiCalls.restrict WaitGuard) w)
    (t : BitVec 64) (i : Nat) (asleep : w.phase t = .blocked i false) :
    (w.manager.devices i).waitingTask = some t ∧
    (∀ vector data now, msiValid vector = true → msiIndex vector = i →
      (w.interrupt vector data now).phase t = .blocked i true) ∧
    (∀ vector, msiValid vector = true → msiIndex vector = i →
      (w.deallocate vector (w.pidOf t)).phase t = .blocked i true) ∧
    (w.cleanup (w.pidOf t)).phase t = .blocked i true := by
  have hrecorded : Recorded w := by
    refine h.invariant Recorded (fun _ => Recorded.initialised) ?_
    exact fun _ _ _ hrecorded hstep => hrecorded.step hstep.1 hstep.2
  have hwaiting := (hrecorded.waiting i t).mpr (Or.inr asleep)
  obtain ⟨hlt, hused, hempty, howner⟩ := hrecorded.used i t hwaiting
  refine ⟨hwaiting, fun vector data now hvalid hindex => ?_, fun vector hvalid hindex => ?_, ?_⟩
  · subst hindex
    rcases w.interrupt_cases vector data now with
      ⟨hnot, -⟩ | ⟨-, -, ⟨hfull, -⟩ | ⟨-, heq⟩⟩
    · exact absurd ⟨hvalid, hused⟩ hnot
    · rw [hempty] at hfull
      exact absurd hfull (by decide)
    · rw [heq]
      exact unblockAll_blocked asleep (by rw [Option.mem_toList, hwaiting])
  · subst hindex
    rcases w.deallocate_cases vector (w.pidOf t) with ⟨hnot, -⟩ | ⟨-, -, -, heq⟩
    · exact absurd ⟨hvalid, hused, howner⟩ hnot
    · rw [heq]
      exact unblockAll_blocked asleep (by rw [Option.mem_toList, hwaiting])
  · refine unblockAll_blocked asleep ((mem_wakeList w.manager (w.pidOf t) t).mpr ⟨i, ?_, hwaiting⟩)
    simp [MSIManager.cleans, hlt, hused, howner]

/-- The first task has blocked and its vector knows it. -/
theorem waiters_are_recorded_first : blockedWorld.phase firstTask = .blocked 0 false ∧
    (blockedWorld.manager.devices 0).waitingTask = some firstTask ∧
    (blockedWorld.interrupt firstVector 7 1).phase firstTask = .blocked 0 true := by
  have hreach := blockedWorld_reachable.restrict_mono fun _ _ h => h.2
  obtain ⟨hwaiting, hinterrupt, -, -⟩ := waiters_are_recorded hreach firstTask 0 rfl
  exact ⟨rfl, hwaiting, hinterrupt firstVector 7 1 rfl rfl⟩

/-- A second task of the process waits for the same vector, and the first one is forgotten. -/
theorem second_waiter_replaces_first : ∃ w, Reachable msiCalls w ∧
    w.phase firstTask = .blocked 0 false ∧
    (w.manager.devices 0).waitingTask ≠ some firstTask := by
  have hwaits := Reachable.next (a := Call.wait secondTask firstVector)
    blockedWorld_reachable.of_restrict ⟨rfl, rfl⟩
  have hblocked := Reachable.next (a := Call.block secondTask) hwaits ⟨0, false, rfl, rfl⟩
  exact ⟨_, hblocked, rfl, by decide⟩

end Msi
