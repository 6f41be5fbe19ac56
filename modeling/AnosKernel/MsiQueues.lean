import AnosKernel.Lib.Probing
import AnosKernel.Lib.Queues
import AnosKernel.Msi

/-!
# Vectors as bounded queues

What the callers of `kernel/arch/x86_64/msi.c` can tell from its answers: to whom each vector has
been given, and what has happened to the interrupts on it since. The ledger is kept from the
arguments and the results of the calls alone and never looks into a device. Every device is a
queue of `MSI_QUEUE_SIZE` events with the ledger's history, and belongs to the one process the
ledger has for it.
-/

namespace Msi

open Runs Rings Queues

/-- `msi_verify_ownership`. -/
def msiVerifyOwnership (m : MSIManager) (vector : BitVec 8) (pid : BitVec 64) : Bool :=
  let i := msiIndex vector
  msiValid vector && m.allocatedVectors i && (m.devices i).ownerPid == pid

/-- The result of `msi_allocate_vector`. -/
def msiAllocatedVector (cpus : List (BitVec 8)) (m : MSIManager) (busDeviceFunc : BitVec 32)
    (ownerPid now : BitVec 64) : BitVec 8 :=
  match msiAllocateVector cpus m busDeviceFunc ownerPid now with
  | some (grant, _) => grant.vector
  | none => 0

/-- What `msi_wait_interrupt` stores in `event_data` if it does not block. -/
def WaitStart.eventData : WaitStart → Option (BitVec 32)
  | .event e _ => some e.data
  | _ => none

/-- What `msi_wait_interrupt` stores in `event_data` after it has blocked. -/
def resumedEventData (m : MSIManager) (i : Nat) : Option (BitVec 32) :=
  (msiWaitResumed m i).map fun (e, _) => e.data

/-! ## The ledger -/

/-- For the index of each vector the processes that have been given it and have not released it,
and the history of its queue since it was last given away. -/
structure Ledger where
  holders : Nat → List (BitVec 64)
  history : Nat → History (BitVec 32)

def Ledger.blank : Ledger where
  holders := fun _ => []
  history := fun _ => .empty

def Ledger.grant (l : Ledger) (i : Nat) (pid : BitVec 64) : Ledger where
  holders := Function.update l.holders i (pid :: l.holders i)
  history := Function.update l.history i .empty

def Ledger.release (l : Ledger) (i : Nat) (pid : BitVec 64) : Ledger :=
  { l with holders := Function.update l.holders i ((l.holders i).erase pid) }

def Ledger.releaseAll (l : Ledger) (pid : BitVec 64) : Ledger :=
  { l with holders := fun i => (l.holders i).filter (· != pid) }

/-- An interrupt on a vector that nobody holds is not for any queue. -/
def Ledger.arrive (l : Ledger) (i : Nat) (data : BitVec 32) : Ledger :=
  if (l.holders i).isEmpty then l
  else { l with history := Function.update l.history i ((l.history i).offer msiQueueSize data) }

/-- The call returns an event, if any. -/
def Ledger.answer (l : Ledger) (i : Nat) : Option (BitVec 32) → Ledger
  | some data => { l with history := Function.update l.history i ((l.history i).take data) }
  | none => l

/-- The ledger after a call in the state `w`. -/
def Ledger.record (l : Ledger) (w : World) : Call → Ledger
  | .allocate cpus busDeviceFunc ownerPid now =>
    let vector := msiAllocatedVector cpus w.manager busDeviceFunc ownerPid now
    if vector = 0 then l else l.grant (msiIndex vector) ownerPid
  | .deallocate vector ownerPid =>
    if (msiDeallocateVector w.manager vector ownerPid).isSome then
      l.release (msiIndex vector) ownerPid
    else l
  | .interrupt vector data _ => if msiValid vector then l.arrive (msiIndex vector) data else l
  | .cleanup pid => l.releaseAll pid
  | .wait t vector =>
    l.answer (msiIndex vector) (msiWaitInterrupt w.manager vector t (w.pidOf t)).eventData
  | .reschedule _ => l
  | .block _ => l
  | .resume t =>
    match w.phase t with
    | .blocked i _ => l.answer i (resumedEventData w.manager i)
    | _ => l

/-- The calls, with the ledger kept beside them. -/
def msiLedger : System (World × Ledger) Call where
  init := fun s => Initialised s.1 ∧ s.2 = .blank
  step := fun s call s' => Step s.1 call s'.1 ∧ s'.2 = s.2.record s.1 call

/-! ## What the calls return -/

theorem findFree_none {allocated : Nat → Bool} {n i : Nat} (h : findFree allocated n i = none)
    (start : i < msiVectorCount) {k : Nat} (hk : k < n) :
    allocated ((i + k) % msiVectorCount) = true := by
  induction n generalizing i k with
  | zero => exact absurd hk (Nat.not_lt_zero k)
  | succ n ih =>
    rw [findFree] at h
    split_ifs at h with hused
    cases k with
    | zero =>
      rw [Nat.add_zero, Nat.mod_eq_of_lt start]
      exact hused
    | succ k =>
      have hnext := ih h (Nat.mod_lt _ (by decide)) (Nat.lt_of_succ_lt_succ hk)
      rw [Nat.mod_add_mod, Nat.add_assoc, Nat.add_comm 1 k] at hnext
      exact hnext

/-- The search goes round all vectors before it gives up. -/
theorem allocated_of_findFree_none {allocated : Nat → Bool} {i j : Nat}
    (h : findFree allocated msiVectorCount i = none) (start : i < msiVectorCount)
    (hj : j < msiVectorCount) : allocated j = true := by
  have hround := findFree_none h start (Probing.dist_lt start hj)
  rwa [Probing.at_dist start hj] at hround

theorem vectorOf_ne_zero {i : Nat} (h : i < msiVectorCount) :
    BitVec.ofNat 8 (msiVectorBase + i) ≠ 0 := by
  intro hzero
  have hcount : msiVectorCount = 160 := rfl
  have hbase : msiVectorBase = 64 := rfl
  have hnat := congrArg BitVec.toNat hzero
  rw [BitVec.toNat_ofNat, hbase, Nat.mod_eq_of_lt (by omega)] at hnat
  exact absurd hnat (by simp)

/-- An allocation gives away a free vector, or there is none and it returns 0. -/
theorem allocate_result {w : World} (hint : w.manager.nextVectorHint < msiVectorCount)
    (cpus : List (BitVec 8)) (busDeviceFunc : BitVec 32) (ownerPid now : BitVec 64) :
    (msiAllocatedVector cpus w.manager busDeviceFunc ownerPid now = 0 ∧
      w.allocate cpus busDeviceFunc ownerPid now = w ∧
      ∀ i < msiVectorCount, w.manager.allocatedVectors i = true) ∨
    ∃ i < msiVectorCount, w.manager.allocatedVectors i = false ∧
      msiAllocatedVector cpus w.manager busDeviceFunc ownerPid now =
        BitVec.ofNat 8 (msiVectorBase + i) ∧
      (w.allocate cpus busDeviceFunc ownerPid now).manager =
        { devices := Function.update w.manager.devices i
            (allocatedDevice (w.manager.devices i) i busDeviceFunc ownerPid now)
          allocatedVectors := Function.update w.manager.allocatedVectors i true
          nextVectorHint := (i + 1) % msiVectorCount } := by
  rw [msiAllocatedVector, World.allocate, msiAllocateVector]
  cases hfree : findFree w.manager.allocatedVectors msiVectorCount w.manager.nextVectorHint with
  | none => exact Or.inl ⟨rfl, rfl, fun i hi => allocated_of_findFree_none hfree hint hi⟩
  | some i =>
    obtain ⟨hi, hunused⟩ := findFree_spec hint hfree
    exact Or.inr ⟨i, hi, hunused, rfl, rfl⟩

/-- What `msi_wait_interrupt` does to the devices before it blocks, and what it returns. -/
theorem wait_result (m : MSIManager) (vector : BitVec 8) (t pid : BitVec 64) :
    msiWaitInterrupt m vector t pid = .refused ∨
    (∃ e d, msiQueuePop (m.devices (msiIndex vector)) = some (e, d) ∧
      msiWaitInterrupt m vector t pid = .event e (m.setDevice (msiIndex vector) d)) ∨
    msiWaitInterrupt m vector t pid = .waits (msiIndex vector) (m.setDevice (msiIndex vector)
      { m.devices (msiIndex vector) with waitingTask := some t }) := by
  simp only [msiWaitInterrupt]
  split_ifs
  · cases hpop : msiQueuePop (m.devices (msiIndex vector)) with
    | some result => exact Or.inr (Or.inl ⟨result.1, result.2, rfl, rfl⟩)
    | none => exact Or.inr (Or.inr rfl)
  · exact Or.inl rfl

/-! ## Devices that agree with the ledger -/

/-- The data words of the events of the device that have not been returned, oldest first. -/
def MSIDevice.queued (d : MSIDevice) : List (BitVec 32) := d.pending.map MSIEvent.data

theorem MSIDevice.length_queued (d : MSIDevice) : d.queued.length = d.count := by
  rw [MSIDevice.queued, MSIDevice.pending, entries, List.length_map, List.length_map,
    List.length_range]

/-- What the ledger has for the vector is true of its device. -/
structure MSIDevice.Agrees (d : MSIDevice) (allocated : Bool) (holders : List (BitVec 64))
    (history : History (BitVec 32)) : Prop where
  holders : holders = if allocated then [d.ownerPid] else []
  wellFormed : d.WellFormed
  leaves : history.Leaves msiQueueSize d.queued
  refused : d.overflowCount = BitVec.ofNat 32 history.refused

section Device

variable {d : MSIDevice} {allocated : Bool} {holders : List (BitVec 64)}
  {history : History (BitVec 32)}

/-- A device with an empty queue and nothing refused. -/
theorem MSIDevice.Agrees.fresh (same : holders = if allocated then [d.ownerPid] else [])
    (head : d.head = 0) (tail : d.tail = 0) (count : d.count = 0) (overflow : d.overflowCount = 0) :
    d.Agrees allocated holders .empty := by
  refine ⟨same, ⟨?_, ?_, ?_⟩, ?_, overflow⟩
  · rw [head, tail, count]
    rfl
  · rw [tail]
    decide
  · rw [count]
    exact Nat.zero_le _
  · have hempty : d.queued = [] := by
      rw [MSIDevice.queued, MSIDevice.pending, count]
      rfl
    rw [hempty]
    exact History.leaves_empty

/-- Who owns the vector and who waits for it are not in the queue. -/
theorem MSIDevice.Agrees.congr {d' : MSIDevice} {allocated' : Bool} {holders' : List (BitVec 64)}
    (h : d.Agrees allocated holders history)
    (same : holders' = if allocated' then [d'.ownerPid] else [])
    (queue : d'.queue = d.queue) (head : d'.head = d.head) (tail : d'.tail = d.tail)
    (count : d'.count = d.count) (overflow : d'.overflowCount = d.overflowCount) :
    d'.Agrees allocated' holders' history := by
  refine ⟨same, ⟨?_, ?_, ?_⟩, ?_, overflow.trans h.refused⟩
  · rw [head, tail, count]
    exact h.wellFormed.head
  · rw [tail]
    exact h.wellFormed.tail
  · rw [count]
    exact h.wellFormed.count
  · have hqueued : d'.queued = d.queued := by
      rw [MSIDevice.queued, MSIDevice.pending, queue, tail, count]
      rfl
    rw [hqueued]
    exact h.leaves

theorem MSIDevice.Agrees.freed (h : d.Agrees allocated holders history) :
    d.freed.Agrees false [] history :=
  h.congr rfl rfl rfl rfl rfl rfl

/-- An interrupt that finds room is accepted. -/
theorem MSIDevice.Agrees.push (h : d.Agrees allocated holders history)
    (room : d.count < msiQueueSize) (data : BitVec 32) (now : BitVec 64) :
    { msiQueuePush d data now with waitingTask := none }.Agrees allocated holders
      (history.offer msiQueueSize data) := by
  obtain ⟨hwell, hpending⟩ := h.wellFormed.push room data now
  obtain ⟨hleaves, hrefused⟩ := h.leaves.offer_room (d.length_queued ▸ room) data
  have hqueued : (msiQueuePush d data now).queued = d.queued ++ [data] := by
    rw [MSIDevice.queued, hpending, List.map_append]
    rfl
  refine ⟨h.holders, ⟨hwell.head, hwell.tail, hwell.count⟩, hqueued ▸ hleaves, ?_⟩
  rw [hrefused]
  exact h.refused

/-- An interrupt that finds the queue full is counted. -/
theorem MSIDevice.Agrees.overflow (h : d.Agrees allocated holders history)
    (full : msiQueueSize ≤ d.count) (data : BitVec 32) (slow : Bool) :
    { d with overflowCount := d.overflowCount + 1, slowConsumerDetected := slow }.Agrees allocated
      holders (history.offer msiQueueSize data) := by
  obtain ⟨hleaves, hrefused⟩ := h.leaves.offer_full (d.length_queued ▸ full) data
  refine ⟨h.holders, ⟨h.wellFormed.head, h.wellFormed.tail, h.wellFormed.count⟩, hleaves, ?_⟩
  rw [hrefused, BitVec.ofNat_add, ← h.refused]
  rfl

/-- A pop returns the data word of the oldest event. -/
theorem MSIDevice.Agrees.pop {d' : MSIDevice} {e : MSIEvent}
    (h : d.Agrees allocated holders history) (run : msiQueuePop d = some (e, d')) :
    d'.Agrees allocated holders (history.take e.data) := by
  obtain ⟨hwell, hpending⟩ := h.wellFormed.pop run
  obtain ⟨howner, -⟩ := msiQueuePop_keeps run
  have hqueued : d.queued = e.data :: d'.queued := by
    rw [MSIDevice.queued, hpending, List.map_cons]
    rfl
  have hoverflow : d'.overflowCount = d.overflowCount := by
    rw [msiQueuePop] at run
    split_ifs at run
    rw [← (Prod.mk.inj (Option.some.inj run)).2]
  refine ⟨howner ▸ h.holders, hwell, ?_, hoverflow.trans h.refused⟩
  exact History.Leaves.take (hqueued ▸ h.leaves)

end Device

/-! ## Runs -/

/-- The ledger is true of every vector. -/
structure Ledger.Agrees (l : Ledger) (m : MSIManager) : Prop where
  hint : m.nextVectorHint < msiVectorCount
  bound : ∀ i, m.allocatedVectors i = true → i < msiVectorCount
  vectors : ∀ i, (m.devices i).Agrees (m.allocatedVectors i) (l.holders i) (l.history i)

namespace Ledger.Agrees

variable {l : Ledger} {w : World}

/-- A call that changes one device and what the ledger has of its queue. -/
theorem update {m : MSIManager} (h : l.Agrees m) {i : Nat} {d : MSIDevice}
    {history : History (BitVec 32)}
    (agrees : d.Agrees (m.allocatedVectors i) (l.holders i) history) :
    Ledger.Agrees { l with history := Function.update l.history i history } (m.setDevice i d) := by
  refine ⟨h.hint, h.bound, fun j => ?_⟩
  by_cases hj : j = i
  · subst hj
    simpa [MSIManager.setDevice] using agrees
  · simpa [MSIManager.setDevice, hj] using h.vectors j

/-- A call that changes who waits for a vector. -/
theorem setWaiting {m : MSIManager} (h : l.Agrees m) (i : Nat) (waiting : Option (BitVec 64)) :
    l.Agrees (m.setDevice i { m.devices i with waitingTask := waiting }) := by
  have hdevice : { m.devices i with waitingTask := waiting }.Agrees (m.allocatedVectors i)
      (l.holders i) (l.history i) := (h.vectors i).congr (h.vectors i).holders rfl rfl rfl rfl rfl
  have hsame := h.update hdevice
  rwa [Function.update_eq_self] at hsame

theorem allocate (h : l.Agrees w.manager) (cpus : List (BitVec 8)) (busDeviceFunc : BitVec 32)
    (ownerPid now : BitVec 64) :
    (l.record w (.allocate cpus busDeviceFunc ownerPid now)).Agrees
      (w.allocate cpus busDeviceFunc ownerPid now).manager := by
  rw [Ledger.record]
  rcases allocate_result h.hint cpus busDeviceFunc ownerPid now with
    ⟨hzero, hsame, -⟩ | ⟨i, hi, hfree, hvector, hmanager⟩
  · rw [if_pos hzero, hsame]
    exact h
  · have hne := vectorOf_ne_zero hi
    rw [hvector, if_neg hne, msiIndex_ofNat hi, hmanager]
    refine ⟨Nat.mod_lt _ (by decide), fun j hj => ?_, fun j => ?_⟩
    · by_cases hji : j = i
      · exact hji ▸ hi
      · exact h.bound j (by simpa [hji] using hj)
    · by_cases hji : j = i
      · subst hji
        have hnone : l.holders j = [] := by
          rw [(h.vectors j).holders, hfree]
          rfl
        have hfresh : (allocatedDevice (w.manager.devices j) j busDeviceFunc ownerPid now).Agrees
            true [ownerPid] .empty := .fresh rfl rfl rfl rfl rfl
        simpa [Ledger.grant, hnone] using hfresh
      · simpa [Ledger.grant, hji] using h.vectors j

theorem deallocate (h : l.Agrees w.manager) (vector : BitVec 8) (ownerPid : BitVec 64) :
    (l.record w (.deallocate vector ownerPid)).Agrees (w.deallocate vector ownerPid).manager := by
  rw [Ledger.record, World.deallocate]
  cases hrun : msiDeallocateVector w.manager vector ownerPid with
  | none => simpa using h
  | some result =>
    simp only [msiDeallocateVector] at hrun
    split_ifs at hrun with hmay
    simp only [Bool.and_eq_true, beq_iff_eq] at hmay
    obtain ⟨⟨-, hused⟩, howner⟩ := hmay
    have hheld : l.holders (msiIndex vector) = [ownerPid] := by
      rw [(h.vectors _).holders, hused, howner]
      rfl
    obtain rfl := Option.some.inj hrun
    refine ⟨h.hint, fun j hj => ?_, fun j => ?_⟩
    · by_cases hji : j = msiIndex vector
      · simp [World.unblockAll, hji] at hj
      · exact h.bound j (by simpa [World.unblockAll, hji] using hj)
    · by_cases hji : j = msiIndex vector
      · subst hji
        simpa [World.unblockAll, MSIManager.setDevice, Ledger.release, hheld] using
          (h.vectors _).freed
      · simpa [World.unblockAll, MSIManager.setDevice, Ledger.release, hji] using h.vectors j

theorem cleanup (h : l.Agrees w.manager) (pid : BitVec 64) :
    (l.record w (.cleanup pid)).Agrees (w.cleanup pid).manager := by
  refine ⟨h.hint, fun j hj => ?_, fun j => ?_⟩
  · simp only [World.cleanup, msiCleanupProcess, World.unblockAll] at hj
    split_ifs at hj
    exact h.bound j hj
  · have hdevice := h.vectors j
    simp only [World.cleanup, msiCleanupProcess, World.unblockAll, Ledger.record,
      Ledger.releaseAll]
    split_ifs with hclean
    · simp only [MSIManager.cleans, Bool.and_eq_true, beq_iff_eq] at hclean
      have hheld : l.holders j = [pid] := by
        rw [hdevice.holders, hclean.1.2, hclean.2]
        rfl
      simpa [hheld] using hdevice.freed
    · -- a vector in use that is not cleaned belongs to another process
      have hother : (l.holders j).filter (· != pid) = l.holders j := by
        rw [hdevice.holders]
        split_ifs with hused
        · have hne : (w.manager.devices j).ownerPid ≠ pid := fun heq =>
            hclean (by simp [MSIManager.cleans, h.bound j hused, hused, heq])
          simp [hne]
        · rfl
      rw [hother]
      exact hdevice

theorem interrupt (h : l.Agrees w.manager) (vector : BitVec 8) (data : BitVec 32)
    (now : BitVec 64) :
    (l.record w (.interrupt vector data now)).Agrees (w.interrupt vector data now).manager := by
  have hdevice := h.vectors (msiIndex vector)
  rw [Ledger.record, Ledger.arrive, hdevice.holders]
  rcases w.interrupt_cases vector data now with ⟨hmay, heq⟩ | ⟨hvalid, hused, hcases⟩
  · rw [heq, unblockAll_nil]
    by_cases hvalid : msiValid vector = true
    · have hunused : w.manager.allocatedVectors (msiIndex vector) = false := by
        simpa using fun hused => hmay ⟨hvalid, hused⟩
      simpa [hvalid, hunused] using h
    · simpa [hvalid] using h
  · rw [hused, if_pos hvalid]
    rcases hcases with ⟨hfull, slow, heq⟩ | ⟨hroom, heq⟩
    · rw [heq]
      exact h.update (hdevice.overflow hfull data slow)
    · rw [heq]
      exact h.update (hdevice.push hroom data now)

theorem wait (h : l.Agrees w.manager) (t : BitVec 64) (vector : BitVec 8) :
    (l.record w (.wait t vector)).Agrees (w.wait t vector).manager := by
  rw [Ledger.record, World.wait]
  rcases wait_result w.manager vector t (w.pidOf t) with hstart | ⟨e, d, hpop, hstart⟩ | hstart
  · rw [hstart]
    exact h
  · rw [hstart]
    exact h.update ((h.vectors _).pop hpop)
  · rw [hstart]
    exact h.setWaiting _ _

theorem resume (h : l.Agrees w.manager) (t : BitVec 64) (i : Nat) :
    (l.answer i (resumedEventData w.manager i)).Agrees (w.resume t i).manager := by
  rw [resumedEventData, World.resume, msiWaitResumed]
  cases hpop : msiQueuePop (w.manager.devices i) with
  | none => exact h
  | some result => exact h.update ((h.vectors i).pop hpop)

theorem step {w' : World} {call : Call} (h : l.Agrees w.manager) (step : Step w call w') :
    (l.record w call).Agrees w'.manager := by
  cases call with
  | allocate cpus bdf pid now =>
    obtain rfl := step
    exact h.allocate cpus bdf pid now
  | deallocate vector pid =>
    obtain rfl := step
    exact h.deallocate vector pid
  | interrupt vector data now =>
    obtain rfl := step
    exact h.interrupt vector data now
  | cleanup pid =>
    obtain rfl := step
    exact h.cleanup pid
  | wait t vector =>
    obtain ⟨-, rfl⟩ := step
    exact h.wait t vector
  | reschedule t =>
    obtain ⟨i, -, rfl⟩ := step
    exact h
  | block t =>
    obtain ⟨i, queued, -, rfl⟩ := step
    exact h
  | resume t =>
    obtain ⟨i, hphase, rfl⟩ := step
    rw [Ledger.record, hphase]
    exact h.resume t i

theorem initialised (h : Initialised w) : Ledger.blank.Agrees w.manager := by
  obtain ⟨hdevices, hfree, hhint, -, -⟩ := h
  refine ⟨by rw [hhint]; decide, fun i hi => ?_, fun i => ?_⟩
  · exact absurd hi (by simp [hfree])
  · obtain ⟨queue, hdevice⟩ := hdevices i
    rw [hdevice, hfree]
    exact .fresh rfl rfl rfl rfl rfl

end Ledger.Agrees

/-- The ledger is true in every run. -/
theorem ledger_agrees {w : World} {l : Ledger} (h : Reachable msiLedger (w, l)) :
    l.Agrees w.manager := by
  refine h.invariant (fun s => s.2.Agrees s.1.manager) ?_ ?_
  · rintro ⟨w, l⟩ ⟨hinit, rfl⟩
    exact Ledger.Agrees.initialised hinit
  · rintro ⟨w, l⟩ call ⟨w', l'⟩ hagrees ⟨hstep, rfl⟩
    exact hagrees.step hstep

/-- A process is told that it owns a vector if it has been given it and has not released it. -/
theorem msiVerifyOwnership_iff {w : World} {l : Ledger} (h : Reachable msiLedger (w, l))
    {vector : BitVec 8} (valid : msiValid vector = true) (pid : BitVec 64) :
    msiVerifyOwnership w.manager vector pid = true ↔ pid ∈ l.holders (msiIndex vector) := by
  rw [((ledger_agrees h).vectors _).holders, msiVerifyOwnership, valid]
  cases w.manager.allocatedVectors (msiIndex vector) with
  | false => simp
  | true => simpa using eq_comm

/-- In every run each vector is held by at most one process, `msi_allocate_vector` returns 0 only
when all vectors are held, and since a vector was given away the data words returned for it and
then those queued are in order those of the interrupts that found fewer than `MSI_QUEUE_SIZE`
events queued; `overflow_count` is the number of the other interrupts modulo 2^32. -/
theorem vectors_are_bounded_queues {w : World} {l : Ledger} (h : Reachable msiLedger (w, l)) :
    (∀ i, (l.holders i).length ≤ 1) ∧
    (∀ cpus busDeviceFunc ownerPid now,
      msiAllocatedVector cpus w.manager busDeviceFunc ownerPid now = 0 →
        ∀ i < msiVectorCount, l.holders i ≠ []) ∧
    ∀ i, l.holders i ≠ [] →
      (l.history i).accepted = (l.history i).taken ++ (w.manager.devices i).queued ∧
      (l.history i).waiting = (w.manager.devices i).count ∧
      (w.manager.devices i).count ≤ msiQueueSize ∧
      (w.manager.devices i).overflowCount = BitVec.ofNat 32 (l.history i).refused := by
  have hagrees := ledger_agrees h
  refine ⟨fun i => ?_, fun cpus busDeviceFunc ownerPid now hzero i hi => ?_, fun i _ => ?_⟩
  · rw [(hagrees.vectors i).holders]
    split_ifs
    · exact Nat.le_refl 1
    · exact Nat.zero_le 1
  · rcases allocate_result hagrees.hint cpus busDeviceFunc ownerPid now with
      ⟨-, -, hall⟩ | ⟨j, hj, -, hvector, -⟩
    · rw [(hagrees.vectors i).holders, hall i hi]
      exact List.cons_ne_nil _ _
    · exact absurd (hvector.symm.trans hzero) (vectorOf_ne_zero hj)
  · have hvector := hagrees.vectors i
    refine ⟨hvector.leaves.accepted, ?_, hvector.wellFormed.count, hvector.refused⟩
    rw [hvector.leaves.waiting, MSIDevice.length_queued]

/-- The ledger after the first process has been given the first vector. -/
def firstLedger : Ledger := Ledger.blank.grant 0 firstPid

theorem firstLedger_reachable :
    Reachable msiLedger (freshWorld.allocate [] 0 firstPid 0, firstLedger) :=
  Reachable.next (a := Call.allocate [] 0 firstPid 0)
    (s := (freshWorld, Ledger.blank)) (.start ⟨initialised_freshWorld, rfl⟩) ⟨rfl, rfl⟩

/-- An interrupt on the first vector while the first process holds it. -/
theorem firstVector_interrupt {w : World} {l : Ledger} (h : Reachable msiLedger (w, l))
    (held : l.holders 0 = [firstPid]) (data : BitVec 32) :
    ∃ w', Reachable msiLedger (w', { l with
      history := Function.update l.history 0 ((l.history 0).offer msiQueueSize data) }) := by
  have hnext := Reachable.next (a := Call.interrupt firstVector data 0)
    (t := (w.interrupt firstVector data 0, l.record w (.interrupt firstVector data 0))) h ⟨rfl, rfl⟩
  have hindex : msiIndex firstVector = 0 := by decide
  have hvalid : msiValid firstVector = true := by decide
  rw [Ledger.record, if_pos hvalid, Ledger.arrive, hindex, held] at hnext
  exact ⟨_, hnext⟩

theorem vectors_are_bounded_queues_first : ∃ w l, Reachable msiLedger (w, l) ∧
    l.holders 0 = [firstPid] ∧ (l.history 0).accepted = [7] ∧
    (l.history 0).taken ++ (w.manager.devices 0).queued = [7] := by
  obtain ⟨w, hw⟩ := firstVector_interrupt firstLedger_reachable rfl 7
  refine ⟨w, _, hw, rfl, rfl, ?_⟩
  exact ((vectors_are_bounded_queues hw).2.2 0 (by decide)).1.symm

/-- The first process holds the first vector, its queue is full, and `n` more interrupts have
come. -/
theorem exists_flooded (n : Nat) : ∃ w l, Reachable msiLedger (w, l) ∧
    l.holders 0 = [firstPid] ∧ (l.history 0).waiting = msiQueueSize ∧
    (l.history 0).refused = n := by
  induction n with
  | zero =>
    obtain ⟨_, h1⟩ := firstVector_interrupt firstLedger_reachable rfl 0
    obtain ⟨_, h2⟩ := firstVector_interrupt h1 rfl 0
    obtain ⟨_, h3⟩ := firstVector_interrupt h2 rfl 0
    obtain ⟨w, h4⟩ := firstVector_interrupt h3 rfl 0
    exact ⟨w, _, h4, rfl, by decide, by decide⟩
  | succ n ih =>
    obtain ⟨w, l, h, held, hfull, hrefused⟩ := ih
    obtain ⟨w', h'⟩ := firstVector_interrupt h held 0
    have hoffer : (l.history 0).offer msiQueueSize 0 =
        { l.history 0 with refused := n + 1 } := by
      rw [History.offer, hfull, if_neg (Nat.lt_irrefl _), hrefused]
    refine ⟨w', _, h', held, ?_, ?_⟩
    · simp only [Function.update_self, hoffer]
      exact hfull
    · simp only [Function.update_self, hoffer]

/-- The counter wraps around: it is 0 after 2^32 interrupts have been turned away. -/
theorem overflow_count_wraps : ∃ w l, Reachable msiLedger (w, l) ∧ l.holders 0 = [firstPid] ∧
    (l.history 0).refused = 2 ^ 32 ∧ (w.manager.devices 0).overflowCount.toNat = 0 := by
  obtain ⟨w, l, h, held, -, hrefused⟩ := exists_flooded (2 ^ 32)
  refine ⟨w, l, h, held, hrefused, ?_⟩
  rw [((ledger_agrees h).vectors 0).refused, hrefused]
  rfl

end Msi
