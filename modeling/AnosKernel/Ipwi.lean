import AnosKernel.Lib.Windows
import Mathlib.Data.BitVec
import Mathlib.Logic.Function.Basic

/-!
# Work items between processors

`kernel/smp/ipwi.c` with `kernel/structs/shift_array.c`: every CPU has a queue of work items, which
the others append to and which it drains in `ipwi_ipi_handler`. The queue is an array that is
filled from its middle on.
-/

namespace Ipwi

open Windows

/-! ## Shift-to-middle arrays -/

/-- The elements are `data head`, …, `data (tail - 1)`. -/
structure ShiftToMiddleArray (α : Type) where
  data : Nat → α
  head : Nat
  tail : Nat
  capacity : Nat
  ordered : head ≤ tail

section Arrays

variable {α : Type}

/-- `shift_array_resize`; `blocks` is the answer of `fba_calloc_blocks`. -/
def shiftArrayResize (arr : ShiftToMiddleArray α) :
    Option (Nat → α) → Option (ShiftToMiddleArray α)
  | none => none
  | some newData =>
    let newCapacity := arr.capacity * 2
    let newHead := (newCapacity - (arr.tail - arr.head)) / 2
    some {
      data := fun j =>
        if newHead ≤ j ∧ j < newHead + (arr.tail - arr.head) then arr.data (arr.head + (j - newHead))
        else newData j
      head := newHead
      tail := newHead + (arr.tail - arr.head)
      capacity := newCapacity
      ordered := Nat.le_add_right _ _ }

def shiftArrayInsertTail (arr : ShiftToMiddleArray α) (value : α) (blocks : Option (Nat → α)) :
    Bool × ShiftToMiddleArray α :=
  match if arr.tail = arr.capacity then shiftArrayResize arr blocks else some arr with
  | none => (false, arr)
  | some arr =>
    (true, { arr with
      data := Function.update arr.data arr.tail value
      tail := arr.tail + 1
      ordered := Nat.le_succ_of_le arr.ordered })

def shiftArrayRemoveHead (arr : ShiftToMiddleArray α) : ShiftToMiddleArray α :=
  if h : arr.head < arr.tail then { arr with head := arr.head + 1, ordered := h } else arr

def shiftArrayGetHead (arr : ShiftToMiddleArray α) : Option α :=
  if arr.head < arr.tail then some (arr.data arr.head) else none

def ShiftToMiddleArray.contents (arr : ShiftToMiddleArray α) : List α :=
  (List.range (arr.tail - arr.head)).map fun i => arr.data (arr.head + i)

variable {arr : ShiftToMiddleArray α} {value : α} {blocks : Option (Nat → α)}

theorem contents_eq_window (arr : ShiftToMiddleArray α) :
    arr.contents = window arr.data arr.head (arr.tail - arr.head) := rfl

/-- Writing the slot behind the last element appends an element. -/
theorem contents_push (arr : ShiftToMiddleArray α) (value : α) :
    ({ arr with
      data := Function.update arr.data arr.tail value
      tail := arr.tail + 1
      ordered := Nat.le_succ_of_le arr.ordered } : ShiftToMiddleArray α).contents =
      arr.contents ++ [value] := by
  have hlength : arr.tail + 1 - arr.head = arr.tail - arr.head + 1 := Nat.sub_add_comm arr.ordered
  have hlast : arr.head + (arr.tail - arr.head) = arr.tail := Nat.add_sub_cancel' arr.ordered
  rw [contents_eq_window, contents_eq_window]
  simp only
  rw [hlength, window_concat, hlast, Function.update_self]
  congr 1
  apply window_congr
  intro k hk
  exact Function.update_of_ne (by omega) _ _

theorem contents_insertTail (room : arr.tail ≠ arr.capacity) :
    (shiftArrayInsertTail arr value blocks).2.contents = arr.contents ++ [value] := by
  simp only [shiftArrayInsertTail, if_neg room]
  exact contents_push arr value

/-- The larger array has the same elements. -/
theorem contents_resize {arr' : ShiftToMiddleArray α}
    (h : shiftArrayResize arr blocks = some arr') : arr'.contents = arr.contents := by
  cases blocks with
  | none => exact absurd h (by simp [shiftArrayResize])
  | some newData =>
    obtain rfl := Option.some.inj h
    rw [contents_eq_window, contents_eq_window]
    simp only [Nat.add_sub_cancel_left]
    apply window_congr
    intro k hk
    rw [if_pos ⟨Nat.le_add_right _ k, Nat.add_lt_add_left hk _⟩, Nat.add_sub_cancel_left]

/-- An insertion fails exactly if a larger array is needed and there is no memory for it. -/
theorem shiftArrayInsertTail_iff (arr : ShiftToMiddleArray α) (value : α)
    (blocks : Option (Nat → α)) : (shiftArrayInsertTail arr value blocks).1 = true ↔
      (arr.tail = arr.capacity → blocks.isSome) := by
  rw [shiftArrayInsertTail]
  by_cases hfull : arr.tail = arr.capacity
  · cases blocks with
    | none => simp [hfull, shiftArrayResize]
    | some newData => simp [hfull, shiftArrayResize]
  · simp [hfull]

/-- An insertion that succeeds appends its value, another one leaves the array as it is. -/
theorem shiftArrayInsertTail_contents (arr : ShiftToMiddleArray α) (value : α)
    (blocks : Option (Nat → α)) : (shiftArrayInsertTail arr value blocks).2.contents =
      if (shiftArrayInsertTail arr value blocks).1 then arr.contents ++ [value]
      else arr.contents := by
  by_cases hfull : arr.tail = arr.capacity
  · cases hresize : shiftArrayResize arr blocks with
    | none => simp only [shiftArrayInsertTail, if_pos hfull, hresize, Bool.false_eq_true, if_false]
    | some arr' =>
      simp only [shiftArrayInsertTail, if_pos hfull, hresize, if_true]
      rw [contents_push, contents_resize hresize]
  · rw [contents_insertTail hfull]
    simp only [shiftArrayInsertTail, if_neg hfull, if_true]

theorem contents_eq_nil (empty : ¬ arr.head < arr.tail) : arr.contents = [] :=
  window_eq_nil_iff.mpr (by omega)

theorem contents_eq_cons (nonempty : arr.head < arr.tail) :
    arr.contents = arr.data arr.head :: (shiftArrayRemoveHead arr).contents := by
  have hlength : arr.tail - arr.head = arr.tail - (arr.head + 1) + 1 := by omega
  rw [contents_eq_window, hlength, window_cons, shiftArrayRemoveHead, dif_pos nonempty]
  rfl

end Arrays

/-! ## Work items -/

def ipwiTypeRemoteExec : BitVec 32 := 1
def ipwiTypeTlbShootdown : BitVec 32 := 2
def ipwiTypePanicHalt : BitVec 32 := 3

structure IpwiPayloadTlbShootdown where
  startVaddr : BitVec 64
  pageCount : BitVec 64
  targetPid : BitVec 64
  targetPml4 : BitVec 64

/-- The payload is what the handler of a shootdown reads of it. -/
structure IpwiWorkItem where
  type : BitVec 32
  payload : IpwiPayloadTlbShootdown

structure Process where
  pid : BitVec 64
  pml4 : BitVec 64
  deriving DecidableEq

/-- `owner` is the owner of the task the CPU runs. -/
structure PerCpuState where
  ipwiQueue : ShiftToMiddleArray IpwiWorkItem
  owner : Process

/-- The states that the CPUs have registered; `cpuId` is the CPU that runs. -/
structure Cpus where
  cpuCount : BitVec 8
  cpuStates : BitVec 8 → Option PerCpuState
  cpuId : Nat
  blocks : BitVec 8 → Option (Nat → IpwiWorkItem)

def ipwiEnqueue (cpus : Cpus) (item : IpwiWorkItem) (cpuNum : BitVec 8) : Bool × Cpus :=
  if cpuNum > cpus.cpuCount then (false, cpus)
  else
    match cpus.cpuStates cpuNum with
    | none => (false, cpus)
    | some targetState =>
      (true, { cpus with
        cpuStates := Function.update cpus.cpuStates cpuNum (some { targetState with
          ipwiQueue :=
            (shiftArrayInsertTail targetState.ipwiQueue item (cpus.blocks cpuNum)).2 }) })

/-- The loop of `ipwi_enqueue_all_except_current` from CPU `i` on. -/
def enqueueLoop (item : IpwiWorkItem) : Nat → Nat → Cpus → Bool × Cpus
  | 0, _, cpus => (true, cpus)
  | turns + 1, i, cpus =>
    if i ≠ cpus.cpuId then
      match ipwiEnqueue cpus item (BitVec.ofNat 8 i) with
      | (false, cpus) => (false, cpus)
      | (true, cpus) => enqueueLoop item turns (i + 1) cpus
    else enqueueLoop item turns (i + 1) cpus

def ipwiEnqueueAllExceptCurrent (cpus : Cpus) (item : IpwiWorkItem) : Bool × Cpus :=
  enqueueLoop item cpus.cpuCount.toNat 0 cpus

def ipwiDequeueThisCpu (queue : ShiftToMiddleArray IpwiWorkItem) :
    Option IpwiWorkItem × ShiftToMiddleArray IpwiWorkItem :=
  (shiftArrayGetHead queue, shiftArrayRemoveHead queue)

/-- The addresses that a shootdown invalidates, from `addr` on. -/
def invalidateLoop (pageLimit : BitVec 64) : Nat → BitVec 64 → List (BitVec 64)
  | 0, _ => []
  | turns + 1, addr =>
    if addr < pageLimit then addr :: invalidateLoop pageLimit turns (addr + 0x1000) else []

/-- A shootdown in the handler of a CPU that runs a task of `owner`. -/
def handleShootdown (owner : Process) (payload : IpwiPayloadTlbShootdown) : List (BitVec 64) :=
  if payload.targetPid = owner.pid ∨ payload.targetPml4 = owner.pml4 then
    invalidateLoop (payload.startVaddr + payload.pageCount * 0x1000) payload.pageCount.toNat
      payload.startVaddr
  else []

/-- The loop of `ipwi_ipi_handler`: the addresses it has passed to `vmm_invalidate_page`, and
nothing where it halts the CPU. -/
def handlerLoop (owner : Process) : Nat → ShiftToMiddleArray IpwiWorkItem → List (BitVec 64) →
    Option (List (BitVec 64))
  | 0, _, invalidated => some invalidated
  | turns + 1, queue, invalidated =>
    match ipwiDequeueThisCpu queue with
    | (none, _) => some invalidated
    | (some item, queue) =>
      if item.type = ipwiTypeTlbShootdown then
        handlerLoop owner turns queue (invalidated ++ handleShootdown owner item.payload)
      else if item.type = ipwiTypePanicHalt then none
      else handlerLoop owner turns queue invalidated

/-- A turn takes an item, so there is one turn more than there are items. -/
def ipwiIpiHandler (state : PerCpuState) : Option (List (BitVec 64)) :=
  handlerLoop state.owner (state.ipwiQueue.tail - state.ipwiQueue.head + 1) state.ipwiQueue []

/-! ## Draining a queue -/

/-- What draining a list of items does. -/
def handled (owner : Process) : List IpwiWorkItem → Option (List (BitVec 64))
  | [] => some []
  | item :: items =>
    if item.type = ipwiTypeTlbShootdown then
      (handled owner items).map (handleShootdown owner item.payload ++ ·)
    else if item.type = ipwiTypePanicHalt then none
    else handled owner items

section Draining

variable {owner : Process} {queue : ShiftToMiddleArray IpwiWorkItem} {item : IpwiWorkItem}
  {items : List IpwiWorkItem} {turns : Nat} {invalidated trace : List (BitVec 64)}

theorem handlerLoop_eq (enough : queue.tail - queue.head < turns) :
    handlerLoop owner turns queue invalidated =
      (handled owner queue.contents).map (invalidated ++ ·) := by
  induction turns generalizing queue invalidated with
  | zero => omega
  | succ turns ih =>
    by_cases hitem : queue.head < queue.tail
    · have hrest : (shiftArrayRemoveHead queue).tail - (shiftArrayRemoveHead queue).head < turns := by
        rw [shiftArrayRemoveHead, dif_pos hitem]
        simp only
        omega
      rw [contents_eq_cons hitem, handled]
      simp only [handlerLoop, ipwiDequeueThisCpu, shiftArrayGetHead, if_pos hitem]
      split_ifs
      · rw [ih hrest, Option.map_map]
        congr 1
        funext rest
        exact List.append_assoc _ _ _
      · rfl
      · exact ih hrest
    · simp only [handlerLoop, ipwiDequeueThisCpu, shiftArrayGetHead, if_neg hitem]
      rw [contents_eq_nil hitem, handled, Option.map_some, List.append_nil]

/-- The handler passes every item of the queue, in order. -/
theorem ipwiIpiHandler_eq (state : PerCpuState) :
    ipwiIpiHandler state = handled state.owner state.ipwiQueue.contents := by
  rw [ipwiIpiHandler, handlerLoop_eq (Nat.lt_succ_self _)]
  cases handled state.owner state.ipwiQueue.contents <;> rfl

theorem ipwiIpiHandler_empty (state : PerCpuState)
    (empty : ¬ state.ipwiQueue.head < state.ipwiQueue.tail) : ipwiIpiHandler state = some [] := by
  rw [ipwiIpiHandler_eq, contents_eq_nil empty, handled]

/-- What the last item adds to a queue that is drained. -/
theorem handled_append (shootdown : item.type = ipwiTypeTlbShootdown) :
    handled owner (items ++ [item]) =
      (handled owner items).map (· ++ handleShootdown owner item.payload) := by
  induction items with
  | nil =>
    simp only [List.nil_append, handled, if_pos shootdown, Option.map_some, List.append_nil]
  | cons first items ih =>
    rw [List.cons_append, handled, handled, ih]
    split_ifs
    · rw [Option.map_map, Option.map_map]
      congr 1
      funext rest
      exact (List.append_assoc _ _ _).symm
    · rfl
    · rfl

end Draining

/-! ## Sending to the others -/

/-- What a CPU's state is after an item was appended to its queue. -/
def PerCpuState.queued (state : PerCpuState) (item : IpwiWorkItem)
    (blocks : Option (Nat → IpwiWorkItem)) : PerCpuState :=
  { state with ipwiQueue := (shiftArrayInsertTail state.ipwiQueue item blocks).2 }

section Sending

variable {cpus : Cpus} {item : IpwiWorkItem} {i turns : Nat} {cpuNum : BitVec 8}
  {state : PerCpuState}

theorem ipwiEnqueue_eq (known : cpuNum ≤ cpus.cpuCount) (registered : cpus.cpuStates cpuNum = some state) :
    ipwiEnqueue cpus item cpuNum = (true, { cpus with
      cpuStates := Function.update cpus.cpuStates cpuNum
        (some (state.queued item (cpus.blocks cpuNum))) }) := by
  have hknown : ¬ cpuNum > cpus.cpuCount := BitVec.not_lt.mpr known
  simp only [ipwiEnqueue, if_neg hknown, registered]
  rfl

theorem toNat_cpuNum {count : BitVec 8} (h : i < count.toNat) : (BitVec.ofNat 8 i).toNat = i := by
  have hcount := count.isLt
  rw [BitVec.toNat_ofNat]
  exact Nat.mod_eq_of_lt (by omega)

/-- Every CPU there is has registered its state. -/
def Cpus.Registered (cpus : Cpus) : Prop :=
  ∀ j < cpus.cpuCount.toNat, ∃ state, cpus.cpuStates (BitVec.ofNat 8 j) = some state

/-- The loop appends the item to every queue from CPU `i` on but its own. -/
theorem enqueueLoop_states (inside : i + turns = cpus.cpuCount.toNat)
    (registered : cpus.Registered) {j : Nat} (hj : j < cpus.cpuCount.toNat) :
    (enqueueLoop item turns i cpus).2.cpuStates (BitVec.ofNat 8 j) =
      (cpus.cpuStates (BitVec.ofNat 8 j)).map fun state =>
        if i ≤ j ∧ j ≠ cpus.cpuId then state.queued item (cpus.blocks (BitVec.ofNat 8 j))
        else state := by
  induction turns generalizing i cpus with
  | zero =>
    have hpassed : ¬ (i ≤ j ∧ j ≠ cpus.cpuId) := by omega
    simp [enqueueLoop, hpassed]
  | succ turns ih =>
    have hi : i < cpus.cpuCount.toNat := by omega
    by_cases hself : i ≠ cpus.cpuId
    · obtain ⟨state, hstate⟩ := registered i hi
      have hknown : BitVec.ofNat 8 i ≤ cpus.cpuCount := by
        rw [BitVec.le_def, toNat_cpuNum hi]
        exact Nat.le_of_lt hi
      simp only [enqueueLoop, if_pos hself, ipwiEnqueue_eq hknown hstate]
      rw [ih]
      · by_cases hji : j = i
        · subst hji
          simp [hstate, hself]
        · have hne : BitVec.ofNat 8 j ≠ BitVec.ofNat 8 i := by
            intro heq
            have hnat := congrArg BitVec.toNat heq
            rw [toNat_cpuNum hj, toNat_cpuNum hi] at hnat
            exact hji hnat
          have hle : i + 1 ≤ j ↔ i ≤ j := by omega
          simp only [Function.update_of_ne hne, hle]
      · exact (Nat.add_right_comm i 1 turns).trans inside
      · intro k hk
        by_cases hki : BitVec.ofNat 8 k = BitVec.ofNat 8 i
        · refine ⟨state.queued item (cpus.blocks (BitVec.ofNat 8 i)), ?_⟩
          rw [hki]
          exact Function.update_self _ _ _
        · obtain ⟨other, hother⟩ := registered k hk
          exact ⟨other, by simp only [Function.update_of_ne hki, hother]⟩
      · exact hj
    · have hle : i + 1 ≤ j ∧ j ≠ cpus.cpuId ↔ i ≤ j ∧ j ≠ cpus.cpuId := by omega
      simp only [enqueueLoop, if_neg hself]
      rw [ih (by omega) registered hj]
      simp only [hle]

theorem enqueueAll_states (registered : cpus.Registered) {j : Nat}
    (hj : j < cpus.cpuCount.toNat) (other : j ≠ cpus.cpuId)
    (hstate : cpus.cpuStates (BitVec.ofNat 8 j) = some state) :
    (ipwiEnqueueAllExceptCurrent cpus item).2.cpuStates (BitVec.ofNat 8 j) =
      some (state.queued item (cpus.blocks (BitVec.ofNat 8 j))) := by
  rw [ipwiEnqueueAllExceptCurrent, enqueueLoop_states (Nat.zero_add _) registered hj, hstate]
  simp [other]

end Sending

/-! ## What the sender is told -/

/-- The queue of the CPU, which is registered, has one item more. -/
def Appended (cpus cpus' : Cpus) (item : IpwiWorkItem) (cpuNum : BitVec 8) : Prop :=
  ∃ state state', cpus.cpuStates cpuNum = some state ∧ cpus'.cpuStates cpuNum = some state' ∧
    state'.ipwiQueue.contents = state.ipwiQueue.contents ++ [item]

/-- `ipwi_enqueue` returns true exactly if it appended the item, and rejects the numbers that are
not below the count of the CPUs. -/
structure TellsTruth (cpus : Cpus) (item : IpwiWorkItem) (cpuNum : BitVec 8) : Prop where
  appended : (ipwiEnqueue cpus item cpuNum).1 = true ↔
    Appended cpus (ipwiEnqueue cpus item cpuNum).2 item cpuNum
  rejected : ¬ cpuNum < cpus.cpuCount → (ipwiEnqueue cpus item cpuNum).1 = false

section Answers

variable {cpus : Cpus} {item : IpwiWorkItem} {cpuNum : BitVec 8} {state : PerCpuState}

/-- What comes of an item for a CPU that the check lets through and that has registered. -/
theorem appended_iff (known : cpuNum ≤ cpus.cpuCount)
    (registered : cpus.cpuStates cpuNum = some state) :
    Appended cpus (ipwiEnqueue cpus item cpuNum).2 item cpuNum ↔
      (state.ipwiQueue.tail = state.ipwiQueue.capacity → (cpus.blocks cpuNum).isSome) := by
  rw [ipwiEnqueue_eq known registered]
  have hcontents := shiftArrayInsertTail_contents state.ipwiQueue item (cpus.blocks cpuNum)
  rw [← shiftArrayInsertTail_iff state.ipwiQueue item]
  constructor
  · rintro ⟨before, after, hbefore, hafter, happended⟩
    obtain rfl := Option.some.inj (registered.symm.trans hbefore)
    simp only [Function.update_self, Option.some.injEq] at hafter
    subst hafter
    by_contra hfailed
    rw [PerCpuState.queued, hcontents, if_neg hfailed] at happended
    exact absurd (congrArg List.length happended) (by simp)
  · intro hinserted
    refine ⟨state, _, registered, Function.update_self _ _ _, ?_⟩
    rw [PerCpuState.queued, hcontents, if_pos hinserted]

theorem not_appended_of_unregistered {cpus' : Cpus} (none : cpus.cpuStates cpuNum = none) :
    ¬ Appended cpus cpus' item cpuNum := by
  rintro ⟨state, -, hstate, -⟩
  rw [none] at hstate
  exact absurd hstate (by simp)

end Answers

def haltItem : IpwiWorkItem := ⟨ipwiTypePanicHalt, 0, 0, 0, 0⟩

/-- The queue of a CPU is full, with eight items in the upper half of its sixteen slots, and there
is no memory for a larger one. -/
def fullQueue : Cpus where
  cpuCount := 1
  cpuStates := fun cpuNum =>
    if cpuNum = 0 then some ⟨⟨fun _ => haltItem, 8, 16, 16, Nat.le_add_left 8 8⟩, ⟨1, 0x1000⟩⟩ else none
  cpuId := 0
  blocks := fun _ => none

end Ipwi
