import AnosKernel.Lib.Chains
import AnosKernel.Scheduler
import AnosKernel.StdRoutines

/-!
# Processes and the lists of their tasks

`process_create` and `process_destroy` of `kernel/process/process.c`, and what `kernel/task.c` does
when a task is created and when it ends. A task has a page and a kernel stack from the block
allocator, and the process keeps a list of its tasks whose nodes are slab blocks.
-/

namespace ProcessTasks

open Chains Scheduler StdRoutines

/-- The calls of the two allocators. `slabFree` answers `none` when it does not return. -/
structure Allocators (A : Type) where
  slabAllocBlock : A → Option (BitVec 64) × A
  slabFree : A → BitVec 64 → Option A
  fbaAllocBlock : A → Option (BitVec 64) × A
  fbaFree : A → BitVec 64 → A

structure Process where
  capFailures : BitVec 64
  pid : BitVec 64
  pml4 : BitVec 64
  tasks : Option (BitVec 64)
  meminfo : BitVec 64
  deriving DecidableEq, Repr

structure ProcessMemoryInfo where
  pagesLock : BitVec 64
  pages : Option (BitVec 64)
  resHead : Option (BitVec 64)
  resTail : Option (BitVec 64)
  regions : Option (BitVec 64)
  deriving DecidableEq, Repr

/-- A node of the list; `next` is `this.next`. -/
structure ProcessTask where
  next : Option (BitVec 64)
  task : Option (BitVec 64)
  deriving DecidableEq, Repr

/-- A `Task` with its scheduler data. -/
structure TaskRecord where
  queued : Scheduler.Task
  tid : BitVec 64
  tsRemain : BitVec 16
  statusFlags : BitVec 16
  rsp0 : BitVec 64
  ssp : BitVec 64
  owner : Option (BitVec 64)
  pml4 : BitVec 64
  deriving DecidableEq, Repr

/-- History: the processes by their addresses, since the last `process_create` there. `nodes` and
`tasks` are what `task_create_new` added and what has not been removed, or has not exited. -/
structure History where
  created : BitVec 64 → Bool
  destroyed : BitVec 64 → Bool
  nodes : BitVec 64 → List (BitVec 64)
  tasks : BitVec 64 → List (BitVec 64)
  exits : BitVec 64 → Nat

/-- The objects by their addresses, the words of the kernel stacks, the counters and the current
task of the CPU. -/
structure World (A : Type) where
  mem : A
  processes : BitVec 64 → Process
  meminfos : BitVec 64 → ProcessMemoryInfo
  nodes : BitVec 64 → ProcessTask
  tasks : BitVec 64 → TaskRecord
  words : BitVec 64 → BitVec 64
  nextPid : BitVec 64
  nextTid : BitVec 64
  current : Option (BitVec 64)
  history : History

section Functions

variable {A : Type} (arch : Arch) (ops : Allocators A)

/-- On RISC-V the mode for four levels of tables comes before the page number. -/
def cpuMakePagetableRegisterValue (ptBase : BitVec 64) : BitVec 64 :=
  match arch with
  | .x8664 => ptBase
  | .riscv64 => (9 <<< 60) ||| (ptBase >>> 12)

/-- The writes of `process_create`, which leave `tasks` as it was in the block. -/
def initProcess (w : World A) (mem : A) (lock meminfo process pml4 : BitVec 64) : World A :=
  { w with
    mem := mem
    processes := Function.update w.processes process
      { w.processes process with
        pid := w.nextPid
        pml4 := cpuMakePagetableRegisterValue arch pml4
        capFailures := 0
        meminfo := meminfo }
    meminfos := Function.update w.meminfos meminfo
      { pagesLock := lock, pages := none, resHead := none, resTail := none, regions := none }
    nextPid := w.nextPid + 1
    history := {
      created := Function.update w.history.created process true
      destroyed := Function.update w.history.destroyed process false
      nodes := Function.update w.history.nodes process []
      tasks := Function.update w.history.tasks process []
      exits := Function.update w.history.exits process 0 } }

def processCreate (w : World A) (pml4 : BitVec 64) : Option (Option (BitVec 64) × World A) :=
  match ops.slabAllocBlock w.mem with
  | (none, mem) => some (none, { w with mem := mem })
  | (some lock, mem) =>
    match ops.slabAllocBlock mem with
    | (none, mem) => (ops.slabFree mem lock).map fun mem => (none, { w with mem := mem })
    | (some meminfo, mem) =>
      match ops.slabAllocBlock mem with
      | (none, mem) =>
        (ops.slabFree mem lock).bind fun mem =>
          (ops.slabFree mem meminfo).map fun mem => (none, { w with mem := mem })
      | (some process, mem) =>
        some (some process, initProcess arch w mem lock meminfo process pml4)

/-- The words of the stacks and a stack pointer. -/
structure Stack where
  words : BitVec 64 → BitVec 64
  ssp : BitVec 64

def Stack.push (s : Stack) (value : BitVec 64) : Stack :=
  ⟨Function.update s.words (s.ssp - 8) value, s.ssp - 8⟩

def taskSavedRegisterCount : Nat :=
  match arch with
  | .x8664 => 15
  | .riscv64 => 54

/-- The stack of a new task: on RISC-V a zero, then where it returns to, room for its registers,
and the first two arguments. -/
def buildStack (words : BitVec 64 → BitVec 64) (top sp bootstrap func : BitVec 64) : Stack :=
  let bottom := match arch with
    | .x8664 => Stack.mk words top
    | .riscv64 => (Stack.mk words top).push 0
  let entry := bottom.push bootstrap
  let registers := { entry with
    ssp := entry.ssp - 8 * (BitVec.ofNat 64 (taskSavedRegisterCount arch) - 2) }
  (registers.push sp).push func

/-- The top of the kernel stack: the one of the caller, or that of a new page. -/
def kernelStack (mem : A) (sysSsp : BitVec 64) : Option (BitVec 64) × A :=
  if sysSsp = 0 then
    let (page, mem) := ops.fbaAllocBlock mem
    (page.map (· + 0x1000), mem)
  else (some sysSsp, mem)

/-- The writes of `task_create_new` once it has its memory. -/
def initTask (w : World A) (mem : A) (owner task node top sp bootstrap func : BitVec 64)
    (cls : TaskClass) : World A :=
  let stack := buildStack arch w.words top sp bootstrap func
  { w with
    mem := mem
    tasks := Function.update w.tasks task
      { queued := { next := none, state := .ready, taskClass := cls, prio := 0 }
        tid := w.nextTid
        tsRemain := 10
        statusFlags := 0
        rsp0 := top
        ssp := stack.ssp
        owner := some owner
        pml4 := (w.processes owner).pml4 }
    words := stack.words
    nextTid := w.nextTid + 1
    nodes := Function.update w.nodes node
      { next := (w.processes owner).tasks, task := some task }
    processes := Function.update w.processes owner
      { w.processes owner with tasks := some node }
    history := { w.history with
      nodes := Function.update w.history.nodes owner (node :: w.history.nodes owner)
      tasks := Function.update w.history.tasks owner (task :: w.history.tasks owner) } }

/-- `task_create_new`. The answers for the stack and for the node are not checked, and a null one is
written to: `none`. -/
def taskCreateNew (w : World A) (owner sp sysSsp bootstrap func : BitVec 64) (cls : TaskClass) :
    Option (Option (BitVec 64) × World A) :=
  match ops.fbaAllocBlock w.mem with
  | (none, mem) => some (none, { w with mem := mem })
  | (some task, mem) =>
    match kernelStack ops mem sysSsp with
    | (none, _) => none
    | (some top, mem) =>
      match ops.slabAllocBlock mem with
      | (none, _) => none
      | (some node, mem) =>
        some (some task, initTask arch w mem owner task node top sp bootstrap func cls)

def taskDestroy (w : World A) (task : Option (BitVec 64)) : World A :=
  match task with
  | none => w
  | some t =>
    { w with
      current := if w.current = some t then none else w.current
      mem := ops.fbaFree w.mem t }

/-- What `curr` of `task_remove_from_process` points to: the head of the list or a link. -/
inductive Link where
  | head (process : BitVec 64)
  | next (node : BitVec 64)
  deriving DecidableEq, Repr

def World.follow (w : World A) : Link → Option (BitVec 64)
  | .head process => (w.processes process).tasks
  | .next node => (w.nodes node).next

def World.setLink (w : World A) (value : Option (BitVec 64)) : Link → World A
  | .head process =>
    { w with
      processes := Function.update w.processes process
        { w.processes process with tasks := value } }
  | .next node =>
    { w with nodes := Function.update w.nodes node { w.nodes node with next := value } }

/-- The node is taken out of the list at `curr` and freed. -/
def unlinkNode (w : World A) (process node : BitVec 64) (curr : Link) : Option (World A) :=
  (ops.slabFree w.mem node).map fun mem =>
    { w.setLink (w.nodes node).next curr with
      mem := mem
      history := { w.history with
        nodes := Function.update w.history.nodes process
          ((w.history.nodes process).erase node) } }

/-- The search of `task_remove_from_process`, with the nodes that it visits. -/
def removeLoop (process task : BitVec 64) :
    Nat → World A → Link → Option (List (BitVec 64) × World A)
  | 0, _, _ => none
  | fuel + 1, w, curr =>
    match w.follow curr with
    | none => some ([], w)
    | some node =>
      if (w.nodes node).task = some task then
        (unlinkNode ops w process node curr).map fun w => ([node], w)
      else
        (removeLoop process task fuel w (.next node)).map fun (visited, w) => (node :: visited, w)

def taskRemoveFromProcess (fuel : Nat) (w : World A) (task : Option (BitVec 64)) :
    Option (List (BitVec 64) × World A) :=
  match task with
  | none => some ([], w)
  | some t =>
    match (w.tasks t).owner with
    | none => some ([], w)
    | some owner => removeLoop ops owner t fuel w (.head owner)

/-- The loop of `destroy_process_tasks`. -/
def destroyLoop (process : BitVec 64) : Nat → World A → Option (BitVec 64) → Option (World A)
  | 0, _, _ => none
  | _ + 1, w, none => some w
  | fuel + 1, w, some node =>
    let w := taskDestroy ops w (w.nodes node).task
    let next := (w.nodes node).next
    (ops.slabFree w.mem node).bind fun mem =>
      destroyLoop process fuel { w.setLink next (.head process) with mem := mem } next

/-- `process_destroy` without what the process has besides its tasks: its interrupts, managed
resources, pages and regions, which go back in between. -/
def processDestroy (fuel : Nat) (w : World A) (process : BitVec 64) : Option (World A) :=
  (destroyLoop ops process fuel w (w.processes process).tasks).bind fun w =>
    let meminfo := (w.processes process).meminfo
    (ops.slabFree w.mem (w.meminfos meminfo).pagesLock).bind fun mem =>
      (ops.slabFree mem meminfo).bind fun mem =>
        (ops.slabFree mem process).map fun mem =>
          { w with
            mem := mem
            history := { w.history with
              destroyed := Function.update w.history.destroyed process true } }

/-- `task_current_exitpoint` up to `sched_schedule`, which goes on with another task. -/
def taskCurrentExitpoint (fuel : Nat) (w : World A) : Option (World A) :=
  w.current.bind fun task =>
    (w.tasks task).owner.bind fun owner =>
      (taskRemoveFromProcess ops fuel w (some task)).bind fun (_, w) =>
        (if (w.processes owner).tasks = none then processDestroy ops fuel w owner
          else some w).map fun w => taskDestroy ops w (some task)

end Functions

end ProcessTasks
