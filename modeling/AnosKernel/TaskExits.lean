import AnosKernel.Lib.Runs
import AnosKernel.ProcessTasks

/-!
# When a process is destroyed

Runs of `process_create`, `task_create_new` and `task_current_exitpoint` between what the rest of
the kernel does. `process_create` does not write the head of the task list. Where the recycled block
has a null word there, the list is always that of the tasks that remain, and a process goes with
the last one of them.
-/

namespace TaskExits

open Chains ProcessTasks Runs Scheduler StdRoutines

/-- What holds of the allocators between their calls, and the blocks that are given out. -/
structure Blocks (A : Type) where
  sound : A → Prop
  slabLive : A → BitVec 64 → Prop
  fbaLive : A → BitVec 64 → Prop

section Lifetimes

variable {A : Type} (arch : Arch) (ops : Allocators A) (blocks : Blocks A)

/-- Live blocks stay live. -/
structure Keeps (a a' : A) : Prop where
  sound : blocks.sound a'
  slab : ∀ b, blocks.slabLive a b → blocks.slabLive a' b
  fba : ∀ b, blocks.fbaLive a b → blocks.fbaLive a' b

/-- The blocks but one of the slab allocator stay live. -/
structure Releases (a a' : A) (b : BitVec 64) : Prop where
  sound : blocks.sound a'
  slab : ∀ c ≠ b, blocks.slabLive a c → blocks.slabLive a' c
  fba : ∀ c, blocks.fbaLive a c → blocks.fbaLive a' c

/-- An allocation answers a block that is not live, and freeing a live block leaves the others
live. -/
structure Lawful : Prop where
  slab_alloc_keeps : ∀ a, blocks.sound a → Keeps blocks a (ops.slabAllocBlock a).2
  slab_alloc_fresh : ∀ a b, blocks.sound a → (ops.slabAllocBlock a).1 = some b →
    ¬ blocks.slabLive a b ∧ blocks.slabLive (ops.slabAllocBlock a).2 b
  fba_alloc_keeps : ∀ a, blocks.sound a → Keeps blocks a (ops.fbaAllocBlock a).2
  fba_alloc_fresh : ∀ a b, blocks.sound a → (ops.fbaAllocBlock a).1 = some b →
    ¬ blocks.fbaLive a b ∧ blocks.fbaLive (ops.fbaAllocBlock a).2 b
  slab_free : ∀ a b a', blocks.sound a → blocks.slabLive a b → ops.slabFree a b = some a' →
    Releases blocks a a' b
  fba_free : ∀ a b, blocks.sound a → blocks.fbaLive a b →
    blocks.sound (ops.fbaFree a b) ∧
    (∀ c ≠ b, blocks.fbaLive a c → blocks.fbaLive (ops.fbaFree a b) c) ∧
    ∀ c, blocks.slabLive a c → blocks.slabLive (ops.fbaFree a b) c

/-- After `slab_free` of some live blocks. -/
inductive Freed (a : A) : A → Prop
  | refl : Freed a a
  | free {a' a'' : A} {b : BitVec 64} : Freed a a' → blocks.slabLive a' b →
      ops.slabFree a' b = some a'' → Freed a a''

/-- `slab_free` returns, however many live blocks have been freed. -/
def FreesReturn (a : A) : Prop :=
  ∀ a' b, Freed ops blocks a a' → blocks.slabLive a' b → ops.slabFree a' b ≠ none

/-- `elsewhere` is what the rest of the kernel does. -/
inductive Op (A : Type)
  | create (pml4 : BitVec 64)
  | task (owner sp sysSsp bootstrap func : BitVec 64) (cls : TaskClass)
  | exit
  | elsewhere (w : World A)

/-- The current task exits. -/
def exitRecorded (w : World A) : World A :=
  match w.current with
  | none => w
  | some t =>
    match (w.tasks t).owner with
    | none => w
    | some p =>
      { w with history := { w.history with
          tasks := Function.update w.history.tasks p ((w.history.tasks p).erase t)
          exits := Function.update w.history.exits p (w.history.exits p + 1) } }

def exec (fuel : Nat) (w : World A) : Op A → Option (World A)
  | .create pml4 => (processCreate arch ops w pml4).map Prod.snd
  | .task owner sp sysSsp bootstrap func cls =>
    (taskCreateNew arch ops w owner sp sysSsp bootstrap func cls).map Prod.snd
  | .exit => taskCurrentExitpoint ops fuel (exitRecorded w)
  | .elsewhere w' => some w'

def Returns (w : World A) (op : Op A) (w' : World A) : Prop :=
  ∃ enough, ∀ fuel ≥ enough, exec arch ops fuel w op = some w'

/-- A process that was created and not destroyed. -/
def Alive (w : World A) (p : BitVec 64) : Prop :=
  w.history.created p = true ∧ w.history.destroyed p = false

inductive Use where
  | process
  | meminfo
  | lock
  | node

/-- What a process uses a slab block for. -/
def Uses (w : World A) (p b : BitVec 64) : Use → Prop
  | .process => b = p
  | .meminfo => b = (w.processes p).meminfo
  | .lock => b = (w.meminfos (w.processes p).meminfo).pagesLock
  | .node => b ∈ w.history.nodes p

/-- The rest of the kernel leaves alone what the processes and their task lists are made of. -/
structure Spares (w w' : World A) : Prop where
  sound : blocks.sound w'.mem
  history : w'.history = w.history
  tasks : ∀ p, Alive w p → (w'.processes p).tasks = (w.processes p).tasks
  meminfo : ∀ p, Alive w p → (w'.processes p).meminfo = (w.processes p).meminfo
  lock : ∀ p, Alive w p → (w'.meminfos (w.processes p).meminfo).pagesLock =
    (w.meminfos (w.processes p).meminfo).pagesLock
  nodes : ∀ p n, Alive w p → n ∈ w.history.nodes p → w'.nodes n = w.nodes n
  owner : ∀ p t, Alive w p → t ∈ w.history.tasks p → (w'.tasks t).owner = (w.tasks t).owner
  slab : ∀ p b u, Alive w p → Uses w p b u → blocks.slabLive w'.mem b
  fba : ∀ p t, Alive w p → t ∈ w.history.tasks p → blocks.fbaLive w'.mem t

/-- Tasks are created for processes that are there, and a task that exits has not exited before. -/
def Permitted (w : World A) : Op A → Prop
  | .create _ => True
  | .task owner _ _ _ _ _ => Alive w owner
  | .exit => ∃ p t, w.current = some t ∧ Alive w p ∧ t ∈ w.history.tasks p
  | .elsewhere w' => Spares blocks w w'

def lifetimes : System (World A) (Op A) where
  init := fun w => blocks.sound w.mem ∧ ∀ p, w.history.created p = false
  step := fun w op w' => Permitted blocks w op ∧ Returns arch ops w op w'

/-- The block that a process is given has a null word where the head of its list will be. -/
def Cleared (w : World A) : Op A → Prop
  | .create _ => ∀ block,
    (ops.slabAllocBlock (ops.slabAllocBlock (ops.slabAllocBlock w.mem).2).2).1 = some block →
      (w.processes block).tasks = none
  | _ => True

/-- A process is destroyed when its last remaining task exits, and not otherwise. An exit returns if
`slab_free` does. A walk along the list visits nodes that were added for the process. -/
structure Proper (w : World A) : Prop where
  destroyed_iff : ∀ p, w.history.created p = true →
    (w.history.destroyed p = true ↔ w.history.tasks p = [] ∧ 0 < w.history.exits p)
  exits : ∀ p t w', w.current = some t → Alive w p → t ∈ w.history.tasks p →
    Returns arch ops w .exit w' → (w'.history.destroyed p = true ↔ w.history.tasks p = [t])
  returns : ∀ p t, w.current = some t → Alive w p → t ∈ w.history.tasks p →
    FreesReturn ops blocks w.mem → ∃ w', Returns arch ops w .exit w'
  visits : ∀ p t, Alive w p → t ∈ w.history.tasks p → ∃ enough visited node curr,
    (∀ n ∈ visited, n ∈ w.history.nodes p) ∧
    ∀ fuel ≥ enough, taskRemoveFromProcess ops fuel w (some t) =
      (unlinkNode ops w p node curr).map fun w' => (visited, w')

end Lifetimes

/-! ## What holds between the calls -/

def link {A : Type} (w : World A) (node : BitVec 64) : Option (BitVec 64) := (w.nodes node).next

/-- The lists of the processes that are alive. `tag` tells the slab blocks apart. -/
structure Holds {A : Type} (blocks : Blocks A) (w : World A)
    (tag : BitVec 64 → Option (BitVec 64 × Use)) : Prop where
  sound : blocks.sound w.mem
  tagged : ∀ p b u, Alive w p → Uses w p b u → tag b = some (p, u)
  slab : ∀ p b u, Alive w p → Uses w p b u → blocks.slabLive w.mem b
  fba : ∀ p t, Alive w p → t ∈ w.history.tasks p → blocks.fbaLive w.mem t
  list : ∀ p, Alive w p → Chain (link w) (w.processes p).tasks (w.history.nodes p)
  tasks : ∀ p, Alive w p →
    (w.history.nodes p).map (fun n => (w.nodes n).task) = (w.history.tasks p).map some
  owner : ∀ p t, Alive w p → t ∈ w.history.tasks p → (w.tasks t).owner = some p
  nodup : ∀ p, Alive w p → (w.history.tasks p).Nodup

/-- The processes that have ended are those that had tasks and have none left. -/
def Ended {A : Type} (w : World A) : Prop :=
  ∀ p, w.history.created p = true →
    (w.history.destroyed p = true ↔ w.history.tasks p = [] ∧ 0 < w.history.exits p)

section Frames

variable {A : Type} {arch : Arch} {ops : Allocators A} {blocks : Blocks A}
  {w w' : World A} {tag : BitVec 64 → Option (BitVec 64 × Use)} {p q b n t : BitVec 64} {u v : Use}
  {a a' mem : A}

theorem Keeps.trans {a'' : A} (first : Keeps blocks a a')
    (second : Keeps blocks a' a'') : Keeps blocks a a'' :=
  ⟨second.sound, fun b hb => second.slab b (first.slab b hb),
    fun b hb => second.fba b (first.fba b hb)⟩

/-- Freeing a block that has been allocated since leaves the blocks from before. -/
theorem Lawful.free_fresh (lawful : Lawful ops blocks) {a'' : A} (kept : Keeps blocks a a')
    (fresh : ¬ blocks.slabLive a b) (live : blocks.slabLive a' b)
    (free : ops.slabFree a' b = some a'') :
    Keeps blocks a a'' ∧ ∀ c ≠ b, blocks.slabLive a' c → blocks.slabLive a'' c := by
  obtain ⟨hsound, hslab, hfba⟩ := lawful.slab_free a' b a'' kept.sound live free
  refine ⟨⟨hsound, fun c hc => ?_, fun c hc => hfba c (kept.fba c hc)⟩, hslab⟩
  refine hslab c ?_ (kept.slab c hc)
  rintro rfl
  exact fresh hc

theorem Freed.trans {a'' : A} (first : Freed ops blocks a a') (second : Freed ops blocks a' a'') :
    Freed ops blocks a a'' := by
  induction second with
  | refl => exact first
  | free _ live free ih => exact ih.free live free

/-- One block has been freed. -/
theorem FreesReturn.step (h : FreesReturn ops blocks a) (live : blocks.slabLive a b)
    (free : ops.slabFree a b = some a') : FreesReturn ops blocks a' :=
  fun _ c freed hc => h _ c ((Freed.refl.free live free).trans freed) hc

theorem Holds.unique (h : Holds blocks w tag) (hp : Alive w p) (hq : Alive w q)
    (first : Uses w p b u) (second : Uses w q b v) : p = q ∧ u = v := by
  have hsame := (h.tagged p b u hp first).symm.trans (h.tagged q b v hq second)
  simpa only [Option.some.injEq, Prod.mk.injEq] using hsame

/-- The rest of the kernel keeps the lists. -/
theorem Holds.spared (h : Holds blocks w tag) (spares : Spares blocks w w') :
    Holds blocks w' tag := by
  have halive : ∀ p, Alive w' p ↔ Alive w p := by
    intro p
    rw [Alive, Alive, spares.history]
  have huses : ∀ p b u, Alive w p → (Uses w' p b u ↔ Uses w p b u) := by
    intro p b u hp
    cases u with
    | process => exact Iff.rfl
    | meminfo => rw [Uses, Uses, spares.meminfo p hp]
    | lock => rw [Uses, Uses, spares.meminfo p hp, spares.lock p hp]
    | node => rw [Uses, Uses, spares.history]
  constructor
  · exact spares.sound
  · intro p b u hp hu
    rw [halive] at hp
    exact h.tagged p b u hp ((huses p b u hp).mp hu)
  · intro p b u hp hu
    rw [halive] at hp
    exact spares.slab p b u hp ((huses p b u hp).mp hu)
  · intro p t hp ht
    rw [halive] at hp
    rw [spares.history] at ht
    exact spares.fba p t hp ht
  · intro p hp
    rw [halive] at hp
    rw [spares.tasks p hp, spares.history]
    refine Seg.congr (h.list p hp) fun n hn => ?_
    rw [link, link, spares.nodes p n hp hn]
  · intro p hp
    rw [halive] at hp
    rw [spares.history, ← h.tasks p hp]
    apply List.map_congr_left
    intro n hn
    rw [spares.nodes p n hp hn]
  · intro p t hp ht
    rw [halive] at hp
    rw [spares.history] at ht
    rw [spares.owner p t hp ht]
    exact h.owner p t hp ht
  · intro p hp
    rw [halive] at hp
    rw [spares.history]
    exact h.nodup p hp

/-- Allocations that nobody uses. -/
theorem Holds.setMem (h : Holds blocks w tag) (kept : Keeps blocks w.mem mem) :
    Holds blocks { w with mem := mem } tag := by
  apply h.spared
  refine ⟨kept.sound, rfl, fun _ _ => rfl, fun _ _ => rfl, fun _ _ => rfl, fun _ _ _ _ => rfl,
    fun _ _ _ _ => rfl, ?_, ?_⟩
  · exact fun p b u hp hu => kept.slab b (h.slab p b u hp hu)
  · exact fun p t hp ht => kept.fba t (h.fba p t hp ht)

end Frames

/-! ## Creating -/

section Creating

variable {A : Type} {arch : Arch} {ops : Allocators A} {blocks : Blocks A}
  {w w' : World A} {tag : BitVec 64 → Option (BitVec 64 × Use)}
  {p q b n t lock meminfo node task owner pml4 sp sysSsp top bootstrap func : BitVec 64} {u v : Use}
  {a mem : A} {cls : TaskClass} {result : Option (BitVec 64)}

/-- A block that was not live and is now. -/
def Fresh (live : A → BitVec 64 → Prop) (a a' : A) (b : BitVec 64) : Prop := ¬ live a b ∧ live a' b

/-- The blocks of a new process. -/
structure NewBlocks (blocks : Blocks A) (a mem : A)
    (lock meminfo p : BitVec 64) : Prop where
  kept : Keeps blocks a mem
  fresh_lock : Fresh blocks.slabLive a mem lock
  fresh_meminfo : Fresh blocks.slabLive a mem meminfo
  fresh_process : Fresh blocks.slabLive a mem p
  lock_meminfo : lock ≠ meminfo
  lock_process : lock ≠ p
  meminfo_process : meminfo ≠ p

/-- A call of `process_create` that fails gives its blocks back. -/
theorem Lawful.processCreate (lawful : Lawful ops blocks) (sound : blocks.sound w.mem)
    (run : processCreate arch ops w pml4 = some (result, w')) :
    (∃ mem, w' = { w with mem := mem } ∧ Keeps blocks w.mem mem) ∨
    ∃ mem lock meminfo p, w' = initProcess arch w mem lock meminfo p pml4 ∧
      NewBlocks blocks w.mem mem lock meminfo p ∧
      (ops.slabAllocBlock (ops.slabAllocBlock (ops.slabAllocBlock w.mem).2).2).1 = some p := by
  rw [ProcessTasks.processCreate] at run
  have hkept₁ := lawful.slab_alloc_keeps w.mem sound
  have hfresh₁ := fun b => lawful.slab_alloc_fresh w.mem b sound
  rcases hlock : ops.slabAllocBlock w.mem with ⟨_ | lock, m₁⟩
  · rw [hlock] at run hkept₁
    obtain rfl := (congrArg Prod.snd (Option.some.inj run)).symm
    exact Or.inl ⟨m₁, rfl, hkept₁⟩
  · rw [hlock] at run hkept₁ hfresh₁
    obtain ⟨hnew₁, hlive₁⟩ := hfresh₁ lock rfl
    dsimp only at run hkept₁ hlive₁
    have hkept₂ := lawful.slab_alloc_keeps m₁ hkept₁.sound
    have hfresh₂ := fun b => lawful.slab_alloc_fresh m₁ b hkept₁.sound
    rcases hmeminfo : ops.slabAllocBlock m₁ with ⟨_ | meminfo, m₂⟩
    · rw [hmeminfo] at run hkept₂
      obtain ⟨m, hfree, hresult⟩ := Option.map_eq_some_iff.mp run
      obtain rfl := congrArg Prod.snd hresult
      exact Or.inl ⟨m, rfl,
        (lawful.free_fresh (hkept₁.trans hkept₂) hnew₁ (hkept₂.slab lock hlive₁) hfree).1⟩
    · rw [hmeminfo] at run hkept₂ hfresh₂
      obtain ⟨hnew₂, hlive₂⟩ := hfresh₂ meminfo rfl
      dsimp only at run hkept₂ hlive₂
      have hlock_meminfo : lock ≠ meminfo := by
        rintro rfl
        exact hnew₂ hlive₁
      have hnew₂' : ¬ blocks.slabLive w.mem meminfo := fun hlive => hnew₂ (hkept₁.slab meminfo hlive)
      have hkept₃ := lawful.slab_alloc_keeps m₂ hkept₂.sound
      have hfresh₃ := fun b => lawful.slab_alloc_fresh m₂ b hkept₂.sound
      rcases hprocess : ops.slabAllocBlock m₂ with ⟨_ | p, m₃⟩
      · rw [hprocess] at run hkept₃
        have hkept := (hkept₁.trans hkept₂).trans hkept₃
        obtain ⟨m, hfree, hrest⟩ := Option.bind_eq_some_iff.mp run
        obtain ⟨m', hfree', hresult⟩ := Option.map_eq_some_iff.mp hrest
        obtain rfl := congrArg Prod.snd hresult
        obtain ⟨hkept', hothers⟩ :=
          lawful.free_fresh hkept hnew₁ (hkept₃.slab lock (hkept₂.slab lock hlive₁)) hfree
        have hlive : blocks.slabLive m meminfo :=
          hothers meminfo hlock_meminfo.symm (hkept₃.slab meminfo hlive₂)
        exact Or.inl ⟨m', rfl, (lawful.free_fresh hkept' hnew₂' hlive hfree').1⟩
      · rw [hprocess] at run hkept₃ hfresh₃
        obtain ⟨hnew₃, hlive₃⟩ := hfresh₃ p rfl
        dsimp only at run hkept₃ hlive₃
        obtain rfl := (congrArg Prod.snd (Option.some.inj run)).symm
        refine Or.inr ⟨m₃, lock, meminfo, p, rfl,
          ⟨(hkept₁.trans hkept₂).trans hkept₃, ⟨hnew₁, ?_⟩, ⟨hnew₂', hkept₃.slab meminfo hlive₂⟩,
            ⟨?_, hlive₃⟩, hlock_meminfo, ?_, ?_⟩, ?_⟩
        · exact hkept₃.slab lock (hkept₂.slab lock hlive₁)
        · exact fun hlive => hnew₃ (hkept₂.slab p (hkept₁.slab p hlive))
        · rintro rfl
          exact hnew₃ (hkept₂.slab lock hlive₁)
        · rintro rfl
          exact hnew₃ hlive₂
        · rfl

/-- The memory of a new task. -/
structure NewTask (blocks : Blocks A) (a mem : A) (task node : BitVec 64) :
    Prop where
  kept : Keeps blocks a mem
  fresh_task : Fresh blocks.fbaLive a mem task
  fresh_node : Fresh blocks.slabLive a mem node

theorem Lawful.kernelStack_keeps (lawful : Lawful ops blocks) (sound : blocks.sound a)
    (sysSsp : BitVec 64) : Keeps blocks a (kernelStack ops a sysSsp).2 := by
  rw [kernelStack]
  split_ifs
  · exact lawful.fba_alloc_keeps a sound
  · exact ⟨sound, fun _ hb => hb, fun _ hb => hb⟩

theorem Lawful.taskCreateNew (lawful : Lawful ops blocks) (sound : blocks.sound w.mem)
    (run : taskCreateNew arch ops w owner sp sysSsp bootstrap func cls = some (result, w')) :
    (∃ mem, w' = { w with mem := mem } ∧ Keeps blocks w.mem mem) ∨
    ∃ mem task node top,
      w' = initTask arch w mem owner task node top sp bootstrap func cls ∧
      NewTask blocks w.mem mem task node := by
  rw [ProcessTasks.taskCreateNew] at run
  have hkept₁ := lawful.fba_alloc_keeps w.mem sound
  have hfresh₁ := fun b => lawful.fba_alloc_fresh w.mem b sound
  rcases htask : ops.fbaAllocBlock w.mem with ⟨_ | task, m₁⟩
  · rw [htask] at run hkept₁
    obtain rfl := (congrArg Prod.snd (Option.some.inj run)).symm
    exact Or.inl ⟨m₁, rfl, hkept₁⟩
  · rw [htask] at run hkept₁ hfresh₁
    obtain ⟨hnew₁, hlive₁⟩ := hfresh₁ task rfl
    dsimp only at run hkept₁ hlive₁
    have hkept₂ := lawful.kernelStack_keeps hkept₁.sound sysSsp
    rcases hstack : kernelStack ops m₁ sysSsp with ⟨_ | top, m₂⟩
    · rw [hstack] at run
      exact absurd run (by simp)
    · rw [hstack] at run hkept₂
      dsimp only at run hkept₂
      have hkept₃ := lawful.slab_alloc_keeps m₂ hkept₂.sound
      have hfresh₃ := fun b => lawful.slab_alloc_fresh m₂ b hkept₂.sound
      rcases hnode : ops.slabAllocBlock m₂ with ⟨_ | node, m₃⟩
      · rw [hnode] at run
        exact absurd run (by simp)
      · rw [hnode] at run hkept₃ hfresh₃
        obtain ⟨hnew₃, hlive₃⟩ := hfresh₃ node rfl
        dsimp only at run hkept₃ hlive₃
        obtain rfl := (congrArg Prod.snd (Option.some.inj run)).symm
        refine Or.inr ⟨m₃, task, node, top, rfl, (hkept₁.trans hkept₂).trans hkept₃,
          ⟨hnew₁, hkept₃.fba task (hkept₂.fba task hlive₁)⟩, ?_, hlive₃⟩
        exact fun hlive => hnew₃ (hkept₂.slab node (hkept₁.slab node hlive))

theorem alive_initProcess :
    Alive (initProcess arch w mem lock meminfo p pml4) q ↔ q = p ∨ (q ≠ p ∧ Alive w q) := by
  by_cases hqp : q = p
  · simp [Alive, initProcess, hqp]
  · simp [Alive, initProcess, hqp]

/-- A new process, whose list is empty if its block had a null word there. -/
theorem Holds.initProcess (h : Holds blocks w tag)
    (new : NewBlocks blocks w.mem mem lock meminfo p)
    (cleared : (w.processes p).tasks = none) :
    ∃ tag', Holds blocks (initProcess arch w mem lock meminfo p pml4) tag' := by
  have hused : ∀ q b u, Alive w q → Uses w q b u → b ≠ lock ∧ b ≠ meminfo ∧ b ≠ p := by
    intro q b u hq hu
    have hlive := h.slab q b u hq hu
    refine ⟨?_, ?_, ?_⟩
    · rintro rfl
      exact new.fresh_lock.1 hlive
    · rintro rfl
      exact new.fresh_meminfo.1 hlive
    · rintro rfl
      exact new.fresh_process.1 hlive
  -- the processes that were there use what they used
  have hold : ∀ q b u, Alive w q → q ≠ p →
      (Uses (ProcessTasks.initProcess arch w mem lock meminfo p pml4) q b u ↔ Uses w q b u) := by
    intro q b u hq hqp
    have hmeminfo := (hused q _ .meminfo hq rfl).2.1
    cases u with
    | process => exact Iff.rfl
    | meminfo => simp [Uses, ProcessTasks.initProcess, hqp]
    | lock => simp [Uses, ProcessTasks.initProcess, hqp, hmeminfo]
    | node => simp [Uses, ProcessTasks.initProcess, hqp]
  have hnew : ∀ b u, Uses (ProcessTasks.initProcess arch w mem lock meminfo p pml4) p b u →
      (b = lock ∧ u = .lock) ∨ (b = meminfo ∧ u = .meminfo) ∨ (b = p ∧ u = .process) := by
    intro b u hu
    cases u with
    | process => exact Or.inr (Or.inr ⟨hu, rfl⟩)
    | meminfo =>
      simp [Uses, ProcessTasks.initProcess] at hu
      exact Or.inr (Or.inl ⟨hu, rfl⟩)
    | lock =>
      simp [Uses, ProcessTasks.initProcess] at hu
      exact Or.inl ⟨hu, rfl⟩
    | node => simp [Uses, ProcessTasks.initProcess] at hu
  refine ⟨Function.update (Function.update (Function.update tag lock (some (p, .lock))) meminfo
    (some (p, .meminfo))) p (some (p, .process)), new.kept.sound, ?_, ?_, ?_, ?_, ?_, ?_, ?_⟩
  · intro q b u hq hu
    rcases alive_initProcess.mp hq with rfl | ⟨hqp, hq⟩
    · rcases hnew b u hu with ⟨rfl, rfl⟩ | ⟨rfl, rfl⟩ | ⟨rfl, rfl⟩
      · rw [Function.update_of_ne new.lock_process, Function.update_of_ne new.lock_meminfo,
          Function.update_self]
      · rw [Function.update_of_ne new.meminfo_process, Function.update_self]
      · rw [Function.update_self]
    · rw [hold q b u hq hqp] at hu
      obtain ⟨hlock, hmeminfo, hprocess⟩ := hused q b u hq hu
      rw [Function.update_of_ne hprocess, Function.update_of_ne hmeminfo,
        Function.update_of_ne hlock]
      exact h.tagged q b u hq hu
  · intro q b u hq hu
    rcases alive_initProcess.mp hq with rfl | ⟨hqp, hq⟩
    · rcases hnew b u hu with ⟨rfl, -⟩ | ⟨rfl, -⟩ | ⟨rfl, -⟩
      · exact new.fresh_lock.2
      · exact new.fresh_meminfo.2
      · exact new.fresh_process.2
    · exact new.kept.slab b (h.slab q b u hq ((hold q b u hq hqp).mp hu))
  · intro q t hq ht
    rcases alive_initProcess.mp hq with rfl | ⟨hqp, hq⟩
    · simp [ProcessTasks.initProcess] at ht
    · simp only [ProcessTasks.initProcess, Function.update_of_ne hqp] at ht
      exact new.kept.fba t (h.fba q t hq ht)
  · intro q hq
    rcases alive_initProcess.mp hq with rfl | ⟨hqp, hq⟩
    · simp [ProcessTasks.initProcess, cleared, Chain]
    · simp only [ProcessTasks.initProcess, Function.update_of_ne hqp]
      exact h.list q hq
  · intro q hq
    rcases alive_initProcess.mp hq with rfl | ⟨hqp, hq⟩
    · simp [ProcessTasks.initProcess]
    · simp only [ProcessTasks.initProcess, Function.update_of_ne hqp]
      exact h.tasks q hq
  · intro q t hq ht
    rcases alive_initProcess.mp hq with rfl | ⟨hqp, hq⟩
    · simp [ProcessTasks.initProcess] at ht
    · simp only [ProcessTasks.initProcess, Function.update_of_ne hqp] at ht
      exact h.owner q t hq ht
  · intro q hq
    rcases alive_initProcess.mp hq with rfl | ⟨hqp, hq⟩
    · simp [ProcessTasks.initProcess]
    · simp only [ProcessTasks.initProcess, Function.update_of_ne hqp]
      exact h.nodup q hq

theorem Ended.initProcess (h : Ended w) :
    Ended (initProcess arch w mem lock meminfo p pml4) := by
  intro q hq
  by_cases hqp : q = p
  · simp [ProcessTasks.initProcess, hqp]
  · simp only [ProcessTasks.initProcess, Function.update_of_ne hqp] at hq ⊢
    exact h q hq

/-- A new task comes first on the list of its process. -/
theorem Holds.initTask (h : Holds blocks w tag) (hp : Alive w owner)
    (new : NewTask blocks w.mem mem task node) :
    ∃ tag', Holds blocks
      (initTask arch w mem owner task node top sp bootstrap func cls) tag' := by
  have hused : ∀ q b u, Alive w q → Uses w q b u → b ≠ node := by
    rintro q b u hq hu rfl
    exact new.fresh_node.1 (h.slab q b u hq hu)
  have hrunning : ∀ q t, Alive w q → t ∈ w.history.tasks q → t ≠ task := by
    rintro q t hq ht rfl
    exact new.fresh_task.1 (h.fba q t hq ht)
  have hnodes : ∀ q n, Alive w q → n ∈ w.history.nodes q → n ≠ node :=
    fun q n hq hn => hused q n .node hq hn
  have huses : ∀ q b u, Alive w q →
      Uses (ProcessTasks.initTask arch w mem owner task node top sp bootstrap func cls) q b u →
      (q = owner ∧ b = node ∧ u = .node) ∨ Uses w q b u := by
    intro q b u hq hu
    by_cases hqo : q = owner
    · cases u with
      | process => exact Or.inr hu
      | meminfo =>
        simp only [Uses, ProcessTasks.initTask, hqo, Function.update_self] at hu
        rw [hqo]
        exact Or.inr hu
      | lock =>
        simp only [Uses, ProcessTasks.initTask, hqo, Function.update_self] at hu
        rw [hqo]
        exact Or.inr hu
      | node =>
        simp only [Uses, ProcessTasks.initTask, hqo, Function.update_self] at hu
        rw [hqo]
        rcases List.mem_cons.mp hu with hb | hb
        · exact Or.inl ⟨rfl, hb, rfl⟩
        · exact Or.inr hb
    · cases u with
      | process => exact Or.inr hu
      | meminfo =>
        simpa only [Uses, ProcessTasks.initTask, Function.update_of_ne hqo] using Or.inr hu
      | lock =>
        simpa only [Uses, ProcessTasks.initTask, Function.update_of_ne hqo] using Or.inr hu
      | node =>
        simpa only [Uses, ProcessTasks.initTask, Function.update_of_ne hqo] using Or.inr hu
  have hlink : link (ProcessTasks.initTask arch w mem owner task node top sp bootstrap func cls) =
      Function.update (link w) node (w.processes owner).tasks := by
    funext n
    by_cases hn : n = node
    · simp [link, ProcessTasks.initTask, hn]
    · simp [link, ProcessTasks.initTask, hn]
  have hmap : ∀ q, Alive w q → (w.history.nodes q).map (fun n => (Function.update w.nodes node
      ⟨(w.processes owner).tasks, some task⟩ n).task) = (w.history.tasks q).map some := by
    intro q hq
    rw [← h.tasks q hq]
    apply List.map_congr_left
    intro n hn
    rw [Function.update_of_ne (hnodes q n hq hn)]
  refine ⟨Function.update tag node (some (owner, .node)), new.kept.sound, ?_, ?_, ?_, ?_, ?_, ?_,
    ?_⟩
  · intro q b u hq hu
    rcases huses q b u hq hu with ⟨rfl, rfl, rfl⟩ | hu
    · rw [Function.update_self]
    · rw [Function.update_of_ne (hused q b u hq hu)]
      exact h.tagged q b u hq hu
  · intro q b u hq hu
    rcases huses q b u hq hu with ⟨rfl, rfl, rfl⟩ | hu
    · exact new.fresh_node.2
    · exact new.kept.slab b (h.slab q b u hq hu)
  · intro q t hq ht
    by_cases hqo : q = owner
    · simp only [ProcessTasks.initTask, hqo, Function.update_self] at ht
      rcases List.mem_cons.mp ht with rfl | ht
      · exact new.fresh_task.2
      · exact new.kept.fba t (h.fba owner t hp ht)
    · simp only [ProcessTasks.initTask, Function.update_of_ne hqo] at ht
      exact new.kept.fba t (h.fba q t hq ht)
  · intro q hq
    rw [hlink]
    by_cases hqo : q = owner
    · simp only [ProcessTasks.initTask, hqo, Function.update_self]
      exact (h.list owner hp).push fun hn => hnodes owner node hp hn rfl
    · simp only [ProcessTasks.initTask, Function.update_of_ne hqo]
      exact Seg.update (h.list q hq) fun hn => hnodes q node hq hn rfl
  · intro q hq
    by_cases hqo : q = owner
    · simp only [ProcessTasks.initTask, hqo, Function.update_self, List.map_cons]
      rw [hmap owner hp]
    · simp only [ProcessTasks.initTask, Function.update_of_ne hqo]
      exact hmap q hq
  · intro q t hq ht
    by_cases hqo : q = owner
    · simp only [ProcessTasks.initTask, hqo, Function.update_self] at ht ⊢
      rcases List.mem_cons.mp ht with rfl | ht
      · rw [Function.update_self]
      · rw [Function.update_of_ne (hrunning owner t hp ht)]
        exact h.owner owner t hp ht
    · simp only [ProcessTasks.initTask, Function.update_of_ne hqo] at ht ⊢
      rw [Function.update_of_ne (hrunning q t hq ht)]
      exact h.owner q t hq ht
  · intro q hq
    by_cases hqo : q = owner
    · simp only [ProcessTasks.initTask, hqo, Function.update_self]
      refine List.nodup_cons.mpr ⟨fun ht => ?_, h.nodup owner hp⟩
      exact hrunning owner task hp ht rfl
    · simp only [ProcessTasks.initTask, Function.update_of_ne hqo]
      exact h.nodup q hq

theorem Ended.initTask (h : Ended w) (hp : Alive w owner) :
    Ended (initTask arch w mem owner task node top sp bootstrap func cls) := by
  intro q hq
  by_cases hqo : q = owner
  · simp [ProcessTasks.initTask, hqo, hp.2]
  · simp only [ProcessTasks.initTask, Function.update_of_ne hqo] at hq ⊢
    exact h q hq

end Creating

/-! ## Taking a task off the list -/

/-- Where a walk over some nodes from `curr` on has arrived. -/
def lastLink (curr : Link) : List (BitVec 64) → Link
  | [] => curr
  | n :: ns => lastLink (.next n) ns

theorem lastLink_append (curr : Link) (ns : List (BitVec 64)) (n : BitVec 64) :
    lastLink curr (ns ++ [n]) = .next n := by
  induction ns generalizing curr with
  | nil => rfl
  | cons m ns ih => exact ih (.next m)

section Removing

variable {A : Type} {arch : Arch} {ops : Allocators A} {blocks : Blocks A}
  {w : World A} {tag : BitVec 64 → Option (BitVec 64 × Use)} {p q n t : BitVec 64}
  {value : Option (BitVec 64)} {before after front back : List (BitVec 64)} {mem : A} {curr : Link}

/-- The search stops at the node of the task, and has visited the nodes up to it. -/
theorem removeLoop_finds (chain : Chain (link w) (w.follow curr) (before ++ n :: after))
    (others : ∀ m ∈ before, (w.nodes m).task ≠ some t) (found : (w.nodes n).task = some t)
    {fuel : Nat} (enough : before.length < fuel) :
    removeLoop ops p t fuel w curr =
      (unlinkNode ops w p n (lastLink curr before)).map fun w => (before ++ [n], w) := by
  induction before generalizing curr fuel with
  | nil =>
    obtain ⟨fuel, rfl⟩ := Nat.exists_eq_add_one_of_ne_zero (Nat.ne_zero_of_lt enough)
    have hfollow : w.follow curr = some n := chain.1
    rw [removeLoop, hfollow]
    exact if_pos found
  | cons m before ih =>
    obtain ⟨fuel, rfl⟩ := Nat.exists_eq_add_one_of_ne_zero (Nat.ne_zero_of_lt enough)
    obtain ⟨hfollow, hrest⟩ := chain
    have hloop := @ih (.next m) hrest (fun x hx => others x (List.mem_cons_of_mem _ hx)) fuel
      (Nat.lt_of_succ_lt_succ enough)
    rw [removeLoop, hfollow]
    dsimp only
    rw [if_neg (others m List.mem_cons_self), hloop, Option.map_map]
    rfl

theorem link_setLink_next (m : BitVec 64) :
    link (w.setLink value (.next m)) = Function.update (link w) m value := by
  funext x
  by_cases hx : x = m
  · simp [link, World.setLink, hx]
  · simp [link, World.setLink, hx]

/-- Beside the link nothing is written. -/
theorem setLink_task (curr : Link) (x : BitVec 64) :
    ((w.setLink value curr).nodes x).task = (w.nodes x).task := by
  cases curr with
  | head p => rfl
  | next m =>
    by_cases hx : x = m
    · simp [World.setLink, hx]
    · simp [World.setLink, hx]

theorem setLink_meminfo (curr : Link) (x : BitVec 64) :
    ((w.setLink value curr).processes x).meminfo = (w.processes x).meminfo := by
  cases curr with
  | head p =>
    by_cases hx : x = p
    · simp [World.setLink, hx]
    · simp [World.setLink, hx]
  | next m => rfl

theorem setLink_meminfos (curr : Link) : (w.setLink value curr).meminfos = w.meminfos := by
  cases curr with
  | head p => rfl
  | next m => rfl

theorem setLink_tasks (curr : Link) : (w.setLink value curr).tasks = w.tasks := by
  cases curr with
  | head p => rfl
  | next m => rfl

/-- The list without the node behind a part of it. -/
theorem unlinked_chain (chain : Chain (link w) (w.processes p).tasks (before ++ n :: after)) :
    Chain (link (w.setLink (w.nodes n).next (lastLink (.head p) before)))
      ((w.setLink (w.nodes n).next (lastLink (.head p) before)).processes p).tasks
      (before ++ after) := by
  rcases List.eq_nil_or_concat' before with rfl | ⟨others, m, rfl⟩
  · have hhead : ((w.setLink (w.nodes n).next (.head p)).processes p).tasks = link w n := by
      simp [World.setLink, link]
    show Chain (link w) ((w.setLink (w.nodes n).next (.head p)).processes p).tasks after
    rw [hhead]
    exact chain.2
  · rw [lastLink_append, link_setLink_next, List.append_assoc, List.singleton_append]
    rw [List.append_assoc, List.singleton_append] at chain
    exact chain.unlinkAfter

/-- The lists of the other processes. -/
theorem unlinked_others (hqp : q ≠ p) (off : ∀ m ∈ before, m ∉ back)
    (chain : Chain (link w) (w.processes q).tasks back) :
    Chain (link (w.setLink value (lastLink (.head p) before)))
      ((w.setLink value (lastLink (.head p) before)).processes q).tasks back := by
  rcases List.eq_nil_or_concat' before with rfl | ⟨others, m, rfl⟩
  · have hhead : ((w.setLink value (.head p)).processes q).tasks = (w.processes q).tasks := by
      simp [World.setLink, hqp]
    show Chain (link w) ((w.setLink value (.head p)).processes q).tasks back
    rw [hhead]
    exact chain
  · rw [lastLink_append, link_setLink_next]
    exact Seg.update chain (off m (by simp))

/-- After the node of a task has been taken off the list of its process. -/
def removed (w : World A) (p n : BitVec 64) (mem : A) (before nodes tasks : List (BitVec 64)) :
    World A :=
  { w.setLink (w.nodes n).next (lastLink (.head p) before) with
    mem := mem
    history := { w.history with
      nodes := Function.update w.history.nodes p nodes
      tasks := Function.update w.history.tasks p tasks
      exits := Function.update w.history.exits p (w.history.exits p + 1) } }

/-- The node of a task on the list of its process. -/
theorem Holds.node_of_task (h : Holds blocks w tag) (hp : Alive w p)
    (ht : t ∈ w.history.tasks p) :
    ∃ before n after front back, w.history.nodes p = before ++ n :: after ∧
      w.history.tasks p = front ++ t :: back ∧ t ∉ front ∧ t ∉ back ∧
      before.map (fun n => (w.nodes n).task) = front.map some ∧
      (w.nodes n).task = some t ∧ after.map (fun n => (w.nodes n).task) = back.map some := by
  obtain ⟨front, back, htasks⟩ := List.append_of_mem ht
  have hmap := h.tasks p hp
  have hnodup := h.nodup p hp
  rw [htasks] at hmap hnodup
  obtain ⟨-, hback, happart⟩ := List.nodup_append.mp hnodup
  rw [List.map_append, List.map_cons] at hmap
  obtain ⟨before, rest, hnodes, hbefore, hrest⟩ := List.map_eq_append_iff.mp hmap
  obtain ⟨n, after, rfl, hn, hafter⟩ := List.map_eq_cons_iff.mp hrest
  refine ⟨before, n, after, front, back, hnodes, htasks, ?_, (List.nodup_cons.mp hback).1, hbefore,
    hn, hafter⟩
  exact fun hf => happart t hf t List.mem_cons_self rfl

/-- The nodes before it are those of other tasks. -/
theorem other_tasks (hbefore : before.map (fun n => (w.nodes n).task) = front.map some)
    (off : t ∉ front) : ∀ m ∈ before, (w.nodes m).task ≠ some t := by
  intro m hm htask
  have hmem : (w.nodes m).task ∈ before.map fun n => (w.nodes n).task := List.mem_map_of_mem hm
  rw [hbefore, htask] at hmem
  obtain ⟨t', ht', hsame⟩ := List.mem_map.mp hmem
  rw [Option.some.inj hsame] at ht'
  exact off ht'

theorem Holds.remove (h : Holds blocks w tag) (hp : Alive w p)
    (hnodes : w.history.nodes p = before ++ n :: after)
    (htasks : w.history.tasks p = front ++ t :: back)
    (hbefore : before.map (fun n => (w.nodes n).task) = front.map some)
    (hafter : after.map (fun n => (w.nodes n).task) = back.map some)
    (released : Releases blocks w.mem mem n) :
    Holds blocks (removed w p n mem before (before ++ after) (front ++ back)) tag := by
  have hchain := h.list p hp
  have hnodup := chain_nodup hchain
  rw [hnodes] at hchain hnodup
  have hn : n ∈ w.history.nodes p := by
    rw [hnodes]
    simp
  have hn_off : n ∉ before ++ after := by
    have hperm : (before ++ n :: after).Perm (n :: (before ++ after)) := List.perm_middle
    exact (List.nodup_cons.mp (hperm.nodup_iff.mp hnodup)).1
  have huses : ∀ q b u, Alive w q →
      Uses (removed w p n mem before (before ++ after) (front ++ back)) q b u →
      Uses w q b u ∧ b ≠ n := by
    intro q b u hq hu
    have hold : Uses w q b u := by
      cases u with
      | process => exact hu
      | meminfo => exact Eq.trans hu (setLink_meminfo _ q)
      | lock =>
        have hlock : b = ((w.setLink (w.nodes n).next (lastLink (.head p) before)).meminfos
          ((w.setLink (w.nodes n).next
            (lastLink (.head p) before)).processes q).meminfo).pagesLock := hu
        rw [setLink_meminfos, setLink_meminfo] at hlock
        exact hlock
      | node =>
        have hb : b ∈ Function.update w.history.nodes p (before ++ after) q := hu
        by_cases hqp : q = p
        · rw [hqp, Function.update_self] at hb
          rw [hqp, Uses, hnodes]
          exact ((List.sublist_cons_self n after).append_left before).subset hb
        · rw [Function.update_of_ne hqp] at hb
          exact hb
    refine ⟨hold, ?_⟩
    rintro rfl
    obtain ⟨rfl, rfl⟩ := h.unique hq hp hold (show Uses w p b .node from hn)
    have hb : b ∈ Function.update w.history.nodes q (before ++ after) q := hu
    rw [Function.update_self] at hb
    exact hn_off hb
  have htasks' : ∀ q s, s ∈ Function.update w.history.tasks p (front ++ back) q →
      s ∈ w.history.tasks q := by
    intro q s hs
    by_cases hqp : q = p
    · rw [hqp, Function.update_self] at hs
      rw [hqp, htasks]
      exact ((List.sublist_cons_self t back).append_left front).subset hs
    · rw [Function.update_of_ne hqp] at hs
      exact hs
  constructor
  · exact released.sound
  · intro q b u hq hu
    exact h.tagged q b u hq (huses q b u hq hu).1
  · intro q b u hq hu
    obtain ⟨hold, hbn⟩ := huses q b u hq hu
    exact released.slab b hbn (h.slab q b u hq hold)
  · intro q s hq hs
    exact released.fba s (h.fba q s hq (htasks' q s hs))
  · intro q hq
    by_cases hqp : q = p
    · rw [hqp]
      have hlist : (removed w p n mem before (before ++ after) (front ++ back)).history.nodes
          p = before ++ after := Function.update_self _ _ _
      rw [hlist]
      exact unlinked_chain hchain
    · have hlist : (removed w p n mem before (before ++ after) (front ++ back)).history.nodes
          q = w.history.nodes q := Function.update_of_ne hqp _ _
      rw [hlist]
      refine unlinked_others hqp ?_ (h.list q hq)
      intro m hm hmq
      have hmp : Uses w p m .node := by
        rw [Uses, hnodes]
        simp [hm]
      exact hqp (h.unique hq hp (show Uses w q m .node from hmq) hmp).1
  · intro q hq
    have hsame : (fun x => ((removed w p n mem before (before ++ after)
        (front ++ back)).nodes x).task) = fun x => (w.nodes x).task := by
      funext x
      exact setLink_task _ x
    rw [hsame]
    by_cases hqp : q = p
    · simp only [removed, hqp, Function.update_self, List.map_append]
      rw [hbefore, hafter]
    · simp only [removed, Function.update_of_ne hqp]
      exact h.tasks q hq
  · intro q s hq hs
    have hsame : (removed w p n mem before (before ++ after) (front ++ back)).tasks =
        w.tasks := setLink_tasks _
    rw [hsame]
    exact h.owner q s hq (htasks' q s hs)
  · intro q hq
    by_cases hqp : q = p
    · simp only [removed, hqp, Function.update_self]
      have hall := h.nodup p hp
      rw [htasks] at hall
      exact hall.sublist ((List.sublist_cons_self t back).append_left front)
    · simp only [removed, Function.update_of_ne hqp]
      exact h.nodup q hq

end Removing

/-! ## Exiting -/

/-- After the blocks of a process have been freed. -/
def destroyed {A : Type} (w : World A) (p : BitVec 64) (mem : A) : World A :=
  { w with
    mem := mem
    history := { w.history with
      destroyed := Function.update w.history.destroyed p true } }

section Exiting

variable {A : Type} {arch : Arch} {ops : Allocators A} {blocks : Blocks A}
  {w w' : World A} {tag : BitVec 64 → Option (BitVec 64 × Use)} {p q n t : BitVec 64} {mem : A}

theorem alive_destroyed : Alive (destroyed w p mem) q ↔ q ≠ p ∧ Alive w q := by
  by_cases hqp : q = p
  · simp [Alive, destroyed, hqp]
  · simp [Alive, destroyed, hqp]

/-- The three blocks of a process go back. -/
def freeProcess (ops : Allocators A) (w : World A) (p : BitVec 64) : Option A :=
  let meminfo := (w.processes p).meminfo
  (ops.slabFree w.mem (w.meminfos meminfo).pagesLock).bind fun mem =>
    (ops.slabFree mem meminfo).bind fun mem => ops.slabFree mem p

theorem processDestroy_empty (none_left : (w.processes p).tasks = none) {fuel : Nat}
    (enough : 0 < fuel) :
    processDestroy ops fuel w p = (freeProcess ops w p).map (destroyed w p) := by
  obtain ⟨fuel, rfl⟩ := Nat.exists_eq_add_one_of_ne_zero (Nat.ne_of_gt enough)
  rw [processDestroy, none_left, destroyLoop, Option.bind_some, freeProcess]
  dsimp only
  rw [Option.map_bind]
  apply Option.bind_congr
  intro mem _
  rw [Function.comp_apply, Option.map_bind]
  rfl

/-- Once the lock is freed, the other two blocks are still live. -/
theorem Holds.blocks_live (lawful : Lawful ops blocks) (h : Holds blocks w tag) (hp : Alive w p)
    (free : ops.slabFree w.mem (w.meminfos (w.processes p).meminfo).pagesLock = some mem) :
    blocks.slabLive mem (w.processes p).meminfo ∧
      ∀ mem', Releases blocks mem mem' (w.processes p).meminfo → blocks.slabLive mem' p := by
  have hlock : Uses w p (w.meminfos (w.processes p).meminfo).pagesLock .lock := rfl
  have hmeminfo : Uses w p (w.processes p).meminfo .meminfo := rfl
  have hprocess : Uses w p p .process := rfl
  have hapart : ∀ b c u v, Uses w p b u → Uses w p c v → u ≠ v → b ≠ c := by
    rintro b c u v hu hv huv rfl
    exact huv (h.unique hp hp hu hv).2
  have hreleased := lawful.slab_free _ _ _ h.sound (h.slab p _ .lock hp hlock) free
  refine ⟨hreleased.slab _ ?_ (h.slab p _ .meminfo hp hmeminfo), fun mem' hmem' => ?_⟩
  · exact hapart _ _ _ _ hmeminfo hlock Use.noConfusion
  · refine hmem'.slab p (hapart _ _ _ _ hprocess hmeminfo Use.noConfusion) ?_
    refine hreleased.slab p ?_ (h.slab p p .process hp hprocess)
    exact hapart _ _ _ _ hprocess hlock Use.noConfusion

/-- What has been freed when a process has been destroyed. -/
theorem Holds.freed (lawful : Lawful ops blocks) (h : Holds blocks w tag) (hp : Alive w p)
    (free : freeProcess ops w p = some mem) :
    blocks.sound mem ∧ (∀ c, blocks.fbaLive w.mem c → blocks.fbaLive mem c) ∧
      ∀ c, (∀ u, ¬ Uses w p c u) → blocks.slabLive w.mem c → blocks.slabLive mem c := by
  obtain ⟨m₁, hfree₁, hrest⟩ := Option.bind_eq_some_iff.mp free
  obtain ⟨m₂, hfree₂, hfree₃⟩ := Option.bind_eq_some_iff.mp hrest
  obtain ⟨hlive₂, hlive₃⟩ := h.blocks_live lawful hp hfree₁
  have h₁ := lawful.slab_free _ _ _ h.sound (h.slab p _ .lock hp rfl) hfree₁
  have h₂ := lawful.slab_free _ _ _ h₁.sound hlive₂ hfree₂
  have h₃ := lawful.slab_free _ _ _ h₂.sound (hlive₃ m₂ h₂) hfree₃
  refine ⟨h₃.sound, fun c hc => h₃.fba c (h₂.fba c (h₁.fba c hc)), ?_⟩
  intro c unused hc
  have hne : ∀ b u, Uses w p b u → c ≠ b := by
    rintro b u hu rfl
    exact unused u hu
  refine h₃.slab c (hne p .process rfl) (h₂.slab c (hne _ .meminfo rfl) ?_)
  exact h₁.slab c (hne _ .lock rfl) hc

/-- A process without tasks gives its three blocks back. -/
theorem Holds.destroy (lawful : Lawful ops blocks) (h : Holds blocks w tag) (hp : Alive w p)
    (free : freeProcess ops w p = some mem) : Holds blocks (destroyed w p mem) tag := by
  obtain ⟨hsound, hfba, hslab⟩ := h.freed lawful hp free
  constructor
  · exact hsound
  · intro q b u hq hu
    exact h.tagged q b u (alive_destroyed.mp hq).2 hu
  · intro q b u hq hu
    obtain ⟨hqp, hq⟩ := alive_destroyed.mp hq
    refine hslab b (fun v hv => ?_) (h.slab q b u hq hu)
    exact hqp (h.unique hq hp hu hv).1
  · exact fun q s hq hs => hfba s (h.fba q s (alive_destroyed.mp hq).2 hs)
  · exact fun q hq => h.list q (alive_destroyed.mp hq).2
  · exact fun q hq => h.tasks q (alive_destroyed.mp hq).2
  · exact fun q s hq hs => h.owner q s (alive_destroyed.mp hq).2 hs
  · exact fun q hq => h.nodup q (alive_destroyed.mp hq).2

theorem Holds.freeProcess_returns (lawful : Lawful ops blocks) (h : Holds blocks w tag)
    (hp : Alive w p) (frees : FreesReturn ops blocks w.mem) : freeProcess ops w p ≠ none := by
  have hlive₁ := h.slab p _ .lock hp rfl
  obtain ⟨m₁, hfree₁⟩ := Option.ne_none_iff_exists'.mp (frees _ _ .refl hlive₁)
  obtain ⟨hlive₂, hlive₃⟩ := h.blocks_live lawful hp hfree₁
  have h₁ := lawful.slab_free _ _ _ h.sound hlive₁ hfree₁
  have hfrees₁ := frees.step hlive₁ hfree₁
  obtain ⟨m₂, hfree₂⟩ := Option.ne_none_iff_exists'.mp (hfrees₁ _ _ .refl hlive₂)
  have h₂ := lawful.slab_free _ _ _ h₁.sound hlive₂ hfree₂
  rw [freeProcess, hfree₁, Option.bind_some, hfree₂, Option.bind_some]
  exact (hfrees₁.step hlive₂ hfree₂) _ _ .refl (hlive₃ m₂ h₂)

/-- The page of a task that is on no list is freed. -/
theorem Holds.freeTask (lawful : Lawful ops blocks)
    (h : Holds blocks w tag) (live : blocks.fbaLive w.mem t)
    (off : ∀ p, Alive w p → t ∉ w.history.tasks p) :
    Holds blocks (taskDestroy ops w (some t)) tag := by
  obtain ⟨hsound, hfba, hslab⟩ := lawful.fba_free w.mem t h.sound live
  apply h.spared
  refine ⟨hsound, rfl, fun _ _ => rfl, fun _ _ => rfl, fun _ _ => rfl, fun _ _ _ _ => rfl,
    fun _ _ _ _ => rfl, ?_, ?_⟩
  · exact fun p b u hp hu => hslab b (h.slab p b u hp hu)
  · intro p s hp hs
    refine hfba s ?_ (h.fba p s hp hs)
    rintro rfl
    exact off p hp hs

/-- How a task is taken off the list of its process. -/
structure Removal (ops : Allocators A) (blocks : Blocks A) (w : World A)
    (p t n : BitVec 64) (before after front back : List (BitVec 64)) : Prop where
  nodes : w.history.nodes p = before ++ n :: after
  tasks : w.history.tasks p = front ++ t :: back
  off_front : t ∉ front
  off_back : t ∉ back
  tasks_before : before.map (fun n => (w.nodes n).task) = front.map some
  tasks_after : after.map (fun n => (w.nodes n).task) = back.map some
  live : blocks.slabLive w.mem n
  released : ∀ mem, ops.slabFree w.mem n = some mem → Releases blocks w.mem mem n
  call : ∀ history, ∀ fuel > before.length,
    taskRemoveFromProcess ops fuel { w with history := history } (some t) =
      (unlinkNode ops { w with history := history } p n (lastLink (.head p) before)).map fun w' =>
        (before ++ [n], w')

theorem Holds.removal (lawful : Lawful ops blocks) (h : Holds blocks w tag)
    (hp : Alive w p) (ht : t ∈ w.history.tasks p) :
    ∃ n before after front back, Removal ops blocks w p t n before after front back := by
  obtain ⟨before, n, after, front, back, hnodes, htasks, hfront, hback, hbefore, hn, hafter⟩ :=
    h.node_of_task hp ht
  have hn_live : blocks.slabLive w.mem n := by
    refine h.slab p n .node hp ?_
    rw [Uses, hnodes]
    simp
  refine ⟨n, before, after, front, back, hnodes, htasks, hfront, hback, hbefore, hafter, hn_live,
    fun mem free => lawful.slab_free w.mem n mem h.sound hn_live free, ?_⟩
  intro history fuel enough
  have hchain := h.list p hp
  rw [hnodes] at hchain
  have howner : (w.tasks t).owner = some p := h.owner p t hp ht
  rw [taskRemoveFromProcess]
  dsimp only
  rw [howner]
  exact @removeLoop_finds A ops { w with history := history } p n t before after (.head p)
    hchain (other_tasks hbefore hfront) hn fuel enough

/-- The history of an exit, and the list of its process without its node. -/
theorem Removal.removed {before after front back : List (BitVec 64)}
    (r : Removal ops blocks w p t n before after front back) (h : Holds blocks w tag)
    (hcurrent : w.current = some t) (hp : Alive w p) :
    (∀ fuel > before.length, taskRemoveFromProcess ops fuel (exitRecorded w) (some t) =
      (ops.slabFree w.mem n).map fun mem =>
        (before ++ [n], removed w p n mem before (before ++ after) (front ++ back))) ∧
    ∀ mem, ops.slabFree w.mem n = some mem →
      Holds blocks (removed w p n mem before (before ++ after) (front ++ back)) tag := by
  have ht : t ∈ w.history.tasks p := by
    rw [r.tasks]
    simp
  refine ⟨?_, fun mem free =>
    h.remove hp r.nodes r.tasks r.tasks_before r.tasks_after (r.released mem free)⟩
  intro fuel enough
  have hnodup := chain_nodup (h.list p hp)
  rw [r.nodes] at hnodup
  have hn_before : n ∉ before := fun hn =>
    (List.nodup_append.mp hnodup).2.2 n hn n List.mem_cons_self rfl
  have hrecorded : exitRecorded w = { w with history := { w.history with
      tasks := Function.update w.history.tasks p (front ++ back)
      exits := Function.update w.history.exits p (w.history.exits p + 1) } } := by
    rw [exitRecorded, hcurrent]
    dsimp only
    rw [h.owner p t hp ht]
    dsimp only
    rw [r.tasks, List.erase_append_right _ r.off_front, List.erase_cons_head]
  rw [hrecorded, r.call _ fuel enough, unlinkNode, Option.map_map]
  apply congrArg (fun f => Option.map f (ops.slabFree w.mem n))
  funext mem
  rw [Function.comp_apply, TaskExits.removed]
  dsimp only
  rw [r.nodes, List.erase_append_right _ hn_before, List.erase_cons_head]
  cases lastLink (.head p) before with
  | head q => rfl
  | next m => rfl

/-- Once the task is off the list, its process may be alive or not. -/
theorem Ended.afterRemoval (ended : Ended w) (hp : Alive w p) {before nodes tasks : List (BitVec 64)}
    (some_left : tasks ≠ []) : Ended (removed w p n mem before nodes tasks) := by
  intro q hq
  by_cases hqp : q = p
  · simp [removed, hqp, hp.2, some_left]
  · simp only [removed, Function.update_of_ne hqp]
    exact ended q hq

theorem Ended.afterDestroy (ended : Ended w) {mem' : A} {before nodes : List (BitVec 64)} :
    Ended (destroyed (removed w p n mem before nodes []) p mem') := by
  intro q hq
  by_cases hqp : q = p
  · simp [removed, destroyed, hqp]
  · simp only [removed, destroyed, Function.update_of_ne hqp]
    exact ended q hq

/-- The current task exits: its node goes, its process if it was the last one, and its page. -/
def exited (ops : Allocators A) (w : World A) (p t n : BitVec 64)
    (before nodes tasks : List (BitVec 64)) : Option (World A) :=
  (ops.slabFree w.mem n).bind fun mem =>
    let s := removed w p n mem before nodes tasks
    (if tasks = [] then (freeProcess ops s p).map (destroyed s p) else some s).map
      fun w' => taskDestroy ops w' (some t)

/-- The head of the list is null when there are no tasks left. -/
theorem Holds.head_null (h : Holds blocks w tag) (hp : Alive w p) :
    (w.processes p).tasks = none ↔ w.history.tasks p = [] := by
  have hlist := h.list p hp
  have hlengths := congrArg List.length (h.tasks p hp)
  rw [List.length_map, List.length_map] at hlengths
  constructor
  · intro hnone
    rw [hnone] at hlist
    have hempty : w.history.nodes p = [] := Chain.eq_nil hlist
    rw [hempty] at hlengths
    exact List.length_eq_zero_iff.mp hlengths.symm
  · intro hempty
    rw [hempty] at hlengths
    rw [List.length_eq_zero_iff.mp hlengths] at hlist
    exact hlist

theorem Removal.exit_call {before after front back : List (BitVec 64)}
    (r : Removal ops blocks w p t n before after front back) (h : Holds blocks w tag)
    (hcurrent : w.current = some t) (hp : Alive w p) {fuel : Nat} (enough : before.length < fuel) :
    exec arch ops fuel w .exit = exited ops w p t n before (before ++ after) (front ++ back) := by
  obtain ⟨hremove, hholds⟩ := r.removed h hcurrent hp
  have ht : t ∈ w.history.tasks p := by
    rw [r.tasks]
    simp
  have hrecorded : (exitRecorded w).current = some t ∧
      ((exitRecorded w).tasks t).owner = some p := by
    rw [exitRecorded, hcurrent]
    dsimp only
    rw [h.owner p t hp ht]
    exact ⟨rfl, h.owner p t hp ht⟩
  rw [exec, taskCurrentExitpoint, hrecorded.1, Option.bind_some, hrecorded.2, Option.bind_some,
    hremove fuel enough, exited, Option.bind_map]
  apply Option.bind_congr
  intro mem free
  rw [Function.comp_apply]
  dsimp only
  have hnull := (hholds mem free).head_null (p := p) hp
  have htasks : (TaskExits.removed w p n mem before (before ++ after)
      (front ++ back)).history.tasks p = front ++ back := Function.update_self _ _ _
  rw [htasks] at hnull
  by_cases hlast : front ++ back = []
  · rw [if_pos (hnull.mpr hlast), if_pos hlast,
      processDestroy_empty (hnull.mpr hlast) (Nat.zero_lt_of_lt enough)]
  · rw [if_neg fun hnone => hlast (hnull.mp hnone), if_neg hlast]

/-- After an exit that has returned. -/
theorem Removal.exited_spec {before after front back : List (BitVec 64)}
    (r : Removal ops blocks w p t n before after front back) (lawful : Lawful ops blocks)
    (h : Holds blocks w tag) (ended : Ended w) (hcurrent : w.current = some t) (hp : Alive w p)
    (run : exited ops w p t n before (before ++ after) (front ++ back) = some w') :
    (w'.history.destroyed p = true ↔ w.history.tasks p = [t]) ∧
      Holds blocks w' tag ∧ Ended w' := by
  have ht : t ∈ w.history.tasks p := by
    rw [r.tasks]
    simp
  obtain ⟨mem, free, hrest⟩ := Option.bind_eq_some_iff.mp run
  have hholds := (r.removed h hcurrent hp).2 mem free
  obtain ⟨s, hs⟩ : ∃ s, s = TaskExits.removed w p n mem before (before ++ after) (front ++ back) :=
    ⟨_, rfl⟩
  dsimp only at hrest
  rw [← hs] at hrest hholds
  have hlive : blocks.fbaLive s.mem t := by
    rw [hs]
    exact (r.released mem free).fba t (h.fba p t hp ht)
  have halive : ∀ q, Alive s q ↔ Alive w q := by
    intro q
    rw [hs]
    exact Iff.rfl
  have hoff : ∀ q, Alive w q → t ∉ s.history.tasks q := by
    intro q hq htq
    rw [hs] at htq
    by_cases hqp : q = p
    · simp only [TaskExits.removed, hqp, Function.update_self, List.mem_append] at htq
      exact htq.elim r.off_front r.off_back
    · simp only [TaskExits.removed, Function.update_of_ne hqp] at htq
      have howner := (h.owner q t hq htq).symm.trans (h.owner p t hp ht)
      exact hqp (Option.some.inj howner)
  obtain ⟨s', hs', rfl⟩ := Option.map_eq_some_iff.mp hrest
  by_cases hlast : front ++ back = []
  · -- it was the last one
    rw [if_pos hlast] at hs'
    obtain ⟨mem', hfree, rfl⟩ := Option.map_eq_some_iff.mp hs'
    obtain ⟨-, hfba, -⟩ := hholds.freed lawful ((halive p).mpr hp) hfree
    refine ⟨iff_of_true ?_ ?_, ?_, ?_⟩
    · exact Function.update_self _ _ _
    · have hfront : front = [] := (List.append_eq_nil_iff.mp hlast).1
      have hback : back = [] := (List.append_eq_nil_iff.mp hlast).2
      rw [r.tasks, hfront, hback]
      rfl
    · refine (hholds.destroy lawful ((halive p).mpr hp) hfree).freeTask lawful (hfba t hlive) ?_
      intro q hq
      exact hoff q ((halive q).mp (alive_destroyed.mp hq).2)
    · have hended := @Ended.afterDestroy A w p n mem ended mem' before (before ++ after)
      rw [hs, hlast]
      exact hended
  · -- other tasks remain
    rw [if_neg hlast] at hs'
    obtain rfl := Option.some.inj hs'
    refine ⟨iff_of_false ?_ ?_, ?_, ?_⟩
    · have hrunning : s.history.destroyed p = false := ((halive p).mpr hp).2
      intro hgone
      exact Bool.false_ne_true (hrunning.symm.trans hgone)
    · intro hone
      rw [r.tasks] at hone
      have hlength := congrArg List.length hone
      simp only [List.length_append, List.length_cons, List.length_nil] at hlength
      refine hlast (List.length_eq_zero_iff.mp ?_)
      rw [List.length_append]
      omega
    · exact hholds.freeTask lawful hlive fun q hq => hoff q ((halive q).mp hq)
    · have hended := @Ended.afterRemoval A w p n mem ended hp before (before ++ after) _ hlast
      rw [← hs] at hended
      exact hended

/-- An exit hangs in `slab_free` only. -/
theorem Removal.exited_returns {before after front back : List (BitVec 64)}
    (r : Removal ops blocks w p t n before after front back) (lawful : Lawful ops blocks)
    (h : Holds blocks w tag) (hcurrent : w.current = some t) (hp : Alive w p)
    (frees : FreesReturn ops blocks w.mem) :
    exited ops w p t n before (before ++ after) (front ++ back) ≠ none := by
  obtain ⟨mem, free⟩ := Option.ne_none_iff_exists'.mp (frees _ _ .refl r.live)
  have hholds := (r.removed h hcurrent hp).2 mem free
  have hreturns := hholds.freeProcess_returns (p := p) lawful hp (frees.step r.live free)
  obtain ⟨mem', hfree⟩ := Option.ne_none_iff_exists'.mp hreturns
  rw [exited, free, Option.bind_some]
  dsimp only
  rw [hfree]
  split_ifs <;> simp

/-! ## Runs -/

/-- A call whose result does not depend on the fuel from some amount on. -/
theorem returns_iff {op : Op A} {least : Nat} {result : Option (World A)}
    (calls : ∀ fuel > least, exec arch ops fuel w op = result) :
    Returns arch ops w op w' ↔ result = some w' := by
  constructor
  · rintro ⟨enough, hreturns⟩
    rw [← calls _ (Nat.lt_of_succ_le (le_max_left (least + 1) enough))]
    exact hreturns _ (le_max_right _ _)
  · intro hresult
    exact ⟨least + 1, fun fuel enough => (calls fuel enough).trans hresult⟩

/-- Every step whose process block is cleared keeps the lists and the record of what ended. -/
theorem step_kept (lawful : Lawful ops blocks) {op : Op A}
    (kept : (∃ tag, Holds blocks w tag) ∧ Ended w) (cleared : Cleared ops w op)
    (permitted : Permitted blocks w op) (returns : Returns arch ops w op w') :
    (∃ tag, Holds blocks w' tag) ∧ Ended w' := by
  obtain ⟨⟨tag, h⟩, ended⟩ := kept
  cases op with
  | create pml4 =>
    obtain ⟨enough, hcall⟩ := returns
    obtain ⟨⟨result, w₁⟩, hrun, rfl⟩ := Option.map_eq_some_iff.mp (hcall enough (Nat.le_refl _))
    rcases lawful.processCreate h.sound hrun with ⟨mem, rfl, hkept⟩ |
      ⟨mem, lock, meminfo, p, rfl, hnew, hanswer⟩
    · exact ⟨⟨tag, h.setMem hkept⟩, ended⟩
    · exact ⟨h.initProcess hnew (cleared p hanswer), ended.initProcess⟩
  | task owner sp sysSsp bootstrap func cls =>
    obtain ⟨enough, hcall⟩ := returns
    obtain ⟨⟨result, w₁⟩, hrun, rfl⟩ := Option.map_eq_some_iff.mp (hcall enough (Nat.le_refl _))
    rcases lawful.taskCreateNew h.sound hrun with ⟨mem, rfl, hkept⟩ |
      ⟨mem, task, node, top, rfl, hnew⟩
    · exact ⟨⟨tag, h.setMem hkept⟩, ended⟩
    · exact ⟨h.initTask permitted hnew, ended.initTask permitted⟩
  | exit =>
    obtain ⟨p, t, hcurrent, hp, ht⟩ := permitted
    obtain ⟨n, before, after, front, back, r⟩ := h.removal lawful hp ht
    have hresult := (returns_iff fun fuel enough => r.exit_call h hcurrent hp enough).mp returns
    obtain ⟨-, hholds, hended⟩ := r.exited_spec lawful h ended hcurrent hp hresult
    exact ⟨⟨tag, hholds⟩, hended⟩
  | elsewhere w'' =>
    obtain ⟨enough, hcall⟩ := returns
    obtain rfl := Option.some.inj (hcall enough (Nat.le_refl _))
    refine ⟨⟨tag, h.spared permitted⟩, ?_⟩
    rw [Ended, permitted.history]
    exact ended

theorem reachable_kept (lawful : Lawful ops blocks)
    (run : Reachable ((lifetimes arch ops blocks).restrict (Cleared ops)) w) :
    (∃ tag, Holds blocks w tag) ∧ Ended w := by
  refine run.invariant (fun w => (∃ tag, Holds blocks w tag) ∧ Ended w) ?_ ?_
  · rintro w ⟨hsound, hstart⟩
    have hnone : ∀ p, ¬ Alive w p := by
      rintro p ⟨hcreated, -⟩
      exact Bool.false_ne_true ((hstart p).symm.trans hcreated)
    refine ⟨⟨fun _ => none, ?_⟩, ?_⟩
    · constructor
      · exact hsound
      · exact fun p b u hp _ => absurd hp (hnone p)
      · exact fun p b u hp _ => absurd hp (hnone p)
      · exact fun p t hp _ => absurd hp (hnone p)
      · exact fun p hp => absurd hp (hnone p)
      · exact fun p hp => absurd hp (hnone p)
      · exact fun p t hp _ => absurd hp (hnone p)
      · exact fun p hp => absurd hp (hnone p)
    · intro p hcreated
      exact absurd ((hstart p).symm.trans hcreated) Bool.false_ne_true
  · rintro w op w' kept ⟨hcleared, hpermitted, hreturns⟩
    exact step_kept lawful kept hcleared hpermitted hreturns

/-- In a run in which each process is given a block with a null word for its list, a process goes
with its last task. -/
theorem Lawful.proper (lawful : Lawful ops blocks)
    (run : Reachable ((lifetimes arch ops blocks).restrict (Cleared ops)) w) :
    Proper arch ops blocks w := by
  obtain ⟨⟨tag, h⟩, ended⟩ := reachable_kept lawful run
  refine ⟨ended, ?_, ?_, ?_⟩
  · intro p t w' hcurrent hp ht returns
    obtain ⟨n, before, after, front, back, r⟩ := h.removal lawful hp ht
    have hresult := (returns_iff fun fuel enough => r.exit_call h hcurrent hp enough).mp returns
    exact (r.exited_spec lawful h ended hcurrent hp hresult).1
  · intro p t hcurrent hp ht frees
    obtain ⟨n, before, after, front, back, r⟩ := h.removal lawful hp ht
    obtain ⟨w', hresult⟩ :=
      Option.ne_none_iff_exists'.mp (r.exited_returns lawful h hcurrent hp frees)
    exact ⟨w', (returns_iff fun fuel enough => r.exit_call h hcurrent hp enough).mpr hresult⟩
  · intro p t hp ht
    obtain ⟨n, before, after, front, back, r⟩ := h.removal lawful hp ht
    refine ⟨before.length + 1, before ++ [n], n, lastLink (.head p) before, ?_,
      fun fuel enough => r.call w.history fuel enough⟩
    intro m hm
    rw [r.nodes]
    rcases List.mem_append.mp hm with hb | hn
    · exact List.mem_append_left _ hb
    · rw [List.mem_singleton.mp hn]
      simp

end Exiting

end TaskExits
