import AnosKernel.TaskBlocks

/-!
# What tasks leave behind

A task that is created without a kernel stack of the caller gets a page from the block allocator for
one. When it ends, its list node goes back to the slab allocator and its own page to the block
allocator. The stack does not go back.
-/

namespace TaskMemory

open FbaAlloc ProcessTasks Runs Scheduler StdRoutines TaskBlocks

/-- The arguments of a call without a kernel stack. -/
structure Request where
  owner : BitVec 64
  sp : BitVec 64
  bootstrap : BitVec 64
  func : BitVec 64
  cls : TaskClass

section Tasks

variable (arch : Arch)

/-- The tasks that are created, if all of the calls answer one. -/
def createTasks : List Request → ProcessTasks.World Memory →
    Option (List (BitVec 64) × ProcessTasks.World Memory)
  | [], w => some ([], w)
  | r :: rs, w =>
    match taskCreateNew arch allocators w r.owner r.sp 0 r.bootstrap r.func r.cls with
    | some (some task, w) => (createTasks rs w).map fun (tasks, w) => (task :: tasks, w)
    | _ => none

def endTasks (fuel : Nat) : List (BitVec 64) → ProcessTasks.World Memory →
    Option (ProcessTasks.World Memory)
  | [], w => some w
  | t :: ts, w =>
    (taskRemoveFromProcess allocators fuel w (some t)).bind fun (_, w) =>
      endTasks fuel ts (taskDestroy allocators w (some t))

/-- Both allocators have the same blocks in use. -/
structure SameBlocks (m m' : Memory) : Prop where
  fba : ∀ i < m.kernel.fba.fba.bitmapSizeBits.toNat,
    bit m'.kernel.fba.fba.bitmap i = bit m.kernel.fba.fba.bitmap i
  slab : ∀ b, b ∈ m'.kernel.slab.live ↔ b ∈ m.kernel.slab.live

end Tasks

/-! ## Creating -/

/-- Blocks are taken and none is given back. -/
structure Grows (fba fba' : Fba) : Prop where
  frame : fba' = { fba with bitmap := fba'.bitmap }
  keeps : ∀ i, bit fba.bitmap i = true → bit fba'.bitmap i = true

/-- The page of a task or a stack. -/
structure Block (fba : Fba) (b : BitVec 64) (i : Nat) : Prop where
  address : b = fba.fbaBegin + BitVec.ofNat 64 i * FbaAlloc.vmPageSize
  inside : i < fba.fbaSizeBlocks.toNat

section Creating

variable {arch : Arch} {fba fba' fba'' : Fba} {m : Memory} {w w' : ProcessTasks.World Memory}
  {b owner sp bootstrap func task : BitVec 64} {cls : TaskClass} {i n align : Nat}
  {rs : List Request} {tasks : List (BitVec 64)}

theorem Grows.refl : Grows fba fba := ⟨rfl, fun _ hi => hi⟩

theorem Grows.trans (first : Grows fba fba') (second : Grows fba' fba'') : Grows fba fba'' := by
  refine ⟨?_, fun i hi => second.keeps i (first.keeps i hi)⟩
  rw [second.frame, first.frame]

theorem Grows.sized (h : Grows fba fba') (sized : Sized fba) : Sized fba' := sized.of_frame h.frame

theorem Grows.clear (h : Grows fba fba') (clear : bit fba'.bitmap i = false) :
    bit fba.bitmap i = false := by
  rw [← Bool.not_eq_true] at clear ⊢
  exact fun hset => clear (h.keeps i hset)

theorem Grows.block_iff (h : Grows fba fba') : Block fba' b i ↔ Block fba b i := by
  rw [h.frame]
  exact ⟨fun block => ⟨block.address, block.inside⟩, fun block => ⟨block.address, block.inside⟩⟩

theorem grows_of_gives {outcome : Option (BitVec 64) × Fba} (h : Gives fba n align outcome) :
    Grows fba outcome.2 := ⟨h.frame, h.keeps⟩

theorem fbaAllocBlock_grows (sized : Sized m.kernel.fba.fba) :
    Grows m.kernel.fba.fba (fbaAllocBlock m).2.kernel.fba.fba :=
  grows_of_gives (allocBlock_gives sized (m.answers 0 0))

/-- The block of an answer was clear. -/
theorem fbaAllocBlock_block (sized : Sized m.kernel.fba.fba)
    (answer : (fbaAllocBlock m).1 = some b) :
    ∃ i, Block m.kernel.fba.fba b i ∧ bit m.kernel.fba.fba.bitmap i = false ∧
      bit (fbaAllocBlock m).2.kernel.fba.fba.bitmap i = true := by
  obtain ⟨first, haddress, -, -, hend, hbits⟩ :=
    (allocBlock_gives sized (m.answers 0 0)).gives b answer
  obtain ⟨hclear, hset⟩ := hbits 0 Nat.one_pos
  exact ⟨first, ⟨haddress, by omega⟩, hclear, hset⟩

/-- A slab block may take a new slab. -/
theorem slabAllocBlock_grows (sized : Sized m.kernel.fba.fba) :
    Grows m.kernel.fba.fba (slabAllocBlock m).2.kernel.fba.fba := by
  have hcall : (slabAllocBlock m).2.kernel.fba = (m.kernel.askFba (m.answers 0)).2 := rfl
  rw [hcall, SlabBlocks.Kernel.askFba]
  split_ifs
  · exact grows_of_gives (allocBlocksAligned_gives sized 4 4)
  · exact Grows.refl

/-- A task and its stack get two blocks that were clear. -/
structure Takes (fba fba' : Fba) (task : BitVec 64) (i j : Nat) : Prop where
  grows : Grows fba fba'
  block : Block fba task i
  clear_task : bit fba.bitmap i = false
  inside : j < fba.fbaSizeBlocks.toNat
  clear_stack : bit fba.bitmap j = false
  set_stack : bit fba'.bitmap j = true
  apart : i ≠ j

theorem taskCreateNew_takes (sized : Sized w.mem.kernel.fba.fba)
    (run : taskCreateNew arch allocators w owner sp 0 bootstrap func cls =
      some (some task, w')) :
    ∃ i j, Takes w.mem.kernel.fba.fba w'.mem.kernel.fba.fba task i j := by
  rw [taskCreateNew] at run
  have hgrows₁ := fbaAllocBlock_grows sized
  rcases htask : allocators.fbaAllocBlock w.mem with ⟨_ | t, m₁⟩
  · rw [htask] at run
    exact absurd run (by simp)
  · obtain ⟨i, hblock, hclear, hset⟩ := fbaAllocBlock_block sized (congrArg Prod.fst htask)
    have hm₁ : (fbaAllocBlock w.mem).2 = m₁ := congrArg Prod.snd htask
    rw [hm₁] at hgrows₁ hset
    have hsized₁ := hgrows₁.sized sized
    have hgrows₂ := fbaAllocBlock_grows hsized₁
    rw [htask] at run
    dsimp only at run
    rw [kernelStack, if_pos rfl] at run
    rcases hstack : allocators.fbaAllocBlock m₁ with ⟨_ | stack, m₂⟩
    · rw [hstack] at run
      exact absurd run (by simp)
    · obtain ⟨j, hblock', hclear', hset'⟩ :=
        fbaAllocBlock_block hsized₁ (congrArg Prod.fst hstack)
      have hm₂ : (fbaAllocBlock m₁).2 = m₂ := congrArg Prod.snd hstack
      rw [hm₂] at hgrows₂ hset'
      have hgrows₃ := slabAllocBlock_grows (hgrows₂.sized hsized₁)
      rw [hstack] at run
      dsimp only [Option.map_some] at run
      rcases hnode : allocators.slabAllocBlock m₂ with ⟨_ | node, m₃⟩
      · rw [hnode] at run
        exact absurd run (by simp)
      · have hm₃ : (slabAllocBlock m₂).2 = m₃ := congrArg Prod.snd hnode
        rw [hm₃] at hgrows₃
        rw [hnode] at run
        obtain ⟨hresult, rfl⟩ := Prod.mk.inj (Option.some.inj run)
        obtain rfl := Option.some.inj hresult
        refine ⟨i, j, (hgrows₁.trans hgrows₂).trans hgrows₃, hblock, hclear,
          (hgrows₁.block_iff.mp hblock').inside, hgrows₁.clear hclear', hgrows₃.keeps j hset', ?_⟩
        rintro rfl
        rw [hset] at hclear'
        exact Bool.false_ne_true hclear'.symm

theorem createTasks_pages (sized : Sized w.mem.kernel.fba.fba)
    (run : createTasks arch rs w = some (tasks, w')) :
    Grows w.mem.kernel.fba.fba w'.mem.kernel.fba.fba ∧ ∀ t ∈ tasks, ∃ i,
      Block w.mem.kernel.fba.fba t i ∧ bit w.mem.kernel.fba.fba.bitmap i = false := by
  induction rs generalizing w tasks with
  | nil =>
    obtain ⟨rfl, rfl⟩ := Prod.mk.inj (Option.some.inj run)
    exact ⟨Grows.refl, fun t ht => absurd ht List.not_mem_nil⟩
  | cons r rs ih =>
    rw [createTasks] at run
    rcases hcall : taskCreateNew arch allocators w r.owner r.sp 0 r.bootstrap r.func r.cls with
      _ | ⟨_ | task, w₁⟩
    · rw [hcall] at run
      exact absurd run (by simp)
    · rw [hcall] at run
      exact absurd run (by simp)
    · rw [hcall] at run
      obtain ⟨⟨rest, w₂⟩, hrest, hresult⟩ := Option.map_eq_some_iff.mp run
      obtain ⟨rfl, rfl⟩ := Prod.mk.inj hresult
      obtain ⟨i, j, htakes⟩ := taskCreateNew_takes sized hcall
      obtain ⟨hgrows, hpages⟩ := ih (htakes.grows.sized sized) hrest
      refine ⟨htakes.grows.trans hgrows, fun t ht => ?_⟩
      rcases List.mem_cons.mp ht with rfl | ht
      · exact ⟨i, htakes.block, htakes.clear_task⟩
      · obtain ⟨k, hblock, hclear⟩ := hpages t ht
        exact ⟨k, htakes.grows.block_iff.mp hblock, htakes.grows.clear hclear⟩

end Creating

/-! ## Ending -/

section Ending

variable {arch : Arch} {fuel : Nat} {w w' : ProcessTasks.World Memory} {p t : BitVec 64}
  {curr : Link} {visited tasks ends : List (BitVec 64)} {task : Option (BitVec 64)} {j : Nat}
  {rs : List Request}

/-- A node goes back to its slab. -/
theorem removeLoop_fba (run : removeLoop allocators p t fuel w curr = some (visited, w')) :
    w'.mem.kernel.fba = w.mem.kernel.fba := by
  induction fuel generalizing curr visited with
  | zero => exact absurd run (by simp [removeLoop])
  | succ fuel ih =>
    rw [removeLoop] at run
    rcases hfollow : w.follow curr with _ | node
    · rw [hfollow] at run
      obtain ⟨-, rfl⟩ := Prod.mk.inj (Option.some.inj run)
      rfl
    · rw [hfollow] at run
      dsimp only at run
      split_ifs at run with hfound
      · obtain ⟨w₁, hunlink, hresult⟩ := Option.map_eq_some_iff.mp run
        obtain ⟨-, rfl⟩ := Prod.mk.inj hresult
        obtain ⟨mem, hfree, rfl⟩ := Option.map_eq_some_iff.mp hunlink
        obtain ⟨_, _, -, rfl⟩ := slabFree_cases hfree
        rfl
      · obtain ⟨⟨rest, w₁⟩, hrest, hresult⟩ := Option.map_eq_some_iff.mp run
        obtain ⟨-, rfl⟩ := Prod.mk.inj hresult
        exact ih hrest

theorem taskRemoveFromProcess_fba
    (run : taskRemoveFromProcess allocators fuel w task = some (visited, w')) :
    w'.mem.kernel.fba = w.mem.kernel.fba := by
  rw [taskRemoveFromProcess.eq_def] at run
  split at run
  · obtain ⟨-, rfl⟩ := Prod.mk.inj (Option.some.inj run)
    rfl
  · split at run
    · obtain ⟨-, rfl⟩ := Prod.mk.inj (Option.some.inj run)
      rfl
    · exact removeLoop_fba run

/-- The pages of the tasks are freed, and no other block. -/
theorem endTasks_others (sized : Sized w.mem.kernel.fba.fba)
    (pages : ∀ t ∈ ends, ∃ i, Block w.mem.kernel.fba.fba t i ∧ i ≠ j)
    (run : endTasks fuel ends w = some w') :
    bit w'.mem.kernel.fba.fba.bitmap j = bit w.mem.kernel.fba.fba.bitmap j := by
  induction ends generalizing w with
  | nil =>
    obtain rfl := Option.some.inj run
    rfl
  | cons t ts ih =>
    obtain ⟨⟨visited, w₁⟩, hremove, hrest⟩ := Option.bind_eq_some_iff.mp run
    have hfba := taskRemoveFromProcess_fba hremove
    obtain ⟨i, ⟨haddress, hinside⟩, hother⟩ := pages t List.mem_cons_self
    have hfree : (taskDestroy allocators w₁ (some t)).mem.kernel.fba.fba =
        FbaAlloc.fbaFree w.mem.kernel.fba.fba t := by
      rw [← hfba]
      rfl
    have hframe := @fbaFree_frame w.mem.kernel.fba.fba t
    have hkept : bit (FbaAlloc.fbaFree w.mem.kernel.fba.fba t).bitmap j =
        bit w.mem.kernel.fba.fba.bitmap j := by
      rw [haddress]
      exact fbaFree_others sized hinside hother.symm
    rw [← hfree] at hframe hkept
    refine (ih (sized.of_frame hframe) ?_ hrest).trans hkept
    intro t' ht'
    obtain ⟨i', ⟨haddress', hinside'⟩, hother'⟩ := pages t' (List.mem_cons_of_mem _ ht')
    rw [hframe]
    exact ⟨i', ⟨haddress', hinside'⟩, hother'⟩

/-- The stack of a task that is created stays in use. -/
theorem stack_stays {r : Request} {w₁ w₂ : ProcessTasks.World Memory}
    (sized : Sized w.mem.kernel.fba.fba) (created : createTasks arch (r :: rs) w = some (tasks, w₁))
    (ends_perm : ends.Perm tasks) (ended : endTasks fuel ends w₁ = some w₂) :
    ∃ j < w.mem.kernel.fba.fba.fbaSizeBlocks.toNat, bit w.mem.kernel.fba.fba.bitmap j = false ∧
      bit w₂.mem.kernel.fba.fba.bitmap j = true := by
  rw [createTasks] at created
  rcases hcall : taskCreateNew arch allocators w r.owner r.sp 0 r.bootstrap r.func r.cls with
    _ | ⟨_ | task, w'⟩
  · rw [hcall] at created
    exact absurd created (by simp)
  · rw [hcall] at created
    exact absurd created (by simp)
  · rw [hcall] at created
    obtain ⟨⟨rest, w''⟩, hrest, hresult⟩ := Option.map_eq_some_iff.mp created
    obtain ⟨rfl, rfl⟩ := Prod.mk.inj hresult
    obtain ⟨i, j, htakes⟩ := taskCreateNew_takes sized hcall
    have hsized := htakes.grows.sized sized
    obtain ⟨hgrows, hpages⟩ := createTasks_pages hsized hrest
    refine ⟨j, htakes.inside, htakes.clear_stack, ?_⟩
    rw [endTasks_others (hgrows.sized hsized) ?_ ended]
    · exact hgrows.keeps j htakes.set_stack
    · intro t ht
      rcases List.mem_cons.mp (ends_perm.mem_iff.mp ht) with rfl | ht
      · exact ⟨i, (htakes.grows.trans hgrows).block_iff.mpr htakes.block, htakes.apart⟩
      · obtain ⟨k, hblock, hclear⟩ := hpages t ht
        refine ⟨k, hgrows.block_iff.mpr hblock, ?_⟩
        rintro rfl
        exact Bool.false_ne_true (hclear.symm.trans htakes.set_stack)

end Ending

/-- Creating tasks and ending them again gives back all of their blocks only where there are no
tasks. -/
theorem blocks_restored_iff {arch : Arch} {w w₁ : ProcessTasks.World Memory} {rs : List Request}
    {tasks ends : List (BitVec 64)} (reachable : Reachable SlabBlocks.slabOverFba w.mem.kernel)
    (created : createTasks arch rs w = some (tasks, w₁)) (ends_perm : ends.Perm tasks) :
    (∃ fuel w₂, endTasks fuel ends w₁ = some w₂ ∧ SameBlocks w.mem w₂.mem) ↔ rs = [] := by
  have hsized : Sized w.mem.kernel.fba.fba :=
    (FbaAlloc.reachable_inv (SlabBlocks.reachable_linked reachable).fba).sized
  constructor
  · rintro ⟨fuel, w₂, hended, hsame⟩
    cases rs with
    | nil => rfl
    | cons r rs =>
      obtain ⟨j, hinside, hclear, hset⟩ := stack_stays hsized created ends_perm hended
      rw [← hsized.bits] at hinside
      rw [hsame.fba j hinside, hclear] at hset
      exact absurd hset Bool.false_ne_true
  · rintro rfl
    obtain ⟨rfl, rfl⟩ := Prod.mk.inj (Option.some.inj created)
    obtain rfl := ends_perm.eq_nil
    exact ⟨0, w, rfl, fun _ _ => rfl, fun _ => Iff.rfl⟩

/-- A task of the process in `withProcess`. -/
def oneTask : Request := ⟨0x80c0, 0x9000, 0x1000, 0x2000, .normal⟩

theorem slabAllocBlock_reachable {m : Memory} (h : Reachable SlabBlocks.slabOverFba m.kernel) :
    Reachable SlabBlocks.slabOverFba (slabAllocBlock m).2.kernel := by
  apply @Reachable.next _ _ _ _ _ (.alloc (m.answers 0)) h
  exact And.intro (show SlabBlocks.Valid m.kernel (.alloc (m.answers 0)) from trivial) ⟨0, rfl⟩

theorem processMemory_reachable : Reachable SlabBlocks.slabOverFba processMemory.kernel := by
  have hboot : Reachable SlabBlocks.slabOverFba bootMemory.kernel := by
    rw [bootMemory_kernel]
    exact SlabBlocks.booted_reachable
  exact slabAllocBlock_reachable (slabAllocBlock_reachable (slabAllocBlock_reachable hboot))

theorem createTasks_one : createTasks .x8664 [oneTask] (withProcess none) =
    some ([0x5000], withTask none) := by
  rw [createTasks, show taskCreateNew .x8664 allocators (withProcess none) oneTask.owner oneTask.sp 0
    oneTask.bootstrap oneTask.func oneTask.cls = some (some 0x5000, withTask none) from task_call]
  rfl

theorem blocks_restored_iff_one :
    (∃ fuel w₂, endTasks fuel [0x5000] (withTask none) = some w₂ ∧
      SameBlocks (withProcess none).mem w₂.mem) ↔ [oneTask] = [] :=
  blocks_restored_iff processMemory_reachable createTasks_one (List.Perm.refl _)

/-- The stack of one task. -/
theorem one_stack_stays : ¬ ∀ (w w₁ : ProcessTasks.World Memory) (rs : List Request)
    (tasks ends : List (BitVec 64)), Reachable SlabBlocks.slabOverFba w.mem.kernel →
    createTasks .x8664 rs w = some (tasks, w₁) → ends.Perm tasks →
    ∃ fuel w₂, endTasks fuel ends w₁ = some w₂ ∧ SameBlocks w.mem w₂.mem := by
  intro h
  obtain ⟨fuel, w₂, hended, hsame⟩ := h (withProcess none) (withTask none) [oneTask] [0x5000]
    [0x5000] processMemory_reachable createTasks_one (List.Perm.refl _)
  have hsized : Sized processMemory.kernel.fba.fba :=
    (FbaAlloc.reachable_inv linked_process.fba).sized
  obtain ⟨j, hinside, hclear, hset⟩ :=
    @stack_stays .x8664 _ (withProcess none) _ _ _ _ _ _ hsized createTasks_one (List.Perm.refl _)
      hended
  have hbits : processMemory.kernel.fba.fba.bitmapSizeBits =
      processMemory.kernel.fba.fba.fbaSizeBlocks := hsized.bits
  have hkept := hsame.fba j (show j < processMemory.kernel.fba.fba.bitmapSizeBits.toNat by
    rw [hbits]
    exact hinside)
  exact Bool.false_ne_true (hclear.symm.trans (hkept.symm.trans hset))

end TaskMemory
