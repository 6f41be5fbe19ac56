import AnosKernel.SlabBlocks
import AnosKernel.TaskExits

/-!
# The memory of processes and their tasks

The slab allocator over the block allocator, as `process_create` and `task_create_new` call them.
Blocks that are live are not given out again, so that task lists are kept as they are with any
allocators that follow these rules. What a recycled block holds is not the allocators' concern.
-/

namespace TaskBlocks

open ProcessTasks Runs StdRoutines TaskExits

/-- The two allocators, and what `page_alloc` answers during the calls to come. -/
structure Memory where
  kernel : SlabBlocks.Kernel
  answers : Nat → Nat → BitVec 64

/-- The answers that are left after a call. -/
def Memory.later (m : Memory) : Nat → Nat → BitVec 64 := fun i => m.answers (i + 1)

def slabAllocBlock (m : Memory) : Option (BitVec 64) × Memory :=
  let (block, kernel) := m.kernel.allocBlock (m.answers 0)
  (block, { kernel := kernel, answers := m.later })

/-- It searches a list of slabs, which it does not come to the end of where the list is a loop. -/
def slabFree (m : Memory) (block : BitVec 64) : Option Memory :=
  (SlabBlocks.exec (m.kernel.slab.obtained.length + 1) m.kernel (.free block)).map fun kernel =>
    { m with kernel := kernel }

def fbaAllocBlock (m : Memory) : Option (BitVec 64) × Memory :=
  let (block, fba) := m.kernel.fba.exec (.allocBlock (m.answers 0 0))
  (block, { kernel := { m.kernel with fba := fba }, answers := m.later })

def fbaFree (m : Memory) (block : BitVec 64) : Memory :=
  { m with kernel := { m.kernel with fba := (m.kernel.fba.exec (.free block)).2 } }

def allocators : Allocators Memory where
  slabAllocBlock := slabAllocBlock
  slabFree := slabFree
  fbaAllocBlock := fbaAllocBlock
  fbaFree := fbaFree

/-- The number of a block that is live and not part of a slab. -/
structure OwnBlock (k : SlabBlocks.Kernel) (b : BitVec 64) (i : Nat) : Prop where
  address : b = k.fba.fba.fbaBegin + BitVec.ofNat 64 i * FbaAlloc.vmPageSize
  live : k.fba.live i = true
  apart : ∀ slab ∈ k.slab.obtained, ∀ j < 4, k.fba.blockIndex slab + j ≠ i

def blocks : Blocks Memory where
  sound := fun m => SlabBlocks.Linked m.kernel
  slabLive := fun m b => b ∈ m.kernel.slab.live
  fbaLive := fun m b => ∃ i, OwnBlock m.kernel b i

section Laws

variable {k k' : SlabBlocks.Kernel} {m m' : Memory} {b c : BitVec 64} {i j : Nat}
  {pages : Nat → BitVec 64} {page : BitVec 64}

/-- The search of `slab_free` is given enough fuel. -/
theorem slabFree_returns_iff (sound : SlabBlocks.Linked m.kernel) :
    (slabFree m b).isSome ↔ ∃ fuel, (SlabBlocks.exec fuel m.kernel (.free b)).isSome := by
  have hwithin := (SlabBlocks.reachable_inv sound.slab).within
  simp only [slabFree, SlabBlocks.exec, Option.isSome_map]
  constructor
  · intro h
    exact ⟨_, h⟩
  · rintro ⟨fuel, h⟩
    obtain ⟨state, hstate⟩ := Option.isSome_iff_exists.mp h
    rw [SlabBlocks.slabFree_enough hwithin hstate]
    rfl

theorem OwnBlock.inside (h : OwnBlock k b i) (sound : SlabBlocks.Linked k) :
    i < k.fba.fba.fbaSizeBlocks.toNat :=
  ((FbaAlloc.reachable_inv sound.fba).within i h.live).2

theorem OwnBlock.index (h : OwnBlock k b i) (sound : SlabBlocks.Linked k) :
    k.fba.blockIndex b = i := by
  rw [h.address]
  exact (FbaAlloc.reachable_inv sound.fba).blockIndex_address (h.inside sound)

/-- The blocks of a slab are live. -/
theorem live_of_slab (sound : SlabBlocks.Linked k) {slab : BitVec 64}
    (mem : slab ∈ k.slab.obtained) (within : j < 4) :
    k.fba.live (k.fba.blockIndex slab + j) = true := by
  obtain ⟨first, hslab, hlive⟩ := sound.owned slab mem
  have hinv := FbaAlloc.reachable_inv sound.fba
  have hinside := (hinv.within first (hlive 0 (by decide))).2
  rw [hslab, hinv.blockIndex_address hinside]
  exact hlive j within

/-- The block stays its own while no slab is made of it. -/
theorem OwnBlock.kept (h : OwnBlock k b i)
    (begins : k'.fba.fba.fbaBegin = k.fba.fba.fbaBegin) (live : k'.fba.live i = true)
    (slabs : ∀ slab ∈ k'.slab.obtained, slab ∈ k.slab.obtained ∨
      ∀ j < 4, k.fba.blockIndex slab + j ≠ i) : OwnBlock k' b i := by
  refine ⟨?_, live, ?_⟩
  · rw [begins]
    exact h.address
  · intro slab hslab j hj
    have hindex : k'.fba.blockIndex slab = k.fba.blockIndex slab := by
      rw [FbaAlloc.World.blockIndex, FbaAlloc.World.blockIndex, begins]
    rw [hindex]
    rcases slabs slab hslab with hold | hnew
    · exact h.apart slab hold j hj
    · exact hnew j hj

/-- An allocation takes no block back. -/
theorem live_kept {w : FbaAlloc.World} {call : FbaAlloc.Call} (live : w.live i = true)
    (released : call.released.1 = 0) : (w.exec call).2.live i = true := by
  cases hresult : (FbaAlloc.run w.fba call).1 with
  | some a => rw [FbaAlloc.exec_live_some hresult, live, Bool.true_or]
  | none =>
    rw [FbaAlloc.exec_live_none hresult, live, Bool.true_and, Bool.not_eq_true',
      decide_eq_false_iff_not]
    exact fun h => h.1 released

/-- The blocks of an answer were not live. -/
theorem answer_apart {w : FbaAlloc.World} {call : FbaAlloc.Call}
    (reachable : Reachable FbaAlloc.fbaCalls w) (answer : (w.exec call).1 = some b)
    (some_blocks : 0 < call.count) :
    ∃ first, b = w.fba.fbaBegin + BitVec.ofNat 64 first * FbaAlloc.vmPageSize ∧
      w.blockIndex b = first ∧ ∀ j < call.count,
        w.live (first + j) = false ∧ (w.exec call).2.live (first + j) = true := by
  have hinv := FbaAlloc.reachable_inv reachable
  obtain ⟨first, htoNat, -, hend, hfree, hlive⟩ :=
    FbaAlloc.allocations_are_apart reachable call b answer
  have hinside : first < w.fba.fbaSizeBlocks.toNat := by omega
  have haddress : b = w.fba.fbaBegin + BitVec.ofNat 64 first * FbaAlloc.vmPageSize := by
    apply BitVec.eq_of_toNat_eq
    rw [hinv.sized.toNat_address hinside]
    exact htoNat
  refine ⟨first, haddress, ?_, fun j hj => ⟨(hfree j hj).2, ?_⟩⟩
  · rw [haddress]
    exact hinv.blockIndex_address hinside
  · rw [hlive, decide_eq_true ⟨by omega, by omega⟩, Bool.or_true]

/-! ## Slab blocks -/

theorem slabAllocBlock_sound (sound : SlabBlocks.Linked m.kernel) :
    SlabBlocks.Linked (slabAllocBlock m).2.kernel := sound.alloc

theorem slabAllocBlock_live (m : Memory) :
    (slabAllocBlock m).2.kernel.slab.live = (slabAllocBlock m).1.toList ++ m.kernel.slab.live := rfl

theorem slabAllocBlock_fresh (sound : SlabBlocks.Linked m.kernel)
    (answer : (slabAllocBlock m).1 = some b) :
    b ∉ m.kernel.slab.live ∧ b ∈ (slabAllocBlock m).2.kernel.slab.live := by
  obtain ⟨-, -, hfresh, hlive, -⟩ := sound.answered answer
  refine ⟨hfresh, ?_⟩
  rw [show (slabAllocBlock m).2.kernel.slab.live = b :: m.kernel.slab.live from hlive]
  exact List.mem_cons_self

/-- A new slab is made of blocks that were not live. -/
theorem slabAllocBlock_keeps (sound : SlabBlocks.Linked m.kernel) :
    Keeps blocks m (slabAllocBlock m).2 := by
  refine ⟨slabAllocBlock_sound sound, fun c hc => ?_, ?_⟩
  · show c ∈ (slabAllocBlock m).2.kernel.slab.live
    rw [slabAllocBlock_live]
    exact List.mem_append_right _ hc
  · rintro c ⟨i, h⟩
    have hfba : (slabAllocBlock m).2.kernel.fba = (m.kernel.askFba (m.answers 0)).2 := rfl
    have hobtained : (slabAllocBlock m).2.kernel.slab.obtained =
        if m.kernel.slab.state.partialHead = none then
          (m.kernel.askFba (m.answers 0)).1.toList ++ m.kernel.slab.obtained
        else m.kernel.slab.obtained := rfl
    obtain ⟨-, -, hbegin, -⟩ := @SlabBlocks.Linked.asked m.kernel (m.answers 0) sound
    by_cases hempty : m.kernel.slab.state.partialHead = none
    · have hasked : m.kernel.askFba (m.answers 0) =
          m.kernel.fba.exec (SlabBlocks.slabRequest (m.answers 0)) := if_pos hempty
      refine ⟨i, h.kept hbegin ?_ ?_⟩
      · rw [hfba, hasked]
        exact live_kept h.live rfl
      · intro slab hslab
        rw [hobtained, if_pos hempty, hasked] at hslab
        rcases List.mem_append.mp hslab with hnew | hold
        · right
          intro j hj
          obtain ⟨first, -, hindex, hfree⟩ :=
            answer_apart sound.fba (Option.mem_toList.mp hnew) (show 0 < 4 by decide)
          rw [hindex]
          rintro rfl
          exact Bool.false_ne_true ((hfree j hj).1.symm.trans h.live)
        · exact Or.inl hold
    · have hasked : m.kernel.askFba (m.answers 0) = (none, m.kernel.fba) := if_neg hempty
      refine ⟨i, h.kept hbegin ?_ ?_⟩
      · rw [hfba, hasked]
        exact h.live
      · intro slab hslab
        rw [hobtained, if_neg hempty] at hslab
        exact Or.inl hslab

theorem slabAllocBlock_lists (sound : SlabBlocks.Linked m.kernel)
    (lists : SlabAlloc.Inv m.kernel.slab) : SlabAlloc.Inv (slabAllocBlock m).2.kernel.slab :=
  lists.alloc (@SlabBlocks.Linked.asked m.kernel (m.answers 0) sound).1

/-- `slab_free` leaves the block allocator alone. -/
theorem slabFree_cases (run : slabFree m b = some m') :
    ∃ fuel state, SlabAlloc.slabFree m.kernel.slab.state b fuel = some state ∧
      m' = { m with kernel := { m.kernel with
        slab := { m.kernel.slab with state := state, live := m.kernel.slab.live.erase b } } } := by
  obtain ⟨kernel, hkernel, rfl⟩ := Option.map_eq_some_iff.mp run
  obtain ⟨state, hstate, rfl⟩ := Option.map_eq_some_iff.mp hkernel
  exact ⟨_, state, hstate, rfl⟩

theorem slabFree_releases (sound : SlabBlocks.Linked m.kernel) (live : b ∈ m.kernel.slab.live)
    (run : slabFree m b = some m') : Releases blocks m m' b := by
  obtain ⟨kernel, hkernel, rfl⟩ := Option.map_eq_some_iff.mp run
  have hsound := sound.step (show SlabBlocks.Valid m.kernel (.free b) from live) hkernel
  obtain ⟨state, hstate, rfl⟩ := Option.map_eq_some_iff.mp hkernel
  refine ⟨hsound, fun c hne hc => ?_, fun c hc => ?_⟩
  · exact (List.mem_erase_of_ne hne).mpr hc
  · obtain ⟨i, h⟩ := hc
    exact ⟨i, h.kept rfl h.live fun slab hslab => Or.inl hslab⟩

/-! ## Blocks of the block allocator -/

theorem fbaAllocBlock_sound (sound : SlabBlocks.Linked m.kernel) :
    SlabBlocks.Linked (fbaAllocBlock m).2.kernel := by
  apply @SlabBlocks.Linked.step _ _ (.fba (.allocBlock (m.answers 0 0))) 0 sound _ rfl
  refine ⟨trivial, fun slab _ j _ hreleased => ?_⟩
  exact absurd rfl hreleased

theorem fbaAllocBlock_keeps (sound : SlabBlocks.Linked m.kernel) :
    Keeps blocks m (fbaAllocBlock m).2 := by
  refine ⟨fbaAllocBlock_sound sound, fun c hc => hc, ?_⟩
  rintro c ⟨i, h⟩
  have hlive := @live_kept i m.kernel.fba (.allocBlock (m.answers 0 0)) h.live rfl
  refine ⟨i, h.kept ?_ hlive fun slab hslab => Or.inl hslab⟩
  exact @FbaAlloc.exec_fbaBegin m.kernel.fba (.allocBlock (m.answers 0 0))
    (FbaAlloc.reachable_inv sound.fba)

theorem fbaAllocBlock_fresh (sound : SlabBlocks.Linked m.kernel)
    (answer : (fbaAllocBlock m).1 = some b) :
    (¬ ∃ i, OwnBlock m.kernel b i) ∧ ∃ i, OwnBlock (fbaAllocBlock m).2.kernel b i := by
  obtain ⟨first, haddress, hindex, hblocks⟩ :=
    @answer_apart b m.kernel.fba (.allocBlock (m.answers 0 0)) sound.fba answer (Nat.zero_lt_succ 0)
  obtain ⟨hfree, hlive⟩ := hblocks 0 Nat.one_pos
  rw [Nat.add_zero] at hfree hlive
  constructor
  · rintro ⟨i, h⟩
    obtain rfl := (h.index sound).symm.trans hindex
    exact Bool.false_ne_true (hfree.symm.trans h.live)
  · have hbegin := @FbaAlloc.exec_fbaBegin m.kernel.fba (.allocBlock (m.answers 0 0))
      (FbaAlloc.reachable_inv sound.fba)
    refine ⟨first, ?_, hlive, ?_⟩
    · rw [show (fbaAllocBlock m).2.kernel.fba.fba.fbaBegin = m.kernel.fba.fba.fbaBegin from hbegin]
      exact haddress
    · intro slab hslab j hj hsame
      have hslab_live := live_of_slab sound hslab hj
      have hsame_index : (fbaAllocBlock m).2.kernel.fba.blockIndex slab =
          m.kernel.fba.blockIndex slab := by
        rw [FbaAlloc.World.blockIndex, FbaAlloc.World.blockIndex]
        exact congrArg (fun begin => (slab - begin).toNat / 0x1000) hbegin
      rw [hsame_index] at hsame
      rw [hsame, hfree] at hslab_live
      exact Bool.false_ne_true hslab_live

/-- Freeing a block of its own takes nothing from the slabs. -/
theorem OwnBlock.spares (h : OwnBlock k b i) (sound : SlabBlocks.Linked k) {slab : BitVec 64}
    (mem : slab ∈ k.slab.obtained) : k.fba.Spares (.free b) slab 4 := by
  intro j hj _ hfrom
  have hindex := h.index sound
  have hapart := h.apart slab mem j hj
  simp only [FbaAlloc.Call.released] at hfrom ⊢
  omega

theorem fbaFree_keeps (sound : SlabBlocks.Linked m.kernel) (own : OwnBlock m.kernel b i) :
    SlabBlocks.Linked (fbaFree m b).kernel ∧
      ∀ c ≠ b, (∃ j, OwnBlock m.kernel c j) → ∃ j, OwnBlock (fbaFree m b).kernel c j := by
  constructor
  · apply @SlabBlocks.Linked.step _ _ (.fba (.free b)) 0 sound _ rfl
    refine ⟨Or.inr ⟨i, own.address, fun j hj => ?_⟩, fun slab hslab => own.spares sound hslab⟩
    rw [show i + j = i by omega]
    exact own.live
  · rintro c hne ⟨j, h⟩
    have hbegin := @FbaAlloc.exec_fbaBegin m.kernel.fba (.free b)
      (FbaAlloc.reachable_inv sound.fba)
    refine ⟨j, h.kept hbegin ?_ fun slab hslab => Or.inl hslab⟩
    have hother : j ≠ i := by
      rintro rfl
      exact hne (h.address.trans own.address.symm)
    show (m.kernel.fba.exec (.free b)).2.live j = true
    rw [FbaAlloc.exec_live_none rfl, h.live, Bool.true_and, Bool.not_eq_true',
      decide_eq_false_iff_not]
    rintro ⟨-, hfrom, hto⟩
    simp only [FbaAlloc.Call.released] at hfrom hto
    rw [own.index sound] at hfrom hto
    omega

/-- The kernel's allocators follow the rules. -/
theorem allocators_lawful : Lawful allocators blocks := by
  constructor
  · exact fun a sound => slabAllocBlock_keeps sound
  · exact fun a b sound answer => slabAllocBlock_fresh sound answer
  · exact fun a sound => fbaAllocBlock_keeps sound
  · exact fun a b sound answer => fbaAllocBlock_fresh sound answer
  · exact fun a b a' sound live run => slabFree_releases sound live run
  · rintro a b sound ⟨i, own⟩
    obtain ⟨hsound, hothers⟩ := fbaFree_keeps sound own
    exact ⟨hsound, hothers, fun c hc => hc⟩

end Laws

/-! ## Where `slab_free` returns -/

/-- At most one slab is full. -/
def OneFull (w : SlabAlloc.World) : Prop :=
  ∀ a ∈ w.obtained, ∀ b ∈ w.obtained, (w.state.mem a).isFull → (w.state.mem b).isFull → a = b

section Returning

variable {w : SlabAlloc.World} {m m' : Memory} {block : BitVec 64} {fuel : Nat}
  {state : SlabAlloc.SlabState}

/-- The only full slab comes first on its list. -/
theorem OneFull.guard (one : OneFull w) (lists : SlabAlloc.Inv w) (live : block ∈ w.live) :
    SlabAlloc.Guard w (.free block) := by
  intro hfull
  obtain ⟨ps, fs, h⟩ := lists
  have hslab := h.live block live
  rcases List.mem_append.mp (h.perm.mem_iff.mpr hslab) with hp | hf
  · exact absurd hfull (h.open_ _ hp)
  · cases fs with
    | nil => exact absurd hf List.not_mem_nil
    | cons first rest =>
      have hfirst : first ∈ w.obtained :=
        h.perm.mem_iff.mp (List.mem_append_right _ List.mem_cons_self)
      have hsame := one first hfirst _ hslab (h.full first List.mem_cons_self) hfull
      rw [← hsame]
      exact h.fullChain.1

theorem slabFree_guarded {s : SlabAlloc.SlabState}
    (guard : (s.mem (SlabAlloc.slabBase block)).isFull →
      s.fullHead = some (SlabAlloc.slabBase block)) : SlabAlloc.slabFree s block fuel ≠ none := by
  unfold SlabAlloc.slabFree
  dsimp only
  split_ifs with hskip hfull
  · exact Option.some_ne_none _
  · rw [SlabAlloc.unfull, if_pos (guard hfull)]
    exact Option.some_ne_none _
  · exact Option.some_ne_none _

/-- Freeing a block fills no slab. -/
theorem OneFull.freed (one : OneFull w) (inv : SlabBlocks.Inv w) (live : block ∈ w.live)
    (run : SlabAlloc.slabFree w.state block fuel = some state) :
    OneFull { w with state := state, live := w.live.erase block } := by
  obtain ⟨-, hbits⟩ := SlabBlocks.slabFree_within inv.within ((inv.live block).mp live).slab run
  have hfull : ∀ a, (state.mem a).isFull → (w.state.mem a).isFull := by
    intro a ha
    rw [SlabAlloc.isFull_iff] at ha ⊢
    intro n hn
    have hset := ha n hn
    rw [hbits a n hn] at hset
    exact (Bool.and_eq_true_iff.mp hset).2
  intro a ha b hb hafull hbfull
  exact one a ha b hb (hfull a hafull) (hfull b hbfull)

/-- While the lists of the slabs are sound and at most one slab is full, `slab_free` returns. -/
theorem frees_return (sound : SlabBlocks.Linked m.kernel) (lists : SlabAlloc.Inv m.kernel.slab)
    (one : OneFull m.kernel.slab) : FreesReturn allocators blocks m := by
  intro m' block freed live
  have hkept : SlabBlocks.Linked m'.kernel ∧ SlabAlloc.Inv m'.kernel.slab ∧
      OneFull m'.kernel.slab := by
    clear live
    induction freed with
    | refl => exact ⟨sound, lists, one⟩
    | free _ hlive hfree ih =>
      obtain ⟨hsound, hlists, hone⟩ := ih
      have hnext := (slabFree_releases hsound hlive hfree).sound
      obtain ⟨fuel, state, hrun, rfl⟩ := slabFree_cases hfree
      exact ⟨hnext, hlists.free hlive (hone.guard hlists hlive) hrun,
        hone.freed (SlabBlocks.reachable_inv hsound.slab) hlive hrun⟩
  obtain ⟨-, hlists, hone⟩ := hkept
  have hreturns := @slabFree_guarded block (m'.kernel.slab.obtained.length + 1)
    m'.kernel.slab.state (hone.guard hlists live)
  obtain ⟨state, hstate⟩ := Option.ne_none_iff_exists'.mp hreturns
  show slabFree m' block ≠ none
  rw [slabFree, SlabBlocks.exec, hstate]
  exact Option.some_ne_none _

end Returning

/-! ## A process with one task -/

section Calls

variable {A : Type} {arch : Arch} {ops : Allocators A} {w : World A} {a₁ a₂ a₃ : A}
  {lock meminfo process task stack node owner pml4 sp bootstrap func : BitVec 64}
  {cls : Scheduler.TaskClass}

theorem processCreate_answers (first : ops.slabAllocBlock w.mem = (some lock, a₁))
    (second : ops.slabAllocBlock a₁ = (some meminfo, a₂))
    (third : ops.slabAllocBlock a₂ = (some process, a₃)) :
    processCreate arch ops w pml4 =
      some (some process, initProcess arch w a₃ lock meminfo process pml4) := by
  rw [processCreate, first]
  dsimp only
  rw [second]
  dsimp only
  rw [third]

theorem taskCreateNew_answers (first : ops.fbaAllocBlock w.mem = (some task, a₁))
    (second : ops.fbaAllocBlock a₁ = (some stack, a₂))
    (third : ops.slabAllocBlock a₂ = (some node, a₃)) :
    taskCreateNew arch ops w owner sp 0 bootstrap func cls =
      some (some task,
        initTask arch w a₃ owner task node (stack + 0x1000) sp bootstrap func cls) := by
  rw [taskCreateNew, first]
  dsimp only
  rw [kernelStack, if_pos rfl, second]
  dsimp only [Option.map_some]
  rw [third]

/-- Where the list goes on behind the first node, the process of its task goes on as well. -/
theorem exit_first (current : w.current = some task) (owned : (w.tasks task).owner = some owner)
    (first : (w.processes owner).tasks = some node) (of_task : (w.nodes node).task = some task)
    {behind : BitVec 64} (next : (w.nodes node).next = some behind)
    (free : ops.slabFree w.mem node = some a₁) :
    ∃ w', (∀ fuel > 0, exec arch ops fuel w .exit = some w') ∧
      w'.history.destroyed = w.history.destroyed := by
  obtain ⟨s, hs, hfields⟩ : ∃ s, exitRecorded w = s ∧ s.current = w.current ∧ s.tasks = w.tasks ∧
      s.processes = w.processes ∧ s.nodes = w.nodes ∧ s.mem = w.mem ∧
      s.history.destroyed = w.history.destroyed := by
    refine ⟨_, rfl, ?_⟩
    rw [exitRecorded, current]
    dsimp only
    rw [owned]
    exact ⟨rfl, rfl, rfl, rfl, rfl, rfl⟩
  obtain ⟨hcurrent, htasks, hprocesses, hnodes, hmem, hdestroyed⟩ := hfields
  have hunlink : ∃ s', unlinkNode ops s owner node (.head owner) = some s' ∧
      (s'.processes owner).tasks = some behind ∧ s'.history.destroyed = s.history.destroyed := by
    rw [unlinkNode, hmem, free]
    refine ⟨_, rfl, ?_, rfl⟩
    simp [World.setLink, hnodes, next]
  obtain ⟨s', hs', hbehind, hkept⟩ := hunlink
  refine ⟨taskDestroy ops s' (some task), fun fuel enough => ?_, ?_⟩
  · obtain ⟨fuel, rfl⟩ := Nat.exists_eq_add_one_of_ne_zero (Nat.ne_of_gt enough)
    rw [exec, hs, taskCurrentExitpoint, hcurrent, current, Option.bind_some, htasks, owned,
      Option.bind_some, taskRemoveFromProcess]
    dsimp only
    rw [htasks, owned]
    dsimp only
    have hfollow : s.follow (.head owner) = some node := by
      rw [World.follow, hprocesses, first]
    rw [removeLoop, hfollow]
    dsimp only
    rw [hnodes, if_pos of_task, hs', Option.map_some, Option.bind_some, hbehind,
      if_neg (Option.some_ne_none behind)]
    rfl
  · exact hkept.trans hdestroyed

end Calls

@[irreducible] def bootMemory : Memory where
  kernel := SlabBlocks.booted
  answers := fun _ _ => 0

def processMemory : Memory :=
  (slabAllocBlock (slabAllocBlock (slabAllocBlock bootMemory).2).2).2

def taskMemory : Memory := (slabAllocBlock (fbaAllocBlock (fbaAllocBlock processMemory).2).2).2

/-- After boot, with what the memory happens to hold where the head of a task list will be. -/
def booted (tasks : Option (BitVec 64)) : World Memory where
  mem := bootMemory
  processes := fun _ => ⟨0, 0, 0, tasks, 0⟩
  meminfos := fun _ => ⟨0, none, none, none, none⟩
  nodes := fun _ => ⟨none, none⟩
  tasks := fun _ => ⟨⟨none, .ready, .normal, 0⟩, 0, 0, 0, 0, 0, none, 0⟩
  words := fun _ => 0
  nextPid := 1
  nextTid := 1
  current := none
  history := ⟨fun _ => false, fun _ => false, fun _ => [], fun _ => [], fun _ => 0⟩

def withProcess (tasks : Option (BitVec 64)) : World Memory :=
  initProcess .x8664 (booted tasks) processMemory 0x8040 0x8080 0x80c0 0x100000

def withTask (tasks : Option (BitVec 64)) : World Memory :=
  initTask .x8664 (withProcess tasks) taskMemory 0x80c0 0x5000 0x8100 0x7000 0x9000 0x1000 0x2000
    .normal

/-- The only task of the process runs. -/
def running (tasks : Option (BitVec 64)) : World Memory :=
  { withTask tasks with current := some 0x5000 }

section Example

variable {tasks : Option (BitVec 64)}

theorem bootMemory_kernel : bootMemory.kernel = SlabBlocks.booted := by
  rw [bootMemory]

theorem linked_boot : SlabBlocks.Linked bootMemory.kernel := by
  rw [bootMemory_kernel]
  exact SlabBlocks.reachable_linked SlabBlocks.booted_reachable

theorem linked_process : SlabBlocks.Linked processMemory.kernel :=
  slabAllocBlock_sound (slabAllocBlock_sound (slabAllocBlock_sound linked_boot))

theorem linked_task : SlabBlocks.Linked taskMemory.kernel :=
  slabAllocBlock_sound (fbaAllocBlock_sound (fbaAllocBlock_sound linked_process))

theorem booted_init : (lifetimes .x8664 allocators blocks).init (booted tasks) :=
  ⟨linked_boot, fun _ => rfl⟩

theorem create_step :
    (lifetimes .x8664 allocators blocks).step (booted tasks) (.create 0x100000)
      (withProcess tasks) := by
  have hfirst : (slabAllocBlock bootMemory).1 = some 0x8040 := by decide +kernel
  have hsecond : (slabAllocBlock (slabAllocBlock bootMemory).2).1 = some 0x8080 := by
    decide +kernel
  have hthird : (slabAllocBlock (slabAllocBlock (slabAllocBlock bootMemory).2).2).1 =
      some 0x80c0 := by decide +kernel
  have hcall := @processCreate_answers Memory .x8664 allocators (booted tasks) _ _ _ 0x8040 0x8080
    0x80c0 0x100000 (Prod.ext hfirst rfl) (Prod.ext hsecond rfl) (Prod.ext hthird rfl)
  refine ⟨trivial, 0, fun fuel _ => ?_⟩
  rw [exec, hcall]
  rfl

theorem alive_withProcess {p : BitVec 64} : Alive (withProcess tasks) p ↔ p = 0x80c0 := by
  rw [withProcess, alive_initProcess]
  constructor
  · rintro (hp | ⟨-, hcreated, -⟩)
    · exact hp
    · exact absurd hcreated Bool.false_ne_true
  · exact Or.inl

theorem task_call : taskCreateNew .x8664 allocators (withProcess tasks) 0x80c0 0x9000 0 0x1000
    0x2000 .normal = some (some 0x5000, withTask tasks) := by
  have hfirst : (fbaAllocBlock processMemory).1 = some 0x5000 := by decide +kernel
  have hsecond : (fbaAllocBlock (fbaAllocBlock processMemory).2).1 = some 0x6000 := by
    decide +kernel
  have hthird : (slabAllocBlock (fbaAllocBlock (fbaAllocBlock processMemory).2).2).1 =
      some 0x8100 := by decide +kernel
  have hcall := @taskCreateNew_answers Memory .x8664 allocators (withProcess tasks) _ _ _ 0x5000
    0x6000 0x8100 0x80c0 0x9000 0x1000 0x2000 .normal (Prod.ext hfirst rfl) (Prod.ext hsecond rfl)
    (Prod.ext hthird rfl)
  rw [hcall]
  rfl

theorem task_step :
    (lifetimes .x8664 allocators blocks).step (withProcess tasks)
      (.task 0x80c0 0x9000 0 0x1000 0x2000 .normal) (withTask tasks) := by
  refine ⟨alive_withProcess.mpr rfl, 0, fun fuel _ => ?_⟩
  rw [exec, task_call]
  rfl

theorem task_live : taskMemory.kernel.slab.live = [0x8100, 0x80c0, 0x8080, 0x8040] := by
  decide +kernel

theorem task_obtained : taskMemory.kernel.slab.obtained = [0x8000] := by
  decide +kernel

theorem task_ownBlock : OwnBlock taskMemory.kernel 0x5000 1 := by
  have haddress : (0x5000 : BitVec 64) =
      taskMemory.kernel.fba.fba.fbaBegin + BitVec.ofNat 64 1 * FbaAlloc.vmPageSize := by
    decide +kernel
  have hlive : taskMemory.kernel.fba.live 1 = true := by decide +kernel
  have hslab : taskMemory.kernel.fba.blockIndex 0x8000 = 4 := by decide +kernel
  refine ⟨haddress, hlive, fun slab hmem j hj => ?_⟩
  rw [task_obtained] at hmem
  rw [List.mem_singleton.mp hmem, hslab]
  omega

/-- The task is switched to. -/
theorem switch_step :
    (lifetimes .x8664 allocators blocks).step (withTask tasks) (.elsewhere (running tasks))
      (running tasks) := by
  refine ⟨⟨linked_task, rfl, fun _ _ => rfl, fun _ _ => rfl, fun _ _ => rfl, fun _ _ _ _ => rfl,
    fun _ _ _ _ => rfl, ?_, ?_⟩, 0, fun fuel _ => rfl⟩
  · intro p b u hp hu
    obtain rfl := alive_withProcess.mp (show Alive (withProcess tasks) p from hp)
    show b ∈ taskMemory.kernel.slab.live
    rw [task_live]
    cases u with
    | process =>
      rw [show b = 0x80c0 from hu]
      decide
    | meminfo =>
      rw [show b = 0x8080 from hu]
      decide
    | lock =>
      rw [show b = 0x8040 from hu]
      decide
    | node =>
      rw [show b = 0x8100 from List.mem_singleton.mp hu]
      decide
  · intro p t hp ht
    obtain rfl := alive_withProcess.mp (show Alive (withProcess tasks) p from hp)
    rw [show t = 0x5000 from List.mem_singleton.mp ht]
    exact ⟨1, task_ownBlock⟩

theorem alive_running : Alive (running tasks) 0x80c0 :=
  show Alive (withProcess tasks) 0x80c0 from alive_withProcess.mpr rfl

theorem task_lists : SlabAlloc.Inv taskMemory.kernel.slab := by
  have hboot : SlabAlloc.Inv bootMemory.kernel.slab := by
    rw [bootMemory_kernel]
    exact SlabAlloc.Inv.init ⟨rfl, rfl, rfl, rfl⟩
  have hlinked := slabAllocBlock_sound linked_boot
  have hfirst := slabAllocBlock_lists linked_boot hboot
  have hsecond := slabAllocBlock_lists hlinked hfirst
  have hthird := slabAllocBlock_lists (slabAllocBlock_sound hlinked) hsecond
  exact slabAllocBlock_lists (fbaAllocBlock_sound (fbaAllocBlock_sound linked_process)) hthird

end Example

/-- In every run in which each process is given a block with a null word for its list, a process
is destroyed when its last remaining task exits and not otherwise, and a walk along the list visits
nodes that were added for the process. -/
theorem destroyed_with_last_task {arch : Arch} {w : World Memory}
    (run : Reachable ((lifetimes arch allocators blocks).restrict (Cleared allocators)) w) :
    Proper arch allocators blocks w :=
  allocators_lawful.proper run

/-- The only task exits. -/
theorem destroyed_with_last_task_running : ∃ w', Returns .x8664 allocators (running none) .exit w' ∧
    w'.history.destroyed 0x80c0 = true := by
  have hcleared : Cleared allocators (booted none) (.create 0x100000) := fun _ _ => rfl
  have hcreated : Reachable ((lifetimes .x8664 allocators blocks).restrict (Cleared allocators))
      (withProcess none) := Reachable.next (.start booted_init) ⟨hcleared, create_step⟩
  have htask : Reachable ((lifetimes .x8664 allocators blocks).restrict (Cleared allocators))
      (withTask none) := .next hcreated (And.intro (show Cleared allocators (withProcess none)
        (.task 0x80c0 0x9000 0 0x1000 0x2000 .normal) from trivial) task_step)
  have hrun : Reachable ((lifetimes .x8664 allocators blocks).restrict (Cleared allocators))
      (running none) := .next htask (And.intro (show Cleared allocators (withTask none)
        (.elsewhere (running none)) from trivial) switch_step)
  have hproper := destroyed_with_last_task hrun
  have hfrees : FreesReturn allocators blocks (running none).mem := by
    apply frees_return linked_task task_lists
    intro a ha b hb _ _
    rw [task_obtained] at ha hb
    exact (List.mem_singleton.mp ha).trans (List.mem_singleton.mp hb).symm
  obtain ⟨w', hreturns⟩ :=
    hproper.returns 0x80c0 0x5000 rfl alive_running List.mem_cons_self hfrees
  exact ⟨w', hreturns,
    (hproper.exits 0x80c0 0x5000 w' rfl alive_running List.mem_cons_self hreturns).mpr rfl⟩

/-- The block of the process holds another word where the head of its list will be. -/
theorem process_outlives_its_task :
    ¬ ∀ w, Reachable (lifetimes .x8664 allocators blocks) w → Proper .x8664 allocators blocks w := by
  intro h
  have hrun : Reachable (lifetimes .x8664 allocators blocks) (running (some 0xa000)) :=
    Reachable.next (.next (.next (.start booted_init) create_step) task_step) switch_step
  have hsome : (slabFree taskMemory 0x8100).isSome := by decide +kernel
  obtain ⟨mem, hfree⟩ := Option.isSome_iff_exists.mp hsome
  obtain ⟨w', hcalls, hkept⟩ := @exit_first Memory .x8664 allocators (running (some 0xa000)) mem
    0x5000 0x8100 0x80c0 rfl rfl rfl rfl 0xa000 rfl hfree
  have hreturns : Returns .x8664 allocators (running (some 0xa000)) .exit w' :=
    ⟨1, fun fuel enough => hcalls fuel (Nat.lt_of_lt_of_le Nat.one_pos enough)⟩
  have hdestroyed :=
    ((h _ hrun).exits 0x80c0 0x5000 w' rfl alive_running List.mem_cons_self hreturns).mpr rfl
  rw [hkept] at hdestroyed
  exact Bool.false_ne_true (alive_running.2.symm.trans hdestroyed)

end TaskBlocks
