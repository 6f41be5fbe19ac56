import AnosKernel.FbaPages
import AnosKernel.HashTable
import AnosKernel.SlabBlocks

/-!
# The memory of a hash table

`hash_table_create` of `kernel/structs/hash.c` on the two allocators. The table and its lock are
slab blocks, its entries are blocks of the block allocator. When there is no memory for the
entries it is the block allocator that gets the table back, and when there is none for the lock it
gets back the first block of the entries.
-/

namespace TableMemory

open FbaAlloc FbaPages PageAlloc Runs SlabAlloc VmMapper

structure Kernel where
  memory : FbaPages.Kernel
  slab : SlabAlloc.World

/-- The block allocator is asked when there is no partial slab. -/
def Kernel.askFba (k : Kernel) : Option (BitVec 64) × FbaPages.Kernel :=
  if k.slab.state.partialHead = none then FbaPages.fbaAllocBlocksAligned k.memory 4 4
  else (none, k.memory)

def slabAllocBlock (k : Kernel) : Option (BitVec 64) × Kernel :=
  let (answer, memory) := k.askFba
  ((SlabAlloc.slabAllocBlock k.slab.state answer).1,
    { memory := memory, slab := SlabAlloc.allocated k.slab answer })

def slabFree (fuel : Nat) (k : Kernel) (block : BitVec 64) : Option Kernel :=
  (SlabAlloc.slabFree k.slab.state block fuel).map fun state =>
    { k with slab := { k.slab with state := state, live := k.slab.live.erase block } }

/-- A table with the addresses of its parts. -/
structure Table where
  ht : BitVec 64
  lock : BitVec 64
  entries : BitVec 64
  table : HashTables.HashTable

/-- The outer result is `none` when `slab_free` does not end, or when the loop that clears the
entries runs off the blocks. -/
def hashTableCreate (fuel : Nat) (k : Kernel) (numPages : BitVec 64) :
    Option (Option Table × Kernel) :=
  match slabAllocBlock k with
  | (none, k) => some (none, k)
  | (some ht, k) =>
    match FbaPages.fbaAllocBlocks k.memory (numPages.setWidth 32) with
    | (none, memory) => some (none, { k with memory := FbaPages.fbaFree memory ht })
    | (some entries, memory) =>
      match slabAllocBlock { k with memory := memory } with
      | (none, k) =>
        (slabFree fuel { k with memory := FbaPages.fbaFree k.memory entries } ht).map fun k =>
          (none, k)
      | (some lock, k) =>
        let capacity := (numPages * BitVec.ofNat 64 HashTables.entriesPerPage).toNat
        if capacity ≤ (numPages.setWidth 32).toNat * HashTables.entriesPerPage then
          some (some ⟨ht, lock, entries, ⟨capacity, 0, fun _ => HashTables.emptyEntry⟩⟩, k)
        else none

/-! ## The two allocators together -/

/-- The allocators are those of a run in which the slabs come from the block allocator. -/
def Reached (k : Kernel) : Prop :=
  ∃ a, SlabBlocks.Linked a ∧ a.fba.fba = k.memory.fba ∧ a.slab = k.slab

section Steps

variable {k : Kernel}

theorem slabAllocBlock_answer (k : Kernel) :
    (slabAllocBlock k).1 = (SlabAlloc.slabAllocBlock k.slab.state k.askFba.1).1 := rfl

theorem slabAllocBlock_slab (k : Kernel) :
    (slabAllocBlock k).2.slab = allocated k.slab k.askFba.1 := rfl

theorem slabAllocBlock_memory (k : Kernel) : (slabAllocBlock k).2.memory = k.askFba.2 := rfl

theorem Reached.sized (h : Reached k) : Sized k.memory.fba := by
  obtain ⟨a, hlinked, hfba, -⟩ := h
  rw [← hfba]
  exact (FbaAlloc.reachable_inv hlinked.fba).sized

theorem Reached.slabs (h : Reached k) : SlabBlocks.Inv k.slab := by
  obtain ⟨a, hlinked, -, hslab⟩ := h
  rw [← hslab]
  exact SlabBlocks.reachable_inv hlinked.slab

/-- The blocks of the bitmap are in use. -/
theorem Reached.own (h : Reached k) :
    ∀ i < k.memory.fba.bitmapSizeBlocks.toNat, bit k.memory.fba.bitmap i = true := by
  obtain ⟨a, hlinked, hfba, -⟩ := h
  rw [← hfba]
  exact (FbaAlloc.reachable_inv hlinked.fba).own

/-- The first block holds the bitmap. -/
theorem Reached.first_used (h : Reached k) {first : Nat} (clear : FirstClear k.memory.fba first) :
    first ≠ 0 := by
  obtain ⟨a, hlinked, hfba, -⟩ := h
  have hinv := FbaAlloc.reachable_inv hlinked.fba
  rw [← hfba] at clear
  have hlt := clear.1
  have hblocks := hinv.sized.blocks
  have hbehind := hinv.behind_bitmap clear.2.1
  rw [hinv.sized.bits] at hlt
  omega

/-- Another request to the block allocator. -/
theorem Reached.allocBlocks (h : Reached k) (count : BitVec 32) :
    Reached { k with memory := (FbaPages.fbaAllocBlocks k.memory count).2 } := by
  obtain ⟨a, hlinked, hfba, hslab⟩ := h
  obtain ⟨pages, hpages⟩ := allocBlocksAligned_refines k.memory count 1
  have hnext : SlabBlocks.Linked { a with fba := (a.fba.exec (.allocBlocks count pages)).2 } := by
    apply @SlabBlocks.Linked.step _ _ (.fba (.allocBlocks count pages)) 0 hlinked _ rfl
    refine ⟨trivial, fun slab _ i _ hreleased => ?_⟩
    exact absurd rfl hreleased
  refine ⟨_, hnext, ?_, hslab⟩
  have hrun : (a.fba.exec (.allocBlocks count pages)).2.fba =
      (FbaAlloc.fbaAllocBlocksAligned a.fba.fba count 1 pages).2 := rfl
  rw [hfba, hpages] at hrun
  exact hrun

/-- `slab_alloc_block` answers a block that was not live, which is live from then on. -/
theorem Reached.allocBlock (h : Reached k) : Reached (slabAllocBlock k).2 ∧
    ∀ block, (slabAllocBlock k).1 = some block →
      block ∉ k.slab.live ∧ (slabAllocBlock k).2.slab.live = block :: k.slab.live := by
  obtain ⟨a, hlinked, hfba, hslab⟩ := h
  obtain ⟨pages, hpages⟩ := allocBlocksAligned_refines k.memory 4 4
  have hasked : (a.askFba pages).1 = k.askFba.1 ∧ (a.askFba pages).2.fba = k.askFba.2.fba := by
    rw [SlabBlocks.Kernel.askFba, Kernel.askFba, hslab]
    by_cases hempty : k.slab.state.partialHead = none
    · have hrun : (a.fba.exec (SlabBlocks.slabRequest pages)).1 =
          (FbaAlloc.fbaAllocBlocksAligned a.fba.fba 4 4 pages).1 ∧
          (a.fba.exec (SlabBlocks.slabRequest pages)).2.fba =
            (FbaAlloc.fbaAllocBlocksAligned a.fba.fba 4 4 pages).2 := ⟨rfl, rfl⟩
      rw [hfba, hpages] at hrun
      rw [if_pos hempty, if_pos hempty]
      exact hrun
    · rw [if_neg hempty, if_neg hempty]
      exact ⟨rfl, hfba⟩
  have hanswer : (a.allocBlock pages).1 = (slabAllocBlock k).1 := by
    have hcall : (a.allocBlock pages).1 =
        (SlabAlloc.slabAllocBlock a.slab.state (a.askFba pages).1).1 := rfl
    rw [hcall, hslab, hasked.1, slabAllocBlock_answer]
  have hnew : (a.allocBlock pages).2.slab = (slabAllocBlock k).2.slab := by
    have hcall : (a.allocBlock pages).2.slab = allocated a.slab (a.askFba pages).1 := rfl
    rw [hcall, hslab, hasked.1, slabAllocBlock_slab]
  refine ⟨⟨_, hlinked.alloc, hasked.2, hnew⟩, fun block hblock => ?_⟩
  rw [← hanswer] at hblock
  obtain ⟨-, -, hfresh, hlive, -⟩ := hlinked.answered hblock
  rw [← hnew, ← hslab]
  exact ⟨hfresh, hlive⟩

end Steps

/-! ## A request for a slab block -/

/-- `slab_alloc_block` has neither a free block nor room for a new slab. -/
def TurnsDown (head : Option (BitVec 64)) (full : BitVec 64 → Prop) (fba : Fba) : Prop :=
  match head with
  | some slab => full slab
  | none => Refused fba (.blocksAligned 4 4)

/-- The request is turned down before it changes anything. -/
def Exhausted (k : Kernel) : Prop :=
  TurnsDown k.slab.state.partialHead (fun slab => (k.slab.state.mem slab).isFull) k.memory.fba

section Request

variable {k : Kernel} {slab : BitVec 64} {n : Nat}

theorem Exhausted.unchanged (h : Exhausted k) (sized : Sized k.memory.fba) :
    slabAllocBlock k = (none, k) := by
  cases hhead : k.slab.state.partialHead with
  | none =>
    rw [Exhausted, hhead] at h
    have hasked : k.askFba = (none, k.memory) := by
      rw [Kernel.askFba, if_pos hhead]
      exact allocBlocksAligned_refused sized h
    simp only [slabAllocBlock, hasked, allocated_none hhead]
    simp [SlabAlloc.slabAllocBlock, hhead]
  | some slab =>
    rw [Exhausted, hhead] at h
    have hasked : k.askFba = (none, k.memory) := by
      rw [Kernel.askFba, if_neg (by simp [hhead])]
    have hnone : takeBlock k.slab.state slab = (none, k.slab.state) := by
      rw [takeBlock, SlabBlocks.freeBlock_full h]
    simp only [slabAllocBlock, hasked, allocated_some hhead]
    simp [SlabAlloc.slabAllocBlock, hhead, took, hnone]

/-- The block comes from the first partial slab, and the block allocator is not asked. -/
theorem slabAllocBlock_taken (head : k.slab.state.partialHead = some slab)
    (free : freeBlock (k.slab.state.mem slab) = some n) :
    slabAllocBlock k =
      (some (slab + 64 * BitVec.ofNat 64 n), { k with slab := took k.slab slab }) := by
  have hasked : k.askFba = (none, k.memory) := by
    rw [Kernel.askFba, if_neg (by simp [head])]
  have hanswer : (takeBlock k.slab.state slab).1 = some (slab + 64 * BitVec.ofNat 64 n) := by
    simp only [takeBlock, free]
    split_ifs <;> rfl
  simp only [slabAllocBlock, hasked, allocated_some head]
  simp [SlabAlloc.slabAllocBlock, head, hanswer]

/-- Blocks of the range that are in use stay in use, whatever comes of the request. -/
theorem slabAllocBlock_gives (sized : Sized k.memory.fba) :
    Gives k.memory.fba 4 4 (k.askFba.1, (slabAllocBlock k).2.memory.fba) := by
  rw [slabAllocBlock_memory, Kernel.askFba]
  by_cases hempty : k.slab.state.partialHead = none
  · have hgives := fbaAllocBlocksAligned_gives sized 4 4
    rw [if_pos hempty]
    exact hgives
  · rw [if_neg hempty]
    exact Gives.refused

theorem slabAllocBlock_cases (sized : Sized k.memory.fba) :
    Exhausted k ∨
    (∃ slab n, k.slab.state.partialHead = some slab ∧
      freeBlock (k.slab.state.mem slab) = some n) ∨
    Marks k.memory.fba (slabAllocBlock k).2.memory.fba := by
  cases hhead : k.slab.state.partialHead with
  | none =>
    by_cases hrefused : Refused k.memory.fba (.blocksAligned 4 4)
    · left
      rw [Exhausted, hhead]
      exact hrefused
    · right
      right
      have hmarks := exec_marks sized hrefused
      have hasked : k.askFba = (Request.blocksAligned 4 4).exec k.memory := by
        rw [Kernel.askFba, if_pos hhead]
        rfl
      rw [slabAllocBlock_memory, hasked]
      exact hmarks
  | some slab =>
    by_cases hfull : (k.slab.state.mem slab).isFull
    · left
      rw [Exhausted, hhead]
      exact hfull
    · obtain ⟨n, hfree, -⟩ := freeBlock_spec hfull
      exact Or.inr (Or.inl ⟨slab, n, rfl, hfree⟩)

end Request

/-! ## What a failed call leaves -/

/-- A state the two allocators have come to, with the kernel's tables in order. -/
structure Allocators (k : Kernel) : Prop where
  reached : ∃ a, Reachable SlabBlocks.slabOverFba a ∧ a.fba.fba = k.memory.fba ∧ a.slab = k.slab
  tables : WellFormed k.memory.machine k.memory.pml4
  straight : ∀ v, InRange k.memory.fba v → Straight k.memory.machine.mem v 3 k.memory.pml4

/-- The same blocks are in use, the addresses of the range are mapped as before, and the same slab
blocks are live. -/
structure Restored (k k' : Kernel) : Prop where
  bitmap : ∀ i < k.memory.fba.bitmapSizeBits.toNat,
    bit k'.memory.fba.bitmap i = bit k.memory.fba.bitmap i
  mappings : ∀ v, InRange k.memory.fba v →
    vmmVirtToPtEntry k'.memory.machine k'.memory.pml4 v =
      vmmVirtToPtEntry k.memory.machine k.memory.pml4 v
  live : ∀ block, SlabBlocks.InUse k'.slab block ↔ SlabBlocks.InUse k.slab block

theorem Restored.refl (k : Kernel) : Restored k k :=
  ⟨fun _ _ => rfl, fun _ _ => rfl, fun _ => Iff.rfl⟩

/-- The ways to fail that leave no trace: the table is turned down at once, or the lock is, after a
table that was the last block of a partial slab and a single block of entries, where no page is
mapped and which `fba_free` can tell to be in the range. -/
def Harmless (k : Kernel) (numPages : BitVec 64) : Prop :=
  Exhausted k ∨
  numPages.setWidth 32 = (1 : BitVec 32) ∧ EndsBelow k.memory.fba ∧
    pageFailed (pageAlloc k.memory.machine.region).1 = false ∧
    ∃ slab n first, k.slab.state.partialHead = some slab ∧
      freeBlock (k.slab.state.mem slab) = some n ∧
      (SlabAlloc.bitmapSet (k.slab.state.mem slab) n).isFull ∧
      FirstClear k.memory.fba first ∧
      vmmVirtToPtEntry k.memory.machine k.memory.pml4 (blockAddress k.memory.fba first) = 0 ∧
      TurnsDown (k.slab.state.next slab)
        (fun next => next = slab ∨ (k.slab.state.mem next).isFull) (k.memory.mark first).fba

section Null

variable {k k' : Kernel} {numPages : BitVec 64} {fuel : Nat}

/-- The three ways to a null pointer. -/
theorem hashTableCreate_null (null : hashTableCreate fuel k numPages = some (none, k')) :
    slabAllocBlock k = (none, k') ∨
    ∃ ht k1, slabAllocBlock k = (some ht, k1) ∧
      ((∃ memory, FbaPages.fbaAllocBlocks k1.memory (numPages.setWidth 32) = (none, memory) ∧
        k' = { k1 with memory := FbaPages.fbaFree memory ht }) ∨
      ∃ entries memory k2,
        FbaPages.fbaAllocBlocks k1.memory (numPages.setWidth 32) = (some entries, memory) ∧
        slabAllocBlock { k1 with memory := memory } = (none, k2) ∧
        slabFree fuel { k2 with memory := FbaPages.fbaFree k2.memory entries } ht = some k') := by
  rw [hashTableCreate] at null
  cases htable : slabAllocBlock k with
  | mk ht k1 =>
    simp only [htable] at null
    cases ht with
    | none =>
      obtain rfl := (Prod.ext_iff.mp (Option.some.inj null)).2
      exact Or.inl rfl
    | some ht =>
      refine Or.inr ⟨ht, k1, rfl, ?_⟩
      cases hentries : FbaPages.fbaAllocBlocks k1.memory (numPages.setWidth 32) with
      | mk entries memory =>
        simp only [hentries] at null
        cases entries with
        | none =>
          exact Or.inl ⟨memory, rfl, (Prod.ext_iff.mp (Option.some.inj null)).2.symm⟩
        | some entries =>
          right
          cases hlock : slabAllocBlock { k1 with memory := memory } with
          | mk lock k2 =>
            simp only [hlock] at null
            cases lock with
            | none =>
              obtain ⟨k3, hfree, heq⟩ := Option.map_eq_some_iff.mp null
              obtain rfl := (Prod.ext_iff.mp heq).2
              exact ⟨entries, memory, k2, rfl, hlock, hfree⟩
            | some lock =>
              dsimp only at null
              split_ifs at null
              exact absurd (Prod.ext_iff.mp (Option.some.inj null)).1 (by simp)

/-- A table is answered after three requests that were. -/
theorem hashTableCreate_some {t : Table}
    (h : hashTableCreate fuel k numPages = some (some t, k')) :
    ∃ k1 memory, slabAllocBlock k = (some t.ht, k1) ∧
      FbaPages.fbaAllocBlocks k1.memory (numPages.setWidth 32) = (some t.entries, memory) ∧
      slabAllocBlock { k1 with memory := memory } = (some t.lock, k') ∧
      t.table = ⟨(numPages * BitVec.ofNat 64 HashTables.entriesPerPage).toNat, 0,
        fun _ => HashTables.emptyEntry⟩ ∧
      (numPages * BitVec.ofNat 64 HashTables.entriesPerPage).toNat ≤
        (numPages.setWidth 32).toNat * HashTables.entriesPerPage := by
  rw [hashTableCreate] at h
  cases htable : slabAllocBlock k with
  | mk ht k1 =>
    simp only [htable] at h
    cases ht with
    | none => exact absurd (Prod.ext_iff.mp (Option.some.inj h)).1 (by simp)
    | some ht =>
      cases hentries : FbaPages.fbaAllocBlocks k1.memory (numPages.setWidth 32) with
      | mk entries memory =>
        simp only [hentries] at h
        cases entries with
        | none => exact absurd (Prod.ext_iff.mp (Option.some.inj h)).1 (by simp)
        | some entries =>
          cases hlock : slabAllocBlock { k1 with memory := memory } with
          | mk lock k2 =>
            simp only [hlock] at h
            cases lock with
            | none =>
              obtain ⟨k3, -, heq⟩ := Option.map_eq_some_iff.mp h
              exact absurd (Prod.ext_iff.mp heq).1 (by simp)
            | some lock =>
              dsimp only at h
              split_ifs at h with hfits
              obtain ⟨htable', rfl⟩ := Prod.mk.inj (Option.some.inj h)
              obtain rfl := Option.some.inj htable'
              exact ⟨k1, memory, rfl, hentries, hlock, rfl, hfits⟩

theorem hashTableCreate_answered {ht lock entries : BitVec 64} {k1 : Kernel}
    {memory : FbaPages.Kernel} (table : slabAllocBlock k = (some ht, k1))
    (taken : FbaPages.fbaAllocBlocks k1.memory (numPages.setWidth 32) = (some entries, memory))
    (locked : slabAllocBlock { k1 with memory := memory } = (some lock, k'))
    (fits : (numPages * BitVec.ofNat 64 HashTables.entriesPerPage).toNat ≤
      (numPages.setWidth 32).toNat * HashTables.entriesPerPage) :
    hashTableCreate fuel k numPages =
      some (some ⟨ht, lock, entries,
        ⟨(numPages * BitVec.ofNat 64 HashTables.entriesPerPage).toNat, 0,
          fun _ => HashTables.emptyEntry⟩⟩, k') := by
  simp only [hashTableCreate, table, taken, locked]
  rw [if_pos fits]

/-- What is left of a partial slab after the table was taken from it. -/
theorem exhausted_took_iff {slab : BitVec 64} {n : Nat} {memory : FbaPages.Kernel}
    (free : freeBlock (k.slab.state.mem slab) = some n)
    (head : k.slab.state.partialHead = some slab) :
    Exhausted { memory := memory, slab := took k.slab slab } ↔
      (SlabAlloc.bitmapSet (k.slab.state.mem slab) n).isFull ∧
        TurnsDown (k.slab.state.next slab)
          (fun next => next = slab ∨ (k.slab.state.mem next).isFull) memory.fba := by
  by_cases hfull : (SlabAlloc.bitmapSet (k.slab.state.mem slab) n).isFull
  · have htook : (took k.slab slab).state =
        { (k.slab.state.write slab { SlabAlloc.bitmapSet (k.slab.state.mem slab) n with
            next := k.slab.state.fullHead }) with
          partialHead := k.slab.state.next slab
          fullHead := some slab } := by
      simp [took, takeBlock, free, hfull, SlabState.next]
    rw [Exhausted, htook]
    cases hnext : k.slab.state.next slab with
    | none => simp [TurnsDown, hfull]
    | some next =>
      by_cases hsame : next = slab
      · rw [hsame]
        simp only [TurnsDown, write_mem_self, hfull, true_or, and_true, iff_true]
        exact hfull
      · simp [TurnsDown, write_mem_ne _ _ hsame, hfull, hsame]
  · have htook : (took k.slab slab).state =
        k.slab.state.write slab (SlabAlloc.bitmapSet (k.slab.state.mem slab) n) := by
      simp [took, takeBlock, free, hfull]
    have hhead : (took k.slab slab).state.partialHead = some slab := by
      rw [htook]
      exact head
    rw [Exhausted, hhead, htook]
    simp [TurnsDown, write_mem_self, hfull]

/-- The block that was answered last is given back. -/
theorem Reached.freed {ht : BitVec 64} {k1 : Kernel} {memory : FbaPages.Kernel} (h : Reached k)
    (answer : slabAllocBlock k = (some ht, k1))
    (free : slabFree fuel { k1 with memory := memory } ht = some k') :
    k'.memory = memory ∧
      ∀ block, SlabBlocks.InUse k'.slab block ↔ SlabBlocks.InUse k.slab block := by
  obtain ⟨hreached, hanswer⟩ := h.allocBlock
  rw [answer] at hreached hanswer
  obtain ⟨-, hlive⟩ := hanswer ht rfl
  have hlive' : k1.slab.live = ht :: k.slab.live := hlive
  obtain ⟨state, hstate, rfl⟩ := Option.map_eq_some_iff.mp free
  have hmem : ht ∈ k1.slab.live := by
    rw [hlive']
    exact List.mem_cons_self
  have hfreed := SlabBlocks.Inv.freed hreached.slabs hmem hstate
  refine ⟨rfl, fun block => ?_⟩
  have herased : block ∈ k1.slab.live.erase ht ↔ block ∈ k.slab.live := by
    rw [hlive', List.erase_cons_head]
  exact (hfreed.live block).symm.trans (herased.trans (h.slabs.live block))

/-- A table that is given to the block allocator stays in use. -/
theorem Reached.not_restored {ht : BitVec 64} {k1 : Kernel} (h : Reached k)
    (answer : slabAllocBlock k = (some ht, k1)) (slab : k'.slab = k1.slab) : ¬ Restored k k' := by
  intro hrestored
  obtain ⟨hreached, hanswer⟩ := h.allocBlock
  rw [answer] at hreached hanswer
  obtain ⟨hfresh, hlive⟩ := hanswer ht rfl
  have hused : SlabBlocks.InUse k1.slab ht := by
    apply (hreached.slabs.live ht).mp
    rw [hlive]
    exact List.mem_cons_self
  rw [← slab] at hused
  exact hfresh ((h.slabs.live ht).mpr ((hrestored.live ht).mp hused))

end Null

section Entries

variable {fba fba' later : Fba} {n : Nat} {entries : BitVec 64}

/-- Freeing the entries gives back their first block and no other. -/
theorem entries_freed (sized : Sized fba) (taken : Gives fba n 1 (some entries, fba'))
    (frame : later = { fba' with bitmap := later.bitmap }) :
    ∃ first, entries = blockAddress fba first ∧ 0 < n ∧ first + n ≤ fba.fbaSizeBlocks.toNat ∧
      (∀ i < n, bit fba.bitmap (first + i) = false ∧ bit fba'.bitmap (first + i) = true) ∧
      ∀ i ≠ first, bit (FbaAlloc.fbaFree later entries).bitmap i = bit later.bitmap i := by
  obtain ⟨first, hentries, -, hpos, hend, hbits⟩ := taken.gives entries rfl
  refine ⟨first, hentries, hpos, hend, hbits, fun i hi => ?_⟩
  have hframe : fba' = { fba with bitmap := fba'.bitmap } := taken.frame
  have hbegin : later.fbaBegin = fba.fbaBegin := by rw [frame, hframe]
  have hsize : later.fbaSizeBlocks = fba.fbaSizeBlocks := by rw [frame, hframe]
  have hinside : first < later.fbaSizeBlocks.toNat := by
    rw [hsize]
    omega
  have hothers := fbaFree_others ((sized.of_frame hframe).of_frame frame) hinside hi
  rw [hbegin, ← hentries] at hothers
  exact hothers

end Entries

section Restoring

variable {k k' k1 k2 : Kernel} {count : BitVec 32} {ht entries : BitVec 64}
  {memory : FbaPages.Kernel} {fuel : Nat}

theorem Allocators.linked (h : Allocators k) : Reached k := by
  obtain ⟨a, hreach, hfba, hslab⟩ := h.reached
  exact ⟨a, SlabBlocks.reachable_linked hreach, hfba, hslab⟩

theorem inRange_block {fba : Fba} {i : Nat} (sized : Sized fba)
    (inside : i < fba.fbaSizeBlocks.toNat) : InRange fba (blockAddress fba i) := by
  rw [InRange, blockAddress, sized.toNat_address inside]
  omega

/-- A call that failed at its lock after it had a table and its entries. -/
structure LockFailed (k k1 k2 k' : Kernel) (count : BitVec 32) (ht entries : BitVec 64)
    (memory : FbaPages.Kernel) : Prop where
  table : slabAllocBlock k = (some ht, k1)
  taken : FbaPages.fbaAllocBlocks k1.memory count = (some entries, memory)
  lock : slabAllocBlock { k1 with memory := memory } = (none, k2)
  free : ∃ fuel, slabFree fuel { k2 with memory := FbaPages.fbaFree k2.memory entries } ht = some k'

theorem LockFailed.reached (h : LockFailed k k1 k2 k' count ht entries memory) (start : Reached k) :
    Reached k1 ∧ Reached { k1 with memory := memory } := by
  have hreached1 : Reached k1 := by
    have hstep := start.allocBlock.1
    rwa [h.table] at hstep
  have hreached2 := hreached1.allocBlocks count
  rw [h.taken] at hreached2
  exact ⟨hreached1, hreached2⟩

/-- What the three requests do to the blocks of the range. -/
theorem LockFailed.gives (h : LockFailed k k1 k2 k' count ht entries memory) (start : Reached k) :
    Gives k.memory.fba 4 4 (k.askFba.1, k1.memory.fba) ∧
      Gives k1.memory.fba count.toNat 1 (some entries, memory.fba) ∧
      ∃ answer, Gives memory.fba 4 4 (answer, k2.memory.fba) := by
  obtain ⟨hreached1, hreached2⟩ := h.reached start
  have htable := slabAllocBlock_gives start.sized
  have htaken := fbaAllocBlocksAligned_gives hreached1.sized count 1
  have hlock := slabAllocBlock_gives hreached2.sized
  have hrun : FbaPages.fbaAllocBlocksAligned k1.memory count 1 = (some entries, memory) := h.taken
  rw [h.table] at htable
  rw [hrun] at htaken
  rw [h.lock] at hlock
  exact ⟨htable, htaken, _, hlock⟩

/-- Only the first block of the entries is given back. -/
theorem LockFailed.blocks (h : LockFailed k k1 k2 k' count ht entries memory) (start : Reached k) :
    ∃ first, 0 < count.toNat ∧ first + count.toNat ≤ k1.memory.fba.fbaSizeBlocks.toNat ∧
      (∀ i < count.toNat, bit k1.memory.fba.bitmap (first + i) = false ∧
        bit memory.fba.bitmap (first + i) = true) ∧
      ∀ i ≠ first, bit k'.memory.fba.bitmap i = bit k2.memory.fba.bitmap i := by
  obtain ⟨-, htaken, answer, hlock⟩ := h.gives start
  obtain ⟨first, -, hpos, hend, hbits, hothers⟩ :=
    entries_freed (h.reached start).1.sized htaken hlock.frame
  refine ⟨first, hpos, hend, hbits, fun i hi => ?_⟩
  obtain ⟨fuel, hfree⟩ := h.free
  obtain ⟨state, -, rfl⟩ := Option.map_eq_some_iff.mp hfree
  simp only [fbaFree_refines]
  exact hothers i hi

/-- A range that ends at the last address gets nothing back. -/
theorem LockFailed.wrapped (h : LockFailed k k1 k2 k' count ht entries memory) (start : Reached k)
    (wraps : ¬ EndsBelow k.memory.fba) : k'.memory = k2.memory := by
  obtain ⟨htable, htaken, answer, hlock⟩ := h.gives start
  have hrange1 : k1.memory.fba = { k.memory.fba with bitmap := k1.memory.fba.bitmap } :=
    htable.frame
  have hrange : memory.fba = { k1.memory.fba with bitmap := memory.fba.bitmap } := htaken.frame
  have hrange2 : k2.memory.fba = { memory.fba with bitmap := k2.memory.fba.bitmap } := hlock.frame
  have hends : ¬ EndsBelow k2.memory.fba := by
    rw [hrange2, hrange, hrange1]
    exact wraps
  have hsized2 : Sized k2.memory.fba := ((h.reached start).2.sized).of_frame hrange2
  obtain ⟨fuel, hfree⟩ := h.free
  obtain ⟨state, -, rfl⟩ := Option.map_eq_some_iff.mp hfree
  exact fbaFree_wrapped hsized2 hends entries

/-- To give everything back, the entries are one block that `fba_free` accepts, and neither the
table nor the lock cost a block of the range. -/
theorem LockFailed.conditions (h : LockFailed k k1 k2 k' count ht entries memory)
    (start : Reached k) (restored : Restored k k') :
    count = 1 ∧ EndsBelow k.memory.fba ∧ ¬ Marks k.memory.fba k1.memory.fba ∧
      ¬ Marks memory.fba k2.memory.fba := by
  obtain ⟨first, hpos, hend, hbits, hothers⟩ := h.blocks start
  obtain ⟨htable, htaken, answer, hlock⟩ := h.gives start
  have hrange1 : k1.memory.fba = { k.memory.fba with bitmap := k1.memory.fba.bitmap } :=
    htable.frame
  have hrange : memory.fba = { k1.memory.fba with bitmap := memory.fba.bitmap } := htaken.frame
  have hsize : k.memory.fba.bitmapSizeBits.toNat = k1.memory.fba.fbaSizeBlocks.toNat := by
    rw [start.sized.bits, hrange1]
  -- a block that was free may be in use at the end only if it is the first of the entries
  have hlost : ∀ i ≠ first, i < k.memory.fba.bitmapSizeBits.toNat →
      bit k2.memory.fba.bitmap i = true → bit k.memory.fba.bitmap i = true := by
    intro i hi hinside hset
    rw [← restored.bitmap i hinside, hothers i hi]
    exact hset
  have hclear : ∀ i < count.toNat, ¬ bit k.memory.fba.bitmap (first + i) = true := by
    intro i hi hset
    have hset1 : bit k1.memory.fba.bitmap (first + i) = true := htable.keeps _ hset
    rw [(hbits i hi).1] at hset1
    exact absurd hset1 (by decide)
  have hfirst := hbits 0 hpos
  rw [Nat.add_zero] at hfirst
  refine ⟨?_, ?_, ?_, ?_⟩
  · by_contra hmany
    have hone : count.toNat ≠ 1 := fun heq => hmany (BitVec.eq_of_toNat_eq heq)
    apply hclear 1 (by omega)
    exact hlost (first + 1) (by omega) (by omega) (hlock.keeps _ (hbits 1 (by omega)).2)
  · by_contra hwraps
    apply hclear 0 hpos
    rw [Nat.add_zero, ← restored.bitmap first (by omega), h.wrapped start hwraps]
    exact hlock.keeps _ hfirst.2
  · rintro ⟨i, hi, hfree, hset⟩
    have hother : i ≠ first := by
      rintro rfl
      rw [hfirst.1] at hset
      exact absurd hset (by decide)
    rw [hlost i hother hi (hlock.keeps _ (htaken.keeps _ hset))] at hfree
    exact absurd hfree (by decide)
  · rintro ⟨i, hi, hfree, hset⟩
    have hother : i ≠ first := by
      rintro rfl
      rw [hfirst.2] at hfree
      exact absurd hfree (by decide)
    rw [hrange, hrange1] at hi
    have hbefore := hlost i hother hi hset
    have hset' : bit memory.fba.bitmap i = true := htaken.keeps _ (htable.keeps _ hbefore)
    rw [hset'] at hfree
    exact absurd hfree (by decide)

/-- What one block of entries that is given back leaves in the range. -/
theorem Allocators.entries_back (h : Allocators k) {first : Nat} (ends : EndsBelow k.memory.fba)
    (hfirst : FirstClear k.memory.fba first)
    (page : pageFailed (pageAlloc k.memory.machine.region).1 = false) {back : FbaPages.Kernel}
    (hback : back = FbaPages.fbaFree (FbaPages.fbaAllocBlocks k.memory 1).2
      (blockAddress k.memory.fba first)) :
    (∀ i, bit back.fba.bitmap i = bit k.memory.fba.bitmap i) ∧
      ((∀ v, InRange k.memory.fba v → vmmVirtToPtEntry back.machine back.pml4 v =
          vmmVirtToPtEntry k.memory.machine k.memory.pml4 v) ↔
        vmmVirtToPtEntry k.memory.machine k.memory.pml4 (blockAddress k.memory.fba first) = 0) := by
  have hsized := h.linked.sized
  have hinside : first < k.memory.fba.fbaSizeBlocks.toNat := by
    rw [← hsized.bits]
    exact hfirst.1
  have hrange := inRange_block hsized hinside
  obtain ⟨-, -, hbits, hentry⟩ := one_block_back hsized ends hfirst (h.linked.first_used hfirst)
    page h.tables (h.straight _ hrange) hback
  refine ⟨hbits, fun hsame => ?_, fun hzero v hv => ?_⟩
  · rw [← hsame _ hrange, hentry _ (h.straight _ hrange), if_pos rfl]
  · rw [hentry v (h.straight v hv)]
    split_ifs with hpage
    · exact ((entry_eq_of_pageNumber hpage _ _).trans hzero).symm
    · rfl

/-- Of the ways to fail at the lock, one gives everything back. -/
theorem LockFailed.harmless {numPages : BitVec 64} (h : Allocators k)
    (failed : LockFailed k k1 k2 k' (numPages.setWidth 32) ht entries memory)
    (restored : Restored k k') : Harmless k numPages := by
  have hstart := h.linked
  have hsized := hstart.sized
  obtain ⟨hone, hends, hunmarked, hunmarked'⟩ := failed.conditions hstart restored
  rcases slabAllocBlock_cases hsized with hexhausted | ⟨slab, n, hhead, hfree⟩ | hmarks
  · exact Or.inl hexhausted
  · have htable := slabAllocBlock_taken hhead hfree
    rw [failed.table] at htable
    obtain ⟨-, rfl⟩ := Prod.mk.inj htable
    have hreached2 := (failed.reached hstart).2
    rcases slabAllocBlock_cases hreached2.sized with
      hexhausted | ⟨slab', n', hhead', hfree'⟩ | hmarks
    · obtain ⟨hfull, hturned⟩ := (exhausted_took_iff hfree hhead).mp hexhausted
      have hlock := failed.lock
      rw [hexhausted.unchanged hreached2.sized] at hlock
      obtain ⟨-, rfl⟩ := Prod.mk.inj hlock
      obtain ⟨block, -, hend, hbits, -⟩ := failed.blocks hstart
      have hclear := (hbits 0 (by rw [hone]; decide)).1
      have hroom : block < k.memory.fba.bitmapSizeBits.toNat := by
        rw [hsized.bits]
        rw [hone] at hend
        exact hend
      obtain ⟨first, hfirst⟩ := exists_firstClear hroom hclear
      have htaken := failed.taken
      rw [hone, fbaAllocBlocks_one hsized hfirst] at htaken
      obtain ⟨hpage, rfl⟩ : pageFailed (pageAlloc k.memory.machine.region).1 = false ∧
          entries = blockAddress k.memory.fba first := by
        have hanswer := doAlloc_fst (k.memory.mark first) (blockAddress k.memory.fba first)
        rw [htaken, FbaAlloc.doAlloc] at hanswer
        split_ifs at hanswer with hpage
        exact ⟨Bool.not_eq_true _ ▸ hpage, Option.some.inj hanswer⟩
      have hmarked : memory.fba = (k.memory.mark first).fba := by
        have hfba := doAlloc_fba (k.memory.mark first) (blockAddress k.memory.fba first)
        rwa [htaken] at hfba
      rw [hmarked] at hturned
      refine Or.inr ⟨hone, hends, hpage, slab, n, first, hhead, hfree, hfull, hfirst, ?_, hturned⟩
      apply (h.entries_back hends hfirst hpage _).2.mp restored.mappings
      obtain ⟨fuel, hback⟩ := failed.free
      rw [fbaAllocBlocks_one hsized hfirst, htaken]
      exact (hstart.freed failed.table hback).1
    · have hlock := slabAllocBlock_taken hhead' hfree'
      rw [failed.lock] at hlock
      exact absurd (Prod.mk.inj hlock).1 (by simp)
    · rw [failed.lock] at hmarks
      exact absurd hmarks hunmarked'
  · rw [failed.table] at hmarks
    exact absurd hmarks hunmarked

/-- Each of these ways to fail leaves no trace. -/
theorem Harmless.restores {numPages : BitVec 64} (harmless : Harmless k numPages)
    (h : Allocators k) (null : hashTableCreate fuel k numPages = some (none, k')) :
    Restored k k' := by
  have hstart := h.linked
  have hsized := hstart.sized
  rcases harmless with hexhausted | ⟨hone, hends, hpage, slab, n, first, hhead, hfree, hfull, hfirst,
    hzero, hturned⟩
  · rw [hashTableCreate, hexhausted.unchanged hsized] at null
    obtain rfl := (Prod.ext_iff.mp (Option.some.inj null)).2
    exact Restored.refl k
  · have hinside : first < k.memory.fba.fbaSizeBlocks.toNat := by
      rw [← hsized.bits]
      exact hfirst.1
    obtain ⟨hanswer, hmarked, -, -⟩ := one_block_back hsized hends hfirst
      (hstart.first_used hfirst) hpage h.tables (h.straight _ (inRange_block hsized hinside)) rfl
    have htable := slabAllocBlock_taken hhead hfree
    rcases hashTableCreate_null null with hnone | ⟨ht, k1, htable', hrest⟩
    · rw [htable] at hnone
      exact absurd (Prod.mk.inj hnone).1 (by simp)
    · rw [htable] at htable'
      obtain ⟨hblock, rfl⟩ := Prod.mk.inj htable'
      obtain rfl := Option.some.inj hblock
      simp only [hone] at hrest
      rcases hrest with ⟨memory, hentries, -⟩ | ⟨entries, memory, k2, htaken, hlock, hfreed⟩
      · rw [hentries] at hanswer
        exact absurd hanswer (by simp)
      · rw [htaken] at hanswer hmarked
        obtain rfl := Option.some.inj hanswer
        have hexhausted : Exhausted { memory := memory, slab := took k.slab slab } := by
          apply (exhausted_took_iff hfree hhead).mpr
          rw [hmarked]
          exact ⟨hfull, hturned⟩
        have hsized' : Sized memory.fba := by
          rw [hmarked]
          exact hsized.of_frame rfl
        rw [hexhausted.unchanged hsized'] at hlock
        obtain ⟨-, rfl⟩ := Prod.mk.inj hlock
        obtain ⟨hmemory, hlive⟩ := hstart.freed htable hfreed
        have hrun : k'.memory = FbaPages.fbaFree (FbaPages.fbaAllocBlocks k.memory 1).2
            (blockAddress k.memory.fba first) := by
          rw [htaken]
          exact hmemory
        obtain ⟨hbits, hmappings⟩ := h.entries_back hends hfirst hpage hrun
        exact ⟨fun i _ => hbits i, hmappings.mpr hzero, hlive⟩

/-- A failed call leaves the blocks, their mappings and the slab blocks as they were exactly when
it was turned down at once, or when the one block of its entries could be given back after the
lock was turned down. -/
theorem null_restores_iff {numPages : BitVec 64} (h : Allocators k)
    (null : hashTableCreate fuel k numPages = some (none, k')) :
    Restored k k' ↔ Harmless k numPages := by
  have hstart := h.linked
  have hsized := hstart.sized
  constructor
  · intro hrestored
    rcases hashTableCreate_null null with hnone | ⟨ht, k1, htable, ⟨memory, -, rfl⟩ |
      ⟨entries, memory, k2, htaken, hlock, hfree⟩⟩
    · rcases slabAllocBlock_cases hsized with hexhausted | ⟨slab, n, hhead, hfree⟩ | ⟨i, hi, hmark⟩
      · exact Or.inl hexhausted
      · rw [slabAllocBlock_taken hhead hfree] at hnone
        exact absurd (Prod.mk.inj hnone).1 (by simp)
      · rw [hnone, hrestored.bitmap i hi, hmark.1] at hmark
        exact absurd hmark.2 (by decide)
    · exact absurd hrestored (hstart.not_restored htable rfl)
    · exact LockFailed.harmless h ⟨htable, htaken, hlock, fuel, hfree⟩ hrestored
  · intro hharmless
    exact hharmless.restores h null

end Restoring

/-- The allocators at a state of theirs, with no page mapped and none to be had. -/
def unmapped (a : SlabBlocks.Kernel) : Kernel where
  memory := ⟨a.fba.fba, ⟨fun _ _ => 0, ⟨0, 0, []⟩⟩, 0x1000⟩
  slab := a.slab

theorem unmapped_allocators {a : SlabBlocks.Kernel} (reached : Reachable SlabBlocks.slabOverFba a) :
    Allocators (unmapped a) := by
  refine ⟨⟨a, reached, rfl, rfl⟩, ?_, fun v _ => (empty_walk rfl v).1⟩
  apply wellFormed_empty rfl
  · simp [WellSized, unmapped]
  · simp [freePages, unmapped]
  · simp [freePages, unmapped]
  · simp [freePages, unmapped]

/-- A range without blocks turns the table down at once. -/
theorem null_restores_iff_no_blocks :
    Restored (unmapped ⟨boot, ⟨uninitialised, fun _ => false⟩, fun _ => 0⟩)
      (unmapped ⟨boot, ⟨uninitialised, fun _ => false⟩, fun _ => 0⟩) := by
  have hreach : Reachable SlabBlocks.slabOverFba
      ⟨boot, ⟨uninitialised, fun _ => false⟩, fun _ => 0⟩ := by
    apply Reachable.start
    refine ⟨⟨rfl, rfl, rfl, rfl⟩,
      ⟨⟨0, 0, fun _ => 0, fun _ => 0, by decide, ?_⟩, fun _ => rfl⟩, rfl⟩
    exact Prod.ext (by decide) rfl
  have hallocators := unmapped_allocators hreach
  have hexhausted : Exhausted (unmapped ⟨boot, ⟨uninitialised, fun _ => false⟩, fun _ => 0⟩) := by
    refine Or.inr (Or.inr fun start hroom => ?_)
    have hend := hroom.2.1
    exact absurd hend (by simp [unmapped, uninitialised])
  apply (@null_restores_iff _ _ 0 1 hallocators _).mpr (Or.inl hexhausted)
  rw [hashTableCreate, hexhausted.unchanged hallocators.linked.sized]

/-- There is no room for the entries, and the table stays in use. -/
theorem table_is_not_given_back : ¬ ∀ (k k' : Kernel) (fuel : Nat) (numPages : BitVec 64),
    Allocators k → hashTableCreate fuel k numPages = some (none, k') → Restored k k' := by
  intro h
  let a := (SlabBlocks.booted.allocBlock fun _ => 0).2
  have hreach : Reachable SlabBlocks.slabOverFba a :=
    SlabBlocks.booted_reachable.next (a := .alloc fun _ => 0) ⟨trivial, 0, rfl⟩
  have hallocators := unmapped_allocators hreach
  have hhead : (unmapped a).slab.state.partialHead = some 0x8000 := by decide +kernel
  have hfree : freeBlock ((unmapped a).slab.state.mem 0x8000) = some 2 := by decide +kernel
  have htable := slabAllocBlock_taken hhead hfree
  have hrefused : FbaPages.fbaAllocBlocks (unmapped a).memory 0x8000 =
      (none, (unmapped a).memory) := by
    apply @exec_refused _ hallocators.linked.sized (.blocks 0x8000)
    refine Or.inr fun start hroom => ?_
    have hbits : (unmapped a).memory.fba.bitmapSizeBits = 0x8000 := by decide +kernel
    have hend := hroom.2.1
    rw [hbits] at hend
    obtain rfl : start = 0 := by
      simp at hend
      exact hend
    have hclear := hroom.2.2 0 (by decide)
    exact absurd hclear (by decide +kernel)
  have hcall : hashTableCreate 0 (unmapped a) 0x8000 =
      some (none, { memory := FbaPages.fbaFree (unmapped a).memory (0x8000 + 64 * BitVec.ofNat 64 2)
                    slab := took (unmapped a).slab 0x8000 }) := by
    have hcount : (0x8000 : BitVec 64).setWidth 32 = 0x8000 := by decide
    simp only [hashTableCreate, htable, hcount, hrefused]
  have hrestored := h _ _ 0 0x8000 hallocators hcall
  revert hrestored
  apply hallocators.linked.not_restored htable
  rfl

end TableMemory
