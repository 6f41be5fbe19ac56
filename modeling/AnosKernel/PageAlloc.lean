import AnosKernel.Lib.Masks
import Mathlib.Data.List.Nodup
import Mathlib.Data.List.Perm.Basic
import Mathlib.Tactic.Linarith

/-!
# The physical page allocator

`kernel/pmm/pagealloc.c` keeps free physical memory as a stack of runs of pages.
Here the stack is a list with the top first; `region->sp` is its head, and the
walk from `sp` down to the bottom is a walk along the list. Addresses and sizes are
64-bit words with their wrapping arithmetic. The region lock only serialises the
calls and is not represented.
-/

namespace PageAlloc

/-- `VM_PAGE_SIZE`. -/
def vmPageSize : BitVec 64 := 0x1000

/-- `VM_PAGE_LINEAR_SHIFT`. -/
def vmPageLinearShift : Nat := 12

structure MemoryBlock where
  base : BitVec 64
  size : BitVec 64
  deriving DecidableEq, Repr

structure MemoryRegion where
  size : BitVec 64
  free : BitVec 64
  stack : List MemoryBlock
  deriving DecidableEq, Repr

/-- Entry types of the boot loader's map; `unlisted` is any other code. -/
inductive MemMapType
  | usable
  | reserved
  | acpiReclaimable
  | acpiNvs
  | badMemory
  | bootloaderReclaimable
  | executableAndModules
  | framebuffer
  | unlisted
  deriving DecidableEq, Repr

/-- An entry describes a range of physical addresses, so it ends inside the address space. -/
structure MemMapEntry where
  base : BitVec 64
  length : BitVec 64
  type : MemMapType
  fits : base.toNat + length.toNat ≤ 2 ^ 64

/-- Non-empty entries of the types that the switch takes; the memory of the executable and
its modules is taken only when it is to be reclaimed. -/
def accepted (reclaimExecMods : Bool) (entry : MemMapEntry) : Bool :=
  entry.length > 0 && match entry.type with
    | .usable | .bootloaderReclaimable => true
    | .executableAndModules => reclaimExecMods
    | _ => false

/-- The page-aligned start and the byte count taken from an entry, if anything is. -/
def entryRange (managedBase : BitVec 64) (reclaimExecMods : Bool) (entry : MemMapEntry) :
    Option (BitVec 64 × BitVec 64) :=
  if accepted reclaimExecMods entry then
    let start := entry.base &&& 0xFFFFFFFFFFFFF000
    let stop := (entry.base + entry.length) &&& 0xFFFFFFFFFFFFF000
    let start := if entry.base > start then start + vmPageSize else start
    if start < managedBase ∧ stop ≤ managedBase then none
    else
      let start := if start < managedBase then managedBase else start
      let totalBytes := stop - start
      if totalBytes = 0 then none else some (start, totalBytes)
  else none

/-- One turn of the initialisation loop. -/
def addEntry (managedBase : BitVec 64) (reclaimExecMods : Bool) (region : MemoryRegion)
    (entry : MemMapEntry) : MemoryRegion :=
  match entryRange managedBase reclaimExecMods entry with
  | none => region
  | some (start, totalBytes) =>
    { size := region.size + totalBytes
      free := region.free + totalBytes
      stack := { base := start, size := totalBytes >>> vmPageLinearShift } :: region.stack }

def pageAllocInitLimine (memmap : List MemMapEntry) (managedBase : BitVec 64)
    (reclaimExecMods : Bool) : MemoryRegion :=
  memmap.foldl (addEntry managedBase reclaimExecMods) { size := 0, free := 0, stack := [] }

/-- Where the walk of `pageAllocM` stops, counted from the top of the stack. -/
def firstFit (count : BitVec 64) : List MemoryBlock → Option Nat
  | [] => none
  | ptr :: below =>
    if ptr.size > count ∨ ptr.size = count then some 0
    else (firstFit count below).map (· + 1)

def pageAllocM (region : MemoryRegion) (count : BitVec 64) : BitVec 64 × MemoryRegion :=
  match firstFit count region.stack with
  | none => (0xFF, region)
  | some i =>
    match region.stack[i]? with
    | none => (0xFF, region)
    | some ptr =>
      let free := region.free - (count <<< vmPageLinearShift)
      if ptr.size > count then
        -- the remainder keeps all but the first page: the base moves by one page only
        (ptr.base, { region with
          free := free
          stack := region.stack.set i
            { base := ptr.base + vmPageSize, size := ptr.size - count } })
      else
        -- an exact fit is popped, after the top took its place if it was lower down
        (ptr.base, { region with
          free := free
          stack := (match region.stack.head? with
            | some top => if i = 0 then region.stack else region.stack.set i top
            | none => region.stack).tail })

def pageAlloc (region : MemoryRegion) : BitVec 64 × MemoryRegion :=
  match region.stack with
  | [] => (0xFF, region)
  | top :: below =>
    if top.size > 1 then
      (top.base, { region with
        free := region.free - vmPageSize
        stack := { base := top.base + vmPageSize, size := top.size - 1 } :: below })
    else
      (top.base, { region with free := region.free - vmPageSize, stack := below })

def pageFree (region : MemoryRegion) (page : BitVec 64) : MemoryRegion :=
  if page &&& 0xFFF ≠ 0 then region
  else
    let free := region.free + vmPageSize
    match region.stack with
    | [] => { region with free := free, stack := [{ base := page, size := 1 }] }
    | top :: below =>
      if top.base = page + vmPageSize then
        { region with free := free, stack := { base := page, size := top.size + 1 } :: below }
      else if top.base = page - vmPageSize then
        { region with free := free, stack := { top with size := top.size + 1 } :: below }
      else
        { region with free := free, stack := { base := page, size := 1 } :: top :: below }

/-! ## The pages behind the stack -/

/-- The addresses of `n` consecutive pages. -/
def pageRun (base : BitVec 64) : Nat → List (BitVec 64)
  | 0 => []
  | n + 1 => base :: pageRun (base + vmPageSize) n

def MemoryBlock.pages (block : MemoryBlock) : List (BitVec 64) :=
  pageRun block.base block.size.toNat

def freePages (region : MemoryRegion) : List (BitVec 64) :=
  region.stack.flatMap MemoryBlock.pages

/-- No block of the stack is empty. -/
def WellSized (region : MemoryRegion) : Prop :=
  ∀ block ∈ region.stack, block.size ≠ 0

theorem pageRun_add (base : BitVec 64) (m n : Nat) :
    pageRun base (m + n) =
      pageRun base m ++ pageRun (base + BitVec.ofNat 64 m * vmPageSize) n := by
  induction m generalizing base with
  | zero => simp [pageRun]
  | succ m ih =>
    have hstep : base + vmPageSize + BitVec.ofNat 64 m * vmPageSize =
        base + BitVec.ofNat 64 (m + 1) * vmPageSize := by
      rw [BitVec.ofNat_add, BitVec.add_mul, BitVec.one_mul, BitVec.add_assoc, BitVec.add_comm vmPageSize]
    rw [Nat.add_right_comm, pageRun, ih, hstep, pageRun, List.cons_append]

theorem mem_pageRun {base page : BitVec 64} {n : Nat} :
    page ∈ pageRun base n ↔ ∃ i < n, page = base + BitVec.ofNat 64 i * vmPageSize := by
  induction n generalizing base with
  | zero => simp [pageRun]
  | succ n ih =>
    rw [pageRun_add base n 1, List.mem_append, ih]
    simp only [pageRun, List.mem_singleton]
    constructor
    · rintro (⟨i, hi, rfl⟩ | rfl)
      · exact ⟨i, by omega, rfl⟩
      · exact ⟨n, by omega, rfl⟩
    · rintro ⟨i, hi, rfl⟩
      by_cases h : i = n
      · exact Or.inr (by rw [h])
      · exact Or.inl ⟨i, by omega, rfl⟩

/-- A run that goes once around the address space meets its first page again. -/
theorem pageRun_around {base : BitVec 64} {m k : Nat} (hm : 0 < m)
    (around : BitVec.ofNat 64 m * vmPageSize = 0) : ¬ (pageRun base (m + (k + 1))).Nodup := by
  intro h
  rw [pageRun_add, List.nodup_append, around] at h
  refine h.2.2 base ?_ base (by simp [pageRun]) rfl
  exact mem_pageRun.mpr ⟨0, hm, by simp⟩

/-- The address space has `2 ^ 52` pages. -/
theorem pageRun_nodup_length {base : BitVec 64} {n : Nat} (h : (pageRun base n).Nodup) :
    n ≤ 2 ^ 52 := by
  by_contra hlong
  obtain ⟨k, rfl⟩ : ∃ k, n = 2 ^ 52 + (k + 1) := ⟨n - 2 ^ 52 - 1, by omega⟩
  exact pageRun_around (by norm_num) (by decide) h

theorem pages_pos {block : MemoryBlock} (h : block.size ≠ 0) :
    block.pages = block.base :: pageRun (block.base + vmPageSize) (block.size.toNat - 1) := by
  have hpos : block.size.toNat ≠ 0 := fun h0 => h (BitVec.eq_of_toNat_eq (by simpa using h0))
  obtain ⟨n, hn⟩ := Nat.exists_eq_succ_of_ne_zero hpos
  simp [MemoryBlock.pages, hn, pageRun]

/-! ## What each operation does to the free pages -/

theorem pageAlloc_perm {region : MemoryRegion} (sized : WellSized region)
    (nonempty : region.stack ≠ []) :
    (freePages region).Perm
      ((pageAlloc region).1 :: freePages (pageAlloc region).2) := by
  cases hs : region.stack with
  | nil => exact absurd hs nonempty
  | cons top below =>
    have hne : top.size ≠ 0 := sized top (by simp [hs])
    by_cases hbig : top.size > 1
    · have hsub : (top.size - 1).toNat = top.size.toNat - 1 := by bv_omega
      simp only [pageAlloc, hs, if_pos hbig, freePages, List.flatMap_cons, pages_pos hne]
      rw [MemoryBlock.pages, hsub, List.cons_append]
    · have hone : top.size.toNat - 1 = 0 := by bv_omega
      simp only [pageAlloc, hs, if_neg hbig, freePages, List.flatMap_cons, pages_pos hne]
      simp [hone, pageRun]

theorem pageAlloc_sized {region : MemoryRegion} (sized : WellSized region) :
    WellSized (pageAlloc region).2 := by
  cases hs : region.stack with
  | nil => simpa [pageAlloc, hs] using sized
  | cons top below =>
    have hbelow : ∀ block ∈ below, block.size ≠ 0 := fun block hb => sized block (by simp [hs, hb])
    by_cases hbig : top.size > 1
    · intro block hb
      simp only [pageAlloc, hs, if_pos hbig, List.mem_cons] at hb
      rcases hb with rfl | hb
      · bv_omega
      · exact hbelow block hb
    · intro block hb
      simp only [pageAlloc, hs, if_neg hbig] at hb
      exact hbelow block hb

theorem pageAlloc_empty {region : MemoryRegion} (empty : region.stack = []) :
    pageAlloc region = (0xFF, region) := by
  simp [pageAlloc, empty]

theorem freePages_empty {region : MemoryRegion} (empty : region.stack = []) :
    freePages region = [] := by
  simp [freePages, empty]

/-- One page was taken from the free ones. -/
structure Allocated (region : MemoryRegion) (page : BitVec 64) (rest : MemoryRegion) : Prop where
  perm : (freePages region).Perm (page :: freePages rest)
  sized : WellSized rest
  fresh : page ∉ freePages rest
  nodup : (freePages rest).Nodup

theorem pageAlloc_allocated {region rest : MemoryRegion} {page : BitVec 64}
    (sized : WellSized region) (nodup : (freePages region).Nodup) (nonempty : region.stack ≠ [])
    (h : pageAlloc region = (page, rest)) : Allocated region page rest := by
  have hperm := pageAlloc_perm sized nonempty
  have hsized := pageAlloc_sized sized
  rw [h] at hperm hsized
  obtain ⟨hfresh, hnodup⟩ := List.nodup_cons.mp (hperm.nodup_iff.mp nodup)
  exact ⟨hperm, hsized, hfresh, hnodup⟩

theorem Allocated.taken {region rest : MemoryRegion} {page : BitVec 64}
    (h : Allocated region page rest) : page ∈ freePages region :=
  h.perm.mem_iff.mpr List.mem_cons_self

theorem Allocated.left {region rest : MemoryRegion} {page : BitVec 64}
    (h : Allocated region page rest) {other : BitVec 64} (hother : other ∈ freePages rest) :
    other ∈ freePages region :=
  h.perm.mem_iff.mpr (List.mem_cons_of_mem _ hother)

theorem Allocated.count {region rest : MemoryRegion} {page : BitVec 64}
    (h : Allocated region page rest) : (freePages region).length = (freePages rest).length + 1 :=
  h.perm.length_eq

/-- The walk passes the blocks that are too small and stops at the first that is not. -/
theorem firstFit_some {count : BitVec 64} {stack : List MemoryBlock} {i : Nat}
    (h : firstFit count stack = some i) :
    ∃ above ptr below, stack = above ++ ptr :: below ∧ above.length = i ∧ count ≤ ptr.size := by
  induction stack generalizing i with
  | nil => simp [firstFit] at h
  | cons ptr below ih =>
    by_cases hfit : ptr.size > count ∨ ptr.size = count
    · simp only [firstFit, if_pos hfit, Option.some.injEq] at h
      exact ⟨[], ptr, below, rfl, h, by bv_omega⟩
    · simp only [firstFit, if_neg hfit, Option.map_eq_some_iff] at h
      obtain ⟨j, hj, rfl⟩ := h
      obtain ⟨above, p, rest, rfl, hlen, hle⟩ := ih hj
      exact ⟨ptr :: above, p, rest, rfl, by simp [hlen], hle⟩

/-- The branch that splits a block is taken for single pages only. -/
def SplitsOnlySingles (region : MemoryRegion) (count : BitVec 64) : Prop :=
  ∀ i ptr, firstFit count region.stack = some i → region.stack[i]? = some ptr →
    ptr.size > count → count = 1

theorem pageAllocM_none {region : MemoryRegion} {count : BitVec 64}
    (h : firstFit count region.stack = none) : pageAllocM region count = (0xFF, region) := by
  simp [pageAllocM, h]

/-- Splitting a block: the base moves by one page whatever the count is. -/
theorem pageAllocM_split {region : MemoryRegion} {count : BitVec 64} {above below : List MemoryBlock}
    {ptr : MemoryBlock} (hs : region.stack = above ++ ptr :: below)
    (hfit : firstFit count region.stack = some above.length) (hbig : ptr.size > count) :
    pageAllocM region count = (ptr.base, { region with
      free := region.free - (count <<< vmPageLinearShift)
      stack := above ++ { base := ptr.base + vmPageSize, size := ptr.size - count } :: below }) := by
  have hget : region.stack[above.length]? = some ptr := by simp [hs]
  have hset : region.stack.set above.length
      { base := ptr.base + vmPageSize, size := ptr.size - count } =
        above ++ { base := ptr.base + vmPageSize, size := ptr.size - count } :: below := by
    simp [hs]
  simp only [pageAllocM, hfit, hget, if_pos hbig, hset]

/-- Taking a block whole leaves the other blocks, the top one perhaps moved. -/
theorem pageAllocM_whole {region : MemoryRegion} {count : BitVec 64} {above below : List MemoryBlock}
    {ptr : MemoryBlock} (hs : region.stack = above ++ ptr :: below)
    (hfit : firstFit count region.stack = some above.length) (hexact : ¬ ptr.size > count) :
    (pageAllocM region count).1 = ptr.base ∧
      (pageAllocM region count).2.stack.Perm (above ++ below) := by
  have hget : region.stack[above.length]? = some ptr := by simp [hs]
  simp only [pageAllocM, hfit, hget, if_neg hexact, true_and]
  cases above with
  | nil => simp [hs]
  | cons top rest =>
    have hhead : region.stack.head? = some top := by simp [hs]
    have hset : (region.stack.set (rest.length + 1) top).tail = rest ++ top :: below := by
      simp [hs]
    simp only [hhead, List.length_cons, Nat.add_eq_zero_iff, one_ne_zero, and_false, if_false, hset]
    exact List.perm_middle

/-- The pages of a stack do not depend on the order of its blocks. -/
theorem freePages_perm {stack stack' : List MemoryBlock} (h : stack.Perm stack') :
    (stack.flatMap MemoryBlock.pages).Perm (stack'.flatMap MemoryBlock.pages) :=
  h.flatMap_right _

theorem pageAllocM_perm {region : MemoryRegion} {count : BitVec 64} {i : Nat}
    (sized : WellSized region) (only : SplitsOnlySingles region count)
    (found : firstFit count region.stack = some i) :
    (freePages region).Perm
      (pageRun (pageAllocM region count).1 count.toNat ++ freePages (pageAllocM region count).2) := by
  obtain ⟨above, ptr, below, hs, rfl, hle⟩ := firstFit_some found
  have hpull : (freePages region).Perm (ptr.pages ++ (above ++ below).flatMap MemoryBlock.pages) := by
    rw [freePages, hs]
    exact freePages_perm List.perm_middle
  refine hpull.trans ?_
  by_cases hbig : ptr.size > count
  · have hone : count = 1 := only _ _ found (by simp [hs]) hbig
    have hne : ptr.size ≠ 0 := sized ptr (by simp [hs])
    have hsub : (ptr.size - count).toNat = ptr.size.toNat - 1 := by bv_omega
    rw [pageAllocM_split hs found hbig, freePages, hone, pages_pos hne]
    refine (List.Perm.cons _ ?_ : (ptr.base :: _).Perm (ptr.base :: _))
    rw [hone] at hsub
    have hmid := freePages_perm (List.perm_middle : List.Perm
      (above ++ (⟨ptr.base + vmPageSize, ptr.size - 1⟩ : MemoryBlock) :: below) _)
    simp only [List.flatMap_cons, MemoryBlock.pages, hsub] at hmid
    exact hmid.symm
  · have hsize : ptr.size = count := by bv_omega
    obtain ⟨hbase, hstack⟩ := pageAllocM_whole hs found hbig
    rw [hbase, MemoryBlock.pages, hsize]
    exact (freePages_perm hstack).symm.append_left _

theorem pageAllocM_sized {region : MemoryRegion} {count : BitVec 64}
    (sized : WellSized region) : WellSized (pageAllocM region count).2 := by
  cases hfit : firstFit count region.stack with
  | none => simpa [pageAllocM, hfit] using sized
  | some i =>
    obtain ⟨above, ptr, below, hs, rfl, hle⟩ := firstFit_some hfit
    by_cases hbig : ptr.size > count
    · intro block hb
      rw [pageAllocM_split hs hfit hbig] at hb
      simp only [List.mem_append, List.mem_cons] at hb
      rcases hb with hb | rfl | hb
      · exact sized block (by simp [hs, hb])
      · bv_omega
      · exact sized block (by simp [hs, hb])
    · intro block hb
      have hmem := (pageAllocM_whole hs hfit hbig).2.subset hb
      rcases List.mem_append.mp hmem with hb | hb
      · exact sized block (by simp [hs, hb])
      · exact sized block (by simp [hs, hb])

/-- The three ways `pageFree` changes the stack: grow the top block down, grow it up, push. -/
theorem pageFree_stack (region : MemoryRegion) {page : BitVec 64} (aligned : page &&& 0xFFF = 0) :
    (∃ top below, region.stack = top :: below ∧ top.base = page + vmPageSize ∧
      (pageFree region page).stack = { base := page, size := top.size + 1 } :: below) ∨
    (∃ top below, region.stack = top :: below ∧ top.base = page - vmPageSize ∧
      (pageFree region page).stack = { base := top.base, size := top.size + 1 } :: below) ∨
    (pageFree region page).stack = { base := page, size := 1 } :: region.stack := by
  have hal : ¬ (page &&& 0xFFF ≠ 0) := not_not.mpr aligned
  cases hs : region.stack with
  | nil => exact Or.inr (Or.inr (by simp only [pageFree, if_neg hal, hs]))
  | cons top below =>
    by_cases hbelow : top.base = page + vmPageSize
    · exact Or.inl ⟨top, below, rfl, hbelow, by simp only [pageFree, if_neg hal, hs, if_pos hbelow]⟩
    · by_cases habove : top.base = page - vmPageSize
      · refine Or.inr (Or.inl ⟨top, below, rfl, habove, ?_⟩)
        simp only [pageFree, if_neg hal, hs, if_neg hbelow, if_pos habove]
      · refine Or.inr (Or.inr ?_)
        simp only [pageFree, if_neg hal, hs, if_neg hbelow, if_neg habove]

theorem top_size_succ {region : MemoryRegion} {top : MemoryBlock} {below : List MemoryBlock}
    (hs : region.stack = top :: below) (nodup : (freePages region).Nodup) :
    (top.size + 1).toNat = top.size.toNat + 1 := by
  simp only [freePages, hs, List.flatMap_cons, List.nodup_append] at nodup
  have hlen : top.size.toNat ≤ 2 ^ 52 := pageRun_nodup_length nodup.1
  bv_omega

/-- Freeing a page that is in no block adds exactly that page. -/
theorem pageFree_perm {region : MemoryRegion} {page : BitVec 64} (sized : WellSized region)
    (aligned : page &&& 0xFFF = 0) (nodup : (freePages region).Nodup)
    (fresh : page ∉ freePages region) :
    (freePages (pageFree region page)).Perm (page :: freePages region) := by
  rcases pageFree_stack region aligned with
    ⟨top, below, hs, hbase, hnew⟩ | ⟨top, below, hs, hbase, hnew⟩ | hnew
  · have hsucc := top_size_succ hs nodup
    simp only [freePages, hnew, hs, List.flatMap_cons, MemoryBlock.pages, hsucc, pageRun, hbase]
    exact List.Perm.refl _
  · -- the page would lie inside a longer top block, so that block has a single page
    have hsucc := top_size_succ hs nodup
    have hpage : top.base + vmPageSize = page := by rw [hbase]; bv_omega
    have hsingle : top.size.toNat = 1 := by
      have hne : top.size ≠ 0 := sized top (by simp [hs])
      have hpos : top.size.toNat ≠ 0 := fun h0 => hne (BitVec.eq_of_toNat_eq (by simpa using h0))
      by_contra hmany
      refine fresh ?_
      simp only [freePages, hs, List.flatMap_cons, List.mem_append, MemoryBlock.pages]
      exact Or.inl (mem_pageRun.mpr ⟨1, by omega, by rw [← hpage]; simp⟩)
    simp only [freePages, hnew, hs, List.flatMap_cons, MemoryBlock.pages, hsucc, hsingle, pageRun,
      hpage]
    exact List.Perm.swap _ _ _
  · have hone : (1 : BitVec 64).toNat = 1 := rfl
    simp only [freePages, hnew, List.flatMap_cons, MemoryBlock.pages, hone, pageRun]
    exact List.Perm.refl _

theorem pageFree_sized {region : MemoryRegion} {page : BitVec 64} (sized : WellSized region)
    (aligned : page &&& 0xFFF = 0) (nodup : (freePages region).Nodup) :
    WellSized (pageFree region page) := by
  have grown : ∀ top below, region.stack = top :: below → ∀ base, ∀ block ∈
      ({ base := base, size := top.size + 1 } : MemoryBlock) :: below, block.size ≠ 0 := by
    intro top below hs base block hb
    rcases List.mem_cons.mp hb with rfl | hb
    · have hsucc := top_size_succ hs nodup
      intro h0
      have hz : (top.size + 1).toNat = 0 := congrArg BitVec.toNat h0
      omega
    · exact sized block (by simp [hs, hb])
  intro block hb
  rcases pageFree_stack region aligned with
    ⟨top, below, hs, _, hnew⟩ | ⟨top, below, hs, _, hnew⟩ | hnew
  · exact grown top below hs _ block (hnew ▸ hb)
  · exact grown top below hs _ block (hnew ▸ hb)
  · rw [hnew] at hb
    rcases List.mem_cons.mp hb with rfl | hb
    · exact (by decide : (1 : BitVec 64) ≠ 0)
    · exact sized block hb

/-! ## The blocks built from the memory map -/

/-- An accepted entry inside a single page, at neither of its ends, has an end below its start
once both are rounded to pages. This says that it is not so, or lies below the managed memory. -/
def RoundsInward (managedBase : BitVec 64) (entry : MemMapEntry) : Prop :=
  (entry.base.toNat + 4095) / 4096 * 4096 ≤ (entry.base.toNat + entry.length.toNat) / 4096 * 4096 ∨
    (entry.base.toNat + 4095) / 4096 * 4096 < managedBase.toNat

theorem entryRange_within {managedBase start totalBytes : BitVec 64} {reclaimExecMods : Bool}
    {entry : MemMapEntry} (managed : managedBase &&& 0xFFF = 0)
    (inward : RoundsInward managedBase entry)
    (h : entryRange managedBase reclaimExecMods entry = some (start, totalBytes)) :
    accepted reclaimExecMods entry ∧ start.toNat % 4096 = 0 ∧ totalBytes.toNat % 4096 = 0 ∧
      0 < totalBytes.toNat ∧ entry.base.toNat ≤ start.toNat ∧
      start.toNat + totalBytes.toNat ≤ entry.base.toNat + entry.length.toNat := by
  have hmanaged : managedBase.toNat % 4096 = 0 :=
    (Masks.and_low_eq_zero_iff (k := 12) rfl).mp managed
  have hstart : (entry.base &&& 0xFFFFFFFFFFFFF000).toNat = entry.base.toNat / 4096 * 4096 :=
    Masks.toNat_and_high _ _ 12 (by norm_num) rfl
  have hstop : ((entry.base + entry.length) &&& 0xFFFFFFFFFFFFF000).toNat =
      (entry.base + entry.length).toNat / 4096 * 4096 :=
    Masks.toNat_and_high _ _ 12 (by norm_num) rfl
  have hsum : (entry.base + entry.length).toNat =
      (entry.base.toNat + entry.length.toNat) % 2 ^ 64 := BitVec.toNat_add _ _
  have hfits := entry.fits
  have hpage : vmPageSize.toNat = 4096 := rfl
  unfold RoundsInward at inward
  by_cases hacc : accepted reclaimExecMods entry
  · refine ⟨hacc, ?_⟩
    simp only [entryRange, if_pos hacc] at h
    generalize entry.base &&& 0xFFFFFFFFFFFFF000 = low at h hstart
    generalize (entry.base + entry.length) &&& 0xFFFFFFFFFFFFF000 = high at h hstop
    split_ifs at h <;> simp only [Option.some.injEq, Prod.mk.injEq] at h <;>
      obtain ⟨rfl, rfl⟩ := h <;> bv_omega
  · simp [entryRange, hacc] at h

theorem toNat_page {base : BitVec 64} {i : Nat} (fits : base.toNat + i * 4096 < 2 ^ 64) :
    (base + BitVec.ofNat 64 i * vmPageSize).toNat = base.toNat + i * 4096 := by
  have hi : i % 2 ^ 64 = i := Nat.mod_eq_of_lt (by omega)
  have hmul : i * 4096 % 2 ^ 64 = i * 4096 := Nat.mod_eq_of_lt (by omega)
  have hpage : vmPageSize.toNat = 4096 := rfl
  rw [BitVec.toNat_add, BitVec.toNat_mul, BitVec.toNat_ofNat, hpage, hi, hmul,
    Nat.mod_eq_of_lt fits]

theorem toNat_of_mem_pageRun {base page : BitVec 64} {n : Nat}
    (fits : base.toNat + n * 4096 ≤ 2 ^ 64) (h : page ∈ pageRun base n) :
    ∃ i < n, page.toNat = base.toNat + i * 4096 := by
  obtain ⟨i, hi, rfl⟩ := mem_pageRun.mp h
  exact ⟨i, hi, toNat_page (by omega)⟩

theorem pageRun_nodup {base : BitVec 64} {n : Nat} (fits : base.toNat + n * 4096 ≤ 2 ^ 64) :
    (pageRun base n).Nodup := by
  induction n with
  | zero => simp [pageRun]
  | succ n ih =>
    have hfits : base.toNat + n * 4096 ≤ 2 ^ 64 :=
      (Nat.add_le_add_left (Nat.mul_le_mul_right 4096 n.le_succ) _).trans fits
    replace ih := ih hfits
    rw [pageRun_add, List.nodup_append]
    refine ⟨ih, by simp [pageRun], ?_⟩
    rintro p hp q hq rfl
    obtain ⟨i, hi, hpi⟩ := toNat_of_mem_pageRun hfits hp
    simp only [pageRun, List.mem_singleton] at hq
    have hpn : p.toNat = base.toNat + n * 4096 := by
      rw [hq]
      exact toNat_page (by omega)
    omega

/-- What initialisation stacks for an entry. -/
theorem addEntry_stack {managedBase : BitVec 64} {reclaimExecMods : Bool} (region : MemoryRegion)
    {entry : MemMapEntry} (managed : managedBase &&& 0xFFF = 0)
    (inward : accepted reclaimExecMods entry → RoundsInward managedBase entry) :
    (addEntry managedBase reclaimExecMods region entry).stack = region.stack ∨
    ∃ block, (addEntry managedBase reclaimExecMods region entry).stack = block :: region.stack ∧
      accepted reclaimExecMods entry ∧ block.size ≠ 0 ∧ block.pages.Nodup ∧
      ∀ page ∈ block.pages, page &&& 0xFFF = 0 ∧ entry.base.toNat ≤ page.toNat ∧
        page.toNat < entry.base.toNat + entry.length.toNat := by
  cases hr : entryRange managedBase reclaimExecMods entry with
  | none => exact Or.inl (by simp [addEntry, hr])
  | some range =>
    obtain ⟨start, totalBytes⟩ := range
    have hacc : accepted reclaimExecMods entry := by
      by_contra hacc
      simp [entryRange, hacc] at hr
    obtain ⟨-, hstart, htotal, hpos, hlow, hhigh⟩ := entryRange_within managed (inward hacc) hr
    have hsize : (totalBytes >>> vmPageLinearShift).toNat = totalBytes.toNat / 4096 := by
      rw [BitVec.toNat_ushiftRight, Nat.shiftRight_eq_div_pow]
      rfl
    have hfits := entry.fits
    have hrun : start.toNat + totalBytes.toNat / 4096 * 4096 ≤ 2 ^ 64 := by omega
    refine Or.inr ⟨⟨start, totalBytes >>> vmPageLinearShift⟩, by simp [addEntry, hr], hacc, ?_, ?_, ?_⟩
    · intro h0
      have hz : (totalBytes >>> vmPageLinearShift).toNat = 0 := congrArg BitVec.toNat h0
      omega
    · rw [MemoryBlock.pages, hsize]
      exact pageRun_nodup hrun
    · intro page hp
      rw [MemoryBlock.pages, hsize] at hp
      obtain ⟨i, hi, hpage⟩ := toNat_of_mem_pageRun hrun hp
      refine ⟨(Masks.and_low_eq_zero_iff (k := 12) rfl).mpr ?_, ?_, ?_⟩
      · rw [hpage]; omega
      · omega
      · omega

end PageAlloc
