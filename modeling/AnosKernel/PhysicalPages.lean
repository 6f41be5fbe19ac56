import AnosKernel.MapSyscalls
import AnosKernel.MemoryMap

/-!
# Contiguous physical pages for user space

`handle_alloc_physical_pages` of `kernel/syscalls.c` on the states that the page allocator can be
in. The allocator reports a failure by the address `0xFF`, which is no page; the handler takes the
address 0 for one.
-/

namespace PhysicalPages

open PageAlloc MapSyscalls

def handleAllocPhysicalPages (physicalRegion : MemoryRegion) (arg0 : BitVec 64) :
    SyscallResult × MemoryRegion :=
  if arg0 &&& 0xFFF ≠ 0 then (resultBadargs, physicalRegion)
  else
    let numPages := arg0 / vmPageSize
    if numPages = 0 then (resultBadargs, physicalRegion)
    else
      let (physAddr, region) := pageAllocM physicalRegion numPages
      if physAddr = 0 then (resultFailure, region)
      else ({ type := .ok, value := physAddr }, region)

/-- The states of the page allocator. -/
inductive Pmm : MemoryRegion → Prop
  | init (memmap : List MemMapEntry) (managedBase : BitVec 64) (reclaimExecMods : Bool) :
      managedBase &&& 0xFFF = 0 → Pmm (pageAllocInitLimine memmap managedBase reclaimExecMods)
  | alloc {region : MemoryRegion} : Pmm region → Pmm (pageAlloc region).2
  | allocM {region : MemoryRegion} (count : BitVec 64) :
      Pmm region → Pmm (pageAllocM region count).2
  | free {region : MemoryRegion} (page : BitVec 64) : Pmm region → Pmm (pageFree region page)

/-- The block is the first from the top that has so many pages. -/
def Found (region : MemoryRegion) (count : BitVec 64) (block : MemoryBlock) : Prop :=
  ∃ above below, region.stack = above ++ block :: below ∧ count ≤ block.size ∧
    ∀ other ∈ above, other.size < count

/-- OK is for whole pages, at least one, that were found; its value is where they begin. -/
structure Answers (region : MemoryRegion) (arg0 : BitVec 64) (result : SyscallResult) : Prop where
  ok_iff : result.type = .ok ↔
    0 < arg0.toNat ∧ arg0.toNat % 4096 = 0 ∧ ∃ block, Found region (arg0 / vmPageSize) block
  value : result.type = .ok →
    ∃ block, Found region (arg0 / vmPageSize) block ∧ result.value = block.base ∧
      result.value.toNat % 4096 = 0

/-! ## The blocks start at pages -/

def Aligned (region : MemoryRegion) : Prop := ∀ block ∈ region.stack, block.base.toNat % 4096 = 0

section Aligned

variable {region : MemoryRegion}

theorem aligned_next {base : BitVec 64} (h : base.toNat % 4096 = 0) :
    (base + vmPageSize).toNat % 4096 = 0 := by
  have hpage : vmPageSize.toNat = 4096 := rfl
  rw [BitVec.toNat_add, hpage]
  omega

theorem Aligned.addEntry {managedBase : BitVec 64} {reclaimExecMods : Bool}
    (managed : managedBase.toNat % 4096 = 0) (h : Aligned region) (entry : MemMapEntry) :
    Aligned (addEntry managedBase reclaimExecMods region entry) := by
  cases hr : entryRange managedBase reclaimExecMods entry with
  | none =>
    rw [PageAlloc.addEntry, hr]
    exact h
  | some range =>
    obtain ⟨start, totalBytes⟩ := range
    simp only [PageAlloc.addEntry, hr, Aligned, List.mem_cons]
    rintro block (rfl | hblock)
    · exact (MemoryMap.entryRange_pages managed hr).1
    · exact h block hblock

theorem aligned_init {managedBase : BitVec 64} (managed : managedBase.toNat % 4096 = 0)
    (memmap : List MemMapEntry) (reclaimExecMods : Bool) :
    Aligned (pageAllocInitLimine memmap managedBase reclaimExecMods) := by
  have hrun : ∀ region, Aligned region →
      Aligned (memmap.foldl (PageAlloc.addEntry managedBase reclaimExecMods) region) := by
    induction memmap with
    | nil => exact fun region h => h
    | cons entry memmap ih => exact fun region h => ih _ (h.addEntry managed entry)
  apply hrun
  simp [Aligned]

theorem Aligned.alloc (h : Aligned region) : Aligned (pageAlloc region).2 := by
  cases hs : region.stack with
  | nil =>
    simp only [pageAlloc, hs]
    exact h
  | cons top below =>
    have htop : top.base.toNat % 4096 = 0 := h top (by rw [hs]; exact List.mem_cons_self)
    have hbelow : ∀ block ∈ below, block.base.toNat % 4096 = 0 :=
      fun block hblock => h block (by rw [hs]; exact List.mem_cons_of_mem _ hblock)
    simp only [pageAlloc, hs]
    split_ifs
    · intro block hblock
      rcases List.mem_cons.mp hblock with rfl | hblock
      · exact aligned_next htop
      · exact hbelow block hblock
    · exact hbelow

theorem Aligned.allocM (h : Aligned region) (count : BitVec 64) :
    Aligned (pageAllocM region count).2 := by
  cases hfit : firstFit count region.stack with
  | none =>
    rw [pageAllocM_none hfit]
    exact h
  | some i =>
    obtain ⟨above, ptr, below, hs, rfl, -⟩ := firstFit_some hfit
    have hold : ∀ block ∈ above ++ ptr :: below, block.base.toNat % 4096 = 0 := hs ▸ h
    by_cases hbig : ptr.size > count
    · rw [pageAllocM_split hs hfit hbig]
      intro block hblock
      rcases List.mem_append.mp hblock with habove | hblock
      · exact hold block (List.mem_append_left _ habove)
      · rcases List.mem_cons.mp hblock with rfl | hblock
        · exact aligned_next (hold ptr (by simp))
        · exact hold block (by simp [hblock])
    · intro block hblock
      have hmem := (pageAllocM_whole hs hfit hbig).2.subset hblock
      rcases List.mem_append.mp hmem with habove | hbelow
      · exact hold block (List.mem_append_left _ habove)
      · exact hold block (by simp [hbelow])

theorem Aligned.free (h : Aligned region) (page : BitVec 64) : Aligned (pageFree region page) := by
  by_cases haligned : page &&& 0xFFF ≠ 0
  · rw [pageFree, if_pos haligned]
    exact h
  · have hpage : page.toNat % 4096 = 0 :=
      (Masks.and_low_eq_zero_iff (k := 12) rfl).mp (not_not.mp haligned)
    rw [pageFree, if_neg haligned]
    cases hs : region.stack with
    | nil =>
      simp only [Aligned, List.mem_singleton]
      rintro block rfl
      exact hpage
    | cons top below =>
      have htop : top.base.toNat % 4096 = 0 := h top (by rw [hs]; exact List.mem_cons_self)
      have hbelow : ∀ block ∈ below, block.base.toNat % 4096 = 0 :=
        fun block hblock => h block (by rw [hs]; exact List.mem_cons_of_mem _ hblock)
      dsimp only
      split_ifs
      all_goals
        intro block hblock
        rcases List.mem_cons.mp hblock with rfl | hblock
      · exact hpage
      · exact hbelow block hblock
      · exact htop
      · exact hbelow block hblock
      · exact hpage
      · rcases List.mem_cons.mp hblock with rfl | hblock
        · exact htop
        · exact hbelow block hblock

theorem Pmm.aligned (h : Pmm region) : Aligned region := by
  induction h with
  | init memmap managedBase reclaimExecMods managed =>
    exact aligned_init ((Masks.and_low_eq_zero_iff (k := 12) rfl).mp managed) memmap reclaimExecMods
  | alloc _ ih => exact ih.alloc
  | allocM count _ ih => exact ih.allocM count
  | free page _ ih => exact ih.free page

end Aligned

/-! ## What the allocator finds -/

section Found

variable {region : MemoryRegion} {count arg0 : BitVec 64} {block : MemoryBlock}

theorem firstFit_append {above below : List MemoryBlock} (fits : count ≤ block.size)
    (smaller : ∀ other ∈ above, other.size < count) :
    firstFit count (above ++ block :: below) = some above.length := by
  induction above with
  | nil =>
    have hfit : block.size > count ∨ block.size = count := by bv_omega
    rw [List.nil_append, firstFit, if_pos hfit]
    rfl
  | cons top above ih =>
    have htop := smaller top List.mem_cons_self
    have hfit : ¬ (top.size > count ∨ top.size = count) := by bv_omega
    rw [List.cons_append, firstFit, if_neg hfit,
      ih fun other hother => smaller other (List.mem_cons_of_mem _ hother)]
    rfl

/-- Where there is a block with enough pages, there is a first one. -/
theorem exists_found (h : ∃ block ∈ region.stack, count ≤ block.size) :
    ∃ block, Found region count block := by
  obtain ⟨block, hblock, hfits⟩ := h
  have hrun : ∀ stack : List MemoryBlock, block ∈ stack → ∃ above first below,
      stack = above ++ first :: below ∧ count ≤ first.size ∧
        ∀ other ∈ above, other.size < count := by
    intro stack
    induction stack with
    | nil => simp
    | cons top below ih =>
      intro hmem
      by_cases htop : count ≤ top.size
      · exact ⟨[], top, below, rfl, htop, by simp⟩
      · rcases List.mem_cons.mp hmem with rfl | hmem
        · exact absurd hfits htop
        · obtain ⟨above, first, rest, rfl, hfirst, hsmaller⟩ := ih hmem
          refine ⟨top :: above, first, rest, rfl, hfirst, ?_⟩
          intro other hother
          rcases List.mem_cons.mp hother with rfl | hother
          · exact BitVec.not_le.mp htop
          · exact hsmaller other hother
  obtain ⟨above, first, below, hs, hfirst, hsmaller⟩ := hrun region.stack hblock
  exact ⟨first, above, below, hs, hfirst, hsmaller⟩

theorem pageAllocM_found (found : Found region count block) :
    (pageAllocM region count).1 = block.base := by
  obtain ⟨above, below, hs, hfits, hsmaller⟩ := found
  have hfit : firstFit count region.stack = some above.length := by
    rw [hs]
    exact firstFit_append hfits hsmaller
  by_cases hbig : block.size > count
  · rw [pageAllocM_split hs hfit hbig]
  · exact (pageAllocM_whole hs hfit hbig).1

theorem pageAllocM_missing (missing : ¬ ∃ block, Found region count block) :
    pageAllocM region count = (0xFF, region) := by
  apply pageAllocM_none
  cases hfit : firstFit count region.stack with
  | none => rfl
  | some i =>
    obtain ⟨above, ptr, below, hs, -, hle⟩ := firstFit_some hfit
    exact absurd (exists_found ⟨ptr, by simp [hs], hle⟩) missing

theorem handle_rejects (invalid : ¬ (0 < arg0.toNat ∧ arg0.toNat % 4096 = 0)) :
    (handleAllocPhysicalPages region arg0).1 = resultBadargs := by
  rw [handleAllocPhysicalPages]
  by_cases haligned : arg0 &&& 0xFFF ≠ 0
  · rw [if_pos haligned]
  · have hmod : arg0.toNat % 4096 = 0 :=
      (Masks.and_low_eq_zero_iff (k := 12) rfl).mp (not_not.mp haligned)
    have hzero : arg0 / vmPageSize = 0 := by
      apply BitVec.eq_of_toNat_eq
      have hnone : arg0.toNat = 0 := by omega
      rw [BitVec.toNat_udiv, hnone, Nat.zero_div]
      rfl
    rw [if_neg haligned]
    dsimp only
    rw [if_pos hzero]

theorem handle_accepts (pos : 0 < arg0.toNat) (whole : arg0.toNat % 4096 = 0) :
    (handleAllocPhysicalPages region arg0).1 =
      if (pageAllocM region (arg0 / vmPageSize)).1 = 0 then resultFailure
      else { type := .ok, value := (pageAllocM region (arg0 / vmPageSize)).1 } := by
  have haligned : ¬ arg0 &&& 0xFFF ≠ 0 :=
    not_not.mpr ((Masks.and_low_eq_zero_iff (k := 12) rfl).mpr whole)
  have hsome : arg0 / vmPageSize ≠ 0 := by
    intro hzero
    have hnat := congrArg BitVec.toNat hzero
    have hpage : vmPageSize.toNat = 4096 := rfl
    have hnone : (0 : BitVec 64).toNat = 0 := rfl
    rw [BitVec.toNat_udiv, hpage, hnone] at hnat
    omega
  rw [handleAllocPhysicalPages, if_neg haligned]
  dsimp only
  rw [if_neg hsome]
  split_ifs
  · rfl
  · rfl

/-- Without enough pages in one block the failure code is handed out as an address. -/
theorem not_answers_of_missing (pos : 0 < arg0.toNat) (whole : arg0.toNat % 4096 = 0)
    (missing : ¬ ∃ block, Found region (arg0 / vmPageSize) block) :
    ¬ Answers region arg0 (handleAllocPhysicalPages region arg0).1 := by
  intro hanswers
  have hok := hanswers.ok_iff.mp
  rw [handle_accepts pos whole, pageAllocM_missing missing] at hok
  exact missing (hok rfl).2.2

/-- The handler answers as it should for exactly the sizes that it rejects, and for pages that do
not begin at the address 0. -/
theorem handleAllocPhysicalPages_answers_iff (pmm : Pmm region) (arg0 : BitVec 64) :
    Answers region arg0 (handleAllocPhysicalPages region arg0).1 ↔
      ¬ (0 < arg0.toNat ∧ arg0.toNat % 4096 = 0) ∨
        ∃ block, Found region (arg0 / vmPageSize) block ∧ block.base ≠ 0 := by
  by_cases hvalid : 0 < arg0.toNat ∧ arg0.toNat % 4096 = 0
  · obtain ⟨hpos, hwhole⟩ := hvalid
    constructor
    · intro hanswers
      right
      by_contra hnone
      by_cases hfound : ∃ block, Found region (arg0 / vmPageSize) block
      · -- the pages begin at 0, which is taken for a failure
        obtain ⟨block, hblock⟩ := hfound
        have hzero : block.base = 0 := by
          by_contra hbase
          exact hnone ⟨block, hblock, hbase⟩
        have hok := hanswers.ok_iff.mpr ⟨hpos, hwhole, block, hblock⟩
        rw [handle_accepts hpos hwhole, pageAllocM_found hblock, if_pos hzero] at hok
        exact absurd hok (by decide)
      · exact not_answers_of_missing hpos hwhole hfound hanswers
    · rintro (hinvalid | ⟨block, hblock, hbase⟩)
      · exact absurd ⟨hpos, hwhole⟩ hinvalid
      · rw [handle_accepts hpos hwhole, pageAllocM_found hblock, if_neg hbase]
        refine ⟨?_, ?_⟩
        · simp only [true_iff]
          exact ⟨hpos, hwhole, block, hblock⟩
        · intro _
          obtain ⟨above, below, hs, -⟩ := id hblock
          exact ⟨block, hblock, rfl, pmm.aligned block (by simp [hs])⟩
  · refine iff_of_true ?_ (Or.inl hvalid)
    rw [handle_rejects hvalid]
    refine ⟨?_, ?_⟩
    · constructor
      · intro hok
        exact absurd hok (by decide)
      · rintro ⟨hpos, hwhole, -⟩
        exact absurd ⟨hpos, hwhole⟩ hvalid
    · intro hok
      exact absurd hok (by decide)

end Found

def fourPages : MemoryRegion :=
  pageAllocInitLimine [⟨0x10000, 0x4000, .usable, by decide⟩] 0 false

theorem fourPages_pmm : Pmm fourPages := .init _ 0 false (by decide)

theorem handleAllocPhysicalPages_answers_iff_four :
    Pmm fourPages ∧ Answers fourPages 0x2000 (handleAllocPhysicalPages fourPages 0x2000).1 := by
  refine ⟨fourPages_pmm, (handleAllocPhysicalPages_answers_iff fourPages_pmm 0x2000).mpr ?_⟩
  exact Or.inr ⟨⟨0x10000, 4⟩, ⟨[], [], rfl, by decide, by simp⟩, by decide⟩

/-- With no page left, a page is asked for and the address `0xFF` comes back with OK. -/
theorem failure_code_is_answered :
    Pmm (pageAllocInitLimine [] 0 false) ∧
      (handleAllocPhysicalPages (pageAllocInitLimine [] 0 false) 0x1000).1 =
        { type := .ok, value := 0xFF } ∧
      ¬ Answers (pageAllocInitLimine [] 0 false) 0x1000
        (handleAllocPhysicalPages (pageAllocInitLimine [] 0 false) 0x1000).1 := by
  refine ⟨.init [] 0 false (by decide), by decide, ?_⟩
  apply not_answers_of_missing (by decide) (by decide)
  rintro ⟨block, above, below, hs, -⟩
  exact absurd hs (by simp [pageAllocInitLimine])

end PhysicalPages
