import AnosKernel.PageOwnership
import AnosKernel.PhysicalPages

/-!
# The counters of the page allocator

What `region->free` of `kernel/pmm/pagealloc.c` says in the runs of the page allocator: it is
adjusted in every branch beside the blocks. The world records the pages that were handed out and
not freed since, each as often as it was handed out, since the rest of a split block is handed out
again.
-/

namespace PageCounters

open MemoryMap PageAlloc PageOwnership Runs

structure World where
  region : MemoryRegion
  live : List (BitVec 64)

/-- Callers ask for at least one page, and free what was handed out to them once. -/
def Valid (w : World) : Op → Prop
  | .alloc => True
  | .allocM count => 1 ≤ count
  | .free page => page ∈ w.live

def handed (region : MemoryRegion) : Op → List (BitVec 64)
  | .alloc => if (pageAlloc region).1 = 0xFF then [] else [(pageAlloc region).1]
  | .allocM count =>
    if (pageAllocM region count).1 = 0xFF then []
    else pageRun (pageAllocM region count).1 count.toNat
  | .free _ => []

def exec (w : World) (op : Op) : World :=
  match op with
  | .alloc => { region := (pageAlloc w.region).2, live := handed w.region op ++ w.live }
  | .allocM count => { region := (pageAllocM w.region count).2, live := handed w.region op ++ w.live }
  | .free page => { region := pageFree w.region page, live := w.live.erase page }

def boot (memmap : List MemMapEntry) (managedBase : BitVec 64) (reclaimExecMods : Bool) : World where
  region := pageAllocInitLimine memmap managedBase reclaimExecMods
  live := []

def system (start : World) : System World Op := System.ofExec (· = start) Valid exec

/-- The sizes of the blocks on the stack. -/
def totalSize (stack : List MemoryBlock) : Nat := (stack.map fun block => block.size.toNat).sum

structure Proper (region : MemoryRegion) : Prop where
  free : region.free.toNat = 4096 * totalSize region.stack
  blocks : ∀ block ∈ region.stack, 1 ≤ block.size.toNat ∧ block.base.toNat % 4096 = 0
  bounded : region.free.toNat ≤ region.size.toNat

/-- The bytes that `page_alloc_init_limine` takes from an entry. -/
def bytesTaken (managedBase : BitVec 64) (reclaimExecMods : Bool) (entry : MemMapEntry) : Nat :=
  match entryRange managedBase reclaimExecMods entry with
  | none => 0
  | some (_, totalBytes) => totalBytes.toNat

/-- All that is taken can be counted with 64 bits. -/
def Countable (memmap : List MemMapEntry) (managedBase : BitVec 64) (reclaimExecMods : Bool) :
    Prop :=
  (memmap.map (bytesTaken managedBase reclaimExecMods)).sum < 2 ^ 64

/-! ## One call -/

section Calls

variable {region : MemoryRegion} {stack above below : List MemoryBlock} {block : MemoryBlock}
  {count page : BitVec 64} {total : Nat}

theorem totalSize_cons : totalSize (block :: stack) = block.size.toNat + totalSize stack := by
  rw [totalSize, List.map_cons, List.sum_cons]
  rfl

theorem totalSize_append : totalSize (above ++ below) = totalSize above + totalSize below := by
  rw [totalSize, List.map_append, List.sum_append]
  rfl

theorem totalSize_perm (h : above.Perm below) : totalSize above = totalSize below :=
  (h.map _).sum_eq

theorem length_freePages (region : MemoryRegion) :
    (freePages region).length = totalSize region.stack := by
  rw [freePages, List.length_flatMap, totalSize]
  congr 1
  apply List.map_congr_left
  intro block _
  exact length_pageRun block.base block.size.toNat

/-- What the counters say, and that the pages do not become more than they were. -/
structure Counted (total : Nat) (region : MemoryRegion) (live : List (BitVec 64)) : Prop where
  free : region.free.toNat = 4096 * totalSize region.stack
  size : region.size.toNat = 4096 * total
  bound : totalSize region.stack + live.length ≤ total
  sized : WellSized region
  aligned : PhysicalPages.Aligned region

theorem Counted.small {live : List (BitVec 64)} (h : Counted total region live) :
    total < 2 ^ 52 := by
  have hsize := h.size
  have hlt := region.size.isLt
  omega

theorem Counted.proper {live : List (BitVec 64)} (h : Counted total region live) :
    Proper region := by
  have hfree := h.free
  have hsize := h.size
  have hbound := h.bound
  refine ⟨hfree, fun block hblock => ⟨?_, h.aligned block hblock⟩, by omega⟩
  have hne : block.size.toNat ≠ 0 := fun h0 => h.sized block hblock (BitVec.eq_of_toNat_eq h0)
  omega

/-- The counter after so many pages were taken. -/
theorem toNat_taken {free : BitVec 64} {pages left : Nat} {bytes : BitVec 64}
    (hfree : free.toNat = 4096 * (pages + left)) (hbytes : bytes.toNat = 4096 * pages) :
    (free - bytes).toNat = 4096 * left := by
  have hlt := free.isLt
  rw [BitVec.toNat_sub_of_le (by rw [BitVec.le_def]; omega)]
  omega

theorem Counted.alloc {live : List (BitVec 64)} (h : Counted total region live) :
    Counted total (pageAlloc region).2 (handed region .alloc ++ live) := by
  cases hs : region.stack with
  | nil =>
    have hcall := pageAlloc_empty hs
    rw [handed, hcall, if_pos rfl]
    exact h
  | cons top below =>
    have hfree := h.free
    have hbound := h.bound
    have hpage : vmPageSize.toNat = 4096 * 1 := rfl
    have hpos : top.size.toNat ≠ 0 := fun h0 =>
      h.sized top (by rw [hs]; exact List.mem_cons_self) (BitVec.eq_of_toNat_eq h0)
    have hlength : (handed region .alloc ++ live).length ≤ 1 + live.length := by
      rw [handed, List.length_append]
      split_ifs <;> simp
    rw [hs, totalSize_cons] at hfree hbound
    have hsized := pageAlloc_sized h.sized
    have haligned := h.aligned.alloc
    by_cases hbig : top.size > 1
    · have hsub : (top.size - 1).toNat = top.size.toNat - 1 := by bv_omega
      simp only [pageAlloc, hs, if_pos hbig] at hsized haligned ⊢
      refine ⟨?_, h.size, ?_, hsized, haligned⟩
      · rw [totalSize_cons, hsub]
        exact toNat_taken (by omega) hpage
      · rw [totalSize_cons, hsub]
        omega
    · have hone : top.size.toNat = 1 := by bv_omega
      simp only [pageAlloc, hs, if_neg hbig] at hsized haligned ⊢
      refine ⟨?_, h.size, ?_, hsized, haligned⟩
      · show (region.free - vmPageSize).toNat = 4096 * totalSize below
        exact toNat_taken (by omega) hpage
      · show totalSize below + (handed region .alloc ++ live).length ≤ total
        omega

/-- `count << VM_PAGE_LINEAR_SHIFT`. -/
theorem toNat_bytes (small : count.toNat < 2 ^ 52) :
    (count <<< vmPageLinearShift).toNat = 4096 * count.toNat := by
  have hshift : vmPageLinearShift = 12 := rfl
  rw [BitVec.toNat_shiftLeft, hshift, Nat.shiftLeft_eq, Nat.mod_eq_of_lt (by omega)]
  omega

theorem pageAllocM_free (found : firstFit count region.stack = some above.length)
    (hs : region.stack = above ++ block :: below) :
    (pageAllocM region count).2.free = region.free - (count <<< vmPageLinearShift) ∧
      (pageAllocM region count).2.size = region.size := by
  have hget : region.stack[above.length]? = some block := by simp [hs]
  by_cases hbig : block.size > count
  · simp only [pageAllocM, found, hget, if_pos hbig, true_and]
  · simp only [pageAllocM, found, hget, if_neg hbig, true_and]

/-- The pages of the blocks become as many fewer as were asked for, whichever branch it is. -/
theorem totalSize_pageAllocM (found : firstFit count region.stack = some above.length)
    (hs : region.stack = above ++ block :: below) (fits : count ≤ block.size) :
    count.toNat + totalSize (pageAllocM region count).2.stack = totalSize region.stack := by
  have hfits : count.toNat ≤ block.size.toNat := fits
  have hall : totalSize region.stack = totalSize above + (block.size.toNat + totalSize below) := by
    rw [hs, totalSize_append, totalSize_cons]
  by_cases hbig : block.size > count
  · have hsub : (block.size - count).toNat = block.size.toNat - count.toNat :=
      BitVec.toNat_sub_of_le fits
    rw [pageAllocM_split hs found hbig, totalSize_append, totalSize_cons, hsub, hall]
    omega
  · have hexact : block.size.toNat = count.toNat := by
      rw [gt_iff_lt, BitVec.lt_def] at hbig
      omega
    rw [totalSize_perm (pageAllocM_whole hs found hbig).2, totalSize_append, hall]
    omega

theorem Counted.allocM {live : List (BitVec 64)} (h : Counted total region live)
    (count : BitVec 64) :
    Counted total (pageAllocM region count).2 (handed region (.allocM count) ++ live) := by
  have hsized : WellSized (pageAllocM region count).2 := pageAllocM_sized h.sized
  have haligned := h.aligned.allocM count
  cases hfit : firstFit count region.stack with
  | none =>
    have hcall := pageAllocM_none hfit
    rw [handed, hcall, if_pos rfl]
    exact h
  | some i =>
    obtain ⟨above, block, below, hs, rfl, hle⟩ := firstFit_some hfit
    obtain ⟨hfree, hsize⟩ := pageAllocM_free hfit hs
    have hpages := totalSize_pageAllocM hfit hs hle
    have hbound := h.bound
    have hsmall := h.small
    have hold := h.free
    have hlength : (handed region (.allocM count) ++ live).length ≤ count.toNat + live.length := by
      rw [handed, List.length_append]
      split_ifs
      · exact Nat.add_le_add_right (Nat.zero_le _) _
      · rw [length_pageRun]
    refine ⟨?_, ?_, by omega, hsized, haligned⟩
    · rw [hfree]
      exact toNat_taken (hold.trans (by rw [hpages])) (toNat_bytes (by omega))
    · rw [hsize]
      exact h.size

theorem pageFree_counters (aligned : page &&& 0xFFF = 0) :
    (pageFree region page).free = region.free + vmPageSize ∧
      (pageFree region page).size = region.size := by
  rw [pageFree, if_neg (not_not.mpr aligned)]
  cases region.stack with
  | nil => exact ⟨rfl, rfl⟩
  | cons top below =>
    dsimp only
    split_ifs
    · exact ⟨rfl, rfl⟩
    · exact ⟨rfl, rfl⟩
    · exact ⟨rfl, rfl⟩

/-- One block has a page more, or is new; the others were there. -/
theorem pageFree_blocks (aligned : page &&& 0xFFF = 0) (small : totalSize region.stack < 2 ^ 52) :
    ∃ block rest, (pageFree region page).stack = block :: rest ∧ block.size ≠ 0 ∧
      (∀ other ∈ rest, other ∈ region.stack) ∧
      block.size.toNat + totalSize rest = totalSize region.stack + 1 := by
  have hgrown : ∀ (base : BitVec 64) top below, region.stack = top :: below →
      (pageFree region page).stack = { base := base, size := top.size + 1 } :: below →
      ∃ block rest, (pageFree region page).stack = block :: rest ∧ block.size ≠ 0 ∧
        (∀ other ∈ rest, other ∈ region.stack) ∧
        block.size.toNat + totalSize rest = totalSize region.stack + 1 := by
    intro base top below hs hnew
    have hone : (top.size + 1).toNat = top.size.toNat + 1 := by
      rw [hs, totalSize_cons] at small
      bv_omega
    refine ⟨_, below, hnew, fun hzero => ?_, ?_, ?_⟩
    · have hempty : (top.size + 1).toNat = 0 := congrArg BitVec.toNat hzero
      omega
    · rw [hs]
      exact fun other hother => List.mem_cons_of_mem top hother
    · rw [hs, totalSize_cons, hone]
      omega
  rcases pageFree_stack region aligned with
    ⟨top, below, hs, -, hnew⟩ | ⟨top, below, hs, -, hnew⟩ | hnew
  · exact hgrown _ top below hs hnew
  · exact hgrown _ top below hs hnew
  · refine ⟨_, region.stack, hnew, (by decide : (1 : BitVec 64) ≠ 0), fun _ hother => hother, ?_⟩
    exact Nat.add_comm _ _

theorem Counted.free_page {live : List (BitVec 64)} (h : Counted total region live)
    (owned : page ∈ live) : Counted total (pageFree region page) (live.erase page) := by
  have hbound := h.bound
  have hlength : (live.erase page).length + 1 = live.length := by
    have hpos := List.length_pos_of_mem owned
    rw [List.length_erase_of_mem owned]
    omega
  by_cases haligned : page &&& 0xFFF = 0
  · obtain ⟨hfree, hsize⟩ := @pageFree_counters region page haligned
    have hsmall := h.small
    obtain ⟨block, rest, hnew, hblock, hrest, hpages⟩ :=
      @pageFree_blocks region page haligned (by omega)
    rw [← totalSize_cons, ← hnew] at hpages
    refine ⟨?_, ?_, by omega, ?_, h.aligned.free page⟩
    · have hold := h.free
      have hpage : vmPageSize.toNat = 4096 := rfl
      rw [hfree, hpages, BitVec.toNat_add_of_lt (by omega)]
      omega
    · rw [hsize]
      exact h.size
    · intro other hother
      rw [hnew] at hother
      rcases List.mem_cons.mp hother with rfl | hother
      · exact hblock
      · exact h.sized other (hrest other hother)
  · have hsame : pageFree region page = region := by rw [pageFree, if_pos haligned]
    rw [hsame]
    exact ⟨h.free, h.size, by omega, h.sized, h.aligned⟩

end Calls

/-! ## Whole runs -/

section Runs

variable {memmap : List MemMapEntry} {managedBase : BitVec 64} {reclaimExecMods : Bool} {w : World}

theorem bytesTaken_init (managed : managedBase.toNat % 4096 = 0) (memmap : List MemMapEntry)
    (reclaimExecMods : Bool) :
    4096 * totalSize (pageAllocInitLimine memmap managedBase reclaimExecMods).stack =
      (memmap.map (bytesTaken managedBase reclaimExecMods)).sum := by
  have hrun : ∀ region, 4096 * totalSize
      (memmap.foldl (addEntry managedBase reclaimExecMods) region).stack =
        (memmap.map (bytesTaken managedBase reclaimExecMods)).sum +
          4096 * totalSize region.stack := by
    induction memmap with
    | nil =>
      intro region
      rw [List.foldl_nil, List.map_nil, List.sum_nil, Nat.zero_add]
    | cons entry memmap ih =>
      intro region
      rw [List.foldl_cons, ih, List.map_cons, List.sum_cons]
      cases hr : entryRange managedBase reclaimExecMods entry with
      | none => simp only [addEntry, bytesTaken, hr, Nat.zero_add]
      | some range =>
        obtain ⟨start, totalBytes⟩ := range
        obtain ⟨-, hwhole, -⟩ := entryRange_pages managed hr
        simp only [addEntry, bytesTaken, hr, totalSize_cons, toNat_shift]
        omega
  rw [pageAllocInitLimine, hrun]
  rfl

theorem counted_boot (managed : managedBase.toNat % 4096 = 0)
    (countable : Countable memmap managedBase reclaimExecMods) :
    Counted (totalSize (pageAllocInitLimine memmap managedBase reclaimExecMods).stack)
      (pageAllocInitLimine memmap managedBase reclaimExecMods) [] := by
  have hbalanced := balanced_init managed memmap reclaimExecMods
  have hbytes := bytesTaken_init managed memmap reclaimExecMods
  have hsize : (pageAllocInitLimine memmap managedBase reclaimExecMods).size.toNat =
      4096 * totalSize (pageAllocInitLimine memmap managedBase reclaimExecMods).stack := by
    rw [hbalanced.size, length_freePages, BitVec.toNat_ofNat]
    apply Nat.mod_eq_of_lt
    rw [hbytes]
    exact countable
  refine ⟨?_, hsize, Nat.le_refl _, hbalanced.nonempty,
    PhysicalPages.aligned_init managed memmap reclaimExecMods⟩
  rw [hbalanced.free]
  exact hsize

theorem reachable_counted (managed : managedBase.toNat % 4096 = 0)
    (countable : Countable memmap managedBase reclaimExecMods)
    (run : Reachable (system (boot memmap managedBase reclaimExecMods)) w) :
    Counted (totalSize (pageAllocInitLimine memmap managedBase reclaimExecMods).stack)
      w.region w.live := by
  refine run.invariant (fun w => Counted _ w.region w.live) ?_ ?_
  · rintro w rfl
    exact counted_boot managed countable
  · rintro w op w' h ⟨hvalid, rfl⟩
    cases op with
    | alloc => exact h.alloc
    | allocM count => exact h.allocM count
    | free page => exact h.free_page hvalid

/-- What a map of separate entries with page boundaries gives can be counted. -/
theorem countable_of_fine (managed : managedBase.toNat % 4096 = 0)
    (small : ∀ entry ∈ memmap, entry.base.toNat + entry.length.toNat < 2 ^ 64)
    (fine : ∀ entry ∈ memmap, accepted reclaimExecMods entry → ¬ Inverted managedBase entry)
    (separate : ∀ page, holders memmap managedBase reclaimExecMods page ≤ 1) :
    Countable memmap managedBase reclaimExecMods := by
  have hcovers := covers_of_fine managed small fine
  have hbytes := bytesTaken_init managed memmap reclaimExecMods
  rw [← length_freePages] at hbytes
  rw [Countable, ← hbytes]
  generalize hpages : freePages (pageAllocInitLimine memmap managedBase reclaimExecMods) = pages
  have hcount : ∀ page, pages.count page = holders memmap managedBase reclaimExecMods page := by
    rw [← hpages]
    exact hcovers.pages
  have hnodup : pages.Nodup := by
    rw [List.nodup_iff_count_le_one]
    intro page
    rw [hcount page]
    exact separate page
  -- a page lies in an entry, and an entry ends before the last page does
  have hinside : ∀ page ∈ pages, page.toNat % 4096 = 0 ∧ page.toNat / 4096 < 2 ^ 52 - 1 := by
    intro page hpage
    have hpos := List.count_pos_iff.mpr hpage
    rw [hcount page] at hpos
    obtain ⟨entry, hentry, hheld⟩ := List.countP_pos_iff.mp hpos
    rw [Bool.and_eq_true, decide_eq_true_eq] at hheld
    obtain ⟨haligned, -, hupper, -⟩ := hheld.2
    have hlt := small entry hentry
    exact ⟨haligned, by omega⟩
  have hnumbers : (pages.map fun page => page.toNat / 4096).Nodup := by
    apply hnodup.map_on
    intro page hpage other hother hsame
    have haligned := (hinside page hpage).1
    have haligned' := (hinside other hother).1
    apply BitVec.eq_of_toNat_eq
    omega
  have hbelow : (pages.map fun page => page.toNat / 4096) ⊆ List.range (2 ^ 52 - 1) := by
    intro n hn
    obtain ⟨page, hpage, rfl⟩ := List.mem_map.mp hn
    exact List.mem_range.mpr (hinside page hpage).2
  have hlength := (List.subperm_of_subset hnumbers hbelow).length_le
  rw [List.length_map, List.length_range] at hlength
  omega

end Runs

/-- From the region of any memory map the counters stay right in every run, exactly if the bytes
taken from the map can be counted. -/
theorem counters_stay_right_iff {managedBase : BitVec 64} (managed : managedBase &&& 0xFFF = 0)
    (memmap : List MemMapEntry) (reclaimExecMods : Bool) :
    (∀ w, Reachable (system (boot memmap managedBase reclaimExecMods)) w → Proper w.region) ↔
      Countable memmap managedBase reclaimExecMods := by
  have hmanaged : managedBase.toNat % 4096 = 0 :=
    (Masks.and_low_eq_zero_iff (k := 12) rfl).mp managed
  constructor
  · intro hproper
    have hfirst : (pageAllocInitLimine memmap managedBase reclaimExecMods).free.toNat =
        4096 * totalSize (pageAllocInitLimine memmap managedBase reclaimExecMods).stack :=
      (hproper _ (.start rfl)).free
    have hlt := (pageAllocInitLimine memmap managedBase reclaimExecMods).free.isLt
    have hbytes := bytesTaken_init hmanaged memmap reclaimExecMods
    rw [Countable, ← hbytes, ← hfirst]
    exact hlt
  · intro hcountable w hrun
    exact (reachable_counted hmanaged hcountable hrun).proper

theorem counters_stay_right_iff_unaligned :
    (∀ w, Reachable (system (boot [unaligned] 0x1000 true)) w → Proper w.region) ↔
      Countable [unaligned] 0x1000 true :=
  counters_stay_right_iff (by decide) [unaligned] true

theorem threePages_fits : (0x8000 : BitVec 64).toNat + (0x3000 : BitVec 64).toNat ≤ 2 ^ 64 := by
  decide

/-- Three usable pages. -/
def threePages : MemMapEntry := ⟨0x8000, 0x3000, .usable, threePages_fits⟩

/-- The module inside a page takes one page off both counters. When as many pages are allocated as
the counter has left and one more, it says that more is free than there is. -/
theorem more_free_than_there_is :
    ∃ w, Reachable (system (boot [threePages, insidePage] 0 true)) w ∧
      w.region.size = 0x2000 ∧ w.region.free = 0xfffffffffffff000 ∧ ¬ Proper w.region := by
  have hnext : ∀ w, Reachable (system (boot [threePages, insidePage] 0 true)) w →
      Reachable (system (boot [threePages, insidePage] 0 true)) (exec w .alloc) := by
    intro w hw
    have hvalid : Valid w .alloc := trivial
    exact hw.next ⟨hvalid, rfl⟩
  have hthree := hnext _ (hnext _ (hnext _ (.start rfl)))
  refine ⟨_, hthree, by decide, by decide, fun hproper => ?_⟩
  exact absurd hproper.bounded (by decide)

end PageCounters
