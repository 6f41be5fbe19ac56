import AnosKernel.PageAlloc
import Mathlib.Algebra.Order.BigOperators.Group.List
import Mathlib.Algebra.Order.Ring.Nat

/-!
# The free pages that the memory map gives

What `page_alloc_init_limine` of `kernel/pmm/pagealloc.c` makes of a memory map: which pages are on
the stack, how often, and what the region's two counters say.
-/

namespace MemoryMap

open PageAlloc

/-- The page lies inside the entry and at or above the managed base. -/
def Whole (managedBase : BitVec 64) (entry : MemMapEntry) (page : BitVec 64) : Prop :=
  page.toNat % 4096 = 0 ∧ entry.base.toNat ≤ page.toNat ∧
    page.toNat + 4096 ≤ entry.base.toNat + entry.length.toNat ∧ managedBase.toNat ≤ page.toNat

instance (managedBase : BitVec 64) (entry : MemMapEntry) (page : BitVec 64) :
    Decidable (Whole managedBase entry page) :=
  inferInstanceAs (Decidable (_ ∧ _))

/-- The accepted entries that the page lies inside. -/
def holders (memmap : List MemMapEntry) (managedBase : BitVec 64) (reclaimExecMods : Bool)
    (page : BitVec 64) : Nat :=
  memmap.countP fun entry =>
    accepted reclaimExecMods entry && decide (Whole managedBase entry page)

/-- No block is empty, every page is on the stack as often as an accepted entry holds it, and both
counters are the bytes of these pages. -/
structure Covers (memmap : List MemMapEntry) (managedBase : BitVec 64) (reclaimExecMods : Bool)
    (region : MemoryRegion) : Prop where
  nonempty : ∀ block ∈ region.stack, block.size ≠ 0
  pages : ∀ page,
    (freePages region).count page = holders memmap managedBase reclaimExecMods page
  size : region.size = BitVec.ofNat 64 (4096 * (freePages region).length)
  free : region.free = region.size

def roundUp (n : Nat) : Nat := (n + 4095) / 4096 * 4096

def roundDown (n : Nat) : Nat := n / 4096 * 4096

/-- The entry has no page boundary in it, so that its end is rounded to below its start, and it is
not skipped for lying below the managed base. In the last page of all the start is rounded to 0. -/
def Inverted (managedBase : BitVec 64) (entry : MemMapEntry) : Prop :=
  roundDown (entry.base.toNat + entry.length.toNat) < roundUp entry.base.toNat ∧
    if roundUp entry.base.toNat < 2 ^ 64 then managedBase.toNat ≤ roundUp entry.base.toNat
    else managedBase.toNat < roundDown (entry.base.toNat + entry.length.toNat)

/-- The pages that are stacked for an entry. -/
def entryPages (managedBase : BitVec 64) (reclaimExecMods : Bool) (entry : MemMapEntry) :
    List (BitVec 64) :=
  match entryRange managedBase reclaimExecMods entry with
  | none => []
  | some (start, totalBytes) => pageRun start (totalBytes >>> vmPageLinearShift).toNat

section Entry

variable {managedBase start totalBytes page : BitVec 64} {reclaimExecMods : Bool}
  {entry : MemMapEntry}

theorem toNat_shift (x : BitVec 64) : (x >>> vmPageLinearShift).toNat = x.toNat / 4096 := by
  rw [BitVec.toNat_ushiftRight, Nat.shiftRight_eq_div_pow]
  rfl

theorem toNat_end (small : entry.base.toNat + entry.length.toNat < 2 ^ 64) :
    ((entry.base + entry.length) &&& 0xFFFFFFFFFFFFF000).toNat =
      roundDown (entry.base.toNat + entry.length.toNat) := by
  have hmask : ((entry.base + entry.length) &&& 0xFFFFFFFFFFFFF000).toNat =
      (entry.base + entry.length).toNat / 4096 * 4096 :=
    Masks.toNat_and_high _ _ 12 (by norm_num) rfl
  rw [hmask, BitVec.toNat_add, Nat.mod_eq_of_lt small, roundDown]

/-- Rounding up wraps around in the last page of all. -/
theorem toNat_start (base : BitVec 64) :
    (if base > base &&& 0xFFFFFFFFFFFFF000 then (base &&& 0xFFFFFFFFFFFFF000) + vmPageSize
      else base &&& 0xFFFFFFFFFFFFF000).toNat = roundUp base.toNat % 2 ^ 64 := by
  have hmask : (base &&& 0xFFFFFFFFFFFFF000).toNat = base.toNat / 4096 * 4096 :=
    Masks.toNat_and_high _ _ 12 (by norm_num) rfl
  have hpage : vmPageSize.toNat = 4096 := rfl
  have hlt := base.isLt
  rw [roundUp]
  split_ifs with habove
  · rw [gt_iff_lt, BitVec.lt_def, hmask] at habove
    rw [BitVec.toNat_add, hmask, hpage]
    omega
  · rw [gt_iff_lt, BitVec.lt_def, hmask] at habove
    rw [hmask]
    omega

theorem toNat_cut (low managedBase : BitVec 64) :
    (if low < managedBase then managedBase else low).toNat =
      max low.toNat managedBase.toNat := by
  split_ifs with h
  · exact (Nat.max_eq_right (Nat.le_of_lt h)).symm
  · exact (Nat.max_eq_left (Nat.not_lt.mp h)).symm

/-- What is taken from an accepted entry, by its two rounded ends and the start that is left when
all below the managed base is cut off. -/
theorem entryRange_eq (managedBase : BitVec 64) (hacc : accepted reclaimExecMods entry) :
    ∃ low high cut : BitVec 64,
      low.toNat = roundUp entry.base.toNat % 2 ^ 64 ∧
      (entry.base.toNat + entry.length.toNat < 2 ^ 64 →
        high.toNat = roundDown (entry.base.toNat + entry.length.toNat)) ∧
      high.toNat % 4096 = 0 ∧ cut.toNat = max low.toNat managedBase.toNat ∧
      entryRange managedBase reclaimExecMods entry =
        if low < managedBase ∧ high ≤ managedBase then none
        else if high - cut = 0 then none else some (cut, high - cut) := by
  refine ⟨_, (entry.base + entry.length) &&& 0xFFFFFFFFFFFFF000, _, toNat_start entry.base,
    toNat_end, ?_, toNat_cut _ managedBase, ?_⟩
  · have hmask : ((entry.base + entry.length) &&& 0xFFFFFFFFFFFFF000).toNat =
        (entry.base + entry.length).toNat / 4096 * 4096 :=
      Masks.toNat_and_high _ _ 12 (by norm_num) rfl
    rw [hmask]
    exact Nat.mul_mod_left _ _
  · simp only [entryRange, if_pos hacc]

/-- Whatever is taken is whole pages, and at least one. -/
theorem entryRange_pages (managed : managedBase.toNat % 4096 = 0)
    (h : entryRange managedBase reclaimExecMods entry = some (start, totalBytes)) :
    start.toNat % 4096 = 0 ∧ totalBytes.toNat % 4096 = 0 ∧ totalBytes.toNat ≠ 0 := by
  have hacc : accepted reclaimExecMods entry := by
    by_contra hacc
    simp [entryRange, hacc] at h
  obtain ⟨low, high, cut, hlow, -, hhigh, hcut, heq⟩ := entryRange_eq managedBase hacc
  have hmod : low.toNat % 4096 = 0 := by
    rw [hlow, roundUp]
    omega
  have hcutmod : cut.toNat % 4096 = 0 := by omega
  rw [heq] at h
  split_ifs at h with hbelow hzero
  obtain ⟨rfl, rfl⟩ := Prod.mk.injEq .. ▸ Option.some.inj h
  have hne : (high - cut).toNat ≠ 0 := fun e => hzero (BitVec.eq_of_toNat_eq e)
  rw [BitVec.toNat_sub] at hne ⊢
  refine ⟨hcutmod, ?_, hne⟩
  omega

/-- The two ends, rounded to pages, are in order or one page apart. -/
theorem round_bounds (entry : MemMapEntry) :
    roundUp entry.base.toNat % 4096 = 0 ∧ roundUp entry.base.toNat ≤ 2 ^ 64 ∧
      roundDown (entry.base.toNat + entry.length.toNat) % 4096 = 0 ∧
      roundUp entry.base.toNat ≤ roundDown (entry.base.toNat + entry.length.toNat) + 4096 := by
  have hlt := entry.base.isLt
  rw [roundUp, roundDown]
  omega

/-- An entry whose ends are rounded past each other gives pages all the same. -/
theorem entryRange_inverted (managed : managedBase.toNat % 4096 = 0)
    (small : entry.base.toNat + entry.length.toNat < 2 ^ 64)
    (hacc : accepted reclaimExecMods entry) (inverted : Inverted managedBase entry) :
    entryRange managedBase reclaimExecMods entry ≠ none := by
  obtain ⟨low, high, cut, hlow, hhigh, -, hcut, heq⟩ := entryRange_eq managedBase hacc
  specialize hhigh small
  obtain ⟨hcross, hbase⟩ := inverted
  obtain ⟨hup, hupmax, hdown, hnear⟩ := round_bounds entry
  generalize roundUp entry.base.toNat = up at *
  generalize roundDown (entry.base.toNat + entry.length.toNat) = down at *
  have hkept : ¬ (low < managedBase ∧ high ≤ managedBase) := by
    rw [BitVec.lt_def, BitVec.le_def, hhigh, hlow]
    split_ifs at hbase with hin
    · rw [Nat.mod_eq_of_lt hin]
      omega
    · omega
  have hsome : high - cut ≠ 0 := by
    intro hzero
    have hsub := congrArg BitVec.toNat hzero
    have hcutlt := cut.isLt
    have hnone : (0 : BitVec 64).toNat = 0 := rfl
    rw [BitVec.toNat_sub, hhigh, hnone] at hsub
    split_ifs at hbase with hin
    · rw [Nat.mod_eq_of_lt hin] at hlow
      omega
    · omega
  rw [heq, if_neg hkept, if_neg hsome]
  exact Option.some_ne_none _

/-- From any other entry exactly the pages between its rounded ends are taken. -/
theorem entryRange_fine (managed : managedBase.toNat % 4096 = 0)
    (small : entry.base.toNat + entry.length.toNat < 2 ^ 64)
    (hacc : accepted reclaimExecMods entry) (fine : ¬ Inverted managedBase entry) :
    (entryRange managedBase reclaimExecMods entry = none ∧
      roundDown (entry.base.toNat + entry.length.toNat) ≤
        max (roundUp entry.base.toNat) managedBase.toNat) ∨
    ∃ start totalBytes,
      entryRange managedBase reclaimExecMods entry = some (start, totalBytes) ∧
      start.toNat = max (roundUp entry.base.toNat) managedBase.toNat ∧
      start.toNat + totalBytes.toNat = roundDown (entry.base.toNat + entry.length.toNat) := by
  obtain ⟨low, high, cut, hlow, hhigh, -, hcut, heq⟩ := entryRange_eq managedBase hacc
  specialize hhigh small
  obtain ⟨hup, hupmax, hdown, hnear⟩ := round_bounds entry
  have hhighlt := high.isLt
  rw [Inverted] at fine
  generalize roundUp entry.base.toNat = up at *
  generalize roundDown (entry.base.toNat + entry.length.toNat) = down at *
  rw [heq]
  by_cases hskip : low < managedBase ∧ high ≤ managedBase
  · rw [if_pos hskip]
    rw [BitVec.lt_def, BitVec.le_def] at hskip
    exact Or.inl ⟨rfl, by omega⟩
  · rw [if_neg hskip]
    rw [BitVec.lt_def, BitVec.le_def] at hskip
    -- an entry with its ends the wrong way round is skipped, so they are in order
    have hordered : up ≤ down := by
      by_contra hcross
      apply fine
      refine ⟨Nat.not_le.mp hcross, ?_⟩
      split_ifs with hin
      · rw [Nat.mod_eq_of_lt hin] at hlow
        omega
      · omega
    rw [Nat.mod_eq_of_lt (by omega)] at hlow
    have hle : cut.toNat ≤ high.toNat := by omega
    have hsub : (high - cut).toNat = high.toNat - cut.toNat := BitVec.toNat_sub_of_le hle
    by_cases hzero : high - cut = 0
    · have hnone : (0 : BitVec 64).toNat = 0 := rfl
      rw [hzero, hnone] at hsub
      rw [if_pos hzero]
      exact Or.inl ⟨rfl, by omega⟩
    · rw [if_neg hzero]
      exact Or.inr ⟨cut, high - cut, rfl, by omega, by omega⟩

theorem entryPages_some
    (h : entryRange managedBase reclaimExecMods entry = some (start, totalBytes)) :
    entryPages managedBase reclaimExecMods entry = pageRun start (totalBytes.toNat / 4096) := by
  simp only [entryPages, h, toNat_shift]

/-- An entry that is not accepted gives nothing. -/
theorem entryPages_rejected (hacc : ¬ accepted reclaimExecMods entry) :
    entryPages managedBase reclaimExecMods entry = [] := by
  simp [entryPages, entryRange, hacc]

/-- Each page inside the entry is stacked once, and nothing else. -/
theorem count_entryPages (managed : managedBase.toNat % 4096 = 0)
    (small : entry.base.toNat + entry.length.toNat < 2 ^ 64)
    (hacc : accepted reclaimExecMods entry) (fine : ¬ Inverted managedBase entry)
    (page : BitVec 64) :
    (entryPages managedBase reclaimExecMods entry).count page =
      if Whole managedBase entry page then 1 else 0 := by
  have hwhole : Whole managedBase entry page ↔ page.toNat % 4096 = 0 ∧
      max (roundUp entry.base.toNat) managedBase.toNat ≤ page.toNat ∧
      page.toNat + 4096 ≤ roundDown (entry.base.toNat + entry.length.toNat) := by
    rw [Whole, roundUp, roundDown]
    omega
  obtain ⟨hup, -, hdown, -⟩ := round_bounds entry
  have hdownlt : roundDown (entry.base.toNat + entry.length.toNat) < 2 ^ 64 := by
    rw [roundDown]
    omega
  rcases entryRange_fine managed small hacc fine with
    ⟨hnone, hempty⟩ | ⟨start, total, hsome, hstart, hend⟩
  · have hnot : ¬ Whole managedBase entry page := by
      rw [hwhole]
      omega
    rw [entryPages, hnone, if_neg hnot]
    rfl
  · rw [entryPages_some hsome]
    have hfits : start.toNat + total.toNat / 4096 * 4096 ≤ 2 ^ 64 := by omega
    by_cases hin : Whole managedBase entry page
    · rw [if_pos hin]
      apply List.count_eq_one_of_mem (pageRun_nodup hfits)
      rw [hwhole] at hin
      rw [mem_pageRun]
      refine ⟨(page.toNat - start.toNat) / 4096, by omega, ?_⟩
      apply BitVec.eq_of_toNat_eq
      rw [toNat_page (by omega)]
      omega
    · rw [if_neg hin, List.count_eq_zero]
      intro hmem
      obtain ⟨i, hi, hpage⟩ := toNat_of_mem_pageRun hfits hmem
      apply hin
      rw [hwhole]
      omega

/-- Inside an entry without a page boundary there is no page. -/
theorem not_whole_of_inverted (inverted : Inverted managedBase entry) :
    ¬ Whole managedBase entry page := by
  have hcross := inverted.1
  rw [roundUp, roundDown] at hcross
  rw [Whole]
  omega

end Entry

section Map

variable {managedBase : BitVec 64} {reclaimExecMods : Bool} {region : MemoryRegion}
  {memmap : List MemMapEntry}

/-- The counters and the stack go together, whatever the entries are. -/
structure Balanced (region : MemoryRegion) : Prop where
  nonempty : ∀ block ∈ region.stack, block.size ≠ 0
  size : region.size = BitVec.ofNat 64 (4096 * (freePages region).length)
  free : region.free = region.size

theorem freePages_addEntry (entry : MemMapEntry) :
    freePages (addEntry managedBase reclaimExecMods region entry) =
      entryPages managedBase reclaimExecMods entry ++ freePages region := by
  cases h : entryRange managedBase reclaimExecMods entry with
  | none => simp [addEntry, entryPages, h]
  | some range => simp [addEntry, entryPages, h, freePages, MemoryBlock.pages]

theorem length_pageRun (base : BitVec 64) (n : Nat) : (pageRun base n).length = n := by
  induction n generalizing base with
  | zero => rfl
  | succ n ih => rw [pageRun, List.length_cons, ih]

theorem Balanced.addEntry (managed : managedBase.toNat % 4096 = 0) (h : Balanced region)
    (entry : MemMapEntry) : Balanced (addEntry managedBase reclaimExecMods region entry) := by
  cases hr : entryRange managedBase reclaimExecMods entry with
  | none =>
    rw [PageAlloc.addEntry, hr]
    exact h
  | some range =>
    obtain ⟨start, totalBytes⟩ := range
    obtain ⟨-, hwhole, hpos⟩ := entryRange_pages managed hr
    have hlength : (freePages (PageAlloc.addEntry managedBase reclaimExecMods region entry)).length =
        totalBytes.toNat / 4096 + (freePages region).length := by
      rw [freePages_addEntry, entryPages_some hr, List.length_append, length_pageRun]
    have hbytes : totalBytes = BitVec.ofNat 64 (4096 * (totalBytes.toNat / 4096)) := by
      rw [Nat.mul_div_cancel' (Nat.dvd_of_mod_eq_zero hwhole), BitVec.ofNat_toNat,
        BitVec.setWidth_eq]
    refine ⟨?_, ?_, ?_⟩
    · simp only [PageAlloc.addEntry, hr, List.mem_cons]
      rintro block (rfl | hblock)
      · intro hzero
        have hnone := congrArg BitVec.toNat hzero
        rw [toNat_shift] at hnone
        have hz : (0 : BitVec 64).toNat = 0 := rfl
        omega
      · exact h.nonempty block hblock
    · rw [hlength, Nat.mul_add, BitVec.ofNat_add, ← hbytes, ← h.size, BitVec.add_comm]
      simp only [PageAlloc.addEntry, hr]
    · simp only [PageAlloc.addEntry, hr, h.free]

theorem balanced_init (managed : managedBase.toNat % 4096 = 0) (memmap : List MemMapEntry)
    (reclaimExecMods : Bool) :
    Balanced (pageAllocInitLimine memmap managedBase reclaimExecMods) := by
  have hrun : ∀ region, Balanced region →
      Balanced (memmap.foldl (PageAlloc.addEntry managedBase reclaimExecMods) region) := by
    induction memmap with
    | nil => exact fun region h => h
    | cons entry memmap ih => exact fun region h => ih _ (h.addEntry managed entry)
  apply hrun
  exact ⟨by simp, rfl, rfl⟩

/-- A page is on the stack once for every time that an entry gives it. -/
theorem count_init (memmap : List MemMapEntry) (page : BitVec 64) :
    (freePages (pageAllocInitLimine memmap managedBase reclaimExecMods)).count page =
      (memmap.map fun entry =>
        (entryPages managedBase reclaimExecMods entry).count page).sum := by
  have hrun : ∀ region,
      (freePages (memmap.foldl (PageAlloc.addEntry managedBase reclaimExecMods) region)).count page =
        (memmap.map fun entry =>
          (entryPages managedBase reclaimExecMods entry).count page).sum +
          (freePages region).count page := by
    induction memmap with
    | nil => simp
    | cons entry memmap ih =>
      intro region
      rw [List.foldl_cons, ih, freePages_addEntry, List.count_append, List.map_cons,
        List.sum_cons]
      omega
  rw [pageAllocInitLimine, hrun]
  rfl

theorem holders_eq (memmap : List MemMapEntry) (page : BitVec 64) :
    holders memmap managedBase reclaimExecMods page =
      (memmap.map fun entry => if accepted reclaimExecMods entry ∧ Whole managedBase entry page
        then 1 else 0).sum := by
  induction memmap with
  | nil => rfl
  | cons entry memmap ih =>
    rw [holders] at ih ⊢
    rw [List.countP_cons, ih, List.map_cons, List.sum_cons, Nat.add_comm]
    simp only [Bool.and_eq_true, decide_eq_true_eq]

/-- Every page inside an accepted entry is stacked for it. -/
theorem indicator_le_count {entry : MemMapEntry} (managed : managedBase.toNat % 4096 = 0)
    (small : entry.base.toNat + entry.length.toNat < 2 ^ 64) (page : BitVec 64) :
    (if accepted reclaimExecMods entry ∧ Whole managedBase entry page then 1 else 0) ≤
      (entryPages managedBase reclaimExecMods entry).count page := by
  split_ifs with hin
  · by_cases hinverted : Inverted managedBase entry
    · exact absurd hin.2 (not_whole_of_inverted hinverted)
    · rw [count_entryPages managed small hin.1 hinverted, if_pos hin.2]
  · exact Nat.zero_le _

/-- For an entry that is turned inside out a page is stacked that lies in no entry. -/
theorem exists_stray {entry : MemMapEntry} (managed : managedBase.toNat % 4096 = 0)
    (small : entry.base.toNat + entry.length.toNat < 2 ^ 64)
    (hacc : accepted reclaimExecMods entry) (inverted : Inverted managedBase entry) :
    ∃ page, (if accepted reclaimExecMods entry ∧ Whole managedBase entry page then 1 else 0) <
      (entryPages managedBase reclaimExecMods entry).count page := by
  obtain ⟨⟨start, totalBytes⟩, hsome⟩ :=
    Option.ne_none_iff_exists'.mp (entryRange_inverted managed small hacc inverted)
  obtain ⟨-, hwhole, hpos⟩ := entryRange_pages managed hsome
  refine ⟨start, ?_⟩
  rw [if_neg fun h => not_whole_of_inverted inverted h.2, entryPages_some hsome, List.count_pos_iff,
    mem_pageRun]
  exact ⟨0, by omega, by simp⟩

theorem not_covers {entry : MemMapEntry} (managed : managedBase.toNat % 4096 = 0)
    (small : ∀ entry ∈ memmap, entry.base.toNat + entry.length.toNat < 2 ^ 64)
    (hentry : entry ∈ memmap) (hacc : accepted reclaimExecMods entry)
    (inverted : Inverted managedBase entry) :
    ¬ Covers memmap managedBase reclaimExecMods
      (pageAllocInitLimine memmap managedBase reclaimExecMods) := by
  intro hcovers
  obtain ⟨page, hstray⟩ := exists_stray managed (small entry hentry) hacc inverted
  have hmore : holders memmap managedBase reclaimExecMods page <
      (freePages (pageAllocInitLimine memmap managedBase reclaimExecMods)).count page := by
    rw [count_init, holders_eq]
    apply List.sum_lt_sum
    · exact fun other hother => indicator_le_count managed (small other hother) page
    · exact ⟨entry, hentry, hstray⟩
  rw [hcovers.pages page] at hmore
  exact Nat.lt_irrefl _ hmore

theorem covers_of_fine (managed : managedBase.toNat % 4096 = 0)
    (small : ∀ entry ∈ memmap, entry.base.toNat + entry.length.toNat < 2 ^ 64)
    (fine : ∀ entry ∈ memmap, accepted reclaimExecMods entry → ¬ Inverted managedBase entry) :
    Covers memmap managedBase reclaimExecMods
      (pageAllocInitLimine memmap managedBase reclaimExecMods) := by
  have hbalanced := balanced_init managed memmap reclaimExecMods
  refine ⟨hbalanced.nonempty, ?_, hbalanced.size, hbalanced.free⟩
  intro page
  rw [count_init, holders_eq]
  apply congrArg
  apply List.map_congr_left
  intro entry hentry
  by_cases hacc : accepted reclaimExecMods entry
  · simp only [hacc, true_and]
    exact count_entryPages managed (small entry hentry) hacc (fine entry hentry hacc) page
  · rw [entryPages_rejected hacc, if_neg fun h => hacc h.1]
    rfl

/-- An entry that neither starts nor ends with a page. -/
def unaligned : MemMapEntry := ⟨0x1800, 0x3000, .usable, by decide⟩

/-- 256 bytes of a module, in the middle of a page. -/
def insidePage : MemMapEntry := ⟨0x1100, 0x100, .executableAndModules, by decide⟩

end Map

end MemoryMap
