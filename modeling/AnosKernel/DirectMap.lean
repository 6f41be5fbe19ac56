import AnosKernel.Lib.Directories
import AnosKernel.VmMapper

/-!
# Building the direct map

`vmm/vmmapper_init.c`, which x86_64 and riscv64 each have under their `arch` directory. Regions of
physical memory are mapped with the largest pages that fit. While the direct map is not there, the
tables are reached through slots of a page table for temporary pages. The functions that both files
have are here, up to how an entry is written.
-/

namespace DirectMap

open VmMapper PageAlloc Directories

def pageSize : BitVec 64 := 0x1000
def megaPageSize : BitVec 64 := 0x200000
def gigaPageSize : BitVec 64 := 0x40000000
def maxPhysAddr : BitVec 64 := 0x7f0000000000

/-- How an architecture writes the entries of its tables; `tableFlags` are those of an entry that
leads to a table. -/
structure Format where
  physAndFlagsToTableEntry : BitVec 64 → BitVec 64 → BitVec 64
  tableEntryToPhys : BitVec 64 → BitVec 64
  pgRead : BitVec 64
  pgWrite : BitVec 64
  pgGlobal : BitVec 64
  pgPagesize : BitVec 64
  tableFlags : BitVec 64

/-- The top-level table and the page table of the temporary pages. -/
structure Env where
  pml4 : BitVec 64
  tempMappingPt : BitVec 64

/-- A pointer to a table: the one to the top-level table, or to a temporary page. -/
inductive TablePtr where
  | pml4
  | temp (slot : Fin 512)
  deriving DecidableEq

inductive Panic where
  | outOfMemory
  | alreadyMapped
  | strayWrite
  deriving DecidableEq, Repr

section Code

variable (fmt : Format) (env : Env)

/-- The frame behind a pointer. -/
def frameOf (m : Machine) : TablePtr → BitVec 64
  | .pml4 => env.pml4
  | .temp slot => fmt.tableEntryToPhys (m.mem env.tempMappingPt slot)

def write (m : Machine) (table : BitVec 64) (index : Fin 512) (entry : BitVec 64) : Machine :=
  { m with mem := setEntry m.mem table index entry }

def mapReadwriteAndFlush (m : Machine) (tableIndex : Fin 512) (paddr : BitVec 64) : Machine :=
  write m env.tempMappingPt tableIndex
    (fmt.physAndFlagsToTableEntry paddr (fmt.pgPagesize ||| fmt.pgRead ||| fmt.pgWrite ||| pgPresent))

def unmapAndFlush (m : Machine) (tableIndex : Fin 512) : Machine :=
  write m env.tempMappingPt tableIndex 0

def clearTable (m : Machine) (table : BitVec 64) : Machine :=
  { m with mem := Function.update m.mem table fun _ => 0 }

/-- `ensure_direct_table_map`; the pointer it returns is the one to the slot. -/
def ensureDirectTableMap (m : Machine) (table : TablePtr) (tableIndex slot : Fin 512) :
    Except Panic Machine :=
  let tableEntry := m.mem (frameOf fmt env m table) tableIndex
  if tableEntry &&& pgPresent = 0 then
    let (newTablePaddr, region) := pageAlloc m.region
    if newTablePaddr &&& 0xfff ≠ 0 then .error .outOfMemory
    else
      let m := mapReadwriteAndFlush fmt env { m with region := region } slot newTablePaddr
      let m := clearTable m (frameOf fmt env m (.temp slot))
      .ok (write m (frameOf fmt env m table) tableIndex
        (fmt.physAndFlagsToTableEntry newTablePaddr fmt.tableFlags))
  else .ok (mapReadwriteAndFlush fmt env m slot (fmt.tableEntryToPhys tableEntry))

/-- Where the functions for the page sizes write the leaf. -/
def writeLeaf (m : Machine) (table : TablePtr) (index : Fin 512) (entry : BitVec 64) :
    Except Panic Machine :=
  if m.mem (frameOf fmt env m table) index &&& pgPresent ≠ 0 then .error .alreadyMapped
  else .ok (write m (frameOf fmt env m table) index entry)

def vmmInitMapGigapage (m : Machine) (base : BitVec 64) (flags : BitVec 8) :
    Except Panic Machine :=
  if base + gigaPageSize > maxPhysAddr then .ok m
  else do
    let vaddr := vmmPhysToVirt base
    let m ← ensureDirectTableMap fmt env m .pml4 (vmmVirtToPml4Index vaddr) 0
    let m ← writeLeaf fmt env m (.temp 0) (vmmVirtToPdptIndex vaddr)
      (fmt.physAndFlagsToTableEntry base (flags.zeroExtend 64 ||| fmt.pgPagesize))
    return unmapAndFlush env m 0

def vmmInitMapMegapage (m : Machine) (base : BitVec 64) (flags : BitVec 8) :
    Except Panic Machine :=
  if base + megaPageSize > maxPhysAddr then .ok m
  else do
    let vaddr := vmmPhysToVirt base
    let m ← ensureDirectTableMap fmt env m .pml4 (vmmVirtToPml4Index vaddr) 0
    let m ← ensureDirectTableMap fmt env m (.temp 0) (vmmVirtToPdptIndex vaddr) 1
    let m ← writeLeaf fmt env m (.temp 1) (vmmVirtToPdIndex vaddr)
      (fmt.physAndFlagsToTableEntry base (flags.zeroExtend 64 ||| fmt.pgPagesize))
    return unmapAndFlush env (unmapAndFlush env m 0) 1

/-- `vmm_init_map_page`, which clears slot 3 instead of slot 2. -/
def vmmInitMapPage (m : Machine) (base : BitVec 64) (flags : BitVec 8) : Except Panic Machine :=
  if base + pageSize > maxPhysAddr then .ok m
  else do
    let vaddr := vmmPhysToVirt base
    let m ← ensureDirectTableMap fmt env m .pml4 (vmmVirtToPml4Index vaddr) 0
    let m ← ensureDirectTableMap fmt env m (.temp 0) (vmmVirtToPdptIndex vaddr) 1
    let m ← ensureDirectTableMap fmt env m (.temp 1) (vmmVirtToPdIndex vaddr) 2
    let m ← writeLeaf fmt env m (.temp 2) (vmmVirtToPtIndex vaddr)
      (fmt.physAndFlagsToTableEntry base (flags.zeroExtend 64))
    return unmapAndFlush env (unmapAndFlush env (unmapAndFlush env m 0) 1) 3

/-- The flags of a region, which are kept in eight bits. -/
def regionFlags (writeable : Bool) : BitVec 8 :=
  (pgPresent ||| fmt.pgGlobal ||| fmt.pgRead ||| (if writeable then fmt.pgWrite else 0)).setWidth 8

/-- The types of entries that are mapped, and whether they are writable. -/
def mappedType : MemMapType → Option Bool
  | .usable | .bootloaderReclaimable | .acpiReclaimable | .executableAndModules => some true
  | .acpiNvs => some false
  | _ => none

end Code

/-! ## What the hardware finds -/

abbrev Dir := Directory (BitVec 64) (BitVec 64 × Bool)

/-- How entries are read: a leaf has an address, and it is writable or not. -/
abbrev Reader := Nat → BitVec 64 → Decoded (BitVec 64) (BitVec 64 × Bool)

/-- The format writes what `decode` reads. -/
structure Format.Reads (fmt : Format) (decode : Reader) : Prop where
  zero : ∀ l, decode l 0 = .absent
  absent : ∀ l e, decode l e = .absent → e &&& pgPresent = 0
  present : ∀ l e f, decode l e = .table f → e &&& pgPresent ≠ 0
  phys : ∀ l e f, decode l e = .table f → fmt.tableEntryToPhys e = f
  window : ∀ f, IsFrame f → fmt.tableEntryToPhys (fmt.physAndFlagsToTableEntry f
    (fmt.pgPagesize ||| fmt.pgRead ||| fmt.pgWrite ||| pgPresent)) = f
  table : ∀ l f, 0 < l → IsFrame f →
    decode l (fmt.physAndFlagsToTableEntry f fmt.tableFlags) = .table f
  page : ∀ base writeable, IsFrame base → decode 0 (fmt.physAndFlagsToTableEntry base
    ((regionFlags fmt writeable).zeroExtend 64)) = .leaf (base, writeable)
  large : ∀ l base writeable, 0 < l → l ≤ 2 → base.toNat % (0x1000 * 512 ^ l) = 0 → IsFrame base →
    decode l (fmt.physAndFlagsToTableEntry base
      ((regionFlags fmt writeable).zeroExtend 64 ||| fmt.pgPagesize)) = .leaf (base, writeable)

/-- The entries of the top-level table that are for the direct map. -/
def part (b : Nat) : Prop := 256 ≤ b ∧ b < 510

theorem part_small (b : Nat) (h : part b) : b < 512 :=
  Nat.lt_trans h.2 (by decide)

/-- The tables of the direct map are those of the directory, and apart from the free pages and
from the table for temporary pages. -/
structure Good (decode : Reader) (env : Env) (m : Machine) (d : Dir) : Prop where
  wf : WellFormed 512 3 env.pml4 d
  holds : Holds 512 3 env.pml4 part decode m.mem d
  sized : WellSized m.region
  nodup : (freePages m.region).Nodup
  frames : ∀ page ∈ freePages m.region, IsFrame page
  free : ∀ page ∈ freePages m.region, page ≠ env.tempMappingPt ∧ d.Fresh env.pml4 page
  temp : d.Fresh env.pml4 env.tempMappingPt
  tables : ∀ l b f, d.table l b = some f → IsFrame f

/-- How a call ends that was made in `m`: it takes `need` free pages at most, and fails only when
there are fewer. -/
inductive Ends (m : Machine) (need : Nat) : Except Panic Machine → (Machine → Prop) → Prop
  | ok {m' : Machine} {post : Machine → Prop} (holds : post m')
      (free : (freePages m.region).length ≤ (freePages m'.region).length + need) :
      Ends m need (.ok m') post
  | outOfMemory {post : Machine → Prop} (fewer : (freePages m.region).length < need) :
      Ends m need (.error .outOfMemory) post

section Outcomes

variable {m : Machine} {need need' : Nat} {result : Except Panic Machine} {P Q : Machine → Prop}

theorem Ends.mono (h : Ends m need result P) (le : need ≤ need') (weaker : ∀ m', P m' → Q m') :
    Ends m need' result Q := by
  cases h with
  | ok hpost hfree => exact .ok (weaker _ hpost) (Nat.le_trans hfree (Nat.add_le_add_left le _))
  | outOfMemory hfewer => exact .outOfMemory (Nat.lt_of_lt_of_le hfewer le)

theorem Ends.bind {next : Machine → Except Panic Machine} (h : Ends m need result P)
    (rest : ∀ m', P m' → Ends m' need' (next m') Q) : Ends m (need + need') (result >>= next) Q := by
  cases h with
  | @ok m' _ hpost hfree =>
    have hrest := rest m' hpost
    change Ends m (need + need') (next m') Q
    generalize next m' = last at hrest
    cases hrest with
    | ok hlast hfree' => exact .ok hlast (by omega)
    | outOfMemory hfewer => exact .outOfMemory (by omega)
  | outOfMemory hfewer => exact .outOfMemory (Nat.lt_of_lt_of_le hfewer (Nat.le_add_right _ _))

theorem Ends.enough (h : Ends m need result P) (le : need ≤ (freePages m.region).length) :
    result ≠ .error .outOfMemory := by
  cases h with
  | ok _ _ => simp
  | outOfMemory hfewer => exact absurd le (Nat.not_le_of_lt hfewer)

end Outcomes

section Steps

variable {fmt : Format} {decode : Reader} {env : Env} {m : Machine} {d : Dir} {k b : Nat}
  {f page : BitVec 64} {g e : BitVec 64} {i index slot : Fin 512} {table : TablePtr}

@[simp] theorem write_mem : (write m g i e).mem = setEntry m.mem g i e := rfl

@[simp] theorem write_region : (write m g i e).region = m.region := rfl

@[simp] theorem clearTable_region : (clearTable m g).region = m.region := rfl

theorem owned_ne (h : d.Owns 512 3 env.pml4 part g i) (fresh : d.Fresh env.pml4 f) : g ≠ f := by
  rintro rfl
  obtain ⟨l, b, _, hhome, _⟩ := h
  rw [Directory.home] at hhome
  split_ifs at hhome
  · exact fresh.1 (Option.some.inj hhome).symm
  · exact fresh.2 _ _ hhome

/-- Writing the table for temporary pages. -/
theorem Good.writeTemp (good : Good decode env m d) :
    Good decode env (write m env.tempMappingPt slot e) d := by
  refine { good with holds := good.holds.congr ?_ }
  intro g i hg
  exact congrFun (setEntry_table _ _ (owned_ne hg good.temp)) i

theorem frameOf_mapped (reads : fmt.Reads decode) (frame : IsFrame f) :
    frameOf fmt env (mapReadwriteAndFlush fmt env m slot f) (.temp slot) = f := by
  rw [frameOf, mapReadwriteAndFlush, write_mem, setEntry_self]
  exact reads.window f frame

/-- Pointers whose slot is not written stay. -/
theorem frameOf_other (other : table ≠ .temp slot) :
    frameOf fmt env (mapReadwriteAndFlush fmt env m slot f) table = frameOf fmt env m table := by
  cases table with
  | pml4 => rfl
  | temp slot' =>
    have hne : slot' ≠ slot := fun h => other (h ▸ rfl)
    rw [frameOf, frameOf, mapReadwriteAndFlush, write_mem, setEntry_index _ hne]

theorem frameOf_congr {m' : Machine} (same : m'.mem env.tempMappingPt = m.mem env.tempMappingPt) :
    frameOf fmt env m' table = frameOf fmt env m table := by
  cases table with
  | pml4 => rfl
  | temp slot => rw [frameOf, frameOf, same]

/-- What ensuring a table leaves: the directory with the table of block `b`, in the slot. -/
structure Ensured (fmt : Format) (decode : Reader) (env : Env) (m : Machine) (d : Dir)
    (k b : Nat) (slot : Fin 512) (m' : Machine) (d' : Dir) : Prop where
  good : Good decode env m' d'
  table : d'.table k b = some (frameOf fmt env m' (.temp slot))
  slots : ∀ table, table ≠ .temp slot → frameOf fmt env m' table = frameOf fmt env m table
  leaf : d'.leaf = d.leaf
  others : ∀ l c, ¬ (l = k ∧ c = b) → d'.table l c = d.table l c
  grown : d' = d ∨ ∃ f, d' = d.addTable k b f

/-- A page for a new table. -/
theorem pageAlloc_cases (good : Good decode env m d) :
    (freePages m.region = [] ∧ (pageAlloc m.region).1 &&& 0xfff ≠ 0) ∨
      (freePages m.region).Perm ((pageAlloc m.region).1 :: freePages (pageAlloc m.region).2) := by
  by_cases hstack : m.region.stack = []
  · left
    constructor
    · exact freePages_empty hstack
    · rw [pageAlloc_empty hstack]
      show (0xFF : BitVec 64) &&& 0xfff ≠ 0
      decide
  · exact Or.inr (pageAlloc_perm good.sized hstack)

/-- The directory with a new table, for which memory was written. -/
theorem Good.addTable (good : Good decode env m d) (pos : 0 < k) (le : k ≤ 3)
    (home : d.home 512 3 env.pml4 k b = some g) (inPart : k = 3 → part b)
    (absent : d.entry k b = .absent) {region : MemoryRegion} (sized : WellSized region)
    (taken : (freePages m.region).Perm (page :: freePages region))
    {mem : BitVec 64 → Fin 512 → BitVec 64} (empty : ∀ i, decode (k - 1) (mem page i) = .absent)
    (link : decode k (mem g (Fin.ofNat 512 b)) = .table page)
    (others : ∀ g' i, g' ≠ page → g' ≠ env.tempMappingPt → ¬ (g' = g ∧ i = Fin.ofNat 512 b) →
      mem g' i = m.mem g' i) :
    Good decode env { mem := mem, region := region } (d.addTable k b page) := by
  have hpage : page ∈ freePages m.region := taken.mem_iff.mpr List.mem_cons_self
  have hrest : ∀ page' ∈ freePages region, page' ∈ freePages m.region :=
    fun page' h => taken.mem_iff.mpr (List.mem_cons_of_mem page h)
  obtain ⟨hnot, hnodup⟩ := List.nodup_cons.mp (taken.nodup_iff.mp good.nodup)
  obtain ⟨htemp, hfresh⟩ := good.free page hpage
  have fresh_of_ne : ∀ f, d.Fresh env.pml4 f → f ≠ page → (d.addTable k b page).Fresh env.pml4 f := by
    intro f hf hne
    refine ⟨hf.1, ?_⟩
    intro l c h
    simp only [Directory.addTable] at h
    split_ifs at h
    · exact hne (Option.some.inj h).symm
    · exact hf.2 l c h
  constructor
  · exact good.wf.addTable pos le home absent hfresh
  · apply good.holds.addTable good.wf part_small pos le home inPart absent hfresh empty link
    intro g' i howned hne
    exact others g' i (owned_ne howned hfresh) (owned_ne howned good.temp) hne
  · exact sized
  · exact hnodup
  · exact fun page' h => good.frames page' (hrest page' h)
  · intro page' h
    obtain ⟨hne, hold⟩ := good.free page' (hrest page' h)
    exact ⟨hne, fresh_of_ne page' hold (fun heq => hnot (heq ▸ h))⟩
  · exact fresh_of_ne _ good.temp (fun heq => htemp heq.symm)
  · intro l c f h
    simp only [Directory.addTable] at h
    split_ifs at h
    · obtain rfl := Option.some.inj h
      exact good.frames page hpage
    · exact good.tables l c f h

theorem ensureDirectTableMap_ends (reads : fmt.Reads decode) (good : Good decode env m d)
    (pos : 0 < k) (le : k ≤ 3)
    (home : d.home 512 3 env.pml4 k b = some (frameOf fmt env m table))
    (inPart : k = 3 → part b) (other : table ≠ .temp slot) (noLeaf : d.leaf k b = none) :
    Ends m 1 (ensureDirectTableMap fmt env m table (Fin.ofNat 512 b) slot)
      (fun m' => ∃ d', Ensured fmt decode env m d k b slot m' d') := by
  have hentry := good.holds k b _ le home inPart
  rw [ensureDirectTableMap]
  cases htable : d.table k b with
  | some c =>
    -- the table is there, and is mapped into the slot
    rw [entry_of_table htable] at hentry
    have hpresent := reads.present k _ c hentry
    simp only [if_neg hpresent, reads.phys k _ c hentry]
    refine .ok ⟨d, good.writeTemp, ?_, ?_, rfl, fun _ _ _ => rfl, Or.inl rfl⟩ (Nat.le_succ _)
    · rw [htable, frameOf_mapped reads (good.tables k b c htable)]
    · exact fun table' hne => frameOf_other hne
  | none =>
    have habsent : d.entry k b = .absent := entry_absent_iff.mpr ⟨htable, noLeaf⟩
    have hzero := reads.absent k _ (hentry.trans habsent)
    simp only [if_pos hzero]
    rcases pageAlloc_cases good with ⟨hnone, hodd⟩ | htaken
    · rw [if_pos hodd]
      exact .outOfMemory (by rw [hnone]; exact Nat.one_pos)
    · have hsized := pageAlloc_sized good.sized
      generalize pageAlloc m.region = answer at htaken hsized
      obtain ⟨new, region⟩ := answer
      have hnew : new ∈ freePages m.region := htaken.mem_iff.mpr List.mem_cons_self
      have hframe := good.frames new hnew
      obtain ⟨htemp, hfresh⟩ := good.free new hnew
      have hne : frameOf fmt env m table ≠ new := owned_ne ⟨k, b, le, home, inPart, rfl⟩ hfresh
      have hneTemp : frameOf fmt env m table ≠ env.tempMappingPt :=
        owned_ne ⟨k, b, le, home, inPart, rfl⟩ good.temp
      have haligned : ¬ new &&& 0xfff ≠ 0 := not_not.mpr hframe.aligned
      simp only [if_neg haligned, frameOf_mapped reads hframe]
      -- the slot leads to the new table, which is cleared before the entry is written
      generalize hm1 : mapReadwriteAndFlush fmt env { m with region := region } slot new = m1
      have hslots : ∀ table', table' ≠ .temp slot →
          frameOf fmt env m1 table' = frameOf fmt env m table' := by
        intro table' hother
        rw [← hm1]
        exact frameOf_other hother
      have hpointer : frameOf fmt env (clearTable m1 new) table = frameOf fmt env m table := by
        rw [← hslots table other]
        exact frameOf_congr (Function.update_of_ne htemp.symm _ _)
      rw [hpointer]
      generalize hm3 : write (clearTable m1 new) (frameOf fmt env m table) (Fin.ofNat 512 b)
        (fmt.physAndFlagsToTableEntry new fmt.tableFlags) = m3
      have hsame : m3.mem env.tempMappingPt = m1.mem env.tempMappingPt := by
        rw [← hm3, write_mem, setEntry_table _ _ hneTemp.symm]
        exact Function.update_of_ne htemp.symm _ _
      have hgood : Good decode env { mem := m3.mem, region := region } (d.addTable k b new) := by
        apply good.addTable pos le home inPart habsent hsized htaken
        · intro i
          have hzero : (clearTable m1 new).mem new = fun _ => 0 := Function.update_self _ _ _
          rw [← hm3, write_mem, setEntry_table _ _ hne.symm, hzero]
          exact reads.zero (k - 1)
        · rw [← hm3, write_mem, setEntry_self]
          exact reads.table k new pos hframe
        · intro g' i hnew' htemp' hentry'
          have hclear : (clearTable m1 new).mem g' = m.mem g' := by
            rw [← hm1]
            exact (Function.update_of_ne hnew' _ _).trans (setEntry_table _ _ htemp')
          rw [← hm3, write_mem, ← hclear]
          by_cases hg : g' = frameOf fmt env m table
          · subst hg
            exact setEntry_index _ (fun hi => hentry' ⟨rfl, hi⟩)
          · exact congrFun (setEntry_table _ _ hg) i
      have hregion : m3.region = region := by
        rw [← hm3, ← hm1]
        rfl
      refine .ok ⟨d.addTable k b new, ?_, ?_, ?_, rfl, ?_, Or.inr ⟨new, rfl⟩⟩ ?_
      · rw [← hregion] at hgood
        exact hgood
      · rw [frameOf_congr hsame, ← hm1, frameOf_mapped reads hframe]
        exact if_pos ⟨rfl, rfl⟩
      · intro table' hother
        rw [frameOf_congr hsame]
        exact hslots table' hother
      · exact fun l c hne' => if_neg hne'
      · rw [hregion, htaken.length_eq]
        exact Nat.le_refl _

theorem writeLeaf_ends (reads : fmt.Reads decode) (good : Good decode env m d) (le : k ≤ 3)
    (home : d.home 512 3 env.pml4 k b = some (frameOf fmt env m table))
    (inPart : k = 3 → part b) (absent : d.entry k b = .absent) {a : BitVec 64 × Bool}
    (leaf : decode k e = .leaf a) :
    Ends m 0 (writeLeaf fmt env m table (Fin.ofNat 512 b) e)
      (fun m' => Good decode env m' (d.addLeaf k b a)) := by
  have hentry := good.holds k b _ le home inPart
  have hzero := reads.absent k _ (hentry.trans absent)
  rw [writeLeaf, if_neg (not_not.mpr hzero)]
  refine .ok { good with wf := good.wf.addLeaf le home absent, holds := ?_ } (Nat.le_refl _)
  apply good.holds.addLeaf good.wf part_small home inPart absent
  · rw [write_mem, setEntry_self]
    exact leaf
  · intro g i _ hne
    rw [write_mem]
    by_cases hg : g = frameOf fmt env m table
    · subst hg
      exact setEntry_index _ (fun hi => hne ⟨rfl, hi⟩)
    · exact congrFun (setEntry_table _ _ hg) i

end Steps

/-! ## Mapping one page -/

/-- No page of block `n / 512 ^ l` has a leaf. -/
def Dir.Unmapped (d : Dir) (l n : Nat) : Prop :=
  ∀ n', n' / 512 ^ l = n / 512 ^ l → ∀ k a, d.leaf k (n' / 512 ^ k) ≠ some a

/-- On the way to level `l` for page `n`: the pointer is to the table with its entry on
level `k`. -/
structure Arrived (fmt : Format) (decode : Reader) (env : Env) (d : Dir) (n l k : Nat)
    (table : TablePtr) (m' : Machine) (d' : Dir) : Prop where
  good : Good decode env m' d'
  home : d'.home 512 3 env.pml4 k (n / 512 ^ k) = some (frameOf fmt env m' table)
  leaf : d'.leaf = d.leaf
  filled : d'.FilledBut 512 n l
  free : d'.table l (n / 512 ^ l) = none

/-- The directory has a leaf more. -/
def Mapped (decode : Reader) (env : Env) (d : Dir) (l n : Nat) (a : BitVec 64 × Bool)
    (m' : Machine) : Prop :=
  ∃ d', Good decode env m' d' ∧ d'.Filled 512 ∧ d'.leaf = (d.addLeaf l (n / 512 ^ l) a).leaf

section Pages

variable {fmt : Format} {decode : Reader} {env : Env} {m : Machine} {d d' : Dir} {n l k : Nat}
  {table : TablePtr} {slot : Fin 512} {e : BitVec 64} {a : BitVec 64 × Bool}

theorem Good.arrived (good : Good decode env m d) (filled : d.Filled 512)
    (unmapped : d.Unmapped l n) : Arrived fmt decode env d n l 3 .pml4 m d :=
  ⟨good, if_pos rfl, rfl, filled.but n l, filled.table_none unmapped⟩

theorem Arrived.down (reads : fmt.Reads decode) (arrived : Arrived fmt decode env d n l (k + 1) table m d')
    (lt : l < k + 1) (le : k + 1 ≤ 3) (inPart : part (n / 512 ^ 3)) (unmapped : d.Unmapped l n)
    (other : table ≠ .temp slot) :
    Ends m 1 (ensureDirectTableMap fmt env m table (Fin.ofNat 512 (n / 512 ^ (k + 1))) slot)
      (fun m' => ∃ d'', Arrived fmt decode env d n l k (.temp slot) m' d'') := by
  have hnoLeaf : d'.leaf (k + 1) (n / 512 ^ (k + 1)) = none := by
    rw [arrived.leaf, Option.eq_none_iff_forall_ne_some]
    exact fun a => unmapped n rfl (k + 1) a
  have hpart : k + 1 = 3 → part (n / 512 ^ (k + 1)) := by
    intro hk
    rw [hk]
    exact inPart
  apply (ensureDirectTableMap_ends reads arrived.good (Nat.succ_pos k) le arrived.home hpart other
    hnoLeaf).mono (Nat.le_refl 1)
  rintro m' ⟨d'', hensured⟩
  refine ⟨d'', hensured.good, ?_, hensured.leaf.trans arrived.leaf, ?_, ?_⟩
  · rw [Directory.home, if_neg (by omega), div_next]
    exact hensured.table
  · rcases hensured.grown with rfl | ⟨f, rfl⟩
    · exact arrived.filled
    · exact arrived.filled.addTable lt
  · rw [hensured.others l _ (fun h => absurd h.1 (Nat.ne_of_lt lt))]
    exact arrived.free

theorem Arrived.write (reads : fmt.Reads decode) (arrived : Arrived fmt decode env d n l l table m d')
    (le : l ≤ 3) (inPart : part (n / 512 ^ 3)) (unmapped : d.Unmapped l n)
    (leaf : decode l e = .leaf a) :
    Ends m 0 (writeLeaf fmt env m table (Fin.ofNat 512 (n / 512 ^ l)) e)
      (Mapped decode env d l n a) := by
  have habsent : d'.entry l (n / 512 ^ l) = .absent := by
    rw [entry_absent_iff, arrived.leaf, Option.eq_none_iff_forall_ne_some (o := d.leaf _ _)]
    exact ⟨arrived.free, fun a => unmapped n rfl l a⟩
  have hpart : l = 3 → part (n / 512 ^ l) := by
    intro hl
    rw [hl]
    exact inPart
  apply (writeLeaf_ends reads arrived.good le arrived.home hpart habsent leaf).mono (Nat.le_refl 0)
  intro m' hgood
  refine ⟨d'.addLeaf l (n / 512 ^ l) a, hgood, arrived.filled.addLeaf, ?_⟩
  simp only [Directory.addLeaf, arrived.leaf]

theorem Mapped.unmapAndFlush (h : Mapped decode env d l n a m) :
    Mapped decode env d l n a (unmapAndFlush env m slot) := by
  obtain ⟨d', hgood, hrest⟩ := h
  exact ⟨d', hgood.writeTemp, hrest⟩

/-- The page of the direct map for a physical address. -/
def pageOf (base : BitVec 64) : Nat := base.toNat / 0x1000 + 2 ^ 35

/-- What a page on level `l` at `base` maps: it is aligned, and below `MAX_PHYS_ADDR`. -/
structure Block (base : BitVec 64) (l : Nat) : Prop where
  aligned : base.toNat % (0x1000 * 512 ^ l) = 0
  fits : base.toNat + 0x1000 * 512 ^ l ≤ 127 * 2 ^ 40

section Blocks

variable {base : BitVec 64}

theorem Block.page (block : Block base l) :
    base.toNat % 0x1000 = 0 ∧ base.toNat + 0x1000 ≤ 127 * 2 ^ 40 := by
  have hfits := block.fits
  have hpos : 0 < 512 ^ l := Nat.pow_pos (by decide)
  constructor
  · apply Nat.mod_eq_zero_of_dvd
    exact (Nat.dvd_mul_right 0x1000 (512 ^ l)).trans (Nat.dvd_of_mod_eq_zero block.aligned)
  · omega

theorem Block.isFrame (block : Block base l) : IsFrame base := by
  have hmask := Masks.toNat_and_field base 0x0000fffffffff000 12 48 (by decide) (by decide)
  obtain ⟨haligned, hfits⟩ := block.page
  apply BitVec.eq_of_toNat_eq
  rw [vmmTableEntryToPhys, hmask]
  omega

theorem Block.part (block : Block base l) : part (pageOf base / 512 ^ 3) := by
  obtain ⟨_, hfits⟩ := block.page
  rw [DirectMap.part, pageOf]
  omega

theorem Block.not_refused (block : Block base l) {size : BitVec 64}
    (sized : size.toNat = 0x1000 * 512 ^ l) : ¬ base + size > maxPhysAddr := by
  have hfits := block.fits
  have hmax : maxPhysAddr.toNat = 127 * 2 ^ 40 := by decide
  rw [gt_iff_lt, BitVec.lt_def, BitVec.toNat_add, hmax, sized]
  omega

theorem toNat_vmmPhysToVirt (below : base.toNat < 127 * 2 ^ 40) :
    (vmmPhysToVirt base).toNat = 0xffff800000000000 + base.toNat := by
  rw [vmmPhysToVirt, directMapBase, BitVec.toNat_add]
  simp only [BitVec.ofNat_eq_ofNat, BitVec.toNat_ofNat, Nat.reducePow, Nat.reduceMod]
  omega

/-- The indices of the tables on the way to a page of the direct map. -/
theorem Block.index (block : Block base l) :
    vmmVirtToPml4Index (vmmPhysToVirt base) = Fin.ofNat 512 (pageOf base / 512 ^ 3) ∧
    vmmVirtToPdptIndex (vmmPhysToVirt base) = Fin.ofNat 512 (pageOf base / 512 ^ 2) ∧
    vmmVirtToPdIndex (vmmPhysToVirt base) = Fin.ofNat 512 (pageOf base / 512 ^ 1) ∧
    vmmVirtToPtIndex (vmmPhysToVirt base) = Fin.ofNat 512 (pageOf base / 512 ^ 0) := by
  obtain ⟨_, hfits⟩ := block.page
  have hvirt := @toNat_vmmPhysToVirt base (by omega)
  refine ⟨Fin.ext ?_, Fin.ext ?_, Fin.ext ?_, Fin.ext ?_⟩ <;>
    simp only [vmmVirtToPml4Index, vmmVirtToPdptIndex, vmmVirtToPdIndex, vmmVirtToPtIndex,
      tableIndex_val, BitVec.toNat_ushiftRight, Nat.shiftRight_eq_div_pow, hvirt, Fin.val_ofNat,
      pageOf] <;>
    omega

end Blocks

theorem vmmInitMapGigapage_ends (reads : fmt.Reads decode) (good : Good decode env m d)
    (filled : d.Filled 512) {base : BitVec 64} (block : Block base 2)
    (unmapped : d.Unmapped 2 (pageOf base)) (writeable : Bool) :
    Ends m 3 (vmmInitMapGigapage fmt env m base (regionFlags fmt writeable))
      (Mapped decode env d 2 (pageOf base) (base, writeable)) := by
  have hsize : gigaPageSize.toNat = 0x1000 * 512 ^ 2 := by decide
  have hpart := block.part
  have hleaf := reads.large 2 base writeable (by decide) (by decide) block.aligned block.isFrame
  have hpml4 := block.index.1
  have hpdpt := block.index.2.1
  rw [vmmInitMapGigapage, if_neg (block.not_refused hsize)]
  simp only [hpml4, hpdpt]
  apply @Ends.mono m (1 + (0 + 0)) 3 _ _ _ _ (by decide) (fun _ h => h)
  apply Ends.bind ((good.arrived filled unmapped).down reads (by decide) (by decide) hpart unmapped
    (by decide))
  rintro m1 ⟨d1, h1⟩
  apply Ends.bind (h1.write reads (by decide) hpart unmapped hleaf)
  intro m2 h2
  exact .ok h2.unmapAndFlush (Nat.le_refl _)

theorem vmmInitMapMegapage_ends (reads : fmt.Reads decode) (good : Good decode env m d)
    (filled : d.Filled 512) {base : BitVec 64} (block : Block base 1)
    (unmapped : d.Unmapped 1 (pageOf base)) (writeable : Bool) :
    Ends m 3 (vmmInitMapMegapage fmt env m base (regionFlags fmt writeable))
      (Mapped decode env d 1 (pageOf base) (base, writeable)) := by
  have hsize : megaPageSize.toNat = 0x1000 * 512 ^ 1 := by decide
  have hpart := block.part
  have hleaf := reads.large 1 base writeable (by decide) (by decide) block.aligned block.isFrame
  have hpml4 := block.index.1
  have hpdpt := block.index.2.1
  have hpd := block.index.2.2.1
  rw [vmmInitMapMegapage, if_neg (block.not_refused hsize)]
  simp only [hpml4, hpdpt, hpd]
  apply @Ends.mono m (1 + (1 + (0 + 0))) 3 _ _ _ _ (by decide) (fun _ h => h)
  apply Ends.bind ((good.arrived filled unmapped).down reads (by decide) (by decide) hpart unmapped
    (by decide))
  rintro m1 ⟨d1, h1⟩
  apply Ends.bind (h1.down reads (by decide) (by decide) hpart unmapped (by decide))
  rintro m2 ⟨d2, h2⟩
  apply Ends.bind (h2.write reads (by decide) hpart unmapped hleaf)
  intro m3 h3
  exact .ok h3.unmapAndFlush.unmapAndFlush (Nat.le_refl _)

theorem vmmInitMapPage_ends (reads : fmt.Reads decode) (good : Good decode env m d)
    (filled : d.Filled 512) {base : BitVec 64} (block : Block base 0)
    (unmapped : d.Unmapped 0 (pageOf base)) (writeable : Bool) :
    Ends m 3 (vmmInitMapPage fmt env m base (regionFlags fmt writeable))
      (Mapped decode env d 0 (pageOf base) (base, writeable)) := by
  have hsize : pageSize.toNat = 0x1000 * 512 ^ 0 := by decide
  have hpart := block.part
  have hleaf := reads.page base writeable block.isFrame
  have hpml4 := block.index.1
  have hpdpt := block.index.2.1
  have hpd := block.index.2.2.1
  have hpt := block.index.2.2.2
  rw [vmmInitMapPage, if_neg (block.not_refused hsize)]
  simp only [hpml4, hpdpt, hpd, hpt]
  apply @Ends.mono m (1 + (1 + (1 + (0 + 0)))) 3 _ _ _ _ (by decide) (fun _ h => h)
  apply Ends.bind ((good.arrived filled unmapped).down reads (by decide) (by decide) hpart unmapped
    (by decide))
  rintro m1 ⟨d1, h1⟩
  apply Ends.bind (h1.down reads (by decide) (by decide) hpart unmapped (by decide))
  rintro m2 ⟨d2, h2⟩
  apply Ends.bind (h2.down reads (by decide) (by decide) hpart unmapped (by decide))
  rintro m3 ⟨d3, h3⟩
  apply Ends.bind (h3.write reads (by decide) hpart unmapped hleaf)
  intro m4 h4
  exact .ok h4.unmapAndFlush.unmapAndFlush.unmapAndFlush (Nat.le_refl _)

end Pages

end DirectMap
