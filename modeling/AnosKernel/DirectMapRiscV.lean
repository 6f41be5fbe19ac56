import AnosKernel.DirectMapRegions

/-!
# The direct map on riscv64

`kernel/arch/riscv64/vmm/vmmapper_init.c`, for Sv48, where a leaf may be on every level. A region
has terapages too, but `vmm_init_map_terapage` takes the entry that it has read for the index of
the one to write. What `ensure_temp_page_tables` does is taken as given. The counts of pages are
not represented.
-/

namespace DirectMapRiscV

open VmMapper PageAlloc Directories DirectMap

def pgRead : BitVec 64 := 0x2
def pgWrite : BitVec 64 := 0x4
def pgExec : BitVec 64 := 0x8
def pgGlobal : BitVec 64 := 0x20

def teraPageSize : BitVec 64 := 0x8000000000

def vmmTableEntryToPhys (tableEntry : BitVec 64) : BitVec 64 := (tableEntry >>> 10) <<< 12

def vmmPhysAndFlagsToTableEntry (phys flags : BitVec 64) : BitVec 64 :=
  ((phys &&& 0xfffffffffffff000) >>> 2) ||| flags

/-- There is no page-size bit. -/
def format : Format where
  physAndFlagsToTableEntry := vmmPhysAndFlagsToTableEntry
  tableEntryToPhys := vmmTableEntryToPhys
  pgRead := pgRead
  pgWrite := pgWrite
  pgGlobal := pgGlobal
  pgPagesize := 0
  tableFlags := pgPresent

/-- `vmm_init_map_terapage`, which writes `pml4[pml4e]`. -/
def vmmInitMapTerapage (pml4 : BitVec 64) (m : Machine) (base : BitVec 64) (flags : BitVec 8) :
    Except Panic Machine :=
  if base + teraPageSize > maxPhysAddr then .ok m
  else
    let vaddr := vmmPhysToVirt base
    let pml4e := m.mem pml4 (vmmVirtToPml4Index vaddr)
    if h : pml4e.toNat < 512 then
      .ok (write m pml4 ⟨pml4e.toNat, h⟩ (vmmPhysAndFlagsToTableEntry base (flags.zeroExtend 64)))
    else .error .strayWrite

def terapageKind (pml4 : BitVec 64) : Kind where
  size := teraPageSize
  map := vmmInitMapTerapage pml4
  pos := by decide

@[simp] theorem terapageKind_size (pml4 : BitVec 64) : (terapageKind pml4).size = teraPageSize := rfl

@[simp] theorem terapageKind_map (pml4 : BitVec 64) :
    (terapageKind pml4).map = vmmInitMapTerapage pml4 := by
  rw [terapageKind]

def cleanupTempPageTables (m : Machine) (pml4 : BitVec 64) : Machine :=
  write (write (write m pml4 1 0) pml4 2 0) pml4 3 0

def vmmInitDirectMapping (ensureTempPageTables : Machine → Except Panic (BitVec 64 × Machine))
    (pml4 : BitVec 64) (memmap : List MemMapEntry) (m : Machine) : Except Panic Machine := do
  let (tempPt, m) ← ensureTempPageTables m
  let m ← mapEntries format (terapageKind pml4 :: commonKinds format ⟨pml4, tempPt⟩) m memmap
  return cleanupTempPageTables m pml4

/-! ## The walk of the hardware -/

/-- How an Sv48 walk reads an entry: with the read or the execute bit it is a leaf, which is
aligned to its size, and else it leads to a table. -/
def decode : Reader := fun l entry =>
  if entry = 0 then .absent
  else if entry &&& pgPresent = 0 ∨ entry >>> 54 ≠ 0 ∨
      (entry &&& pgRead = 0 ∧ entry &&& pgWrite ≠ 0) then .other
  else if entry &&& (pgRead ||| pgExec) ≠ 0 then
    if (vmmTableEntryToPhys entry).toNat % (0x1000 * 512 ^ l) = 0 then
      .leaf (vmmTableEntryToPhys entry, entry &&& pgWrite ≠ 0)
    else .other
  else .table (vmmTableEntryToPhys entry)

/-- The physical address that a virtual one is translated to, and if it can be written. -/
def translate (mem : BitVec 64 → Fin 512 → BitVec 64) (pml4 vaddr : BitVec 64) :
    Option (Nat × Bool) :=
  (walk 512 decode mem 3 pml4 (pageNumber vaddr)).map (translated vaddr)

section Reading

variable {f flags mask entry : BitVec 64} {l : Nat}

/-- A page-aligned address within the 56 bits that an entry has for it. -/
def IsWideFrame (f : BitVec 64) : Prop := f.toNat % 0x1000 = 0 ∧ f.toNat < 2 ^ 56

theorem wide_frame (frame : IsFrame f) : IsWideFrame f := by
  have hmask := Masks.toNat_and_field f 0x0000fffffffff000 12 48 (by decide) (by decide)
  have heq : (f &&& 0x0000fffffffff000).toNat = f.toNat := congrArg BitVec.toNat frame
  constructor
  · omega
  · omega

theorem toNat_address (f : BitVec 64) :
    ((f &&& 0xfffffffffffff000) >>> 2).toNat = 2 ^ 10 * (f.toNat / 0x1000) := by
  have hmask := Masks.toNat_and_high f 0xfffffffffffff000 12 (by decide) rfl
  rw [BitVec.toNat_ushiftRight, hmask, Nat.shiftRight_eq_div_pow]
  omega

/-- The address of an entry is above its flags. -/
theorem toNat_entry (f : BitVec 64) (low : flags.toNat < 2 ^ 10) :
    (vmmPhysAndFlagsToTableEntry f flags).toNat = 2 ^ 10 * (f.toNat / 0x1000) + flags.toNat := by
  rw [vmmPhysAndFlagsToTableEntry, BitVec.toNat_or, toNat_address]
  exact (Nat.two_pow_add_eq_or_of_lt low _).symm

theorem entry_phys (aligned : f.toNat % 0x1000 = 0) (low : flags.toNat < 2 ^ 10) :
    vmmTableEntryToPhys (vmmPhysAndFlagsToTableEntry f flags) = f := by
  have hentry := toNat_entry f low
  apply BitVec.eq_of_toNat_eq
  rw [vmmTableEntryToPhys, BitVec.toNat_shiftLeft, BitVec.toNat_ushiftRight, hentry,
    Nat.shiftRight_eq_div_pow, Nat.shiftLeft_eq]
  omega

/-- Bits of an entry that come from its flags. -/
theorem entry_low (low : mask &&& 0x3ff = mask) :
    vmmPhysAndFlagsToTableEntry f flags &&& mask = flags &&& mask := by
  have hzero : ((f &&& 0xfffffffffffff000) >>> 2) &&& mask = 0#64 := by
    have haddress := toNat_address f
    have hlow : ((f &&& 0xfffffffffffff000) >>> 2) &&& 0x3ff = 0#64 :=
      (Masks.and_low_eq_zero_iff (k := 10) rfl).mpr (by omega)
    rw [← low, BitVec.and_comm mask, ← BitVec.and_assoc, hlow, BitVec.zero_and]
  rw [vmmPhysAndFlagsToTableEntry, BitVec.and_or_distrib_right, hzero, BitVec.zero_or]

theorem entry_high (wide : IsWideFrame f) (low : flags.toNat < 2 ^ 10) :
    vmmPhysAndFlagsToTableEntry f flags >>> 54 = 0 := by
  have hentry := toNat_entry f low
  obtain ⟨_, hbelow⟩ := wide
  apply BitVec.eq_of_toNat_eq
  rw [BitVec.toNat_ushiftRight, hentry, Nat.shiftRight_eq_div_pow]
  change _ = 0
  omega

theorem decode_table (present : entry &&& pgPresent ≠ 0) (high : entry >>> 54 = 0)
    (readable : entry &&& (pgRead ||| pgExec) = 0) (writeable : entry &&& pgWrite = 0) :
    decode l entry = .table (vmmTableEntryToPhys entry) := by
  have hzero : entry ≠ 0 := by
    rintro rfl
    exact present (by decide)
  have hnot : ¬ (entry &&& pgPresent = 0 ∨ entry >>> 54 ≠ 0 ∨
      (entry &&& pgRead = 0 ∧ entry &&& pgWrite ≠ 0)) := by
    rintro (h | h | h)
    · exact present h
    · exact h high
    · exact h.2 writeable
  rw [decode, if_neg hzero, if_neg hnot, if_neg (not_not.mpr readable)]

theorem decode_leaf (present : entry &&& pgPresent ≠ 0) (high : entry >>> 54 = 0)
    (readable : entry &&& pgRead ≠ 0) (leaf : entry &&& (pgRead ||| pgExec) ≠ 0)
    (aligned : (vmmTableEntryToPhys entry).toNat % (0x1000 * 512 ^ l) = 0) :
    decode l entry = .leaf (vmmTableEntryToPhys entry, entry &&& pgWrite ≠ 0) := by
  have hzero : entry ≠ 0 := by
    rintro rfl
    exact present (by decide)
  have hnot : ¬ (entry &&& pgPresent = 0 ∨ entry >>> 54 ≠ 0 ∨
      (entry &&& pgRead = 0 ∧ entry &&& pgWrite ≠ 0)) := by
    rintro (h | h | h)
    · exact present h
    · exact h high
    · exact readable h.1
  rw [decode, if_neg hzero, if_neg hnot, if_pos leaf, if_pos aligned]

theorem decode_region {writeable : Bool} (frame : IsFrame f)
    (aligned : f.toNat % (0x1000 * 512 ^ l) = 0) :
    decode l (vmmPhysAndFlagsToTableEntry f ((regionFlags format writeable).zeroExtend 64)) =
      .leaf (f, writeable) := by
  have hlow : ((regionFlags format writeable).zeroExtend 64).toNat < 2 ^ 10 := by
    cases writeable <;> decide
  have hphys := entry_phys (wide_frame frame).1 hlow
  have hflags : ∀ mask : BitVec 64, mask &&& 0x3ff = mask →
      vmmPhysAndFlagsToTableEntry f ((regionFlags format writeable).zeroExtend 64) &&& mask =
        (regionFlags format writeable).zeroExtend 64 &&& mask :=
    fun mask low => entry_low low
  rw [decode_leaf, hphys, hflags pgWrite (by decide)]
  · cases writeable <;> rfl
  · rw [hflags pgPresent (by decide)]
    cases writeable <;> decide
  · exact entry_high (wide_frame frame) hlow
  · rw [hflags pgRead (by decide)]
    cases writeable <;> decide
  · rw [hflags (pgRead ||| pgExec) (by decide)]
    cases writeable <;> decide
  · rw [hphys]
    exact aligned

theorem format_reads : format.Reads decode where
  zero := fun l => if_pos rfl
  absent := by
    intro l e h
    rw [decode] at h
    split_ifs at h with hzero
    rw [hzero]
    decide
  present := by
    intro l e f h
    rw [decode] at h
    split_ifs at h with _ hnot
    exact fun hzero => hnot (Or.inl hzero)
  phys := by
    intro l e f h
    rw [decode] at h
    split_ifs at h
    exact Decoded.table.inj h
  window := fun f frame => entry_phys (wide_frame frame).1 (by decide)
  table := by
    intro l f _ frame
    change decode l (vmmPhysAndFlagsToTableEntry f pgPresent) = _
    have hphys : vmmTableEntryToPhys (vmmPhysAndFlagsToTableEntry f pgPresent) = f :=
      entry_phys (wide_frame frame).1 (by decide)
    have hflags : ∀ mask : BitVec 64, mask &&& 0x3ff = mask →
        vmmPhysAndFlagsToTableEntry f pgPresent &&& mask = pgPresent &&& mask :=
      fun mask low => entry_low low
    refine (decode_table ?_ (entry_high (wide_frame frame) (by decide)) ?_ ?_).trans (congrArg _ hphys)
    · rw [hflags pgPresent (by decide)]
      decide
    · rw [hflags (pgRead ||| pgExec) (by decide)]
      decide
    · rw [hflags pgWrite (by decide)]
      decide
  page := by
    intro base writeable frame
    apply decode_region frame
    have haligned := (wide_frame frame).1
    omega
  large := by
    intro l base writeable _ _ aligned frame
    have hleaf := @decode_region base l writeable frame aligned
    rwa [← @BitVec.or_zero 64 ((regionFlags format writeable).zeroExtend 64)] at hleaf

end Reading

/-! ## Terapages -/

section Terapages

variable {env : Env} {cover : Nat → Bool → Prop} {m : Machine} {base : BitVec 64}
  {flags : BitVec 8} {writeable : Bool} {l : Nat}

theorem eq_zero_of_absent {entry : BitVec 64} (h : decode l entry = .absent) : entry = 0 := by
  rw [decode] at h
  split_ifs at h with hzero
  exact hzero

/-- The entry of the terapage is empty, so that the first entry of the table is written instead. -/
theorem vmmInitMapTerapage_first (built : Built decode env cover m) (block : Block base 3)
    (free : ∀ n, n / 512 ^ 3 = pageOf base / 512 ^ 3 → ∀ w, ¬ cover n w) :
    vmmInitMapTerapage env.pml4 m base flags =
      .ok (write m env.pml4 0 (vmmPhysAndFlagsToTableEntry base (flags.zeroExtend 64))) := by
  obtain ⟨d, hgood, hfilled, hcovers⟩ := built
  have hunmapped := hcovers.unmapped free
  have habsent : d.entry 3 (pageOf base / 512 ^ 3) = .absent := by
    rw [entry_absent_iff, Option.eq_none_iff_forall_ne_some (o := d.leaf _ _)]
    exact ⟨hfilled.table_none hunmapped, fun a => hunmapped _ rfl 3 a⟩
  have hentry := hgood.holds 3 _ env.pml4 (Nat.le_refl 3) (if_pos rfl) (fun _ => block.part)
  have hzero := eq_zero_of_absent (hentry.trans habsent)
  have hindex := block.index.1
  have hsize : teraPageSize.toNat = 0x1000 * 512 ^ 3 := by decide
  rw [vmmInitMapTerapage, if_neg (block.not_refused hsize)]
  simp only [hindex, hzero]
  rfl

theorem terapage_serves : (terapageKind env.pml4).Serves decode env flags writeable 3 := by
  have hsize : teraPageSize.toNat = 0x1000 * 512 ^ 3 := by decide
  refine ⟨Nat.le_refl 3, hsize, ?_⟩
  intro m cover base built block free
  rw [terapageKind_map, vmmInitMapTerapage_first built block free]
  refine .ok ?_ (Nat.le_add_right _ 3)
  have hsame := built.writeRoot (i := 0)
    (e := vmmPhysAndFlagsToTableEntry base (flags.zeroExtend 64)) (fun h => absurd h.1 (by decide))
  apply hsame.congr
  intro n w
  simp

theorem picks (env : Env) (writeable : Bool) :
    Picks decode env (regionFlags format writeable) writeable True
      (terapageKind env.pml4 :: commonKinds format env) := by
  constructor
  intro base length aligned more
  by_cases htera : length ≥ teraPageSize ∧ base % teraPageSize = 0
  · refine ⟨terapageKind env.pml4, 3, ?_, terapage_serves, fun _ => trivial, ?_⟩
    · exact List.find?_cons_of_pos (by simpa using htera)
    · exact fun h => absurd rfl h
  · obtain ⟨kind, l, hnext, hserves, hl⟩ := commonKinds_next format_reads aligned more
    refine ⟨kind, l, ?_, hserves, fun _ => trivial, ?_⟩
    · exact (List.find?_cons_of_neg (by simpa using htera)).trans hnext
    · rintro _ _ ⟨hmod, hle⟩
      exact htera ⟨hle, BitVec.eq_of_toNat_eq hmod⟩

end Terapages

/-! ## When the direct map is exact -/

theorem cleanup_built {env : Env} {cover : Nat → Bool → Prop} {m : Machine}
    (built : Built decode env cover m) :
    Built decode env cover (cleanupTempPageTables m env.pml4) := by
  have houtside : ∀ i : Fin 512, i.val < 256 → ¬ part i.val := by
    intro i hi hpart
    exact absurd hpart.1 (by omega)
  have h1 := built.writeRoot (i := 1) (e := 0) (houtside 1 (by decide))
  have h2 := h1.writeRoot (i := 2) (e := 0) (houtside 2 (by decide))
  exact h2.writeRoot (houtside 3 (by decide))

section Run

variable {ensureTempPageTables : Machine → Except Panic (BitVec 64 × Machine)}
  {pml4 tempPt : BitVec 64} {memmap : List MemMapEntry} {m start : Machine}

/-- A run maps all but the terapages. -/
theorem vmmInitDirectMapping_built (sound : Sound memmap)
    (returned : ensureTempPageTables m = .ok (tempPt, start)) (ready : Ready ⟨pml4, tempPt⟩ start)
    (empty : ∀ i : Fin 512, part i.val → start.mem pml4 i = 0) :
    Ends start (3 * (memmap.map fun entry => pages entry.length).sum)
      (vmmInitDirectMapping ensureTempPageTables pml4 memmap m)
      (Built decode ⟨pml4, tempPt⟩ (mapCover True memmap)) := by
  have hends := mapEntries_ends (picks ⟨pml4, tempPt⟩) sound
    (ready.built fun i hi => if_pos (empty i hi)) (fun _ _ _ _ _ _ h => h)
  have hrun : vmmInitDirectMapping ensureTempPageTables pml4 memmap m =
      mapEntries format (terapageKind pml4 :: commonKinds format ⟨pml4, tempPt⟩) start memmap >>=
        fun last => .ok (cleanupTempPageTables last pml4) := by
    rw [vmmInitDirectMapping, returned]
    rfl
  rw [hrun]
  apply Ends.mono (hends.bind ?_) (Nat.le_of_eq (Nat.add_zero _)) (fun _ h => h)
  intro last hbuilt
  have hcover : Built decode ⟨pml4, tempPt⟩ (mapCover True memmap) last :=
    hbuilt.congr fun n w => iff_of_eq (false_or _)
  exact .ok (cleanup_built hcover) (Nat.le_add_right _ 0)

theorem exact_iff {final : Machine} (sound : Sound memmap)
    (built : Built decode ⟨pml4, tempPt⟩ (mapCover True memmap) final) :
    Exact memmap (translate final.mem pml4) ↔
      ∀ entry ∈ memmap, mappedType entry.type ≠ none → ¬ HasTerapage entry := by
  rw [built.exact_iff sound, true_imp_iff]
  intro p hbelow
  rw [translate, pageNumber_virt hbelow]

end Run

/-- A run that does not run out of memory ends with the direct map of the memory map if and only
if no entry for it has a whole terapage. -/
theorem vmmInitDirectMapping_exact_iff
    (ensureTempPageTables : Machine → Except Panic (BitVec 64 × Machine)) (pml4 tempPt : BitVec 64)
    (memmap : List MemMapEntry) (m start : Machine) (sound : Sound memmap)
    (returned : ensureTempPageTables m = .ok (tempPt, start)) (ready : Ready ⟨pml4, tempPt⟩ start)
    (empty : ∀ i : Fin 512, part i.val → start.mem pml4 i = 0)
    (memory : vmmInitDirectMapping ensureTempPageTables pml4 memmap m ≠ .error .outOfMemory) :
    (∃ final, vmmInitDirectMapping ensureTempPageTables pml4 memmap m = .ok final ∧
        Exact memmap (translate final.mem pml4)) ↔
      ∀ entry ∈ memmap, mappedType entry.type ≠ none → ¬ HasTerapage entry := by
  have hends := vmmInitDirectMapping_built sound returned ready empty
  generalize vmmInitDirectMapping ensureTempPageTables pml4 memmap m = result at hends memory
  cases hends with
  | outOfMemory _ => exact absurd rfl memory
  | @ok final _ hbuilt _ =>
    rw [← exact_iff sound hbuilt]
    constructor
    · rintro ⟨final', hsame, hexact⟩
      obtain rfl := Except.ok.inj hsame
      exact hexact
    · exact fun h => ⟨final, rfl, h⟩

/-- `ensure_temp_page_tables` where only the page table is missing, in the directory `pd`. -/
def addTempPageTable (pml4 pd : BitVec 64) (m : Machine) : BitVec 64 × Machine :=
  let (ptPhys, region) := pageAlloc m.region
  let m := write { m with region := region } pml4 3 (vmmPhysAndFlagsToTableEntry
    (ptPhys &&& ~~~(teraPageSize - 1)) (pgRead ||| pgWrite ||| pgPresent))
  let m := write (clearTable m ptPhys) pd 2 (vmmPhysAndFlagsToTableEntry ptPhys pgPresent)
  (ptPhys, write (write m pml4 1 0) pml4 2 0)

/-- The top-level table is at 0x1000, and the directory for the temporary pages at 0x4000. -/
def bootMachine : Machine where
  mem := setEntry (setEntry (fun _ _ => 0) 0x1000 511 0xc01) 0x3000 510 0x1001
  region := { size := 0x7000, free := 0x7000, stack := [{ base := 0x10000, size := 7 }] }

def loopStart : Machine := (addTempPageTable 0x1000 0x4000 bootMachine).2

theorem loopStart_ready : Ready ⟨0x1000, 0x10000⟩ loopStart := by
  have hpages : freePages loopStart.region =
      [0x11000, 0x12000, 0x13000, 0x14000, 0x15000, 0x16000] := by decide
  have hstack : loopStart.region.stack = [{ base := 0x11000, size := 6 }] := rfl
  constructor
  · rw [WellSized, hstack]
    simp
  · rw [hpages]
    decide
  · rw [hpages]
    simp [IsFrame, VmMapper.vmmTableEntryToPhys]
  · rw [hpages]
    simp
  · decide

theorem loopStart_empty : ∀ i : Fin 512, part i.val → loopStart.mem 0x1000 i = 0 := by
  rintro i ⟨hlow, hhigh⟩
  have hone : i ≠ 1 := fun h => absurd hlow (by rw [h]; decide)
  have htwo : i ≠ 2 := fun h => absurd hlow (by rw [h]; decide)
  have hthree : i ≠ 3 := fun h => absurd hlow (by rw [h]; decide)
  have hlast : i ≠ 511 := fun h => absurd hhigh (by rw [h]; decide)
  simp [loopStart, addTempPageTable, bootMachine, pageAlloc, clearTable, write, setEntry, hone,
    htwo, hthree, hlast]

theorem vmmInitDirectMapping_exact_iff_twoPages :
    ∃ final, vmmInitDirectMapping (fun m => .ok (addTempPageTable 0x1000 0x4000 m)) 0x1000 twoPages
      bootMachine = .ok final ∧ Exact twoPages (translate final.mem 0x1000) := by
  have hends := @vmmInitDirectMapping_built (fun m => .ok (addTempPageTable 0x1000 0x4000 m)) 0x1000
    0x10000 twoPages bootMachine loopStart twoPages_sound rfl loopStart_ready loopStart_empty
  apply (vmmInitDirectMapping_exact_iff _ 0x1000 0x10000 twoPages bootMachine loopStart
    twoPages_sound rfl loopStart_ready loopStart_empty (hends.enough (by decide))).mpr
  have hlength : ∀ entry ∈ twoPages, entry.length.toNat = 0x1000 := by decide
  rintro entry hentry _ ⟨t, hlow, hhigh⟩
  have hshort := hlength entry hentry
  omega

/-- Memory of 512 GiB. -/
def oneTerapage : List MemMapEntry := [⟨0, 0x8000000000, .usable, by decide⟩]

theorem oneTerapage_sound : Sound oneTerapage where
  fits := by
    intro entry h
    obtain rfl := List.mem_singleton.mp h
    exact ⟨by decide, by decide, by decide⟩
  apart := List.pairwise_singleton _ _

/-- The first entry of the top-level table is written for it, and the direct map stays empty. -/
theorem oneTerapage_not_mapped :
    ∃ final, vmmInitDirectMapping (fun m => .ok (addTempPageTable 0x1000 0x4000 m)) 0x1000
        oneTerapage bootMachine = .ok final ∧
      ¬ Exact oneTerapage (translate final.mem 0x1000) := by
  -- the loop has one turn
  have hbuilt : Built decode ⟨0x1000, 0x10000⟩ (fun _ _ => False) loopStart :=
    loopStart_ready.built fun i hi => if_pos (loopStart_empty i hi)
  have hentry : vmmPhysAndFlagsToTableEntry 0 ((regionFlags format true).zeroExtend 64) = 0x27 := by
    decide
  have hblock : Block 0 3 := ⟨by decide, by decide⟩
  have hmap := @vmmInitMapTerapage_first ⟨0x1000, 0x10000⟩ _ loopStart 0 (regionFlags format true)
    hbuilt hblock fun _ _ _ h => h
  rw [hentry] at hmap
  have hnext : nextKind (terapageKind 0x1000 :: commonKinds format ⟨0x1000, 0x10000⟩) 0
      0x8000000000 = some (terapageKind 0x1000) := List.find?_cons_of_pos (by decide)
  have hregion : mapRegionLoop (terapageKind 0x1000 :: commonKinds format ⟨0x1000, 0x10000⟩)
      (regionFlags format true) loopStart 0 0x8000000000 = .ok (write loopStart 0x1000 0 0x27) := by
    rw [mapRegionLoop_next (by decide) hnext, terapageKind_map, hmap]
    exact mapRegionLoop_zero _
  have hrun : vmmInitDirectMapping (fun m => .ok (addTempPageTable 0x1000 0x4000 m)) 0x1000
      oneTerapage bootMachine =
        .ok (cleanupTempPageTables (write loopStart 0x1000 0 0x27) 0x1000) := by
    have hentries : mapEntries format (terapageKind 0x1000 :: commonKinds format
        ⟨0x1000, 0x10000⟩) loopStart oneTerapage = .ok (write loopStart 0x1000 0 0x27) := by
      rw [oneTerapage, mapEntries_cons]
      simp only [mappedType, vmmInitMapRegion]
      rw [hregion]
      rfl
    have hstart : addTempPageTable 0x1000 0x4000 bootMachine = (0x10000, loopStart) := rfl
    rw [vmmInitDirectMapping, hstart]
    change mapEntries format _ loopStart oneTerapage >>= _ = _
    rw [hentries]
    rfl
  have hends := @vmmInitDirectMapping_built (fun m => .ok (addTempPageTable 0x1000 0x4000 m)) 0x1000
    0x10000 oneTerapage bootMachine loopStart oneTerapage_sound rfl loopStart_ready loopStart_empty
  rw [hrun] at hends ⊢
  refine ⟨_, rfl, ?_⟩
  cases hends with
  | ok hbuilt _ =>
    rw [exact_iff oneTerapage_sound hbuilt]
    intro h
    exact h _ List.mem_cons_self (by decide) ⟨0, by decide, by decide⟩

end DirectMapRiscV
