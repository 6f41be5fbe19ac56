import AnosKernel.Lib.Walks
import AnosKernel.DirectMapRiscV

/-!
# The tables of the bootloader on riscv64

`kernel/arch/riscv64/entrypoints/limine_entrypoint.c`. Before the kernel has tables of its own it
walks those of the bootloader, and it maps pages in tables that are there. The direct map of the
bootloader is at `direct_map_base`; memory is read by page-aligned table and index.
-/

namespace EntryWalk

open VmMapper (vmmVirtToTableIndex tableIndex_val pgPresent setEntry)
open DirectMapRiscV Directories

abbrev Memory := BitVec 64 → Fin 512 → BitVec 64

structure VmmPage where
  physAddr : BitVec 64
  pageFlags : BitVec 16
  pageSize : BitVec 64
  deriving DecidableEq

def vmmTableEntryToPageFlags (tableEntry : BitVec 64) : BitVec 16 :=
  (tableEntry &&& 0x3ff).setWidth 16

def vmmLevelPageSize (level : Nat) : BitVec 64 :=
  (0x1000 : BitVec 64) <<< (9 * (level - 1))

def satpModeMaxLevels : Nat := 6

/-- The loop, with the levels that are left. -/
def sizeLevel (pageSize : BitVec 64) : Nat → BitVec 64 → Nat → Option Nat
  | left, size, level =>
    if pageSize > size then
      match left with
      | 0 => none
      | left + 1 => sizeLevel pageSize left (size <<< 9) (level + 1)
    else if pageSize = size then some level
    else none

def vmmPageSizeToLevel (pageSize : BitVec 64) : Option Nat :=
  if pageSize < 0x1000 ∨ pageSize &&& (pageSize - 1) ≠ 0 then none
  else sizeLevel pageSize satpModeMaxLevels 0x1000 0

def vmmMmuModeToTableLevels (mmuMode : BitVec 8) : Option Nat :=
  if mmuMode = 0 then some 0
  else if mmuMode = 11 then some 6
  else if mmuMode = 10 then some 5
  else if mmuMode = 9 then some 4
  else if mmuMode = 8 then some 3
  else none

def pageFlagsLeaf : BitVec 64 := pgRead ||| pgWrite ||| pgExec

section Code

variable (mem : Memory) (directMapBase virtAddr : BitVec 64)

/-- An entry of the table at a virtual address. -/
def tableEntry (currentTable : BitVec 64) (index : Fin 512) : BitVec 64 :=
  mem (currentTable - directMapBase) index

def vmmTableWalkLevels : Nat → BitVec 64 → Option VmmPage
  | 0, _ => none
  | levels + 1, currentTable =>
    let currentEntry :=
      tableEntry mem directMapBase currentTable (vmmVirtToTableIndex virtAddr (levels + 1))
    if currentEntry &&& pgPresent = 0 then none
    else if currentEntry &&& pageFlagsLeaf ≠ 0 then
      some ⟨vmmTableEntryToPhys currentEntry, vmmTableEntryToPageFlags currentEntry,
        vmmLevelPageSize (levels + 1)⟩
    else vmmTableWalkLevels levels (vmmTableEntryToPhys currentEntry + directMapBase)

def vmmTableWalkMode (mmuMode : BitVec 8) (rootTablePhys : BitVec 64) : Option VmmPage :=
  match vmmMmuModeToTableLevels mmuMode with
  | none => none
  | some 0 => some ⟨virtAddr, (pgPresent ||| pageFlagsLeaf).setWidth 16, 0x1000⟩
  | some (levels + 1) =>
    vmmTableWalkLevels mem directMapBase virtAddr (levels + 1) (rootTablePhys + directMapBase)

/-- The loop of `vmm_map_page_no_alloc`, which gives the table for the target level. -/
def targetTable (targetLevel : Nat) : Nat → BitVec 64 → Option (BitVec 64)
  | 0, currentTable => some currentTable
  | levels + 1, currentTable =>
    if levels + 1 > targetLevel + 1 then
      let currentEntry :=
        tableEntry mem directMapBase currentTable (vmmVirtToTableIndex virtAddr (levels + 1))
      if currentEntry &&& pgPresent = 0 then none
      else if currentEntry &&& pageFlagsLeaf ≠ 0 then none
      else targetTable targetLevel levels (vmmTableEntryToPhys currentEntry + directMapBase)
    else some currentTable

/-- The entry that is written for a page. -/
def pageEntry (page : VmmPage) : BitVec 64 :=
  vmmPhysAndFlagsToTableEntry page.physAddr (page.pageFlags.setWidth 64 ||| pgPresent)

/-- None is a call that fails; nothing is written in one. -/
def vmmMapPageNoAlloc (mmuMode : BitVec 8) (rootTablePhys : BitVec 64) (page : VmmPage) :
    Option Memory :=
  match vmmMmuModeToTableLevels mmuMode with
  | none => none
  | some 0 => some mem
  | some (levels + 1) =>
    match vmmPageSizeToLevel page.pageSize with
    | none => none
    | some targetLevel =>
      if targetLevel ≥ levels + 1 then none
      else
        (targetTable mem directMapBase virtAddr targetLevel (levels + 1)
          (rootTablePhys + directMapBase)).map fun currentTable =>
            setEntry mem (currentTable - directMapBase)
              (vmmVirtToTableIndex virtAddr (targetLevel + 1)) (pageEntry page)

end Code

/-! ## Virtual addresses -/

/-- The modes with tables. -/
inductive Paging where
  | sv39
  | sv48
  | sv57
  | sv64
  deriving DecidableEq

def Paging.satpMode : Paging → BitVec 8
  | .sv39 => 8
  | .sv48 => 9
  | .sv57 => 10
  | .sv64 => 11

/-- The level of the root table, counted from zero. -/
def Paging.top : Paging → Nat
  | .sv39 => 2
  | .sv48 => 3
  | .sv57 => 4
  | .sv64 => 5

/-- In an address of the mode the bits above those that are translated repeat the last of these. -/
def Canonical (paging : Paging) (addr : BitVec 64) : Prop :=
  addr.toNat < 2 ^ (9 * paging.top + 20) ∨ 2 ^ 64 - 2 ^ (9 * paging.top + 20) ≤ addr.toNat

structure VirtualAddress (paging : Paging) where
  addr : BitVec 64
  canonical : Canonical paging addr

def page (addr : BitVec 64) : Nat := addr.toNat / 0x1000

/-- The physical address that the hardware translates a virtual one to. -/
def translate (paging : Paging) (mem : Memory) (root addr : BitVec 64) : Option Nat :=
  (walk 512 decode mem paging.top root (page addr)).map fun (l, frame, _) =>
    frame.toNat + addr.toNat % (0x1000 * 512 ^ l)

/-- The address that is taken for a static table is the one that the hardware finds. -/
def FoundRight (paging : Paging) (mem : Memory) (directMapBase root : BitVec 64)
    (virt : VirtualAddress paging) : Prop :=
  ∀ phys, translate paging mem root virt.addr = some phys →
    ∃ found, vmmTableWalkMode mem directMapBase virt.addr paging.satpMode root = some found ∧
      found.physAddr.toNat = phys

/-- Both addresses lie in one page of a size. -/
def SamePage (size : BitVec 64) (addr addr' : BitVec 64) : Prop :=
  addr.toNat / size.toNat = addr'.toNat / size.toNat

/-- After a page was mapped, walks of its addresses find it, and others are as before. -/
def MapsRight (paging : Paging) (mem : Memory) (directMapBase root : BitVec 64)
    (virt : VirtualAddress paging) (page : VmmPage) : Prop :=
  ∀ mem', vmmMapPageNoAlloc mem directMapBase virt.addr paging.satpMode root page = some mem' →
    page.pageFlags.setWidth 64 &&& pageFlagsLeaf ≠ 0 →
      (∀ other : VirtualAddress paging, SamePage page.pageSize other.addr virt.addr →
        vmmTableWalkMode mem' directMapBase other.addr paging.satpMode root =
          some ⟨page.physAddr, page.pageFlags ||| 1, page.pageSize⟩) ∧
      ∀ other : VirtualAddress paging, ¬ SamePage page.pageSize other.addr virt.addr →
        vmmTableWalkMode mem' directMapBase other.addr paging.satpMode root =
          vmmTableWalkMode mem directMapBase other.addr paging.satpMode root

/-! ## How entries are read -/

/-- What the walk makes of an entry; a leaf is kept as it is. -/
def read : Nat → BitVec 64 → Decoded (BitVec 64) (BitVec 64) := fun _ entry =>
  if entry &&& pgPresent = 0 then .absent
  else if entry &&& pageFlagsLeaf ≠ 0 then .leaf entry
  else .table (vmmTableEntryToPhys entry)

/-- The page of a leaf. -/
def leafPage : Nat × BitVec 64 → VmmPage
  | (l, entry) =>
    ⟨vmmTableEntryToPhys entry, vmmTableEntryToPageFlags entry, vmmLevelPageSize (l + 1)⟩

/-- The leaf that the hardware comes to starts with the address. -/
def LeafStart (paging : Paging) (mem : Memory) (root : BitVec 64) (virt : VirtualAddress paging) :
    Prop :=
  ∀ l leaf, walk 512 decode mem paging.top root (page virt.addr) = some (l, leaf) →
    virt.addr.toNat % (0x1000 * 512 ^ l) = 0

/-- The address and the flags fit in an entry, no table above has the entry that is written, and
the walk of an address outside the page does not come to that entry, unless it is the same. -/
structure EntryFits (paging : Paging) (mem : Memory) (root : BitVec 64)
    (virt : VirtualAddress paging) (page' : VmmPage) (t : Nat) (table : BitVec 64) : Prop where
  aligned : page'.physAddr.toNat % 0x1000 = 0
  flags : page'.pageFlags.toNat < 0x400
  once : firstRead 512 read mem table (vmmVirtToTableIndex virt.addr (t + 1)) paging.top root
    (page virt.addr) = some t
  outside : ∀ (other : VirtualAddress paging) (k : Nat),
    ¬ SamePage page'.pageSize other.addr virt.addr →
    firstRead 512 read mem table (vmmVirtToTableIndex virt.addr (t + 1)) paging.top root
      (page other.addr) = some k →
    vmmTableEntryToPhys (mem table (vmmVirtToTableIndex virt.addr (t + 1))) = page'.physAddr ∧
      vmmTableEntryToPageFlags (mem table (vmmVirtToTableIndex virt.addr (t + 1))) =
        page'.pageFlags ||| 1

/-- A page that can be mapped, with the read, the write or the execute flag, has an entry that
fits. -/
def MapFits (paging : Paging) (mem : Memory) (root : BitVec 64) (virt : VirtualAddress paging)
    (page' : VmmPage) : Prop :=
  ∀ t table, vmmPageSizeToLevel page'.pageSize = some t →
    tableOn 512 read mem t paging.top root (page virt.addr) = some table →
    page'.pageFlags.setWidth 64 &&& pageFlagsLeaf ≠ 0 →
      EntryFits paging mem root virt page' t table

section Reading

variable {mem : Memory} {directMapBase root addr entry x : BitVec 64} {paging : Paging} {l k t : Nat}

theorem levels_satpMode (paging : Paging) :
    vmmMmuModeToTableLevels paging.satpMode = some (paging.top + 1) := by
  cases paging <;> rfl

theorem top_le (paging : Paging) : paging.top ≤ 5 := by
  cases paging <;> decide

theorem tableIndex_page (addr : BitVec 64) (l : Nat) :
    vmmVirtToTableIndex addr (l + 1) = Fin.ofNat 512 (page addr / 512 ^ l) := by
  apply Fin.ext
  have hpow : (0x1000 * 512 ^ l : Nat) = 2 ^ (9 * l + 12) := by
    rw [Nat.pow_add, Nat.pow_mul, Nat.mul_comm]
  rw [VmMapper.index_eq, page, Nat.div_div_eq_div_mul, hpow]
  rfl

/-- A table is found at its place in the direct map. -/
theorem tableEntry_mapped (index : Fin 512) :
    tableEntry mem directMapBase (root + directMapBase) index = mem root index := by
  rw [tableEntry, BitVec.add_sub_cancel]

theorem vmmTableWalkLevels_eq :
    vmmTableWalkLevels mem directMapBase addr (l + 1) (root + directMapBase) =
      (walk 512 read mem l root (page addr)).map leafPage := by
  induction l generalizing root with
  | zero =>
    rw [vmmTableWalkLevels, tableEntry_mapped, tableIndex_page, pow_zero, Nat.div_one, walk, read]
    by_cases hpresent : mem root (Fin.ofNat 512 (page addr)) &&& pgPresent = 0
    · rw [if_pos hpresent, if_pos hpresent]
      rfl
    · rw [if_neg hpresent, if_neg hpresent]
      by_cases hleaf : mem root (Fin.ofNat 512 (page addr)) &&& pageFlagsLeaf ≠ 0
      · rw [if_pos hleaf, if_pos hleaf]
        rfl
      · rw [if_neg hleaf, if_neg hleaf]
        rfl
  | succ l ih =>
    rw [vmmTableWalkLevels, tableEntry_mapped, tableIndex_page, walk, read]
    by_cases hpresent : mem root (Fin.ofNat 512 (page addr / 512 ^ (l + 1))) &&& pgPresent = 0
    · rw [if_pos hpresent, if_pos hpresent]
      rfl
    · rw [if_neg hpresent, if_neg hpresent]
      by_cases hleaf : mem root (Fin.ofNat 512 (page addr / 512 ^ (l + 1))) &&& pageFlagsLeaf ≠ 0
      · rw [if_pos hleaf, if_pos hleaf]
        rfl
      · rw [if_neg hleaf, if_neg hleaf]
        exact ih

theorem vmmTableWalkMode_eq : vmmTableWalkMode mem directMapBase addr paging.satpMode root =
    (walk 512 read mem paging.top root (page addr)).map leafPage := by
  rw [vmmTableWalkMode, levels_satpMode]
  exact vmmTableWalkLevels_eq

/-- What leads to a table for the hardware, does so for the walk. -/
theorem read_of_table {f : BitVec 64} (h : decode l entry = .table f) : read l entry = .table f := by
  rw [decode] at h
  split_ifs at h with hzero hbad hleaf haligned
  obtain rfl := Decoded.table.inj h
  have hpresent : entry &&& pgPresent ≠ 0 := fun h => hbad (Or.inl h)
  have hread : entry &&& (pgRead ||| pgExec) = 0 := not_not.mp hleaf
  have hreadable : entry &&& pgRead = 0 := by
    rw [show pgRead = (pgRead ||| pgExec) &&& pgRead by decide, ← BitVec.and_assoc, hread]
    exact BitVec.zero_and
  have hwrite : entry &&& pgWrite = 0 :=
    not_not.mp fun h => hbad (Or.inr (Or.inr ⟨hreadable, h⟩))
  have hflags : entry &&& pageFlagsLeaf = 0 := by
    have hsplit : entry &&& pageFlagsLeaf = (entry &&& (pgRead ||| pgExec)) ||| (entry &&& pgWrite) := by
      rw [← BitVec.and_or_distrib_left]
      rfl
    rw [hsplit, hread, hwrite]
    rfl
  rw [read, if_neg hpresent, if_neg (not_not.mpr hflags)]

theorem read_of_leaf {leaf : BitVec 64 × Bool} (h : decode l entry = .leaf leaf) :
    ∃ kept, read l entry = .leaf kept ∧ vmmTableEntryToPhys kept = leaf.1 := by
  rw [decode] at h
  split_ifs at h with hzero hbad hleaf haligned
  obtain rfl := Decoded.leaf.inj h
  have hpresent : entry &&& pgPresent ≠ 0 := fun h => hbad (Or.inl h)
  have hflags : entry &&& pageFlagsLeaf ≠ 0 := by
    intro hzero
    apply hleaf
    rw [show pgRead ||| pgExec = pageFlagsLeaf &&& (pgRead ||| pgExec) by decide,
      ← BitVec.and_assoc, hzero]
    exact BitVec.zero_and
  exact ⟨entry, by rw [read, if_neg hpresent, if_pos hflags], rfl⟩

/-- The address that is taken is right just for the start of a leaf. -/
theorem foundRight_iff {virt : VirtualAddress paging} :
    FoundRight paging mem directMapBase root virt ↔ LeafStart paging mem root virt := by
  have hfound : ∀ l leaf, walk 512 decode mem paging.top root (page virt.addr) = some (l, leaf) →
      ∃ found, vmmTableWalkMode mem directMapBase virt.addr paging.satpMode root = some found ∧
        found.physAddr = leaf.1 := by
    intro l leaf hwalk
    have hkept : ∃ kept, walk 512 read mem paging.top root (page virt.addr) = some (l, kept) ∧
        vmmTableEntryToPhys kept = leaf.1 :=
      walk_reading (fun _ _ _ => read_of_table) (fun _ _ _ => read_of_leaf) hwalk
    obtain ⟨kept, hkept, hphys⟩ := hkept
    exact ⟨leafPage (l, kept), by rw [vmmTableWalkMode_eq, hkept, Option.map_some], hphys⟩
  constructor
  · intro h l leaf hwalk
    obtain ⟨found, hmode, hphys⟩ := hfound l leaf hwalk
    obtain ⟨found', hmode', hright⟩ := h _ (by rw [translate, hwalk, Option.map_some])
    rw [hmode, Option.some.injEq] at hmode'
    rw [← hmode', hphys] at hright
    exact Nat.left_eq_add.mp hright
  · intro h phys htranslate
    rw [translate, Option.map_eq_some_iff] at htranslate
    obtain ⟨⟨l, leaf⟩, hwalk, rfl⟩ := htranslate
    obtain ⟨found, hmode, hphys⟩ := hfound l leaf hwalk
    refine ⟨found, hmode, ?_⟩
    dsimp only
    rw [hphys, h l leaf hwalk, Nat.add_zero]

end Reading

/-! ## Mapping a page -/

section Mapping

variable {mem mem' : Memory} {directMapBase root addr entry flags table size : BitVec 64}
  {paging : Paging} {virt : VirtualAddress paging} {page' : VmmPage} {l k t : Nat}

theorem tableOn_level {g : BitVec 64} (h : tableOn 512 read mem t l root (page addr) = some g) :
    t ≤ l := by
  obtain ⟨k, hk, hle⟩ := firstRead_of_tableOn h
  exact Nat.le_trans hle (firstRead_level hk)

theorem targetTable_eq (le : t ≤ l) :
    targetTable mem directMapBase addr t (l + 1) (root + directMapBase) =
      (tableOn 512 read mem t l root (page addr)).map (· + directMapBase) := by
  induction l generalizing root with
  | zero =>
    obtain rfl := Nat.le_zero.mp le
    rw [targetTable, if_neg (Nat.lt_irrefl _), tableOn, if_pos rfl, Option.map_some]
  | succ l ih =>
    rw [targetTable, tableOn, tableEntry_mapped, tableIndex_page]
    by_cases htarget : t = l + 1
    · rw [if_neg (by omega), if_pos htarget, Option.map_some]
    · rw [if_pos (by omega), if_neg htarget, read]
      by_cases hpresent : mem root (Fin.ofNat 512 (page addr / 512 ^ (l + 1))) &&& pgPresent = 0
      · rw [if_pos hpresent, if_pos hpresent]
        rfl
      · rw [if_neg hpresent, if_neg hpresent]
        by_cases hleaf : mem root (Fin.ofNat 512 (page addr / 512 ^ (l + 1))) &&& pageFlagsLeaf ≠ 0
        · rw [if_pos hleaf, if_pos hleaf]
          rfl
        · rw [if_neg hleaf, if_neg hleaf]
          exact ih (by omega)

/-- A page is mapped where there is a table for its level, by writing one entry. -/
theorem vmmMapPageNoAlloc_eq_some :
    vmmMapPageNoAlloc mem directMapBase addr paging.satpMode root page' = some mem' ↔
      ∃ t table, vmmPageSizeToLevel page'.pageSize = some t ∧
        tableOn 512 read mem t paging.top root (page addr) = some table ∧
        setEntry mem table (vmmVirtToTableIndex addr (t + 1)) (pageEntry page') = mem' := by
  rw [vmmMapPageNoAlloc, levels_satpMode]
  dsimp only
  cases hlevel : vmmPageSizeToLevel page'.pageSize with
  | none => simp
  | some t =>
    dsimp only
    by_cases htop : t ≤ paging.top
    · rw [if_neg (by omega), targetTable_eq htop, Option.map_map]
      cases htable : tableOn 512 read mem t paging.top root (page addr) with
      | none => simp [htable]
      | some table => simp [htable, BitVec.add_sub_cancel]
    · rw [if_pos (by omega)]
      refine iff_of_false (fun h => Option.some_ne_none _ h.symm) ?_
      rintro ⟨t', table, ht', htable, _⟩
      obtain rfl := Option.some.inj ht'
      exact htop (tableOn_level htable)

theorem sizeLevel_size {left : Nat}
    (h : sizeLevel size left (vmmLevelPageSize (l + 1)) l = some t) :
    size = vmmLevelPageSize (t + 1) := by
  induction left generalizing l with
  | zero =>
    rw [sizeLevel] at h
    split_ifs at h with hgreater hsize
    rw [hsize, Option.some.inj h]
  | succ left ih =>
    rw [sizeLevel] at h
    split_ifs at h with hgreater hsize
    · apply ih
      have hnext : vmmLevelPageSize (l + 1) <<< 9 = vmmLevelPageSize (l + 1 + 1) := by
        rw [vmmLevelPageSize, vmmLevelPageSize, ← BitVec.shiftLeft_add]
        rfl
      rwa [hnext] at h
    · rw [hsize, Option.some.inj h]

theorem vmmPageSizeToLevel_size (h : vmmPageSizeToLevel size = some t) :
    size = vmmLevelPageSize (t + 1) := by
  rw [vmmPageSizeToLevel] at h
  split_ifs at h
  exact sizeLevel_size (l := 0) h

theorem toNat_vmmLevelPageSize (le : l ≤ 5) :
    (vmmLevelPageSize (l + 1)).toNat = 0x1000 * 512 ^ l := by
  obtain rfl | rfl | rfl | rfl | rfl | rfl :
      l = 0 ∨ l = 1 ∨ l = 2 ∨ l = 3 ∨ l = 4 ∨ l = 5 := by omega
  all_goals rfl

/-- The size of a page tells its level. -/
theorem vmmLevelPageSize_inj (hl : l ≤ 5) (hk : k ≤ 5)
    (same : vmmLevelPageSize (l + 1) = vmmLevelPageSize (k + 1)) : l = k := by
  have hsize := congrArg BitVec.toNat same
  rw [toNat_vmmLevelPageSize hl, toNat_vmmLevelPageSize hk] at hsize
  exact Nat.pow_right_injective (by decide) (Nat.eq_of_mul_eq_mul_left (by decide) hsize)

/-- An entry is a leaf if it has the low bits of flags with one of the three set. -/
theorem read_leaf (low : entry &&& 0xf = (flags ||| 1) &&& 0xf)
    (leaf : flags &&& pageFlagsLeaf ≠ 0) : read k entry = .leaf entry := by
  have hmask : ∀ mask : BitVec 64, 0xf &&& mask = mask →
      entry &&& mask = (flags ||| 1) &&& mask := by
    intro mask hlow
    rw [← hlow, ← BitVec.and_assoc, low, BitVec.and_assoc]
  have hpresent : entry &&& pgPresent ≠ 0 := by
    rw [hmask pgPresent (by decide), BitVec.and_or_distrib_right]
    intro hzero
    exact absurd (BitVec.or_eq_zero_iff.mp hzero).2 (by decide)
  have hleaf : entry &&& pageFlagsLeaf ≠ 0 := by
    rw [hmask pageFlagsLeaf (by decide), BitVec.and_or_distrib_right]
    exact fun hzero => leaf (BitVec.or_eq_zero_iff.mp hzero).1
  rw [read, if_neg hpresent, if_pos hleaf]

theorem read_kept {kept : BitVec 64} (h : read k entry = .leaf kept) : kept = entry := by
  rw [read] at h
  split_ifs at h
  exact (Decoded.leaf.inj h).symm

theorem read_pageEntry (leaf : page'.pageFlags.setWidth 64 &&& pageFlagsLeaf ≠ 0) :
    read k (pageEntry page') = .leaf (pageEntry page') :=
  read_leaf (entry_low (by decide)) leaf

theorem toNat_pageFlags (entry : BitVec 64) :
    (vmmTableEntryToPageFlags entry).toNat = entry.toNat % 0x400 := by
  have hlow : (entry &&& 0x3ff).toNat = entry.toNat % 2 ^ 10 := Masks.toNat_and_low entry _ 10 rfl
  rw [vmmTableEntryToPageFlags, BitVec.toNat_setWidth, hlow]
  omega

theorem low_pageFlags (entry : BitVec 64) :
    (vmmTableEntryToPageFlags entry).setWidth 64 = entry &&& 0x3ff := by
  apply BitVec.eq_of_toNat_eq
  have hlow : (entry &&& 0x3ff).toNat = entry.toNat % 2 ^ 10 := Masks.toNat_and_low entry _ 10 rfl
  rw [BitVec.toNat_setWidth, toNat_pageFlags, hlow]
  omega

/-- An entry that reads as a page is a leaf. -/
theorem read_of_pageFlags (same : vmmTableEntryToPageFlags entry = page'.pageFlags ||| 1)
    (leaf : page'.pageFlags.setWidth 64 &&& pageFlagsLeaf ≠ 0) : read k entry = .leaf entry := by
  apply read_leaf _ leaf
  have hlow := low_pageFlags entry
  rw [same, BitVec.setWidth_or] at hlow
  rw [show (0xf : BitVec 64) = 0x3ff &&& 0xf by decide, ← BitVec.and_assoc, ← hlow]
  rfl

theorem flags_setWidth (page' : VmmPage) :
    page'.pageFlags.setWidth 64 ||| pgPresent = (page'.pageFlags ||| 1).setWidth 64 := by
  rw [BitVec.setWidth_or]
  rfl

/-- An entry keeps the address and the flags of a page just if they fit. -/
theorem pageEntry_keeps :
    vmmTableEntryToPhys (pageEntry page') = page'.physAddr ∧
        vmmTableEntryToPageFlags (pageEntry page') = page'.pageFlags ||| 1 ↔
      page'.physAddr.toNat % 0x1000 = 0 ∧ page'.pageFlags.toNat < 0x400 := by
  constructor
  · rintro ⟨hphys, hflags⟩
    have hlow := congrArg BitVec.toNat hflags
    have hor : page'.pageFlags.toNat ≤ (page'.pageFlags ||| 1).toNat := by
      rw [BitVec.toNat_or]
      exact Nat.left_le_or
    rw [toNat_pageFlags] at hlow
    constructor
    · rw [← hphys, vmmTableEntryToPhys, BitVec.toNat_shiftLeft, Nat.shiftLeft_eq]
      omega
    · omega
  · rintro ⟨haligned, hsmall⟩
    have hor : (page'.pageFlags ||| 1).toNat < 2 ^ 10 := by
      rw [BitVec.toNat_or]
      exact Nat.or_lt_two_pow hsmall (by decide)
    have hwide : ((page'.pageFlags ||| 1).setWidth 64).toNat = (page'.pageFlags ||| 1).toNat := by
      rw [BitVec.toNat_setWidth]
      omega
    have hlow : (page'.pageFlags.setWidth 64 ||| pgPresent).toNat < 2 ^ 10 := by
      rw [flags_setWidth, hwide]
      exact hor
    constructor
    · exact entry_phys haligned hlow
    · have hentry := toNat_entry page'.physAddr hlow
      apply BitVec.eq_of_toNat_eq
      rw [toNat_pageFlags, pageEntry, hentry, flags_setWidth, hwide]
      omega

theorem setEntry_others {i : Fin 512} (f : BitVec 64) (j : Fin 512)
    (other : ¬ (f = table ∧ j = i)) : setEntry mem table i entry f j = mem f j := by
  by_cases htable : f = table
  · subst htable
    exact VmMapper.setEntry_index _ fun h => other ⟨rfl, h⟩
  · rw [VmMapper.setEntry_table _ _ htable]

/-- What walks find after an entry was written for a page. -/
theorem vmmTableWalkMode_written {i : Fin 512}
    (leaf : page'.pageFlags.setWidth 64 &&& pageFlagsLeaf ≠ 0) :
    vmmTableWalkMode (setEntry mem table i (pageEntry page')) directMapBase addr paging.satpMode
        root =
      ((firstRead 512 read mem table i paging.top root (page addr)).map fun k =>
        leafPage (k, pageEntry page')).or
          (vmmTableWalkMode mem directMapBase addr paging.satpMode root) := by
  have hwritten : ∀ k, read k (setEntry mem table i (pageEntry page') table i) =
      .leaf (pageEntry page') := by
    intro k
    rw [VmMapper.setEntry_self]
    exact read_pageEntry leaf
  rw [vmmTableWalkMode_eq, vmmTableWalkMode_eq,
    walk_written hwritten fun f j => setEntry_others f j]
  cases firstRead 512 read mem table i paging.top root (page addr) with
  | none => rfl
  | some k => rfl

theorem samePage_iff {other : BitVec 64} (level : vmmPageSizeToLevel size = some t) (le : t ≤ 5) :
    SamePage size addr other ↔ page addr / 512 ^ t = page other / 512 ^ t := by
  rw [SamePage, vmmPageSizeToLevel_size level, toNat_vmmLevelPageSize le, page, page,
    Nat.div_div_eq_div_mul, Nat.div_div_eq_div_mul]

/-- A page is mapped right just if its entry fits. -/
theorem mapsRight_iff :
    MapsRight paging mem directMapBase root virt page' ↔ MapFits paging mem root virt page' := by
  constructor
  · intro h t table hlevel htable hleaf
    obtain ⟨hinside, houtside⟩ :=
      h _ (vmmMapPageNoAlloc_eq_some.mpr ⟨t, table, hlevel, htable, rfl⟩) hleaf
    obtain ⟨k, hk, hle⟩ := firstRead_of_tableOn htable
    rw [← tableIndex_page] at hk
    have hself := hinside virt rfl
    rw [vmmTableWalkMode_written hleaf, hk, Option.map_some, Option.some_or,
      Option.some.injEq] at hself
    obtain ⟨hphys, hflags, hsize⟩ := VmmPage.mk.inj hself
    obtain ⟨haligned, hsmall⟩ := pageEntry_keeps.mp ⟨hphys, hflags⟩
    have htop := top_le paging
    have htk : k = t := by
      rw [vmmPageSizeToLevel_size hlevel] at hsize
      have hk5 := firstRead_level hk
      exact vmmLevelPageSize_inj (by omega) (by omega) hsize
    refine ⟨haligned, hsmall, htk ▸ hk, ?_⟩
    intro other k' hother hread
    have hsame := houtside other hother
    rw [vmmTableWalkMode_written hleaf, hread, Option.map_some, Option.some_or,
      vmmTableWalkMode_eq] at hsame
    obtain ⟨⟨k'', old⟩, hwalk, hold⟩ := Option.map_eq_some_iff.mp hsame.symm
    obtain ⟨hphys', hflags', hsize'⟩ := VmmPage.mk.inj hold
    have hlevel' : k'' = k' := by
      have h1 := walk_level hwalk
      have h2 := firstRead_level hread
      exact vmmLevelPageSize_inj (by omega) (by omega) hsize'
    subst hlevel'
    obtain rfl := read_kept ((walk_of_firstRead hread).mp hwalk)
    exact ⟨hphys'.trans hphys, hflags'.trans hflags⟩
  · intro h mem' hmap hleaf
    obtain ⟨t, table, hlevel, htable, rfl⟩ := vmmMapPageNoAlloc_eq_some.mp hmap
    have hfits := h t table hlevel htable hleaf
    obtain ⟨hphys, hflags⟩ := pageEntry_keeps.mpr ⟨hfits.aligned, hfits.flags⟩
    have hle : t ≤ 5 := Nat.le_trans (tableOn_level htable) (top_le paging)
    constructor
    · intro other hother
      rw [samePage_iff hlevel hle] at hother
      rw [vmmTableWalkMode_written hleaf,
        firstRead_block hfits.once (Nat.le_refl t) hother.symm, Option.map_some, Option.some_or,
        leafPage, hphys, hflags, ← vmmPageSizeToLevel_size hlevel]
    · intro other hother
      rw [vmmTableWalkMode_written hleaf]
      cases hread : firstRead 512 read mem table (vmmVirtToTableIndex virt.addr (t + 1)) paging.top
          root (page other.addr) with
      | none => rfl
      | some k =>
        obtain ⟨hphys', hflags'⟩ := hfits.outside other k hother hread
        have hold := (walk_of_firstRead hread).mpr (read_of_pageFlags hflags' hleaf)
        rw [vmmTableWalkMode_eq, hold, Option.map_some, Option.map_some, Option.some_or, leafPage,
          leafPage, hphys, hflags, hphys', hflags']

end Mapping

/-- The walk gives the address of a static table just if a leaf starts with it, and a page is mapped
right just if its entry fits. -/
theorem walk_and_map_right_iff (paging : Paging) (mem : Memory) (directMapBase root : BitVec 64)
    (table virt : VirtualAddress paging) (page' : VmmPage) :
    (FoundRight paging mem directMapBase root table ↔ LeafStart paging mem root table) ∧
      (MapsRight paging mem directMapBase root virt page' ↔ MapFits paging mem root virt page') :=
  ⟨foundRight_iff, mapsRight_iff⟩

/-- A page of 2 MiB at `0xffffffff80200000`. -/
def megaPage : Memory := fun table index =>
  if table = 0x1000 ∧ index = 0x1fe then 0x801
  else if table = 0x2000 ∧ index = 1 then 0x2008000f
  else 0

theorem canonical_second : Canonical .sv39 0xffffffff80201000 := by
  right
  decide

/-- The second 4 KiB of the page. -/
def secondPart : VirtualAddress .sv39 := ⟨0xffffffff80201000, canonical_second⟩

theorem inside_of_leaf_found_wrong : ¬ FoundRight .sv39 megaPage 0 0x1000 secondPart := by
  have hwalk : vmmTableWalkMode megaPage 0 secondPart.addr Paging.sv39.satpMode 0x1000 =
      some ⟨0x80200000, 0xf, 0x200000⟩ := by decide
  intro h
  obtain ⟨found, hfound, hphys⟩ := h 0x80201000 (by decide)
  obtain rfl := Option.some.inj (hwalk.symm.trans hfound)
  exact absurd hphys (by decide)

end EntryWalk
