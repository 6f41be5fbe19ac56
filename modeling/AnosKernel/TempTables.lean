import AnosKernel.DirectMapRiscV
import AnosKernel.DirectMapX86

/-!
# The page table for temporary pages

`ensure_temp_page_tables` of `vmm/vmmapper_init.c`, for x86_64 and for riscv64. There is no direct
map yet, so a table is reached through a window: an entry of a scratch table that is a large page
with the table in it. riscv64 has terapages and puts the windows into the top-level table, and
x86_64 has gigapages in a table of their own. What is read and written is what the walk of the
hardware finds for a pointer.
-/

namespace TempTables

open VmMapper PageAlloc Directories DirectMap

inductive Isa where
  | x8664
  | riscv64
  deriving DecidableEq

def Isa.format : Isa → Format
  | .x8664 => DirectMapX86.format
  | .riscv64 => DirectMapRiscV.format

def Isa.translate : Isa → (BitVec 64 → Fin 512 → BitVec 64) → BitVec 64 → BitVec 64 →
    Option (Nat × Bool)
  | .x8664 => DirectMapX86.translate
  | .riscv64 => DirectMapRiscV.translate

/-- `temp_page_size`, as the call on x86_64 gives it, and `TERA_PAGE_SIZE`. -/
def Isa.tempPageSize : Isa → BitVec 64
  | .x8664 => gigaPageSize
  | .riscv64 => DirectMapRiscV.teraPageSize

/-- The entries of the scratch table that are written for a table; the PDPT always gets entry 1. -/
structure Layout where
  newPd : Fin 512
  newPt : Fin 512
  pd : Fin 512
  addedPt : Fin 512
  foundPt : Fin 512

/-- On x86_64 they are counted from `temp_table_level`. -/
def x8664Layout (tempTableLevel : Nat) : Layout where
  newPd := Fin.ofNat 512 tempTableLevel
  newPt := Fin.ofNat 512 (tempTableLevel - 2)
  pd := Fin.ofNat 512 (tempTableLevel - 1)
  addedPt := Fin.ofNat 512 tempTableLevel
  foundPt := Fin.ofNat 512 (tempTableLevel - 2)

def ptLevelPdpt : Nat := 3

def Isa.layout : Isa → Layout
  | .x8664 => x8664Layout ptLevelPdpt
  | .riscv64 => { newPd := 4, newPt := 2, pd := 2, addedPt := 3, foundPt := 2 }

def roundDownToPage (addr pageSize : BitVec 64) : BitVec 64 := addr &&& ~~~(pageSize - 1)

def offsetInPage (addr pageSize : BitVec 64) : BitVec 64 := addr &&& (pageSize - 1)

/-- A pointer to the table at `phys`, in the large page `slot` of the virtual space. -/
def Isa.pointer (isa : Isa) (slot : Fin 512) (phys : BitVec 64) : BitVec 64 :=
  isa.tempPageSize * BitVec.ofNat 64 slot.val + offsetInPage phys isa.tempPageSize

/-- The entry that `map_readwrite_and_flush_offs` writes for the large page around `phys`. -/
def Isa.window (isa : Isa) (phys : BitVec 64) : BitVec 64 :=
  isa.format.physAndFlagsToTableEntry (roundDownToPage phys isa.tempPageSize)
    (isa.format.pgPagesize ||| isa.format.pgRead ||| isa.format.pgWrite ||| pgPresent)

inductive Fault where
  | noRootMapping
  | pageFault
  | outOfMemory
  deriving DecidableEq

section Code

variable (isa : Isa) (pml4 : BitVec 64)

/-- The table that a pointer leads to. A pointer not to the start of a page is only made when
`page_alloc` has no page, which it says with `0xff`; the code does not ask. -/
def tableBehind (mem : BitVec 64 → Fin 512 → BitVec 64) (pointer : BitVec 64) (storing : Bool) :
    Except Fault (BitVec 64) :=
  match isa.translate mem pml4 pointer with
  | none => .error .pageFault
  | some (address, writeable) =>
    if storing && !writeable then .error .pageFault
    else if address % 0x1000 = 0 then .ok (BitVec.ofNat 64 address)
    else .error .outOfMemory

def load (m : Machine) (pointer : BitVec 64) (index : Fin 512) : Except Fault (BitVec 64) := do
  let table ← tableBehind isa pml4 m.mem pointer false
  return m.mem table index

def store (m : Machine) (pointer : BitVec 64) (index : Fin 512) (entry : BitVec 64) :
    Except Fault Machine := do
  let table ← tableBehind isa pml4 m.mem pointer true
  return write m table index entry

/-- The loop that clears a new table. -/
def clear (m : Machine) (pointer : BitVec 64) : Except Fault Machine :=
  (List.finRange 512).foldlM (fun m index => store isa pml4 m pointer index 0) m

variable (tempPageTable tempMapAddr : BitVec 64)

/-- The branch without a page directory: the page directory and the page table get one pointer,
which is that for the page directory. -/
def createPdAndPt (m : Machine) (tempMappedPdpt : BitVec 64) :
    Except Fault (BitVec 64 × Machine) := do
  let (pdPhys, region) := pageAlloc m.region
  let (ptPhys, region) := pageAlloc region
  let tempMappedTable := isa.pointer 2 pdPhys
  let m := write { m with region := region } tempPageTable isa.layout.newPd (isa.window pdPhys)
  let m ← clear isa pml4 m tempMappedTable
  let m ← store isa pml4 m tempMappedTable (vmmVirtToPdIndex tempMapAddr)
    (isa.format.physAndFlagsToTableEntry ptPhys pgPresent)
  let m := write m tempPageTable isa.layout.newPt (isa.window ptPhys)
  let m ← clear isa pml4 m tempMappedTable
  let m ← store isa pml4 m tempMappedPdpt (vmmVirtToPdptIndex tempMapAddr)
    (isa.format.physAndFlagsToTableEntry pdPhys isa.format.tableFlags)
  return (tempMappedTable, write m tempPageTable 1 0)

/-- The branch with a page directory but without a page table. -/
def createPt (m : Machine) (tempMappedPd : BitVec 64) : Except Fault (BitVec 64 × Machine) := do
  let (ptPhys, region) := pageAlloc m.region
  let tempMappedTable := isa.pointer 3 ptPhys
  let m := write { m with region := region } tempPageTable isa.layout.addedPt (isa.window ptPhys)
  let m ← clear isa pml4 m tempMappedTable
  let m ← store isa pml4 m tempMappedPd (vmmVirtToPdIndex tempMapAddr)
    (isa.format.physAndFlagsToTableEntry ptPhys isa.format.tableFlags)
  return (tempMappedTable, write (write m tempPageTable 1 0) tempPageTable 2 0)

/-- The branch with a page table. -/
def mapPt (m : Machine) (ptPhys : BitVec 64) : BitVec 64 × Machine :=
  let m := write m tempPageTable isa.layout.foundPt (isa.window ptPhys)
  (isa.pointer 2 ptPhys, write m tempPageTable 1 0)

/-- `ensure_temp_page_tables`; `temp_page_table` is the scratch table, and on riscv64 there is no
such argument, because it is the top-level table. -/
def ensureTempPageTables (m : Machine) : Except Fault (BitVec 64 × Machine) :=
  let pml4Entry := m.mem pml4 (vmmVirtToPml4Index tempMapAddr)
  if pml4Entry &&& pgPresent = 0 then .error .noRootMapping
  else do
    let pdptPhys := isa.format.tableEntryToPhys pml4Entry
    let tempMappedPdpt := isa.pointer 1 pdptPhys
    let m := write m tempPageTable 1 (isa.window pdptPhys)
    let pdptEntry ← load isa pml4 m tempMappedPdpt (vmmVirtToPdptIndex tempMapAddr)
    if pdptEntry &&& pgPresent = 0 then
      createPdAndPt isa pml4 tempPageTable tempMapAddr m tempMappedPdpt
    else
      let pdPhys := isa.format.tableEntryToPhys pdptEntry
      let tempMappedPd := isa.pointer 2 pdPhys
      let m := write m tempPageTable isa.layout.pd (isa.window pdPhys)
      let pdEntry ← load isa pml4 m tempMappedPd (vmmVirtToPdIndex tempMapAddr)
      if pdEntry &&& pgPresent = 0 then createPt isa pml4 tempPageTable tempMapAddr m tempMappedPd
      else return mapPt isa tempPageTable m (isa.format.tableEntryToPhys pdEntry)

end Code

/-! ## Windows -/

/-- How many bits the offset in a large page has. -/
def Isa.bits : Isa → Nat
  | .x8664 => 30
  | .riscv64 => 39

/-- The physical addresses that an entry can have. -/
def Isa.IsFrame : Isa → BitVec 64 → Prop
  | .x8664 => VmMapper.IsFrame
  | .riscv64 => DirectMapRiscV.IsWideFrame

/-- The low end of the virtual space leads to the scratch table. -/
def Isa.Opened (isa : Isa) (mem : BitVec 64 → Fin 512 → BitVec 64) (pml4 scratch : BitVec 64) : Prop :=
  match isa with
  | .x8664 => mem pml4 0 = scratch ||| pgPresent ||| pgWrite ∧ VmMapper.IsFrame scratch ∧
      pml4 ≠ scratch
  | .riscv64 => scratch = pml4

section Windows

variable {isa : Isa} {mem : BitVec 64 → Fin 512 → BitVec 64} {pml4 scratch f g : BitVec 64}
  {slot : Fin 512}

theorem toNat_roundDown (isa : Isa) (f : BitVec 64) :
    (roundDownToPage f isa.tempPageSize).toNat = f.toNat / 2 ^ isa.bits * 2 ^ isa.bits := by
  cases isa with
  | x8664 => exact Masks.toNat_and_high f _ 30 (by decide) (by decide)
  | riscv64 => exact Masks.toNat_and_high f _ 39 (by decide) (by decide)

theorem toNat_pointer (small : slot.val ≤ 4) :
    (isa.pointer slot f).toNat = 2 ^ isa.bits * slot.val + f.toNat % 2 ^ isa.bits := by
  have hsize : isa.tempPageSize.toNat = 2 ^ isa.bits := by cases isa <;> decide
  have hoffset : (offsetInPage f isa.tempPageSize).toNat = f.toNat % 2 ^ isa.bits := by
    cases isa with
    | x8664 => exact Masks.toNat_and_low f _ 30 (by decide)
    | riscv64 => exact Masks.toNat_and_low f _ 39 (by decide)
  have hslot : (BitVec.ofNat 64 slot.val).toNat = slot.val := by
    rw [BitVec.toNat_ofNat]
    omega
  rw [Isa.pointer, BitVec.toNat_add, BitVec.toNat_mul, hsize, hoffset, hslot]
  cases isa with
  | x8664 =>
    simp only [Isa.bits]
    omega
  | riscv64 =>
    simp only [Isa.bits]
    omega

/-- An entry for a window is a large page that can be written. -/
theorem x8664_window : Isa.x8664.window f &&& pgPresent ≠ 0 ∧ Isa.x8664.window f &&& pgPagesize ≠ 0 ∧
    Isa.x8664.window f &&& pgWrite ≠ 0 := by
  have hflags : ∀ mask : BitVec 64, (0xfffffffffffff000 : BitVec 64) &&& mask = 0#64 →
      Isa.x8664.window f &&& mask = (pgPagesize ||| 0 ||| pgWrite ||| pgPresent) &&& mask :=
    fun mask low => entry_flags low
  refine ⟨?_, ?_, ?_⟩
  · rw [hflags _ (by decide)]
    decide
  · rw [hflags _ (by decide)]
    decide
  · rw [hflags _ (by decide)]
    decide

/-- The large page around a frame starts with a frame. -/
theorem frame_roundDown (frame : isa.IsFrame f) :
    isa.IsFrame (roundDownToPage f isa.tempPageSize) := by
  have hround := toNat_roundDown isa f
  cases isa with
  | x8664 =>
    change vmmTableEntryToPhys f = f at frame
    change vmmTableEntryToPhys (f &&& _) = f &&& _
    rw [vmmTableEntryToPhys] at frame ⊢
    rw [BitVec.and_assoc, BitVec.and_comm (~~~(_ - 1)), ← BitVec.and_assoc, frame]
  | riscv64 =>
    obtain ⟨_, hbelow⟩ := frame
    simp only [Isa.bits] at hround
    constructor
    · omega
    · omega

/-- The entry that leads to the scratch table on x86_64. -/
theorem scratch_link (frame : VmMapper.IsFrame scratch) :
    (scratch ||| pgPresent ||| pgWrite) &&& pgPresent ≠ 0 ∧
      (scratch ||| pgPresent ||| pgWrite) &&& pgPagesize = 0 ∧
      (scratch ||| pgPresent ||| pgWrite) &&& pgWrite ≠ 0 ∧
      vmmTableEntryToPhys (scratch ||| pgPresent ||| pgWrite) = scratch := by
  have hmask : (0x0000fffffffff000 : BitVec 64) &&& 0xfffffffffffff000 = 0x0000fffffffff000 := by
    decide
  have haddress : scratch &&& 0xfffffffffffff000 = scratch := by
    rw [← frame, vmmTableEntryToPhys, BitVec.and_assoc, hmask]
  have hlink : scratch ||| pgPresent ||| pgWrite =
      vmmPhysAndFlagsToTableEntry scratch (pgPresent ||| pgWrite) := by
    rw [vmmPhysAndFlagsToTableEntry, haddress, BitVec.or_assoc]
  rw [hlink]
  refine ⟨?_, ?_, ?_, ?_⟩
  · rw [entry_flags (by decide)]
    decide
  · rw [entry_flags (by decide)]
    decide
  · rw [entry_flags (by decide)]
    decide
  · exact DirectMapX86.entry_phys frame (by decide)

theorem riscv64_window (frame : DirectMapRiscV.IsWideFrame f) :
    DirectMapRiscV.decode 3 (Isa.riscv64.window f) =
      .leaf (roundDownToPage f Isa.riscv64.tempPageSize, true) := by
  have hframe := @frame_roundDown .riscv64 f frame
  have hround := toNat_roundDown .riscv64 f
  have hlow : (0 ||| DirectMapRiscV.pgRead ||| DirectMapRiscV.pgWrite ||| pgPresent).toNat < 2 ^ 10 := by
    decide
  have hflags : ∀ mask : BitVec 64, mask &&& 0x3ff = mask →
      Isa.riscv64.window f &&& mask =
        (0 ||| DirectMapRiscV.pgRead ||| DirectMapRiscV.pgWrite ||| pgPresent) &&& mask :=
    fun mask low => DirectMapRiscV.entry_low low
  have hphys : DirectMapRiscV.vmmTableEntryToPhys (Isa.riscv64.window f) =
      roundDownToPage f Isa.riscv64.tempPageSize :=
    DirectMapRiscV.entry_phys hframe.1 hlow
  simp only [Isa.bits] at hround
  rw [DirectMapRiscV.decode_leaf, hphys, hflags _ (by decide)]
  · rfl
  · rw [hflags _ (by decide)]
    decide
  · exact DirectMapRiscV.entry_high hframe hlow
  · rw [hflags _ (by decide)]
    decide
  · rw [hflags _ (by decide)]
    decide
  · rw [hphys, hround]
    omega

/-- The page of a pointer: in a large page of the scratch table, which the first entry of the
top-level table leads to on x86_64. -/
theorem pageNumber_pointer (small : slot.val ≤ 4) :
    DirectMap.pageNumber (isa.pointer slot g) * 0x1000 / 2 ^ isa.bits = slot.val := by
  have hpointer := @toNat_pointer isa g slot small
  rw [DirectMap.pageNumber]
  cases isa with
  | x8664 =>
    simp only [Isa.bits] at hpointer ⊢
    omega
  | riscv64 =>
    simp only [Isa.bits] at hpointer ⊢
    omega

theorem ofNat_val (slot : Fin 512) : Fin.ofNat 512 slot.val = slot :=
  Fin.ext (Nat.mod_eq_of_lt slot.isLt)

/-- On x86_64 the walk goes on in the scratch table. -/
theorem x8664_scratch (opened : Isa.x8664.Opened mem pml4 scratch) (small : slot.val ≤ 4) :
    Isa.x8664.translate mem pml4 (Isa.x8664.pointer slot g) =
      (DirectMapX86.fourLevelWalk mem (DirectMap.pageNumber (Isa.x8664.pointer slot g)) 2 scratch
        true).map (translated (Isa.x8664.pointer slot g)) := by
  have hpage := @pageNumber_pointer .x8664 g slot small
  obtain ⟨hroot, hscratch, _⟩ := opened
  obtain ⟨hlinked, hsmall, hlinkWrite, hlinkPhys⟩ := scratch_link hscratch
  have hfirst : DirectMap.pageNumber (Isa.x8664.pointer slot g) / 512 ^ (2 + 1) = 0 := by
    simp only [Isa.bits] at hpage
    omega
  have hzero : Fin.ofNat 512 0 = 0 := rfl
  have hnot : ¬ ((scratch ||| pgPresent ||| pgWrite) &&& pgPagesize ≠ 0) := not_not.mpr hsmall
  rw [Isa.translate, DirectMapX86.translate, DirectMapX86.fourLevelWalk, hfirst, hzero, hroot]
  simp only [if_neg hlinked, if_neg hnot, hlinkPhys]
  rw [decide_eq_true hlinkWrite, Bool.true_and]

/-- The walk through a window. -/
theorem translate_window (opened : isa.Opened mem pml4 scratch) (small : slot.val ≤ 4)
    (frame : isa.IsFrame f) (entry : mem scratch slot = isa.window f) :
    isa.translate mem pml4 (isa.pointer slot g) =
      some (f.toNat / 2 ^ isa.bits * 2 ^ isa.bits + g.toNat % 2 ^ isa.bits, true) := by
  have hpointer := @toNat_pointer isa g slot small
  have hpage := @pageNumber_pointer isa g slot small
  have hround := toNat_roundDown isa f
  have hframe := frame_roundDown frame
  cases isa with
  | x8664 =>
    rw [x8664_scratch opened small]
    simp only [Isa.bits] at hpointer hpage hround ⊢
    generalize Isa.x8664.pointer slot g = pointer at hpointer hpage
    obtain ⟨hpresent, hlarge, hwrite⟩ := @x8664_window f
    have hindex : DirectMap.pageNumber pointer / 512 ^ (1 + 1) = slot.val := by omega
    have hbase : DirectMapX86.leafBase 2 (Isa.x8664.window f) =
        roundDownToPage f Isa.x8664.tempPageSize :=
      DirectMapX86.leafBase_entry hframe (by decide) (by omega)
    have hlevel : ¬ (1 + 1 = 3) := by decide
    have haddress : f.toNat / 2 ^ 30 * 2 ^ 30 + pointer.toNat % (0x1000 * 512 ^ 2) =
        f.toNat / 2 ^ 30 * 2 ^ 30 + g.toNat % 2 ^ 30 := by
      omega
    rw [DirectMapX86.fourLevelWalk, hindex, ofNat_val, entry]
    simp only [if_neg hpresent, if_pos hlarge, if_neg hlevel, hbase]
    rw [decide_eq_true hwrite, Option.map_some]
    simp only [translated]
    rw [hround, haddress]
    rfl
  | riscv64 =>
    simp only [Isa.bits] at hpointer hpage hround ⊢
    generalize Isa.riscv64.pointer slot g = pointer at hpointer hpage
    have hindex : DirectMap.pageNumber pointer / 512 ^ (2 + 1) = slot.val := by omega
    have haddress : f.toNat / 2 ^ 39 * 2 ^ 39 + pointer.toNat % (0x1000 * 512 ^ (2 + 1)) =
        f.toNat / 2 ^ 39 * 2 ^ 39 + g.toNat % 2 ^ 39 := by
      omega
    obtain rfl : scratch = pml4 := opened
    rw [Isa.translate, DirectMapRiscV.translate, walk, hindex, ofNat_val, entry,
      riscv64_window frame]
    simp only [Option.map_some, translated]
    rw [hround, haddress]

/-- Nothing is found where the scratch table has no entry. -/
theorem translate_unused (opened : isa.Opened mem pml4 scratch) (small : slot.val ≤ 4)
    (unused : mem scratch slot &&& pgPresent = 0) :
    isa.translate mem pml4 (isa.pointer slot g) = none := by
  have hpage := @pageNumber_pointer isa g slot small
  cases isa with
  | x8664 =>
    rw [x8664_scratch opened small]
    simp only [Isa.bits] at hpage
    generalize Isa.x8664.pointer slot g = pointer at hpage
    have hindex : DirectMap.pageNumber pointer / 512 ^ (1 + 1) = slot.val := by omega
    rw [DirectMapX86.fourLevelWalk, hindex, ofNat_val]
    simp only [if_pos unused, Option.map_none]
  | riscv64 =>
    simp only [Isa.bits] at hpage
    generalize Isa.riscv64.pointer slot g = pointer at hpage
    have hindex : DirectMap.pageNumber pointer / 512 ^ (2 + 1) = slot.val := by omega
    obtain rfl : scratch = pml4 := opened
    have hdecode : DirectMapRiscV.decode (2 + 1) (mem scratch slot) = .absent ∨
        DirectMapRiscV.decode (2 + 1) (mem scratch slot) = .other := by
      rw [DirectMapRiscV.decode]
      by_cases hzero : mem scratch slot = 0
      · exact Or.inl (if_pos hzero)
      · rw [if_neg hzero, if_pos (Or.inl unused)]
        exact Or.inr rfl
    rw [Isa.translate, DirectMapRiscV.translate, walk, hindex, ofNat_val]
    rcases hdecode with h | h
    · rw [h]
      rfl
    · rw [h]
      rfl

/-- The table at `f` can be reached through entry `slot` of the scratch table. -/
structure Window (isa : Isa) (pml4 scratch : BitVec 64) (slot : Fin 512) (f : BitVec 64)
    (mem : BitVec 64 → Fin 512 → BitVec 64) : Prop where
  opened : isa.Opened mem pml4 scratch
  small : slot.val ≤ 4
  frame : isa.IsFrame f
  entry : mem scratch slot = isa.window f

theorem frame_aligned (frame : isa.IsFrame f) : f.toNat % 0x1000 = 0 := by
  cases isa with
  | x8664 => exact (DirectMapRiscV.wide_frame frame).1
  | riscv64 => exact frame.1

theorem Window.translate (window : Window isa pml4 scratch slot f mem) :
    isa.translate mem pml4 (isa.pointer slot f) = some (f.toNat, true) := by
  have hparts := Nat.div_add_mod' f.toNat (2 ^ isa.bits)
  rw [translate_window window.opened window.small window.frame window.entry, hparts]

theorem Window.tableBehind (window : Window isa pml4 scratch slot f mem) (storing : Bool) :
    tableBehind isa pml4 mem (isa.pointer slot f) storing = .ok f := by
  rw [TempTables.tableBehind, window.translate]
  simp only [Bool.not_true, Bool.and_false, Bool.false_eq_true, if_false,
    if_pos (frame_aligned window.frame), BitVec.ofNat_toNat, BitVec.setWidth_eq]

/-- A store elsewhere leaves the window. -/
theorem Window.congr {mem' : BitVec 64 → Fin 512 → BitVec 64}
    (window : Window isa pml4 scratch slot f mem) (root : mem' pml4 0 = mem pml4 0)
    (same : mem' scratch slot = mem scratch slot) : Window isa pml4 scratch slot f mem' := by
  obtain ⟨hopened, hsmall, hframe, hentry⟩ := window
  refine ⟨?_, hsmall, hframe, same.trans hentry⟩
  cases isa with
  | x8664 => exact ⟨root.trans hopened.1, hopened.2⟩
  | riscv64 => exact hopened

end Windows

/-! ## Tables behind windows -/

section Accesses

variable {isa : Isa} {pml4 scratch f entry : BitVec 64} {slot index : Fin 512} {m : Machine}

theorem Window.load (window : Window isa pml4 scratch slot f m.mem) :
    load isa pml4 m (isa.pointer slot f) index = .ok (m.mem f index) := by
  rw [TempTables.load, window.tableBehind]
  rfl

theorem Window.store (window : Window isa pml4 scratch slot f m.mem) :
    store isa pml4 m (isa.pointer slot f) index entry = .ok (write m f index entry) := by
  rw [TempTables.store, window.tableBehind]
  rfl

/-- The stores of the loop, of which none is to a table that the walk to the window uses. -/
theorem Window.stores (window : Window isa pml4 scratch slot f m.mem) (root : f ≠ pml4)
    (apart : f ≠ scratch) (indices : List (Fin 512)) :
    ∃ m', indices.foldlM (fun m index => TempTables.store isa pml4 m (isa.pointer slot f) index 0) m =
        .ok m' ∧ m'.region = m.region ∧ (∀ g, g ≠ f → m'.mem g = m.mem g) ∧
      ∀ i, i ∈ indices ∨ m.mem f i = 0 → m'.mem f i = 0 := by
  induction indices generalizing m with
  | nil => exact ⟨m, rfl, rfl, fun _ _ => rfl, fun i h => h.resolve_left List.not_mem_nil⟩
  | cons index indices ih =>
    have hother : ∀ g, g ≠ f → (write m f index 0).mem g = m.mem g :=
      fun g h => setEntry_table _ _ h
    have hwindow : Window isa pml4 scratch slot f (write m f index 0).mem :=
      window.congr (congrFun (hother pml4 root.symm) 0) (congrFun (hother scratch apart.symm) slot)
    obtain ⟨m', hrun, hregion, hothers, hzeros⟩ := ih hwindow
    refine ⟨m', ?_, hregion, ?_, ?_⟩
    · rw [List.foldlM_cons, window.store]
      exact hrun
    · exact fun g h => (hothers g h).trans (hother g h)
    · intro i hzero
      apply hzeros
      by_cases hi : i = index
      · right
        rw [hi, write_mem, setEntry_self]
      · rw [write_mem, setEntry_index _ hi]
        exact hzero.imp_left fun h => (List.mem_cons.mp h).resolve_left hi

theorem Window.clear (window : Window isa pml4 scratch slot f m.mem) (root : f ≠ pml4)
    (apart : f ≠ scratch) : clear isa pml4 m (isa.pointer slot f) = .ok (clearTable m f) := by
  obtain ⟨m', hrun, hregion, hothers, hzeros⟩ := window.stores root apart (List.finRange 512)
  have hmem : m'.mem = (clearTable m f).mem := by
    funext g
    by_cases hg : g = f
    · subst hg
      have hzero : (clearTable m g).mem g = fun _ => 0 := Function.update_self _ _ _
      funext i
      rw [hzeros i (Or.inl (List.mem_finRange i)), hzero]
    · rw [hothers g hg]
      exact (Function.update_of_ne hg _ _).symm
  obtain ⟨mem', region'⟩ := m'
  obtain rfl : mem' = (clearTable m f).mem := hmem
  obtain rfl : region' = m.region := hregion
  exact hrun

/-- The first store fails where there is no table to clear. -/
theorem clear_error {pointer : BitVec 64} {fault : Fault}
    (h : tableBehind isa pml4 m.mem pointer true = .error fault) :
    clear isa pml4 m pointer = .error fault := by
  have hstore : store isa pml4 m pointer 0 0 = .error fault := by
    rw [store, h]
    rfl
  rw [clear, List.finRange_succ, List.foldlM_cons, hstore]
  rfl

theorem clear_unused (opened : isa.Opened m.mem pml4 scratch) (small : slot.val ≤ 4)
    (unused : m.mem scratch slot &&& pgPresent = 0) :
    clear isa pml4 m (isa.pointer slot f) = .error .pageFault := by
  apply clear_error
  rw [tableBehind, translate_unused opened small unused]

variable {i : Fin 512} {e : BitVec 64}

/-- The windows leave the first entry of the top-level table. -/
theorem first_kept (pos : i ≠ 0) : (write m scratch i e).mem pml4 0 = m.mem pml4 0 := by
  rw [write_mem]
  by_cases h : pml4 = scratch
  · rw [h, setEntry_index _ pos.symm]
  · rw [setEntry_table _ _ h]

theorem opened_write (opened : isa.Opened m.mem pml4 scratch) (pos : i ≠ 0) :
    isa.Opened (write m scratch i e).mem pml4 scratch := by
  cases isa with
  | x8664 => exact ⟨(first_kept pos).trans opened.1, opened.2⟩
  | riscv64 => exact opened

/-- A new window. -/
theorem Window.new (opened : isa.Opened m.mem pml4 scratch) (pos : i ≠ 0) (small : i.val ≤ 4)
    (frame : isa.IsFrame f) : Window isa pml4 scratch i f (write m scratch i (isa.window f)).mem :=
  ⟨opened_write opened pos, small, frame, setEntry_self _ _ _ _⟩

theorem Window.other (window : Window isa pml4 scratch slot f m.mem) (pos : i ≠ 0)
    (ne : slot ≠ i) : Window isa pml4 scratch slot f (write m scratch i e).mem :=
  window.congr (first_kept pos) (setEntry_index _ ne)

end Accesses

/-! ## The walk of the address -/

/-- The table that an entry leads to. -/
def Isa.next (isa : Isa) (entry : BitVec 64) : Option (BitVec 64) :=
  match isa with
  | .x8664 => down entry
  | .riscv64 =>
    match DirectMapRiscV.decode 1 entry with
    | .table f => some f
    | _ => none

/-- The page table that covers an address. -/
def pageTableOf (isa : Isa) (mem : BitVec 64 → Fin 512 → BitVec 64) (pml4 addr : BitVec 64) :
    Option (BitVec 64) := do
  let pdpt ← isa.next (mem pml4 (vmmVirtToPml4Index addr))
  let pd ← isa.next (mem pdpt (vmmVirtToPdptIndex addr))
  isa.next (mem pd (vmmVirtToPdIndex addr))

/-- An entry that leads to a table, or is not present. -/
def Isa.Leads (isa : Isa) (entry : BitVec 64) : Option (BitVec 64) → Prop
  | some f => isa.next entry = some f
  | none => entry &&& pgPresent = 0

section Entries

variable {isa : Isa} {entry f : BitVec 64}

theorem next_some (next : isa.next entry = some f) :
    entry &&& pgPresent ≠ 0 ∧ isa.format.tableEntryToPhys entry = f ∧ isa.IsFrame f := by
  cases isa with
  | x8664 =>
    obtain ⟨hpresent, _, rfl⟩ := down_eq_some.mp next
    refine ⟨?_, rfl, ?_⟩
    · simpa [isPresent] using hpresent
    · change vmmTableEntryToPhys (vmmTableEntryToPhys entry) = vmmTableEntryToPhys entry
      rw [vmmTableEntryToPhys, vmmTableEntryToPhys, BitVec.and_assoc, BitVec.and_self]
  | riscv64 =>
    have hdecode : DirectMapRiscV.decode 1 entry = .table f := by
      rw [Isa.next] at next
      cases h : DirectMapRiscV.decode 1 entry with
      | table g => simpa [h] using next
      | absent => simp [h] at next
      | leaf a => simp [h] at next
      | other => simp [h] at next
    rw [DirectMapRiscV.decode] at hdecode
    split_ifs at hdecode with hzero hodd
    obtain rfl := Decoded.table.inj hdecode
    push Not at hodd
    obtain ⟨hpresent, hhigh, _⟩ := hodd
    have hbelow : entry.toNat / 2 ^ 54 = 0 := by
      rw [← Nat.shiftRight_eq_div_pow, ← BitVec.toNat_ushiftRight, hhigh]
      rfl
    refine ⟨hpresent, rfl, ?_⟩
    rw [Isa.IsFrame, DirectMapRiscV.IsWideFrame, DirectMapRiscV.vmmTableEntryToPhys,
      BitVec.toNat_shiftLeft, BitVec.toNat_ushiftRight, Nat.shiftRight_eq_div_pow, Nat.shiftLeft_eq]
    omega

/-- The entry for a new table. -/
theorem next_link (frame : isa.IsFrame f) :
    isa.next (isa.format.physAndFlagsToTableEntry f isa.format.tableFlags) = some f := by
  cases isa with
  | x8664 =>
    have hflags : ∀ mask : BitVec 64, (0xfffffffffffff000 : BitVec 64) &&& mask = 0#64 →
        vmmPhysAndFlagsToTableEntry f (pgPresent ||| pgWrite) &&& mask =
          (pgPresent ||| pgWrite) &&& mask :=
      fun mask low => entry_flags low
    apply down_eq_some.mpr
    change isPresent (vmmPhysAndFlagsToTableEntry f (pgPresent ||| pgWrite)) ∧
      ¬ isPagesizeLeaf (vmmPhysAndFlagsToTableEntry f (pgPresent ||| pgWrite)) ∧
      vmmTableEntryToPhys (vmmPhysAndFlagsToTableEntry f (pgPresent ||| pgWrite)) = f
    rw [isPresent, isPagesizeLeaf, hflags _ (by decide), hflags _ (by decide)]
    exact ⟨by decide, by decide, DirectMapX86.entry_phys frame (by decide)⟩
  | riscv64 =>
    have hphys : DirectMapRiscV.vmmTableEntryToPhys
        (DirectMapRiscV.vmmPhysAndFlagsToTableEntry f pgPresent) = f :=
      DirectMapRiscV.entry_phys frame.1 (by decide)
    have hdecode : DirectMapRiscV.decode 1 (DirectMapRiscV.vmmPhysAndFlagsToTableEntry f pgPresent) =
        .table f := by
      rw [DirectMapRiscV.decode_table, hphys]
      · rw [DirectMapRiscV.entry_low (by decide)]
        decide
      · exact DirectMapRiscV.entry_high frame (by decide)
      · rw [DirectMapRiscV.entry_low (by decide)]
        decide
      · rw [DirectMapRiscV.entry_low (by decide)]
        decide
    change (match DirectMapRiscV.decode 1
        (DirectMapRiscV.vmmPhysAndFlagsToTableEntry f pgPresent) with
      | .table f => some f
      | _ => none) = some f
    rw [hdecode]

end Entries

/-- What the function is called on: the top-level table has a PDPT for the address, which may have
a page directory, and that a page table. The scratch table is none of these and has no entry where
a pointer is used before its window is there, and the free pages are apart from the tables. -/
structure Start (isa : Isa) (pml4 scratch addr : BitVec 64) (m : Machine) (pdpt : BitVec 64)
    (pd pt : Option (BitVec 64)) : Prop where
  opened : isa.Opened m.mem pml4 scratch
  kernel : 4 < (vmmVirtToPml4Index addr).val
  root : isa.next (m.mem pml4 (vmmVirtToPml4Index addr)) = some pdpt
  directory : isa.Leads (m.mem pdpt (vmmVirtToPdptIndex addr)) pd
  table : ∀ f, pd = some f → isa.Leads (m.mem f (vmmVirtToPdIndex addr)) pt
  noTable : pd = none → pt = none
  apartPdpt : pdpt ≠ scratch
  apartPd : pd ≠ some scratch
  unused : pd = none → m.mem scratch 2 &&& pgPresent = 0
  sized : WellSized m.region
  nodup : (freePages m.region).Nodup
  frames : ∀ page ∈ freePages m.region, isa.IsFrame page
  free : ∀ page ∈ freePages m.region, page ≠ pml4 ∧ page ≠ scratch ∧ page ≠ pdpt ∧ pd ≠ some page

/-- What the call should do: the pointer leads to the page table of the address, which is empty
where there was none, and only the tables on the walk, new pages and the entries for windows are
written. -/
def Right (isa : Isa) (pml4 scratch addr : BitVec 64) (m : Machine) (pdpt : BitVec 64)
    (pd pt : Option (BitVec 64)) : Prop :=
  ∃ pointer m' table, ensureTempPageTables isa pml4 scratch addr m = .ok (pointer, m') ∧
    pageTableOf isa m'.mem pml4 addr = some table ∧
    isa.translate m'.mem pml4 pointer = some (table.toNat, true) ∧
    (pt = none → m'.mem table = fun _ => 0) ∧
    (∀ f, m'.mem f ≠ m.mem f → f = pml4 ∨ f = scratch ∨ f = pdpt ∨ some f = pd ∨ some f = pt ∨
      (f ∈ freePages m.region ∧ f ∉ freePages m'.region)) ∧
    ∀ i : Fin 512, i.val = 0 ∨ 4 < i.val → m'.mem scratch i = m.mem scratch i

section Calls

variable {isa : Isa} {pml4 scratch addr pdpt f g : BitVec 64} {m : Machine}
  {pd pt : Option (BitVec 64)}

/-- With the window for the PDPT. -/
def pdptMapped (isa : Isa) (scratch pdpt : BitVec 64) (m : Machine) : Machine :=
  write m scratch 1 (isa.window pdpt)

/-- With the window for the page directory too. -/
def pdMapped (isa : Isa) (scratch pdpt pd : BitVec 64) (m : Machine) : Machine :=
  write (pdptMapped isa scratch pdpt m) scratch 2 (isa.window pd)

theorem Start.pdptWindow (start : Start isa pml4 scratch addr m pdpt pd pt) :
    Window isa pml4 scratch 1 pdpt (pdptMapped isa scratch pdpt m).mem := by
  obtain ⟨_, _, hframe⟩ := next_some start.root
  exact .new start.opened (by decide) (by decide) hframe

theorem Start.pdWindow (start : Start isa pml4 scratch addr m pdpt (some f) pt) :
    Window isa pml4 scratch 2 f (pdMapped isa scratch pdpt f m).mem := by
  obtain ⟨_, _, hframe⟩ := next_some start.directory
  exact .new start.pdptWindow.opened (by decide) (by decide) hframe

/-- The function up to where it has looked for the tables. -/
theorem Start.ensure_eq (start : Start isa pml4 scratch addr m pdpt pd pt) :
    ensureTempPageTables isa pml4 scratch addr m =
      match pd with
      | none => createPdAndPt isa pml4 scratch addr (pdptMapped isa scratch pdpt m)
          (isa.pointer 1 pdpt)
      | some f =>
        match pt with
        | none => createPt isa pml4 scratch addr (pdMapped isa scratch pdpt f m) (isa.pointer 2 f)
        | some g => .ok (mapPt isa scratch (pdMapped isa scratch pdpt f m) g) := by
  obtain ⟨hpresent, hphys, _⟩ := next_some start.root
  have hload := @Window.load isa pml4 scratch pdpt 1 (vmmVirtToPdptIndex addr) _ start.pdptWindow
  have hpdpt : (pdptMapped isa scratch pdpt m).mem pdpt = m.mem pdpt :=
    setEntry_table _ _ start.apartPdpt
  have hslot : isa.layout.pd = 2 := by cases isa <;> rfl
  have hdirectory := start.directory
  rw [ensureTempPageTables]
  simp only [if_neg hpresent, hphys]
  change (load isa pml4 (pdptMapped isa scratch pdpt m) _ _ >>= _) = _
  rw [hload, hpdpt]
  change (if m.mem pdpt (vmmVirtToPdptIndex addr) &&& pgPresent = 0 then _ else _) = _
  cases pd with
  | none => exact if_pos hdirectory
  | some f =>
    obtain ⟨hpresent', hphys', _⟩ := next_some hdirectory
    have hload' := @Window.load isa pml4 scratch f 2 (vmmVirtToPdIndex addr) _ start.pdWindow
    have hne : f ≠ scratch := fun h => start.apartPd (congrArg some h)
    have hpd : (pdMapped isa scratch pdpt f m).mem f = m.mem f :=
      (setEntry_table _ _ hne).trans (setEntry_table _ _ hne)
    have htable := start.table f rfl
    simp only [if_neg hpresent', hphys', hslot]
    change (load isa pml4 (pdMapped isa scratch pdpt f m) _ _ >>= _) = _
    rw [hload', hpd]
    change (if m.mem f (vmmVirtToPdIndex addr) &&& pgPresent = 0 then _ else _) = _
    cases pt with
    | none => exact if_pos htable
    | some g =>
      obtain ⟨hpresent'', hphys'', _⟩ := next_some htable
      rw [if_neg hpresent'', hphys'']
      rfl

/-- Without a page directory the first store is where no window is. -/
theorem Start.faults (start : Start isa pml4 scratch addr m pdpt none pt) :
    ensureTempPageTables isa pml4 scratch addr m = .error .pageFault := by
  have hslot : isa.layout.newPd ≠ 0 ∧ (2 : Fin 512) ≠ isa.layout.newPd := by
    cases isa with
    | x8664 => exact ⟨by decide, by decide⟩
    | riscv64 => exact ⟨by decide, by decide⟩
  have hclear : ∀ region page, clear isa pml4
      (write { pdptMapped isa scratch pdpt m with region := region } scratch isa.layout.newPd
        (isa.window page)) (isa.pointer 2 page) = .error .pageFault := by
    intro region page
    have hopened : isa.Opened (pdptMapped isa scratch pdpt m).mem pml4 scratch :=
      start.pdptWindow.opened
    refine clear_unused (opened_write hopened hslot.1) (by decide) ?_
    rw [write_mem, setEntry_index _ hslot.2]
    change setEntry m.mem scratch 1 _ scratch 2 &&& pgPresent = 0
    rw [setEntry_index _ (by decide)]
    exact start.unused rfl
  rw [start.ensure_eq]
  simp only [createPdAndPt, hclear]
  rfl

/-- The entry for a page table is not the one that leads to the scratch table. -/
theorem Start.first_ne (start : Start isa pml4 scratch addr m pdpt (some f) none) (same : pml4 = f) :
    (0 : Fin 512) ≠ vmmVirtToPdIndex addr := by
  intro hindex
  have habsent : m.mem pml4 0 &&& pgPresent = 0 := by
    rw [same, hindex]
    exact start.table f rfl
  have hopened := start.opened
  cases isa with
  | x8664 =>
    obtain ⟨hroot, hframe, _⟩ := hopened
    rw [hroot] at habsent
    exact (scratch_link hframe).1 habsent
  | riscv64 =>
    have hscratch : scratch = pml4 := hopened
    exact start.apartPd (congrArg some (hscratch.trans same).symm)

/-- Memory after a page table was made. -/
def ptAdded (isa : Isa) (scratch addr pd new : BitVec 64)
    (mem : BitVec 64 → Fin 512 → BitVec 64) : BitVec 64 → Fin 512 → BitVec 64 :=
  let cleared := Function.update (setEntry mem scratch 3 (isa.window new)) new fun _ => 0
  let linked := setEntry cleared pd (vmmVirtToPdIndex addr)
    (isa.format.physAndFlagsToTableEntry new isa.format.tableFlags)
  setEntry (setEntry linked scratch 1 0) scratch 2 0

theorem createPt_ok {new : BitVec 64} {region : MemoryRegion}
    (window : Window isa pml4 scratch 2 f m.mem) (page : pageAlloc m.region = (new, region))
    (frame : isa.IsFrame new) (root : new ≠ pml4) (apart : new ≠ scratch) (pd : f ≠ scratch)
    (first : pml4 = f → (0 : Fin 512) ≠ vmmVirtToPdIndex addr) :
    createPt isa pml4 scratch addr m (isa.pointer 2 f) =
        .ok (isa.pointer 3 new, ⟨ptAdded isa scratch addr f new m.mem, region⟩) ∧
      Window isa pml4 scratch 3 new (ptAdded isa scratch addr f new m.mem) := by
  have hslot : isa.layout.addedPt = 3 := by cases isa <;> rfl
  generalize hm1 : write (Machine.mk m.mem region) scratch 3 (isa.window new) = m1
  have hnew : Window isa pml4 scratch 3 new m1.mem := by
    rw [← hm1]
    exact @Window.new isa pml4 scratch new ⟨m.mem, region⟩ 3 window.opened (by decide) (by decide)
      frame
  have hpd : Window isa pml4 scratch 2 f m1.mem := by
    rw [← hm1]
    exact @Window.other isa pml4 scratch f 2 ⟨m.mem, region⟩ 3 _ window (by decide) (by decide)
  -- the new table is cleared
  generalize hm2 : clearTable m1 new = m2
  have hclear : ∀ g, g ≠ new → m2.mem g = m1.mem g := by
    intro g h
    rw [← hm2]
    exact Function.update_of_ne h _ _
  have hnew2 : Window isa pml4 scratch 3 new m2.mem :=
    hnew.congr (congrFun (hclear _ root.symm) 0) (congrFun (hclear _ apart.symm) 3)
  have hpd2 : Window isa pml4 scratch 2 f m2.mem :=
    hpd.congr (congrFun (hclear _ root.symm) 0) (congrFun (hclear _ apart.symm) 2)
  -- and linked
  generalize hm3 : write m2 f (vmmVirtToPdIndex addr)
    (isa.format.physAndFlagsToTableEntry new isa.format.tableFlags) = m3
  have hnew3 : Window isa pml4 scratch 3 new m3.mem := by
    rw [← hm3]
    apply hnew2.congr
    · rw [write_mem]
      by_cases hroot : pml4 = f
      · rw [hroot]
        exact setEntry_index _ (first hroot)
      · exact congrFun (setEntry_table _ _ hroot) 0
    · exact congrFun (setEntry_table _ _ pd.symm) 3
  have hnew5 : Window isa pml4 scratch 3 new (write (write m3 scratch 1 0) scratch 2 0).mem :=
    (hnew3.other (by decide) (by decide)).other (by decide) (by decide)
  have hmem : (write (write m3 scratch 1 0) scratch 2 0).mem = ptAdded isa scratch addr f new m.mem := by
    rw [← hm3, ← hm2, ← hm1]
    rfl
  have hregion : m3.region = region := by
    rw [← hm3, ← hm2, ← hm1]
    rfl
  rw [← hmem]
  refine ⟨?_, hnew5⟩
  rw [createPt, page]
  simp only [hslot, hm1]
  rw [hnew.clear root apart, hm2]
  change (store isa pml4 m2 (isa.pointer 2 f) _ _ >>= _) = _
  rw [hpd2.store, hm3, ← hregion]
  rfl

/-- Without a page table one is made, if there is memory. -/
theorem Start.adds (start : Start isa pml4 scratch addr m pdpt (some f) none)
    (memory : freePages m.region ≠ []) :
    ∃ new region, (freePages m.region).Perm (new :: freePages region) ∧
      ensureTempPageTables isa pml4 scratch addr m = .ok (isa.pointer 3 new,
        ⟨ptAdded isa scratch addr f new (pdMapped isa scratch pdpt f m).mem, region⟩) ∧
      Window isa pml4 scratch 3 new
        (ptAdded isa scratch addr f new (pdMapped isa scratch pdpt f m).mem) := by
  have hstack : m.region.stack ≠ [] := fun h => memory (freePages_empty h)
  have hperm := pageAlloc_perm start.sized hstack
  generalize hpage : pageAlloc m.region = answer at hperm
  obtain ⟨new, region⟩ := answer
  have hnew : new ∈ freePages m.region := hperm.mem_iff.mpr List.mem_cons_self
  obtain ⟨hroot, hscratch, _, _⟩ := start.free new hnew
  have hne : f ≠ scratch := fun h => start.apartPd (congrArg some h)
  obtain ⟨hcall, hwindow⟩ := createPt_ok start.pdWindow hpage (start.frames new hnew) hroot hscratch
    hne start.first_ne
  refine ⟨new, region, hperm, ?_, hwindow⟩
  rw [start.ensure_eq]
  exact hcall

/-- Without memory the answer of `page_alloc` is taken for a page. -/
theorem Start.exhausted (start : Start isa pml4 scratch addr m pdpt (some f) none)
    (empty : freePages m.region = []) :
    ensureTempPageTables isa pml4 scratch addr m = .error .outOfMemory := by
  have hslot : isa.layout.addedPt = 3 := by cases isa <;> rfl
  have hpage : pageAlloc m.region = (0xFF, m.region) := by
    apply pageAlloc_empty
    by_contra hstack
    have hperm := pageAlloc_perm start.sized hstack
    rw [empty] at hperm
    exact List.cons_ne_nil _ _ hperm.nil_eq.symm
  have hsame : isa.window 0xFF = isa.window 0 := by cases isa <;> decide
  have hzero : isa.IsFrame 0 := by
    cases isa with
    | x8664 => exact rfl
    | riscv64 => exact ⟨rfl, by decide⟩
  generalize hm1 : write (Machine.mk (pdMapped isa scratch pdpt f m).mem m.region) scratch 3
    (isa.window 0xFF) = m1
  have hopened : isa.Opened m1.mem pml4 scratch := by
    rw [← hm1]
    exact @opened_write isa pml4 scratch ⟨_, m.region⟩ 3 _ start.pdWindow.opened (by decide)
  have hentry : m1.mem scratch 3 = isa.window 0 := by
    rw [← hm1, ← hsame]
    exact setEntry_self _ _ _ _
  have hclear : clear isa pml4 m1 (isa.pointer 3 0xFF) = .error .outOfMemory := by
    have haddress : (0 : BitVec 64).toNat / 2 ^ isa.bits * 2 ^ isa.bits +
        (0xFF : BitVec 64).toNat % 2 ^ isa.bits = 0xFF := by
      cases isa <;> decide
    have hodd : ¬ 0xFF % 0x1000 = 0 := by decide
    apply clear_error
    rw [tableBehind, translate_window hopened (by decide) hzero hentry, haddress]
    simp only [Bool.not_true, Bool.and_false, Bool.false_eq_true, if_false, if_neg hodd]
  have hregion : (pdMapped isa scratch pdpt f m).region = m.region := rfl
  rw [start.ensure_eq]
  simp only [createPt, hregion, hpage, hslot]
  rw [hm1, hclear]
  rfl

/-- A page table that is there gets a window. On x86_64 this is another one than the pointer is
for, and the pointer leads to the page at the same place in the gigapage of the page directory. -/
theorem Start.finds (start : Start isa pml4 scratch addr m pdpt (some f) (some g)) :
    ensureTempPageTables isa pml4 scratch addr m =
        .ok (mapPt isa scratch (pdMapped isa scratch pdpt f m) g) ∧
      isa.translate (mapPt isa scratch (pdMapped isa scratch pdpt f m) g).2.mem pml4
        (mapPt isa scratch (pdMapped isa scratch pdpt f m) g).1 =
          some (if isa = .x8664 then f.toNat / 2 ^ 30 * 2 ^ 30 + g.toNat % 2 ^ 30 else g.toNat, true) := by
  refine ⟨start.ensure_eq, ?_⟩
  obtain ⟨_, _, hframe⟩ := next_some (start.table f rfl)
  have hpd := start.pdWindow
  cases isa with
  | x8664 =>
    have hwindow : Window .x8664 pml4 scratch 2 f
        (mapPt .x8664 scratch (pdMapped .x8664 scratch pdpt f m) g).2.mem :=
      (hpd.other (by decide) (by decide)).other (by decide) (by decide)
    rw [if_pos rfl]
    exact translate_window hwindow.opened hwindow.small hwindow.frame hwindow.entry
  | riscv64 =>
    have hwindow : Window .riscv64 pml4 scratch 2 g
        (mapPt .riscv64 scratch (pdMapped .riscv64 scratch pdpt f m) g).2.mem :=
      (Window.new hpd.opened (by decide) (by decide) hframe).other (by decide) (by decide)
    rw [if_neg (by decide)]
    exact hwindow.translate

/-! ### What is written -/

variable {mem : BitVec 64 → Fin 512 → BitVec 64} {t new e : BitVec 64} {i j : Fin 512}

/-- The entries that no window is in. -/
def Beside (scratch t : BitVec 64) (j : Fin 512) : Prop := t = scratch → j.val = 0 ∨ 4 < j.val

theorem Beside.kept (beside : Beside scratch t j) (pos : i ≠ 0) (small : i.val ≤ 4) :
    setEntry mem scratch i e t j = mem t j := by
  by_cases h : t = scratch
  · subst h
    refine setEntry_index _ ?_
    rintro rfl
    rcases beside rfl with hzero | hlarge
    · exact pos (Fin.ext hzero)
    · omega
  · exact congrFun (setEntry_table _ _ h) j

theorem pdMapped_kept (beside : Beside scratch t j) :
    (pdMapped isa scratch pdpt f m).mem t j = m.mem t j :=
  (beside.kept (by decide) (by decide)).trans (beside.kept (by decide) (by decide))

theorem mapPt_kept (beside : Beside scratch t j) :
    (mapPt isa scratch m g).2.mem t j = m.mem t j := by
  have hslot : isa.layout.foundPt ≠ 0 ∧ isa.layout.foundPt.val ≤ 4 := by
    cases isa with
    | x8664 => exact ⟨by decide, by decide⟩
    | riscv64 => exact ⟨by decide, by decide⟩
  exact (beside.kept (by decide) (by decide)).trans (beside.kept hslot.1 hslot.2)

theorem ptAdded_kept (beside : Beside scratch t j) (old : t ≠ new)
    (other : ¬ (t = f ∧ j = vmmVirtToPdIndex addr)) :
    ptAdded isa scratch addr f new mem t j = mem t j := by
  have hlink : ∀ (mem : BitVec 64 → Fin 512 → BitVec 64) e,
      setEntry mem f (vmmVirtToPdIndex addr) e t j = mem t j := by
    intro mem e
    by_cases h : t = f
    · subst h
      exact setEntry_index _ fun hj => other ⟨rfl, hj⟩
    · exact congrFun (setEntry_table _ _ h) j
  rw [ptAdded, beside.kept (by decide) (by decide), beside.kept (by decide) (by decide), hlink,
    Function.update_of_ne old, beside.kept (by decide) (by decide)]

theorem ptAdded_link (apart : f ≠ scratch) :
    ptAdded isa scratch addr f new mem f (vmmVirtToPdIndex addr) =
      isa.format.physAndFlagsToTableEntry new isa.format.tableFlags := by
  rw [ptAdded, setEntry_table _ _ apart, setEntry_table _ _ apart, setEntry_self]

theorem ptAdded_new (apart : new ≠ scratch) (pd : new ≠ f) :
    ptAdded isa scratch addr f new mem new = fun _ => 0 := by
  rw [ptAdded, setEntry_table _ _ apart, setEntry_table _ _ apart, setEntry_table _ _ pd,
    Function.update_self]

theorem pageTableOf_some {table : BitVec 64}
    (root : isa.next (mem pml4 (vmmVirtToPml4Index addr)) = some pdpt)
    (directory : isa.next (mem pdpt (vmmVirtToPdptIndex addr)) = some f)
    (last : isa.next (mem f (vmmVirtToPdIndex addr)) = some table) :
    pageTableOf isa mem pml4 addr = some table := by
  rw [pageTableOf, root]
  change (isa.next (mem pdpt _) >>= _) = _
  rw [directory]
  exact last

/-- The entries on the way are beside the windows. -/
theorem Start.beside_root (start : Start isa pml4 scratch addr m pdpt pd pt) :
    Beside scratch pml4 (vmmVirtToPml4Index addr) :=
  fun _ => Or.inr start.kernel

theorem beside_ne (apart : t ≠ scratch) : Beside scratch t j := fun h => absurd h apart

/-- With the page table found, the call is right where the pointer leads to it. -/
theorem Start.found_right_iff (start : Start isa pml4 scratch addr m pdpt (some f) (some g)) :
    Right isa pml4 scratch addr m pdpt (some f) (some g) ↔
      (isa = .x8664 → f.toNat / 2 ^ 30 = g.toNat / 2 ^ 30) := by
  obtain ⟨hcall, htranslate⟩ := start.finds
  have hne : f ≠ scratch := fun h => start.apartPd (congrArg some h)
  have hkept : ∀ t j, Beside scratch t j →
      (mapPt isa scratch (pdMapped isa scratch pdpt f m) g).2.mem t j = m.mem t j :=
    fun t j beside => (mapPt_kept beside).trans (pdMapped_kept beside)
  have htable : pageTableOf isa (mapPt isa scratch (pdMapped isa scratch pdpt f m) g).2.mem pml4 addr =
      some g := by
    apply pageTableOf_some
    · rw [hkept _ _ start.beside_root]
      exact start.root
    · rw [hkept _ _ (beside_ne start.apartPdpt)]
      exact start.directory
    · rw [hkept _ _ (beside_ne hne)]
      exact start.table f rfl
  have hparts : f.toNat / 2 ^ 30 * 2 ^ 30 + g.toNat % 2 ^ 30 = g.toNat ↔
      f.toNat / 2 ^ 30 = g.toNat / 2 ^ 30 := by
    omega
  constructor
  · rintro ⟨pointer, m', table, hrun, hwalk, hpointer, _⟩ rfl
    rw [hcall] at hrun
    obtain rfl := congrArg Prod.snd (Except.ok.inj hrun)
    obtain rfl := congrArg Prod.fst (Except.ok.inj hrun)
    rw [htable] at hwalk
    obtain rfl := Option.some.inj hwalk
    rw [htranslate, if_pos rfl] at hpointer
    exact hparts.mp (congrArg Prod.fst (Option.some.inj hpointer))
  · intro hsame
    refine ⟨_, _, g, hcall, htable, ?_, fun h => absurd h (by simp), ?_, ?_⟩
    · refine htranslate.trans ?_
      split_ifs with hisa
      · rw [hparts.mpr (hsame hisa)]
      · rfl
    · intro t hchanged
      by_cases h : t = scratch
      · exact Or.inr (Or.inl h)
      · exact absurd (funext fun j => hkept t j (beside_ne h)) hchanged
    · exact fun i hi => hkept scratch i fun _ => hi

/-- With memory for the page table, the call is right. -/
theorem Start.added_right (start : Start isa pml4 scratch addr m pdpt (some f) none)
    (memory : freePages m.region ≠ []) : Right isa pml4 scratch addr m pdpt (some f) none := by
  obtain ⟨new, region, hperm, hcall, hwindow⟩ := start.adds memory
  have hne : f ≠ scratch := fun h => start.apartPd (congrArg some h)
  have hnew : new ∈ freePages m.region := hperm.mem_iff.mpr List.mem_cons_self
  have htaken : new ∉ freePages region := (List.nodup_cons.mp (hperm.nodup_iff.mp start.nodup)).1
  obtain ⟨hroot, hscratch, hpdpt, hpd⟩ := start.free new hnew
  have hpd' : new ≠ f := fun h => hpd (congrArg some h.symm)
  have habsent : m.mem f (vmmVirtToPdIndex addr) &&& pgPresent = 0 := start.table f rfl
  -- an entry that is present is not the one that is written
  have hkept : ∀ t j, Beside scratch t j → t ≠ new → ¬ (t = f ∧ j = vmmVirtToPdIndex addr) →
      ptAdded isa scratch addr f new (pdMapped isa scratch pdpt f m).mem t j = m.mem t j :=
    fun t j beside old other => (ptAdded_kept beside old other).trans (pdMapped_kept beside)
  have hpresent : ∀ t j c, isa.next (m.mem t j) = some c → ¬ (t = f ∧ j = vmmVirtToPdIndex addr) := by
    rintro t j c hnext ⟨rfl, rfl⟩
    exact (next_some hnext).1 habsent
  have htable : pageTableOf isa (ptAdded isa scratch addr f new (pdMapped isa scratch pdpt f m).mem)
      pml4 addr = some new := by
    apply pageTableOf_some
    · rw [hkept _ _ start.beside_root hroot.symm (hpresent _ _ _ start.root)]
      exact start.root
    · rw [hkept _ _ (beside_ne start.apartPdpt) hpdpt.symm (hpresent _ _ _ start.directory)]
      exact start.directory
    · rw [ptAdded_link hne]
      exact next_link (start.frames new hnew)
  refine ⟨_, _, new, hcall, htable, hwindow.translate, ?_, ?_, ?_⟩
  · exact fun _ => ptAdded_new hscratch hpd'
  · intro t hchanged
    by_cases hts : t = scratch
    · exact Or.inr (Or.inl hts)
    by_cases htf : t = f
    · exact Or.inr (Or.inr (Or.inr (Or.inl (congrArg some htf))))
    by_cases htn : t = new
    · subst htn
      exact Or.inr (Or.inr (Or.inr (Or.inr (Or.inr ⟨hnew, htaken⟩))))
    · exact absurd (funext fun j => hkept t j (beside_ne hts) htn fun h => htf h.1) hchanged
  · exact fun i hi => hkept scratch i (fun _ => hi) hscratch.symm fun h => hne h.1.symm

end Calls

/-- The call is right if and only if the address has a page directory, a new page table finds
memory, and a page table that is there is, on x86_64, in the gigapage of the page directory. -/
theorem ensureTempPageTables_right_iff (isa : Isa) (pml4 scratch addr : BitVec 64) (m : Machine)
    (pdpt : BitVec 64) (pd pt : Option (BitVec 64))
    (start : Start isa pml4 scratch addr m pdpt pd pt) :
    Right isa pml4 scratch addr m pdpt pd pt ↔
      ∃ f, pd = some f ∧ (pt = none → freePages m.region ≠ []) ∧
        ∀ g, pt = some g → isa = .x8664 → f.toNat / 2 ^ 30 = g.toNat / 2 ^ 30 := by
  cases pd with
  | none =>
    constructor
    · rintro ⟨_, _, _, hrun, _⟩
      rw [start.faults] at hrun
      cases hrun
    · rintro ⟨f, hf, _⟩
      cases hf
  | some f =>
    cases pt with
    | none =>
      constructor
      · rintro ⟨_, _, _, hrun, _⟩
        refine ⟨f, rfl, ?_, fun g hg => absurd hg (by simp)⟩
        intro _ hempty
        rw [start.exhausted hempty] at hrun
        cases hrun
      · rintro ⟨f', _, hmemory, _⟩
        exact start.added_right (hmemory rfl)
    | some g =>
      rw [start.found_right_iff]
      constructor
      · intro h
        refine ⟨f, rfl, fun hg => absurd hg (by simp), ?_⟩
        intro g' hg'
        obtain rfl := Option.some.inj hg'
        exact h
      · rintro ⟨f', hf', _, hsame⟩
        obtain rfl := Option.some.inj hf'
        exact hsame g rfl

/-- `PER_CPU_TEMP_PAGE_BASE`, which the call is for. -/
def perCpuTempPageBase : BitVec 64 := 0xffffffff80400000

theorem bootRegion_pages : freePages DirectMapX86.bootMachine.region =
    [0x10000, 0x11000, 0x12000, 0x13000, 0x14000, 0x15000, 0x16000] := by
  decide

/-- The call on x86_64 where only the page table is missing. -/
theorem bootMachine_start : Start .x8664 0x1000 0x8000 perCpuTempPageBase
    (write DirectMapX86.bootMachine 0x1000 0 0x8003) 0x3000 (some 0x4000) none where
  opened := ⟨rfl, rfl, by decide⟩
  kernel := by decide
  root := by decide
  directory := by
    change Isa.x8664.next _ = some _
    decide
  table := by
    intro f hf
    obtain rfl := Option.some.inj hf
    change _ &&& pgPresent = 0
    decide
  noTable := fun h => absurd h (by simp)
  apartPdpt := by decide
  apartPd := by decide
  unused := fun h => absurd h (by simp)
  sized := by simp [WellSized, DirectMapX86.bootMachine]
  nodup := by
    rw [write_region, bootRegion_pages]
    decide
  frames := by
    rw [write_region, bootRegion_pages]
    simp [Isa.IsFrame, VmMapper.IsFrame, vmmTableEntryToPhys]
  free := by
    rw [write_region, bootRegion_pages]
    simp

theorem ensureTempPageTables_right_iff_boot : Right .x8664 0x1000 0x8000 perCpuTempPageBase
    (write DirectMapX86.bootMachine 0x1000 0 0x8003) 0x3000 (some 0x4000) none := by
  apply (ensureTempPageTables_right_iff _ _ _ _ _ _ _ _ bootMachine_start).mpr
  refine ⟨0x4000, rfl, ?_, fun g hg => absurd hg (by simp)⟩
  intro _
  rw [write_region, bootRegion_pages]
  simp

/-- The PDPT of the kernel is there, and has no page directory. -/
def noDirectory : Isa → Machine
  | .x8664 => write { DirectMapX86.bootMachine with
      mem := setEntry (fun _ _ => 0) 0x1000 511 0x3003 } 0x1000 0 0x8003
  | .riscv64 => { DirectMapX86.bootMachine with mem := setEntry (fun _ _ => 0) 0x1000 511 0xc01 }

/-- The scratch table of the call. -/
def scratchTable : Isa → BitVec 64
  | .x8664 => 0x8000
  | .riscv64 => 0x1000

theorem noDirectory_start (isa : Isa) : Start isa 0x1000 (scratchTable isa) perCpuTempPageBase
    (noDirectory isa) 0x3000 none none := by
  have hregion : (noDirectory isa).region = DirectMapX86.bootMachine.region := by
    cases isa <;> rfl
  constructor
  · cases isa with
    | x8664 => exact ⟨rfl, rfl, by decide⟩
    | riscv64 => exact rfl
  · decide
  · cases isa <;> decide
  · cases isa <;> exact rfl
  · exact fun f hf => absurd hf (by simp)
  · exact fun _ => rfl
  · cases isa <;> decide
  · simp
  · intro _
    cases isa <;> rfl
  · rw [hregion]
    simp [WellSized, DirectMapX86.bootMachine]
  · rw [hregion, bootRegion_pages]
    decide
  · rw [hregion, bootRegion_pages]
    cases isa with
    | x8664 => simp [Isa.IsFrame, VmMapper.IsFrame, vmmTableEntryToPhys]
    | riscv64 => simp [Isa.IsFrame, DirectMapRiscV.IsWideFrame]
  · rw [hregion, bootRegion_pages]
    cases isa <;> simp [scratchTable]

/-- The page fault of a call without a page directory, on both. -/
theorem noDirectory_not_right :
    (∀ isa, ensureTempPageTables isa 0x1000 (scratchTable isa) perCpuTempPageBase (noDirectory isa) =
      .error .pageFault) ∧
    ∀ isa, ¬ Right isa 0x1000 (scratchTable isa) perCpuTempPageBase (noDirectory isa) 0x3000 none
      none := by
  have hfault := fun isa => (noDirectory_start isa).faults
  refine ⟨hfault, ?_⟩
  rintro isa ⟨_, _, _, hrun, _⟩
  rw [hfault isa] at hrun
  cases hrun

end TempTables
