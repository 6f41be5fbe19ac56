import AnosKernel.Lib.Bytes
import AnosKernel.Lib.Slots
import AnosKernel.MapSyscalls

/-!
# The ACPI tables

`acpi_tables_init` of `kernel/platform/acpi/acpitables.c`, which maps the tables and puts virtual
addresses into the root table. Page tables are kept apart from the memory of the firmware. A fault,
a write past the end of `page_stack` and a root table among the entries end a run without a result.
-/

namespace AcpiTables

open Bytes Slots VmMapper MapSyscalls

abbrev Byte := BitVec 8

structure AddressMapping where
  phys : BitVec 64
  virt : BitVec 64

structure World where
  machine : Machine
  pml4 : BitVec 64
  /-- Physical memory, by address. -/
  ram : Memory
  pageStack : List AddressMapping
  nextVaddr : BitVec 64
  handedOver : Bool

/-! ## Virtual memory -/

def entryAt (w : World) (v : BitVec 64) : BitVec 64 := vmmVirtToPtEntry w.machine w.pml4 v

def vmmVirtToPhysPage (w : World) (v : BitVec 64) : BitVec 64 := vmmTableEntryToPhys (entryAt w v)

def vmmVirtToPhys (w : World) (v : BitVec 64) : BitVec 64 := vmmVirtToPhysPage w v + (v &&& 0xfff)

def Canonical (v : BitVec 64) : Prop := v.toNat < 2 ^ 47 ∨ 2 ^ 64 - 2 ^ 47 ≤ v.toNat

instance (v : BitVec 64) : Decidable (Canonical v) := inferInstanceAs (Decidable (_ ∨ _))

/-- Where an access goes; none if it faults. -/
def translate (w : World) (v : BitVec 64) : Option (BitVec 64) :=
  if Canonical v ∧ entryAt w v ≠ 0 then some (vmmVirtToPhys w v) else none

/-- The places of consecutive bytes. -/
def places (w : World) (v : BitVec 64) : Nat → Option (List (BitVec 64))
  | 0 => some []
  | n + 1 => (translate w v).bind fun a => (places w (v + 1) n).map (a :: ·)

def readVirt (w : World) (v : BitVec 64) (n : Nat) : Option (List Byte) :=
  (places w v n).map (readAt w.ram)

def writeVirt (w : World) (v : BitVec 64) (bytes : List Byte) : Option World :=
  (places w v bytes.length).map fun places => { w with ram := writeAt w.ram places bytes }

/-! ## Mapping the tables -/

def acpiTablesVaddrBase : BitVec 64 := 0xffffffff81100000

def acpiTablesVaddrLimit : BitVec 64 := 0xffffffff82000000

def kernelBase : BitVec 64 := 0xffffffff80000000

/-- What becomes of each mapping is not looked at. -/
def mapPages (w : World) : List (BitVec 64 × BitVec 64) → World
  | [] => w
  | (v, phys) :: pages =>
    mapPages { w with machine := (vmmMapPageIn w.machine w.pml4 v phys 3).2 } pages

/-- The eight pages of a window; the third one leaves out a page. -/
def windowPages (vaddr phys : BitVec 64) : List (BitVec 64 × BitVec 64) :=
  [(vaddr, phys), (vaddr + 0x1000, phys + 0x1000), (vaddr + 0x2000, phys + 0x3000),
    (vaddr + 0x3000, phys + 0x4000), (vaddr + 0x4000, phys + 0x5000),
    (vaddr + 0x5000, phys + 0x6000), (vaddr + 0x6000, phys + 0x7000),
    (vaddr + 0x7000, phys + 0x8000)]

def getMappingFor (phys : BitVec 64) (w : World) : Option (BitVec 64 × World) :=
  if phys > 0x400000 then
    match w.pageStack.find? fun m => phys &&& 0xfffffffffffff000 = m.phys with
    | some m => some ((phys &&& 0xfff) ||| m.virt, w)
    | none =>
      if w.nextVaddr = acpiTablesVaddrLimit then some (0, w)
      else if w.pageStack.length < 64 then
        some ((phys &&& 0xfff) ||| w.nextVaddr,
          { mapPages w (windowPages w.nextVaddr phys) with
            pageStack := w.pageStack ++ [⟨phys &&& 0xfffffffffffff000, w.nextVaddr⟩]
            nextVaddr := w.nextVaddr + 0x8000 })
      else none
  else some (phys ||| kernelBase, w)

def sdtLength (w : World) (sdt : BitVec 64) : Option Nat := (readVirt w (sdt + 4) 4).map ofBytes

def checksumSdt (w : World) (sdt : BitVec 64) : Option Bool :=
  (sdtLength w sdt).bind fun length =>
    (readVirt w sdt length).map fun bytes => (bytes.map BitVec.toNat).sum % 256 = 0

/-- The size of the entries: four bytes in an RSDT, eight in an XSDT. -/
def entryWidth (signature : List Byte) : Option Nat :=
  if signature = [0x52, 0x53, 0x44, 0x54] then some 4
  else if signature = [0x58, 0x53, 0x44, 0x54] then some 8
  else none

/-- `RSDT_ENTRY_COUNT` and `XSDT_ENTRY_COUNT`. -/
def entryCount (w : World) (sdt : BitVec 64) (width : Nat) : Option Nat :=
  (sdtLength w sdt).map fun length => (length + 2 ^ 64 - 36) % 2 ^ 64 / width % 2 ^ 32

def entrySlots (sdt : BitVec 64) (width count : Nat) : List (BitVec 64) :=
  (List.range count).map fun i => addr sdt (36 + width * i)

/-- `map_sdt` up to the entries: the table, null if it is not mapped, and the size of its entries if
it is a root table. -/
def mapHeader (phys : BitVec 64) (w : World) : Option (BitVec 64 × World × Option Nat) :=
  (getMappingFor phys w).bind fun (vaddr, w) =>
    if vaddr = 0 then some (0, w, none)
    else
      (checksumSdt w vaddr).bind fun ok =>
        if ok then (readVirt w vaddr 4).map fun signature => (vaddr, w, entryWidth signature)
        else some (0, w, none)

/-- `map_sdt` for an entry. -/
def mapTable (phys : BitVec 64) (w : World) : Option (BitVec 64 × World) :=
  match mapHeader phys w with
  | some (vaddr, w, none) => some (vaddr, w)
  | _ => none

/-- The loop over the entries, and whether every one was mapped. -/
def mapEntries (width : Nat) : List (BitVec 64) → World → Option (World × Bool)
  | [], w => some (w, true)
  | slot :: slots, w =>
    (readVirt w slot width).bind fun bytes =>
      (mapTable (BitVec.ofNat 64 (ofBytes bytes)) w).bind fun (vaddr, w) =>
        (writeVirt w slot (toBytes width vaddr.toNat)).bind fun w =>
          (mapEntries width slots w).map fun (w, all) => (w, vaddr ≠ 0 && all)

/-- `map_sdt` for the root table. -/
def mapRoot (phys : BitVec 64) (w : World) : Option (BitVec 64 × World × Bool) :=
  match mapHeader phys w with
  | some (sdt, w, some width) =>
    (entryCount w sdt width).bind fun count =>
      (mapEntries width (entrySlots sdt width count) w).map fun (w, all) => (sdt, w, all)
  | some (sdt, w, none) => some (sdt, w, false)
  | none => none

/-- What is checked and copied of an RSDP: before revision 1 it has no length. -/
def rsdpSize (w : World) (rsdp : BitVec 64) : Option Nat :=
  (readVirt w (rsdp + 15) 1).bind fun revision =>
    if ofBytes revision = 0 then some 20 else (readVirt w (rsdp + 20) 4).map ofBytes

def checksumRsdp (w : World) (rsdp : BitVec 64) : Option Bool :=
  (rsdpSize w rsdp).bind fun size =>
    (readVirt w rsdp size).map fun bytes => (bytes.map BitVec.toNat).sum % 256 = 0

def rootAddress (w : World) (rsdp : BitVec 64) : Option (BitVec 64) :=
  (readVirt w (rsdp + 15) 1).bind fun revision =>
    if ofBytes revision > 1 then
      (readVirt w (rsdp + 24) 8).map fun bytes => BitVec.ofNat 64 (ofBytes bytes)
    else (readVirt w (rsdp + 16) 4).map fun bytes => BitVec.ofNat 64 (ofBytes bytes)

/-- `acpi_tables_init`: the root table or null, and whether every entry was mapped. -/
def acpiTablesInit (rsdp : BitVec 64) (w : World) : Option (BitVec 64 × World × Bool) :=
  if rsdp = 0 then some (0, w, false)
  else
    (checksumRsdp w rsdp).bind fun ok =>
      if ok then (rootAddress w rsdp).bind fun phys => mapRoot phys w
      else some (0, w, false)

/-! ## Pages -/

/-- The address space is a tree of tables, and the kernel's part has no large pages. -/
structure Paged (w : World) : Prop where
  wellFormed : WellFormed w.machine w.pml4
  straight : ∀ v, kernelBase ≤ v → Straight w.machine.mem v 3 w.pml4

/-- The entry that `vmm_map_page_containing` writes for a physical address. -/
def writtenEntry (phys : BitVec 64) : BitVec 64 := vmmPhysAndFlagsToTableEntry phys 3

theorem mapPage_spec {w : World} (paged : Paged w) {v phys : BitVec 64} (hv : kernelBase ≤ v) :
    let w' : World := { w with machine := (vmmMapPageIn w.machine w.pml4 v phys 3).2 }
    Paged w' ∧ ∀ u, kernelBase ≤ u → entryAt w' u = entryAt w u ∨
      pageNumber u = pageNumber v ∧ entryAt w' u = writtenEntry phys := by
  intro w'
  have straight := paged.straight v hv
  obtain ⟨ok, m', hm⟩ : ∃ ok m', vmmMapPageIn w.machine w.pml4 v phys 3 = (ok, m') := ⟨_, _, rfl⟩
  have hw' : w' = { w with machine := m' } := by
    show { w with machine := (vmmMapPageIn w.machine w.pml4 v phys 3).2 } = _
    rw [hm]
  rw [hw']
  obtain ⟨hothers, hwf⟩ := map_keeps_others paged.wellFormed straight hm
  refine ⟨⟨hwf, fun u hu => (hothers u (paged.straight u hu)).1⟩, fun u hu => ?_⟩
  by_cases hpage : pageNumber u = pageNumber v
  · cases ok with
    | false =>
      obtain ⟨-, hkept⟩ := vmmMapPageIn_failed paged.wellFormed straight hm
      exact Or.inl (hkept u (paged.straight u hu)).2
    | true =>
      have hwritten := map_writes_one_page paged.wellFormed straight hm (by decide)
      exact Or.inr ⟨hpage, (entry_eq_of_pageNumber hpage _ _).trans hwritten⟩
  · exact Or.inl ((hothers u (paged.straight u hu)).2 hpage)

/-- What is left of a world but for the page tables. -/
structure SameBut (w w' : World) : Prop where
  pml4 : w'.pml4 = w.pml4
  ram : w'.ram = w.ram
  pageStack : w'.pageStack = w.pageStack
  nextVaddr : w'.nextVaddr = w.nextVaddr

theorem mapPages_spec {pages : List (BitVec 64 × BitVec 64)} {w : World} (paged : Paged w)
    (kernel : ∀ page ∈ pages, kernelBase ≤ page.1) :
    Paged (mapPages w pages) ∧ SameBut w (mapPages w pages) ∧ ∀ u, kernelBase ≤ u →
      entryAt (mapPages w pages) u = entryAt w u ∨
        ∃ page ∈ pages, pageNumber u = pageNumber page.1 ∧
          entryAt (mapPages w pages) u = writtenEntry page.2 := by
  induction pages generalizing w with
  | nil => exact ⟨paged, ⟨rfl, rfl, rfl, rfl⟩, fun u _ => Or.inl rfl⟩
  | cons page pages ih =>
    obtain ⟨v, phys⟩ := page
    obtain ⟨hpaged, hentry⟩ := @mapPage_spec _ paged _ phys (kernel _ List.mem_cons_self)
    obtain ⟨hpaged', hsame, hentries⟩ :=
      ih hpaged (fun page hpage => kernel page (List.mem_cons_of_mem _ hpage))
    refine ⟨hpaged', ⟨hsame.pml4, hsame.ram, hsame.pageStack, hsame.nextVaddr⟩, fun u hu => ?_⟩
    obtain hkept | ⟨page, hpage, hnumber, hwritten⟩ := hentries u hu
    · obtain hkept' | ⟨hnumber, hwritten⟩ := hentry u hu
      · exact Or.inl (hkept.trans hkept')
      · exact Or.inr ⟨_, List.mem_cons_self, hnumber, hkept.trans hwritten⟩
    · exact Or.inr ⟨page, List.mem_cons_of_mem _ hpage, hnumber, hwritten⟩

/-! ## Addresses of the kernel -/

theorem kernel_iff {v : BitVec 64} : kernelBase ≤ v ↔ 0xffffffff80000000 ≤ v.toNat := by
  have hbase : kernelBase.toNat = 0xffffffff80000000 := rfl
  rw [BitVec.le_def, hbase]

theorem canonical_of_kernel {v : BitVec 64} (h : kernelBase ≤ v) : Canonical v := by
  rw [kernel_iff] at h
  right
  omega

theorem translate_eq_some {w : World} {v a : BitVec 64} :
    translate w v = some a ↔ (Canonical v ∧ entryAt w v ≠ 0) ∧ vmmVirtToPhys w v = a := by
  rw [translate]
  split_ifs with h
  · exact ⟨fun ha => ⟨h, Option.some.inj ha⟩, fun ha => congrArg some ha.2⟩
  · exact ⟨fun ha => (nomatch ha), fun ha => absurd ha.1 h⟩

theorem translate_eq_none {w : World} {v : BitVec 64} (h : kernelBase ≤ v) :
    translate w v = none ↔ entryAt w v = 0 := by
  rw [translate]
  split_ifs with hmapped
  · exact ⟨fun hnone => (nomatch hnone), fun hzero => absurd hzero hmapped.2⟩
  · simp only [canonical_of_kernel h, true_and, ne_eq, not_not] at hmapped
    exact ⟨fun _ => hmapped, fun _ => rfl⟩

/-- Two kernel addresses of one page. -/
theorem page_of_kernel {v u : BitVec 64} (hv : kernelBase ≤ v) (hu : kernelBase ≤ u) :
    pageNumber v = pageNumber u ↔ v.toNat / 4096 = u.toNat / 4096 := by
  have hlt := v.isLt
  have hlt' := u.isLt
  rw [kernel_iff] at hv hu
  rw [← BitVec.toNat_inj, toNat_pageNumber, toNat_pageNumber]
  omega

theorem writtenEntry_ne_zero (phys : BitVec 64) : writtenEntry phys ≠ 0 := by
  intro h
  have hbit := congrArg (fun e => e.getLsbD 0) h
  simp [writtenEntry, vmmPhysAndFlagsToTableEntry] at hbit

theorem phys_writtenEntry (phys : BitVec 64) :
    vmmTableEntryToPhys (writtenEntry phys) = vmmTableEntryToPhys phys :=
  phys_entry (by decide)

theorem toNat_frame (phys : BitVec 64) :
    (vmmTableEntryToPhys phys).toNat = phys.toNat % 2 ^ 48 / 4096 * 4096 :=
  Masks.toNat_and_field phys _ 12 48 (by decide) rfl

/-- The frame and the offset are the whole of a physical address. -/
theorem frame_add_offset {phys : BitVec 64} (h : phys.toNat < 2 ^ 48) :
    vmmTableEntryToPhys phys + (phys &&& 0xfff) = phys := by
  apply BitVec.eq_of_toNat_eq
  rw [BitVec.toNat_add, toNat_frame, Masks.toNat_and_low phys _ 12 rfl]
  omega

theorem frame_align (phys : BitVec 64) :
    vmmTableEntryToPhys (phys &&& 0xfffffffffffff000) = vmmTableEntryToPhys phys := by
  have hmask : (0xfffffffffffff000 : BitVec 64) &&& 0x0000fffffffff000 = 0x0000fffffffff000 := by
    decide
  rw [vmmTableEntryToPhys, vmmTableEntryToPhys, BitVec.and_assoc, hmask]

theorem or_aligned {v : BitVec 64} (aligned : v &&& 0xfff = 0) (phys : BitVec 64) :
    (phys &&& 0xfff) ||| v = (phys &&& 0xfff) + v := by
  have hdisjoint : (phys &&& 0xfff) &&& v = 0 := by
    rw [BitVec.and_assoc, BitVec.and_comm 0xfff v, aligned]
    exact BitVec.and_zero
  exact (BitVec.add_eq_or_of_and_eq_zero _ _ hdisjoint).symm

theorem or_kernelBase {phys : BitVec 64} (low : phys.toNat < 2 ^ 31) :
    phys ||| kernelBase = phys + kernelBase := by
  have hdisjoint : phys &&& kernelBase = 0 := by
    apply BitVec.eq_of_toNat_eq
    rw [Masks.toNat_and_high phys _ 31 (by decide) rfl, Nat.div_eq_of_lt low]
    rfl
  exact (BitVec.add_eq_or_of_and_eq_zero _ _ hdisjoint).symm

/-! ## The windows -/

/-- The first of the temporary mapping pages, right after the low 4 MiB. -/
def perCpuTempPageBase : BitVec 64 := 0xffffffff80400000

/-- Where the kernel has its tables: in the low 4 MiB, or in the area for them. -/
def Home (v : BitVec 64) : Prop :=
  kernelBase ≤ v ∧ v < perCpuTempPageBase ∨ acpiTablesVaddrBase ≤ v ∧ v < acpiTablesVaddrLimit

theorem home_iff {v : BitVec 64} : Home v ↔
    0xffffffff80000000 ≤ v.toNat ∧ v.toNat < 0xffffffff80400000 ∨
      0xffffffff81100000 ≤ v.toNat ∧ v.toNat < 0xffffffff82000000 := Iff.rfl

theorem Home.kernel {v : BitVec 64} (h : Home v) : kernelBase ≤ v := by
  rw [home_iff] at h
  rw [kernel_iff]
  omega

/-- A window: its first page is mapped to the page of the table, if to any. -/
structure Window (w : World) (m : AddressMapping) : Prop where
  aligned : m.virt &&& 0xfff = 0
  above : acpiTablesVaddrBase ≤ m.virt
  below : m.virt.toNat + 0x8000 ≤ w.nextVaddr.toNat
  first : entryAt w m.virt = 0 ∨
    vmmTableEntryToPhys (entryAt w m.virt) = vmmTableEntryToPhys m.phys

/-- The low 4 MiB are mapped, the page after them is not, and of the area for the tables only the
windows that are in use. -/
structure Inv (w : World) : Prop where
  paged : Paged w
  low : ∀ v, kernelBase ≤ v → v < perCpuTempPageBase → translate w v = some (v - kernelBase)
  temp : entryAt w perCpuTempPageBase = 0
  next : w.nextVaddr = addr acpiTablesVaddrBase (0x8000 * w.pageStack.length)
  few : w.pageStack.length ≤ 64
  fresh : ∀ v, w.nextVaddr ≤ v → v < acpiTablesVaddrLimit → entryAt w v = 0
  windows : ∀ m ∈ w.pageStack, Window w m

/-- No page of the windows is mapped to the very first frame, which the hand-over takes for a page
that is not mapped. -/
def Framed (w : World) : Prop :=
  ∀ v, acpiTablesVaddrBase ≤ v → v < w.nextVaddr → entryAt w v ≠ 0 →
    vmmTableEntryToPhys (entryAt w v) ≠ 0

/-- Which page of the table's memory is mapped `k` pages into a window. -/
def skip (k : Nat) : Nat := if k < 2 then k else k + 1

theorem windowPages_eq (vaddr phys : BitVec 64) :
    windowPages vaddr phys =
      (List.range 8).map fun k => (addr vaddr (0x1000 * k), addr phys (0x1000 * skip k)) := by
  simp [windowPages, List.range_succ, addr, skip]

section NewWindow

variable {w : World} {phys : BitVec 64}

theorem Inv.toNat_next (inv : Inv w) :
    w.nextVaddr.toNat = 0xffffffff81100000 + 0x8000 * w.pageStack.length := by
  have hbase : acpiTablesVaddrBase.toNat = 0xffffffff81100000 := rfl
  have hfew := inv.few
  rw [inv.next, toNat_addr (by omega), hbase]

/-- The world after a window was mapped. -/
def withWindow (w : World) (phys : BitVec 64) : World :=
  { mapPages w (windowPages w.nextVaddr phys) with
    pageStack := w.pageStack ++ [⟨phys &&& 0xfffffffffffff000, w.nextVaddr⟩]
    nextVaddr := w.nextVaddr + 0x8000 }

theorem withWindow_entries (inv : Inv w) (room : w.pageStack.length < 64) :
    Paged (withWindow w phys) ∧ (withWindow w phys).ram = w.ram ∧ ∀ u, kernelBase ≤ u →
      entryAt (withWindow w phys) u = entryAt w u ∨
        ∃ k < 8, u.toNat / 4096 = w.nextVaddr.toNat / 4096 + k ∧
          entryAt (withWindow w phys) u = writtenEntry (addr phys (0x1000 * skip k)) := by
  have hnext := inv.toNat_next
  have haddr : ∀ k < 8, (addr w.nextVaddr (0x1000 * k)).toNat = w.nextVaddr.toNat + 0x1000 * k := by
    intro k hk
    exact toNat_addr (by omega)
  have hkernel : ∀ k < 8, kernelBase ≤ addr w.nextVaddr (0x1000 * k) := by
    intro k hk
    rw [kernel_iff, haddr k hk]
    omega
  have hpages : ∀ page ∈ windowPages w.nextVaddr phys, kernelBase ≤ page.1 := by
    intro page hpage
    rw [windowPages_eq, List.mem_map] at hpage
    obtain ⟨k, hk, rfl⟩ := hpage
    exact hkernel k (List.mem_range.mp hk)
  obtain ⟨hpaged, hsame, hentries⟩ := mapPages_spec inv.paged hpages
  refine ⟨⟨hpaged.wellFormed, hpaged.straight⟩, hsame.ram, fun u hu => ?_⟩
  obtain hkept | ⟨page, hpage, hnumber, hwritten⟩ := hentries u hu
  · exact Or.inl hkept
  · rw [windowPages_eq, List.mem_map] at hpage
    obtain ⟨k, hk, rfl⟩ := hpage
    have hk := List.mem_range.mp hk
    refine Or.inr ⟨k, hk, ?_, hwritten⟩
    rw [page_of_kernel hu (hkernel k hk), haddr k hk] at hnumber
    omega

theorem Inv.toNat_next_withWindow (inv : Inv w) (room : w.pageStack.length < 64) :
    (withWindow w phys).nextVaddr.toNat = w.nextVaddr.toNat + 0x8000 := by
  have hnext := inv.toNat_next
  have hsum : (withWindow w phys).nextVaddr = addr w.nextVaddr 0x8000 := rfl
  rw [hsum, toNat_addr (by omega)]

/-- Outside the new window nothing changes. -/
theorem withWindow_outside (inv : Inv w) (room : w.pageStack.length < 64) {u : BitVec 64}
    (hu : kernelBase ≤ u)
    (outside : u.toNat < w.nextVaddr.toNat ∨ w.nextVaddr.toNat + 0x8000 ≤ u.toNat) :
    entryAt (withWindow w phys) u = entryAt w u := by
  have hnext := inv.toNat_next
  obtain ⟨-, -, hentries⟩ := @withWindow_entries w phys inv room
  obtain hkept | ⟨k, hk, hpage, -⟩ := hentries u hu
  · exact hkept
  · omega

theorem translate_congr {w' : World} {v : BitVec 64} (same : entryAt w' v = entryAt w v) :
    translate w' v = translate w v := by
  rw [translate, translate, vmmVirtToPhys, vmmVirtToPhys, vmmVirtToPhysPage, vmmVirtToPhysPage,
    same]

theorem frame_ne_zero {k : Nat} (high : 0x400000 < phys.toNat) (below : phys.toNat < 127 * 2 ^ 40)
    (hk : k ≤ 8) : vmmTableEntryToPhys (addr phys (0x1000 * k)) ≠ 0 := by
  intro h
  have hzero := congrArg BitVec.toNat h
  rw [toNat_frame, toNat_addr (by omega)] at hzero
  change _ = 0 at hzero
  omega

theorem Window.withWindow {m : AddressMapping} (h : Window w m) (inv : Inv w)
    (room : w.pageStack.length < 64) : Window (withWindow w phys) m := by
  have hnext := @Inv.toNat_next_withWindow w phys inv room
  have hbelow := h.below
  have hkernel : kernelBase ≤ m.virt := by
    have habove := h.above
    rw [BitVec.le_def] at habove ⊢
    exact Nat.le_trans (by decide) habove
  refine ⟨h.aligned, h.above, by omega, ?_⟩
  rw [withWindow_outside inv room hkernel (by omega)]
  exact h.first

theorem withWindow_newest (inv : Inv w) (room : w.pageStack.length < 64) :
    Window (withWindow w phys) ⟨phys &&& 0xfffffffffffff000, w.nextVaddr⟩ := by
  obtain ⟨-, -, hentries⟩ := @withWindow_entries w phys inv room
  have hnext := inv.toNat_next
  have hbase : acpiTablesVaddrBase.toNat = 0xffffffff81100000 := rfl
  have hlimit : acpiTablesVaddrLimit.toNat = 0xffffffff82000000 := rfl
  constructor
  · rw [Masks.and_low_eq_zero_iff (k := 12) rfl]
    show w.nextVaddr.toNat % 2 ^ 12 = 0
    omega
  · rw [BitVec.le_def, hbase]
    show _ ≤ w.nextVaddr.toNat
    omega
  · exact Nat.le_of_eq (Inv.toNat_next_withWindow inv room).symm
  · obtain hkept | ⟨k, hk, hpage, hwritten⟩ := hentries w.nextVaddr (by rw [kernel_iff]; omega)
    · left
      rw [hkept]
      exact inv.fresh _ (BitVec.le_refl _) (by rw [BitVec.lt_def]; omega)
    · right
      obtain rfl : k = 0 := by omega
      rw [hwritten, phys_writtenEntry, frame_align]
      simp [addr, skip]

theorem withWindow_inv (inv : Inv w) (room : w.pageStack.length < 64) :
    Inv (withWindow w phys) := by
  obtain ⟨hpaged, -, -⟩ := @withWindow_entries w phys inv room
  have hnext := inv.toNat_next
  have hnext' := @Inv.toNat_next_withWindow w phys inv room
  have htemp : perCpuTempPageBase.toNat = 0xffffffff80400000 := rfl
  have hbase : acpiTablesVaddrBase.toNat = 0xffffffff81100000 := rfl
  have hlength : (withWindow w phys).pageStack.length = w.pageStack.length + 1 :=
    List.length_append
  constructor
  · exact hpaged
  · intro v hv hlow
    rw [BitVec.lt_def, htemp] at hlow
    rw [translate_congr (withWindow_outside inv room hv (by omega))]
    exact inv.low v hv (by rw [BitVec.lt_def, htemp]; exact hlow)
  · rw [withWindow_outside inv room (by decide) (by omega)]
    exact inv.temp
  · apply BitVec.eq_of_toNat_eq
    have hfits : acpiTablesVaddrBase.toNat + 0x8000 * (w.pageStack.length + 1) < 2 ^ 64 := by
      have hsize : 0x8000 * (w.pageStack.length + 1) ≤ 0x200000 := by omega
      exact Nat.lt_of_le_of_lt (Nat.add_le_add_left hsize _) (by decide)
    rw [hnext', hnext, hlength, toNat_addr hfits, hbase]
    omega
  · omega
  · intro v hv hlimit
    rw [BitVec.le_def, hnext'] at hv
    rw [withWindow_outside inv room (by rw [kernel_iff]; omega) (by omega)]
    exact inv.fresh v (by rw [BitVec.le_def]; omega) hlimit
  · intro m hm
    obtain hm | hm := List.mem_append.mp hm
    · exact (inv.windows m hm).withWindow inv room
    · rw [List.mem_singleton.mp hm]
      exact withWindow_newest inv room

theorem withWindow_framed (inv : Inv w) (room : w.pageStack.length < 64) (framed : Framed w)
    (high : 0x400000 < phys.toNat) (below : phys.toNat < 127 * 2 ^ 40) :
    Framed (withWindow w phys) := by
  obtain ⟨-, -, hentries⟩ := @withWindow_entries w phys inv room
  have hnext := inv.toNat_next
  have hnext' := @Inv.toNat_next_withWindow w phys inv room
  have hbase : acpiTablesVaddrBase.toNat = 0xffffffff81100000 := rfl
  have hlimit : acpiTablesVaddrLimit.toNat = 0xffffffff82000000 := rfl
  intro v hv hbelow hmapped
  have hkernel : kernelBase ≤ v := by
    rw [BitVec.le_def] at hv
    rw [kernel_iff]
    omega
  obtain hkept | ⟨k, hk, -, hwritten⟩ := hentries v hkernel
  · rw [hkept] at hmapped ⊢
    apply framed v hv _ hmapped
    by_contra hold
    rw [BitVec.not_lt] at hold
    rw [BitVec.lt_def, hnext'] at hbelow
    exact hmapped (inv.fresh v hold (by rw [BitVec.lt_def]; omega))
  · rw [hwritten, phys_writtenEntry]
    apply frame_ne_zero high below
    unfold skip
    split_ifs
    all_goals omega

/-- What is mapped stays mapped as it is. -/
def Keeps (w w' : World) : Prop :=
  ∀ v a, Home v → translate w v = some a → translate w' v = some a

theorem Keeps.refl (w : World) : Keeps w w := fun _ _ _ h => h

theorem Keeps.trans {w₁ w₂ w₃ : World} (h : Keeps w₁ w₂) (h' : Keeps w₂ w₃) : Keeps w₁ w₃ :=
  fun v a hv ha => h' v a hv (h v a hv ha)

theorem withWindow_keeps (inv : Inv w) (room : w.pageStack.length < 64) :
    Keeps w (withWindow w phys) := by
  obtain ⟨-, -, hentries⟩ := @withWindow_entries w phys inv room
  have hnext := inv.toNat_next
  have hlimit : acpiTablesVaddrLimit.toNat = 0xffffffff82000000 := rfl
  intro v a hv ha
  obtain hkept | ⟨k, hk, hpage, -⟩ := hentries v hv.kernel
  · rw [translate_congr hkept]
    exact ha
  · have hunmapped : entryAt w v = 0 := by
      apply inv.fresh v
      · rw [BitVec.le_def]
        omega
      · rw [BitVec.lt_def]
        omega
    exact absurd hunmapped (translate_eq_some.mp ha).1.2

end NewWindow

section Mapping

variable {w w' : World} {phys vaddr : BitVec 64} {m : AddressMapping}

theorem Window.kernel (h : Window w m) : 0xffffffff81100000 ≤ m.virt.toNat :=
  BitVec.le_def.mp h.above

theorem Window.toNat_place (h : Window w m) (phys : BitVec 64) :
    ((phys &&& 0xfff) ||| m.virt).toNat = m.virt.toNat + phys.toNat % 4096 := by
  have haligned := (Masks.and_low_eq_zero_iff (k := 12) rfl).mp h.aligned
  have hlt := m.virt.isLt
  rw [or_aligned h.aligned, BitVec.toNat_add, Masks.toNat_and_low phys _ 12 rfl]
  omega

/-- A table in the first page of a window is at its own address. -/
theorem Window.place (h : Window w m) (same : phys &&& 0xfffffffffffff000 = m.phys)
    (below : phys.toNat < 2 ^ 48) {a : BitVec 64}
    (ha : translate w ((phys &&& 0xfff) ||| m.virt) = some a) : a = phys := by
  have haligned := (Masks.and_low_eq_zero_iff (k := 12) rfl).mp h.aligned
  have hplace := h.toNat_place phys
  have hkernel := h.kernel
  obtain ⟨⟨-, hmapped⟩, rfl⟩ := translate_eq_some.mp ha
  have hpage : pageNumber ((phys &&& 0xfff) ||| m.virt) = pageNumber m.virt := by
    rw [page_of_kernel (by rw [kernel_iff]; omega) (by rw [kernel_iff]; omega), hplace]
    omega
  have hentry : entryAt w ((phys &&& 0xfff) ||| m.virt) = entryAt w m.virt :=
    entry_eq_of_pageNumber hpage _ _
  have hoffset : ((phys &&& 0xfff) ||| m.virt) &&& 0xfff = phys &&& 0xfff := by
    apply BitVec.eq_of_toNat_eq
    rw [Masks.toNat_and_low _ _ 12 rfl, Masks.toNat_and_low phys _ 12 rfl, hplace]
    omega
  obtain hzero | hframe := h.first
  · rw [hentry] at hmapped
    exact absurd hzero hmapped
  · rw [vmmVirtToPhys, vmmVirtToPhysPage, hentry, hframe, hoffset, ← same, frame_align,
      frame_add_offset below]

/-- The table at `phys` can be used at `vaddr`, if it can be used at all. -/
def MappedTo (phys vaddr : BitVec 64) (w : World) : Prop :=
  ∀ a, translate w vaddr = some a → Home vaddr ∧ a = phys

theorem MappedTo.of_low (inv : Inv w) (low : phys.toNat ≤ 0x400000) :
    MappedTo phys (phys ||| kernelBase) w := by
  have hbase : kernelBase.toNat = 0xffffffff80000000 := rfl
  have htemp : perCpuTempPageBase.toNat = 0xffffffff80400000 := rfl
  have hsum : (phys + kernelBase).toNat = phys.toNat + 0xffffffff80000000 := by
    rw [BitVec.toNat_add, hbase]
    omega
  have hkernel : kernelBase ≤ phys + kernelBase := by
    rw [kernel_iff, hsum]
    omega
  rw [or_kernelBase (by omega)]
  intro a ha
  by_cases hlast : phys.toNat = 0x400000
  · have hplace : phys + kernelBase = perCpuTempPageBase := by
      apply BitVec.eq_of_toNat_eq
      rw [hsum, htemp, hlast]
    rw [hplace] at ha
    exact absurd inv.temp (translate_eq_some.mp ha).1.2
  · rw [inv.low _ hkernel (by rw [BitVec.lt_def, hsum, htemp]; omega), BitVec.add_sub_cancel] at ha
    refine ⟨?_, (Option.some.inj ha).symm⟩
    rw [home_iff, hsum]
    omega

/-- Where a table may be found: in low memory, in a window there is, in a new one, or nowhere. -/
theorem getMappingFor_cases (h : getMappingFor phys w = some (vaddr, w')) :
    (phys.toNat ≤ 0x400000 ∧ vaddr = phys ||| kernelBase ∧ w' = w) ∨
    (0x400000 < phys.toNat ∧ ∃ m ∈ w.pageStack, phys &&& 0xfffffffffffff000 = m.phys ∧
      vaddr = (phys &&& 0xfff) ||| m.virt ∧ w' = w) ∨
    (0x400000 < phys.toNat ∧ w.pageStack.length < 64 ∧
      vaddr = (phys &&& 0xfff) ||| w.nextVaddr ∧ w' = withWindow w phys) ∨
    (vaddr = 0 ∧ w' = w) := by
  rw [getMappingFor] at h
  by_cases hhigh : phys > 0x400000
  · have hhigh' : 0x400000 < phys.toNat := BitVec.lt_def.mp hhigh
    rw [if_pos hhigh] at h
    cases hfind : w.pageStack.find? fun m => phys &&& 0xfffffffffffff000 = m.phys with
    | some m =>
      rw [hfind] at h
      obtain ⟨rfl, rfl⟩ := Prod.mk.inj (Option.some.inj h)
      have hsame := List.find?_some hfind
      rw [decide_eq_true_eq] at hsame
      exact Or.inr (Or.inl ⟨hhigh', m, List.mem_of_find?_eq_some hfind, hsame, rfl, rfl⟩)
    | none =>
      rw [hfind] at h
      dsimp only at h
      split_ifs at h with hlimit hroom
      · obtain ⟨rfl, rfl⟩ := Prod.mk.inj (Option.some.inj h)
        exact Or.inr (Or.inr (Or.inr ⟨rfl, rfl⟩))
      · obtain ⟨rfl, rfl⟩ := Prod.mk.inj (Option.some.inj h)
        exact Or.inr (Or.inr (Or.inl ⟨hhigh', hroom, rfl, rfl⟩))
  · rw [if_neg hhigh] at h
    obtain ⟨rfl, rfl⟩ := Prod.mk.inj (Option.some.inj h)
    rw [gt_iff_lt, BitVec.not_lt, BitVec.le_def] at hhigh
    exact Or.inl ⟨hhigh, rfl, rfl⟩

/-- From one world to another in which more may be mapped. -/
structure Grows (w w' : World) : Prop where
  inv : Inv w'
  ram : w'.ram = w.ram
  keeps : Keeps w w'

theorem Grows.refl (inv : Inv w) : Grows w w := ⟨inv, rfl, Keeps.refl w⟩

theorem getMappingFor_grows (inv : Inv w) (h : getMappingFor phys w = some (vaddr, w')) :
    Grows w w' := by
  obtain ⟨-, -, rfl⟩ | ⟨-, m, -, -, -, rfl⟩ | ⟨-, hroom, -, rfl⟩ | ⟨-, rfl⟩ :=
    getMappingFor_cases h
  · exact Grows.refl inv
  · exact Grows.refl inv
  · obtain ⟨-, hram, -⟩ := @withWindow_entries w phys inv hroom
    exact ⟨withWindow_inv inv hroom, hram, withWindow_keeps inv hroom⟩
  · exact Grows.refl inv

theorem getMappingFor_framed (inv : Inv w) (framed : Framed w) (below : phys.toNat < 127 * 2 ^ 40)
    (h : getMappingFor phys w = some (vaddr, w')) : Framed w' := by
  obtain ⟨-, -, rfl⟩ | ⟨-, m, -, -, -, rfl⟩ | ⟨hhigh, hroom, -, rfl⟩ | ⟨-, rfl⟩ :=
    getMappingFor_cases h
  · exact framed
  · exact framed
  · exact withWindow_framed inv hroom framed hhigh below
  · exact framed

theorem MappedTo.of_window (inv : Inv w) (hm : m ∈ w.pageStack)
    (same : phys &&& 0xfffffffffffff000 = m.phys) (below : phys.toNat < 2 ^ 48) :
    MappedTo phys ((phys &&& 0xfff) ||| m.virt) w := by
  have hwindow := inv.windows m hm
  have hkernel := hwindow.kernel
  have hbelow := hwindow.below
  have hnext := inv.toNat_next
  have hfew := inv.few
  refine fun a ha => ⟨?_, hwindow.place same below ha⟩
  rw [home_iff, hwindow.toNat_place]
  omega

theorem getMappingFor_mapped (inv : Inv w) (below : phys.toNat < 2 ^ 48)
    (h : getMappingFor phys w = some (vaddr, w')) (found : vaddr ≠ 0) : MappedTo phys vaddr w' := by
  obtain ⟨hlow, rfl, rfl⟩ | ⟨-, m, hm, hsame, rfl, rfl⟩ | ⟨-, hroom, rfl, rfl⟩ | ⟨hnull, -⟩ :=
    getMappingFor_cases h
  · exact MappedTo.of_low inv hlow
  · exact MappedTo.of_window inv hm hsame below
  · have hnewest : (⟨phys &&& 0xfffffffffffff000, w.nextVaddr⟩ : AddressMapping) ∈
        (withWindow w phys).pageStack := List.mem_append_right _ (List.mem_singleton.mpr rfl)
    exact MappedTo.of_window (withWindow_inv inv hroom) hnewest rfl below
  · exact absurd hnull found

end Mapping

/-! ## Places -/

section Places

variable {w w' : World} {v : BitVec 64} {n : Nat} {ps : List (BitVec 64)}

theorem places_iff : places w v n = some ps ↔
    ps.length = n ∧ ∀ i < n, translate w (addr v i) = ps[i]? := by
  induction n generalizing v ps with
  | zero =>
    rw [places, Option.some.injEq, List.length_eq_zero_iff]
    constructor
    · rintro rfl
      exact ⟨rfl, fun i hi => absurd hi (Nat.not_lt_zero i)⟩
    · rintro ⟨rfl, -⟩
      rfl
  | succ n ih =>
    have hfirst : addr v 0 = v := BitVec.add_zero v
    rw [places, Option.bind_eq_some_iff]
    constructor
    · rintro ⟨a, ha, hrest⟩
      obtain ⟨rest, htail, rfl⟩ := Option.map_eq_some_iff.mp hrest
      obtain ⟨hlength, htail⟩ := ih.mp htail
      refine ⟨congrArg Nat.succ hlength, fun i hi => ?_⟩
      cases i with
      | zero =>
        rw [hfirst]
        exact ha
      | succ i =>
        rw [← addr_succ, List.getElem?_cons_succ]
        exact htail i (Nat.lt_of_succ_lt_succ hi)
    · rintro ⟨hlength, hall⟩
      cases ps with
      | nil => cases hlength
      | cons a rest =>
        have ha := hall 0 (Nat.succ_pos n)
        rw [hfirst] at ha
        refine ⟨a, ha, Option.map_eq_some_iff.mpr ⟨rest, ih.mpr ⟨Nat.succ.inj hlength, ?_⟩, rfl⟩⟩
        intro i hi
        rw [addr_succ, hall (i + 1) (Nat.succ_lt_succ hi), List.getElem?_cons_succ]

theorem places_slice {o k : Nat} (h : places w v n = some ps) (inside : o + k ≤ n) :
    places w (addr v o) k = some (slice o k ps) := by
  obtain ⟨hlength, hall⟩ := places_iff.mp h
  rw [places_iff]
  refine ⟨length_slice (by omega), fun i hi => ?_⟩
  rw [addr_add, hall (o + i) (by omega), slice, List.getElem?_take_of_lt hi, List.getElem?_drop]

theorem Keeps.places (keeps : Keeps w w') (home : ∀ i < n, Home (addr v i))
    (h : places w v n = some ps) : places w' v n = some ps := by
  obtain ⟨hlength, hall⟩ := places_iff.mp h
  rw [places_iff]
  refine ⟨hlength, fun i hi => ?_⟩
  have hi' : i < ps.length := by omega
  have hplace := hall i hi
  rw [List.getElem?_eq_getElem hi'] at hplace ⊢
  exact keeps _ _ (home i hi) hplace

/-- Bytes that are all mapped do not reach an address that is not. -/
theorem places_stop {u : BitVec 64} (h : places w v n = some ps) (hu : translate w u = none)
    (order : v ≤ u) : v.toNat + n ≤ u.toNat := by
  obtain ⟨hlength, hall⟩ := places_iff.mp h
  rw [BitVec.le_def] at order
  by_contra hreach
  have hplace : u = addr v (u.toNat - v.toNat) := by
    apply BitVec.eq_of_toNat_eq
    rw [toNat_addr (by omega)]
    omega
  have hmapped := hall (u.toNat - v.toNat) (by omega)
  rw [← hplace, hu] at hmapped
  rw [eq_comm, List.getElem?_eq_none_iff] at hmapped
  omega

end Places

/-! ## The entries -/

section Entries

variable {w w' : World} {width : Nat} {phys vaddr : BitVec 64}

/-- What `map_sdt` does before it looks at the entries. -/
theorem mapHeader_cases {root : Option Nat} (h : mapHeader phys w = some (vaddr, w', root)) :
    (vaddr = 0 ∧ root = none ∧ ∃ found, getMappingFor phys w = some (found, w')) ∨
    (vaddr ≠ 0 ∧ getMappingFor phys w = some (vaddr, w') ∧ checksumSdt w' vaddr = some true ∧
      ∃ signature, readVirt w' vaddr 4 = some signature ∧ entryWidth signature = root) := by
  rw [mapHeader, Option.bind_eq_some_iff] at h
  obtain ⟨⟨found, w₁⟩, hfound, h⟩ := h
  dsimp only at h
  by_cases hnull : found = 0
  · rw [if_pos hnull] at h
    simp only [Option.some.injEq, Prod.mk.injEq] at h
    obtain ⟨rfl, rfl, rfl⟩ := h
    exact Or.inl ⟨rfl, rfl, found, hfound⟩
  · rw [if_neg hnull, Option.bind_eq_some_iff] at h
    obtain ⟨ok, hok, h⟩ := h
    cases ok with
    | false =>
      simp only [Bool.false_eq_true, if_false, Option.some.injEq, Prod.mk.injEq] at h
      obtain ⟨rfl, rfl, rfl⟩ := h
      exact Or.inl ⟨rfl, rfl, found, hfound⟩
    | true =>
      obtain ⟨signature, hsignature, hresult⟩ := Option.map_eq_some_iff.mp h
      simp only [Prod.mk.injEq] at hresult
      obtain ⟨rfl, rfl, rfl⟩ := hresult
      exact Or.inr ⟨hnull, hfound, hok, signature, hsignature, rfl⟩

theorem mapHeader_found {root : Option Nat} (h : mapHeader phys w = some (vaddr, w', root)) :
    ∃ found, getMappingFor phys w = some (found, w') := by
  obtain ⟨-, -, hfound⟩ | ⟨-, hfound, -⟩ := mapHeader_cases h
  · exact hfound
  · exact ⟨vaddr, hfound⟩

theorem mapTable_header (h : mapTable phys w = some (vaddr, w')) :
    mapHeader phys w = some (vaddr, w', none) := by
  rw [mapTable] at h
  split at h
  · rename_i hheader
    obtain ⟨rfl, rfl⟩ := Prod.mk.inj (Option.some.inj h)
    exact hheader
  · cases h

theorem mapTable_grows (inv : Inv w) (h : mapTable phys w = some (vaddr, w')) : Grows w w' := by
  obtain ⟨found, hfound⟩ := mapHeader_found (mapTable_header h)
  exact getMappingFor_grows inv hfound

theorem mapTable_framed (inv : Inv w) (framed : Framed w) (below : phys.toNat < 127 * 2 ^ 40)
    (h : mapTable phys w = some (vaddr, w')) : Framed w' := by
  obtain ⟨found, hfound⟩ := mapHeader_found (mapTable_header h)
  exact getMappingFor_framed inv framed below hfound

/-- A table that was looked at is where the kernel thinks it is. -/
theorem mapTable_mapped (inv : Inv w) (below : phys.toNat < 2 ^ 48)
    (h : mapTable phys w = some (vaddr, w')) (found : vaddr ≠ 0) :
    Home vaddr ∧ translate w' vaddr = some phys := by
  obtain ⟨hnull, -⟩ | ⟨-, hfound, -, signature, hsignature, -⟩ :=
    mapHeader_cases (mapTable_header h)
  · exact absurd hnull found
  · have hmapped := getMappingFor_mapped inv below hfound found
    obtain ⟨ps, hps, -⟩ := Option.map_eq_some_iff.mp hsignature
    obtain ⟨hlength, hall⟩ := places_iff.mp hps
    have hfirst := hall 0 (by decide)
    have haddr : addr vaddr 0 = vaddr := BitVec.add_zero vaddr
    rw [haddr, List.getElem?_eq_getElem (by omega)] at hfirst
    obtain ⟨hhome, hplace⟩ := hmapped _ hfirst
    rw [hfirst, hplace]
    exact ⟨hhome, rfl⟩

/-- Where the bytes of a slot are. -/
structure Covers (w : World) (width : Nat) (slot : BitVec 64) (ps : List (BitVec 64)) : Prop where
  places : places w slot width = some ps
  home : ∀ i < width, Home (addr slot i)

theorem Covers.keeps {slot : BitVec 64} {ps : List (BitVec 64)} (h : Covers w width slot ps)
    (keeps : Keeps w w') : Covers w' width slot ps :=
  ⟨keeps.places h.home h.places, h.home⟩

theorem Covers.length {slot : BitVec 64} {ps : List (BitVec 64)} (h : Covers w width slot ps) :
    ps.length = width :=
  (places_iff.mp h.places).1

theorem Covers.read {slot : BitVec 64} {ps : List (BitVec 64)} (h : Covers w width slot ps) :
    readVirt w slot width = some (readAt w.ram ps) := by
  rw [readVirt, h.places, Option.map_some]

theorem Covers.write {slot : BitVec 64} {ps : List (BitVec 64)} (h : Covers w width slot ps)
    (value : Nat) : writeVirt w slot (toBytes width value) =
      some { w with ram := writeAt w.ram ps (toBytes width value) } := by
  rw [writeVirt, length_toBytes, h.places, Option.map_some]

theorem Inv.with_ram (inv : Inv w) (ram : Memory) : Inv { w with ram := ram } where
  paged := ⟨inv.paged.wellFormed, inv.paged.straight⟩
  low := inv.low
  temp := inv.temp
  next := inv.next
  few := inv.few
  fresh := inv.fresh
  windows := fun m hm =>
    let h := inv.windows m hm
    ⟨h.aligned, h.above, h.below, h.first⟩

/-- What the firmware put into a slot. -/
def entryOf (ram : Memory) (ps : List (BitVec 64)) : BitVec 64 :=
  BitVec.ofNat 64 (ofBytes (readAt ram ps))

/-- The slots hold virtual addresses in the place of the physical ones. -/
structure FixedUp (width : Nat) (slots : List (List (BitVec 64))) (virtual : List (BitVec 64))
    (w w' : World) : Prop where
  inv : Inv w'
  framed : Framed w'
  keeps : Keeps w w'
  entries : List.Forall₂ (fun phys v => Home v ∧ translate w' v = some phys)
    (slots.map (entryOf w.ram)) virtual
  fill : Fill slots (virtual.map fun v => toBytes width v.toNat)
  ram : w'.ram = writeAll w.ram slots (virtual.map fun v => toBytes width v.toNat)

theorem mapEntries_spec {addrs : List (BitVec 64)} {slots : List (List (BitVec 64))} (inv : Inv w)
    (framed : Framed w) (covers : List.Forall₂ (Covers w width) addrs slots)
    (apart : slots.flatten.Nodup) (below : ∀ ps ∈ slots, (entryOf w.ram ps).toNat < 127 * 2 ^ 40)
    (h : mapEntries width addrs w = some (w', true)) :
    ∃ virtual, FixedUp width slots virtual w w' := by
  induction addrs generalizing w slots with
  | nil =>
    cases covers
    obtain ⟨rfl, -⟩ := Prod.mk.inj (Option.some.inj h)
    exact ⟨[], inv, framed, Keeps.refl w, List.Forall₂.nil, List.Forall₂.nil, rfl⟩
  | cons slot addrs ih =>
    cases covers with
    | @cons _ ps _ slots hslot hslots =>
    rw [List.flatten_cons, List.nodup_append] at apart
    rw [mapEntries, hslot.read, Option.bind_some, Option.bind_eq_some_iff] at h
    obtain ⟨⟨v, w₁⟩, htable, h⟩ := h
    rw [Option.bind_eq_some_iff] at h
    obtain ⟨w₂, hwrite, h⟩ := h
    obtain ⟨⟨w₃, all⟩, hrest, hall⟩ := Option.map_eq_some_iff.mp h
    simp only [Prod.mk.injEq, Bool.and_eq_true, decide_eq_true_eq] at hall
    obtain ⟨rfl, hnull, rfl⟩ := hall
    have hbelow := below ps List.mem_cons_self
    have htable : mapTable (entryOf w.ram ps) w = some (v, w₁) := htable
    have hgrows := mapTable_grows inv htable
    obtain ⟨hhome, hplace⟩ := mapTable_mapped inv (by omega) htable hnull
    rw [(hslot.keeps hgrows.keeps).write, Option.some.injEq] at hwrite
    -- the tables of the other entries are found as before, and the other slots are untouched
    have hkeeps : Keeps w w₂ := by
      rw [← hwrite]
      exact hgrows.keeps
    have hinv : Inv w₂ := by
      rw [← hwrite]
      exact hgrows.inv.with_ram _
    have hframed : Framed w₂ := by
      rw [← hwrite]
      have hframed := mapTable_framed inv framed hbelow htable
      exact hframed
    have hram : w₂.ram = writeAt w.ram ps (toBytes width v.toNat) := by
      rw [← hwrite, hgrows.ram]
    have hsame : ∀ ps' ∈ slots, entryOf w₂.ram ps' = entryOf w.ram ps' := by
      intro ps' hps'
      rw [entryOf, hram, readAt_writeAt_other, entryOf]
      intro a ha ha'
      exact apart.2.2 a ha' a (List.mem_flatten.mpr ⟨ps', hps', ha⟩) rfl
    obtain ⟨virtual, hfixed⟩ := ih hinv hframed
      (hslots.imp fun _ _ hcovers => hcovers.keeps hkeeps) apart.2.1 (fun ps' hps' => by
        rw [hsame ps' hps']
        exact below ps' (List.mem_cons_of_mem _ hps')) hrest
    have hfirst : translate w₂ v = some (entryOf w.ram ps) := by
      rw [← hwrite]
      exact hplace
    refine ⟨v :: virtual, hfixed.inv, hfixed.framed, hkeeps.trans hfixed.keeps,
      List.Forall₂.cons ?_ ?_, List.Forall₂.cons ?_ hfixed.fill, ?_⟩
    · exact ⟨hhome, hfixed.keeps v _ hhome hfirst⟩
    · rw [← List.map_congr_left hsame]
      exact hfixed.entries
    · rw [length_toBytes, hslot.length]
    · rw [hfixed.ram, hram, List.map_cons, writeAll]

/-- Every entry is read in a world like those before it. -/
theorem mapEntries_run {all : Bool} {addrs : List (BitVec 64)} (inv : Inv w)
    (h : mapEntries width addrs w = some (w', all)) :
    Keeps w w' ∧ ∀ slot ∈ addrs, ∃ w₀, Inv w₀ ∧ ∃ ps, places w₀ slot width = some ps := by
  induction addrs generalizing w w' all with
  | nil =>
    obtain ⟨rfl, -⟩ := Prod.mk.inj (Option.some.inj h)
    exact ⟨Keeps.refl w, fun slot hslot => absurd hslot List.not_mem_nil⟩
  | cons first addrs ih =>
    rw [mapEntries, Option.bind_eq_some_iff] at h
    obtain ⟨bytes, hread, h⟩ := h
    rw [Option.bind_eq_some_iff] at h
    obtain ⟨⟨v, w₁⟩, htable, h⟩ := h
    rw [Option.bind_eq_some_iff] at h
    obtain ⟨w₂, hwrite, h⟩ := h
    obtain ⟨⟨w₃, rest⟩, hrest, hresult⟩ := Option.map_eq_some_iff.mp h
    obtain ⟨rfl, -⟩ := Prod.mk.inj hresult
    obtain ⟨ps, -, rfl⟩ := Option.map_eq_some_iff.mp hwrite
    have hgrows := mapTable_grows inv htable
    obtain ⟨hkeeps, hreadable⟩ := ih (hgrows.inv.with_ram _) hrest
    refine ⟨hgrows.keeps.trans hkeeps, fun slot hslot => ?_⟩
    obtain rfl | hslot := List.mem_cons.mp hslot
    · obtain ⟨ps, hps, -⟩ := Option.map_eq_some_iff.mp hread
      exact ⟨w, inv, ps, hps⟩
    · exact hreadable slot hslot

/-- The entries end before the last window there could be. -/
theorem entries_stop {all : Bool} {sdt : BitVec 64} {count : Nat} (inv : Inv w) (pos : 0 < width)
    (kernel : kernelBase ≤ sdt) (start : sdt.toNat + 36 ≤ 0xffffffff81300000)
    (h : mapEntries width (entrySlots sdt width count) w = some (w', all)) :
    width * count ≤ 2 ^ 31 := by
  by_contra hlong
  rw [kernel_iff] at kernel
  have hquotient := Nat.div_add_mod (0xffffffff81300000 - sdt.toNat - 36) width
  have hrest := Nat.mod_lt (0xffffffff81300000 - sdt.toNat - 36) pos
  generalize (0xffffffff81300000 - sdt.toNat - 36) / width = i at hquotient
  have hi : i < count := by
    apply Nat.lt_of_mul_lt_mul_left (a := width)
    omega
  have hslot : addr sdt (36 + width * i) ∈ entrySlots sdt width count :=
    List.mem_map.mpr ⟨i, List.mem_range.mpr hi, rfl⟩
  obtain ⟨w₀, hinv, ps, hps⟩ := (mapEntries_run inv h).2 _ hslot
  have hnext := hinv.toNat_next
  have hfew := hinv.few
  have hunmapped : translate w₀ 0xffffffff81300000 = none := by
    rw [translate_eq_none (by decide)]
    apply hinv.fresh _ _ (by decide)
    rw [BitVec.le_def, hnext]
    show _ ≤ 0xffffffff81300000
    omega
  have htoNat : (addr sdt (36 + width * i)).toNat = sdt.toNat + (36 + width * i) :=
    toNat_addr (by omega)
  have hstop := places_stop hps hunmapped (by
    rw [BitVec.le_def, htoNat]
    show _ ≤ 0xffffffff81300000
    omega)
  rw [htoNat] at hstop
  change _ ≤ 0xffffffff81300000 at hstop
  omega

end Entries

/-! ## The root table -/

section Root

variable {w w' : World} {phys sdt : BitVec 64} {n : Nat} {ps : List (BitVec 64)}

theorem places_nodup {f : Nat → Nat} (h : places w sdt n = some ps)
    (place : ∀ i < n, ∀ a, translate w (addr sdt i) = some a → a.toNat = f i)
    (injective : ∀ i j, i < j → j < n → f i ≠ f j) : ps.Nodup := by
  obtain ⟨hlength, hall⟩ := places_iff.mp h
  rw [List.nodup_iff_getElem?_ne_getElem?]
  intro i j hij hj heq
  have hi : i < ps.length := by omega
  have hplaceᵢ := hall i (by omega)
  have hplaceⱼ := hall j (by omega)
  rw [← heq] at hplaceⱼ
  rw [List.getElem?_eq_getElem hi] at hplaceᵢ hplaceⱼ
  apply injective i j hij (by omega)
  rw [← place i (by omega) _ hplaceᵢ, ← place j (by omega) _ hplaceⱼ]

/-- A table in low memory ends there. -/
theorem low_places (inv : Inv w) (kernel : kernelBase ≤ sdt) (low : sdt ≤ perCpuTempPageBase)
    (h : places w sdt n = some ps) : sdt.toNat + n ≤ 0xffffffff80400000 ∧ ps.Nodup := by
  have hbase : kernelBase.toNat = 0xffffffff80000000 := rfl
  have htemp : perCpuTempPageBase.toNat = 0xffffffff80400000 := rfl
  have hend : sdt.toNat + n ≤ 0xffffffff80400000 :=
    places_stop h ((translate_eq_none (by decide)).mpr inv.temp) low
  rw [kernel_iff] at kernel
  refine ⟨hend, places_nodup (f := fun i => sdt.toNat + i - 0xffffffff80000000) h ?_ (by omega)⟩
  intro i hi a ha
  have haddr : (addr sdt i).toNat = sdt.toNat + i := toNat_addr (by omega)
  have hkernel : kernelBase ≤ addr sdt i := by
    rw [kernel_iff, haddr]
    omega
  rw [inv.low _ hkernel (by rw [BitVec.lt_def, haddr, htemp]; omega)] at ha
  rw [← Option.some.inj ha, BitVec.toNat_sub_of_le hkernel, haddr, hbase]

/-- Where the bytes of the first window are. -/
theorem window_place (inv : Inv w) (empty : w.pageStack = []) (below : phys.toNat < 127 * 2 ^ 40)
    {v a : BitVec 64} (low : 0xffffffff81100000 ≤ v.toNat) (high : v.toNat < 0xffffffff81108000)
    (ha : translate (withWindow w phys) v = some a) :
    a.toNat = (phys.toNat / 4096 + skip ((v.toNat - 0xffffffff81100000) / 4096)) * 4096 +
      v.toNat % 4096 := by
  have hempty : w.pageStack.length = 0 := by rw [empty, List.length_nil]
  have hnext := inv.toNat_next
  have hlimit : acpiTablesVaddrLimit.toNat = 0xffffffff82000000 := rfl
  obtain ⟨-, -, hentries⟩ := @withWindow_entries w phys inv (by omega)
  obtain ⟨⟨-, hmapped⟩, rfl⟩ := translate_eq_some.mp ha
  obtain hkept | ⟨k, hk, hpage, hwritten⟩ := hentries v (by rw [kernel_iff]; omega)
  · rw [hkept] at hmapped
    exact absurd (inv.fresh v (by rw [BitVec.le_def]; omega) (by rw [BitVec.lt_def]; omega)) hmapped
  · have hskip : skip k ≤ 8 := by
      unfold skip
      split_ifs
      all_goals omega
    have hk' : (v.toNat - 0xffffffff81100000) / 4096 = k := by omega
    have hphys : (addr phys (0x1000 * skip k)).toNat = phys.toNat + 0x1000 * skip k :=
      toNat_addr (by omega)
    rw [vmmVirtToPhys, vmmVirtToPhysPage, hwritten, phys_writtenEntry, BitVec.toNat_add,
      toNat_frame, hphys, Masks.toNat_and_low v _ 12 rfl, hk']
    omega

theorem skip_lt {i j : Nat} (h : i < j) : skip i < skip j := by
  unfold skip
  split_ifs
  all_goals omega

theorem window_places (inv : Inv w) (empty : w.pageStack = []) (below : phys.toNat < 127 * 2 ^ 40)
    (low : 0xffffffff81100000 ≤ sdt.toNat) (high : sdt.toNat < 0xffffffff81108000)
    (h : places (withWindow w phys) sdt n = some ps) :
    sdt.toNat + n ≤ 0xffffffff81108000 ∧ ps.Nodup := by
  have hempty : w.pageStack.length = 0 := by rw [empty, List.length_nil]
  have hnext := inv.toNat_next
  have hnext' := @Inv.toNat_next_withWindow w phys inv (by omega)
  have hafter : translate (withWindow w phys) 0xffffffff81108000 = none := by
    rw [translate_eq_none (by decide)]
    apply (withWindow_inv inv (by omega)).fresh _ _ (by decide)
    rw [BitVec.le_def, hnext', hnext, hempty]
    decide
  have hend : sdt.toNat + n ≤ 0xffffffff81108000 :=
    places_stop h hafter (by rw [BitVec.le_def]; exact Nat.le_of_lt high)
  refine ⟨hend, places_nodup (f := fun i => (phys.toNat / 4096 +
    skip ((sdt.toNat + i - 0xffffffff81100000) / 4096)) * 4096 + (sdt.toNat + i) % 4096) h ?_ ?_⟩
  · intro i hi a ha
    have haddr : (addr sdt i).toNat = sdt.toNat + i := toNat_addr (by omega)
    rw [window_place inv empty below (by omega) (by omega) ha, haddr]
  · intro i j hij hj
    by_cases hpage : (sdt.toNat + i - 0xffffffff81100000) / 4096 =
        (sdt.toNat + j - 0xffffffff81100000) / 4096
    · rw [hpage]
      omega
    · have hlt := @skip_lt ((sdt.toNat + i - 0xffffffff81100000) / 4096)
        ((sdt.toNat + j - 0xffffffff81100000) / 4096) (by omega)
      omega

/-- The root table, with all its bytes in places of their own. -/
structure RootAt (w : World) (sdt : BitVec 64) (n : Nat) (ps : List (BitVec 64)) : Prop where
  places : places w sdt n = some ps
  nodup : ps.Nodup
  home : ∀ i < n, Home (addr sdt i)
  start : kernelBase ≤ sdt
  ends : sdt.toNat + n ≤ 0xffffffff81108000

theorem RootAt.keeps (h : RootAt w sdt n ps) (keeps : Keeps w w') : RootAt w' sdt n ps :=
  ⟨keeps.places h.home h.places, h.nodup, h.home, h.start, h.ends⟩

theorem RootAt.of_low (inv : Inv w) (low : phys.toNat ≤ 0x400000)
    (h : AcpiTables.places w (phys ||| kernelBase) n = some ps) :
    RootAt w (phys ||| kernelBase) n ps := by
  have hbase : kernelBase.toNat = 0xffffffff80000000 := rfl
  have hsum : (phys + kernelBase).toNat = phys.toNat + 0xffffffff80000000 := by
    rw [BitVec.toNat_add, hbase]
    omega
  rw [or_kernelBase (by omega)] at h ⊢
  have hstart : kernelBase ≤ phys + kernelBase := by
    rw [kernel_iff, hsum]
    omega
  have htemp : phys + kernelBase ≤ perCpuTempPageBase := by
    rw [BitVec.le_def, hsum]
    show _ ≤ 0xffffffff80400000
    omega
  obtain ⟨hends, hnodup⟩ := low_places inv hstart htemp h
  refine ⟨h, hnodup, fun i hi => ?_, hstart, Nat.le_trans hends (by decide)⟩
  rw [home_iff, toNat_addr (by omega)]
  omega

theorem RootAt.of_window (inv : Inv w) (empty : w.pageStack = [])
    (below : phys.toNat < 127 * 2 ^ 40)
    (h : AcpiTables.places (withWindow w phys) ((phys &&& 0xfff) ||| w.nextVaddr) n = some ps) :
    RootAt (withWindow w phys) ((phys &&& 0xfff) ||| w.nextVaddr) n ps := by
  have hempty : w.pageStack.length = 0 := by rw [empty, List.length_nil]
  have hnext := inv.toNat_next
  have hplace : ((phys &&& 0xfff) ||| w.nextVaddr).toNat =
      w.nextVaddr.toNat + phys.toNat % 4096 :=
    (@withWindow_newest w phys inv (by omega)).toNat_place phys
  obtain ⟨hends, hnodup⟩ := window_places inv empty below (by omega) (by omega) h
  refine ⟨h, hnodup, fun i hi => ?_, ?_, hends⟩
  · rw [home_iff, toNat_addr (by omega)]
    omega
  · rw [kernel_iff]
    omega

theorem mapHeader_root {width : Nat} (inv : Inv w) (empty : w.pageStack = [])
    (below : phys.toNat < 127 * 2 ^ 40) (h : mapHeader phys w = some (sdt, w', some width)) :
    ∃ n ps, sdtLength w' sdt = some n ∧ RootAt w' sdt n ps := by
  obtain ⟨-, hnone, -⟩ | ⟨hfound, hmapping, hchecksum, -⟩ := mapHeader_cases h
  · cases hnone
  · obtain ⟨n, hn, hsum⟩ := Option.bind_eq_some_iff.mp hchecksum
    obtain ⟨bytes, hread, -⟩ := Option.map_eq_some_iff.mp hsum
    obtain ⟨ps, hps, -⟩ := Option.map_eq_some_iff.mp hread
    refine ⟨n, ps, hn, ?_⟩
    obtain ⟨hlow, rfl, rfl⟩ | ⟨-, m, hm, -⟩ | ⟨-, -, rfl, rfl⟩ | ⟨hnull, -⟩ :=
      getMappingFor_cases hmapping
    · exact RootAt.of_low inv hlow hps
    · rw [empty] at hm
      exact absurd hm List.not_mem_nil
    · exact RootAt.of_window inv empty below hps
    · exact absurd hnull hfound

/-- What the header of a root table says. -/
structure Header (ram : Memory) (ps : List (BitVec 64)) (width count : Nat) : Prop where
  signature : entryWidth (readAt ram (slice 0 4 ps)) = some width
  count : (ofBytes (readAt ram (slice 4 4 ps)) + 2 ^ 64 - 36) % 2 ^ 64 / width % 2 ^ 32 = count

theorem entryWidth_cases {signature : List Byte} {width : Nat}
    (h : entryWidth signature = some width) : width = 4 ∨ width = 8 := by
  rw [entryWidth] at h
  split_ifs at h
  · exact Or.inl (Option.some.inj h).symm
  · exact Or.inr (Option.some.inj h).symm

/-- Reading a part of the root table. -/
theorem RootAt.read (h : RootAt w sdt n ps) {o k : Nat} (inside : o + k ≤ n) :
    readVirt w (addr sdt o) k = some (readAt w.ram (slice o k ps)) := by
  rw [readVirt, places_slice h.places inside, Option.map_some]

theorem RootAt.header (h : RootAt w sdt n ps) (long : 8 ≤ n) {width count : Nat} :
    Header w.ram ps width count ↔ ∃ signature, readVirt w sdt 4 = some signature ∧
      entryWidth signature = some width ∧ entryCount w sdt width = some count := by
  have hfirst : addr sdt 0 = sdt := BitVec.add_zero sdt
  have hsignature := @RootAt.read w sdt n ps h 0 4 (by omega)
  have hlength : readVirt w (sdt + 4) 4 = _ := @RootAt.read w sdt n ps h 4 4 (by omega)
  rw [hfirst] at hsignature
  rw [hsignature, entryCount, sdtLength, hlength]
  constructor
  · intro hheader
    exact ⟨_, rfl, hheader.signature, congrArg some hheader.count⟩
  · rintro ⟨signature, hread, hwidth, hcount⟩
    obtain rfl := Option.some.inj hread
    exact ⟨hwidth, Option.some.inj hcount⟩

/-- The places of the entries. -/
def slotsOf (width count : Nat) (ps : List (BitVec 64)) : List (List (BitVec 64)) :=
  (List.range count).map fun i => slice (36 + width * i) width ps

theorem slotsOf_inside {width count i : Nat} (hi : i < count) :
    36 + width * i + width ≤ 36 + width * count := by
  have hle : width * (i + 1) ≤ width * count := Nat.mul_le_mul_left _ hi
  rw [Nat.mul_succ] at hle
  omega

theorem RootAt.covers (h : RootAt w sdt n ps) {width count : Nat} (fits : 36 + width * count ≤ n) :
    List.Forall₂ (Covers w width) (entrySlots sdt width count) (slotsOf width count ps) := by
  apply List.forall₂_map_left_iff.mpr
  apply List.forall₂_map_right_iff.mpr
  apply List.forall₂_same.mpr
  intro i hi
  have hinside := @slotsOf_inside width count i (List.mem_range.mp hi)
  refine ⟨places_slice h.places (by omega), fun k hk => ?_⟩
  rw [addr_add]
  exact h.home _ (by omega)

theorem RootAt.apart (h : RootAt w sdt n ps) (width count : Nat) :
    (slotsOf width count ps).flatten.Nodup := by
  rw [slotsOf, flatten_slices]
  exact h.nodup.sublist ((List.take_sublist _ _).trans (List.drop_sublist _ _))

/-- The header is not among the entries. -/
theorem RootAt.header_apart (h : RootAt w sdt n ps) {o k : Nat} (inside : o + k ≤ 36)
    (width count : Nat) : List.Disjoint (slice o k ps) (slotsOf width count ps).flatten := by
  rw [slotsOf, flatten_slices]
  exact slice_disjoint h.nodup inside

/-- The entries are within the table. -/
theorem entries_fit {width count : Nat} {all : Bool} {signature : List Byte} (inv : Inv w)
    (root : RootAt w sdt n ps) (hn : sdtLength w sdt = some n)
    (hwidth : entryWidth signature = some width) (hcount : entryCount w sdt width = some count)
    (h : mapEntries width (entrySlots sdt width count) w = some (w', all)) :
    36 + width * count ≤ n := by
  have hends := root.ends
  have hsmall : n < 256 ^ 4 := by
    obtain ⟨bytes, hread, rfl⟩ := Option.map_eq_some_iff.mp hn
    obtain ⟨place, hplace, rfl⟩ := Option.map_eq_some_iff.mp hread
    have hlength : (readAt w.ram place).length = 4 := by
      rw [readAt, List.length_map]
      exact (places_iff.mp hplace).1
    rw [← hlength]
    exact ofBytes_lt _
  rw [entryCount, hn, Option.map_some, Option.some.injEq] at hcount
  have hpos : 0 < width := by
    obtain rfl | rfl := entryWidth_cases hwidth
    all_goals decide
  have hstop := entries_stop inv hpos root.start (by omega) h
  obtain rfl | rfl := entryWidth_cases hwidth
  all_goals omega

/-- The root table after its entries were mapped. -/
structure Ready (w w' : World) (sdt : BitVec 64) (width count n : Nat)
    (ps virtual : List (BitVec 64)) : Prop where
  root : RootAt w' sdt n ps
  fits : 36 + width * count ≤ n
  header : Header w.ram ps width count
  length : ofBytes (readAt w.ram (slice 4 4 ps)) = n
  fixed : FixedUp width (slotsOf width count ps) virtual w w'

theorem mapRoot_cases (h : mapRoot phys w = some (sdt, w', true)) :
    ∃ w₀ width count, mapHeader phys w = some (sdt, w₀, some width) ∧
      entryCount w₀ sdt width = some count ∧
      mapEntries width (entrySlots sdt width count) w₀ = some (w', true) := by
  rw [mapRoot] at h
  split at h
  · rename_i found w₀ width hheader
    obtain ⟨count, hcount, h⟩ := Option.bind_eq_some_iff.mp h
    obtain ⟨⟨w₁, all⟩, hentries, hresult⟩ := Option.map_eq_some_iff.mp h
    simp only [Prod.mk.injEq] at hresult
    obtain ⟨rfl, rfl, rfl⟩ := hresult
    exact ⟨w₀, width, count, hheader, hcount, hentries⟩
  · simp at h
  · cases h

/-- The entry with number `i`. -/
def EntryAt (w : World) (sdt : BitVec 64) (i : Nat) (p : BitVec 64) : Prop :=
  ∃ signature width count bytes, readVirt w sdt 4 = some signature ∧
    entryWidth signature = some width ∧ entryCount w sdt width = some count ∧ i < count ∧
      readVirt w (addr sdt (36 + width * i)) width = some bytes ∧
        p = BitVec.ofNat 64 (ofBytes bytes)

theorem RootAt.entryAt_iff (h : RootAt w sdt n ps) {width count i : Nat} {p : BitVec 64}
    (fits : 36 + width * count ≤ n) (header : Header w.ram ps width count) :
    EntryAt w sdt i p ↔ i < count ∧ p = entryOf w.ram (slice (36 + width * i) width ps) := by
  obtain ⟨signature, hsignature, hwidth, hcount⟩ := (h.header (by omega)).mp header
  constructor
  · rintro ⟨signature', width', count', bytes, hsignature', hwidth', hcount', hi, hread, rfl⟩
    obtain rfl := Option.some.inj (hsignature.symm.trans hsignature')
    obtain rfl := Option.some.inj (hwidth.symm.trans hwidth')
    obtain rfl := Option.some.inj (hcount.symm.trans hcount')
    have hinside := @slotsOf_inside width count i hi
    rw [h.read (by omega)] at hread
    obtain rfl := Option.some.inj hread
    exact ⟨hi, rfl⟩
  · rintro ⟨hi, rfl⟩
    have hinside := @slotsOf_inside width count i hi
    exact ⟨signature, width, count, _, hsignature, hwidth, hcount, hi, h.read (by omega), rfl⟩

theorem RootAt.entryAt_same {ram : Memory} (h : RootAt w sdt n ps) {width count i : Nat}
    {p : BitVec 64} (fits : 36 + width * count ≤ n) (header : Header w.ram ps width count)
    (same : ∀ a ∈ ps, ram a = w.ram a) (hp : EntryAt w sdt i p) :
    EntryAt { w with ram := ram } sdt i p := by
  have hread : ∀ o k, readAt ram (slice o k ps) = readAt w.ram (slice o k ps) := by
    intro o k
    apply List.map_congr_left
    intro a ha
    exact same a (((List.take_sublist _ _).trans (List.drop_sublist _ _)).subset ha)
  have hheader : Header ram ps width count := by
    constructor
    · rw [hread]
      exact header.signature
    · rw [hread]
      exact header.count
  have hroot : RootAt { w with ram := ram } sdt n ps := h.keeps (Keeps.refl w)
  obtain ⟨hi, rfl⟩ := (h.entryAt_iff fits header).mp hp
  refine (hroot.entryAt_iff fits hheader).mpr ⟨hi, ?_⟩
  show entryOf w.ram _ = entryOf ram _
  rw [entryOf, entryOf, hread]

theorem mapRoot_ready (inv : Inv w) (framed : Framed w) (empty : w.pageStack = [])
    (below : phys.toNat < 127 * 2 ^ 40)
    (entries : ∀ i p, EntryAt { w' with ram := w.ram } sdt i p → p.toNat < 127 * 2 ^ 40)
    (h : mapRoot phys w = some (sdt, w', true)) :
    ∃ width count n ps virtual, Ready w w' sdt width count n ps virtual := by
  obtain ⟨w₀, width, count, hheader, hcount, hentries⟩ := mapRoot_cases h
  obtain ⟨n, ps, hn, hroot⟩ := mapHeader_root inv empty below hheader
  obtain ⟨found, hfound⟩ := mapHeader_found hheader
  obtain ⟨-, hnone, -⟩ | ⟨-, -, -, signature, hsignature, hwidth⟩ := mapHeader_cases hheader
  · cases hnone
  · have hgrows := getMappingFor_grows inv hfound
    have hframed := getMappingFor_framed inv framed below hfound
    have hfits := entries_fit hgrows.inv hroot hn hwidth hcount hentries
    have hkeeps := (mapEntries_run hgrows.inv hentries).1
    have hheader : Header w₀.ram ps width count :=
      (hroot.header (by omega)).mpr ⟨signature, hsignature, hwidth, hcount⟩
    have hlength : ofBytes (readAt w₀.ram (slice 4 4 ps)) = n := by
      have hread : readVirt w₀ (sdt + 4) 4 = _ := @RootAt.read w₀ sdt n ps hroot 4 4 (by omega)
      rw [sdtLength, hread] at hn
      exact Option.some.inj hn
    have hroot' : RootAt { w' with ram := w.ram } sdt n ps := hroot.keeps hkeeps
    rw [hgrows.ram] at hheader hlength
    obtain ⟨virtual, hfixed⟩ := mapEntries_spec hgrows.inv hframed (hroot.covers hfits)
      (hroot.apart width count) (by
        intro slot hslot
        obtain ⟨i, hi, rfl⟩ := List.mem_map.mp hslot
        rw [hgrows.ram]
        exact entries i _ ((hroot'.entryAt_iff hfits hheader).mpr ⟨List.mem_range.mp hi, rfl⟩))
      hentries
    exact ⟨width, count, n, ps, virtual, hroot.keeps hkeeps, hfits, hheader, hlength, hfixed.inv,
      hfixed.framed, hgrows.keeps.trans hfixed.keeps, hgrows.ram ▸ hfixed.entries, hfixed.fill,
      hgrows.ram ▸ hfixed.ram⟩

end Root

end AcpiTables
