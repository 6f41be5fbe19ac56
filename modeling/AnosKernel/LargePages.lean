import AnosKernel.DirectMapRiscV

/-!
# Tables under a large page

`ensure_tables` and `vmm_map_page_in` of `kernel/arch/x86_64/vmm/vmmapper.c` and of
`kernel/arch/riscv64/vmm/vmmapper.c`. The two loops differ in how an entry is read, in the entry
that links a new table, and in that x86_64 gives the entries on its way more flags. Neither looks
for a leaf in the last entry that it reads.
-/

namespace LargePages

open VmMapper PageAlloc

/-- How an entry is read: if it is a leaf, and where it leads. -/
structure Encoding where
  isLeaf : BitVec 64 → Bool
  tableEntryToPhys : BitVec 64 → BitVec 64

/-- The loop of `ensure_tables`, with the entry that links a new table and what is left of an entry
that leads on. -/
def ensureTablesLoop (enc : Encoding) (link visit : BitVec 64 → BitVec 64) (virtAddr : BitVec 64) :
    Nat → BitVec 64 → Machine → Option (BitVec 64) × Machine
  | 0, currentTable, m => (some currentTable, m)
  | levels + 1, currentTable, m =>
    let index := vmmVirtToTableIndex virtAddr (levels + 2)
    let entry := m.mem currentTable index
    if entry &&& pgPresent = 0 then
      let (newTable, region) := pageAlloc m.region
      if newTable &&& 0xfff ≠ 0 then (none, { m with region := region })
      else
        let cleared := Function.update m.mem newTable (fun _ => 0)
        ensureTablesLoop enc link visit virtAddr levels newTable
          { mem := setEntry cleared currentTable index (link newTable), region := region }
    else if levels + 1 > 1 ∧ enc.isLeaf entry then (none, m)
    else
      ensureTablesLoop enc link visit virtAddr levels (enc.tableEntryToPhys entry)
        { m with mem := setEntry m.mem currentTable index (visit entry) }

def ensureTables (enc : Encoding) (link visit : BitVec 64 → BitVec 64) (m : Machine)
    (rootTable virtAddr : BitVec 64) (toLevel : Nat) : Option (BitVec 64) × Machine :=
  if toLevel < 1 ∨ toLevel > 4 then (none, m)
  else ensureTablesLoop enc link visit virtAddr (4 - toLevel) rootTable m

/-! ## The two machines -/

def x8664 : Encoding where
  isLeaf := isPagesizeLeaf
  tableEntryToPhys := vmmTableEntryToPhys

def linkX8664 (flags : BitVec 16) (newTable : BitVec 64) : BitVec 64 :=
  vmmPhysAndFlagsToTableEntry newTable (pgPresent ||| parentFlags flags)

def visitX8664 (flags : BitVec 16) (entry : BitVec 64) : BitVec 64 :=
  vmmPhysAndFlagsToTableEntry (vmmTableEntryToPhys entry)
    (vmmTableEntryToPageFlags entry ||| parentFlags flags)

/-- Any of the read, write and execute bits makes a leaf. -/
def riscv64 : Encoding where
  isLeaf := fun entry => entry &&& (DirectMapRiscV.pgRead ||| DirectMapRiscV.pgWrite |||
    DirectMapRiscV.pgExec) != 0
  tableEntryToPhys := DirectMapRiscV.vmmTableEntryToPhys

def linkRiscv64 (newTable : BitVec 64) : BitVec 64 :=
  DirectMapRiscV.vmmPhysAndFlagsToTableEntry newTable pgPresent

/-- `ensure_tables` of riscv64, which leaves the entries on its way as they are. -/
def ensureTablesRiscv64 (m : Machine) (rootTable virtAddr : BitVec 64) (toLevel : Nat) :
    Option (BitVec 64) × Machine :=
  ensureTables riscv64 linkRiscv64 id m rootTable virtAddr toLevel

def vmmMapPageInRiscv64 (m : Machine) (pml4 virtAddr page : BitVec 64) (flags : BitVec 16) :
    Bool × Machine :=
  let virtAddr := virtAddr &&& 0xfffffffffffff000
  match ensureTablesRiscv64 m pml4 virtAddr 1 with
  | (none, m) => (false, m)
  | (some pt, m) =>
    (true, { m with
      mem := setEntry m.mem pt (vmmVirtToPtIndex virtAddr)
        (DirectMapRiscV.vmmPhysAndFlagsToTableEntry page (flags.zeroExtend 64)) })

theorem ensureTablesLoop_x8664 (flags : BitVec 16) (virtAddr : BitVec 64) (levels : Nat)
    (t : BitVec 64) (m : Machine) :
    ensureTablesLoop x8664 (linkX8664 flags) (visitX8664 flags) virtAddr levels t m =
      VmMapper.ensureTablesLoop virtAddr flags levels t m := by
  induction levels generalizing t m with
  | zero => rfl
  | succ levels ih =>
    simp only [ensureTablesLoop, VmMapper.ensureTablesLoop, ih]
    rfl

theorem ensureTables_x8664 (flags : BitVec 16) (m : Machine) (rootTable virtAddr : BitVec 64)
    (toLevel : Nat) :
    ensureTables x8664 (linkX8664 flags) (visitX8664 flags) m rootTable virtAddr toLevel =
      VmMapper.ensureTables m rootTable virtAddr toLevel flags := by
  rw [ensureTables, VmMapper.ensureTables, ensureTablesLoop_x8664]

/-! ## A large page on the way -/

/-- The page-directory entry for the address is present and a leaf, of the page at `frame`. -/
structure LargePage (enc : Encoding) (mem : BitVec 64 → Fin 512 → BitVec 64)
    (pml4 virtAddr pdpt pd frame : BitVec 64) : Prop where
  pml4e : isPresent (mem pml4 (vmmVirtToPml4Index virtAddr)) ∧
    ¬ enc.isLeaf (mem pml4 (vmmVirtToPml4Index virtAddr)) ∧
    enc.tableEntryToPhys (mem pml4 (vmmVirtToPml4Index virtAddr)) = pdpt
  pdpte : isPresent (mem pdpt (vmmVirtToPdptIndex virtAddr)) ∧
    ¬ enc.isLeaf (mem pdpt (vmmVirtToPdptIndex virtAddr)) ∧
    enc.tableEntryToPhys (mem pdpt (vmmVirtToPdptIndex virtAddr)) = pd
  pde : isPresent (mem pd (vmmVirtToPdIndex virtAddr)) ∧
    enc.isLeaf (mem pd (vmmVirtToPdIndex virtAddr)) ∧
    enc.tableEntryToPhys (mem pd (vmmVirtToPdIndex virtAddr)) = frame

/-- `page_alloc` has no page. -/
def Exhausted (region : MemoryRegion) : Prop := (pageAlloc region).1 &&& 0xfff ≠ 0

/-- When `ensure_tables` returns null, by the level it is asked for. From the root it goes on with
the index of the level below the one above that: level 3 is looked up by the page-directory index,
and level 2 by the index before it. -/
def ReturnsNull (enc : Encoding) (m : Machine) (root virtAddr : BitVec 64) : Nat → Prop
  | 1 => False
  | 2 =>
    let entry := m.mem root (vmmVirtToPdptIndex virtAddr)
    (isPresent entry ∧ (enc.isLeaf entry ∨
      ¬ isPresent (m.mem (enc.tableEntryToPhys entry) (vmmVirtToPdIndex virtAddr)) ∧
        Exhausted m.region)) ∨
    (¬ isPresent entry ∧ (Exhausted m.region ∨ Exhausted (pageAlloc m.region).2 ∧
      ((pageAlloc m.region).1 ≠ root ∨
        vmmVirtToPdIndex virtAddr ≠ vmmVirtToPdptIndex virtAddr)))
  | 3 => ¬ isPresent (m.mem root (vmmVirtToPdIndex virtAddr)) ∧ Exhausted m.region
  | 4 => False
  | _ => True

/-! ## What the loop writes on its way -/

/-- Links are present, and an entry that was passed reads as it did. -/
structure Keeps (enc : Encoding) (link visit : BitVec 64 → BitVec 64) : Prop where
  linked : ∀ table, isPresent (link table)
  present : ∀ entry, isPresent (visit entry) = isPresent entry
  leaf : ∀ entry, enc.isLeaf (visit entry) = enc.isLeaf entry
  phys : ∀ entry, enc.tableEntryToPhys (visit entry) = enc.tableEntryToPhys entry

theorem keeps_x8664 (flags : BitVec 16) :
    Keeps x8664 (linkX8664 flags) (visitX8664 flags) := by
  constructor
  · intro table
    have hmask : (0xfffffffffffff000 : BitVec 64) &&& pgPresent = 0#64 := by decide
    have hentry := entry_and table pgPresent pgPresent flags (by decide) (by decide)
    rw [hmask, BitVec.and_zero] at hentry
    unfold isPresent linkX8664
    rw [hentry]
    decide
  · intro entry
    unfold isPresent visitX8664
    rw [reflag_and entry pgPresent flags (by decide) (by decide) (by decide)]
  · intro entry
    show isPagesizeLeaf (visitX8664 flags entry) = isPagesizeLeaf entry
    unfold isPagesizeLeaf visitX8664
    rw [reflag_and entry pgPagesize flags (by decide) (by decide) (by decide)]
  · intro entry
    exact reflag_and entry _ flags (by decide) (by decide) (by decide)

theorem keeps_riscv64 : Keeps riscv64 linkRiscv64 id := by
  constructor
  · intro table
    have hpresent : (((table &&& 0xfffffffffffff000) >>> 2) ||| pgPresent) &&& pgPresent ≠ 0 := by
      intro hzero
      have hbit := congrArg (fun e => e.getLsbD 0) hzero
      simp [pgPresent] at hbit
    simpa [isPresent, linkRiscv64, DirectMapRiscV.vmmPhysAndFlagsToTableEntry] using hpresent
  · intro entry
    rfl
  · intro entry
    rfl
  · intro entry
    rfl

/-- A walk reads the same in both memories, wherever it goes. -/
def ReadsAs (enc : Encoding) (mem mem' : BitVec 64 → Fin 512 → BitVec 64) : Prop :=
  ∀ table index, isPresent (mem' table index) = isPresent (mem table index) ∧
    enc.isLeaf (mem' table index) = enc.isLeaf (mem table index) ∧
    enc.tableEntryToPhys (mem' table index) = enc.tableEntryToPhys (mem table index)

theorem index_pml4 (v : BitVec 64) : vmmVirtToTableIndex v 4 = vmmVirtToPml4Index v := rfl

theorem index_pdpt (v : BitVec 64) : vmmVirtToTableIndex v 3 = vmmVirtToPdptIndex v := rfl

theorem index_pd (v : BitVec 64) : vmmVirtToTableIndex v 2 = vmmVirtToPdIndex v := rfl

section Walks

variable {enc : Encoding} {link visit : BitVec 64 → BitVec 64} {v : BitVec 64}

/-- The tables may be one and the same: what is passed first still leads where it led. -/
theorem Keeps.readsAs (keeps : Keeps enc link visit) (mem : BitVec 64 → Fin 512 → BitVec 64)
    (table : BitVec 64) (index : Fin 512) :
    ReadsAs enc mem (setEntry mem table index (visit (mem table index))) := by
  intro t i
  by_cases ht : t = table
  · subst ht
    by_cases hi : i = index
    · subst hi
      rw [setEntry_self]
      exact ⟨keeps.present _, keeps.leaf _, keeps.phys _⟩
    · rw [setEntry_index _ hi]
      exact ⟨rfl, rfl, rfl⟩
  · rw [setEntry_table _ _ ht]
    exact ⟨rfl, rfl, rfl⟩

theorem LargePage.readsAs {mem mem' : BitVec 64 → Fin 512 → BitVec 64}
    {pml4 pdpt pd frame : BitVec 64} (large : LargePage enc mem pml4 v pdpt pd frame)
    (same : ReadsAs enc mem mem') : LargePage enc mem' pml4 v pdpt pd frame := by
  constructor
  · obtain ⟨hpresent, hleaf, hphys⟩ := same pml4 (vmmVirtToPml4Index v)
    rw [hpresent, hleaf, hphys]
    exact large.pml4e
  · obtain ⟨hpresent, hleaf, hphys⟩ := same pdpt (vmmVirtToPdptIndex v)
    rw [hpresent, hleaf, hphys]
    exact large.pdpte
  · obtain ⟨hpresent, hleaf, hphys⟩ := same pd (vmmVirtToPdIndex v)
    rw [hpresent, hleaf, hphys]
    exact large.pde

theorem present_ne {entry : BitVec 64} (h : isPresent entry) : entry &&& pgPresent ≠ 0 := by
  simpa [isPresent] using h

theorem absent_eq {entry : BitVec 64} (h : ¬ isPresent entry) : entry &&& pgPresent = 0 := by
  simpa [isPresent] using h

/-- One turn through an entry that is there. -/
theorem ensureTablesLoop_present {levels : Nat} {t : BitVec 64} {m : Machine}
    (present : isPresent (m.mem t (vmmVirtToTableIndex v (levels + 2))))
    (on : levels = 0 ∨ ¬ enc.isLeaf (m.mem t (vmmVirtToTableIndex v (levels + 2)))) :
    ensureTablesLoop enc link visit v (levels + 1) t m =
      ensureTablesLoop enc link visit v levels
        (enc.tableEntryToPhys (m.mem t (vmmVirtToTableIndex v (levels + 2))))
        { m with
          mem := setEntry m.mem t (vmmVirtToTableIndex v (levels + 2))
            (visit (m.mem t (vmmVirtToTableIndex v (levels + 2)))) } := by
  have hgo : ¬ (levels + 1 > 1 ∧ enc.isLeaf (m.mem t (vmmVirtToTableIndex v (levels + 2)))) := by
    rintro ⟨hmore, hleaf⟩
    rcases on with rfl | hnot
    · exact absurd hmore (by decide)
    · exact hnot hleaf
  rw [ensureTablesLoop]
  simp only
  rw [if_neg (present_ne present), if_neg hgo]

/-- One turn at an entry that is not there. -/
theorem ensureTablesLoop_absent (enc : Encoding) (link visit : BitVec 64 → BitVec 64)
    {levels : Nat} {t : BitVec 64} {m : Machine}
    (absent : ¬ isPresent (m.mem t (vmmVirtToTableIndex v (levels + 2)))) :
    (Exhausted m.region ∧ (ensureTablesLoop enc link visit v (levels + 1) t m).1 = none) ∨
    (¬ Exhausted m.region ∧ ensureTablesLoop enc link visit v (levels + 1) t m =
      ensureTablesLoop enc link visit v levels (pageAlloc m.region).1
        { mem := setEntry (Function.update m.mem (pageAlloc m.region).1 (fun _ => 0)) t
            (vmmVirtToTableIndex v (levels + 2)) (link (pageAlloc m.region).1)
          region := (pageAlloc m.region).2 }) := by
  rw [ensureTablesLoop]
  simp only
  rw [if_pos (absent_eq absent)]
  unfold Exhausted
  by_cases hmemory : (pageAlloc m.region).1 &&& 0xfff ≠ 0
  · exact Or.inl ⟨hmemory, by rw [if_pos hmemory]⟩
  · exact Or.inr ⟨hmemory, by rw [if_neg hmemory]⟩

/-- The last turn never looks whether its entry is a leaf. -/
theorem ensureTablesLoop_last (enc : Encoding) (link visit : BitVec 64 → BitVec 64)
    (t : BitVec 64) (m : Machine) :
    (ensureTablesLoop enc link visit v 1 t m).1 = none ↔
      ¬ isPresent (m.mem t (vmmVirtToPdIndex v)) ∧ Exhausted m.region := by
  rw [← index_pd]
  by_cases hp : isPresent (m.mem t (vmmVirtToTableIndex v 2))
  · rw [ensureTablesLoop_present hp (Or.inl rfl), ensureTablesLoop]
    simp [hp]
  · rcases ensureTablesLoop_absent enc link visit hp with ⟨hmemory, hnone⟩ | ⟨hmemory, heq⟩
    · simp [hp, hmemory, hnone]
    · rw [heq, ensureTablesLoop]
      simp [hmemory]

/-- A table on the way that is visited is as good as before. -/
theorem LargePage.visited (keeps : Keeps enc link visit) {m : Machine}
    {pml4 pdpt pd frame : BitVec 64} (large : LargePage enc m.mem pml4 v pdpt pd frame)
    (t : BitVec 64) (i : Fin 512) :
    LargePage enc ({ m with mem := setEntry m.mem t i (visit (m.mem t i)) } : Machine).mem pml4 v
      pdpt pd frame :=
  large.readsAs (keeps.readsAs m.mem t i)

/-- Under a large page the tables for level 1 are there: the last of them is the page. -/
theorem LargePage.ensureTables_pt (keeps : Keeps enc link visit) {m : Machine}
    {pml4 pdpt pd frame : BitVec 64} (large : LargePage enc m.mem pml4 v pdpt pd frame) :
    (ensureTables enc link visit m pml4 v 1).1 = some frame := by
  show (ensureTablesLoop enc link visit v 3 pml4 m).1 = some frame
  obtain ⟨hpresent, hleaf, hphys⟩ := large.pml4e
  rw [← index_pml4] at hpresent hleaf hphys
  rw [ensureTablesLoop_present hpresent (Or.inr hleaf), hphys]
  have large' := large.visited keeps pml4 (vmmVirtToTableIndex v 4)
  obtain ⟨hpresent', hleaf', hphys'⟩ := large'.pdpte
  rw [← index_pdpt] at hpresent' hleaf' hphys'
  rw [ensureTablesLoop_present hpresent' (Or.inr hleaf'), hphys']
  have large'' := large'.visited keeps pdpt (vmmVirtToTableIndex v 3)
  obtain ⟨hpresent'', -, hphys''⟩ := large''.pde
  rw [← index_pd] at hpresent'' hphys''
  rw [ensureTablesLoop_present hpresent'' (Or.inl rfl), hphys'', ensureTablesLoop]

/-- What a new table holds at an index: nothing, unless it took the place of its parent. -/
theorem present_linked (keeps : Keeps enc link visit) (mem : BitVec 64 → Fin 512 → BitVec 64)
    (newTable parent : BitVec 64) (i j : Fin 512) :
    isPresent (setEntry (Function.update mem newTable (fun _ => 0)) parent i (link newTable)
      newTable j) ↔ newTable = parent ∧ j = i := by
  by_cases hparent : newTable = parent
  · subst hparent
    by_cases hindex : j = i
    · subst hindex
      rw [setEntry_self]
      simp [keeps.linked newTable]
    · rw [setEntry_index _ hindex, Function.update_self]
      exact ⟨fun hp => absurd hp not_isPresent_zero, fun h => absurd h.2 hindex⟩
  · rw [setEntry_table _ _ hparent, Function.update_self]
    exact ⟨fun hp => absurd hp not_isPresent_zero, fun h => absurd h.1 hparent⟩

theorem ensureTables_pd (keeps : Keeps enc link visit) (m : Machine) (root : BitVec 64) :
    (ensureTablesLoop enc link visit v 2 root m).1 = none ↔ ReturnsNull enc m root v 2 := by
  rw [ReturnsNull, ← index_pdpt]
  by_cases hpresent : isPresent (m.mem root (vmmVirtToTableIndex v 3))
  · by_cases hleaf : enc.isLeaf (m.mem root (vmmVirtToTableIndex v 3))
    · have hnone : (ensureTablesLoop enc link visit v 2 root m).1 = none := by
        rw [ensureTablesLoop]
        simp only
        rw [if_neg (present_ne hpresent), if_pos ⟨by decide, hleaf⟩]
      simp [hpresent, hleaf, hnone]
    · rw [ensureTablesLoop_present hpresent (Or.inr hleaf), ensureTablesLoop_last,
        (keeps.readsAs m.mem root _ _ _).1]
      simp [hpresent, hleaf]
  · rcases ensureTablesLoop_absent enc link visit hpresent with ⟨hmemory, hnone⟩ | ⟨hmemory, heq⟩
    · simp [hpresent, hmemory, hnone]
    · rw [heq, ensureTablesLoop_last, present_linked keeps]
      simp only [hpresent, hmemory, false_and, false_or, not_and_or, not_false_eq_true, true_and,
        Bool.false_eq_true]
      exact and_comm

/-- When `ensure_tables` gives up under a large page. -/
theorem LargePage.ensureTables_eq_none_iff (keeps : Keeps enc link visit) {m : Machine}
    {pml4 pdpt pd frame : BitVec 64} (large : LargePage enc m.mem pml4 v pdpt pd frame)
    (toLevel : Nat) :
    (ensureTables enc link visit m pml4 v toLevel).1 = none ↔
      ReturnsNull enc m pml4 v toLevel := by
  match toLevel with
  | 0 => simp [ensureTables, ReturnsNull]
  | 1 => simp [large.ensureTables_pt keeps, ReturnsNull]
  | 2 => exact ensureTables_pd keeps m pml4
  | 3 => exact ensureTablesLoop_last enc link visit pml4 m
  | 4 => simp [ensureTables, ensureTablesLoop, ReturnsNull]
  | n + 5 => simp [ensureTables, ReturnsNull]

theorem largePage_align {mem : BitVec 64 → Fin 512 → BitVec 64} {pml4 pdpt pd frame : BitVec 64}
    (large : LargePage enc mem pml4 v pdpt pd frame) :
    LargePage enc mem pml4 (v &&& 0xfffffffffffff000) pdpt pd frame := by
  obtain ⟨hpml4e, hpdpte, hpde⟩ := large
  rw [← index_pml4, ← index_align v 3] at hpml4e
  rw [← index_pdpt, ← index_align v 2] at hpdpte
  rw [← index_pd, ← index_align v 1] at hpde
  exact ⟨hpml4e, hpdpte, hpde⟩

end Walks

/-! ## The page that is written into -/

/-- `vmm_map_page_in` of x86_64 takes the frame of the large page for a page table. -/
theorem LargePage.vmmMapPageIn_writes {m : Machine} {pml4 v pdpt pd frame : BitVec 64}
    (large : LargePage x8664 m.mem pml4 v pdpt pd frame) (page : BitVec 64) (flags : BitVec 16) :
    (vmmMapPageIn m pml4 v page flags).1 = true ∧
      (vmmMapPageIn m pml4 v page flags).2.mem frame (vmmVirtToPtIndex v) =
        vmmPhysAndFlagsToTableEntry page (flags.zeroExtend 64) := by
  have htable := (largePage_align large).ensureTables_pt (keeps_x8664 flags)
  rw [ensureTables_x8664] at htable
  rw [vmmMapPageIn]
  generalize VmMapper.ensureTables m pml4 (v &&& 0xfffffffffffff000) 1 flags = result at htable
  obtain ⟨table, m'⟩ := result
  obtain rfl : table = some frame := htable
  exact ⟨rfl, setEntry_self _ _ _ _⟩

/-- So does the one of riscv64. -/
theorem LargePage.vmmMapPageInRiscv64_writes {m : Machine} {pml4 v pdpt pd frame : BitVec 64}
    (large : LargePage riscv64 m.mem pml4 v pdpt pd frame) (page : BitVec 64) (flags : BitVec 16) :
    (vmmMapPageInRiscv64 m pml4 v page flags).1 = true ∧
      (vmmMapPageInRiscv64 m pml4 v page flags).2.mem frame (vmmVirtToPtIndex v) =
        DirectMapRiscV.vmmPhysAndFlagsToTableEntry page (flags.zeroExtend 64) := by
  have htable := (largePage_align large).ensureTables_pt keeps_riscv64
  have hindex : vmmVirtToPtIndex (v &&& 0xfffffffffffff000) = vmmVirtToPtIndex v := index_align v 0
  rw [vmmMapPageInRiscv64, ensureTablesRiscv64]
  generalize ensureTables riscv64 linkRiscv64 id m pml4 (v &&& 0xfffffffffffff000) 1 = result
    at htable
  obtain ⟨table, m'⟩ := result
  obtain rfl : table = some frame := htable
  simp only [hindex]
  exact ⟨trivial, setEntry_self _ _ _ _⟩

/-- Under a large page `ensure_tables` returns null only where it runs out of memory, meets a
leaf above its last entry or is asked for no level, and never for a page table, which
`vmm_map_page_in` asks for: it writes its entry into the page. -/
theorem ensureTables_fails_iff (m : Machine) (pml4 v pdpt pd frame page : BitVec 64)
    (flags : BitVec 16) :
    (LargePage x8664 m.mem pml4 v pdpt pd frame →
      (∀ toLevel, (VmMapper.ensureTables m pml4 v toLevel flags).1 = none ↔
        ReturnsNull x8664 m pml4 v toLevel) ∧
      (VmMapper.ensureTables m pml4 v 1 flags).1 = some frame ∧
      (vmmMapPageIn m pml4 v page flags).1 = true ∧
      (vmmMapPageIn m pml4 v page flags).2.mem frame (vmmVirtToPtIndex v) =
        vmmPhysAndFlagsToTableEntry page (flags.zeroExtend 64)) ∧
    (LargePage riscv64 m.mem pml4 v pdpt pd frame →
      (∀ toLevel, (ensureTablesRiscv64 m pml4 v toLevel).1 = none ↔
        ReturnsNull riscv64 m pml4 v toLevel) ∧
      (ensureTablesRiscv64 m pml4 v 1).1 = some frame ∧
      (vmmMapPageInRiscv64 m pml4 v page flags).1 = true ∧
      (vmmMapPageInRiscv64 m pml4 v page flags).2.mem frame (vmmVirtToPtIndex v) =
        DirectMapRiscV.vmmPhysAndFlagsToTableEntry page (flags.zeroExtend 64)) := by
  constructor
  · intro large
    simp only [← ensureTables_x8664]
    exact ⟨large.ensureTables_eq_none_iff (keeps_x8664 flags),
      large.ensureTables_pt (keeps_x8664 flags), large.vmmMapPageIn_writes page flags⟩
  · intro large
    exact ⟨large.ensureTables_eq_none_iff keeps_riscv64, large.ensureTables_pt keeps_riscv64,
      large.vmmMapPageInRiscv64_writes page flags⟩

/-- Tables at `0x1000`, `0x2000` and `0x3000`, with a large page at `0x400000` for the addresses
from `0x200000` on, and no memory for more tables. -/
def largeTables (entry : BitVec 64 → BitVec 64) (leafEntry : BitVec 64) : Machine where
  mem := fun t i =>
    if t = 0x1000 ∧ i = 0 then entry 0x2000
    else if t = 0x2000 ∧ i = 0 then entry 0x3000
    else if t = 0x3000 ∧ i = 1 then leafEntry
    else 0
  region := { size := 0, free := 0, stack := [] }

def largeX8664 : Machine := largeTables (linkX8664 0) 0x400083

def largeRiscv64 : Machine := largeTables linkRiscv64 0x100007

theorem largePage_x8664 :
    LargePage x8664 largeX8664.mem 0x1000 0x200000 0x2000 0x3000 0x400000 :=
  ⟨by decide, by decide, by decide⟩

theorem largePage_riscv64 :
    LargePage riscv64 largeRiscv64.mem 0x1000 0x200000 0x2000 0x3000 0x400000 :=
  ⟨by decide, by decide, by decide⟩

theorem ensureTables_fails_iff_exhausted :
    LargePage x8664 largeX8664.mem 0x1000 0x200000 0x2000 0x3000 0x400000 ∧
    (VmMapper.ensureTables largeX8664 0x1000 0x200000 3 0x3).1 = none ∧
    LargePage riscv64 largeRiscv64.mem 0x1000 0x200000 0x2000 0x3000 0x400000 ∧
    (ensureTablesRiscv64 largeRiscv64 0x1000 0x200000 3).1 = none := by
  have hx8664 := (ensureTables_fails_iff largeX8664 0x1000 0x200000 0x2000 0x3000 0x400000
    0x5000 0x3).1 largePage_x8664
  have hriscv64 := (ensureTables_fails_iff largeRiscv64 0x1000 0x200000 0x2000 0x3000 0x400000
    0x5000 0x3).2 largePage_riscv64
  refine ⟨largePage_x8664, (hx8664.1 3).mpr ?_, largePage_riscv64, (hriscv64.1 3).mpr ?_⟩
  · exact ⟨by decide, by unfold Exhausted; decide⟩
  · exact ⟨by decide, by unfold Exhausted; decide⟩

/-- The large page is handed out as a page table on both machines, and an entry for the page at
`0x5000` lands in its first word. -/
theorem large_page_is_written :
    (¬ ∀ (m : Machine) (pml4 v pdpt pd frame : BitVec 64) (flags : BitVec 16) (toLevel : Nat),
      LargePage x8664 m.mem pml4 v pdpt pd frame →
        (VmMapper.ensureTables m pml4 v toLevel flags).1 = none) ∧
    (¬ ∀ (m : Machine) (pml4 v pdpt pd frame : BitVec 64) (toLevel : Nat),
      LargePage riscv64 m.mem pml4 v pdpt pd frame →
        (ensureTablesRiscv64 m pml4 v toLevel).1 = none) ∧
    (vmmMapPageIn largeX8664 0x1000 0x200000 0x5000 0x3).2.mem 0x400000 0 = 0x5003 ∧
    (vmmMapPageInRiscv64 largeRiscv64 0x1000 0x200000 0x5000 0x7).2.mem 0x400000 0 = 0x1407 := by
  refine ⟨?_, ?_, (largePage_x8664.vmmMapPageIn_writes 0x5000 0x3).2,
    (largePage_riscv64.vmmMapPageInRiscv64_writes 0x5000 0x7).2⟩
  · intro h
    have hnone := h _ _ _ _ _ _ 0x3 1 largePage_x8664
    have hsome := largePage_x8664.ensureTables_pt (keeps_x8664 0x3)
    rw [ensureTables_x8664, hnone] at hsome
    cases hsome
  · intro h
    have hnone := h _ _ _ _ _ _ 1 largePage_riscv64
    have hsome := largePage_riscv64.ensureTables_pt keeps_riscv64
    rw [← ensureTablesRiscv64, hnone] at hsome
    cases hsome

end LargePages
