import AnosKernel.DirectMapRegions

/-!
# The direct map on x86_64

`kernel/arch/x86_64/vmm/vmmapper_init.c`. Large pages are leaves with the page-size bit in the two
levels in the middle, and an address can be written when every entry on the way allows it. What
`ensure_temp_page_tables` does is taken as given. The counts of pages are not represented.
-/

namespace DirectMapX86

open VmMapper PageAlloc Directories DirectMap

/-- `PG_GLOBAL`, which the flags of a region lose since they are kept in eight bits. -/
def pgGlobal : BitVec 64 := 0x100

def format : Format where
  physAndFlagsToTableEntry := vmmPhysAndFlagsToTableEntry
  tableEntryToPhys := vmmTableEntryToPhys
  pgRead := 0
  pgWrite := pgWrite
  pgGlobal := pgGlobal
  pgPagesize := pgPagesize
  tableFlags := pgPresent ||| pgWrite

def cleanupTempPageTables (m : Machine) (pml4 : BitVec 64) : Machine :=
  write (write (write (write m pml4 0 0) pml4 1 0) pml4 2 0) pml4 3 0

/-- `vmm_init_direct_mapping`, with the first entry of the top-level table in use for the temporary
tables meanwhile. -/
def vmmInitDirectMapping (ensureTempPageTables : Machine → Except Panic (BitVec 64 × Machine))
    (tempPdptPhys pml4 : BitVec 64) (memmap : List MemMapEntry) (m : Machine) :
    Except Panic Machine := do
  let savedPml4 := m.mem pml4 0
  let (tempPt, m) ← ensureTempPageTables
    (write m pml4 0 (tempPdptPhys ||| pgPresent ||| pgWrite))
  let m ← mapEntries format (commonKinds format ⟨pml4, tempPt⟩) m memmap
  return write (cleanupTempPageTables m pml4) pml4 0 savedPml4

/-! ## The walk of the hardware -/

/-- The base of a page on level `l`. -/
def leafBase (l : Nat) (entry : BitVec 64) : BitVec 64 :=
  BitVec.ofNat 64
    ((vmmTableEntryToPhys entry).toNat / (0x1000 * 512 ^ l) * (0x1000 * 512 ^ l))

/-- The walk for a page from a table on level `l` on, where `writeable` is what the entries before
allow. The page-size bit is reserved in the top-level table. -/
def fourLevelWalk (mem : BitVec 64 → Fin 512 → BitVec 64) (n : Nat) :
    Nat → BitVec 64 → Bool → Option (Nat × (BitVec 64 × Bool))
  | 0, table, writeable =>
    let entry := mem table (Fin.ofNat 512 n)
    if entry &&& pgPresent = 0 then none
    else some (0, leafBase 0 entry, writeable && entry &&& pgWrite ≠ 0)
  | l + 1, table, writeable =>
    let entry := mem table (Fin.ofNat 512 (n / 512 ^ (l + 1)))
    if entry &&& pgPresent = 0 then none
    else if entry &&& pgPagesize ≠ 0 then
      if l + 1 = 3 then none
      else some (l + 1, leafBase (l + 1) entry, writeable && entry &&& pgWrite ≠ 0)
    else fourLevelWalk mem n l (vmmTableEntryToPhys entry) (writeable && entry &&& pgWrite ≠ 0)

/-- The physical address that a virtual one is translated to, and if it can be written. -/
def translate (mem : BitVec 64 → Fin 512 → BitVec 64) (pml4 vaddr : BitVec 64) :
    Option (Nat × Bool) :=
  (fourLevelWalk mem (pageNumber vaddr) 3 pml4 true).map (translated vaddr)

/-- How the walk reads an entry; those of the direct map that lead to a table can be written. -/
def decode : Reader := fun l entry =>
  if entry &&& pgPresent = 0 then .absent
  else if l = 0 ∨ entry &&& pgPagesize ≠ 0 then
    if l = 3 then .other else .leaf (leafBase l entry, entry &&& pgWrite ≠ 0)
  else if entry &&& pgWrite ≠ 0 then .table (vmmTableEntryToPhys entry)
  else .other

section Reading

variable {f flags mask entry : BitVec 64} {l : Nat}

theorem entry_phys (frame : IsFrame f) (low : flags &&& 0x0000fffffffff000 = 0#64) :
    vmmTableEntryToPhys (vmmPhysAndFlagsToTableEntry f flags) = f :=
  (phys_entry low).trans frame

theorem leafBase_entry (frame : IsFrame f) (low : flags &&& 0x0000fffffffff000 = 0#64)
    (aligned : f.toNat % (0x1000 * 512 ^ l) = 0) :
    leafBase l (vmmPhysAndFlagsToTableEntry f flags) = f := by
  rw [leafBase, entry_phys frame low,
    Nat.div_mul_cancel (Nat.dvd_of_mod_eq_zero aligned), BitVec.ofNat_toNat, BitVec.setWidth_eq]

theorem decode_table (present : entry &&& pgPresent ≠ 0) (small : entry &&& pgPagesize = 0)
    (writeable : entry &&& pgWrite ≠ 0) (pos : 0 < l) :
    decode l entry = .table (vmmTableEntryToPhys entry) := by
  have hnot : ¬ (l = 0 ∨ entry &&& pgPagesize ≠ 0) := by
    rintro (h | h)
    · omega
    · exact h small
  rw [decode, if_neg present, if_neg hnot, if_pos writeable]

theorem decode_leaf (present : entry &&& pgPresent ≠ 0) (leaf : l = 0 ∨ entry &&& pgPagesize ≠ 0)
    (le : l ≤ 2) : decode l entry = .leaf (leafBase l entry, entry &&& pgWrite ≠ 0) := by
  have hnot : l ≠ 3 := by omega
  rw [decode, if_neg present, if_pos leaf, if_neg hnot]

/-- The leaf of a region, with the page-size bit or without. -/
theorem decode_region {writeable : Bool} (le : l ≤ 2) (frame : IsFrame f)
    (aligned : f.toNat % (0x1000 * 512 ^ l) = 0) {size : BitVec 64}
    (sized : l = 0 ∧ size = 0 ∨ size = pgPagesize) :
    decode l (vmmPhysAndFlagsToTableEntry f
      ((regionFlags format writeable).zeroExtend 64 ||| size)) = .leaf (f, writeable) := by
  have hflags : ∀ mask : BitVec 64, (0xfffffffffffff000 : BitVec 64) &&& mask = 0#64 →
      vmmPhysAndFlagsToTableEntry f ((regionFlags format writeable).zeroExtend 64 ||| size) &&&
        mask = ((regionFlags format writeable).zeroExtend 64 ||| size) &&& mask :=
    fun mask low => entry_flags low
  have hlow : ((regionFlags format writeable).zeroExtend 64 ||| size) &&& 0x0000fffffffff000 = 0#64 := by
    rcases sized with ⟨_, rfl⟩ | rfl <;> cases writeable <;> decide
  rw [decode_leaf, leafBase_entry frame hlow aligned, hflags pgWrite (by decide)]
  · rcases sized with ⟨_, rfl⟩ | rfl <;> cases writeable <;> rfl
  · rw [hflags pgPresent (by decide)]
    rcases sized with ⟨_, rfl⟩ | rfl <;> cases writeable <;> decide
  · rw [hflags pgPagesize (by decide)]
    rcases sized with ⟨hl, _⟩ | rfl
    · exact Or.inl hl
    · right
      cases writeable <;> decide
  · exact le

theorem format_reads : format.Reads decode where
  zero := fun l => if_pos (by decide)
  absent := by
    intro l e h
    rw [decode] at h
    split_ifs at h with hpresent
    exact hpresent
  present := by
    intro l e f h
    rw [decode] at h
    split_ifs at h with hpresent
    exact hpresent
  phys := by
    intro l e f h
    rw [decode] at h
    split_ifs at h
    exact Decoded.table.inj h
  window := fun f frame => entry_phys frame (by decide)
  table := by
    intro l f pos frame
    change decode l (vmmPhysAndFlagsToTableEntry f format.tableFlags) = _
    have hflags : ∀ mask : BitVec 64, (0xfffffffffffff000 : BitVec 64) &&& mask = 0#64 →
        vmmPhysAndFlagsToTableEntry f format.tableFlags &&& mask = format.tableFlags &&& mask :=
      fun mask low => entry_flags low
    have hphys : vmmTableEntryToPhys (vmmPhysAndFlagsToTableEntry f format.tableFlags) = f :=
      entry_phys frame (by decide)
    refine (decode_table ?_ ?_ ?_ pos).trans (congrArg _ hphys)
    · rw [hflags pgPresent (by decide)]
      decide
    · rw [hflags pgPagesize (by decide)]
      decide
    · rw [hflags pgWrite (by decide)]
      decide
  page := by
    intro base writeable frame
    have haligned : base.toNat % (0x1000 * 512 ^ 0) = 0 := by
      have hlow := (Masks.and_low_eq_zero_iff (k := 12) rfl).mp frame.aligned
      omega
    have hleaf := @decode_region base 0 writeable (by decide) frame haligned 0#64 (Or.inl ⟨rfl, rfl⟩)
    rwa [BitVec.or_zero] at hleaf
  large := fun l base writeable _ le aligned frame =>
    decode_region le frame aligned (Or.inr rfl)

end Reading

/-! ## The walk and the directory -/

section Walk

variable {mem : BitVec 64 → Fin 512 → BitVec 64} {pml4 f : BitVec 64} {d : Dir} {n l : Nat}

/-- In the direct map every table can be written, so that the hardware finds what `decode` says. -/
theorem fourLevelWalk_eq (holds : Holds 512 3 pml4 part decode mem d) (le : l ≤ 3)
    (inPart : part (n / 512 ^ 3)) (home : d.home 512 3 pml4 l (n / 512 ^ l) = some f) :
    fourLevelWalk mem n l f true = walk 512 decode mem l f n := by
  induction l generalizing f with
  | zero =>
    rw [fourLevelWalk, walk, decode]
    generalize mem f (Fin.ofNat 512 n) = entry
    by_cases hpresent : entry &&& pgPresent = 0
    · simp only [if_pos hpresent]
    · simp only [if_neg hpresent, true_or, if_true, Bool.true_and]
      rfl
  | succ l ih =>
    have hentry := holds (l + 1) _ f le home (fun htop => by rw [htop]; exact inPart)
    have hnext : ∀ c, d.table (l + 1) (n / 512 ^ (l + 1)) = some c →
        d.home 512 3 pml4 l (n / 512 ^ l) = some c := by
      intro c hc
      rwa [Directory.home, if_neg (by omega), div_next]
    rw [fourLevelWalk, walk]
    generalize mem f (Fin.ofNat 512 (n / 512 ^ (l + 1))) = entry at hentry
    by_cases hpresent : entry &&& pgPresent = 0
    · simp only [decode, if_pos hpresent]
    by_cases hlarge : entry &&& pgPagesize ≠ 0
    · by_cases htop : l + 1 = 3
      · have hother : decode (l + 1) entry = .other := by
          rw [decode, if_neg hpresent, if_pos (Or.inr hlarge), if_pos htop]
        exact absurd (hentry.symm.trans hother) entry_ne_other
      · rw [decode_leaf hpresent (Or.inr hlarge) (by omega)]
        simp only [if_neg hpresent, if_pos hlarge, if_neg htop, Bool.true_and]
    · by_cases hwrite : entry &&& pgWrite ≠ 0
      · have htable := decode_table hpresent (not_not.mp hlarge) hwrite (Nat.succ_pos l)
        have hchild := table_of_entry (hentry.symm.trans htable)
        simp only [if_neg hpresent, if_neg hlarge, htable]
        rw [decide_eq_true hwrite, Bool.true_and]
        exact ih (by omega) (hnext _ hchild)
      · have hother : decode (l + 1) entry = .other := by
          have hnot : ¬ (l + 1 = 0 ∨ entry &&& pgPagesize ≠ 0) := by
            rintro (h | h)
            · omega
            · exact hlarge h
          rw [decode, if_neg hpresent, if_neg hnot, if_neg hwrite]
        exact absurd (hentry.symm.trans hother) entry_ne_other

end Walk

/-! ## The direct map is exact -/

theorem picks (env : Env) (writeable : Bool) :
    Picks decode env (regionFlags format writeable) writeable False (commonKinds format env) := by
  constructor
  intro base length aligned more
  obtain ⟨kind, l, hnext, hserves, hl⟩ := commonKinds_next format_reads aligned more
  exact ⟨kind, l, hnext, hserves, fun h => absurd h (by omega), fun _ h => h.elim⟩

theorem cleanup_built {env : Env} {cover : Nat → Bool → Prop} {m : Machine} {saved : BitVec 64}
    (built : Built decode env cover m) :
    Built decode env cover (write (cleanupTempPageTables m env.pml4) env.pml4 0 saved) := by
  have houtside : ∀ i : Fin 512, i.val < 256 → ¬ part i.val := by
    intro i hi hpart
    exact absurd hpart.1 (by omega)
  have h0 := built.writeRoot (i := 0) (e := 0) (houtside 0 (by decide))
  have h1 := h0.writeRoot (i := 1) (e := 0) (houtside 1 (by decide))
  have h2 := h1.writeRoot (i := 2) (e := 0) (houtside 2 (by decide))
  have h3 := h2.writeRoot (i := 3) (e := 0) (houtside 3 (by decide))
  exact h3.writeRoot (houtside 0 (by decide))

/-- A run of `vmm_init_direct_mapping` that does not run out of memory ends with the direct map of
the memory map; three pages for each page of the map are enough memory. -/
theorem vmmInitDirectMapping_exact
    (ensureTempPageTables : Machine → Except Panic (BitVec 64 × Machine))
    (tempPdptPhys pml4 tempPt : BitVec 64) (memmap : List MemMapEntry) (m start : Machine)
    (sound : Sound memmap)
    (returned : ensureTempPageTables (write m pml4 0 (tempPdptPhys ||| pgPresent ||| pgWrite)) =
      .ok (tempPt, start))
    (ready : Ready ⟨pml4, tempPt⟩ start)
    (empty : ∀ i : Fin 512, part i.val → start.mem pml4 i &&& pgPresent = 0) :
    let result := vmmInitDirectMapping ensureTempPageTables tempPdptPhys pml4 memmap m
    result ≠ .error .alreadyMapped ∧
      (result ≠ .error .outOfMemory →
        ∃ final, result = .ok final ∧ Exact memmap (translate final.mem pml4)) ∧
      (3 * (memmap.map fun entry => pages entry.length).sum ≤ (freePages start.region).length →
        result ≠ .error .outOfMemory) := by
  have hends := mapEntries_ends (picks ⟨pml4, tempPt⟩) sound
    (ready.built fun i hi => if_pos (empty i hi)) (fun _ _ _ _ _ _ h => h)
  intro result
  have hresult : result =
      mapEntries format (commonKinds format ⟨pml4, tempPt⟩) start memmap >>= fun last =>
        .ok (write (cleanupTempPageTables last pml4) pml4 0 (m.mem pml4 0)) := by
    simp only [result, vmmInitDirectMapping, returned]
    rfl
  rw [hresult]
  generalize mapEntries format (commonKinds format ⟨pml4, tempPt⟩) start memmap = mapped at hends
  cases hends with
  | outOfMemory hfewer =>
    refine ⟨?_, ?_, ?_⟩
    · simp [bind, Except.bind]
    · exact fun h => absurd rfl h
    · intro h
      omega
  | @ok last _ hbuilt _ =>
    refine ⟨?_, ?_, ?_⟩
    · simp [bind, Except.bind]
    · intro _
      refine ⟨_, rfl, ?_⟩
      have hcover : Built decode ⟨pml4, tempPt⟩ (mapCover False memmap) last :=
        hbuilt.congr fun n w => iff_of_eq (false_or _)
      have hclean := @cleanup_built _ _ last (m.mem pml4 0) hcover
      refine (hclean.exact_iff sound ?_).mpr fun h => h.elim
      intro p hbelow
      obtain ⟨d, hgood, _⟩ := hclean
      rw [translate, pageNumber_virt hbelow,
        fourLevelWalk_eq hgood.holds (Nat.le_refl 3) ?_ (if_pos rfl)]
      rw [part, pageOf]
      omega
    · intro _
      simp [bind, Except.bind]

/-- `ensure_temp_page_tables` where only the page table is missing, in the directory `pd`. -/
def addTempPageTable (pd tempPdpt : BitVec 64) (m : Machine) : Except Panic (BitVec 64 × Machine) :=
  let (ptPhys, region) := pageAlloc m.region
  let cleared := Function.update m.mem ptPhys fun _ => 0
  let linked := setEntry cleared pd 2 (vmmPhysAndFlagsToTableEntry ptPhys (pgPresent ||| pgWrite))
  .ok (ptPhys, { mem := setEntry linked tempPdpt 3 0x83, region := region })

/-- The top-level table is at 0x1000, and the directory for the temporary pages at 0x4000. -/
def bootMachine : Machine where
  mem := setEntry (setEntry (fun _ _ => 0) 0x1000 511 0x3003) 0x3000 510 0x4003
  region := { size := 0x7000, free := 0x7000, stack := [{ base := 0x10000, size := 7 }] }

/-- With the table for temporary pages at 0x10000. -/
def loopStart : Machine where
  mem := setEntry (setEntry (Function.update (write bootMachine 0x1000 0 0x8003).mem 0x10000
    fun _ => 0) 0x4000 2 0x10003) 0x8000 3 0x83
  region := { size := 0x7000, free := 0x6000, stack := [{ base := 0x11000, size := 6 }] }

theorem loopStart_ready : Ready ⟨0x1000, 0x10000⟩ loopStart := by
  have hpages : freePages loopStart.region =
      [0x11000, 0x12000, 0x13000, 0x14000, 0x15000, 0x16000] := by decide
  constructor
  · simp [WellSized, loopStart]
  · rw [hpages]
    decide
  · rw [hpages]
    simp [IsFrame, vmmTableEntryToPhys]
  · rw [hpages]
    simp
  · decide

theorem loopStart_empty : ∀ i : Fin 512, part i.val → loopStart.mem 0x1000 i &&& pgPresent = 0 := by
  rintro i ⟨hlow, hhigh⟩
  have hfirst : i ≠ 0 := fun h => absurd hlow (by rw [h]; decide)
  have hlast : i ≠ 511 := fun h => absurd hhigh (by rw [h]; decide)
  simp [loopStart, bootMachine, setEntry, hfirst, hlast]

theorem vmmInitDirectMapping_exact_twoPages :
    ∃ final, vmmInitDirectMapping (addTempPageTable 0x4000 0x8000) 0x8000 0x1000 twoPages
      bootMachine = .ok final ∧ Exact twoPages (translate final.mem 0x1000) := by
  have hreturned : addTempPageTable 0x4000 0x8000
      (write bootMachine 0x1000 0 (0x8000 ||| pgPresent ||| pgWrite)) = .ok (0x10000, loopStart) := rfl
  obtain ⟨_, hexact, henough⟩ := vmmInitDirectMapping_exact (addTempPageTable 0x4000 0x8000) 0x8000
    0x1000 0x10000 twoPages bootMachine loopStart twoPages_sound hreturned loopStart_ready
    loopStart_empty
  exact hexact (henough (by decide))

end DirectMapX86
