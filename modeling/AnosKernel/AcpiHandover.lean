import AnosKernel.AcpiTables

/-!
# Handing over the ACPI tables

`map_firmware_tables` of `kernel/syscalls.c`, which puts the physical addresses back into the root
table, copies the RSDP to the caller and unmaps the tables.
-/

namespace AcpiTables

open Bytes Slots VmMapper MapSyscalls TableTree PageAlloc

/-- The loop that turns the entries back, and whether it came to its end. -/
def handEntries (width : Nat) : List (BitVec 64) → World → Option (Bool × World)
  | [], w => some (true, w)
  | slot :: slots, w =>
    (readVirt w slot width).bind fun bytes =>
      let entry := BitVec.ofNat 64 (ofBytes bytes)
      if entry = 0 then handEntries width slots w
      else
        let phys := vmmVirtToPhys w (if width = 4 then entry ||| 0xffffffff00000000 else entry)
        if phys = 0 then some (false, w)
        else
          (writeVirt w slot (toBytes width phys.toNat)).bind fun w => handEntries width slots w

def copyRsdp (src dst : BitVec 64) : Nat → World → Option World
  | 0, w => some w
  | n + 1, w =>
    (readVirt w src 1).bind fun bytes =>
      (writeVirt w dst bytes).bind fun w => copyRsdp (src + 1) (dst + 1) n w

def unmapPages (w : World) : List (BitVec 64) → World
  | [] => w
  | v :: pages =>
    if vmmVirtToPhysPage w v ≠ 0 then
      unmapPages { w with machine := (vmmUnmapPageIn w.machine w.pml4 v).2 } pages
    else unmapPages w pages

/-- The pages from `ACPI_TABLES_VADDR_BASE` up to `ACPI_TABLES_VADDR_LIMIT`. -/
def acpiPages : List (BitVec 64) :=
  (List.range 0xf00).map fun i => addr acpiTablesVaddrBase (0x1000 * i)

def handleMapFirmwareTables (arg0 kernelRsdp rootTable : BitVec 64) (w : World) :
    Option (SyscallResult × World) :=
  if w.handedOver then some (resultFailure, w)
  else if ¬ isUserAddress arg0 then some (resultBadargs, w)
  else if kernelRsdp = 0 ∨ rootTable = 0 then some (resultFailure, w)
  else
    (readVirt w rootTable 4).bind fun signature =>
      match entryWidth signature with
      | none => some (resultFailure, w)
      | some width =>
        (entryCount w rootTable width).bind fun count =>
          (handEntries width (entrySlots rootTable width count) w).bind fun (all, w) =>
            if all then
              (rsdpSize w kernelRsdp).bind fun size =>
                (copyRsdp kernelRsdp arg0 size w).map fun w =>
                  (resultOk, { unmapPages w acpiPages with handedOver := true })
            else some (resultFailure, w)

/-! ## The entries, put back -/

section PutBack

variable {w w' : World} {width : Nat}

/-- What the hand-over makes of an entry is the virtual address, also where four bytes are left of
it. -/
theorem extend_entry {v : BitVec 64} (kernel : kernelBase ≤ v) (hwidth : width = 4 ∨ width = 8) :
    let entry := BitVec.ofNat 64 (ofBytes (toBytes width v.toNat))
    entry ≠ 0 ∧ (if width = 4 then entry ||| 0xffffffff00000000 else entry) = v := by
  intro entry
  have hlt := v.isLt
  rw [kernel_iff] at kernel
  obtain rfl | rfl := hwidth
  · have hentry : entry.toNat = v.toNat % 2 ^ 32 := by
      show (BitVec.ofNat 64 (ofBytes (toBytes 4 v.toNat))).toNat = _
      rw [ofBytes_toBytes_mod, BitVec.toNat_ofNat]
      omega
    have hdisjoint : entry &&& 0xffffffff00000000 = 0 := by
      apply BitVec.eq_of_toNat_eq
      rw [Masks.toNat_and_high entry _ 32 (by decide) rfl, hentry, Nat.div_eq_of_lt (by omega)]
      rfl
    constructor
    · intro hzero
      rw [hzero] at hentry
      change 0 = _ at hentry
      omega
    · apply BitVec.eq_of_toNat_eq
      have hhigh : (0xffffffff00000000 : BitVec 64).toNat = 0xffffffff00000000 := rfl
      rw [if_pos rfl, ← BitVec.add_eq_or_of_and_eq_zero _ _ hdisjoint, BitVec.toNat_add, hentry,
        hhigh]
      omega
  · have hentry : entry = v := by
      show BitVec.ofNat 64 (ofBytes (toBytes 8 v.toNat)) = v
      rw [ofBytes_toBytes (by omega), BitVec.ofNat_toNat, BitVec.setWidth_eq]
    rw [if_neg (by decide), hentry]
    refine ⟨?_, rfl⟩
    rintro rfl
    exact absurd kernel (by decide)

theorem handEntries_spec {addrs phys virtual : List (BitVec 64)} {slots : List (List (BitVec 64))}
    (hwidth : width = 4 ∨ width = 8) (covers : List.Forall₂ (Covers w width) addrs slots)
    (apart : slots.flatten.Nodup)
    (entries : List.Forall₂ (fun phys v => Home v ∧ translate w v = some phys) phys virtual)
    (holds : slots.map (readAt w.ram) = virtual.map fun v => toBytes width v.toNat)
    (h : handEntries width addrs w = some (true, w')) :
    w' = { w with ram := writeAll w.ram slots (phys.map fun p => toBytes width p.toNat) } := by
  induction addrs generalizing w slots phys virtual with
  | nil =>
    cases covers
    obtain ⟨-, rfl⟩ := Prod.mk.inj (Option.some.inj h)
    rfl
  | cons slot addrs ih =>
    cases covers with
    | @cons _ ps _ slots hslot hslots =>
    cases entries with
    | nil => cases holds
    | @cons p v phys virtual hentry hentries =>
    obtain ⟨hread, hreads⟩ := List.cons.inj holds
    obtain ⟨hnonzero, hvirtual⟩ := extend_entry hentry.1.kernel hwidth
    have hphys : vmmVirtToPhys w v = p := (translate_eq_some.mp hentry.2).2
    rw [List.flatten_cons, List.nodup_append] at apart
    rw [handEntries, hslot.read, Option.bind_some, hread] at h
    dsimp only at h
    rw [if_neg hnonzero, hvirtual, hphys] at h
    by_cases hzero : p = 0
    · rw [if_pos hzero] at h
      exact absurd (Prod.mk.inj (Option.some.inj h)).1 (by decide)
    · rw [if_neg hzero, hslot.write, Option.bind_some] at h
      have hkept : slots.map (readAt (writeAt w.ram ps (toBytes width p.toNat))) =
          slots.map (readAt w.ram) := by
        apply List.map_congr_left
        intro ps' hps'
        apply readAt_writeAt_other
        intro a ha ha'
        exact apart.2.2 a ha' a (List.mem_flatten.mpr ⟨ps', hps', ha⟩) rfl
      have hcovers : List.Forall₂
          (Covers { w with ram := writeAt w.ram ps (toBytes width p.toNat) } width) addrs slots :=
        hslots.imp fun _ _ hcovers => hcovers.keeps (Keeps.refl w)
      have hrest := ih hcovers apart.2.1 hentries (hkept.trans hreads) h
      rw [hrest]
      rfl

end PutBack

/-! ## The copy and the unmapping -/

section Handover

variable {w w' : World}

/-- Only user pages are written to. -/
theorem copyRsdp_spec {src dst : BitVec 64} {n : Nat} (user : dst.toNat ≤ 2 ^ 47)
    (h : copyRsdp src dst n w = some w') :
    w' = { w with ram := w'.ram } ∧ ∀ a, (∀ v, isUserAddress v → translate w v ≠ some a) →
      w'.ram a = w.ram a := by
  induction n generalizing src dst w with
  | zero =>
    obtain rfl := Option.some.inj h
    exact ⟨rfl, fun _ _ => rfl⟩
  | succ n ih =>
    rw [copyRsdp, Option.bind_eq_some_iff] at h
    obtain ⟨bytes, hread, h⟩ := h
    rw [Option.bind_eq_some_iff] at h
    obtain ⟨w₁, hwrite, h⟩ := h
    obtain ⟨from_, hfrom, rfl⟩ := Option.map_eq_some_iff.mp hread
    have hone : (readAt w.ram from_).length = 1 := by
      rw [readAt, List.length_map]
      exact (places_iff.mp hfrom).1
    obtain ⟨ps, hps, rfl⟩ := Option.map_eq_some_iff.mp hwrite
    rw [hone] at hps
    obtain ⟨hlength, hplace⟩ := places_iff.mp hps
    obtain ⟨a₀, rfl⟩ := List.length_eq_one_iff.mp hlength
    have hfirst : translate w dst = some a₀ := by
      have haddr : addr dst 0 = dst := BitVec.add_zero dst
      have hzero := hplace 0 (by decide)
      rw [haddr] at hzero
      exact hzero
    have huser : dst.toNat < 2 ^ 47 := by
      obtain hlow | hhigh := (translate_eq_some.mp hfirst).1.1
      · exact hlow
      · omega
    have hfits : dst.toNat + 1 < 2 ^ 64 := by omega
    have hsucc : (dst + 1).toNat = dst.toNat + 1 := toNat_addr hfits
    obtain ⟨hsame, hram⟩ := ih (by omega) h
    refine ⟨hsame, fun a ha => ?_⟩
    apply (hram a ha).trans
    apply writeAt_other
    intro hmem
    rw [List.mem_singleton] at hmem
    rw [hmem] at ha
    exact ha dst (isUserAddress_iff.mpr huser) hfirst

theorem unmapPage_spec (paged : Paged w) {v : BitVec 64} (hv : kernelBase ≤ v) :
    let w' : World := { w with machine := (vmmUnmapPageIn w.machine w.pml4 v).2 }
    Paged w' ∧ ∀ u, kernelBase ≤ u →
      (pageNumber u = pageNumber v → entryAt w' u = 0) ∧
      (pageNumber u ≠ pageNumber v → entryAt w' u = entryAt w u) := by
  intro w'
  have straight := paged.straight v hv
  obtain ⟨-, hcleared, hothers, hwf⟩ := unmap_clears_one_page paged.wellFormed straight rfl
  refine ⟨⟨hwf, fun u hu => (hothers u (paged.straight u hu)).1⟩, fun u hu => ⟨?_, ?_⟩⟩
  · intro hpage
    exact (entry_eq_of_pageNumber hpage _ _).trans hcleared
  · exact (hothers u (paged.straight u hu)).2

/-- What was unmapped stays so, and of the pages that were met none is left but one that is mapped
to the first frame. -/
theorem unmapPages_spec {pages : List (BitVec 64)} (paged : Paged w)
    (kernel : ∀ v ∈ pages, kernelBase ≤ v) :
    (unmapPages w pages).ram = w.ram ∧ ∀ u, kernelBase ≤ u →
      (entryAt w u = 0 → entryAt (unmapPages w pages) u = 0) ∧
      ∀ v ∈ pages, pageNumber u = pageNumber v → vmmTableEntryToPhys (entryAt w u) ≠ 0 →
        entryAt (unmapPages w pages) u = 0 := by
  induction pages generalizing w with
  | nil => exact ⟨rfl, fun u _ => ⟨id, fun v hv => absurd hv List.not_mem_nil⟩⟩
  | cons first pages ih =>
    have hfirst := kernel first List.mem_cons_self
    have hrest : ∀ v ∈ pages, kernelBase ≤ v := fun v hv => kernel v (List.mem_cons_of_mem _ hv)
    rw [unmapPages]
    split_ifs with hframe
    · obtain ⟨hpaged, hentries⟩ := unmapPage_spec paged hfirst
      obtain ⟨hram, hunmapped⟩ := ih hpaged hrest
      refine ⟨hram, fun u hu => ?_⟩
      obtain ⟨hcleared, hkept⟩ := hentries u hu
      obtain ⟨hstays, hmet⟩ := hunmapped u hu
      by_cases hpage : pageNumber u = pageNumber first
      · exact ⟨fun _ => hstays (hcleared hpage), fun _ _ _ _ => hstays (hcleared hpage)⟩
      · refine ⟨fun hzero => hstays ((hkept hpage).trans hzero), fun v hv hsame hmapped => ?_⟩
        obtain rfl | hv := List.mem_cons.mp hv
        · exact absurd hsame hpage
        · exact hmet v hv hsame (by rw [hkept hpage]; exact hmapped)
    · obtain ⟨hram, hunmapped⟩ := ih paged hrest
      refine ⟨hram, fun u hu => ⟨(hunmapped u hu).1, fun v hv hsame hmapped => ?_⟩⟩
      obtain rfl | hv := List.mem_cons.mp hv
      · have hentry : entryAt w u = entryAt w v := entry_eq_of_pageNumber hsame _ _
        rw [hentry] at hmapped
        exact absurd hmapped hframe
      · exact (hunmapped u hu).2 v hv hsame hmapped

theorem acpiPages_kernel : ∀ v ∈ acpiPages, kernelBase ≤ v := by
  intro v hv
  obtain ⟨i, hi, rfl⟩ := List.mem_map.mp hv
  have hi := List.mem_range.mp hi
  have hbase : acpiTablesVaddrBase.toNat = 0xffffffff81100000 := rfl
  rw [kernel_iff, toNat_addr (by omega)]
  omega

/-- Every address of the area is in one of the pages that are gone through. -/
theorem mem_acpiPages {v : BitVec 64} (low : acpiTablesVaddrBase ≤ v)
    (high : v < acpiTablesVaddrLimit) : ∃ u ∈ acpiPages, pageNumber v = pageNumber u := by
  have hbase : acpiTablesVaddrBase.toNat = 0xffffffff81100000 := rfl
  have hlimit : acpiTablesVaddrLimit.toNat = 0xffffffff82000000 := rfl
  rw [BitVec.le_def] at low
  rw [BitVec.lt_def] at high
  have hmem : addr acpiTablesVaddrBase (0x1000 * ((v.toNat - 0xffffffff81100000) / 4096)) ∈
      acpiPages := List.mem_map.mpr ⟨_, List.mem_range.mpr (by omega), rfl⟩
  refine ⟨_, hmem, ?_⟩
  rw [page_of_kernel (by rw [kernel_iff]; omega) (acpiPages_kernel _ hmem), toNat_addr (by omega)]
  omega

theorem handleMapFirmwareTables_ok {arg0 kernelRsdp rootTable : BitVec 64}
    (h : handleMapFirmwareTables arg0 kernelRsdp rootTable w = some (resultOk, w')) :
    isUserAddress arg0 ∧ ∃ signature width count w₁ size w₂,
      readVirt w rootTable 4 = some signature ∧ entryWidth signature = some width ∧
      entryCount w rootTable width = some count ∧
      handEntries width (entrySlots rootTable width count) w = some (true, w₁) ∧
      copyRsdp kernelRsdp arg0 size w₁ = some w₂ ∧
      w' = { unmapPages w₂ acpiPages with handedOver := true } := by
  have hfailure : resultFailure ≠ resultOk := by decide
  have hbadargs : resultBadargs ≠ resultOk := by decide
  rw [handleMapFirmwareTables] at h
  split_ifs at h with hhanded huser hnull
  · exact absurd (Prod.mk.inj (Option.some.inj h)).1 hfailure
  · exact absurd (Prod.mk.inj (Option.some.inj h)).1 hfailure
  · obtain ⟨signature, hsignature, h⟩ := Option.bind_eq_some_iff.mp h
    cases hwidth : entryWidth signature with
    | none =>
      rw [hwidth] at h
      exact absurd (Prod.mk.inj (Option.some.inj h)).1 hfailure
    | some width =>
      rw [hwidth] at h
      obtain ⟨count, hcount, h⟩ := Option.bind_eq_some_iff.mp h
      obtain ⟨⟨all, w₁⟩, hentries, h⟩ := Option.bind_eq_some_iff.mp h
      cases all with
      | false => exact absurd (Prod.mk.inj (Option.some.inj h)).1 hfailure
      | true =>
        obtain ⟨size, -, h⟩ := Option.bind_eq_some_iff.mp h
        obtain ⟨w₂, hcopy, hresult⟩ := Option.map_eq_some_iff.mp h
        exact ⟨huser, signature, width, count, w₁, size, w₂, hsignature, hwidth, hcount, hentries,
          hcopy, (Prod.mk.inj hresult).2.symm⟩
  · exact absurd (Prod.mk.inj (Option.some.inj h)).1 hbadargs

/-- A later time: the address space may be another one, and so may the memory outside `F`, but the
low 4 MiB and the area for the tables are mapped as they were. -/
structure Later (F : BitVec 64 → Prop) (w w' : World) : Prop where
  paged : Paged w'
  entries : ∀ v, Home v → entryAt w' v = entryAt w v
  ram : ∀ a, F a → w'.ram a = w.ram a

theorem Later.keeps {F : BitVec 64 → Prop} (h : Later F w w') : Keeps w w' :=
  fun v _ hv ha => (translate_congr (h.entries v hv)).trans ha

/-- The bytes of a table. -/
def InTable (w : World) (sdt a : BitVec 64) : Prop :=
  ∃ n, sdtLength w sdt = some n ∧ ∃ i < n, translate w (addr sdt i) = some a

section Restored

variable {F : BitVec 64 → Prop} {w₁ w₂ w₃ : World} {sdt : BitVec 64} {width count n : Nat}
  {ps virtual : List (BitVec 64)}

theorem Ready.ram_outside (h : Ready w w₁ sdt width count n ps virtual) {a : BitVec 64}
    (outside : a ∉ (slotsOf width count ps).flatten) : w₁.ram a = w.ram a := by
  rw [h.fixed.ram, writeAll_other outside]

/-- The header is as the firmware left it. -/
theorem Ready.header_kept (h : Ready w w₁ sdt width count n ps virtual) {ram : Memory}
    (same : ∀ a ∈ ps, ram a = w₁.ram a) {o k : Nat} (inside : o + k ≤ 36) :
    readAt ram (slice o k ps) = readAt w.ram (slice o k ps) := by
  apply List.map_congr_left
  intro a ha
  have hmem : a ∈ ps := ((List.take_sublist _ _).trans (List.drop_sublist _ _)).subset ha
  rw [same a hmem, h.ram_outside fun hslot => h.root.header_apart inside width count ha hslot]

theorem Ready.header_later (h : Ready w w₁ sdt width count n ps virtual) {ram : Memory}
    (same : ∀ a ∈ ps, ram a = w₁.ram a) : Header ram ps width count := by
  have hsignature := @Ready.header_kept _ _ _ _ _ _ _ _ h ram same 0 4 (by decide)
  have hlength := @Ready.header_kept _ _ _ _ _ _ _ _ h ram same 4 4 (by decide)
  constructor
  · rw [hsignature]
    exact h.header.signature
  · rw [hlength]
    exact h.header.count

theorem Ready.sdtLength (h : Ready w w₁ sdt width count n ps virtual) :
    sdtLength w₁ sdt = some n := by
  have hfits := h.fits
  have hread : readVirt w₁ (sdt + 4) 4 = _ := @RootAt.read w₁ sdt n ps h.root 4 4 (by omega)
  rw [AcpiTables.sdtLength, hread, h.header_kept (fun _ _ => rfl) (by decide), Option.map_some,
    h.length]

theorem Ready.inTable (h : Ready w w₁ sdt width count n ps virtual) {a : BitVec 64} (ha : a ∈ ps) :
    InTable w₁ sdt a := by
  obtain ⟨hlength, hall⟩ := places_iff.mp h.root.places
  obtain ⟨i, hi, rfl⟩ := List.getElem_of_mem ha
  refine ⟨n, h.sdtLength, i, by omega, ?_⟩
  rw [hall i (by omega), List.getElem?_eq_getElem hi]

/-- What a slot held is what an entry of that size is written as. -/
theorem toBytes_entryOf {ram : Memory} {slot : List (BitVec 64)} (hwidth : slot.length ≤ 8) :
    toBytes slot.length (entryOf ram slot).toNat = readAt ram slot := by
  have hlength : (readAt ram slot).length = slot.length := List.length_map _
  have hlt : ofBytes (readAt ram slot) < 2 ^ 64 := by
    have hbound := ofBytes_lt (readAt ram slot)
    rw [hlength] at hbound
    have hpow : 256 ^ slot.length ≤ 256 ^ 8 := Nat.pow_le_pow_right (by decide) hwidth
    omega
  have hback := toBytes_ofBytes (readAt ram slot)
  rw [hlength] at hback
  rw [entryOf, BitVec.toNat_ofNat, Nat.mod_eq_of_lt hlt, hback]

theorem Ready.slot_length (h : Ready w w₁ sdt width count n ps virtual) {slot : List (BitVec 64)}
    (hslot : slot ∈ slotsOf width count ps) : slot.length = width := by
  obtain ⟨i, hi, rfl⟩ := List.mem_map.mp hslot
  have hinside := @slotsOf_inside width count i (List.mem_range.mp hi)
  have hfits := h.fits
  apply length_slice
  rw [(places_iff.mp h.root.places).1]
  omega

theorem Ready.width_cases (h : Ready w w₁ sdt width count n ps virtual) : width = 4 ∨ width = 8 :=
  entryWidth_cases h.header.signature

/-- The loop of the hand-over puts back what was in the slots. -/
theorem Ready.handEntries (h : Ready w w₁ sdt width count n ps virtual) (later : Later F w₁ w₂)
    (firmware : ∀ a ∈ ps, F a)
    (hand : handEntries width (entrySlots sdt width count) w₂ = some (true, w₃)) :
    w₃ = { w₂ with ram := w₃.ram } ∧ ∀ a, F a → w₃.ram a = w.ram a := by
  have hinside : ∀ slot ∈ slotsOf width count ps, slot ⊆ ps := by
    intro slot hslot
    obtain ⟨i, -, rfl⟩ := List.mem_map.mp hslot
    exact ((List.take_sublist _ _).trans (List.drop_sublist _ _)).subset
  have hholds : (slotsOf width count ps).map (readAt w₂.ram) =
      virtual.map fun v => toBytes width v.toNat := by
    have hwritten := @map_readAt_writeAll _ _ _ w.ram _ _ (h.root.apart width count) h.fixed.fill
    rw [← hwritten, ← h.fixed.ram]
    apply List.map_congr_left
    intro slot hslot
    apply List.map_congr_left
    exact fun a ha => later.ram a (firmware a (hinside slot hslot ha))
  have hentries := h.fixed.entries.imp fun _ _ hv => And.intro hv.1 (later.keeps _ _ hv.1 hv.2)
  have hcontents : ((slotsOf width count ps).map (entryOf w.ram)).map
      (fun p => toBytes width p.toNat) = (slotsOf width count ps).map (readAt w.ram) := by
    rw [List.map_map]
    apply List.map_congr_left
    intro slot hslot
    have hlength := h.slot_length hslot
    have hwidth := h.width_cases
    rw [Function.comp_apply, ← hlength, toBytes_entryOf (by omega)]
  have hfill : Fill (slotsOf width count ps) ((slotsOf width count ps).map (readAt w.ram)) :=
    List.forall₂_map_right_iff.mpr (List.forall₂_same.mpr fun slot _ => List.length_map _)
  have hhanded := handEntries_spec h.width_cases ((h.root.keeps later.keeps).covers h.fits)
    (h.root.apart width count) hentries hholds hand
  rw [hcontents] at hhanded
  rw [hhanded]
  refine ⟨rfl, fun a ha => ?_⟩
  apply writeAll_restores (h.root.apart width count) hfill rfl
  intro houtside
  rw [later.ram a ha, h.ram_outside houtside]

/-- Whatever was mapped in the area is unmapped. -/
theorem unmapPages_area (inv : Inv w₁) (framed : Framed w₁) (paged : Paged w₂)
    (same : ∀ v, Home v → entryAt w₂ v = entryAt w₁ v) {v : BitVec 64}
    (low : acpiTablesVaddrBase ≤ v) (high : v < acpiTablesVaddrLimit) :
    translate (unmapPages w₂ acpiPages) v = none := by
  obtain ⟨-, hunmapped⟩ := unmapPages_spec paged acpiPages_kernel
  have hhome : Home v := Or.inr ⟨low, high⟩
  obtain ⟨hstays, hmet⟩ := hunmapped v hhome.kernel
  rw [translate_eq_none hhome.kernel]
  by_cases hmapped : entryAt w₁ v = 0
  · exact hstays ((same v hhome).trans hmapped)
  · have hused : v < w₁.nextVaddr := by
      by_contra hnew
      exact hmapped (inv.fresh v (BitVec.not_lt.mp hnew) high)
    obtain ⟨u, hu, hpage⟩ := mem_acpiPages low high
    apply hmet u hu hpage
    rw [same v hhome]
    exact framed v low hused hmapped

/-- The physical memory that the kernel is made for, up to `MAX_PHYS_ADDR`. -/
def Supported (phys : BitVec 64) : Prop := phys.toNat < 127 * 2 ^ 40

/-- The low 4 MiB are mapped, and nothing in the area for the tables. -/
structure Booted (w : World) : Prop where
  inv : Inv w
  empty : w.pageStack = []

theorem Booted.framed (h : Booted w) : Framed w := by
  intro v low high
  have hstart : addr acpiTablesVaddrBase (0x8000 * 0) = acpiTablesVaddrBase := rfl
  rw [h.inv.next, h.empty, List.length_nil, hstart] at high
  exact absurd low (BitVec.not_le.mpr high)

theorem acpiTablesInit_cases {rsdp : BitVec 64} (h : acpiTablesInit rsdp w = some (sdt, w₁, true)) :
    ∃ phys, rootAddress w rsdp = some phys ∧ mapRoot phys w = some (sdt, w₁, true) := by
  rw [acpiTablesInit] at h
  split_ifs at h with hnull
  · simp at h
  · obtain ⟨ok, -, h⟩ := Option.bind_eq_some_iff.mp h
    cases ok with
    | false => simp at h
    | true => exact Option.bind_eq_some_iff.mp h

end Restored

end Handover

/-! ## A small machine -/

def sampleRsdp : List Byte :=
  [0x52, 0x53, 0x44, 0x20, 0x50, 0x54, 0x52, 0x20, 0x9c, 0, 0, 0, 0, 0, 0, 2, 0, 0, 0, 0,
    36, 0, 0, 0, 0x00, 0x10, 0x0f, 0, 0, 0, 0, 0, 0, 0, 0, 0]

def sampleXsdt : List Byte :=
  [0x58, 0x53, 0x44, 0x54, 44, 0, 0, 0, 0, 0x62] ++ List.replicate 26 0 ++
    [0x00, 0x20, 0x0f, 0, 0, 0, 0, 0]

def sampleFadt : List Byte :=
  [0x46, 0x41, 0x43, 0x50, 36, 0, 0, 0, 0, 0xc2] ++ List.replicate 26 0

def sampleRam (a : BitVec 64) : Byte :=
  if a < 0xf0000 then 0
  else if a < 0xf1000 then sampleRsdp.getD (a.toNat - 0xf0000) 0
  else if a < 0xf2000 then sampleXsdt.getD (a.toNat - 0xf1000) 0
  else sampleFadt.getD (a.toNat - 0xf2000) 0

/-- The low 4 MiB, and a user page at `0x400000`. -/
def sampleTables (t : BitVec 64) (i : Fin 512) : BitVec 64 :=
  if t = 0x1000 then if i = 511 then 0x2003 else if i = 0 then 0x6007 else 0
  else if t = 0x2000 then if i = 510 then 0x3003 else 0
  else if t = 0x3000 then if i = 0 then 0x4003 else if i = 1 then 0x5003 else 0
  else if t = 0x4000 then writtenEntry (BitVec.ofNat 64 (0x1000 * i))
  else if t = 0x5000 then writtenEntry (BitVec.ofNat 64 (0x200000 + 0x1000 * i))
  else if t = 0x6000 then if i = 0 then 0x7007 else 0
  else if t = 0x7000 then if i = 2 then 0x8007 else 0
  else if t = 0x8000 then if i = 0 then 0x900007 else 0
  else 0

def sampleWorld : World where
  machine := { mem := sampleTables, region := { size := 0, free := 0, stack := [] } }
  pml4 := 0x1000
  ram := sampleRam
  pageStack := []
  nextVaddr := acpiTablesVaddrBase
  handedOver := false

theorem down_one {i j : Fin 512} {e c : BitVec 64} (h : down e = some c) :
    down (if i = j then e else 0) = if i = j then some c else none := by
  split
  · exact h
  · decide

theorem down_two {i j k : Fin 512} {e e' c c' : BitVec 64} (h : down e = some c)
    (h' : down e' = some c') : down (if i = j then e else if i = k then e' else 0) =
      if i = j then some c else if i = k then some c' else none := by
  split
  · exact h
  · exact down_one h'

theorem down_pml4 (i : Fin 512) : down (sampleTables 0x1000 i) =
    if i = 511 then some 0x2000 else if i = 0 then some 0x6000 else none :=
  down_two (by decide) (by decide)

theorem down_pdpt (i : Fin 512) : down (sampleTables 0x2000 i) =
    if i = 510 then some 0x3000 else none :=
  down_one (by decide)

theorem down_pd (i : Fin 512) : down (sampleTables 0x3000 i) =
    if i = 0 then some 0x4000 else if i = 1 then some 0x5000 else none :=
  down_two (by decide) (by decide)

theorem down_userPdpt (i : Fin 512) : down (sampleTables 0x6000 i) =
    if i = 0 then some 0x7000 else none :=
  down_one (by decide)

theorem down_userPd (i : Fin 512) : down (sampleTables 0x7000 i) =
    if i = 2 then some 0x8000 else none :=
  down_one (by decide)

section SampleTree

variable {f : BitVec 64}

theorem member_pd (h : Member down sampleTables 1 0x3000 f) :
    f ∈ [(0x3000 : BitVec 64), 0x4000, 0x5000] := by
  obtain rfl | ⟨i, c, hc, rfl⟩ := h
  · decide
  · rw [down_pd] at hc
    split_ifs at hc
    all_goals
      rw [← Option.some.inj hc]
      decide

theorem member_pdpt (h : Member down sampleTables 2 0x2000 f) :
    f ∈ [(0x2000 : BitVec 64), 0x3000, 0x4000, 0x5000] := by
  obtain rfl | ⟨i, c, hc, hf⟩ := h
  · decide
  · rw [down_pdpt] at hc
    split_ifs at hc
    rw [← Option.some.inj hc] at hf
    exact List.mem_cons_of_mem _ (member_pd hf)

theorem member_userPd (h : Member down sampleTables 1 0x7000 f) :
    f ∈ [(0x7000 : BitVec 64), 0x8000] := by
  obtain rfl | ⟨i, c, hc, rfl⟩ := h
  · decide
  · rw [down_userPd] at hc
    split_ifs at hc
    rw [← Option.some.inj hc]
    decide

theorem member_userPdpt (h : Member down sampleTables 2 0x6000 f) :
    f ∈ [(0x6000 : BitVec 64), 0x7000, 0x8000] := by
  obtain rfl | ⟨i, c, hc, hf⟩ := h
  · decide
  · rw [down_userPdpt] at hc
    split_ifs at hc
    rw [← Option.some.inj hc] at hf
    exact List.mem_cons_of_mem _ (member_userPd hf)

/-- A table with one table under it. -/
theorem tree_single {n : Nat} {t c : BitVec 64} {j : Fin 512}
    (single : ∀ i, down (sampleTables t i) = if i = j then some c else none)
    (tree : Tree down sampleTables n c) (above : ¬ Member down sampleTables n c t) :
    Tree down sampleTables (n + 1) t := by
  constructor
  · intro i d hd
    rw [single] at hd
    split_ifs at hd
    rw [← Option.some.inj hd]
    exact ⟨tree, above⟩
  · intro i k d e hik hd he
    rw [single] at hd he
    split_ifs at hd he with hi hk
    exact absurd (hi.trans hk.symm) hik

/-- A table with two tables under it that have nothing in common. -/
theorem tree_pair {n : Nat} {t c d : BitVec 64} {j k : Fin 512}
    (pair : ∀ i, down (sampleTables t i) = if i = j then some c else if i = k then some d else none)
    (tree : Tree down sampleTables n c ∧ Tree down sampleTables n d)
    (above : ¬ Member down sampleTables n c t ∧ ¬ Member down sampleTables n d t)
    (apart : ∀ f, Member down sampleTables n c f → ¬ Member down sampleTables n d f) :
    Tree down sampleTables (n + 1) t := by
  have hcases : ∀ i e, down (sampleTables t i) = some e → i = j ∧ e = c ∨ i = k ∧ e = d := by
    intro i e he
    rw [pair] at he
    split_ifs at he with hj hk
    · exact Or.inl ⟨hj, (Option.some.inj he).symm⟩
    · exact Or.inr ⟨hk, (Option.some.inj he).symm⟩
  constructor
  · intro i e he
    obtain ⟨-, rfl⟩ | ⟨-, rfl⟩ := hcases i e he
    · exact ⟨tree.1, above.1⟩
    · exact ⟨tree.2, above.2⟩
  · intro i i' e e' hne he he' f hf hf'
    obtain ⟨hi, rfl⟩ | ⟨hi, rfl⟩ := hcases i e he
    · obtain ⟨hi', -⟩ | ⟨-, rfl⟩ := hcases i' e' he'
      · exact hne (hi.trans hi'.symm)
      · exact apart f hf hf'
    · obtain ⟨-, rfl⟩ | ⟨hi', -⟩ := hcases i' e' he'
      · exact apart f hf' hf
      · exact hne (hi.trans hi'.symm)

theorem not_member_leaf {t f : BitVec 64} (h : f ≠ t) : ¬ Member down sampleTables 0 t f := h

theorem tree_kernel : Tree down sampleTables 2 0x2000 := by
  have hpd : Tree down sampleTables 1 0x3000 := by
    apply @tree_pair 0 _ _ _ _ _ down_pd ⟨trivial, trivial⟩
    · exact ⟨not_member_leaf (by decide), not_member_leaf (by decide)⟩
    · rintro f rfl
      exact not_member_leaf (by decide)
  exact tree_single down_pdpt hpd fun h => absurd (member_pd h) (by decide)

theorem tree_user : Tree down sampleTables 2 0x6000 :=
  tree_single down_userPdpt (@tree_single 0 _ _ _ down_userPd trivial (not_member_leaf (by decide)))
    fun h => absurd (member_userPd h) (by decide)

theorem tree_sampleTables : Tree down sampleTables 3 0x1000 := by
  apply tree_pair down_pml4 ⟨tree_kernel, tree_user⟩
  · exact ⟨fun h => absurd (member_pdpt h) (by decide),
      fun h => absurd (member_userPdpt h) (by decide)⟩
  · intro f hf hf'
    have hkernel := member_pdpt hf
    have huser := member_userPdpt hf'
    simp only [List.mem_cons, List.not_mem_nil, or_false] at hkernel huser
    obtain rfl | rfl | rfl | rfl := hkernel
    all_goals exact absurd huser (by decide)

end SampleTree

theorem small_sampleTables (t : BitVec 64) (i : Fin 512) : ¬ isPagesizeLeaf (sampleTables t i) := by
  have hwritten : ∀ p, ¬ isPagesizeLeaf (writtenEntry p) := by
    intro p
    have hmask : (0xfffffffffffff000 : BitVec 64) &&& pgPagesize = 0#64 := by decide
    rw [isPagesizeLeaf, writtenEntry, entry_flags hmask]
    decide
  have hzero : ¬ isPagesizeLeaf 0 := by decide
  have hite : ∀ (p : Prop) [Decidable p] (e e' : BitVec 64), ¬ isPagesizeLeaf e →
      ¬ isPagesizeLeaf e' → ¬ isPagesizeLeaf (if p then e else e') := by
    intro p _ e e' he he'
    split
    · exact he
    · exact he'
  rw [sampleTables]
  refine hite _ _ _ (hite _ _ _ (by decide) (hite _ _ _ (by decide) hzero)) ?_
  refine hite _ _ _ (hite _ _ _ (by decide) hzero) ?_
  refine hite _ _ _ (hite _ _ _ (by decide) (hite _ _ _ (by decide) hzero)) ?_
  refine hite _ _ _ (hwritten _) (hite _ _ _ (hwritten _) ?_)
  refine hite _ _ _ (hite _ _ _ (by decide) hzero) ?_
  refine hite _ _ _ (hite _ _ _ (by decide) hzero) ?_
  exact hite _ _ _ (hite _ _ _ (by decide) hzero) hzero

theorem straight_sampleTables (v : BitVec 64) (n : Nat) (t : BitVec 64) :
    Straight sampleTables v n t := by
  induction n generalizing t with
  | zero => trivial
  | succ n ih => exact fun _ => ⟨small_sampleTables _ _, ih _⟩

theorem indices_of_kernel {v : BitVec 64} (kernel : kernelBase ≤ v)
    (high : v.toNat < 0xffffffffc0000000) :
    vmmVirtToPml4Index v = 511 ∧ vmmVirtToPdptIndex v = 510 := by
  rw [kernel_iff] at kernel
  have h4 : (vmmVirtToPml4Index v).val = v.toNat / 2 ^ (9 * 3 + 12) % 512 := index_eq v 3
  have h3 : (vmmVirtToPdptIndex v).val = v.toNat / 2 ^ (9 * 2 + 12) % 512 := index_eq v 2
  constructor
  · apply Fin.ext
    rw [h4]
    show _ = 511
    omega
  · apply Fin.ext
    rw [h3]
    show _ = 510
    omega

/-- The walk of a kernel address comes to the page directory. -/
theorem sample_entry {v : BitVec 64} (kernel : kernelBase ≤ v) (high : v.toNat < 0xffffffffc0000000)
    {i : Fin 512} (hi : vmmVirtToPdIndex v = i) : entryAt sampleWorld v =
      if isPresent (sampleTables 0x3000 i) then
        if isPresent
          (sampleTables (vmmTableEntryToPhys (sampleTables 0x3000 i)) (vmmVirtToPtIndex v))
        then sampleTables (vmmTableEntryToPhys (sampleTables 0x3000 i)) (vmmVirtToPtIndex v)
        else 0
      else 0 := by
  obtain ⟨h4, h3⟩ := indices_of_kernel kernel high
  rw [entryAt, vmmVirtToPtEntry, h4, h3, hi]
  rfl

theorem isPresent_writtenEntry (p : BitVec 64) : isPresent (writtenEntry p) := by
  rw [writtenEntry, isPresent_entry]
  decide

/-- The two page tables of the low 4 MiB. -/
theorem sample_lowEntry {v : BitVec 64} (kernel : kernelBase ≤ v) (low : v < perCpuTempPageBase) :
    ∃ p : BitVec 64, entryAt sampleWorld v = writtenEntry p ∧
      p.toNat = (v.toNat - 0xffffffff80000000) / 4096 * 4096 := by
  have htemp : perCpuTempPageBase.toNat = 0xffffffff80400000 := rfl
  have hkernel := kernel_iff.mp kernel
  rw [BitVec.lt_def, htemp] at low
  have h2 : (vmmVirtToPdIndex v).val = v.toNat / 2 ^ (9 * 1 + 12) % 512 := index_eq v 1
  have h1 : (vmmVirtToPtIndex v).val = v.toNat / 2 ^ (9 * 0 + 12) % 512 := index_eq v 0
  by_cases hhalf : v.toNat < 0xffffffff80200000
  · have hi : vmmVirtToPdIndex v = 0 := by
      apply Fin.ext
      rw [h2]
      show _ = 0
      omega
    refine ⟨BitVec.ofNat 64 (0x1000 * (vmmVirtToPtIndex v).val), ?_, ?_⟩
    · rw [sample_entry kernel (by omega) hi, if_pos (by decide)]
      exact if_pos (isPresent_writtenEntry _)
    · rw [BitVec.toNat_ofNat, h1]
      omega
  · have hi : vmmVirtToPdIndex v = 1 := by
      apply Fin.ext
      rw [h2]
      show _ = 1
      omega
    refine ⟨BitVec.ofNat 64 (0x200000 + 0x1000 * (vmmVirtToPtIndex v).val), ?_, ?_⟩
    · rw [sample_entry kernel (by omega) hi, if_pos (by decide)]
      exact if_pos (isPresent_writtenEntry _)
    · rw [BitVec.toNat_ofNat, h1]
      omega

theorem sample_low {v : BitVec 64} (kernel : kernelBase ≤ v) (low : v < perCpuTempPageBase) :
    translate sampleWorld v = some (v - kernelBase) := by
  have hbase : kernelBase.toNat = 0xffffffff80000000 := rfl
  have hkernel := kernel_iff.mp kernel
  obtain ⟨p, hp, hvalue⟩ := sample_lowEntry kernel low
  rw [translate_eq_some, hp]
  refine ⟨⟨canonical_of_kernel kernel, writtenEntry_ne_zero p⟩, ?_⟩
  apply BitVec.eq_of_toNat_eq
  rw [vmmVirtToPhys, vmmVirtToPhysPage, hp, phys_writtenEntry, BitVec.toNat_add, toNat_frame,
    Masks.toNat_and_low v _ 12 rfl, BitVec.toNat_sub_of_le kernel, hbase, hvalue]
  omega

theorem sample_fresh {v : BitVec 64} (low : acpiTablesVaddrBase ≤ v)
    (high : v < acpiTablesVaddrLimit) : entryAt sampleWorld v = 0 := by
  have hbase : acpiTablesVaddrBase.toNat = 0xffffffff81100000 := rfl
  have hlimit : acpiTablesVaddrLimit.toNat = 0xffffffff82000000 := rfl
  rw [BitVec.le_def, hbase] at low
  rw [BitVec.lt_def, hlimit] at high
  have h2 : (vmmVirtToPdIndex v).val = v.toNat / 2 ^ (9 * 1 + 12) % 512 := index_eq v 1
  have habsent : ∀ i : Fin 512, 2 ≤ i.val → ¬ isPresent (sampleTables 0x3000 i) := by
    intro i hi
    have h0 : i ≠ 0 := Fin.ne_of_gt (Fin.lt_def.mpr (by show 0 < i.val; omega))
    have h1 : i ≠ 1 := Fin.ne_of_gt (Fin.lt_def.mpr (by show 1 < i.val; omega))
    have hentry : sampleTables 0x3000 i = 0 := (if_neg h0).trans (if_neg h1)
    rw [hentry]
    exact not_isPresent_zero
  rw [sample_entry (by rw [kernel_iff]; omega) (by omega) rfl, if_neg]
  apply habsent
  rw [h2]
  omega

theorem sampleWorld_booted : Booted sampleWorld := by
  have hpages : freePages sampleWorld.machine.region = [] := by decide
  have hsupplies : Supplies sampleWorld.machine 3 sampleWorld.pml4 := by
    refine ⟨by simp [WellSized, sampleWorld], ?_, ?_, ?_⟩
    all_goals
      rw [hpages]
      simp
  refine ⟨⟨⟨⟨tree_sampleTables, hsupplies⟩, fun v _ => straight_sampleTables v 3 _⟩,
    fun v => sample_low, by decide, rfl, by decide, fun v => sample_fresh, ?_⟩, rfl⟩
  exact fun m hm => absurd hm List.not_mem_nil

/-- User space has one page, and it is not where the firmware's tables are. -/
theorem sample_user {v a : BitVec 64} (user : isUserAddress v)
    (ha : translate sampleWorld v = some a) : 0x900000 ≤ a.toNat := by
  have hlow := isUserAddress_iff.mp user
  have h4 : (vmmVirtToPml4Index v).val = v.toNat / 2 ^ (9 * 3 + 12) % 512 := index_eq v 3
  obtain ⟨⟨-, hmapped⟩, rfl⟩ := translate_eq_some.mp ha
  have hone : ∀ (i j : Fin 512) (e : BitVec 64), isPresent (if i = j then e else 0) →
      (if i = j then e else 0) = e := by
    intro i j e h
    split at h
    · rename_i hij
      rw [if_pos hij]
    · exact absurd h not_isPresent_zero
  have hpml4 : ∀ i : Fin 512, i.val < 256 → isPresent (sampleTables 0x1000 i) →
      sampleTables 0x1000 i = 0x6007 := by
    intro i hi h
    have hlast : i ≠ 511 := Fin.ne_of_lt (Fin.lt_def.mpr (by show i.val < 511; omega))
    have hrow : sampleTables 0x1000 i = if i = 0 then 0x6007 else 0 := if_neg hlast
    rw [hrow] at h ⊢
    exact hone i 0 _ h
  have hpdpt : ∀ i, isPresent (sampleTables 0x6000 i) → sampleTables 0x6000 i = 0x7007 :=
    fun i => hone i 0 _
  have hpd : ∀ i, isPresent (sampleTables 0x7000 i) → sampleTables 0x7000 i = 0x8007 :=
    fun i => hone i 2 _
  have hpt : ∀ i, isPresent (sampleTables 0x8000 i) → sampleTables 0x8000 i = 0x900007 :=
    fun i => hone i 0 _
  have hentry : entryAt sampleWorld v = 0x900007 := by
    rw [entryAt, vmmVirtToPtEntry] at hmapped ⊢
    dsimp only at hmapped ⊢
    split_ifs at hmapped ⊢ with p4 p3 p2 p1
    · have e4 : sampleWorld.machine.mem sampleWorld.pml4 (vmmVirtToPml4Index v) = 0x6007 :=
        hpml4 _ (by omega) p4
      rw [e4] at p3 p2 p1 ⊢
      have e3 : sampleWorld.machine.mem (vmmTableEntryToPhys 0x6007) (vmmVirtToPdptIndex v) =
          0x7007 := hpdpt _ p3
      rw [e3] at p2 p1 ⊢
      have e2 : sampleWorld.machine.mem (vmmTableEntryToPhys 0x7007) (vmmVirtToPdIndex v) =
          0x8007 := hpd _ p2
      rw [e2] at p1 ⊢
      exact hpt _ p1
    all_goals exact absurd rfl hmapped
  have hframe : (vmmTableEntryToPhys 0x900007).toNat = 0x900000 := by decide
  rw [vmmVirtToPhys, vmmVirtToPhysPage, hentry, BitVec.toNat_add, hframe,
    Masks.toNat_and_low v _ 12 rfl]
  omega

/-- The root table is an XSDT with one entry. -/
theorem sample_reads : rootAddress sampleWorld 0xffffffff800f0000 = some 0xf1000 ∧
    readVirt sampleWorld 0xffffffff800f1000 4 = some [0x58, 0x53, 0x44, 0x54] ∧
    entryCount sampleWorld 0xffffffff800f1000 8 = some 1 ∧
    readVirt sampleWorld (addr 0xffffffff800f1000 36) 8 =
      some [0x00, 0x20, 0x0f, 0, 0, 0, 0, 0] := by
  decide +kernel

/-- The tables are mapped and handed over. -/
theorem sample_run : ((acpiTablesInit 0xffffffff800f0000 sampleWorld).map fun r =>
      (r.1, r.2.2, sdtLength r.2.1 r.1,
        (handleMapFirmwareTables 0x400000 0xffffffff800f0000 r.1 r.2.1).map fun r => r.1)) =
    some (0xffffffff800f1000, true, some 44, some resultOk) := by
  decide +kernel

theorem sample_entries {i : Nat} {p : BitVec 64}
    (h : EntryAt sampleWorld 0xffffffff800f1000 i p) : p = 0xf2000 := by
  obtain ⟨signature, width, count, bytes, hsignature, hwidth, hcount, hi, hread, rfl⟩ := h
  obtain rfl := Option.some.inj (sample_reads.2.1.symm.trans hsignature)
  obtain rfl : 8 = width := Option.some.inj hwidth
  obtain rfl := Option.some.inj (sample_reads.2.2.1.symm.trans hcount)
  obtain rfl : i = 0 := by omega
  obtain rfl := Option.some.inj (sample_reads.2.2.2.symm.trans hread)
  decide

theorem getMappingFor_low {phys vaddr : BitVec 64} {w w' : World} (low : ¬ phys > 0x400000)
    (h : getMappingFor phys w = some (vaddr, w')) : w' = w := by
  rw [getMappingFor, if_neg low] at h
  exact (Prod.mk.inj (Option.some.inj h)).2.symm

/-- All that is mapped is in low memory, and the page tables stay as they are. -/
theorem sample_mapped {w : World}
    (h : acpiTablesInit 0xffffffff800f0000 sampleWorld = some (0xffffffff800f1000, w, true)) :
    w = { sampleWorld with ram := w.ram } := by
  obtain ⟨phys, hphys, hroot⟩ := acpiTablesInit_cases h
  obtain rfl := Option.some.inj (sample_reads.1.symm.trans hphys)
  obtain ⟨w₀, width, count, hheader, hcount, hentries⟩ := mapRoot_cases hroot
  obtain ⟨found, hfound⟩ := mapHeader_found hheader
  obtain rfl := getMappingFor_low (by decide) hfound
  obtain ⟨hnull, -⟩ | ⟨-, -, -, signature, hsignature, hwidth⟩ := mapHeader_cases hheader
  · exact absurd hnull (by decide)
  · obtain rfl := Option.some.inj (sample_reads.2.1.symm.trans hsignature)
    obtain rfl : 8 = width := Option.some.inj hwidth
    obtain rfl := Option.some.inj (sample_reads.2.2.1.symm.trans hcount)
    have hslots : entrySlots 0xffffffff800f1000 8 1 = [addr 0xffffffff800f1000 36] := rfl
    rw [hslots, mapEntries, sample_reads.2.2.2, Option.bind_some, Option.bind_eq_some_iff] at hentries
    obtain ⟨⟨v, w₁⟩, htable, hentries⟩ := hentries
    obtain ⟨found, hfound⟩ := mapHeader_found (mapTable_header htable)
    obtain rfl := getMappingFor_low (by decide) hfound
    obtain ⟨w₂, hwrite, hentries⟩ := Option.bind_eq_some_iff.mp hentries
    obtain ⟨ps, -, rfl⟩ := Option.map_eq_some_iff.mp hwrite
    obtain ⟨⟨w₃, all⟩, hrest, hresult⟩ := Option.map_eq_some_iff.mp hentries
    obtain ⟨rfl, -⟩ := Prod.mk.inj (Option.some.inj hrest)
    obtain ⟨rfl, -⟩ := Prod.mk.inj hresult
    rfl

theorem sample_table {w : World} {a : BitVec 64}
    (h : acpiTablesInit 0xffffffff800f0000 sampleWorld = some (0xffffffff800f1000, w, true))
    (hlength : sdtLength w 0xffffffff800f1000 = some 44)
    (ha : InTable w 0xffffffff800f1000 a) : a.toNat < 0x900000 := by
  obtain ⟨n, hn, i, hi, ha⟩ := ha
  obtain rfl := Option.some.inj (hlength.symm.trans hn)
  have hsdt : (0xffffffff800f1000 : BitVec 64).toNat = 0xffffffff800f1000 := rfl
  have htoNat : (addr 0xffffffff800f1000 i).toNat = 0xffffffff800f1000 + i := by
    rw [toNat_addr (by rw [hsdt]; omega), hsdt]
  have hkernel : kernelBase ≤ addr 0xffffffff800f1000 i := by
    rw [kernel_iff, htoNat]
    omega
  have htemp : perCpuTempPageBase.toNat = 0xffffffff80400000 := rfl
  have hbase : kernelBase.toNat = 0xffffffff80000000 := rfl
  rw [sample_mapped h] at ha
  have hplace : translate sampleWorld (addr 0xffffffff800f1000 i) = some a := ha
  rw [sample_low hkernel (by rw [BitVec.lt_def, htoNat, htemp]; omega)] at hplace
  rw [← Option.some.inj hplace, BitVec.toNat_sub_of_le hkernel, htoNat, hbase]
  omega

end AcpiTables
