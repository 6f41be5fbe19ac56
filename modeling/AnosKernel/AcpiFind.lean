import AnosKernel.AcpiNested

/-!
# Finding a table

`acpi_tables_find` of `kernel/platform/acpi/acpitables.c` on a root table from `acpi_tables_init`. A
run leaves the headers that it looks at.
-/

namespace AcpiTables

open Bytes Slots Traces VmMapper MapSyscalls

/-- `has_sig`, up to the first byte that differs. -/
def hasSig (w : World) : List Byte → BitVec 64 → Option Bool
  | [], _ => some true
  | c :: expect, v =>
    (readVirt w v 1).bind fun bytes =>
      if bytes = [c] then hasSig w expect (v + 1) else some false

/-- The loop over the entries; those of an RSDT and of an XSDT get the same upper half. -/
def findEntry (ident : List Byte) (width : Nat) :
    List (BitVec 64) → World → Trace (BitVec 64) Reason (BitVec 64)
  | [], _ => done 0
  | slot :: slots, w =>
    (ofOption .fault (readVirt w slot width)).bind fun bytes =>
      let sdt := BitVec.ofNat 64 (ofBytes bytes) ||| 0xffffffff00000000
      log sdt ((ofOption .fault (hasSig w ident sdt)).bind fun same =>
        if same then done sdt else findEntry ident width slots w)

def acpiTablesFind (rsdt : BitVec 64) (ident : Option (List Byte)) (w : World) :
    Trace (BitVec 64) Reason (BitVec 64) :=
  match ident with
  | none => done 0
  | some ident =>
    if rsdt = 0 then done 0
    else
      (ofOption .fault (hasSig w [0x58, 0x53, 0x44, 0x54] rsdt)).bind fun xsdt =>
        if xsdt then
          (ofOption .fault (entryCount w rsdt 8)).bind fun count =>
            findEntry ident 8 (entrySlots rsdt 8 count) w
        else
          (ofOption .fault (hasSig w [0x52, 0x53, 0x44, 0x54] rsdt)).bind fun root =>
            if root then
              (ofOption .fault (entryCount w rsdt 4)).bind fun count =>
                findEntry ident 4 (entrySlots rsdt 4 count) w
            else done 0

/-! ## Tables that were mapped -/

/-- The signature and the length of a table can be read. -/
def Readable (w : World) (v : BitVec 64) : Prop := ∃ ps, Covers w 8 v ps

/-- Of every entry that was written, null or the address of a table that can be read. -/
structure Reads (events : List Event) (w : World) : Prop where
  inv : Inv w
  mapped : ∀ slot v, Event.entry slot v ∈ events → v = 0 ∨ Readable w v

section Mapped

variable {w w' : World} {v phys vaddr rsdp : BitVec 64} {n : Nat} {bytes signature : List Byte}

theorem readVirt_succ (h : readVirt w v (n + 1) = some bytes) : ∃ b rest, bytes = b :: rest ∧
    readVirt w v 1 = some [b] ∧ readVirt w (v + 1) n = some rest := by
  obtain ⟨ps, hps, rfl⟩ := Option.map_eq_some_iff.mp h
  obtain ⟨a, ha, hps⟩ := Option.bind_eq_some_iff.mp hps
  obtain ⟨ps, hrest, rfl⟩ := Option.map_eq_some_iff.mp hps
  have hfirst : places w v 1 = some [a] := by
    rw [places, ha]
    rfl
  refine ⟨w.ram a, readAt w.ram ps, rfl, ?_, ?_⟩
  · rw [readVirt, hfirst]
    rfl
  · rw [readVirt, hrest]
    rfl

/-- Where all bytes can be read, it is not seen where the comparison ended. -/
theorem hasSig_of_read {expect : List Byte} (h : readVirt w v expect.length = some bytes) :
    hasSig w expect v = some (decide (bytes = expect)) := by
  induction expect generalizing v bytes with
  | nil =>
    obtain rfl : [] = bytes := Option.some.inj h
    rfl
  | cons c expect ih =>
    obtain ⟨b, rest, rfl, hfirst, hrest⟩ := readVirt_succ h
    rw [hasSig, hfirst, Option.bind_some]
    by_cases hsame : b = c
    · rw [if_pos (congrArg (fun b => [b]) hsame), ih hrest, hsame]
      simp only [List.cons.injEq, true_and]
    · rw [if_neg fun hcontra => hsame (List.cons.inj hcontra).1]
      refine congrArg some (decide_eq_false fun hcontra => hsame (List.cons.inj hcontra).1).symm

theorem Readable.home (h : Readable w v) : Home v := by
  obtain ⟨ps, hcovers⟩ := h
  have hfirst := hcovers.home 0 (by decide)
  rwa [addr, BitVec.add_zero] at hfirst

theorem Readable.read (h : Readable w v) : ∃ signature, readVirt w v 4 = some signature ∧
    signature.length = 4 := by
  obtain ⟨ps, hcovers⟩ := h
  have hplaces := @places_slice w v 8 ps 0 4 hcovers.places (by decide)
  rw [addr, BitVec.add_zero] at hplaces
  refine ⟨readAt w.ram (slice 0 4 ps), ?_, ?_⟩
  · rw [readVirt, hplaces]
    rfl
  · rw [readAt, List.length_map]
    exact (places_iff.mp hplaces).1

/-- A table whose checksum was right can be read. -/
theorem readable_of_mapping (inv : Inv w) (h : getMappingFor phys w = some (vaddr, w'))
    (found : vaddr ≠ 0) (checksum : checksumSdt w' vaddr = some true)
    (hsignature : readVirt w' vaddr 4 = some signature) : Readable w' vaddr := by
  have hgrows := getMappingFor_grows inv h
  obtain ⟨length, hlength, -⟩ := Option.bind_eq_some_iff.mp checksum
  obtain ⟨bytes, hbytes, -⟩ := Option.map_eq_some_iff.mp hlength
  obtain ⟨ps, hps, -⟩ := Option.map_eq_some_iff.mp hsignature
  obtain ⟨ps', hps', -⟩ := Option.map_eq_some_iff.mp hbytes
  have hplaces : places w' vaddr 8 = some (ps ++ ps') := by
    obtain ⟨hcount, hall⟩ := places_iff.mp hps
    obtain ⟨hcount', hall'⟩ := places_iff.mp hps'
    refine places_iff.mpr ⟨by rw [List.length_append, hcount, hcount'], fun i hi => ?_⟩
    by_cases hfirst : i < 4
    · rw [List.getElem?_append_left (by omega)]
      exact hall i hfirst
    · rw [List.getElem?_append_right (by omega), hcount, ← hall' (i - 4) (by omega)]
      have haddr : addr vaddr i = addr (addr vaddr 4) (i - 4) := by
        rw [addr_add]
        congr 1
        omega
      rw [haddr]
      rfl
  refine ⟨_, hplaces, ?_⟩
  obtain ⟨hlow, rfl, rfl⟩ | ⟨-, m, hm, -, rfl, rfl⟩ | ⟨-, hroom, rfl, rfl⟩ | ⟨hnull, -⟩ :=
    getMappingFor_cases h
  · exact (RootAt.of_low inv hlow hplaces).home
  · have hwindow := inv.windows m hm
    have hplace := hwindow.toNat_place phys
    have hkernel := hwindow.kernel
    have hbelow := hwindow.below
    have hnext := inv.toNat_next
    have hfew := inv.few
    intro i hi
    rw [home_iff, toNat_addr (by omega)]
    omega
  · have hplace := (@withWindow_newest w phys inv hroom).toNat_place phys
    have hnext := inv.toNat_next
    dsimp only at hplace
    intro i hi
    rw [home_iff, toNat_addr (by omega)]
    omega
  · exact absurd hnull found

theorem answered_readable : Answered (fun _ events w => Reads events w) Readable where
  found := fun h hmapping hfound hchecksum hsignature =>
    readable_of_mapping h.inv hmapping hfound hchecksum hsignature
  mapped := fun h hmapping ⟨ps, hcovers⟩ =>
    ⟨ps, hcovers.keeps (getMappingFor_grows h.inv hmapping).keeps⟩
  wrote := fun _ ⟨ps, hcovers⟩ => ⟨ps, hcovers.places, hcovers.home⟩

theorem reads_preserved (depth : Nat) :
    Preserved depth (fun _ events w => Reads events w) Readable (fun _ _ => True) where
  mapped := by
    intro parents events w phys vaddr w' h hmapping
    refine ⟨(getMappingFor_grows h.inv hmapping).inv, fun slot v hmem => ?_⟩
    rcases List.mem_append.mp hmem with hmem | hmem
    · have hkeep : Readable w v → Readable w' v :=
        @Answered.mapped _ _ answered_readable [] events w phys vaddr w' v h hmapping
      exact (h.mapped slot v hmem).imp_right hkeep
    · cases List.mem_singleton.mp hmem
  full := fun _ _ => trivial
  entered := by
    intro parents events w phys _ h
    refine ⟨h.inv, fun slot v hmem => ?_⟩
    rcases List.mem_append.mp hmem with hmem | hmem
    · exact h.mapped slot v hmem
    · cases List.mem_singleton.mp hmem
  left := fun h => h
  wrote := by
    intro parents events w slot vaddr ram h hanswer
    refine ⟨h.inv.with_ram ram, fun slot' v hmem => ?_⟩
    rcases List.mem_append.mp hmem with hmem | hmem
    · exact (h.mapped slot' v hmem).imp_right (answered_readable.wrote ram)
    · cases List.mem_singleton.mp hmem
      exact hanswer.imp_right (answered_readable.wrote ram)
  fault := fun _ => trivial
  pending := fun _ _ => trivial

/-- After `acpi_tables_init` every table that was mapped can be read. -/
theorem tablesInit_reads {fuel : Nat} (booted : Booted w)
    (run : (tablesInit fuel rsdp w).result = .ok (vaddr, w')) :
    Reads (tablesInit fuel rsdp w).events w' ∧ (vaddr = 0 ∨ Readable w' vaddr) :=
  (tablesInit_answers (reads_preserved fuel) answered_readable rsdp
    ⟨booted.inv, fun _ _ hmem => absurd hmem List.not_mem_nil⟩).of_ok run

end Mapped

/-! ## The first table with a signature -/

/-- The entry in a slot is that of a table that was mapped for it. -/
def MappedAt (events : List Event) (w : World) (width : Nat) (slot a : BitVec 64) : Prop :=
  a ≠ 0 ∧ Event.entry slot a ∈ events ∧ readVirt w slot width = some (toBytes width a.toNat)

/-- The table's signature is `ident`. -/
def Signed (w : World) (ident : List Byte) (a : BitVec 64) : Prop :=
  readVirt w a 4 = some ident

/-- None of the first `i` entries is that of a mapped table with the signature. -/
def NotBefore (events : List Event) (w : World) (ident : List Byte) (width : Nat)
    (slots : List (BitVec 64)) (i : Nat) : Prop :=
  ∀ j < i, ∀ slot a, slots[j]? = some slot → MappedAt events w width slot a → ¬ Signed w ident a

/-- The first mapped table with the signature, or null. -/
def IsFirst (events : List Event) (w : World) (ident : List Byte) (width : Nat)
    (slots : List (BitVec 64)) (r : BitVec 64) : Prop :=
  (∃ (i : Nat) (slot : BitVec 64), slots[i]? = some slot ∧ MappedAt events w width slot r ∧ Signed w ident r ∧
    NotBefore events w ident width slots i) ∨
  r = 0 ∧ NotBefore events w ident width slots slots.length

/-- The loop gives the first mapped table, and each entry whose header it looks at is mapped. -/
def FindsFirst (events : List Event) (w : World) (ident : List Byte) (width : Nat)
    (slots : List (BitVec 64)) (find : Trace (BitVec 64) Reason (BitVec 64)) : Prop :=
  (∀ (i : Nat) a, find.events[i]? = some a → ∃ slot, slots[i]? = some slot ∧
    MappedAt events w width slot a) ∧
  ∃ r, find.result = .ok r ∧ IsFirst events w ident width slots r

/-- Every entry up to the first mapped table with the signature is that of a mapped table. -/
def MappedUpTo (events : List Event) (w : World) (ident : List Byte) (width : Nat)
    (slots : List (BitVec 64)) : Prop :=
  ∀ (i : Nat) slot, slots[i]? = some slot → NotBefore events w ident width slots i →
    ∃ a, MappedAt events w width slot a

section Find

variable {events : List Event} {w w' : World} {ident : List Byte} {width count : Nat}
  {slot a r rsdp sdt : BitVec 64} {slots : List (BitVec 64)}
  {find : Trace (BitVec 64) Reason (BitVec 64)}

/-- What the loop takes for the address of the table. -/
theorem upper_half (kernel : kernelBase ≤ a) (hwidth : width = 4 ∨ width = 8) :
    BitVec.ofNat 64 (ofBytes (toBytes width a.toNat)) ||| 0xffffffff00000000 = a := by
  have hshort := (extend_entry kernel (Or.inl rfl)).2
  rw [if_pos rfl] at hshort
  obtain rfl | rfl := hwidth
  · exact hshort
  · have hlong := (extend_entry kernel (Or.inr rfl)).2
    rw [if_neg (by decide)] at hlong
    rw [hlong]
    conv_lhs => rw [← hshort]
    rw [BitVec.or_assoc, BitVec.or_self]
    exact hshort

theorem MappedAt.readable (h : MappedAt events w width slot a) (reads : Reads events w) :
    Readable w a :=
  (reads.mapped slot a h.2.1).resolve_left h.1

/-- The entry says which table was mapped for it. -/
theorem MappedAt.unique {b : BitVec 64} (h : MappedAt events w width slot a)
    (h' : MappedAt events w width slot b) (reads : Reads events w)
    (hwidth : width = 4 ∨ width = 8) : a = b := by
  have hsame : toBytes width a.toNat = toBytes width b.toNat :=
    Option.some.inj (h.2.2.symm.trans h'.2.2)
  rw [← upper_half (h.readable reads).home.kernel hwidth,
    ← upper_half (h'.readable reads).home.kernel hwidth, hsame]

theorem notBefore_zero : NotBefore events w ident width slots 0 :=
  fun j hj => absurd hj (Nat.not_lt_zero j)

theorem notBefore_succ {i : Nat} : NotBefore events w ident width (slot :: slots) (i + 1) ↔
    (∀ a, MappedAt events w width slot a → ¬ Signed w ident a) ∧
      NotBefore events w ident width slots i := by
  constructor
  · intro h
    refine ⟨fun a => h 0 (Nat.succ_pos i) slot a rfl, fun j hj slot' a hslot => ?_⟩
    exact h (j + 1) (Nat.succ_lt_succ hj) slot' a (by rwa [List.getElem?_cons_succ])
  · rintro ⟨hfirst, hrest⟩ j hj slot' a hslot
    cases j with
    | zero =>
      cases hslot
      exact hfirst a
    | succ j =>
      rw [List.getElem?_cons_succ] at hslot
      exact hrest j (Nat.lt_of_succ_lt_succ hj) slot' a hslot

/-- Past an entry that is mapped and has another signature. -/
theorem isFirst_cons (other : ∀ a, MappedAt events w width slot a → ¬ Signed w ident a) :
    IsFirst events w ident width (slot :: slots) r ↔ IsFirst events w ident width slots r := by
  refine or_congr ?_ (and_congr_right fun _ => ?_)
  · constructor
    · rintro ⟨i, slot', hslot, hmapped, hsigned, hbefore⟩
      cases i with
      | zero =>
        cases hslot
        exact absurd hsigned (other r hmapped)
      | succ i => exact ⟨i, slot', hslot, hmapped, hsigned, (notBefore_succ.mp hbefore).2⟩
    · rintro ⟨i, slot', hslot, hmapped, hsigned, hbefore⟩
      exact ⟨i + 1, slot', hslot, hmapped, hsigned, notBefore_succ.mpr ⟨other, hbefore⟩⟩
  · rw [List.length_cons, notBefore_succ]
    exact and_iff_right other

theorem mappedUpTo_cons (mapped : MappedAt events w width slot a)
    (other : ∀ a, MappedAt events w width slot a → ¬ Signed w ident a) :
    MappedUpTo events w ident width (slot :: slots) ↔ MappedUpTo events w ident width slots := by
  constructor
  · intro h i slot' hslot hbefore
    exact h (i + 1) slot' hslot (notBefore_succ.mpr ⟨other, hbefore⟩)
  · intro h i slot' hslot hbefore
    cases i with
    | zero =>
      cases hslot
      exact ⟨a, mapped⟩
    | succ i => exact h i slot' hslot (notBefore_succ.mp hbefore).2

theorem findsFirst_cons (mapped : MappedAt events w width slot a)
    (other : ∀ a, MappedAt events w width slot a → ¬ Signed w ident a) :
    FindsFirst events w ident width (slot :: slots) (log a find) ↔
      FindsFirst events w ident width slots find := by
  refine and_congr ?_ (exists_congr fun r => and_congr_right fun _ => isFirst_cons other)
  constructor
  · intro h i a' ha'
    exact h (i + 1) a' ha'
  · intro h i a' ha'
    cases i with
    | zero =>
      cases ha'
      exact ⟨slot, rfl, mapped⟩
    | succ i => exact h i a' ha'

/-- An entry that is not mapped is looked at, or cannot be read. -/
theorem findEntry_unmapped (unmapped : ∀ a, ¬ MappedAt events w width slot a) :
    ¬ FindsFirst events w ident width (slot :: slots) (findEntry ident width (slot :: slots) w) := by
  rintro ⟨hlooked, r, hresult, -⟩
  rw [findEntry] at hlooked hresult
  cases hread : readVirt w slot width with
  | none =>
    rw [hread] at hresult
    cases hresult
  | some bytes =>
    rw [hread] at hlooked
    obtain ⟨slot', hslot, hmapped⟩ := hlooked 0 _ rfl
    cases hslot
    exact unmapped _ hmapped

/-- The loop is right just if it comes to no entry that is not mapped. -/
theorem findEntry_right_iff (reads : Reads events w) (hwidth : width = 4 ∨ width = 8)
    (four : ident.length = 4) (slots : List (BitVec 64)) :
    FindsFirst events w ident width slots (findEntry ident width slots w) ↔
      MappedUpTo events w ident width slots := by
  induction slots with
  | nil =>
    refine iff_of_true ⟨fun i a ha => ?_, 0, rfl, Or.inr ⟨rfl, notBefore_zero⟩⟩ ?_
    · cases ha
    · intro i slot hslot
      cases hslot
  | cons slot slots ih =>
    by_cases hmapped : ∃ a, MappedAt events w width slot a
    · obtain ⟨a, hmapped⟩ := hmapped
      have hreadable := hmapped.readable reads
      have haddress := upper_half hreadable.home.kernel hwidth
      obtain ⟨signature, hsignature, hlength⟩ := hreadable.read
      have hsame := @hasSig_of_read w a signature ident (by rw [four]; exact hsignature)
      rw [findEntry, hmapped.2.2, ofOption, done_bind]
      dsimp only
      rw [haddress, hsame, ofOption, done_bind]
      by_cases hsigned : signature = ident
      · rw [decide_eq_true hsigned, if_pos rfl]
        have hfound : Signed w ident a := by
          rw [Signed, hsignature, hsigned]
        refine iff_of_true ⟨fun i a' ha' => ?_, a, rfl, Or.inl ?_⟩ fun i slot' hslot hbefore => ?_
        · cases i with
          | zero =>
            cases ha'
            exact ⟨slot, rfl, hmapped⟩
          | succ i => cases ha'
        · exact ⟨0, slot, rfl, hmapped, hfound, notBefore_zero⟩
        · cases i with
          | zero =>
            cases hslot
            exact ⟨a, hmapped⟩
          | succ i => exact absurd hfound ((notBefore_succ.mp hbefore).1 a hmapped)
      · rw [decide_eq_false hsigned, if_neg (by decide)]
        have hother : ∀ b, MappedAt events w width slot b → ¬ Signed w ident b := by
          intro b hb hsigned'
          rw [← hmapped.unique hb reads hwidth, Signed, hsignature] at hsigned'
          exact hsigned (Option.some.inj hsigned')
        rw [findsFirst_cons hmapped hother, mappedUpTo_cons hmapped hother]
        exact ih
    · have hunmapped : ∀ a, ¬ MappedAt events w width slot a := fun a ha => hmapped ⟨a, ha⟩
      refine iff_of_false (findEntry_unmapped hunmapped) fun hupTo => ?_
      exact hmapped (hupTo 0 slot rfl notBefore_zero)

/-- On a root table the call is the loop over its entries. -/
theorem acpiTablesFind_root {signature : List Byte} (found : sdt ≠ 0)
    (hsignature : readVirt w sdt 4 = some signature) (hwidth : entryWidth signature = some width)
    (hcount : entryCount w sdt width = some count) :
    acpiTablesFind sdt (some ident) w = findEntry ident width (entrySlots sdt width count) w := by
  have hxsdt : hasSig w [0x58, 0x53, 0x44, 0x54] sdt = _ := hasSig_of_read hsignature
  have hrsdt : hasSig w [0x52, 0x53, 0x44, 0x54] sdt = _ := hasSig_of_read hsignature
  rw [acpiTablesFind, if_neg found, hxsdt, hrsdt, ofOption, done_bind]
  rw [entryWidth] at hwidth
  split_ifs at hwidth with hfour height
  · obtain rfl := Option.some.inj hwidth
    rw [hfour, decide_eq_false (by decide), if_neg (by decide), ofOption, done_bind,
      decide_eq_true rfl, if_pos rfl, hcount]
    rfl
  · obtain rfl := Option.some.inj hwidth
    rw [height, decide_eq_true rfl, if_pos rfl, hcount]
    rfl

/-- For every root table from `acpi_tables_init` and every signature, the first mapped table with it
is found, and no header but those of mapped tables is looked at, just if every entry up to that
table was mapped. -/
theorem find_first_iff {fuel : Nat} {signature : List Byte} (booted : Booted w)
    (run : (tablesInit fuel rsdp w).result = .ok (sdt, w')) (found : sdt ≠ 0)
    (hsignature : readVirt w' sdt 4 = some signature) (hwidth : entryWidth signature = some width)
    (hcount : entryCount w' sdt width = some count) (four : ident.length = 4) :
    FindsFirst (tablesInit fuel rsdp w).events w' ident width (entrySlots sdt width count)
        (acpiTablesFind sdt (some ident) w') ↔
      MappedUpTo (tablesInit fuel rsdp w).events w' ident width (entrySlots sdt width count) := by
  rw [acpiTablesFind_root found hsignature hwidth hcount]
  exact findEntry_right_iff (tablesInit_reads booted run).1 (entryWidth_cases hwidth) four _

/-- A null entry, as a table that could not be mapped leaves it, is not that of a mapped table. -/
theorem not_mappedAt_null (reads : Reads events w) (hwidth : width = 4 ∨ width = 8)
    (null : readVirt w slot width = some (toBytes width 0)) : ¬ MappedAt events w width slot a := by
  intro hmapped
  have hentry : toBytes width 0 = toBytes width a.toNat :=
    Option.some.inj (null.symm.trans hmapped.2.2)
  have hkernel := (hmapped.readable reads).home.kernel
  apply (extend_entry hkernel hwidth).1
  rw [← hentry, ofBytes_toBytes_mod, Nat.zero_mod]
  rfl

/-- Where such an entry comes before the table that is looked for, the call goes wrong. -/
theorem find_fails_after_null {fuel i : Nat} {signature : List Byte} (booted : Booted w)
    (run : (tablesInit fuel rsdp w).result = .ok (sdt, w')) (found : sdt ≠ 0)
    (hsignature : readVirt w' sdt 4 = some signature) (hwidth : entryWidth signature = some width)
    (hcount : entryCount w' sdt width = some count) (four : ident.length = 4)
    (hslot : (entrySlots sdt width count)[i]? = some slot)
    (null : readVirt w' slot width = some (toBytes width 0))
    (before : NotBefore (tablesInit fuel rsdp w).events w' ident width (entrySlots sdt width count)
      i) :
    ¬ FindsFirst (tablesInit fuel rsdp w).events w' ident width (entrySlots sdt width count)
        (acpiTablesFind sdt (some ident) w') := by
  have hreads := (tablesInit_reads booted run).1
  have hcases := entryWidth_cases hwidth
  rw [acpiTablesFind_root found hsignature hwidth hcount, findEntry_right_iff hreads hcases four]
  intro hupTo
  obtain ⟨a, hmapped⟩ := hupTo i slot hslot before
  exact not_mappedAt_null hreads hcases null hmapped

end Find

theorem find_first_iff_sample : ∃ w',
    (tablesInit 2 0xffffffff800f0000 sampleWorld).result = .ok (0xffffffff800f1000, w') ∧
    (FindsFirst (tablesInit 2 0xffffffff800f0000 sampleWorld).events w' [0x46, 0x41, 0x43, 0x50] 8
        (entrySlots 0xffffffff800f1000 8 1)
        (acpiTablesFind 0xffffffff800f1000 (some [0x46, 0x41, 0x43, 0x50]) w') ↔
      MappedUpTo (tablesInit 2 0xffffffff800f0000 sampleWorld).events w' [0x46, 0x41, 0x43, 0x50] 8
        (entrySlots 0xffffffff800f1000 8 1)) := by
  have hrun : ((tablesInit 2 0xffffffff800f0000 sampleWorld).result.toOption.map fun r =>
      (r.1, readVirt r.2 r.1 4, entryCount r.2 r.1 8)) =
        some (0xffffffff800f1000, some [0x58, 0x53, 0x44, 0x54], some 1) := by
    decide +kernel
  obtain ⟨⟨sdt, w'⟩, hok, hvalues⟩ := Option.map_eq_some_iff.mp hrun
  simp only [Prod.mk.injEq] at hvalues
  obtain ⟨rfl, hsignature, hcount⟩ := hvalues
  have hresult := result_of_toOption hok
  exact ⟨w', hresult, find_first_iff sampleWorld_booted hresult (by decide) hsignature rfl hcount rfl⟩

def brokenXsdt : List Byte :=
  [0x58, 0x53, 0x44, 0x54, 52, 0, 0, 0, 0, 0x1b] ++ List.replicate 26 0 ++
    [0x00, 0x30, 0x0f, 0, 0, 0, 0, 0] ++ [0x00, 0x20, 0x0f, 0, 0, 0, 0, 0]

/-- The checksum of the first of two tables is wrong. -/
def brokenWorld : World :=
  { sampleWorld with
    ram := fun a =>
      if 0xf1000 ≤ a ∧ a < 0xf2000 then brokenXsdt.getD (a.toNat - 0xf1000) 0
      else if a = 0xf3004 then 36
      else sampleRam a }

/-- The second table is mapped and has the signature, and the call faults at the first entry. -/
theorem broken_entry_read : ∃ w',
    (tablesInit 2 0xffffffff800f0000 brokenWorld).result = .ok (0xffffffff800f1000, w') ∧
    readVirt w' 0xffffffff800f2000 4 = some [0x46, 0x41, 0x43, 0x50] ∧
    ¬ FindsFirst (tablesInit 2 0xffffffff800f0000 brokenWorld).events w' [0x46, 0x41, 0x43, 0x50] 8
        (entrySlots 0xffffffff800f1000 8 2)
        (acpiTablesFind 0xffffffff800f1000 (some [0x46, 0x41, 0x43, 0x50]) w') := by
  have hrun : ((tablesInit 2 0xffffffff800f0000 brokenWorld).result.toOption.map fun r =>
      (r.1, readVirt r.2 0xffffffff800f2000 4,
        (acpiTablesFind r.1 (some [0x46, 0x41, 0x43, 0x50]) r.2).events,
        (acpiTablesFind r.1 (some [0x46, 0x41, 0x43, 0x50]) r.2).result.toOption)) =
      some (0xffffffff800f1000, some [0x46, 0x41, 0x43, 0x50], [0xffffffff00000000], none) := by
    decide +kernel
  obtain ⟨⟨sdt, w'⟩, hok, hvalues⟩ := Option.map_eq_some_iff.mp hrun
  simp only [Prod.mk.injEq] at hvalues
  obtain ⟨rfl, hsecond, -, hfault⟩ := hvalues
  refine ⟨w', result_of_toOption hok, hsecond, ?_⟩
  rintro ⟨-, r, hresult, -⟩
  rw [hresult] at hfault
  cases hfault

end AcpiTables
