import AnosKernel.AcpiHandover

/-!
# A hand-over that fails

`map_firmware_tables` turns the entries of the root table back one after the other, and gives up at
the first one that is not mapped. What stands in the table then.
-/

namespace AcpiTables

open Bytes Slots VmMapper MapSyscalls

/-- The address that an entry stands for. -/
def extended (width : Nat) (entry : BitVec 64) : BitVec 64 :=
  if width = 4 then entry ||| 0xffffffff00000000 else entry

/-- `vmm_virt_to_phys` cannot translate the entry. -/
def Fails (w : World) (width : Nat) (entry : BitVec 64) : Prop :=
  entry ≠ 0 ∧ vmmVirtToPhys w (extended width entry) = 0

/-- What is written over an entry; nothing is written over 0. -/
def converted (w : World) (width : Nat) (entry : BitVec 64) : BitVec 64 :=
  if entry = 0 then 0 else
    BitVec.ofNat 64 (ofBytes (toBytes width (vmmVirtToPhys w (extended width entry)).toNat))

/-- A call that returns an error leaves every entry of the root table as it was. -/
def ErrorKeeps (arg0 kernelRsdp sdt : BitVec 64) (w : World) : Prop :=
  ∀ result w', handleMapFirmwareTables arg0 kernelRsdp sdt w = some (result, w') →
    result ≠ resultOk → ∀ i p, EntryAt w sdt i p → EntryAt w' sdt i p

/-- No entry before the first one that fails is changed. -/
def FailsFirst (w : World) (sdt : BitVec 64) (width : Nat) : Prop :=
  ∀ f e, EntryAt w sdt f e → Fails w width e →
    (∀ i < f, ∀ e', EntryAt w sdt i e' → ¬ Fails w width e') →
      ∀ i < f, ∀ e', EntryAt w sdt i e' → converted w width e' = e'

/-- The call comes to the entries. -/
def Enters (arg0 kernelRsdp : BitVec 64) (w : World) : Prop :=
  w.handedOver = false ∧ isUserAddress arg0 ∧ kernelRsdp ≠ 0

section Loop

variable {w : World} {width : Nat} {addrs : List (BitVec 64)} {slots : List (List (BitVec 64))}

/-- What the slots hold after the loop has gone over them. -/
def contents (w : World) (width : Nat) (slots : List (List (BitVec 64))) : List (List Byte) :=
  slots.map fun slot => toBytes width (converted w width (entryOf w.ram slot)).toNat

theorem ofNat_ofBytes_toBytes {value : Nat} (hwidth : width = 4 ∨ width = 8) :
    toBytes width (BitVec.ofNat 64 (ofBytes (toBytes width value))).toNat =
      toBytes width value := by
  have hback := toBytes_ofBytes (toBytes width value)
  have hlt := ofBytes_lt (toBytes width value)
  rw [length_toBytes] at hback hlt
  have hsmall : ofBytes (toBytes width value) < 2 ^ 64 := by
    obtain rfl | rfl := hwidth
    all_goals omega
  rw [toNat_ofNat_of_lt hsmall, hback]

/-- One round of the loop, for an entry that does not fail. -/
theorem handEntries_round {slot : BitVec 64} {ps : List (BitVec 64)}
    (hwidth : width = 4 ∨ width = 8) (covers : Covers w width slot ps)
    (h : ¬ Fails w width (entryOf w.ram ps)) :
    handEntries width (slot :: addrs) w = handEntries width addrs { w with
      ram := writeAt w.ram ps (toBytes width (converted w width (entryOf w.ram ps)).toNat) } := by
  have hlength := covers.length
  have hentry : BitVec.ofNat 64 (ofBytes (readAt w.ram ps)) = entryOf w.ram ps := rfl
  rw [handEntries, covers.read, Option.bind_some]
  dsimp only
  rw [hentry, converted]
  by_cases hzero : entryOf w.ram ps = 0
  · have hsame : toBytes width (0 : BitVec 64).toNat = readAt w.ram ps := by
      rw [← hzero, ← hlength]
      exact toBytes_entryOf (by omega)
    rw [if_pos hzero, if_pos hzero, hsame, writeAt_readAt]
  · have hphys : vmmVirtToPhys w (extended width (entryOf w.ram ps)) ≠ 0 :=
      fun hphys => h ⟨hzero, hphys⟩
    rw [extended] at hphys ⊢
    rw [if_neg hzero, if_neg hphys, covers.write, Option.bind_some, if_neg hzero,
      ofNat_ofBytes_toBytes hwidth]

/-- The loop goes over entries that do not fail. -/
theorem handEntries_past (hwidth : width = 4 ∨ width = 8)
    (covers : List.Forall₂ (Covers w width) addrs slots) (apart : slots.flatten.Nodup) (f : Nat)
    (past : ∀ slot ∈ slots.take f, ¬ Fails w width (entryOf w.ram slot)) :
    handEntries width addrs w = handEntries width (addrs.drop f)
      { w with ram := writeAll w.ram (slots.take f) (contents w width (slots.take f)) } := by
  induction f generalizing w addrs slots with
  | zero => rfl
  | succ f ih =>
    cases covers with
    | nil => rfl
    | @cons slot ps addrs slots hslot hslots =>
    rw [List.flatten_cons, List.nodup_append] at apart
    rw [List.take_succ_cons, List.forall_mem_cons] at past
    rw [handEntries_round hwidth hslot past.1, List.take_succ_cons, List.drop_succ_cons]
    have hsame : ∀ ps' ∈ slots.take f, entryOf (writeAt w.ram ps
        (toBytes width (converted w width (entryOf w.ram ps)).toNat)) ps' = entryOf w.ram ps' := by
      intro ps' hps'
      rw [entryOf, readAt_writeAt_other, entryOf]
      intro a ha ha'
      exact apart.2.2 a ha' a (List.mem_flatten.mpr ⟨ps', List.mem_of_mem_take hps', ha⟩) rfl
    refine (@ih { w with ram := writeAt w.ram ps (toBytes width
      (converted w width (entryOf w.ram ps)).toNat) } addrs slots ?_ apart.2.1 ?_).trans ?_
    · exact hslots.imp fun _ _ hcovers => hcovers.keeps (Keeps.refl w)
    · intro ps' hps'
      dsimp only
      rw [hsame ps' hps']
      exact past.2 ps' hps'
    · have hcontents : contents { w with ram := writeAt w.ram ps (toBytes width
          (converted w width (entryOf w.ram ps)).toNat) } width (slots.take f) =
          contents w width (slots.take f) := by
        apply List.map_congr_left
        intro ps' hps'
        dsimp only
        rw [hsame ps' hps']
        rfl
      rw [hcontents]
      rfl

/-- An entry that fails ends the loop. -/
theorem handEntries_stop {slot : BitVec 64} {ps : List (BitVec 64)} (covers : Covers w width slot ps)
    (h : Fails w width (entryOf w.ram ps)) :
    handEntries width (slot :: addrs) w = some (false, w) := by
  have hentry : BitVec.ofNat 64 (ofBytes (readAt w.ram ps)) = entryOf w.ram ps := rfl
  have hphys := h.2
  rw [extended] at hphys
  rw [handEntries, covers.read, Option.bind_some]
  dsimp only
  rw [hentry, if_neg h.1, if_pos hphys]

end Loop

section Call

variable {w w' : World} {sdt arg0 kernelRsdp : BitVec 64} {width count n : Nat}
  {ps : List (BitVec 64)}

theorem slotsOf_take {f : Nat} (hf : f ≤ count) :
    (slotsOf width count ps).take f = slotsOf width f ps := by
  rw [slotsOf, ← List.map_take, List.take_range, Nat.min_eq_left hf, slotsOf]

theorem entrySlots_drop {f : Nat} (hf : f < count) : ∃ rest,
    (entrySlots sdt width count).drop f = addr sdt (36 + width * f) :: rest := by
  have hlength : f < (entrySlots sdt width count).length := by
    rw [entrySlots, List.length_map, List.length_range]
    exact hf
  refine ⟨(entrySlots sdt width count).drop (f + 1), ?_⟩
  rw [List.drop_eq_getElem_cons hlength]
  simp only [entrySlots, List.getElem_map, List.getElem_range]

/-- What was written over an entry is read back. -/
theorem converted_read (hwidth : width = 4 ∨ width = 8) (e : BitVec 64) :
    BitVec.ofNat 64 (ofBytes (toBytes width (converted w width e).toNat)) =
      converted w width e := by
  by_cases hzero : e = 0
  · have hconverted : converted w width e = 0 := if_pos hzero
    have hbytes : ofBytes (toBytes width 0) = 0 := ofBytes_toBytes (Nat.pow_pos (by decide))
    rw [hconverted]
    exact congrArg (BitVec.ofNat 64) hbytes
  · rw [converted, if_neg hzero, ofNat_ofBytes_toBytes hwidth]

/-- The world in which the first entries are converted. -/
def convertedWorld (w : World) (width f : Nat) (ps : List (BitVec 64)) : World :=
  { w with ram := writeAll w.ram (slotsOf width f ps) (contents w width (slotsOf width f ps)) }

theorem RootAt.converted_header (root : RootAt w sdt n ps) (header : Header w.ram ps width count)
    (f : Nat) : Header (convertedWorld w width f ps).ram ps width count := by
  have hkept : ∀ o k, o + k ≤ 36 → readAt (convertedWorld w width f ps).ram (slice o k ps) =
      readAt w.ram (slice o k ps) :=
    fun o k inside => readAt_writeAll_other (root.header_apart inside width f)
  constructor
  · rw [hkept 0 4 (by decide)]
    exact header.signature
  · rw [hkept 4 4 (by decide)]
    exact header.count

/-- The entries after the loop has gone over the first ones. -/
theorem RootAt.entryAt_converted (root : RootAt w sdt n ps) (fits : 36 + width * count ≤ n)
    (header : Header w.ram ps width count) {f i : Nat} {e : BitVec 64} (hf : f ≤ count)
    (h : EntryAt w sdt i e) :
    EntryAt (convertedWorld w width f ps) sdt i (if i < f then converted w width e else e) := by
  have hwidth := entryWidth_cases header.signature
  have hroot : RootAt (convertedWorld w width f ps) sdt n ps := root.keeps (Keeps.refl w)
  obtain ⟨hi, rfl⟩ := (root.entryAt_iff fits header).mp h
  refine (hroot.entryAt_iff fits (root.converted_header header f)).mpr ⟨hi, ?_⟩
  by_cases hfirst : i < f
  · have hfill : Fill (slotsOf width f ps) (contents w width (slotsOf width f ps)) := by
      apply List.forall₂_map_right_iff.mpr
      apply List.forall₂_same.mpr
      intro slot hslot
      obtain ⟨j, hj, rfl⟩ := List.mem_map.mp hslot
      have hinside := @slotsOf_inside width f j (List.mem_range.mp hj)
      have hle : width * f ≤ width * count := Nat.mul_le_mul_left width hf
      rw [length_toBytes, length_slice]
      rw [(places_iff.mp root.places).1]
      omega
    have hheld := List.map_inj_left.mp
      (@map_readAt_writeAll _ _ _ w.ram _ _ (root.apart width f) hfill) _
      (List.mem_map_of_mem (List.mem_range.mpr hfirst))
    rw [if_pos hfirst]
    exact (converted_read hwidth _).symm.trans
      (congrArg (fun bytes => BitVec.ofNat 64 (ofBytes bytes)) hheld.symm)
  · have hle : width * f ≤ width * i := Nat.mul_le_mul_left width (Nat.le_of_not_lt hfirst)
    have hapart : List.Disjoint (slice (36 + width * i) width ps) (slotsOf width f ps).flatten := by
      rw [slotsOf, flatten_slices]
      exact List.disjoint_symm (slice_disjoint root.nodup (by omega))
    rw [if_neg hfirst]
    exact congrArg (fun bytes => BitVec.ofNat 64 (ofBytes bytes)) (readAt_writeAll_other hapart).symm

/-- The loop up to an entry, where none before it fails. -/
theorem RootAt.handEntries_past (root : RootAt w sdt n ps) (fits : 36 + width * count ≤ n)
    (header : Header w.ram ps width count) {f : Nat} (hf : f ≤ count)
    (past : ∀ i < f, ∀ e, EntryAt w sdt i e → ¬ Fails w width e) :
    handEntries width (entrySlots sdt width count) w =
      handEntries width ((entrySlots sdt width count).drop f) (convertedWorld w width f ps) := by
  rw [AcpiTables.handEntries_past (entryWidth_cases header.signature) (root.covers fits)
    (root.apart width count) f]
  · rw [slotsOf_take hf]
    rfl
  · intro slot hslot
    rw [slotsOf_take hf] at hslot
    obtain ⟨i, hi, rfl⟩ := List.mem_map.mp hslot
    have hi := List.mem_range.mp hi
    exact past i hi _ ((root.entryAt_iff fits header).mpr ⟨Nat.lt_of_lt_of_le hi hf, rfl⟩)

/-- The loop ends at the first entry that fails. -/
theorem RootAt.handEntries_fails (root : RootAt w sdt n ps) (fits : 36 + width * count ≤ n)
    (header : Header w.ram ps width count) {f : Nat} {e : BitVec 64} (h : EntryAt w sdt f e)
    (fails : Fails w width e)
    (past : ∀ i < f, ∀ e', EntryAt w sdt i e' → ¬ Fails w width e') :
    handEntries width (entrySlots sdt width count) w =
      some (false, convertedWorld w width f ps) := by
  obtain ⟨hf, rfl⟩ := (root.entryAt_iff fits header).mp h
  have hkept := root.entryAt_converted fits header (Nat.le_of_lt hf) h
  have hroot : RootAt (convertedWorld w width f ps) sdt n ps := root.keeps (Keeps.refl w)
  obtain ⟨-, hsame⟩ := (hroot.entryAt_iff fits (root.converted_header header f)).mp hkept
  rw [if_neg (Nat.lt_irrefl f)] at hsame
  obtain ⟨rest, hrest⟩ := @entrySlots_drop sdt width count f hf
  have hinside := @slotsOf_inside width count f hf
  rw [root.handEntries_past fits header (Nat.le_of_lt hf) past, hrest]
  have hplaces := places_slice hroot.places (Nat.le_trans hinside fits)
  refine handEntries_stop ⟨hplaces, ?_⟩ ?_
  · intro k hk
    rw [addr_add]
    exact hroot.home _ (by omega)
  · rw [← hsame]
    exact fails

/-- What the call does once it comes to the entries. -/
theorem RootAt.handle_enters (root : RootAt w sdt n ps) (fits : 36 + width * count ≤ n)
    (header : Header w.ram ps width count) (enters : Enters arg0 kernelRsdp w) :
    handleMapFirmwareTables arg0 kernelRsdp sdt w =
      (handEntries width (entrySlots sdt width count) w).bind fun (all, w) =>
        if all then
          (rsdpSize w kernelRsdp).bind fun size =>
            (copyRsdp kernelRsdp arg0 size w).map fun w =>
              (resultOk, { unmapPages w acpiPages with handedOver := true })
        else some (resultFailure, w) := by
  obtain ⟨signature, hsignature, hwidth, hcount⟩ := (root.header (by omega)).mp header
  have hsdt : sdt ≠ 0 := by
    rintro rfl
    exact absurd root.start (by decide)
  rw [handleMapFirmwareTables, enters.1, if_neg Bool.false_ne_true,
    if_neg (not_not_intro enters.2.1), if_neg (not_or_intro enters.2.2 hsdt), hsignature,
    Option.bind_some, hwidth]
  dsimp only
  rw [hcount, Option.bind_some]

/-- A call that does not come to the entries changes nothing. -/
theorem handle_not_enters (root : RootAt w sdt n ps) (enters : ¬ Enters arg0 kernelRsdp w)
    {result : SyscallResult}
    (h : handleMapFirmwareTables arg0 kernelRsdp sdt w = some (result, w')) : w' = w := by
  have hsdt : sdt ≠ 0 := by
    rintro rfl
    exact absurd root.start (by decide)
  rw [handleMapFirmwareTables] at h
  split_ifs at h with hhanded huser hnull
  · exact (Prod.mk.inj (Option.some.inj h)).2.symm
  · exact (Prod.mk.inj (Option.some.inj h)).2.symm
  · rw [not_or] at hnull
    exact absurd ⟨Bool.eq_false_iff.mpr hhanded, huser, hnull.1⟩ enters
  · exact (Prod.mk.inj (Option.some.inj h)).2.symm

theorem RootAt.entry_unique (root : RootAt w sdt n ps) (fits : 36 + width * count ≤ n)
    (header : Header w.ram ps width count) {i : Nat} {e e' : BitVec 64} (h : EntryAt w sdt i e)
    (h' : EntryAt w sdt i e') : e = e' := by
  obtain ⟨-, rfl⟩ := (root.entryAt_iff fits header).mp h
  obtain ⟨-, rfl⟩ := (root.entryAt_iff fits header).mp h'
  rfl

/-- An error leaves the root table as it was just if the call does not come to the entries, or no
entry before the first one that cannot be translated is changed. -/
theorem error_keeps_iff (root : RootAt w sdt n ps) (fits : 36 + width * count ≤ n)
    (header : Header w.ram ps width count) :
    ErrorKeeps arg0 kernelRsdp sdt w ↔ (Enters arg0 kernelRsdp w → FailsFirst w sdt width) := by
  constructor
  · intro hkeeps henters f e he hfails hpast i hi e' he'
    have hcall := root.handle_enters fits header henters
    rw [root.handEntries_fails fits header he hfails hpast] at hcall
    obtain ⟨hf, -⟩ := (root.entryAt_iff fits header).mp he
    have hroot : RootAt (convertedWorld w width f ps) sdt n ps := root.keeps (Keeps.refl w)
    have hkept := hkeeps _ _ hcall (by decide) i e' he'
    have hconverted := root.entryAt_converted fits header (Nat.le_of_lt hf) he'
    rw [if_pos hi] at hconverted
    exact hroot.entry_unique fits (root.converted_header header f) hconverted hkept
  · intro hcond result w' hcall herror i p hp
    by_cases henters : Enters arg0 kernelRsdp w
    · rw [root.handle_enters fits header henters] at hcall
      by_cases hany : ∃ f e, EntryAt w sdt f e ∧ Fails w width e
      · classical
        obtain ⟨e, he, hfails⟩ := Nat.find_spec hany
        have hpast : ∀ j < Nat.find hany, ∀ e', EntryAt w sdt j e' → ¬ Fails w width e' :=
          fun j hj e' he' hfails' => Nat.find_min hany hj ⟨e', he', hfails'⟩
        obtain ⟨hf, -⟩ := (root.entryAt_iff fits header).mp he
        rw [root.handEntries_fails fits header he hfails hpast] at hcall
        obtain ⟨-, rfl⟩ := Prod.mk.inj (Option.some.inj hcall)
        have hconverted := root.entryAt_converted fits header (Nat.le_of_lt hf) hp
        by_cases hi : i < Nat.find hany
        · rw [if_pos hi, hcond henters _ e he hfails hpast i hi p hp] at hconverted
          exact hconverted
        · rw [if_neg hi] at hconverted
          exact hconverted
      · have hpast : ∀ j < count, ∀ e', EntryAt w sdt j e' → ¬ Fails w width e' :=
          fun j _ e' he' hfails => hany ⟨j, e', he', hfails⟩
        have hdrop : (entrySlots sdt width count).drop count = [] := by
          apply List.drop_of_length_le
          rw [entrySlots, List.length_map, List.length_range]
        rw [root.handEntries_past fits header (Nat.le_refl count) hpast, hdrop, handEntries,
          Option.bind_some] at hcall
        obtain ⟨size, -, hcall⟩ := Option.bind_eq_some_iff.mp hcall
        obtain ⟨w₁, -, hresult⟩ := Option.map_eq_some_iff.mp hcall
        exact absurd (Prod.mk.inj hresult).1.symm herror
    · rw [handle_not_enters root henters hcall]
      exact hp

end Call

/-! ## A table with an entry that is not mapped -/

/-- The low 4 MiB are mapped linearly. -/
theorem Inv.places_low {w : World} (inv : Inv w) {v : BitVec 64} {n : Nat} (kernel : kernelBase ≤ v)
    (fits : v.toNat + n ≤ 0xffffffff80400000) :
    places w v n = some ((List.range n).map fun i => addr v i - kernelBase) := by
  have htemp : perCpuTempPageBase.toNat = 0xffffffff80400000 := rfl
  rw [kernel_iff] at kernel
  refine places_iff.mpr ⟨by rw [List.length_map, List.length_range], fun i hi => ?_⟩
  have haddr : (addr v i).toNat = v.toNat + i := toNat_addr (by omega)
  rw [inv.low _ (by rw [kernel_iff]; omega) (by rw [BitVec.lt_def]; omega), List.getElem?_map,
    List.getElem?_range hi]
  rfl

def stuckXsdt : List Byte :=
  [0x58, 0x53, 0x44, 0x54, 52, 0, 0, 0] ++ List.replicate 28 0 ++
    [0x00, 0x20, 0x0f, 0x80, 0xff, 0xff, 0xff, 0xff] ++
    [0x00, 0x00, 0x20, 0x81, 0xff, 0xff, 0xff, 0xff]

/-- The second of two entries is in the area for the tables, where nothing is mapped. -/
def stuckWorld : World :=
  { sampleWorld with
    ram := fun a => if 0xf1000 ≤ a ∧ a < 0xf2000 then stuckXsdt.getD (a.toNat - 0xf1000) 0
      else sampleRam a }

theorem stuckWorld_root : ∃ ps, RootAt stuckWorld 0xffffffff800f1000 52 ps ∧
    Header stuckWorld.ram ps 8 2 := by
  have hinv : Inv stuckWorld := sampleWorld_booted.inv.with_ram _
  have hroot := @RootAt.of_low stuckWorld 0xf1000 52 _ hinv (by decide)
    (hinv.places_low (by decide) (by decide))
  have hheader : readVirt stuckWorld 0xffffffff800f1000 4 = some [0x58, 0x53, 0x44, 0x54] ∧
      entryCount stuckWorld 0xffffffff800f1000 8 = some 2 := by
    decide +kernel
  exact ⟨_, hroot, (hroot.header (by decide)).mpr ⟨_, hheader.1, rfl, hheader.2⟩⟩

theorem error_keeps_iff_stuck :
    ErrorKeeps 0x400000 0xffffffff800f0000 0xffffffff800f1000 stuckWorld ↔
      (Enters 0x400000 0xffffffff800f0000 stuckWorld →
        FailsFirst stuckWorld 0xffffffff800f1000 8) := by
  obtain ⟨ps, hroot, hheader⟩ := stuckWorld_root
  exact error_keeps_iff hroot (by decide) hheader

/-- The call fails at the second entry, and the first one is left as a physical address. -/
theorem stuck_entry_converted :
    ¬ ErrorKeeps 0x400000 0xffffffff800f0000 0xffffffff800f1000 stuckWorld := by
  have hbefore : readVirt stuckWorld 0xffffffff800f1000 4 = some [0x58, 0x53, 0x44, 0x54] ∧
      entryCount stuckWorld 0xffffffff800f1000 8 = some 2 ∧
      readVirt stuckWorld (addr 0xffffffff800f1000 36) 8 =
        some [0x00, 0x20, 0x0f, 0x80, 0xff, 0xff, 0xff, 0xff] := by
    decide +kernel
  have hcall : (handleMapFirmwareTables 0x400000 0xffffffff800f0000 0xffffffff800f1000
      stuckWorld).map (fun r => (r.1, readVirt r.2 0xffffffff800f1000 4,
        readVirt r.2 (addr 0xffffffff800f1000 36) 8)) =
      some (resultFailure, some [0x58, 0x53, 0x44, 0x54],
        some [0x00, 0x20, 0x0f, 0, 0, 0, 0, 0]) := by
    decide +kernel
  obtain ⟨⟨result, w'⟩, hcall, hvalues⟩ := Option.map_eq_some_iff.mp hcall
  simp only [Prod.mk.injEq] at hvalues
  obtain ⟨rfl, hsignature, hread⟩ := hvalues
  intro hkeeps
  obtain ⟨signature, width, count, bytes, hsignature', hwidth, -, -, hread', hentry⟩ :=
    hkeeps _ _ hcall (by decide) 0 0xffffffff800f2000
      ⟨_, 8, 2, _, hbefore.1, rfl, hbefore.2.1, by decide, hbefore.2.2, by decide⟩
  obtain rfl := Option.some.inj (hsignature.symm.trans hsignature')
  obtain rfl : 8 = width := Option.some.inj hwidth
  obtain rfl := Option.some.inj (hread.symm.trans hread')
  exact absurd hentry (by decide)

end AcpiTables
