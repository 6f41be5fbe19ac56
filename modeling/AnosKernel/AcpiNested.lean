import Mathlib.Data.Finset.Card
import Mathlib.Data.Fintype.Card
import AnosKernel.Lib.Traces
import AnosKernel.AcpiHandover

/-!
# Root tables within root tables

`map_sdt` of `kernel/platform/acpi/acpitables.c` with its recursion: an entry of a root table may be
the address of another root table, or of the same one. A run leaves the calls that it makes, and may
end with a fault, with a write past the end of `page_stack`, or not at all.
-/

namespace AcpiTables

open Bytes Slots Traces VmMapper MapSyscalls

inductive Event where
  /-- `map_sdt` is called. -/
  | call (phys : BitVec 64)
  /-- It comes to the entries of a root table, with those of `parents` not finished. -/
  | enter (parents : List (BitVec 64)) (phys : BitVec 64)
  /-- An entry is overwritten with the address of its table, or with null. -/
  | entry (slot vaddr : BitVec 64)

inductive Reason where
  | fault
  | outOfBounds
  | pending
  deriving DecidableEq

/-- The loop over the entries. -/
def mapEach (table : BitVec 64 → World → Trace Event Reason (BitVec 64 × World)) (width : Nat) :
    List (BitVec 64) → World → Trace Event Reason World
  | [], w => done w
  | slot :: slots, w =>
    (ofOption .fault (readVirt w slot width)).bind fun bytes =>
      (table (BitVec.ofNat 64 (ofBytes bytes)) w).bind fun (vaddr, w) =>
        log (.entry slot vaddr)
          ((ofOption .fault (writeVirt w slot (toBytes width vaddr.toNat))).bind fun w =>
            mapEach table width slots w)

/-- With as much fuel as root tables may be nested. -/
def mapSdt : Nat → List (BitVec 64) → BitVec 64 → World → Trace Event Reason (BitVec 64 × World)
  | 0, _, _, _ => fail .pending
  | fuel + 1, parents, phys, w =>
    log (.call phys)
      ((ofOption .outOfBounds (getMappingFor phys w)).bind fun (vaddr, w) =>
        if vaddr = 0 then done (0, w)
        else
          (ofOption .fault (checksumSdt w vaddr)).bind fun ok =>
            if ok then
              (ofOption .fault (readVirt w vaddr 4)).bind fun signature =>
                match entryWidth signature with
                | none => done (vaddr, w)
                | some width =>
                  (ofOption .fault (entryCount w vaddr width)).bind fun count =>
                    log (.enter parents phys)
                      ((mapEach (mapSdt fuel (phys :: parents)) width
                        (entrySlots vaddr width count) w).bind fun w => done (vaddr, w))
            else done (0, w))

/-- `acpi_tables_init`. -/
def tablesInit (fuel : Nat) (rsdp : BitVec 64) (w : World) :
    Trace Event Reason (BitVec 64 × World) :=
  if rsdp = 0 then done (0, w)
  else
    (ofOption .fault (checksumRsdp w rsdp)).bind fun ok =>
      if ok then
        (ofOption .fault (rootAddress w rsdp)).bind fun phys => mapSdt fuel [] phys w
      else done (0, w)

/-! ## The rule for runs -/

/-- What holds of the events and the world while the entries of `parents` are not finished, with at
most `depth` of them, and of the events where a run ends; `R` is what holds of the tables. -/
structure Preserved (depth : Nat) (I : List (BitVec 64) → List Event → World → Prop)
    (R : World → BitVec 64 → Prop) (E : List Event → Reason → Prop) : Prop where
  mapped : ∀ {parents events w phys vaddr w'}, I parents events w →
    getMappingFor phys w = some (vaddr, w') → I parents (events ++ [.call phys]) w'
  full : ∀ {parents events w phys}, I parents events w → getMappingFor phys w = none →
    E (events ++ [.call phys]) .outOfBounds
  entered : ∀ {parents events w phys}, parents.length < depth → I parents events w →
    I (phys :: parents) (events ++ [.enter parents phys]) w
  left : ∀ {parents events w phys}, I (phys :: parents) events w → I parents events w
  wrote : ∀ {parents events w slot vaddr} ram, I parents events w → vaddr = 0 ∨ R w vaddr →
    I parents (events ++ [.entry slot vaddr]) { w with ram := ram }
  fault : ∀ {parents events w}, I parents events w → E events .fault
  pending : ∀ {parents events w}, parents.length = depth → I parents events w → E events .pending

/-- What holds of a table once it is mapped, and from then on. -/
structure Answered (I : List (BitVec 64) → List Event → World → Prop)
    (R : World → BitVec 64 → Prop) : Prop where
  found : ∀ {parents events w phys vaddr w' signature}, I parents events w →
    getMappingFor phys w = some (vaddr, w') → vaddr ≠ 0 → checksumSdt w' vaddr = some true →
      readVirt w' vaddr 4 = some signature → R w' vaddr
  mapped : ∀ {parents events w phys vaddr w' v}, I parents events w →
    getMappingFor phys w = some (vaddr, w') → R w v → R w' v
  wrote : ∀ {w v} ram, R w v → R { w with ram := ram } v

section Rule

variable {depth : Nat} {I : List (BitVec 64) → List Event → World → Prop}
  {R : World → BitVec 64 → Prop} {E : List Event → Reason → Prop} {before : List Event} {w : World}
  {width : Nat} {parents : List (BitVec 64)}
  {table : BitVec 64 → World → Trace Event Reason (BitVec 64 × World)}

theorem Answered.any : Answered I fun _ _ => True :=
  ⟨fun _ _ _ _ _ => trivial, fun _ _ _ => trivial, fun _ _ => trivial⟩

/-- A table that is mapped stays so while others are. -/
theorem Preserved.holding (h : Preserved depth I R E) (answered : Answered I R) (v : BitVec 64) :
    Preserved depth (fun parents events w => I parents events w ∧ R w v) R E where
  mapped := fun h' hmapping => ⟨h.mapped h'.1 hmapping, answered.mapped h'.1 hmapping h'.2⟩
  full := fun h' hmapping => h.full h'.1 hmapping
  entered := fun hdepth h' => ⟨h.entered hdepth h'.1, h'.2⟩
  left := fun h' => ⟨h.left h'.1, h'.2⟩
  wrote := fun ram h' hanswer => ⟨h.wrote ram h'.1 hanswer, answered.wrote ram h'.2⟩
  fault := fun h' => h.fault h'.1
  pending := fun hdepth h' => h.pending hdepth h'.1

theorem Answered.holding (h : Answered I R) (v : BitVec 64) :
    Answered (fun parents events w => I parents events w ∧ R w v) R where
  found := fun h' => h.found h'.1
  mapped := fun h' => h.mapped h'.1
  wrote := h.wrote

theorem Preserved.read (h : Preserved depth I R E) (start : I parents before w) {α : Type}
    (o : Option α) :
    Meets before (ofOption .fault o) (fun events a => I parents events w ∧ o = some a) E :=
  Meets.ofOption (fun _ ho => ⟨start, ho⟩) fun _ => h.fault start

theorem Preserved.write (h : Preserved depth I R E) (start : I parents before w)
    {slot vaddr : BitVec 64} (answer : vaddr = 0 ∨ R w vaddr) (u : BitVec 64) (bytes : List Byte) :
    Meets before (log (.entry slot vaddr) (ofOption .fault (writeVirt w u bytes))) (I parents) E := by
  apply Meets.log
  refine Meets.ofOption ?_ fun _ => h.fault (h.wrote w.ram start answer)
  intro w₁ hwrite
  obtain ⟨ps, -, rfl⟩ := Option.map_eq_some_iff.mp hwrite
  exact h.wrote _ start answer

theorem Preserved.mapping (h : Preserved depth I R E) (start : I parents before w)
    (phys : BitVec 64) :
    Meets before (log (.call phys) (ofOption .outOfBounds (getMappingFor phys w)))
      (fun events r => I parents events r.2 ∧ getMappingFor phys w = some r) E := by
  apply Meets.log
  refine Meets.ofOption ?_ fun hnone => h.full start hnone
  rintro ⟨vaddr, w₁⟩ hmapping
  exact ⟨h.mapped start hmapping, hmapping⟩

/-- The loop keeps what its calls keep. -/
theorem mapEach_meets (h : Preserved depth I R E)
    (calls : ∀ phys w before, I parents before w → Meets before (table phys w)
      (fun events r => I parents events r.2 ∧ (r.1 = 0 ∨ R r.2 r.1)) E)
    (slots : List (BitVec 64)) (start : I parents before w) :
    Meets before (mapEach table width slots w) (I parents) E := by
  induction slots generalizing before w with
  | nil => exact Meets.done start
  | cons slot slots ih =>
    refine (h.read start _).bind ?_
    rintro events bytes ⟨hevents, -⟩
    refine (calls _ w events hevents).bind ?_
    rintro events ⟨vaddr, w₁⟩ ⟨hevents, hanswer⟩
    dsimp only
    rw [← log_bind]
    refine (h.write hevents hanswer slot _).bind ?_
    intro events w₂ hevents
    exact ih hevents

/-- A run keeps what its calls of `get_mapping_for` and its writes keep. -/
theorem mapSdt_answers {fuel : Nat} (h : Preserved depth I R E) (answered : Answered I R)
    (hdepth : parents.length + fuel = depth) (phys : BitVec 64) (start : I parents before w) :
    Meets before (mapSdt fuel parents phys w)
      (fun events r => I parents events r.2 ∧ (r.1 = 0 ∨ R r.2 r.1)) E := by
  induction fuel generalizing I parents phys before w with
  | zero => exact Meets.fail (h.pending hdepth start)
  | succ fuel ih =>
    rw [mapSdt, ← log_bind]
    refine (h.mapping start phys).bind ?_
    rintro events ⟨vaddr, w₁⟩ ⟨hevents, hmapping⟩
    dsimp only
    by_cases hnull : vaddr = 0
    · rw [if_pos hnull]
      exact Meets.done ⟨hevents, Or.inl rfl⟩
    rw [if_neg hnull]
    refine (h.read hevents _).bind ?_
    rintro events ok ⟨hevents, hchecksum⟩
    cases ok with
    | false => exact Meets.done ⟨hevents, Or.inl rfl⟩
    | true =>
      rw [if_pos rfl]
      refine (h.read hevents _).bind ?_
      rintro events signature ⟨hevents, hsignature⟩
      have hanswer := answered.found start hmapping hnull hchecksum hsignature
      cases entryWidth signature with
      | none => exact Meets.done ⟨hevents, Or.inr hanswer⟩
      | some width =>
        refine (h.read hevents _).bind ?_
        rintro events count ⟨hevents, -⟩
        apply Meets.log
        -- the table itself stays mapped while its entries are
        have hholding := h.holding answered vaddr
        refine (mapEach_meets hholding ?_ _ (hholding.entered (by omega) ⟨hevents, hanswer⟩)).bind ?_
        · intro phys' w₂ before hstart
          refine ih hholding (answered.holding vaddr) ?_ phys' hstart
          rw [List.length_cons]
          omega
        · rintro events w₂ ⟨hevents, hanswer⟩
          exact Meets.done ⟨h.left hevents, Or.inr hanswer⟩

/-- A run of `acpi_tables_init`, from a world with which it can start. -/
theorem tablesInit_answers {fuel : Nat} (h : Preserved fuel I R E) (answered : Answered I R)
    (rsdp : BitVec 64) (start : I [] before w) :
    Meets before (tablesInit fuel rsdp w)
      (fun events r => I [] events r.2 ∧ (r.1 = 0 ∨ R r.2 r.1)) E := by
  rw [tablesInit]
  by_cases hnull : rsdp = 0
  · rw [if_pos hnull]
    exact Meets.done ⟨start, Or.inl rfl⟩
  rw [if_neg hnull]
  refine (h.read start _).bind ?_
  rintro events ok ⟨hevents, -⟩
  cases ok with
  | false => exact Meets.done ⟨hevents, Or.inl rfl⟩
  | true =>
    rw [if_pos rfl]
    refine (h.read hevents _).bind ?_
    rintro events phys ⟨hevents, -⟩
    exact mapSdt_answers h answered (Nat.zero_add fuel) phys hevents

theorem mapSdt_meets (h : Preserved depth I (fun _ _ => True) E) {fuel : Nat}
    (hdepth : parents.length + fuel = depth) (phys : BitVec 64) (start : I parents before w) :
    Meets before (mapSdt fuel parents phys w) (fun events r => I parents events r.2) E :=
  (mapSdt_answers h Answered.any hdepth phys start).mono (fun _ _ h => h.1) fun _ _ h => h

theorem tablesInit_meets {fuel : Nat} (h : Preserved fuel I (fun _ _ => True) E) (rsdp : BitVec 64)
    (start : I [] before w) :
    Meets before (tablesInit fuel rsdp w) (fun events r => I [] events r.2) E :=
  (tablesInit_answers h Answered.any rsdp start).mono (fun _ _ h => h.1) fun _ _ h => h

end Rule

/-! ## More fuel -/

section Fuel

variable {w : World} {width fuel more : Nat}
  {table table' : BitVec 64 → World → Trace Event Reason (BitVec 64 × World)}

theorem mapEach_stable (calls : ∀ phys w, Stable .pending (table phys w) (table' phys w))
    (slots : List (BitVec 64)) :
    Stable .pending (mapEach table width slots w) (mapEach table' width slots w) := by
  induction slots generalizing w with
  | nil => exact Stable.refl _
  | cons slot slots ih =>
    refine (Stable.refl _).bind fun bytes => (calls _ _).bind fun r => ?_
    exact Stable.log ((Stable.refl _).bind fun w₁ => ih)

theorem mapSdt_stable (parents : List (BitVec 64)) (phys : BitVec 64) :
    Stable .pending (mapSdt fuel parents phys w) (mapSdt (fuel + more) parents phys w) := by
  induction fuel generalizing parents phys w with
  | zero => exact fun hresult => absurd rfl hresult
  | succ fuel ih =>
    rw [Nat.add_right_comm, mapSdt, mapSdt]
    refine Stable.log ((Stable.refl _).bind fun r => ?_)
    dsimp only
    by_cases hnull : r.1 = 0
    · rw [if_pos hnull, if_pos hnull]
      exact Stable.refl _
    rw [if_neg hnull, if_neg hnull]
    refine (Stable.refl _).bind fun ok => ?_
    cases ok with
    | false => exact Stable.refl _
    | true =>
      rw [if_pos rfl, if_pos rfl]
      refine (Stable.refl _).bind fun signature => ?_
      cases entryWidth signature with
      | none => exact Stable.refl _
      | some width =>
        refine (Stable.refl _).bind fun count => Stable.log (Stable.bind ?_ fun _ => Stable.refl _)
        exact mapEach_stable (fun phys' w₁ => ih (phys :: parents) phys') _

theorem tablesInit_stable (rsdp : BitVec 64) :
    Stable .pending (tablesInit fuel rsdp w) (tablesInit (fuel + more) rsdp w) := by
  rw [tablesInit, tablesInit]
  by_cases hnull : rsdp = 0
  · rw [if_pos hnull, if_pos hnull]
    exact Stable.refl _
  rw [if_neg hnull, if_neg hnull]
  refine (Stable.refl _).bind fun ok => ?_
  cases ok with
  | false => exact Stable.refl _
  | true =>
    rw [if_pos rfl, if_pos rfl]
    exact (Stable.refl _).bind fun phys => mapSdt_stable [] phys

end Fuel

/-! ## Runs without nested root tables -/

section Flat

variable {w w' : World} {phys vaddr sdt rsdp : BitVec 64} {width : Nat} {all : Bool}

theorem mapSdt_header {root : Option Nat} (h : mapHeader phys w = some (vaddr, w', root))
    (fuel : Nat) (parents : List (BitVec 64)) : ∃ events,
    mapSdt (fuel + 1) parents phys w = log (.call phys) (match root with
      | none => ⟨events, .ok (vaddr, w')⟩
      | some width =>
        (ofOption .fault (entryCount w' vaddr width)).bind fun count =>
          log (.enter parents phys)
            ((mapEach (mapSdt fuel (phys :: parents)) width (entrySlots vaddr width count) w').bind
              fun w => done (vaddr, w))) := by
  refine ⟨[], ?_⟩
  rw [mapHeader] at h
  obtain ⟨⟨found, w₁⟩, hfound, h⟩ := Option.bind_eq_some_iff.mp h
  rw [mapSdt, hfound, ofOption, done_bind]
  dsimp only at h ⊢
  by_cases hnull : found = 0
  · rw [if_pos hnull] at h ⊢
    simp only [Option.some.injEq, Prod.mk.injEq] at h
    obtain ⟨rfl, rfl, rfl⟩ := h
    rfl
  · rw [if_neg hnull] at h ⊢
    obtain ⟨ok, hok, h⟩ := Option.bind_eq_some_iff.mp h
    rw [hok, ofOption, done_bind]
    cases ok with
    | false =>
      simp only [Bool.false_eq_true, if_false, Option.some.injEq, Prod.mk.injEq] at h
      obtain ⟨rfl, rfl, rfl⟩ := h
      rfl
    | true =>
      obtain ⟨signature, hsignature, hresult⟩ := Option.map_eq_some_iff.mp h
      simp only [Prod.mk.injEq] at hresult
      obtain ⟨rfl, rfl, rfl⟩ := hresult
      rw [if_pos rfl, hsignature, ofOption, done_bind]
      cases entryWidth signature
      all_goals rfl

/-- A table that is no root table is mapped as by `mapTable`. -/
theorem mapSdt_table (h : mapTable phys w = some (vaddr, w')) (fuel : Nat)
    (parents : List (BitVec 64)) :
    (mapSdt (fuel + 1) parents phys w).result = .ok (vaddr, w') := by
  obtain ⟨events, hrun⟩ := mapSdt_header (mapTable_header h) fuel parents
  rw [hrun]
  rfl

theorem mapEach_tables {slots : List (BitVec 64)} (h : mapEntries width slots w = some (w', all))
    (fuel : Nat) (parents : List (BitVec 64)) :
    (mapEach (mapSdt (fuel + 1) parents) width slots w).result = .ok w' := by
  induction slots generalizing w w' all with
  | nil =>
    obtain ⟨rfl, -⟩ := Prod.mk.inj (Option.some.inj h)
    rfl
  | cons slot slots ih =>
    rw [mapEntries] at h
    obtain ⟨bytes, hbytes, h⟩ := Option.bind_eq_some_iff.mp h
    obtain ⟨⟨v, w₁⟩, htable, h⟩ := Option.bind_eq_some_iff.mp h
    obtain ⟨w₂, hwrite, h⟩ := Option.bind_eq_some_iff.mp h
    obtain ⟨⟨w₃, rest⟩, hrest, hresult⟩ := Option.map_eq_some_iff.mp h
    obtain ⟨rfl, -⟩ := Prod.mk.inj hresult
    rw [mapEach, hbytes, ofOption, done_bind, bind_ok (mapSdt_table htable fuel parents)]
    dsimp only
    rw [hwrite, ofOption, done_bind]
    exact ih hrest

/-- A root table without root tables among its entries is mapped as by `mapRoot`. -/
theorem mapSdt_root (h : mapRoot phys w = some (sdt, w', all)) (fuel : Nat)
    (parents : List (BitVec 64)) :
    (mapSdt (fuel + 2) parents phys w).result = .ok (sdt, w') := by
  rw [mapRoot] at h
  split at h
  · next found w₁ width hheader =>
    obtain ⟨count, hcount, h⟩ := Option.bind_eq_some_iff.mp h
    obtain ⟨⟨w₂, rest⟩, hentries, hresult⟩ := Option.map_eq_some_iff.mp h
    simp only [Prod.mk.injEq] at hresult
    obtain ⟨rfl, rfl, -⟩ := hresult
    obtain ⟨events, hrun⟩ := mapSdt_header hheader (fuel + 1) parents
    rw [hrun]
    dsimp only
    rw [hcount, ofOption, done_bind, bind_ok (mapEach_tables hentries fuel (phys :: parents))]
    rfl
  · next found w₁ hheader =>
    simp only [Option.some.injEq, Prod.mk.injEq] at h
    obtain ⟨rfl, rfl, -⟩ := h
    obtain ⟨events, hrun⟩ := mapSdt_header hheader (fuel + 1) parents
    rw [hrun]
    rfl
  · cases h

theorem tablesInit_flat (h : acpiTablesInit rsdp w = some (sdt, w', all)) (fuel : Nat) :
    (tablesInit (fuel + 2) rsdp w).result = .ok (sdt, w') := by
  rw [acpiTablesInit] at h
  rw [tablesInit]
  by_cases hnull : rsdp = 0
  · rw [if_pos hnull] at h ⊢
    simp only [Option.some.injEq, Prod.mk.injEq] at h
    obtain ⟨rfl, rfl, -⟩ := h
    rfl
  · rw [if_neg hnull] at h ⊢
    obtain ⟨ok, hok, h⟩ := Option.bind_eq_some_iff.mp h
    rw [hok, ofOption, done_bind]
    cases ok with
    | false =>
      simp only [Bool.false_eq_true, if_false, Option.some.injEq, Prod.mk.injEq] at h
      obtain ⟨rfl, rfl, -⟩ := h
      rfl
    | true =>
      rw [if_pos rfl] at h ⊢
      obtain ⟨phys, hphys, hroot⟩ := Option.bind_eq_some_iff.mp h
      rw [hphys, ofOption, done_bind]
      exact mapSdt_root hroot fuel []

end Flat

/-! ## The pages that are recorded -/

/-- The addresses that `map_sdt` is called with. -/
def asked (events : List Event) : List (BitVec 64) :=
  events.filterMap fun
    | .call phys => some phys
    | _ => none

def tablePage (phys : BitVec 64) : BitVec 64 := phys &&& 0xfffffffffffff000

/-- The pages of those that are looked for in `page_stack`. -/
def pages (events : List Event) : List (BitVec 64) :=
  ((asked events).filter fun phys => phys > 0x400000).map tablePage

def recorded (w : World) : List (BitVec 64) := w.pageStack.map AddressMapping.phys

section Pages

variable {w w' : World} {phys vaddr : BitVec 64} {events : List Event}

theorem not_mem_recorded
    (h : (w.pageStack.find? fun m => phys &&& 0xfffffffffffff000 = m.phys) = none) :
    tablePage phys ∉ recorded w := by
  intro hmem
  obtain ⟨m, hm, hsame⟩ := List.mem_map.mp hmem
  have hnot := List.find?_eq_none.mp h m hm
  rw [decide_eq_true_eq] at hnot
  exact hnot hsame.symm

theorem getMappingFor_recorded (inv : Inv w) (h : getMappingFor phys w = some (vaddr, w')) :
    (¬ phys > 0x400000 ∧ w' = w) ∨
    (phys > 0x400000 ∧ tablePage phys ∈ recorded w ∧ w' = w) ∨
    (phys > 0x400000 ∧ tablePage phys ∉ recorded w ∧ w.pageStack.length < 64 ∧
      w' = withWindow w phys) := by
  have hnext := inv.toNat_next
  have hfew := inv.few
  have hlimit : w.nextVaddr ≠ acpiTablesVaddrLimit := by
    intro heq
    have hlimit : acpiTablesVaddrLimit.toNat = 0xffffffff82000000 := rfl
    rw [heq, hlimit] at hnext
    omega
  rw [getMappingFor] at h
  by_cases hhigh : phys > 0x400000
  · rw [if_pos hhigh] at h
    cases hfind : w.pageStack.find? fun m => phys &&& 0xfffffffffffff000 = m.phys with
    | some m =>
      rw [hfind] at h
      obtain ⟨-, rfl⟩ := Prod.mk.inj (Option.some.inj h)
      have hsame := List.find?_some hfind
      rw [decide_eq_true_eq] at hsame
      exact Or.inr (Or.inl ⟨hhigh,
        List.mem_map.mpr ⟨m, List.mem_of_find?_eq_some hfind, hsame.symm⟩, rfl⟩)
    | none =>
      rw [hfind] at h
      dsimp only at h
      rw [if_neg hlimit] at h
      split_ifs at h with hroom
      obtain ⟨-, rfl⟩ := Prod.mk.inj (Option.some.inj h)
      exact Or.inr (Or.inr ⟨hhigh, not_mem_recorded hfind, hroom, rfl⟩)
  · rw [if_neg hhigh] at h
    obtain ⟨-, rfl⟩ := Prod.mk.inj (Option.some.inj h)
    exact Or.inl ⟨hhigh, rfl⟩

theorem getMappingFor_full (inv : Inv w) (h : getMappingFor phys w = none) :
    phys > 0x400000 ∧ tablePage phys ∉ recorded w ∧ w.pageStack.length = 64 := by
  have hfew := inv.few
  rw [getMappingFor] at h
  by_cases hhigh : phys > 0x400000
  · rw [if_pos hhigh] at h
    cases hfind : w.pageStack.find? fun m => phys &&& 0xfffffffffffff000 = m.phys with
    | some m =>
      rw [hfind] at h
      cases h
    | none =>
      rw [hfind] at h
      dsimp only at h
      refine ⟨hhigh, not_mem_recorded hfind, ?_⟩
      by_cases hlimit : w.nextVaddr = acpiTablesVaddrLimit
      · rw [if_pos hlimit] at h
        cases h
      · rw [if_neg hlimit] at h
        by_cases hroom : w.pageStack.length < 64
        · rw [if_pos hroom] at h
          cases h
        · omega
  · rw [if_neg hhigh] at h
    cases h

/-- The pages in `page_stack` are those that were asked for. -/
structure Accounted (events : List Event) (w : World) : Prop where
  inv : Inv w
  nodup : (recorded w).Nodup
  same : (recorded w).toFinset = (pages events).toFinset

theorem pages_append_call (events : List Event) (phys : BitVec 64) :
    pages (events ++ [.call phys]) =
      pages events ++ if phys > 0x400000 then [tablePage phys] else [] := by
  have hasked : asked (events ++ [.call phys]) = asked events ++ [phys] := List.filterMap_append
  rw [pages, hasked, List.filter_append, List.map_append, pages]
  by_cases hhigh : phys > 0x400000
  · rw [if_pos hhigh, List.filter_cons_of_pos (by simpa using hhigh)]
    rfl
  · rw [if_neg hhigh, List.filter_cons_of_neg (by simpa using hhigh)]
    rfl

theorem pages_append_enter (events : List Event) (parents : List (BitVec 64)) (phys : BitVec 64) :
    pages (events ++ [.enter parents phys]) = pages events := by
  have hasked : asked (events ++ [.enter parents phys]) = asked events ++ [] :=
    List.filterMap_append
  rw [pages, hasked, List.append_nil, pages]

theorem pages_append_entry (events : List Event) (slot vaddr : BitVec 64) :
    pages (events ++ [.entry slot vaddr]) = pages events := by
  have hasked : asked (events ++ [.entry slot vaddr]) = asked events ++ [] :=
    List.filterMap_append
  rw [pages, hasked, List.append_nil, pages]

theorem Accounted.card (h : Accounted events w) :
    (pages events).toFinset.card = w.pageStack.length := by
  rw [← h.same, List.toFinset_card_of_nodup h.nodup, recorded, List.length_map]

theorem Accounted.mapped (h : Accounted events w)
    (hmapping : getMappingFor phys w = some (vaddr, w')) :
    Accounted (events ++ [.call phys]) w' := by
  have hgrows := getMappingFor_grows h.inv hmapping
  obtain ⟨hlow, rfl⟩ | ⟨hhigh, hmem, rfl⟩ | ⟨hhigh, hnew, -, rfl⟩ :=
    getMappingFor_recorded h.inv hmapping
  · refine ⟨h.inv, h.nodup, ?_⟩
    rw [pages_append_call, if_neg hlow, List.append_nil]
    exact h.same
  · refine ⟨h.inv, h.nodup, ?_⟩
    rw [pages_append_call, if_pos hhigh, List.toFinset_append, ← h.same]
    ext p
    simp only [Finset.mem_union, List.mem_toFinset, List.mem_singleton]
    constructor
    · exact Or.inl
    · rintro (hp | rfl)
      · exact hp
      · exact hmem
  · have hrecorded : recorded (withWindow w phys) = recorded w ++ [tablePage phys] :=
      List.map_append
    refine ⟨hgrows.inv, ?_, ?_⟩
    · rw [hrecorded, List.nodup_append]
      refine ⟨h.nodup, List.nodup_singleton _, ?_⟩
      rintro p hp q hq rfl
      rw [List.mem_singleton.mp hq] at hp
      exact hnew hp
    · rw [hrecorded, pages_append_call, if_pos hhigh, List.toFinset_append, List.toFinset_append,
        h.same]

theorem Accounted.full (h : Accounted events w) (hmapping : getMappingFor phys w = none) :
    64 < (pages (events ++ [.call phys])).toFinset.card := by
  obtain ⟨hhigh, hnew, hlength⟩ := getMappingFor_full h.inv hmapping
  have hnot : tablePage phys ∉ (pages events).toFinset := by
    rw [← h.same, List.mem_toFinset]
    exact hnew
  have hinsert : (pages (events ++ [.call phys])).toFinset =
      insert (tablePage phys) (pages events).toFinset := by
    rw [pages_append_call, if_pos hhigh, List.toFinset_append]
    ext p
    simp only [Finset.mem_union, List.mem_toFinset, List.mem_singleton, Finset.mem_insert]
    exact Or.comm
  rw [hinsert, Finset.card_insert_of_notMem hnot, h.card, hlength]
  exact Nat.lt_succ_self 64

/-- A write past the end of `page_stack` is made just if more than 64 pages were asked for. -/
def Overflows (events : List Event) (reason : Reason) : Prop :=
  reason = .outOfBounds ↔ 64 < (pages events).toFinset.card

theorem Accounted.overflows (h : Accounted events w) {reason : Reason}
    (other : reason ≠ .outOfBounds) : Overflows events reason := by
  refine iff_of_false other ?_
  rw [h.card]
  exact Nat.not_lt.mpr h.inv.few

theorem accounted_preserved (depth : Nat) :
    Preserved depth (fun _ events w => Accounted events w) (fun _ _ => True) Overflows where
  mapped := fun h hmapping => h.mapped hmapping
  full := fun h hmapping => iff_of_true rfl (h.full hmapping)
  entered := fun _ h => ⟨h.inv, h.nodup, by rw [pages_append_enter]; exact h.same⟩
  left := fun h => h
  wrote := fun ram h _ => ⟨h.inv.with_ram ram, h.nodup, by rw [pages_append_entry]; exact h.same⟩
  fault := fun h => h.overflows (by decide)
  pending := fun _ h => h.overflows (by decide)

end Pages

/-! ## Nested root tables -/

/-- Root tables are nested less than `depth` deep. -/
def Nests (depth : Nat) (events : List Event) : Prop :=
  ∀ parents phys, Event.enter parents phys ∈ events → parents.length < depth

/-- A root table is entered again while its own entries are gone through. -/
def Reentered (events : List Event) : Prop :=
  ∃ parents phys, Event.enter parents phys ∈ events ∧ phys ∈ parents

section Nesting

variable {w : World} {rsdp : BitVec 64} {events : List Event} {depth fuel : Nat}

theorem mem_append_enter {parents parents' : List (BitVec 64)} {phys phys' : BitVec 64} :
    Event.enter parents' phys' ∈ events ++ [.enter parents phys] ↔
      Event.enter parents' phys' ∈ events ∨ parents' = parents ∧ phys' = phys := by
  rw [List.mem_append, List.mem_singleton, Event.enter.injEq]

theorem not_mem_call {parents : List (BitVec 64)} {phys phys' : BitVec 64} :
    Event.enter parents phys ∈ events ++ [.call phys'] ↔ Event.enter parents phys ∈ events := by
  rw [List.mem_append, List.mem_singleton]
  exact or_iff_left Event.noConfusion

theorem not_mem_entry {parents : List (BitVec 64)} {phys slot vaddr : BitVec 64} :
    Event.enter parents phys ∈ events ++ [.entry slot vaddr] ↔
      Event.enter parents phys ∈ events := by
  rw [List.mem_append, List.mem_singleton]
  exact or_iff_left Event.noConfusion

theorem nests_preserved (depth : Nat) :
    Preserved depth (fun _ events _ => Nests depth events) (fun _ _ => True)
      (fun events _ => Nests depth events) where
  mapped := fun h _ parents phys hmem => h parents phys (not_mem_call.mp hmem)
  full := fun h _ parents phys hmem => h parents phys (not_mem_call.mp hmem)
  entered := by
    intro parents events w phys hdepth h parents' phys' hmem
    rcases mem_append_enter.mp hmem with hmem | ⟨rfl, -⟩
    · exact h parents' phys' hmem
    · exact hdepth
  left := fun h => h
  wrote := fun _ h _ parents phys hmem => h parents phys (not_mem_entry.mp hmem)
  fault := fun h => h
  pending := fun _ h => h

/-- A run that is out of fuel has entered root tables as deep as that. -/
theorem deep_preserved (depth : Nat) :
    Preserved depth
      (fun parents events _ => ∀ k < parents.length, ∃ parents' phys,
        Event.enter parents' phys ∈ events ∧ parents'.length = k)
      (fun _ _ => True)
      (fun events reason => reason = .pending → ∀ k < depth, ∃ parents' phys,
        Event.enter parents' phys ∈ events ∧ parents'.length = k) where
  mapped := by
    intro parents events w phys vaddr w' h _ k hk
    obtain ⟨parents', phys', hmem, hlength⟩ := h k hk
    exact ⟨parents', phys', not_mem_call.mpr hmem, hlength⟩
  full := by
    intro parents events w phys _ _ hreason
    cases hreason
  entered := by
    intro parents events w phys _ h k hk
    rcases Nat.lt_or_eq_of_le (Nat.le_of_lt_succ hk) with hk | rfl
    · obtain ⟨parents', phys', hmem, hlength⟩ := h k hk
      exact ⟨parents', phys', mem_append_enter.mpr (Or.inl hmem), hlength⟩
    · exact ⟨parents, phys, mem_append_enter.mpr (Or.inr ⟨rfl, rfl⟩), rfl⟩
  left := fun h k hk => h k (Nat.lt_succ_of_lt hk)
  wrote := by
    intro parents events w slot vaddr ram h _ k hk
    obtain ⟨parents', phys', hmem, hlength⟩ := h k hk
    exact ⟨parents', phys', not_mem_entry.mpr hmem, hlength⟩
  fault := by
    intro parents events w _ hreason
    cases hreason
  pending := by
    intro parents events w hdepth h _ k hk
    exact h k (by omega)

/-- Without root tables that are entered again, the tables in progress are different ones. -/
theorem nodup_preserved (depth : Nat) :
    Preserved depth
      (fun parents events _ => ¬ Reentered events → parents.Nodup ∧
        ∀ parents' phys, Event.enter parents' phys ∈ events → parents'.Nodup)
      (fun _ _ => True)
      (fun events _ => ¬ Reentered events →
        ∀ parents' phys, Event.enter parents' phys ∈ events → parents'.Nodup) where
  mapped := by
    intro parents events w phys vaddr w' h _ hnot
    obtain ⟨hparents, hall⟩ := h fun ⟨parents', phys', hmem, hphys⟩ =>
      hnot ⟨parents', phys', not_mem_call.mpr hmem, hphys⟩
    exact ⟨hparents, fun parents' phys' hmem => hall parents' phys' (not_mem_call.mp hmem)⟩
  full := by
    intro parents events w phys h _ hnot
    obtain ⟨-, hall⟩ := h fun ⟨parents', phys', hmem, hphys⟩ =>
      hnot ⟨parents', phys', not_mem_call.mpr hmem, hphys⟩
    exact fun parents' phys' hmem => hall parents' phys' (not_mem_call.mp hmem)
  entered := by
    intro parents events w phys _ h hnot
    obtain ⟨hparents, hall⟩ := h fun ⟨parents', phys', hmem, hphys⟩ =>
      hnot ⟨parents', phys', mem_append_enter.mpr (Or.inl hmem), hphys⟩
    have hnew : phys ∉ parents := fun hmem =>
      hnot ⟨parents, phys, mem_append_enter.mpr (Or.inr ⟨rfl, rfl⟩), hmem⟩
    refine ⟨List.nodup_cons.mpr ⟨hnew, hparents⟩, ?_⟩
    intro parents' phys' hmem
    rcases mem_append_enter.mp hmem with hmem | ⟨rfl, -⟩
    · exact hall parents' phys' hmem
    · exact hparents
  left := by
    intro parents events w phys h hnot
    obtain ⟨hparents, hall⟩ := h hnot
    exact ⟨(List.nodup_cons.mp hparents).2, hall⟩
  wrote := by
    intro parents events w slot vaddr ram h _ hnot
    obtain ⟨hparents, hall⟩ := h fun ⟨parents', phys', hmem, hphys⟩ =>
      hnot ⟨parents', phys', not_mem_entry.mpr hmem, hphys⟩
    exact ⟨hparents, fun parents' phys' hmem => hall parents' phys' (not_mem_entry.mp hmem)⟩
  fault := fun h hnot => (h hnot).2
  pending := fun _ h hnot => (h hnot).2

/-- There are no more than `2 ^ 64` different addresses. -/
theorem length_le_of_nodup {addresses : List (BitVec 64)} (h : addresses.Nodup) :
    addresses.length ≤ 2 ^ 64 := by
  have hnodup : (addresses.map BitVec.toFin).Nodup :=
    h.map fun a b hab => BitVec.eq_of_toFin_eq hab
  have hle := hnodup.length_le_card
  rwa [List.length_map, Fintype.card_fin] at hle

theorem tablesInit_nests : Nests fuel (tablesInit fuel rsdp w).events :=
  (tablesInit_meets (nests_preserved fuel) rsdp fun _ _ hmem => absurd hmem List.not_mem_nil).events

/-- The tables are mapped in finitely many steps just if root tables are not nested without end. -/
theorem terminates_iff : (∃ fuel, (tablesInit fuel rsdp w).result ≠ .error .pending) ↔
    ∃ depth, ∀ fuel, Nests depth (tablesInit fuel rsdp w).events := by
  constructor
  · rintro ⟨depth, hresult⟩
    refine ⟨depth, fun fuel => ?_⟩
    rcases Nat.le_total depth fuel with hle | hle
    · obtain ⟨more, rfl⟩ := Nat.exists_eq_add_of_le hle
      rw [tablesInit_stable rsdp hresult]
      exact tablesInit_nests
    · exact fun parents phys hmem =>
        Nat.lt_of_lt_of_le (tablesInit_nests parents phys hmem) hle
  · rintro ⟨depth, hnests⟩
    refine ⟨depth + 1, fun hpending => ?_⟩
    have hdeep := (tablesInit_meets (deep_preserved (depth + 1)) rsdp
      fun k hk => absurd hk (Nat.not_lt_zero k)).of_error hpending rfl depth (Nat.lt_succ_self depth)
    obtain ⟨parents, phys, hmem, hlength⟩ := hdeep
    exact absurd (hnests (depth + 1) parents phys hmem) (by omega)

theorem nests_of_not_reentered (h : ∀ fuel, ¬ Reentered (tablesInit fuel rsdp w).events) :
    ∃ depth, ∀ fuel, Nests depth (tablesInit fuel rsdp w).events := by
  refine ⟨2 ^ 64 + 1, fun fuel parents phys hmem => ?_⟩
  have hmeets := @tablesInit_meets _ _ [] w fuel (nodup_preserved fuel) rsdp
    fun _ => ⟨List.nodup_nil, fun _ _ hmem => absurd hmem List.not_mem_nil⟩
  have hall := (hmeets.mono (fun _ _ h hnot => (h hnot).2) fun _ _ h => h).events (h fuel)
  exact Nat.lt_succ_of_le (length_le_of_nodup (hall parents phys hmem))

theorem Booted.accounted (h : Booted w) : Accounted [] w := by
  have hrecorded : recorded w = [] := by rw [recorded, h.empty, List.map_nil]
  refine ⟨h.inv, ?_, ?_⟩
  · rw [hrecorded]
    exact List.nodup_nil
  · rw [hrecorded]
    rfl

/-- A write past the end of `page_stack` is made just if more than 64 pages are asked for. -/
theorem outOfBounds_iff (booted : Booted w) :
    (tablesInit fuel rsdp w).result = .error .outOfBounds ↔
      64 < (pages (tablesInit fuel rsdp w).events).toFinset.card := by
  have hmeets := tablesInit_meets (accounted_preserved fuel) rsdp booted.accounted
  rcases hresult : (tablesInit fuel rsdp w).result with reason | r
  · have hoverflows := hmeets.of_error hresult
    rw [Except.error.injEq]
    exact hoverflows
  · have haccounted := hmeets.of_ok hresult
    refine iff_of_false ?_ ?_
    · intro hcontra
      cases hcontra
    · rw [haccounted.card]
      exact Nat.not_lt.mpr haccounted.inv.few

/-- `acpi_tables_init` comes to an end, and makes no access past the end of `page_stack`. -/
def InitSafe (rsdp : BitVec 64) (w : World) : Prop :=
  (∃ fuel, (tablesInit fuel rsdp w).result ≠ .error .pending) ∧
    ∀ fuel, (tablesInit fuel rsdp w).result ≠ .error .outOfBounds

end Nesting

/-- A run over 64 pages at most, in which no root table is entered again before its own entries are
done, is safe. -/
theorem init_safe_of_not_reentered {w : World} {rsdp : BitVec 64} (booted : Booted w)
    (few : ∀ fuel, (pages (tablesInit fuel rsdp w).events).toFinset.card ≤ 64)
    (once : ∀ fuel, ¬ Reentered (tablesInit fuel rsdp w).events) : InitSafe rsdp w := by
  constructor
  · exact terminates_iff.mpr (nests_of_not_reentered once)
  · intro fuel hcontra
    exact absurd ((outOfBounds_iff booted).mp hcontra) (Nat.not_lt.mpr (few fuel))

/-! ## A root table within itself -/

/-- A root table whose first entry is its own address never comes to an end. -/
theorem mapSdt_self {w : World} {phys vaddr : BitVec 64} {signature bytes : List Byte}
    {width count : Nat} (mapping : getMappingFor phys w = some (vaddr, w)) (found : vaddr ≠ 0)
    (checksum : checksumSdt w vaddr = some true) (hsignature : readVirt w vaddr 4 = some signature)
    (hwidth : entryWidth signature = some width)
    (hcount : entryCount w vaddr width = some (count + 1))
    (hread : readVirt w (addr vaddr 36) width = some bytes)
    (self : BitVec.ofNat 64 (ofBytes bytes) = phys) (fuel : Nat) (parents : List (BitVec 64)) :
    (mapSdt fuel parents phys w).result = .error .pending := by
  induction fuel generalizing parents with
  | zero => rfl
  | succ fuel ih =>
    have hslots : ∃ rest, entrySlots vaddr width (count + 1) = addr vaddr 36 :: rest := by
      rw [entrySlots, List.range_succ_eq_map, List.map_cons]
      exact ⟨_, rfl⟩
    obtain ⟨rest, hslots⟩ := hslots
    have hloop : (mapEach (mapSdt fuel (phys :: parents)) width (addr vaddr 36 :: rest) w).result =
        .error .pending := by
      rw [mapEach, hread, ofOption, done_bind, self, bind_error (ih (phys :: parents))]
    rw [mapSdt, mapping, ofOption, done_bind]
    dsimp only
    rw [if_neg found, checksum, ofOption, done_bind, if_pos rfl, hsignature, ofOption, done_bind,
      hwidth]
    dsimp only
    rw [hcount, ofOption, done_bind, hslots, bind_error hloop]
    rfl

def selfXsdt : List Byte :=
  [0x58, 0x53, 0x44, 0x54, 44, 0, 0, 0, 0, 0x72] ++ List.replicate 26 0 ++
    [0x00, 0x10, 0x0f, 0, 0, 0, 0, 0]

/-- The only entry of the root table at `0xf1000` is its own address. -/
def selfWorld : World :=
  { sampleWorld with
    ram := fun a => if 0xf1000 ≤ a ∧ a < 0xf2000 then selfXsdt.getD (a.toNat - 0xf1000) 0
      else sampleRam a }

end AcpiTables
