import AnosKernel.Lib.Runs
import AnosKernel.TablePaths
import AnosKernel.AcpiNested

/-!
# The windows of the ACPI tables

Where `get_mapping_for` maps a table, in any sequence of calls of `map_sdt`. A window leaves out the
third page of the table's memory, and the first address after the low 4 MiB is taken for one of
them.
-/

namespace AcpiTables

open Bytes Slots Runs Traces PageAlloc TableTree VmMapper MapSyscalls TablePaths

/-! ## Sequences of calls -/

inductive TableStep where
  /-- `get_mapping_for` is called. -/
  | mapping (phys : BitVec 64)
  /-- Entries of a root table are written. -/
  | store (ram : Memory)

/-- What `map_sdt` does, however its calls are nested. -/
def tables : System World TableStep where
  init := Booted
  step := fun w step w' => match step with
    | .mapping phys => ∃ vaddr, getMappingFor phys w = some (vaddr, w')
    | .store ram => w' = { w with ram := ram }

theorem reachable_preserved (depth : Nat) :
    Preserved depth (fun _ _ w => Reachable tables w) (fun _ _ => True) (fun _ _ => True) where
  mapped := fun {_ _ _ phys vaddr _} h hmapping =>
    .next (a := TableStep.mapping phys) h ⟨vaddr, hmapping⟩
  full := fun _ _ => trivial
  entered := fun _ h => h
  left := fun h => h
  wrote := fun ram h _ => .next (a := TableStep.store ram) h rfl
  fault := fun _ => trivial
  pending := fun _ _ => trivial

/-- The calls of `map_sdt` are such sequences. -/
theorem mapSdt_reachable {w w' : World} {fuel : Nat} {parents : List (BitVec 64)}
    {phys vaddr : BitVec 64} (h : Reachable tables w)
    (run : (mapSdt fuel parents phys w).result = .ok (vaddr, w')) : Reachable tables w' :=
  (@mapSdt_meets _ _ _ [] w _ (reachable_preserved _) fuel rfl phys h).of_ok run

/-! ## The pages of a window -/

/-- The pages of the window are mapped to those of a table, if to any. -/
def FullWindow (w : World) (m : AddressMapping) : Prop :=
  ∃ p, tablePage p = m.phys ∧ ∀ k < 8, entryAt w (addr m.virt (0x1000 * k)) = 0 ∨
    entryAt w (addr m.virt (0x1000 * k)) = writtenEntry (addr p (0x1000 * skip k))

structure WindowInv (w : World) : Prop where
  inv : Inv w
  full : ∀ m ∈ w.pageStack, FullWindow w m

/-- Every page of every window was mapped. -/
def WindowsMapped (w : World) : Prop :=
  ∀ m ∈ w.pageStack, ∀ k < 8, entryAt w (addr m.virt (0x1000 * k)) ≠ 0

section Windows

variable {w w' : World} {phys vaddr : BitVec 64} {m : AddressMapping}

theorem FullWindow.withWindow (h : FullWindow w m) (window : Window w m) (inv : Inv w)
    (room : w.pageStack.length < 64) : FullWindow (withWindow w phys) m := by
  obtain ⟨p, hp, hentries⟩ := h
  refine ⟨p, hp, fun k hk => ?_⟩
  have hkernel := window.kernel
  have hbelow := window.below
  have hnext := inv.toNat_next
  have haddr : (addr m.virt (0x1000 * k)).toNat = m.virt.toNat + 0x1000 * k :=
    toNat_addr (by omega)
  rw [withWindow_outside inv room (by rw [kernel_iff]; omega) (by omega)]
  exact hentries k hk

theorem FullWindow.newest (inv : Inv w) (room : w.pageStack.length < 64) :
    FullWindow (AcpiTables.withWindow w phys) ⟨tablePage phys, w.nextVaddr⟩ := by
  obtain ⟨-, -, hentries⟩ := @withWindow_entries w phys inv room
  have hnext := inv.toNat_next
  have hlimit : acpiTablesVaddrLimit.toNat = 0xffffffff82000000 := rfl
  refine ⟨phys, rfl, fun k hk => ?_⟩
  have haddr : (addr w.nextVaddr (0x1000 * k)).toNat = w.nextVaddr.toNat + 0x1000 * k :=
    toNat_addr (by omega)
  rcases hentries (addr w.nextVaddr (0x1000 * k)) (by rw [kernel_iff]; omega) with
    hkept | ⟨j, hj, hpage, hwritten⟩
  · left
    rw [hkept]
    apply inv.fresh
    · rw [BitVec.le_def]
      omega
    · rw [BitVec.lt_def]
      omega
  · right
    obtain rfl : j = k := by omega
    exact hwritten

theorem windowInv_reachable (h : Reachable tables w) : WindowInv w := by
  apply h.invariant
  · intro w booted
    refine ⟨booted.inv, fun m hm => ?_⟩
    rw [booted.empty] at hm
    exact absurd hm List.not_mem_nil
  · intro w step w' hinv hstep
    rcases step with phys | ram
    · obtain ⟨vaddr, hmapping⟩ := hstep
      refine ⟨(getMappingFor_grows hinv.inv hmapping).inv, ?_⟩
      obtain ⟨-, rfl⟩ | ⟨-, -, rfl⟩ | ⟨-, -, hroom, rfl⟩ := getMappingFor_recorded hinv.inv hmapping
      · exact hinv.full
      · exact hinv.full
      · intro m hm
        rcases List.mem_append.mp hm with hm | hm
        · exact (hinv.full m hm).withWindow (hinv.inv.windows m hm) hinv.inv hroom
        · rw [List.mem_singleton.mp hm]
          exact FullWindow.newest hinv.inv hroom
    · obtain rfl := hstep
      exact ⟨hinv.inv.with_ram ram, hinv.full⟩

/-- A table above the low 4 MiB is in a window for its page. -/
theorem getMappingFor_window (inv : Inv w) (high : phys > 0x400000)
    (h : getMappingFor phys w = some (vaddr, w')) (found : vaddr ≠ 0) :
    ∃ m ∈ w'.pageStack, tablePage phys = m.phys ∧ vaddr = (phys &&& 0xfff) ||| m.virt := by
  have hhigh : 0x400000 < phys.toNat := BitVec.lt_def.mp high
  obtain ⟨hlow, -, -⟩ | ⟨-, m, hm, hsame, rfl, rfl⟩ | ⟨-, -, rfl, rfl⟩ | ⟨hnull, -⟩ :=
    getMappingFor_cases h
  · omega
  · exact ⟨m, hm, hsame, rfl⟩
  · exact ⟨⟨tablePage phys, w.nextVaddr⟩, List.mem_append_right _ (List.mem_singleton.mpr rfl), rfl,
      rfl⟩
  · exact absurd hnull found

theorem frame_of_page {p q l : Nat} (same : p / 4096 = q / 4096) :
    (p + 4096 * l) % 2 ^ 64 % 2 ^ 48 / 4096 * 4096 = (q / 4096 + l) * 4096 % 2 ^ 48 := by
  omega

theorem offset_of_window {v q k : Nat} (aligned : v % 2 ^ 12 = 0) :
    (v + q % 4096 + k) % 2 ^ 12 = (q + k) % 4096 := by
  omega

/-- What a mapped page of a window translates to: the third page of the table is left out. -/
theorem FullWindow.translate (h : FullWindow w m) (window : Window w m) (inv : Inv w)
    (mapped : ∀ k < 8, entryAt w (addr m.virt (0x1000 * k)) ≠ 0) (same : tablePage phys = m.phys)
    {k : Nat} (hk : phys.toNat % 4096 + k < 0x8000) :
    ∃ a, AcpiTables.translate w (addr ((phys &&& 0xfff) ||| m.virt) k) = some a ∧
      a.toNat = ((phys.toNat / 4096 + skip ((phys.toNat % 4096 + k) / 4096)) * 4096) % 2 ^ 48 +
        (phys.toNat + k) % 4096 := by
  obtain ⟨p, hp, hentries⟩ := h
  have hkernel := window.kernel
  have hbelow := window.below
  have hnext := inv.toNat_next
  have hfew := inv.few
  have haligned := (Masks.and_low_eq_zero_iff (k := 12) rfl).mp window.aligned
  have hplace := window.toNat_place phys
  have hphys := phys.isLt
  have hbytes : (addr ((phys &&& 0xfff) ||| m.virt) k).toNat =
      m.virt.toNat + phys.toNat % 4096 + k := by
    rw [toNat_addr (by omega), hplace]
  obtain ⟨j, hj⟩ : ∃ j, (phys.toNat % 4096 + k) / 4096 = j := ⟨_, rfl⟩
  have hj8 : j < 8 := by omega
  have hstart : (addr m.virt (0x1000 * j)).toNat = m.virt.toNat + 0x1000 * j :=
    toNat_addr (by omega)
  have hpage : pageNumber (addr ((phys &&& 0xfff) ||| m.virt) k) =
      pageNumber (addr m.virt (0x1000 * j)) := by
    rw [page_of_kernel (by rw [kernel_iff]; omega) (by rw [kernel_iff]; omega), hbytes, hstart]
    omega
  have hentry : entryAt w (addr ((phys &&& 0xfff) ||| m.virt) k) =
      writtenEntry (addr p (0x1000 * skip j)) :=
    (entry_eq_of_pageNumber hpage _ _).trans ((hentries j hj8).resolve_left (mapped j hj8))
  have hnumber : p.toNat / 4096 = phys.toNat / 4096 := by
    have heq := congrArg BitVec.toNat (hp.trans same.symm)
    rw [tablePage, tablePage, Masks.toNat_and_high p _ 12 (by decide) rfl,
      Masks.toNat_and_high phys _ 12 (by decide) rfl] at heq
    omega
  have hsum : (addr p (0x1000 * skip j)).toNat = (p.toNat + 0x1000 * skip j) % 2 ^ 64 := by
    rw [addr, BitVec.toNat_add, BitVec.toNat_ofNat, Nat.add_mod_mod]
  refine ⟨_, translate_eq_some.mpr ⟨⟨canonical_of_kernel (by rw [kernel_iff]; omega), ?_⟩, rfl⟩, ?_⟩
  · rw [hentry]
    exact writtenEntry_ne_zero _
  · rw [vmmVirtToPhys, vmmVirtToPhysPage, hentry, phys_writtenEntry, BitVec.toNat_add, toNat_frame,
      hsum, Masks.toNat_and_low _ _ 12 rfl, hbytes, hj]
    rw [frame_of_page hnumber, offset_of_window haligned, Nat.mod_eq_of_lt]
    omega

/-- What `get_mapping_for` sets up for a table: the low 4 MiB, or the eight pages of the window. -/
def InWindow (phys : BitVec 64) (k : Nat) : Prop :=
  phys.toNat ≤ 0x400000 ∧ phys.toNat + k < 0x400000 ∨
    0x400000 < phys.toNat ∧ phys.toNat % 4096 + k < 0x8000

/-- In the low 4 MiB, or in the first two pages of a window and at an address of 48 bits. -/
def NearStart (phys : BitVec 64) (k : Nat) : Prop :=
  phys.toNat ≤ 0x400000 ∨ phys.toNat % 4096 + k < 0x2000 ∧ (addr phys k).toNat < 2 ^ 48

theorem translate_right_iff (inv : WindowInv w) (h : getMappingFor phys w = some (vaddr, w'))
    (inv' : WindowInv w') (found : vaddr ≠ 0) (mapped : WindowsMapped w') {k : Nat}
    (hk : InWindow phys k) : translate w' (addr vaddr k) = some (addr phys k) ↔ NearStart phys k := by
  rcases hk with ⟨hlow, hk⟩ | ⟨hhigh, hk⟩
  · refine iff_of_true ?_ (Or.inl hlow)
    have hbase : kernelBase.toNat = 0xffffffff80000000 := rfl
    obtain ⟨-, rfl, rfl⟩ | ⟨hhigh, -⟩ | ⟨hhigh, -⟩ | ⟨hnull, -⟩ := getMappingFor_cases h
    · rw [or_kernelBase (by omega)]
      have hsum : (phys + kernelBase).toNat = phys.toNat + 0xffffffff80000000 := by
        rw [BitVec.toNat_add, hbase]
        omega
      have haddr : (addr (phys + kernelBase) k).toNat = phys.toNat + k + 0xffffffff80000000 := by
        rw [toNat_addr (by omega), hsum]
        omega
      have htemp : perCpuTempPageBase.toNat = 0xffffffff80400000 := rfl
      have hkernel : kernelBase ≤ addr (phys + kernelBase) k := by
        rw [kernel_iff]
        omega
      rw [inv.inv.low _ hkernel (by rw [BitVec.lt_def]; omega)]
      refine congrArg some (BitVec.eq_of_toNat_eq ?_)
      have hvalue : (addr phys k).toNat = phys.toNat + k := toNat_addr (by omega)
      rw [BitVec.toNat_sub_of_le hkernel, haddr, hbase, hvalue, Nat.add_sub_cancel]
    · omega
    · omega
    · exact absurd hnull found
  · obtain ⟨m, hm, hsame, rfl⟩ :=
      getMappingFor_window inv.inv (BitVec.lt_def.mpr hhigh) h found
    obtain ⟨a, ha, hvalue⟩ := (inv'.full m hm).translate (inv'.inv.windows m hm) inv'.inv
      (mapped m hm) hsame hk
    have hphys := phys.isLt
    have hsum : (addr phys k).toNat = (phys.toNat + k) % 2 ^ 64 := by
      rw [addr, BitVec.toNat_add, BitVec.toNat_ofNat, Nat.add_mod_mod]
    rw [ha, Option.some.injEq, ← BitVec.toNat_inj, hvalue, NearStart, hsum]
    unfold skip
    split_ifs with hskip
    · omega
    · omega

theorem places_right_iff (inv : WindowInv w) (h : getMappingFor phys w = some (vaddr, w'))
    (inv' : WindowInv w') (found : vaddr ≠ 0) (mapped : WindowsMapped w') {n : Nat}
    (hn : ∀ k < n, InWindow phys k) :
    places w' vaddr n = some ((List.range n).map (addr phys)) ↔ ∀ k < n, NearStart phys k := by
  have hplace : ∀ k < n, ((List.range n).map (addr phys))[k]? = some (addr phys k) := by
    intro k hk
    rw [List.getElem?_map, List.getElem?_range hk]
    rfl
  rw [places_iff, List.length_map, List.length_range, and_iff_right rfl]
  refine forall₂_congr fun k hk => ?_
  rw [hplace k hk]
  exact translate_right_iff inv h inv' found mapped (hn k hk)

theorem answered_low_iff (inv : WindowInv w) (h : getMappingFor phys w = some (vaddr, w'))
    (inv' : WindowInv w') (found : vaddr ≠ 0) (high : 0x400000 ≤ phys.toNat) :
    vaddr < acpiTablesVaddrBase ↔ phys = 0x400000 := by
  have hbase : kernelBase.toNat = 0xffffffff80000000 := rfl
  have hacpi : acpiTablesVaddrBase.toNat = 0xffffffff81100000 := rfl
  rw [BitVec.lt_def, hacpi, ← BitVec.toNat_inj]
  change _ ↔ phys.toNat = 0x400000
  obtain ⟨hlow, rfl, -⟩ | ⟨hhigh, -⟩ | ⟨hhigh, -⟩ | ⟨hnull, -⟩ := getMappingFor_cases h
  · rw [or_kernelBase (by omega), BitVec.toNat_add, hbase]
    omega
  · obtain ⟨m, hm, -, rfl⟩ := getMappingFor_window inv.inv (BitVec.lt_def.mpr hhigh) h found
    have hwindow := inv'.inv.windows m hm
    have hplace := hwindow.toNat_place phys
    have hkernel := hwindow.kernel
    omega
  · obtain ⟨m, hm, -, rfl⟩ := getMappingFor_window inv.inv (BitVec.lt_def.mpr hhigh) h found
    have hwindow := inv'.inv.windows m hm
    have hplace := hwindow.toNat_place phys
    have hkernel := hwindow.kernel
    omega
  · exact absurd hnull found

/-- After any sequence of calls, a table is where it should be as far as it lies in the low 4 MiB or
in the first two pages of its window; `checksum_sdt` reads the table's own bytes just if all of it
does; and of the addresses behind the low 4 MiB only the first is answered from the low mapping. -/
theorem mapping_right_iff (reach : Reachable tables w)
    (h : getMappingFor phys w = some (vaddr, w')) (found : vaddr ≠ 0) (mapped : WindowsMapped w') :
    (∀ k, InWindow phys k →
      (translate w' (addr vaddr k) = some (addr phys k) ↔ NearStart phys k)) ∧
    (∀ n, (∀ k < n, InWindow phys k) →
      (places w' vaddr n = some ((List.range n).map (addr phys)) ↔ ∀ k < n, NearStart phys k)) ∧
    (0x400000 ≤ phys.toNat → (vaddr < acpiTablesVaddrBase ↔ phys = 0x400000)) := by
  have hinv := windowInv_reachable reach
  have hinv' := windowInv_reachable (.next (a := TableStep.mapping phys) reach ⟨vaddr, h⟩)
  refine ⟨?_, ?_, ?_⟩
  · intro k hk
    exact translate_right_iff hinv h hinv' found mapped hk
  · intro n hn
    exact places_right_iff hinv h hinv' found mapped hn
  · intro high
    exact answered_low_iff hinv h hinv' found high

end Windows

/-! ## A window with pages to spare -/

/-- With three free pages for each, every page is mapped. -/
theorem mapPages_mapped {pages : List (BitVec 64 × BitVec 64)} {w : World} (paged : Paged w)
    (kernel : ∀ page ∈ pages, kernelBase ≤ page.1)
    (enough : 3 * pages.length ≤ (freePages w.machine.region).length) :
    ∀ page ∈ pages, entryAt (mapPages w pages) page.1 ≠ 0 := by
  induction pages generalizing w with
  | nil => exact fun page hpage => absurd hpage List.not_mem_nil
  | cons page pages ih =>
    obtain ⟨v, phys⟩ := page
    have hv : kernelBase ≤ v := kernel _ List.mem_cons_self
    have hkernel : ∀ page ∈ pages, kernelBase ≤ page.1 := fun page hpage =>
      kernel page (List.mem_cons_of_mem _ hpage)
    have straight := paged.straight v hv
    obtain ⟨hpaged, -⟩ := @mapPage_spec _ paged _ phys hv
    obtain ⟨ok, m, hrun⟩ : ∃ ok m, vmmMapPageIn w.machine w.pml4 v phys 3 = (ok, m) := ⟨_, _, rfl⟩
    have heffect := vmmMapPageIn_effect paged.wellFormed straight hrun
    have hmachine : (vmmMapPageIn w.machine w.pml4 v phys 3).2 = m := congrArg Prod.snd hrun
    rw [mapPages]
    rw [hmachine] at hpaged ⊢
    rw [List.length_cons] at enough
    have hleft : 3 * pages.length ≤ (freePages m.region).length := by
      have hcount := heffect.count
      omega
    intro page hpage
    obtain rfl | hpage := List.mem_cons.mp hpage
    · rw [heffect.enough (by omega)] at hrun
      have hwritten : entryAt { w with machine := m } v = writtenEntry phys :=
        map_writes_one_page paged.wellFormed straight hrun (by decide)
      obtain ⟨-, -, hentries⟩ := mapPages_spec hpaged hkernel
      obtain hkept | ⟨_, -, -, hrewritten⟩ := hentries v hv
      · rw [hkept, hwritten]
        exact writtenEntry_ne_zero phys
      · rw [hrewritten]
        exact writtenEntry_ne_zero _
    · exact ih hpaged hkernel hleft page hpage

/-- The first window is mapped in full where 24 pages are free. -/
theorem Booted.windowsMapped {w : World} (booted : Booted w)
    (enough : 24 ≤ (freePages w.machine.region).length) (phys : BitVec 64) :
    WindowsMapped (withWindow w phys) := by
  intro m hm k hk
  have hstack : (withWindow w phys).pageStack = [⟨tablePage phys, w.nextVaddr⟩] := by
    rw [withWindow, booted.empty]
    rfl
  rw [hstack] at hm
  obtain rfl := List.mem_singleton.mp hm
  have hnext := booted.inv.toNat_next
  rw [booted.empty, List.length_nil] at hnext
  have hkernel : ∀ page ∈ windowPages w.nextVaddr phys, kernelBase ≤ page.1 := by
    intro page hpage
    rw [windowPages_eq] at hpage
    obtain ⟨j, hj, rfl⟩ := List.mem_map.mp hpage
    rw [List.mem_range] at hj
    rw [kernel_iff, toNat_addr (by omega)]
    omega
  have hpage : (addr w.nextVaddr (0x1000 * k), addr phys (0x1000 * skip k)) ∈
      windowPages w.nextVaddr phys := by
    rw [windowPages_eq]
    exact List.mem_map.mpr ⟨k, List.mem_range.mpr hk, rfl⟩
  have hlength : (windowPages w.nextVaddr phys).length = 8 := rfl
  have hentry : entryAt (withWindow w phys) (addr w.nextVaddr (0x1000 * k)) =
      entryAt (mapPages w (windowPages w.nextVaddr phys)) (addr w.nextVaddr (0x1000 * k)) := rfl
  have hmapped := mapPages_mapped booted.inv.paged hkernel (by rw [hlength]; exact enough) _ hpage
  rw [hentry]
  exact hmapped

/-- 24 pages are free. -/
def windowWorld : World :=
  { sampleWorld with
    machine :=
      { mem := sampleTables, region := { size := 24, free := 0x18000, stack := [⟨0xa000, 24⟩] } } }

theorem member_sampleTables {f : BitVec 64} (h : Member down sampleTables 3 0x1000 f) :
    f ∈ [(0x1000 : BitVec 64), 0x2000, 0x3000, 0x4000, 0x5000, 0x6000, 0x7000, 0x8000] := by
  obtain rfl | ⟨i, c, hc, hf⟩ := h
  · decide
  · rw [down_pml4] at hc
    split_ifs at hc
    · rw [← Option.some.inj hc] at hf
      exact List.mem_cons_of_mem _ (List.mem_append_left [_, _, _] (member_pdpt hf))
    · rw [← Option.some.inj hc] at hf
      exact List.mem_append_right [_, _, _, _, _] (member_userPdpt hf)

theorem windowWorld_pages : freePages windowWorld.machine.region = pageRun 0xa000 24 :=
  List.append_nil _

theorem windowWorld_booted : Booted windowWorld := by
  have hsupplies : Supplies windowWorld.machine 3 windowWorld.pml4 := by
    have hpages : ∀ i < 24, vmmTableEntryToPhys (0xa000 + BitVec.ofNat 64 i * vmPageSize) =
        0xa000 + BitVec.ofNat 64 i * vmPageSize ∧ (0xa000 + BitVec.ofNat 64 i * vmPageSize) ∉
          [(0x1000 : BitVec 64), 0x2000, 0x3000, 0x4000, 0x5000, 0x6000, 0x7000, 0x8000] := by
      decide +kernel
    refine ⟨by simp [WellSized, windowWorld], ?_, ?_, ?_⟩
    · rw [windowWorld_pages]
      exact pageRun_nodup (by decide)
    · intro page hpage
      rw [windowWorld_pages] at hpage
      obtain ⟨i, hi, rfl⟩ := mem_pageRun.mp hpage
      exact (hpages i hi).1
    · intro page hpage hmember
      rw [windowWorld_pages] at hpage
      obtain ⟨i, hi, rfl⟩ := mem_pageRun.mp hpage
      exact (hpages i hi).2 (member_sampleTables hmember)
  refine ⟨⟨⟨⟨tree_sampleTables, hsupplies⟩, fun v _ => straight_sampleTables v 3 _⟩,
    fun v => sample_low, by decide, rfl, by decide, fun v => sample_fresh, ?_⟩, rfl⟩
  exact fun m hm => absurd hm List.not_mem_nil

theorem windowWorld_mapping : getMappingFor 0x500000 windowWorld =
    some (0xffffffff81100000, withWindow windowWorld 0x500000) := rfl

theorem windowWorld_mapped : WindowsMapped (withWindow windowWorld 0x500000) :=
  windowWorld_booted.windowsMapped (by rw [windowWorld_pages]; decide) 0x500000

theorem mapping_right_iff_window :
    (∀ k, InWindow 0x500000 k →
      (translate (withWindow windowWorld 0x500000) (addr 0xffffffff81100000 k) =
        some (addr 0x500000 k) ↔ NearStart 0x500000 k)) ∧
    (∀ n, (∀ k < n, InWindow 0x500000 k) →
      (places (withWindow windowWorld 0x500000) 0xffffffff81100000 n =
        some ((List.range n).map (addr 0x500000)) ↔ ∀ k < n, NearStart 0x500000 k)) ∧
    (0x400000 ≤ (0x500000 : BitVec 64).toNat →
      ((0xffffffff81100000 : BitVec 64) < acpiTablesVaddrBase ↔
        (0x500000 : BitVec 64) = 0x400000)) :=
  mapping_right_iff (.start windowWorld_booted) windowWorld_mapping (by decide) windowWorld_mapped

/-- The third page of the window is not that of the table, and the first address after the low 4 MiB
is answered from the low mapping. -/
theorem third_page_skipped : Booted windowWorld ∧
    (∃ w', getMappingFor 0x500000 windowWorld = some (0xffffffff81100000, w') ∧
      WindowsMapped w' ∧ InWindow 0x500000 0x2000 ∧
      translate w' (addr 0xffffffff81100000 0x2000) ≠ some (addr 0x500000 0x2000)) ∧
    getMappingFor 0x400000 windowWorld = some (0xffffffff80400000, windowWorld) := by
  have hreach : Reachable tables windowWorld := .start windowWorld_booted
  have hinside : InWindow 0x500000 0x2000 := by
    unfold InWindow
    decide
  have hright := translate_right_iff (windowInv_reachable hreach) windowWorld_mapping
    (windowInv_reachable (.next (a := TableStep.mapping 0x500000) hreach ⟨_, windowWorld_mapping⟩))
    (by decide) windowWorld_mapped hinside
  refine ⟨windowWorld_booted, ⟨_, windowWorld_mapping, windowWorld_mapped, hinside, ?_⟩, rfl⟩
  rw [ne_eq, hright]
  unfold NearStart
  decide

end AcpiTables
