import AnosKernel.MapSyscalls

/-!
# Runs of mapped pages

What `handle_map_physical` and `handle_map_virtual` leave in the page tables of an address space,
page by page: the permissions that a page ends up with, and what a call that fails gives back.
-/

namespace MapRuns

open PageAlloc VmMapper MapSyscalls

/-! ## Pages of a range -/

def pageOf (base : BitVec 64) (i : Nat) : BitVec 64 := base + BitVec.ofNat 64 i * vmPageSize

/-- The first `k` pages, in the order in which they are gone through. -/
def pagesOf (base : BitVec 64) (k : Nat) : List (BitVec 64) := (List.range k).map (pageOf base)

theorem pagesOf_succ (base : BitVec 64) (k : Nat) :
    pagesOf base (k + 1) = pagesOf base k ++ [pageOf base k] := by
  simp [pagesOf, List.range_succ]

theorem offset_succ (k : Nat) :
    BitVec.ofNat 64 k * vmPageSize + vmPageSize = BitVec.ofNat 64 (k + 1) * vmPageSize := by
  rw [BitVec.ofNat_add, BitVec.add_mul]
  simp

theorem toNat_offset {k : Nat} (fits : k < 2 ^ 52) :
    (BitVec.ofNat 64 k * vmPageSize).toNat = k * 4096 := by
  have h := @toNat_page 0 k (by simp; omega)
  simpa using h

theorem pageNumber_pageOf {base : BitVec 64} (aligned : base.toNat % 4096 = 0) (i : Nat) :
    (pageNumber (pageOf base i)).toNat = (base.toNat / 4096 + i) % 2 ^ 36 := by
  have hpage : vmPageSize.toNat = 4096 := rfl
  rw [toNat_pageNumber, pageOf, BitVec.toNat_add, BitVec.toNat_mul, BitVec.toNat_ofNat, hpage]
  omega

/-- Two pages less than the address space apart are different pages. -/
theorem pageNumber_ne {base : BitVec 64} (aligned : base.toNat % 4096 = 0) {i j : Nat}
    (before : i < j) (near : j < i + 2 ^ 36) :
    pageNumber (pageOf base i) ≠ pageNumber (pageOf base j) := by
  intro h
  have hnat := congrArg BitVec.toNat h
  rw [pageNumber_pageOf aligned, pageNumber_pageOf aligned] at hnat
  omega

/-! ## The pages mapped so far -/

section Mapping

variable {pml4 base : BitVec 64} {target : Nat → BitVec 64} {flags : BitVec 16} {m m1 m2 : Machine}
variable {k : Nat}

/-- The entry that is written for the `i`-th page. -/
def writtenEntry (target : Nat → BitVec 64) (flags : BitVec 16) (i : Nat) : BitVec 64 :=
  vmmPhysAndFlagsToTableEntry (target i) (flags.zeroExtend 64)

/-- After `k` pages were mapped: each of them has its entry, unless a later one of them is the
same page, and everything else is as it was. -/
structure Mapped (pml4 base : BitVec 64) (target : Nat → BitVec 64) (flags : BitVec 16)
    (m : Machine) (k : Nat) (m1 : Machine) : Prop where
  wellFormed : WellFormed m1 pml4
  straight : ∀ v, Straight m.mem v 3 pml4 → Straight m1.mem v 3 pml4
  entries : ∀ i < k, k ≤ i + 2 ^ 36 →
    vmmVirtToPtEntry m1 pml4 (pageOf base i) = writtenEntry target flags i
  others : ∀ v, Straight m.mem v 3 pml4 →
    (∀ i < k, pageNumber v ≠ pageNumber (pageOf base i)) →
      vmmVirtToPtEntry m1 pml4 v = vmmVirtToPtEntry m pml4 v

theorem Mapped.start (wf : WellFormed m pml4) : Mapped pml4 base target flags m 0 m where
  wellFormed := wf
  straight := fun _ h => h
  entries := fun _ hi => absurd hi (Nat.not_lt_zero _)
  others := fun _ _ _ => rfl

/-- One more page. -/
theorem Mapped.step (h : Mapped pml4 base target flags m k m1)
    (aligned : base.toNat % 4096 = 0) (present : flags.zeroExtend 64 &&& pgPresent ≠ 0)
    (straight : ∀ i ≤ k, Straight m.mem (pageOf base i) 3 pml4)
    (hmap : vmmMapPageIn m1 pml4 (pageOf base k) (target k) flags = (true, m2)) :
    Mapped pml4 base target flags m (k + 1) m2 := by
  have hstraight := h.straight _ (straight k le_rfl)
  obtain ⟨hothers, hwf⟩ := map_keeps_others h.wellFormed hstraight hmap
  constructor
  · exact hwf
  · intro v hv
    exact (hothers v (h.straight v hv)).1
  · intro i hi hlast
    rcases Nat.lt_succ_iff_lt_or_eq.mp hi with hlt | rfl
    · have hi' := h.straight _ (straight i hlt.le)
      have hne := pageNumber_ne aligned hlt (by omega)
      exact ((hothers _ hi').2 hne).trans (h.entries i hlt (by omega))
    · exact map_writes_one_page h.wellFormed hstraight hmap present
  · intro v hv hne
    have hkept := h.others v hv (fun i hi => hne i (Nat.lt_succ_of_lt hi))
    exact ((hothers v (h.straight v hv)).2 (hne k (Nat.lt_succ_self k))).trans hkept

/-- The entry of a page is the one written last for it. -/
theorem Mapped.exists_last (h : Mapped pml4 base target flags m k m1)
    (aligned : base.toNat % 4096 = 0) {i : Nat} (hi : i < k) :
    ∃ j < k, k ≤ j + 2 ^ 36 ∧
      vmmVirtToPtEntry m1 pml4 (pageOf base i) = writtenEntry target flags j := by
  obtain ⟨j, hj, hlast, hmod⟩ : ∃ j < k, k ≤ j + 2 ^ 36 ∧ j % 2 ^ 36 = i % 2 ^ 36 :=
    ⟨i + 2 ^ 36 * ((k - 1 - i) / 2 ^ 36), by omega, by omega, by omega⟩
  have hsame : pageNumber (pageOf base i) = pageNumber (pageOf base j) := by
    apply BitVec.eq_of_toNat_eq
    rw [pageNumber_pageOf aligned, pageNumber_pageOf aligned]
    omega
  exact ⟨j, hj, hlast, (entry_eq_of_pageNumber hsame _ _).trans (h.entries j hj hlast)⟩

end Mapping

/-! ## The permissions of physical pages -/

section Physical

variable {pml4 phys user size pageFlags : BitVec 64} {m : Machine} {r : Run Machine}

/-- Unmapping the first pages of a range leaves none of them mapped. -/
theorem undoMapPhysical_clears {n i fuel : Nat} {calls : List (BitVec 64)} (bound : n < 2 ^ 52)
    (wf : WellFormed r.state pml4)
    (straight : ∀ j < n, Straight r.state.mem (pageOf user j) 3 pml4)
    (cleared : ∀ j < i, vmmVirtToPtEntry r.state pml4 (pageOf user j) = 0)
    (hcalls : r.calls = calls ++ pagesOf user i) (within : i ≤ n) (enough : n ≤ i + fuel) :
    ∃ r', undoMapPhysical (onAddressSpace pml4) user (BitVec.ofNat 64 n * vmPageSize) (fuel + 1)
        (BitVec.ofNat 64 i * vmPageSize) r = some r' ∧ r'.calls = calls ++ pagesOf user n ∧
      ∀ j < n, vmmVirtToPtEntry r'.state pml4 (pageOf user j) = 0 := by
  have hi := toNat_offset (k := i) (by omega)
  have hn := toNat_offset bound
  induction fuel generalizing i r with
  | zero =>
    obtain rfl : i = n := by omega
    exact ⟨r, if_neg (BitVec.lt_irrefl _), hcalls, cleared⟩
  | succ fuel ih =>
    by_cases hdone : i = n
    · subst hdone
      exact ⟨r, if_neg (BitVec.lt_irrefl _), hcalls, cleared⟩
    · have hlt : BitVec.ofNat 64 i * vmPageSize < BitVec.ofNat 64 n * vmPageSize := by
        rw [BitVec.lt_def, hi, hn]
        omega
      obtain ⟨frame, m1, hunmap⟩ : ∃ frame m1,
          vmmUnmapPageIn r.state pml4 (pageOf user i) = (frame, m1) := ⟨_, _, rfl⟩
      obtain ⟨-, hzero, hothers, hwf⟩ := unmap_clears_one_page wf (straight i (by omega)) hunmap
      have hcleared : ∀ j < i + 1, vmmVirtToPtEntry m1 pml4 (pageOf user j) = 0 := by
        intro j hj
        by_cases hsame : pageNumber (pageOf user j) = pageNumber (pageOf user i)
        · exact (entry_eq_of_pageNumber hsame _ _).trans hzero
        · obtain rfl | hjlt : j = i ∨ j < i := by omega
          · exact absurd rfl hsame
          · exact ((hothers _ (straight j (by omega))).2 hsame).trans (cleared j hjlt)
      have hrun : undoMapPhysical (onAddressSpace pml4) user (BitVec.ofNat 64 n * vmPageSize)
          (fuel + 1 + 1) (BitVec.ofNat 64 i * vmPageSize) r =
          undoMapPhysical (onAddressSpace pml4) user (BitVec.ofNat 64 n * vmPageSize) (fuel + 1)
            (BitVec.ofNat 64 (i + 1) * vmPageSize)
            { state := m1, calls := r.calls ++ [pageOf user i] } := by
        rw [undoMapPhysical, if_pos hlt, offset_succ, vmmUnmapPage]
        show undoMapPhysical _ _ _ _ _
          ⟨(vmmUnmapPageIn r.state pml4 (pageOf user i)).2, _⟩ = _
        rw [hunmap]
        rfl
      have hcalls' : r.calls ++ [pageOf user i] = calls ++ pagesOf user (i + 1) := by
        rw [hcalls, pagesOf_succ, List.append_assoc]
      rw [hrun]
      exact ih hwf (fun j hj => (hothers _ (straight j hj)).1) hcleared hcalls' (by omega)
        (by omega) (toNat_offset (by omega))

/-- A call that failed at the `k`-th page: those before it were gone through a second time, and
are not mapped. -/
def Withdrawn (pml4 user : BitVec 64) (n : Nat) (r : Run Machine) : Prop :=
  ∃ k < n, r.calls = pagesOf user (k + 1) ++ pagesOf user k ∧
    ∀ i < k, vmmVirtToPtEntry r.state pml4 (pageOf user i) = 0

/-- What comes of mapping the `n` pages of a range. -/
def Outcome (pml4 phys user : BitVec 64) (flags : BitVec 16) (m : Machine) (n : Nat)
    (result : SyscallResult) (r : Run Machine) : Prop :=
  result = resultOk ∧ r.calls = pagesOf user n ∧
      Mapped pml4 user (pageOf phys) flags m n r.state ∨
    result = resultFailure ∧ Withdrawn pml4 user n r

theorem mapPhysicalLoop_outcome {n k fuel turns : Nat} (aligned : user.toNat % 4096 = 0)
    (hsize : size = BitVec.ofNat 64 n * vmPageSize) (bound : n < 2 ^ 52)
    (present : (pageFlags.setWidth 16).zeroExtend 64 &&& pgPresent ≠ 0)
    (straight : ∀ i < n, Straight m.mem (pageOf user i) 3 pml4)
    (mapped : Mapped pml4 user (pageOf phys) (pageFlags.setWidth 16) m k r.state)
    (hcalls : r.calls = pagesOf user k) (within : k ≤ n) (enough : n ≤ k + fuel)
    (turnsEnough : n ≤ turns) :
    ∃ result r', mapPhysicalLoop (onAddressSpace pml4) phys user size pageFlags (turns + 1)
        (fuel + 1) (BitVec.ofNat 64 k * vmPageSize) r = some (result, r') ∧
      Outcome pml4 phys user (pageFlags.setWidth 16) m n result r' := by
  have hn := toNat_offset bound
  subst hsize
  induction fuel generalizing k r with
  | zero =>
    obtain rfl : k = n := by omega
    exact ⟨resultOk, r, if_neg (BitVec.lt_irrefl _), Or.inl ⟨rfl, hcalls, mapped⟩⟩
  | succ fuel ih =>
    by_cases hdone : k = n
    · subst hdone
      exact ⟨resultOk, r, if_neg (BitVec.lt_irrefl _), Or.inl ⟨rfl, hcalls, mapped⟩⟩
    · have hlt : BitVec.ofNat 64 k * vmPageSize < BitVec.ofNat 64 n * vmPageSize := by
        rw [BitVec.lt_def, toNat_offset (by omega), hn]
        omega
      obtain ⟨ok, m1, hmap⟩ : ∃ ok m1, vmmMapPageIn r.state pml4 (pageOf user k) (pageOf phys k)
          (pageFlags.setWidth 16) = (ok, m1) := ⟨_, _, rfl⟩
      have hcall : vmmMapPage (onAddressSpace pml4) r (user + BitVec.ofNat 64 k * vmPageSize)
          (phys + BitVec.ofNat 64 k * vmPageSize) (pageFlags.setWidth 16) =
          (ok, { state := m1, calls := r.calls ++ [pageOf user k] }) := by
        show ((vmmMapPageIn r.state pml4 (pageOf user k) (pageOf phys k) _).1, Run.mk
          (vmmMapPageIn r.state pml4 (pageOf user k) (pageOf phys k) _).2 _) = _
        rw [hmap]
        rfl
      have hcalls' : r.calls ++ [pageOf user k] = pagesOf user (k + 1) := by
        rw [hcalls, pagesOf_succ]
      rw [mapPhysicalLoop, if_pos hlt, hcall, hcalls']
      cases ok with
      | true =>
        have hnext := mapped.step aligned present (fun i hi => straight i (by omega)) hmap
        simp only [offset_succ]
        exact ih hnext rfl (by omega) (by omega)
      | false =>
        have hs := mapped.straight _ (straight k (by omega))
        obtain ⟨hwf, hkept⟩ := vmmMapPageIn_failed mapped.wellFormed hs hmap
        have hundo : ∃ r', undoMapPhysical (onAddressSpace pml4) user
            (BitVec.ofNat 64 k * vmPageSize) (turns + 1) (BitVec.ofNat 64 0 * vmPageSize)
            { state := m1, calls := pagesOf user (k + 1) } = some r' ∧
            r'.calls = pagesOf user (k + 1) ++ pagesOf user k ∧
            ∀ j < k, vmmVirtToPtEntry r'.state pml4 (pageOf user j) = 0 :=
          undoMapPhysical_clears (by omega) hwf
            (fun j hj => (hkept _ (mapped.straight _ (straight j (by omega)))).1)
            (fun j hj => absurd hj (Nat.not_lt_zero j)) (by simp [pagesOf]) (Nat.zero_le k)
            (by omega)
        obtain ⟨r', hundo, hagain, hcleared⟩ := hundo
        refine ⟨resultFailure, r', ?_, Or.inr ⟨rfl, k, by omega, hagain, hcleared⟩⟩
        simp only
        rw [show (0 : BitVec 64) = BitVec.ofNat 64 0 * vmPageSize from rfl, hundo]
        rfl

end Physical

/-- The arguments that `map_physical` takes. -/
def MapPhysicalAccepts (arg0 arg1 arg2 : BitVec 64) : Prop :=
  isUserAddress arg1 ∧ arg1 &&& 0xfff = 0 ∧ arg0 &&& 0xfff = 0 ∧ arg2 &&& 0xfff = 0 ∧
    isUserAddress (arg1 + arg2 - 1)

/-- `page_flags`, with all its 64 bits. -/
def physicalFlags (arg3 : BitVec 64) : BitVec 64 :=
  pgPresent ||| pgUser |||
    (if arg3 = 0 then 0
    else (if arg3 &&& 0x2 ≠ 0 then pgWrite else 0) |||
      (if arg3 &&& 0x4 = 0 then pgNoexec else 0) |||
      (if arg3 &&& 0x8 ≠ 0 then pgNocache else 0))

theorem handleMapPhysical_accepted {σ : Type} (vmm : Vmm σ) (fuel : Nat) (s : σ)
    {arg0 arg1 arg2 : BitVec 64} (arg3 : BitVec 64)
    (accepted : MapPhysicalAccepts arg0 arg1 arg2) :
    handleMapPhysical vmm fuel s arg0 arg1 arg2 arg3 =
      mapPhysicalLoop vmm arg0 arg1 arg2 (physicalFlags arg3) fuel fuel 0
        { state := s, calls := [] } := by
  obtain ⟨hbase, h1, h0, h2, hend⟩ := accepted
  have haligned : ¬ (arg1 &&& 0xfff ≠ 0 ∨ arg0 &&& 0xfff ≠ 0 ∨ arg2 &&& 0xfff ≠ 0) := by
    simp only [h1, h0, h2, ne_eq, not_true, or_self, not_false_eq_true]
  simp only [handleMapPhysical, hbase, hend, not_true, if_false, if_neg haligned]
  rfl

/-- The sixteen bits of the flags that reach the entry. -/
theorem physicalFlags_narrow (arg3 : BitVec 64) :
    (((physicalFlags arg3).setWidth 16).zeroExtend 64 &&& pgPresent ≠ 0) ∧
    (((physicalFlags arg3).setWidth 16).zeroExtend 64 &&& pgWrite ≠ 0 ↔ arg3 &&& 0x2 ≠ 0) ∧
    ((physicalFlags arg3).setWidth 16).zeroExtend 64 &&& pgNoexec = 0 := by
  unfold physicalFlags
  by_cases hnone : arg3 = 0
  · subst hnone
    decide
  · rw [if_neg hnone]
    by_cases hwrite : arg3 &&& 0x2 ≠ 0
    · simp only [hwrite, if_true, ne_eq, not_false_eq_true, iff_true]
      split_ifs <;> decide
    · simp only [hwrite, if_false, iff_false]
      split_ifs <;> decide

/-- The part of an entry above the low twelve bits is the address, with the flags' own high bits. -/
theorem writtenEntry_and (target : Nat → BitVec 64) (flags : BitVec 16) (i : Nat)
    (mask : BitVec 64) :
    writtenEntry target flags i &&& mask =
      (target i &&& (0xfffffffffffff000 &&& mask)) ||| (flags.zeroExtend 64 &&& mask) := by
  rw [writtenEntry, vmmPhysAndFlagsToTableEntry, BitVec.and_or_distrib_right, BitVec.and_assoc]

/-- The permissions that the flags of the call ask for. -/
def Permitted (flags entry : BitVec 64) : Prop :=
  (entry &&& pgWrite ≠ 0 → flags &&& 0x2 ≠ 0) ∧
    (flags ≠ 0 → flags &&& 0x4 = 0 → entry &&& pgNoexec ≠ 0)

/-- Only the address can set the no-execute bit of an entry: the flags lose it on their way. -/
theorem permitted_writtenEntry_iff (arg0 arg3 : BitVec 64) (i : Nat) :
    Permitted arg3 (writtenEntry (pageOf arg0) ((physicalFlags arg3).setWidth 16) i) ↔
      arg3 = 0 ∨ arg3 &&& 0x4 ≠ 0 ∨ pageOf arg0 i &&& pgNoexec ≠ 0 := by
  obtain ⟨-, hwrite, hnoexec⟩ := physicalFlags_narrow arg3
  have hmask : (0xfffffffffffff000 : BitVec 64) &&& pgWrite = 0#64 := by decide
  have hhigh : (0xfffffffffffff000 : BitVec 64) &&& pgNoexec = pgNoexec := by decide
  have hw : writtenEntry (pageOf arg0) ((physicalFlags arg3).setWidth 16) i &&& pgWrite =
      ((physicalFlags arg3).setWidth 16).zeroExtend 64 &&& pgWrite := by
    rw [writtenEntry_and, hmask, BitVec.and_zero, BitVec.zero_or]
  have hx : writtenEntry (pageOf arg0) ((physicalFlags arg3).setWidth 16) i &&& pgNoexec =
      pageOf arg0 i &&& pgNoexec := by
    rw [writtenEntry_and, hhigh, hnoexec]
    exact BitVec.or_zero
  rw [Permitted, hw, hx]
  constructor
  · rintro ⟨-, h⟩
    by_cases hnone : arg3 = 0
    · exact Or.inl hnone
    · by_cases hexec : arg3 &&& 0x4 = 0
      · exact Or.inr (Or.inr (h hnone hexec))
      · exact Or.inr (Or.inl hexec)
  · intro h
    refine ⟨hwrite.mp, fun hnone hexec => ?_⟩
    rcases h with h | h | h
    · exact absurd h hnone
    · exact absurd hexec h
    · exact h

/-- All pages of a range have the permissions that were asked for. -/
def AllPermitted (pml4 base flags : BitVec 64) (n : Nat) (m : Machine) : Prop :=
  ∀ i < n, isPresent (vmmVirtToPtEntry m pml4 (pageOf base i)) ∧
    Permitted flags (vmmVirtToPtEntry m pml4 (pageOf base i))

theorem isPresent_writtenEntry (target : Nat → BitVec 64) {flags : BitVec 16}
    (present : flags.zeroExtend 64 &&& pgPresent ≠ 0) (i : Nat) :
    isPresent (writtenEntry target flags i) := by
  have hmask : (0xfffffffffffff000 : BitVec 64) &&& pgPresent = 0#64 := by decide
  rw [isPresent, writtenEntry_and, hmask, BitVec.and_zero, BitVec.zero_or]
  simpa using present

theorem Mapped.allPermitted_iff {pml4 arg0 arg1 arg3 : BitVec 64} {m m1 : Machine} {n : Nat}
    (h : Mapped pml4 arg1 (pageOf arg0) ((physicalFlags arg3).setWidth 16) m n m1)
    (aligned : arg1.toNat % 4096 = 0) :
    AllPermitted pml4 arg1 arg3 n m1 ↔
      arg3 = 0 ∨ arg3 &&& 0x4 ≠ 0 ∨
        ∀ i < n, n ≤ i + 2 ^ 36 → pageOf arg0 i &&& pgNoexec ≠ 0 := by
  have hpresent := (physicalFlags_narrow arg3).1
  constructor
  · intro hall
    by_cases hasked : arg3 = 0 ∨ arg3 &&& 0x4 ≠ 0
    · exact hasked.imp_right Or.inl
    · obtain ⟨hflags, hexec⟩ := not_or.mp hasked
      refine Or.inr (Or.inr (fun i hi hlast => ?_))
      have hentry := (hall i hi).2
      rw [h.entries i hi hlast, permitted_writtenEntry_iff] at hentry
      exact (hentry.resolve_left hflags).resolve_left hexec
  · intro hasked i hi
    obtain ⟨j, hj, hlast, hentry⟩ := h.exists_last aligned hi
    rw [hentry, permitted_writtenEntry_iff]
    refine ⟨isPresent_writtenEntry _ hpresent j, ?_⟩
    exact hasked.imp_right (Or.imp_right fun hbit => hbit j hj hlast)

/-- On an address space without large pages in the range, `map_physical` returns. If it succeeds,
the pages it mapped have the permissions asked for only where no-execute is not asked for, or where
the physical addresses themselves carry its bit (in a range that goes around, a later page takes
the place of an earlier one). If it fails, the pages it mapped are unmapped. -/
theorem handleMapPhysical_permits_iff {pml4 arg0 arg1 arg2 : BitVec 64} (arg3 : BitVec 64)
    {m : Machine} (accepted : MapPhysicalAccepts arg0 arg1 arg2) (wf : WellFormed m pml4)
    (straight : ∀ i < arg2.toNat / 4096, Straight m.mem (pageOf arg1 i) 3 pml4) :
    ∃ fuel result r,
      handleMapPhysical (onAddressSpace pml4) fuel m arg0 arg1 arg2 arg3 = some (result, r) ∧
      (result = resultOk ∧ r.calls = pagesOf arg1 (arg2.toNat / 4096) ∧
        (AllPermitted pml4 arg1 arg3 (arg2.toNat / 4096) r.state ↔
          arg3 = 0 ∨ arg3 &&& 0x4 ≠ 0 ∨ ∀ i < arg2.toNat / 4096, arg2.toNat / 4096 ≤ i + 2 ^ 36 →
            pageOf arg0 i &&& pgNoexec ≠ 0) ∨
      result = resultFailure ∧ Withdrawn pml4 arg1 (arg2.toNat / 4096) r) := by
  have haligned : arg1.toNat % 4096 = 0 := (Masks.and_low_eq_zero_iff (k := 12) rfl).mp accepted.2.1
  have hmod : arg2.toNat % 4096 = 0 :=
    (Masks.and_low_eq_zero_iff (k := 12) rfl).mp accepted.2.2.2.1
  have hbound : arg2.toNat / 4096 < 2 ^ 52 := by
    have hlt := arg2.isLt
    omega
  have hsize : arg2 = BitVec.ofNat 64 (arg2.toNat / 4096) * vmPageSize := by
    apply BitVec.eq_of_toNat_eq
    rw [toNat_offset hbound]
    omega
  have hrun : ∃ result r, mapPhysicalLoop (onAddressSpace pml4) arg0 arg1 arg2 (physicalFlags arg3)
      (arg2.toNat / 4096 + 1) (arg2.toNat / 4096 + 1) (BitVec.ofNat 64 0 * vmPageSize)
      { state := m, calls := [] } = some (result, r) ∧
      Outcome pml4 arg0 arg1 ((physicalFlags arg3).setWidth 16) m (arg2.toNat / 4096) result r :=
    mapPhysicalLoop_outcome haligned hsize hbound (physicalFlags_narrow arg3).1 straight
      (Mapped.start wf) rfl (Nat.zero_le _) (by omega) le_rfl
  obtain ⟨result, r, hloop, houtcome⟩ := hrun
  refine ⟨arg2.toNat / 4096 + 1, result, r, ?_, ?_⟩
  · rw [handleMapPhysical_accepted _ _ _ _ accepted]
    exact hloop
  · rcases houtcome with ⟨hok, hcalls, hmapped⟩ | hfailed
    · exact Or.inl ⟨hok, hcalls, hmapped.allPermitted_iff haligned⟩
    · exact Or.inr hfailed

theorem straight_emptyTables (v : BitVec 64) : Straight emptyTables.mem v 3 0x1000 :=
  (empty_walk rfl v).1

theorem mapPhysicalAccepts_page : MapPhysicalAccepts 0x8000 0x400000 0x1000 := by
  unfold MapPhysicalAccepts
  decide

/-- One page, readable and executable. -/
theorem handleMapPhysical_permits_iff_executable :
    ∃ fuel result r, handleMapPhysical (onAddressSpace 0x1000) fuel emptyTables 0x8000 0x400000
        0x1000 0x5 = some (result, r) ∧
      (result = resultOk ∧ r.calls = [0x400000] ∧ AllPermitted 0x1000 0x400000 0x5 1 r.state ∨
        result = resultFailure ∧ Withdrawn 0x1000 0x400000 1 r) := by
  obtain ⟨fuel, result, r, hrun, houtcome⟩ := handleMapPhysical_permits_iff 0x5
    mapPhysicalAccepts_page emptyTables_wellFormed (fun i _ => straight_emptyTables _)
  refine ⟨fuel, result, r, hrun, ?_⟩
  rcases houtcome with ⟨hok, hcalls, hiff⟩ | hfailed
  · exact Or.inl ⟨hok, hcalls, hiff.mpr (Or.inr (Or.inl (by decide)))⟩
  · exact Or.inr hfailed

/-- One page, for reading only: the no-execute bit of its flags does not fit into sixteen bits. -/
theorem noexec_is_lost :
    MapPhysicalAccepts 0x8000 0x400000 0x1000 ∧
    ∃ r, handleMapPhysical (onAddressSpace 0x1000) 2 emptyTables 0x8000 0x400000 0x1000 0x1 =
        some (resultOk, r) ∧
      vmmVirtToPtEntry r.state 0x1000 0x400000 = 0x8005 ∧ ¬ Permitted 0x1 0x8005 := by
  refine ⟨mapPhysicalAccepts_page, _, rfl, by decide, ?_⟩
  rintro ⟨-, hnoexec⟩
  exact hnoexec (by decide) (by decide) (by decide)

end MapRuns
