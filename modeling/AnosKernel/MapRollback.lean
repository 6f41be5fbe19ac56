import AnosKernel.TablePaths
import AnosKernel.MapRuns

/-!
# A mapping that fails half way

What `handle_map_virtual` of `kernel/syscalls.c` leaves when `vmm_map_page` fails within the range.
Translations are compared for all addresses, those under large pages included.
-/

namespace MapRollback

open PageAlloc VmMapper TableTree LargePages TablePaths MapSyscalls MapRuns

/-! ## Translations -/

/-- What maps an address, if anything does: the entry, and how far it is above the page tables. -/
def translate (mem : BitVec 64 → Fin 512 → BitVec 64) (v : BitVec 64) :
    Nat → BitVec 64 → Option (Nat × BitVec 64)
  | 0, t =>
    let e := mem t (vmmVirtToTableIndex v 1)
    if isPresent e then some (0, e) else none
  | n + 1, t =>
    let e := mem t (vmmVirtToTableIndex v (n + 2))
    if isPresent e then
      if isPagesizeLeaf e then some (n + 1, e) else translate mem v n (vmmTableEntryToPhys e)
    else none

section Walks

variable {mem mem' : BitVec 64 → Fin 512 → BitVec 64} {v v' t pt : BitVec 64} {n l : Nat}
  {e : BitVec 64}

theorem ne_zero_of_isPresent (h : isPresent e) : e ≠ 0 := by
  rintro rfl
  exact not_isPresent_zero h

theorem translate_absent (h : ¬ isPresent (mem t (vmmVirtToTableIndex v (n + 2)))) :
    translate mem v (n + 1) t = none :=
  if_neg h

theorem translate_down {c : BitVec 64}
    (h : down (mem t (vmmVirtToTableIndex v (n + 2))) = some c) :
    translate mem v (n + 1) t = translate mem v n c := by
  obtain ⟨hpresent, hsmall, rfl⟩ := down_eq_some.mp h
  exact (if_pos hpresent).trans (if_neg hsmall)

theorem translate_leaf (hpresent : isPresent (mem t (vmmVirtToTableIndex v (n + 2))))
    (hleaf : isPagesizeLeaf (mem t (vmmVirtToTableIndex v (n + 2)))) :
    translate mem v (n + 1) t = some (n + 1, mem t (vmmVirtToTableIndex v (n + 2))) :=
  (if_pos hpresent).trans (if_pos hleaf)

/-- On a way without large pages the walk of `vmm_virt_to_pt_entry` finds what maps an address. -/
theorem translate_straight (h : Straight mem v n t) :
    translate mem v n t = if leaf mem v n t = 0 then none else some (0, leaf mem v n t) := by
  induction n generalizing t with
  | zero =>
    by_cases hpresent : isPresent (mem t (vmmVirtToTableIndex v 1))
    · have hne := ne_zero_of_isPresent hpresent
      simp only [translate, leaf, if_pos hpresent, if_neg hne]
    · simp only [translate, leaf, if_neg hpresent, if_true]
  | succ n ih =>
    rcases h.cases with ⟨c, hc, hrest, hleaf⟩ | ⟨habsent, hleaf⟩
    · rw [translate_down hc, ih hrest, hleaf]
    · rw [translate_absent habsent, hleaf, if_pos rfl]

/-- On any other way there is a large page. -/
theorem translate_large (h : ¬ Straight mem v n t) :
    ∃ l e, translate mem v n t = some (l + 1, e) := by
  induction n generalizing t with
  | zero => exact absurd trivial h
  | succ n ih =>
    by_cases hpresent : isPresent (mem t (vmmVirtToTableIndex v (n + 2)))
    · by_cases hleaf : isPagesizeLeaf (mem t (vmmVirtToTableIndex v (n + 2)))
      · exact ⟨n, _, translate_leaf hpresent hleaf⟩
      · have hdown := down_eq_some.mpr ⟨hpresent, hleaf, rfl⟩
        obtain ⟨l, e, hle⟩ := ih (fun hrest => h (Straight.of_down hdown hrest).1)
        exact ⟨l, e, (translate_down hdown).trans hle⟩
    · exact absurd (Straight.of_absent hpresent).1 h

/-- The three ways a step of a translation can go. -/
theorem translate_cases (h : translate mem v (n + 1) t = some (l, e)) :
    isPresent (mem t (vmmVirtToTableIndex v (n + 2))) ∧
      (isPagesizeLeaf (mem t (vmmVirtToTableIndex v (n + 2))) ∧ l = n + 1 ∧
          mem t (vmmVirtToTableIndex v (n + 2)) = e ∨
        ∃ c, down (mem t (vmmVirtToTableIndex v (n + 2))) = some c ∧
          translate mem v n c = some (l, e)) := by
  by_cases hpresent : isPresent (mem t (vmmVirtToTableIndex v (n + 2)))
  · refine ⟨hpresent, ?_⟩
    by_cases hleaf : isPagesizeLeaf (mem t (vmmVirtToTableIndex v (n + 2)))
    · rw [translate_leaf hpresent hleaf] at h
      simp only [Option.some.injEq, Prod.mk.injEq] at h
      exact Or.inl ⟨hleaf, h.1.symm, h.2⟩
    · have hdown := down_eq_some.mpr ⟨hpresent, hleaf, rfl⟩
      exact Or.inr ⟨_, hdown, (translate_down hdown).symm.trans h⟩
  · rw [translate_absent hpresent] at h
    cases h

/-! ## Large pages stay -/

theorem translate_large_keeps {P : BitVec 64 → Prop} (keeps : KeepsPresent P mem mem')
    (members : ∀ f, Member down mem n t f → P f) (h : translate mem v n t = some (l + 1, e)) :
    translate mem' v n t = some (l + 1, e) := by
  induction n generalizing t with
  | zero =>
    simp only [translate] at h
    split_ifs at h
    cases h
  | succ n ih =>
    obtain ⟨hpresent, hcase⟩ := translate_cases h
    obtain ⟨hpresent', hleaf', hphys', hsame'⟩ := keeps t (members t (member_self _ _)) _ hpresent
    rcases hcase with ⟨hleaf, hl, rfl⟩ | ⟨c, hc, hrest⟩
    · rw [translate_leaf hpresent' (hleaf'.trans hleaf), hsame' hleaf, hl]
    · obtain ⟨-, hsmall, hphys⟩ := down_eq_some.mp hc
      have hdown : down (mem' t (vmmVirtToTableIndex v (n + 2))) = some c :=
        down_eq_some.mpr ⟨hpresent', by rwa [hleaf'], hphys'.trans hphys⟩
      rw [translate_down hdown]
      exact ih (fun f hf => members f (hf.child hc)) hrest

/-- A write to a page table leaves the large pages alone. -/
theorem translate_large_setEntry (tree : Tree down mem n t) (leads : Leads mem v' pt n t)
    (i : Fin 512) (entry : BitVec 64) (h : translate mem v n t = some (l + 1, e)) :
    translate (setEntry mem pt i entry) v n t = some (l + 1, e) := by
  induction n generalizing t with
  | zero =>
    simp only [translate] at h
    split_ifs at h
    cases h
  | succ n ih =>
    obtain ⟨c, hc, hrest⟩ := leads
    obtain ⟨hsub, habove⟩ := tree.1 _ _ hc
    have ht : setEntry mem pt i entry t = mem t := by
      apply setEntry_table
      rintro rfl
      exact habove hrest.member
    obtain ⟨hpresent, hcase⟩ := translate_cases h
    rcases hcase with ⟨hleaf, hl, rfl⟩ | ⟨d, hd, hbelow⟩
    · rw [← ht] at hpresent hleaf
      rw [translate_leaf hpresent hleaf, hl, ht]
    · have hd' : down (setEntry mem pt i entry t (vmmVirtToTableIndex v (n + 2))) = some d := by
        rwa [ht]
      rw [translate_down hd']
      by_cases hindex : vmmVirtToTableIndex v (n + 2) = vmmVirtToTableIndex v' (n + 2)
      · rw [hindex] at hd
        obtain rfl := Option.some.inj (hd.symm.trans hc)
        exact ih hsub hrest hbelow
      · -- the page table is under another entry
        have hapart : ∀ f, Member down mem n d f → f ≠ pt := by
          rintro f hf rfl
          exact tree.2 _ _ _ _ hindex hd hc f hf hrest.member
        exact translate_large_keeps (KeepsPresent.of_same (fun f hf => setEntry_table i entry hf))
          hapart hbelow

end Walks

/-! ## One call of the mapper -/

section Calls

variable {pml4 v page frame : BitVec 64} {flags : BitVec 16} {ok : Bool} {m m' m'' : Machine}

/-- Addresses under large pages are mapped as before. -/
def LargeKept (pml4 : BitVec 64) (m m' : Machine) : Prop :=
  ∀ v l e, translate m.mem v 3 pml4 = some (l + 1, e) →
    translate m'.mem v 3 pml4 = some (l + 1, e)

theorem map_largeKept (wf : WellFormed m pml4) (straight : Straight m.mem v 3 pml4)
    (h : vmmMapPageIn m pml4 v page flags = (ok, m')) : LargeKept pml4 m m' := by
  have hstraight := straight_align.mpr straight
  obtain ⟨taken, hensured⟩ := ensureTablesLoop_ensured (v &&& 0xfffffffffffff000) flags wf.tree
    wf.supplies hstraight
  have hkeeps := ensureTablesLoop_keepsPresent flags (Stocked.of_wellFormed wf)
    (fun f hf hfree => wf.supplies.apart f hfree hf) hstraight
  have hloop : VmMapper.ensureTables m pml4 (v &&& 0xfffffffffffff000) 1 flags =
      VmMapper.ensureTablesLoop (v &&& 0xfffffffffffff000) flags 3 pml4 m := rfl
  obtain ⟨result, m1, hrun⟩ : ∃ result m1, VmMapper.ensureTablesLoop (v &&& 0xfffffffffffff000)
      flags 3 pml4 m = (result, m1) := ⟨_, _, rfl⟩
  rw [hrun] at hensured hkeeps hloop
  have hkept : LargeKept pml4 m m1 := fun v' l e hlarge =>
    translate_large_keeps hkeeps (fun f hf hfree => wf.supplies.apart f hfree hf) hlarge
  cases result with
  | none =>
    simp only [vmmMapPageIn, hloop, Prod.mk.injEq] at h
    exact h.2 ▸ hkept
  | some pt =>
    simp only [vmmMapPageIn, hloop, Prod.mk.injEq] at h
    obtain ⟨-, rfl⟩ := h
    intro v' l e hlarge
    exact translate_large_setEntry hensured.tree (hensured.leads pt rfl) _ _ (hkept v' l e hlarge)

theorem unmap_largeKept (wf : WellFormed m pml4) (straight : Straight m.mem v 3 pml4)
    (h : vmmUnmapPageIn m pml4 v = (frame, m')) : LargeKept pml4 m m' := by
  obtain ⟨-, ⟨-, rfl⟩ | ⟨-, pt, hleads, hmem⟩⟩ := vmmUnmapPageIn_cases straight h
  · exact fun _ _ _ hlarge => hlarge
  · intro v' l e hlarge
    rw [hmem]
    exact translate_large_setEntry wf.tree hleads _ _ hlarge

/-- Where mapping a page fails, no page was mapped. -/
theorem map_failed_absent (straight : Straight m.mem v 3 pml4)
    (h : vmmMapPageIn m pml4 v page flags = (false, m')) : vmmVirtToPtEntry m pml4 v = 0 := by
  by_contra hmapped
  rw [vmmVirtToPtEntry_eq_leaf] at hmapped
  obtain ⟨pt, hleads⟩ := exists_leads_of_mapped straight hmapped
  have hok := vmmMapPageIn_leads hleads page flags
  rw [h] at hok
  cases hok

/-- Every address is mapped as before. -/
structure Kept (pml4 : BitVec 64) (m m' : Machine) : Prop where
  wellFormed : WellFormed m' pml4
  walks : ∀ v, Straight m.mem v 3 pml4 →
    Straight m'.mem v 3 pml4 ∧ vmmVirtToPtEntry m' pml4 v = vmmVirtToPtEntry m pml4 v
  large : LargeKept pml4 m m'

theorem Kept.refl (wf : WellFormed m pml4) : Kept pml4 m m where
  wellFormed := wf
  walks := fun _ h => ⟨h, rfl⟩
  large := fun _ _ _ h => h

theorem Kept.trans (h : Kept pml4 m m') (h' : Kept pml4 m' m'') : Kept pml4 m m'' where
  wellFormed := h'.wellFormed
  walks := by
    intro v hv
    obtain ⟨hs, hentry⟩ := h.walks v hv
    obtain ⟨hs', hentry'⟩ := h'.walks v hs
    exact ⟨hs', hentry'.trans hentry⟩
  large := fun v l e hlarge => h'.large v l e (h.large v l e hlarge)

theorem map_failed_kept (wf : WellFormed m pml4) (straight : Straight m.mem v 3 pml4)
    (h : vmmMapPageIn m pml4 v page flags = (false, m')) : Kept pml4 m m' := by
  obtain ⟨hwf, hwalks⟩ := vmmMapPageIn_failed wf straight h
  exact ⟨hwf, hwalks, map_largeKept wf straight h⟩

/-- Unmapping a page that is not mapped. -/
theorem unmap_absent_kept (wf : WellFormed m pml4) (straight : Straight m.mem v 3 pml4)
    (absent : vmmVirtToPtEntry m pml4 v = 0)
    (h : vmmUnmapPageIn m pml4 v = (frame, m')) : Kept pml4 m m' := by
  obtain ⟨-, hzero, hothers, hwf⟩ := unmap_clears_one_page wf straight h
  refine ⟨hwf, fun u hu => ⟨(hothers u hu).1, ?_⟩, unmap_largeKept wf straight h⟩
  by_cases hsame : pageNumber u = pageNumber v
  · rw [entry_eq_of_pageNumber hsame, entry_eq_of_pageNumber hsame, hzero, absent]
  · exact (hothers u hu).2 hsame

end Calls

/-! ## The range of a call -/

section Ranges

variable {pml4 base zeroPage vmmFlags : BitVec 64} {m : Machine} {r : Run Machine} {n k : Nat}

theorem pageOf_succ (base : BitVec 64) (i : Nat) :
    pageOf base i + vmPageSize = pageOf base (i + 1) := by
  rw [pageOf, pageOf, BitVec.add_assoc, offset_succ]

theorem pageOf_lt_iff (fits : base.toNat + n * 4096 < 2 ^ 47) {i j : Nat} (hi : i ≤ n)
    (hj : j ≤ n) : pageOf base i < pageOf base j ↔ i < j := by
  have htoNat : ∀ a ≤ n, (pageOf base a).toNat = base.toNat + a * 4096 := by
    intro a ha
    have hle := Nat.add_le_add_left (Nat.mul_le_mul_right 4096 ha) base.toNat
    exact toNat_page (hle.trans_lt (fits.trans (by norm_num)))
  rw [BitVec.lt_def, htoNat i hi, htoNat j hj]
  omega

/-- The undoing loop unmaps the page that failed, which is not mapped, once for each page before
it. -/
theorem undoMapVirtual_kept {i fuel : Nat} (fits : base.toNat + n * 4096 < 2 ^ 47) (hk : k < n)
    (wf : WellFormed r.state pml4) (straight : Straight r.state.mem (pageOf base k) 3 pml4)
    (absent : vmmVirtToPtEntry r.state pml4 (pageOf base k) = 0)
    (within : i ≤ k) (enough : k ≤ i + fuel) :
    ∃ r', undoMapVirtual (onAddressSpace pml4) (pageOf base k) (fuel + 1) (pageOf base i) r =
        some r' ∧
      r'.calls = r.calls ++ List.replicate (k - i) (pageOf base k) ∧
      Kept pml4 r.state r'.state := by
  induction fuel generalizing i r with
  | zero =>
    obtain rfl : i = k := by omega
    exact ⟨r, if_neg (BitVec.lt_irrefl _), by simp, Kept.refl wf⟩
  | succ fuel ih =>
    by_cases hdone : i = k
    · subst hdone
      exact ⟨r, if_neg (BitVec.lt_irrefl _), by simp, Kept.refl wf⟩
    · have hlt : pageOf base i < pageOf base k :=
        (pageOf_lt_iff fits (by omega) hk.le).mpr (by omega)
      obtain ⟨frame, m1, hunmap⟩ : ∃ frame m1,
          vmmUnmapPageIn r.state pml4 (pageOf base k) = (frame, m1) := ⟨_, _, rfl⟩
      have hkept := unmap_absent_kept wf straight absent hunmap
      obtain ⟨hs, hentry⟩ := hkept.walks _ straight
      have hcall : vmmUnmapPage (onAddressSpace pml4) r (pageOf base k) =
          { state := m1, calls := r.calls ++ [pageOf base k] } := by
        show Run.mk (vmmUnmapPageIn r.state pml4 (pageOf base k)).2 _ = _
        rw [hunmap]
      rw [undoMapVirtual, if_pos hlt, hcall, pageOf_succ]
      obtain ⟨r', hrun, hcalls, hkept'⟩ := ih (i := i + 1)
        (r := { state := m1, calls := r.calls ++ [pageOf base k] }) hkept.wellFormed hs
        (hentry.trans absent) (by omega) (by omega)
      refine ⟨r', hrun, ?_, hkept.trans hkept'⟩
      have hcount : k - i = k - (i + 1) + 1 := by omega
      rw [hcalls, hcount, List.replicate_succ, List.append_assoc]
      rfl

theorem mapped_kept {target : Nat → BitVec 64} {flags : BitVec 16} {m1 m2 : Machine}
    (h : Mapped pml4 base target flags m k m1)
    (straight : ∀ i < k, Straight m.mem (pageOf base i) 3 pml4) (kept : Kept pml4 m1 m2) :
    Mapped pml4 base target flags m k m2 := by
  constructor
  · exact kept.wellFormed
  · intro v hv
    exact (kept.walks v (h.straight v hv)).1
  · intro i hi hlast
    exact (kept.walks _ (h.straight _ (straight i hi))).2.trans (h.entries i hi hlast)
  · intro v hv hne
    exact (kept.walks v (h.straight v hv)).2.trans (h.others v hv hne)

/-- What is left where `vmm_map_page` failed on the `k`-th page: the pages before it are mapped. -/
structure FailedAt (pml4 base zeroPage vmmFlags : BitVec 64) (m : Machine) (k : Nat)
    (r : Run Machine) : Prop where
  calls : r.calls = pagesOf base (k + 1) ++ List.replicate k (pageOf base k)
  mapped : Mapped pml4 base (fun _ => zeroPage) (vmmFlags.setWidth 16) m k r.state
  large : LargeKept pml4 m r.state

theorem mapVirtualLoop_outcome {fuel turns : Nat} (aligned : base.toNat % 4096 = 0)
    (fits : base.toNat + n * 4096 < 2 ^ 47)
    (present : (vmmFlags.setWidth 16).zeroExtend 64 &&& pgPresent ≠ 0)
    (straight : ∀ i < n, Straight m.mem (pageOf base i) 3 pml4)
    (mapped : Mapped pml4 base (fun _ => zeroPage) (vmmFlags.setWidth 16) m k r.state)
    (large : LargeKept pml4 m r.state) (hcalls : r.calls = pagesOf base k)
    (within : k ≤ n) (enough : n ≤ k + fuel) (turnsEnough : n ≤ turns) :
    ∃ result r', mapVirtualLoop (onAddressSpace pml4) zeroPage base (pageOf base n) vmmFlags
        (turns + 1) (fuel + 1) (pageOf base k) r = some (result, r') ∧
      (result.type = .ok ∨ result = resultFailure ∧
        ∃ k < n, FailedAt pml4 base zeroPage vmmFlags m k r') := by
  induction fuel generalizing k r with
  | zero =>
    obtain rfl : k = n := by omega
    exact ⟨_, r, if_neg (BitVec.lt_irrefl _), Or.inl rfl⟩
  | succ fuel ih =>
    by_cases hdone : k = n
    · subst hdone
      exact ⟨_, r, if_neg (BitVec.lt_irrefl _), Or.inl rfl⟩
    · have hk : k < n := by omega
      have hlt : pageOf base k < pageOf base n := (pageOf_lt_iff fits within le_rfl).mpr hk
      have hs := mapped.straight _ (straight k hk)
      obtain ⟨ok, m1, hmap⟩ : ∃ ok m1, vmmMapPageIn r.state pml4 (pageOf base k) zeroPage
          (vmmFlags.setWidth 16) = (ok, m1) := ⟨_, _, rfl⟩
      have hcall : vmmMapPage (onAddressSpace pml4) r (pageOf base k) zeroPage
          (vmmFlags.setWidth 16) = (ok, { state := m1, calls := pagesOf base (k + 1) }) := by
        rw [pagesOf_succ, ← hcalls]
        show ((vmmMapPageIn r.state pml4 (pageOf base k) zeroPage _).1, Run.mk
          (vmmMapPageIn r.state pml4 (pageOf base k) zeroPage _).2 _) = _
        rw [hmap]
      have hlarge : LargeKept pml4 m m1 := fun v l e h =>
        map_largeKept mapped.wellFormed hs hmap v l e (large v l e h)
      rw [mapVirtualLoop, if_pos hlt, hcall]
      cases ok with
      | true =>
        have hnext := mapped.step aligned present (fun i hi => straight i (by omega)) hmap
        simp only [pageOf_succ]
        exact ih hnext hlarge rfl (by omega) (by omega)
      | false =>
        have hkept := map_failed_kept mapped.wellFormed hs hmap
        have habsent := map_failed_absent hs hmap
        obtain ⟨hs', hentry⟩ := hkept.walks _ hs
        have hundo : ∃ r', undoMapVirtual (onAddressSpace pml4) (pageOf base k) (turns + 1)
            (pageOf base 0) { state := m1, calls := pagesOf base (k + 1) } = some r' ∧
            r'.calls = pagesOf base (k + 1) ++ List.replicate (k - 0) (pageOf base k) ∧
            Kept pml4 m1 r'.state :=
          undoMapVirtual_kept fits hk hkept.wellFormed hs' (hentry.trans habsent) (Nat.zero_le k)
            (by omega)
        obtain ⟨r', hundo, hagain, hkept'⟩ := hundo
        have hbase : pageOf base 0 = base := by simp [pageOf]
        rw [hbase] at hundo
        refine ⟨resultFailure, r', ?_, Or.inr ⟨rfl, k, hk, hagain, ?_, ?_⟩⟩
        · simp only [hundo, Option.map_some]
        · exact mapped_kept mapped (fun i hi => straight i (by omega)) (hkept.trans hkept')
        · exact fun v l e h => hkept'.large v l e (hlarge v l e h)

/-- What a failed call leaves is what was there exactly if the pages it mapped were mapped to the
zero page, with the same flags, before. -/
theorem FailedAt.restored_iff (h : FailedAt pml4 base zeroPage vmmFlags m k r)
    (straight : ∀ i < k, Straight m.mem (pageOf base i) 3 pml4) (short : k ≤ 2 ^ 36) :
    (∀ v, translate r.state.mem v 3 pml4 = translate m.mem v 3 pml4) ↔
      ∀ i < k, vmmVirtToPtEntry m pml4 (pageOf base i) =
        vmmPhysAndFlagsToTableEntry zeroPage ((vmmFlags.setWidth 16).zeroExtend 64) := by
  have hentry : ∀ i < k, vmmVirtToPtEntry r.state pml4 (pageOf base i) =
      vmmPhysAndFlagsToTableEntry zeroPage ((vmmFlags.setWidth 16).zeroExtend 64) :=
    fun i hi => h.mapped.entries i hi (by omega)
  constructor
  · intro hsame i hi
    have hstraight := straight i hi
    have hleaf := hsame (pageOf base i)
    rw [translate_straight (h.mapped.straight _ hstraight), translate_straight hstraight,
      ← vmmVirtToPtEntry_eq_leaf, ← vmmVirtToPtEntry_eq_leaf] at hleaf
    rw [← hentry i hi]
    split_ifs at hleaf with hnew hold hold
    · rw [hnew, hold]
    · simpa using hleaf.symm
  · intro hsame v
    by_cases hstraight : Straight m.mem v 3 pml4
    · have hwalk : vmmVirtToPtEntry r.state pml4 v = vmmVirtToPtEntry m pml4 v := by
        by_cases hpage : ∃ i < k, pageNumber v = pageNumber (pageOf base i)
        · obtain ⟨i, hi, hpage⟩ := hpage
          rw [entry_eq_of_pageNumber hpage, entry_eq_of_pageNumber hpage, hentry i hi, hsame i hi]
        · exact h.mapped.others v hstraight (fun i hi heq => hpage ⟨i, hi, heq⟩)
      rw [vmmVirtToPtEntry_eq_leaf, vmmVirtToPtEntry_eq_leaf] at hwalk
      rw [translate_straight (h.mapped.straight v hstraight), translate_straight hstraight, hwalk]
    · obtain ⟨l, e, hlarge⟩ := translate_large hstraight
      rw [hlarge, h.large v l e hlarge]

end Ranges

/-! ## The system call -/

def virtualFlags (arg2 : BitVec 64) : BitVec 64 :=
  pgPresent ||| pgUser ||| (if arg2 &&& 0x2 ≠ 0 then pgCopyOnWrite else 0)

theorem virtualFlags_narrow (arg2 : BitVec 64) :
    ((virtualFlags arg2).setWidth 16).zeroExtend 64 = virtualFlags arg2 ∧
      virtualFlags arg2 &&& pgPresent ≠ 0 := by
  unfold virtualFlags
  split_ifs <;> decide

/-- The pages of a range whose end has not wrapped. -/
theorem exists_pages {base size : BitVec 64} (aligned : size.toNat % 4096 = 0)
    (user : isUserAddress (base + size)) (above : base < base + size) :
    ∃ n, n * 4096 = size.toNat ∧ base + size = pageOf base n ∧ base.toNat + n * 4096 < 2 ^ 47 := by
  have hend := isUserAddress_iff.mp user
  have habove : base.toNat < (base + size).toNat := above
  have hcount : size.toNat / 4096 * 4096 = size.toNat := by omega
  have hsum : (base + size).toNat = base.toNat + size.toNat := by bv_omega
  refine ⟨size.toNat / 4096, hcount, ?_, by omega⟩
  apply BitVec.eq_of_toNat_eq
  have hfits : base.toNat + size.toNat / 4096 * 4096 < 2 ^ 64 := by
    rw [hcount, ← hsum]
    exact (base + size).isLt
  rw [hsum, pageOf, toNat_page hfits, hcount]

/-- `map_virtual` returns; if it fails at the `k`-th page of its range, it gives back what was
mapped before exactly if the pages before that one were mapped to the zero page already, as it
maps them. -/
theorem handleMapVirtual_restores_iff {pml4 : BitVec 64} (zeroPage arg0 arg1 arg2 : BitVec 64)
    {m : Machine} (paged : UserPaged pml4 m) :
    ∃ fuel result r,
      handleMapVirtual (onAddressSpace pml4) zeroPage fuel m arg0 arg1 arg2 = some (result, r) ∧
      (result = resultFailure → ∃ k, k * 4096 < (pageAlign arg0).toNat ∧
        r.calls = pagesOf (pageAlign arg1) (k + 1) ++
          List.replicate k (pageOf (pageAlign arg1) k) ∧
        ((∀ v, translate r.state.mem v 3 pml4 = translate m.mem v 3 pml4) ↔
          ∀ i < k, vmmVirtToPtEntry m pml4 (pageOf (pageAlign arg1) i) =
            vmmPhysAndFlagsToTableEntry zeroPage (virtualFlags arg2))) := by
  have hnot : resultBadargs ≠ resultFailure := by decide
  by_cases hsize : arg0 = 0
  · exact ⟨0, resultBadargs, _, if_pos hsize, fun h => absurd h hnot⟩
  by_cases hbase : isUserAddress (pageAlign arg1)
  swap
  · refine ⟨0, resultBadargs, ⟨m, []⟩, ?_, fun h => absurd h hnot⟩
    simp only [handleMapVirtual, if_neg hsize, hbase, Bool.false_eq_true, not_false_eq_true,
      if_true]
  by_cases hend : isUserAddress (pageAlign arg1 + pageAlign arg0)
  swap
  · refine ⟨0, resultBadargs, ⟨m, []⟩, ?_, fun h => absurd h hnot⟩
    simp only [handleMapVirtual, if_neg hsize, hbase, hend, not_true, if_false,
      Bool.false_eq_true, not_false_eq_true, if_true]
  have hrun : ∀ fuel, handleMapVirtual (onAddressSpace pml4) zeroPage fuel m arg0 arg1 arg2 =
      mapVirtualLoop (onAddressSpace pml4) zeroPage (pageAlign arg1)
        (pageAlign arg1 + pageAlign arg0) (virtualFlags arg2) fuel fuel (pageAlign arg1)
        { state := m, calls := [] } := by
    intro fuel
    simp only [handleMapVirtual, if_neg hsize, hbase, hend, not_true, if_false]
    rfl
  by_cases habove : pageAlign arg1 < pageAlign arg1 + pageAlign arg0
  swap
  · -- an end that has wrapped is not above the base, and nothing is mapped
    refine ⟨1, _, _, (hrun 1).trans (if_neg habove), fun h => ?_⟩
    have htype : SyscallResultType.ok = SyscallResultType.failure := congrArg SyscallResult.type h
    exact absurd htype (by decide)
  have haligned := pageAlign_mod arg1
  obtain ⟨n, hcount, hlast, hfits⟩ := exists_pages (pageAlign_mod arg0) hend habove
  have huser : ∀ i < n, Straight m.mem (pageOf (pageAlign arg1) i) 3 pml4 := by
    intro i hi
    have hlt := (pageOf_lt_iff hfits hi.le le_rfl).mpr hi
    have hlt' : (pageOf (pageAlign arg1) i).toNat < (pageOf (pageAlign arg1) n).toNat := hlt
    rw [hlast] at hend
    exact paged.straight _ (isUserAddress_iff.mpr (hlt'.trans (isUserAddress_iff.mp hend)))
  obtain ⟨hnarrow, hpresent⟩ := virtualFlags_narrow arg2
  have hzero : pageOf (pageAlign arg1) 0 = pageAlign arg1 := by simp [pageOf]
  have hloop : ∃ result r, mapVirtualLoop (onAddressSpace pml4) zeroPage (pageAlign arg1)
      (pageOf (pageAlign arg1) n) (virtualFlags arg2) (n + 1) (n + 1) (pageOf (pageAlign arg1) 0)
      { state := m, calls := [] } = some (result, r) ∧
      (result.type = .ok ∨ result = resultFailure ∧
        ∃ k < n, FailedAt pml4 (pageAlign arg1) zeroPage (virtualFlags arg2) m k r) :=
    mapVirtualLoop_outcome haligned hfits (by rwa [hnarrow]) huser
      (Mapped.start paged.wellFormed) (fun _ _ _ h => h) rfl (Nat.zero_le n) (by omega) le_rfl
  obtain ⟨result, r, hloop, houtcome⟩ := hloop
  rw [hzero] at hloop
  refine ⟨n + 1, result, r, ?_, fun hfailed => ?_⟩
  · rw [hrun, hlast]
    exact hloop
  · rcases houtcome with hok | ⟨-, k, hk, hat⟩
    · rw [hfailed] at hok
      exact absurd hok (by decide)
    · refine ⟨k, ?_, hat.calls, ?_⟩
      · have hmul : k * 4096 < n * 4096 := Nat.mul_lt_mul_of_pos_right hk (by norm_num)
        exact hmul.trans_eq hcount
      · have hiff := hat.restored_iff (fun i hi => huser i (by omega)) (by omega)
        rwa [hnarrow] at hiff

/-- An empty top-level table at `0x1000`, and no memory. -/
def noMemory : Machine where
  mem := fun _ _ => 0
  region := { size := 0, free := 0, stack := [] }

theorem noMemory_paged : UserPaged 0x1000 noMemory := by
  refine ⟨wellFormed_empty rfl ?_ List.nodup_nil ?_ List.not_mem_nil,
    fun v _ => (empty_walk rfl v).1⟩
  · intro block hblock
    exact absurd hblock List.not_mem_nil
  · intro page hpage
    exact absurd hpage List.not_mem_nil

/-- A call for one page that fails gives everything back. -/
theorem handleMapVirtual_restores_iff_first :
    ∃ fuel result r,
      handleMapVirtual (onAddressSpace 0x1000) 0x9000 fuel noMemory 0x1000 0x400000 0x3 =
        some (result, r) ∧
      (result = resultFailure →
        ∀ v, translate r.state.mem v 3 0x1000 = translate noMemory.mem v 3 0x1000) := by
  obtain ⟨fuel, result, r, hrun, hfailed⟩ := handleMapVirtual_restores_iff 0x9000 0x1000 0x400000
    0x3 noMemory_paged
  refine ⟨fuel, result, r, hrun, fun hresult => ?_⟩
  obtain ⟨k, hk, -, hiff⟩ := hfailed hresult
  have hpage : (pageAlign 0x1000).toNat = 4096 := by decide
  apply hiff.mpr
  intro i hi
  omega

/-- Three tables are made for the page at `0x3ff000`, and there is none left for the next: the
first page stays mapped. -/
theorem failed_call_leaves_page :
    ∃ r, handleMapVirtual (onAddressSpace 0x1000) 0x9000 3 emptyTables 0x2000 0x3ff000 0x3 =
        some (resultFailure, r) ∧
      translate emptyTables.mem 0x3ff000 3 0x1000 = none ∧
      translate r.state.mem 0x3ff000 3 0x1000 = some (0, 0x9045) := by
  refine ⟨_, rfl, by decide, by decide⟩

end MapRollback
