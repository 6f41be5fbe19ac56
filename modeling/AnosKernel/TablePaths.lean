import AnosKernel.LargePages

/-!
# What a mapping touches

The entries and tables that `ensure_tables` of `kernel/arch/x86_64/vmm/vmmapper.c` writes to on the
way of an address: those along the way, which read as before, and pages that were free.
-/

namespace TablePaths

open PageAlloc VmMapper TableTree LargePages

section Walks

variable {mem mem' : BitVec 64 → Fin 512 → BitVec 64} {v t pt : BitVec 64} {n : Nat}

/-! ## Entries that were passed -/

theorem down_readsAs (same : ReadsAs x8664 mem mem') (f : BitVec 64) (j : Fin 512) :
    down (mem' f j) = down (mem f j) := by
  obtain ⟨hpresent, hleaf, hphys⟩ := same f j
  have hleaf' : isPagesizeLeaf (mem' f j) = isPagesizeLeaf (mem f j) := hleaf
  have hphys' : vmmTableEntryToPhys (mem' f j) = vmmTableEntryToPhys (mem f j) := hphys
  unfold down
  rw [hpresent, hleaf', hphys']

theorem member_readsAs (same : ReadsAs x8664 mem mem') {f : BitVec 64} :
    Member down mem' n t f ↔ Member down mem n t f := by
  induction n generalizing t with
  | zero => rfl
  | succ n ih => simp only [Member, down_readsAs same, ih]

theorem leads_readsAs (same : ReadsAs x8664 mem mem') :
    Leads mem' v pt n t ↔ Leads mem v pt n t := by
  induction n generalizing t with
  | zero => rfl
  | succ n ih => simp only [Leads, down_readsAs same, ih]

theorem straight_readsAs (same : ReadsAs x8664 mem mem') :
    Straight mem' v n t ↔ Straight mem v n t := by
  induction n generalizing t with
  | zero => rfl
  | succ n ih =>
    obtain ⟨hpresent, hleaf, hphys⟩ := same t (vmmVirtToTableIndex v (n + 2))
    have hleaf' : isPagesizeLeaf (mem' t (vmmVirtToTableIndex v (n + 2))) =
        isPagesizeLeaf (mem t (vmmVirtToTableIndex v (n + 2))) := hleaf
    have hphys' : vmmTableEntryToPhys (mem' t (vmmVirtToTableIndex v (n + 2))) =
        vmmTableEntryToPhys (mem t (vmmVirtToTableIndex v (n + 2))) := hphys
    simp only [Straight, hpresent, hleaf', hphys', ih]

/-- Entries of these tables that are present read as before, and those of large pages are
untouched. -/
def KeepsPresent (P : BitVec 64 → Prop) (mem mem' : BitVec 64 → Fin 512 → BitVec 64) : Prop :=
  ∀ f, P f → ∀ j, isPresent (mem f j) →
    isPresent (mem' f j) ∧ isPagesizeLeaf (mem' f j) = isPagesizeLeaf (mem f j) ∧
      vmmTableEntryToPhys (mem' f j) = vmmTableEntryToPhys (mem f j) ∧
      (isPagesizeLeaf (mem f j) → mem' f j = mem f j)

theorem KeepsPresent.of_same {P : BitVec 64 → Prop} (h : ∀ f, P f → mem' f = mem f) :
    KeepsPresent P mem mem' := by
  intro f hf j hpresent
  rw [h f hf]
  exact ⟨hpresent, rfl, rfl, fun _ => rfl⟩

theorem KeepsPresent.trans {P Q : BitVec 64 → Prop} {mem'' : BitVec 64 → Fin 512 → BitVec 64}
    (h : KeepsPresent P mem mem') (h' : KeepsPresent Q mem' mem'') (sub : ∀ f, P f → Q f) :
    KeepsPresent P mem mem'' := by
  intro f hf j hpresent
  obtain ⟨hpresent', hleaf', hphys', hsame'⟩ := h f hf j hpresent
  obtain ⟨hpresent'', hleaf'', hphys'', hsame''⟩ := h' f (sub f hf) j hpresent'
  refine ⟨hpresent'', hleaf''.trans hleaf', hphys''.trans hphys', fun hlarge => ?_⟩
  exact (hsame'' (hleaf'.trans hlarge)).trans (hsame' hlarge)

theorem KeepsPresent.down_eq {P : BitVec 64 → Prop} (h : KeepsPresent P mem mem') {f c : BitVec 64}
    (hf : P f) {j : Fin 512} (hc : down (mem f j) = some c) : down (mem' f j) = some c := by
  obtain ⟨hpresent, hsmall, hphys⟩ := down_eq_some.mp hc
  obtain ⟨hpresent', hleaf', hphys', -⟩ := h f hf j hpresent
  exact down_eq_some.mpr ⟨hpresent', by rwa [hleaf'], hphys'.trans hphys⟩

/-- An entry on the way that leads on gets more flags and reads as before. -/
theorem keepsPresent_visit (flags : BitVec 16) {i : Fin 512} (small : ¬ isPagesizeLeaf (mem t i))
    (P : BitVec 64 → Prop) :
    KeepsPresent P mem (setEntry mem t i (visitX8664 flags (mem t i))) := by
  intro f _ j hpresent
  obtain ⟨hpresent', hleaf', hphys'⟩ := (keeps_x8664 flags).readsAs mem t i f j
  refine ⟨by rwa [hpresent'], hleaf', hphys', fun hlarge => ?_⟩
  by_cases hf : f = t
  · subst hf
    apply setEntry_index
    rintro rfl
    exact small hlarge
  · exact congrFun (setEntry_table _ _ hf) j

end Walks

section Ensuring

variable {v t : BitVec 64} {n : Nat} {m : Machine} {flags : BitVec 16}

/-! ## Turns of the loop -/

/-- What the loop needs of the free pages. -/
structure Stocked (m : Machine) : Prop where
  sized : WellSized m.region
  nodup : (freePages m.region).Nodup
  frames : ∀ page ∈ freePages m.region, IsFrame page

theorem Stocked.of_wellFormed {pml4 : BitVec 64} (wf : WellFormed m pml4) : Stocked m where
  sized := wf.supplies.sized
  nodup := wf.supplies.nodup
  frames := wf.supplies.frames

/-- The turn through an entry that leads on. -/
theorem ensureTablesLoop_on {c : BitVec 64}
    (h : down (m.mem t (vmmVirtToTableIndex v (n + 2))) = some c) :
    VmMapper.ensureTablesLoop v flags (n + 1) t m =
      VmMapper.ensureTablesLoop v flags n c
        { m with
          mem := setEntry m.mem t (vmmVirtToTableIndex v (n + 2))
            (visitX8664 flags (m.mem t (vmmVirtToTableIndex v (n + 2)))) } := by
  obtain ⟨hpresent, hsmall, rfl⟩ := down_eq_some.mp h
  simp only [VmMapper.ensureTablesLoop, if_neg (present_ne hpresent), hsmall,
    Bool.false_eq_true, and_false, if_false]
  rfl

/-- A free page became an empty table, and one entry of `t` was written. -/
structure Created (v t new : BitVec 64) (n : Nat) (m m1 : Machine) : Prop where
  perm : (freePages m.region).Perm (new :: freePages m1.region)
  stocked : Stocked m1
  fresh : new ∉ freePages m1.region
  empty : m1.mem new = fun _ => 0
  tables : ∀ f, f ≠ t → f ≠ new → m1.mem f = m.mem f
  entries : ∀ j, j ≠ vmmVirtToTableIndex v (n + 2) → m1.mem t j = m.mem t j

theorem Created.taken {new : BitVec 64} {m1 : Machine} (h : Created v t new n m m1) :
    new ∈ freePages m.region :=
  h.perm.mem_iff.mpr List.mem_cons_self

theorem Created.left {new : BitVec 64} {m1 : Machine} (h : Created v t new n m m1)
    {page : BitVec 64} (hp : page ∈ freePages m1.region) : page ∈ freePages m.region :=
  h.perm.mem_iff.mpr (List.mem_cons_of_mem _ hp)

/-- The turn at an entry that is not there. -/
theorem ensureTablesLoop_new (flags : BitVec 16) (stocked : Stocked m)
    (ht : t ∉ freePages m.region)
    (absent : ¬ isPresent (m.mem t (vmmVirtToTableIndex v (n + 2)))) :
    freePages m.region = [] ∧ VmMapper.ensureTablesLoop v flags (n + 1) t m = (none, m) ∨
    ∃ new m1, VmMapper.ensureTablesLoop v flags (n + 1) t m =
        VmMapper.ensureTablesLoop v flags n new m1 ∧ Created v t new n m m1 := by
  have hzero := absent_eq absent
  by_cases hstack : m.region.stack = []
  · have hfail := pageAlloc_empty hstack
    have hodd : (0xFF : BitVec 64) &&& 0xfff ≠ 0 := by decide
    refine Or.inl ⟨freePages_empty hstack, ?_⟩
    simp only [VmMapper.ensureTablesLoop, if_pos hzero, hfail, if_pos hodd]
  · obtain ⟨new, region, hnew⟩ : ∃ new region, pageAlloc m.region = (new, region) := ⟨_, _, rfl⟩
    have hallocated := pageAlloc_allocated stocked.sized stocked.nodup hstack hnew
    have hne : new ≠ t := fun e => ht (e ▸ hallocated.taken)
    have haligned := (stocked.frames new hallocated.taken).aligned
    refine Or.inr ⟨new, ⟨setEntry (Function.update m.mem new fun _ => 0) t
      (vmmVirtToTableIndex v (n + 2))
      (vmmPhysAndFlagsToTableEntry new (pgPresent ||| parentFlags flags)), region⟩, ?_, ?_⟩
    · simp only [VmMapper.ensureTablesLoop, if_pos hzero, hnew, haligned, ne_eq, not_true, if_false]
    · refine ⟨hallocated.perm, ⟨hallocated.sized, hallocated.nodup, fun page hp => ?_⟩,
        hallocated.fresh, ?_, fun f hft hfn => ?_, fun j hj => ?_⟩
      · exact stocked.frames page (hallocated.left hp)
      · exact (setEntry_table _ _ hne).trans (Function.update_self _ _ _)
      · exact (setEntry_table _ _ hft).trans (Function.update_of_ne hfn _ _)
      · exact (setEntry_index _ hj).trans (congrFun (Function.update_of_ne hne.symm _ _) j)

/-- Making tables keeps all entries that are present, wherever they are but in the free pages. -/
theorem ensureTablesLoop_keepsPresent (flags : BitVec 16) (stocked : Stocked m)
    (apart : ∀ f, Member down m.mem n t f → f ∉ freePages m.region)
    (straight : Straight m.mem v n t) :
    KeepsPresent (fun f => f ∉ freePages m.region) m.mem
      (VmMapper.ensureTablesLoop v flags n t m).2.mem := by
  induction n generalizing t m with
  | zero => exact KeepsPresent.of_same (fun _ _ => rfl)
  | succ n ih =>
    rcases straight.cases with ⟨c, hc, hrest, -⟩ | ⟨habsent, -⟩
    · have hreads := (keeps_x8664 flags).readsAs m.mem t (vmmVirtToTableIndex v (n + 2))
      have hvisit := keepsPresent_visit flags (down_eq_some.mp hc).2.1
        (fun f => f ∉ freePages m.region)
      rw [ensureTablesLoop_on hc]
      refine hvisit.trans (ih (m := { m with mem := _ }) ⟨stocked.sized, stocked.nodup,
        stocked.frames⟩ ?_ ((straight_readsAs hreads).mpr hrest)) (fun f hf => hf)
      intro f hf
      exact apart f (((member_readsAs hreads).mp hf).child hc)
    · rcases ensureTablesLoop_new flags stocked (apart t (member_self _ _)) habsent with
        ⟨-, hnone⟩ | ⟨new, m1, hrun, hcreated⟩
      · rw [hnone]
        exact KeepsPresent.of_same (fun _ _ => rfl)
      · obtain ⟨-, hmembers⟩ := @empty_table m1.mem n new hcreated.empty
        -- the entry that was written was not present
        have hlink : KeepsPresent (fun f => f ∉ freePages m.region) m.mem m1.mem := by
          intro f hf j hold
          have hfn : f ≠ new := fun e => hf (e ▸ hcreated.taken)
          have hsame : m1.mem f j = m.mem f j := by
            by_cases hft : f = t
            · subst hft
              exact hcreated.entries j (fun e => habsent (e ▸ hold))
            · exact congrFun (hcreated.tables f hft hfn) j
          rw [hsame]
          exact ⟨hold, rfl, rfl, fun _ => rfl⟩
        rw [hrun]
        refine hlink.trans (ih hcreated.stocked ?_ (empty_walk hcreated.empty v).1) ?_
        · intro f hf
          rw [hmembers f hf]
          exact hcreated.fresh
        · exact fun f hf hin => hf (hcreated.left hin)

/-! ## The tables on the way -/

/-- The tables that are met on the way of an address. -/
def Path (mem : BitVec 64 → Fin 512 → BitVec 64) (v : BitVec 64) :
    Nat → BitVec 64 → BitVec 64 → Prop
  | 0, t, f => f = t
  | n + 1, t, f =>
    f = t ∨ ∃ c, down (mem t (vmmVirtToTableIndex v (n + 2))) = some c ∧ Path mem v n c f

theorem path_readsAs {mem mem' : BitVec 64 → Fin 512 → BitVec 64} (same : ReadsAs x8664 mem mem')
    {f : BitVec 64} : Path mem' v n t f ↔ Path mem v n t f := by
  induction n generalizing t with
  | zero => rfl
  | succ n ih => simp only [Path, down_readsAs same, ih]

theorem Path.member {mem : BitVec 64 → Fin 512 → BitVec 64} {f : BitVec 64}
    (h : Path mem v n t f) : Member down mem n t f := by
  induction n generalizing t with
  | zero => exact h
  | succ n ih =>
    rcases h with rfl | ⟨c, hc, hrest⟩
    · exact member_self _ _
    · exact (ih hrest).child hc

theorem straight_of_leads {mem : BitVec 64 → Fin 512 → BitVec 64} {pt : BitVec 64}
    (h : Leads mem v pt n t) : Straight mem v n t := by
  induction n generalizing t with
  | zero => trivial
  | succ n ih =>
    obtain ⟨c, hc, hrest⟩ := h
    exact (Straight.of_down hc (ih hrest)).1

theorem leads_congr {mem mem' : BitVec 64 → Fin 512 → BitVec 64} {pt : BitVec 64}
    (h : Leads mem v pt n t) (same : ∀ f, Member down mem n t f → mem' f = mem f) :
    Leads mem' v pt n t := by
  induction n generalizing t with
  | zero => exact h
  | succ n ih =>
    obtain ⟨c, hc, hrest⟩ := h
    refine ⟨c, ?_, ih hrest (fun f hf => same f (hf.child hc))⟩
    rw [same t (member_self _ _)]
    exact hc

/-- A walk reads only the tables on its way. -/
theorem straight_congr_path {mem mem' : BitVec 64 → Fin 512 → BitVec 64} (h : Straight mem v n t)
    (same : ∀ f, Path mem v n t f → mem' f = mem f) :
    Straight mem' v n t ∧ leaf mem' v n t = leaf mem v n t := by
  induction n generalizing t with
  | zero =>
    have ht : mem' t = mem t := same t rfl
    exact ⟨trivial, by rw [leaf, leaf, ht]⟩
  | succ n ih =>
    have ht : mem' t = mem t := same t (Or.inl rfl)
    rcases h.cases with ⟨c, hc, hrest, hleaf⟩ | ⟨habsent, hleaf⟩
    · obtain ⟨hrest', hsame⟩ := ih hrest (fun f hf => same f (Or.inr ⟨c, hc, hf⟩))
      rw [← ht] at hc
      obtain ⟨hstraight, hleaf'⟩ := Straight.of_down hc hrest'
      exact ⟨hstraight, by rw [hleaf', hsame, hleaf]⟩
    · rw [← ht] at habsent
      obtain ⟨hstraight, hleaf'⟩ := Straight.of_absent habsent
      exact ⟨hstraight, by rw [hleaf', hleaf]⟩

/-- What the loop does to memory beside the way it makes. -/
structure Touches (v : BitVec 64) (n : Nat) (t : BitVec 64) (m : Machine)
    (result : Option (BitVec 64) × Machine) : Prop where
  frame : ∀ f, ¬ Path m.mem v n t f → f ∉ freePages m.region → result.2.mem f = m.mem f
  table : ∀ pt, result.1 = some pt → Path m.mem v n t pt ∨ pt ∈ freePages m.region
  left : ∀ page ∈ freePages result.2.region, page ∈ freePages m.region
  count : (freePages m.region).length ≤ (freePages result.2.region).length + n
  enough : n ≤ (freePages m.region).length → result.1.isSome
  failed : result.1 = none → freePages result.2.region = []

theorem ensureTablesLoop_touches (flags : BitVec 16) (stocked : Stocked m)
    (apart : ∀ f, Member down m.mem n t f → f ∉ freePages m.region)
    (straight : Straight m.mem v n t) :
    Touches v n t m (VmMapper.ensureTablesLoop v flags n t m) := by
  induction n generalizing t m with
  | zero =>
    refine ⟨fun _ _ _ => rfl, fun pt hpt => ?_, fun _ hp => hp, le_rfl, fun _ => rfl, fun h => ?_⟩
    · exact Or.inl (Option.some.inj hpt).symm
    · cases h
  | succ n ih =>
    rcases straight.cases with ⟨c, hc, hrest, -⟩ | ⟨habsent, -⟩
    · have hreads := (keeps_x8664 flags).readsAs m.mem t (vmmVirtToTableIndex v (n + 2))
      have hother : ∀ f, f ≠ t → setEntry m.mem t (vmmVirtToTableIndex v (n + 2))
          (visitX8664 flags (m.mem t (vmmVirtToTableIndex v (n + 2)))) f = m.mem f :=
        fun f hf => setEntry_table _ _ hf
      rw [ensureTablesLoop_on hc]
      generalize setEntry m.mem t (vmmVirtToTableIndex v (n + 2))
        (visitX8664 flags (m.mem t (vmmVirtToTableIndex v (n + 2)))) = mem1 at hreads hother ⊢
      have h := ih (m := { m with mem := mem1 }) ⟨stocked.sized, stocked.nodup, stocked.frames⟩
        (fun f hf => apart f (((member_readsAs hreads).mp hf).child hc))
        ((straight_readsAs hreads).mpr hrest)
      refine ⟨fun f hf hfree => ?_, fun pt hpt => ?_, h.left, ?_, fun henough => ?_, h.failed⟩
      · have hrest' : ¬ Path m.mem v n c f := fun hp => hf (Or.inr ⟨c, hc, hp⟩)
        have hne : f ≠ t := fun e => hf (Or.inl e)
        exact (h.frame f (fun hp => hrest' ((path_readsAs hreads).mp hp)) hfree).trans
          (hother f hne)
      · rcases h.table pt hpt with hp | hp
        · exact Or.inl (Or.inr ⟨c, hc, (path_readsAs hreads).mp hp⟩)
        · exact Or.inr hp
      · exact h.count.trans (Nat.add_le_add_left (Nat.le_succ n) _)
      · exact h.enough (Nat.le_of_succ_le henough)
    · rcases ensureTablesLoop_new flags stocked (apart t (member_self _ _)) habsent with
        ⟨hempty, hnone⟩ | ⟨new, m1, hrun, hcreated⟩
      · rw [hnone]
        refine ⟨fun _ _ _ => rfl, fun pt hpt => ?_, fun _ hp => hp, Nat.le_add_right _ _, ?_,
          fun _ => hempty⟩
        · cases hpt
        · rw [hempty]
          exact fun henough => absurd henough (Nat.not_succ_le_zero n)
      · obtain ⟨-, hmembers⟩ := @empty_table m1.mem n new hcreated.empty
        have h := ih hcreated.stocked (fun f hf => hmembers f hf ▸ hcreated.fresh)
          (empty_walk hcreated.empty v).1
        have hlength := hcreated.perm.length_eq
        rw [List.length_cons] at hlength
        rw [hrun]
        refine ⟨fun f hf hfree => ?_, fun pt hpt => ?_,
          fun page hp => hcreated.left (h.left page hp), ?_, fun henough => h.enough (by omega),
          h.failed⟩
        · have hne : f ≠ t := fun e => hf (Or.inl e)
          have hfn : f ≠ new := fun e => hfree (e ▸ hcreated.taken)
          have hpath : ¬ Path m1.mem v n new f := fun hp => hfn (hmembers f hp.member)
          exact (h.frame f hpath (fun hp => hfree (hcreated.left hp))).trans
            (hcreated.tables f hne hfn)
        · rcases h.table pt hpt with hp | hp
          · exact Or.inr (hmembers pt hp.member ▸ hcreated.taken)
          · exact Or.inr (hcreated.left hp)
        · have hcount := h.count
          omega

/-- Where the way to a page table is there, it is found. -/
theorem ensureTablesLoop_leads (flags : BitVec 16) {pt : BitVec 64} (leads : Leads m.mem v pt n t) :
    (VmMapper.ensureTablesLoop v flags n t m).1 = some pt := by
  induction n generalizing t m with
  | zero =>
    obtain rfl : pt = t := leads
    rfl
  | succ n ih =>
    obtain ⟨c, hc, hrest⟩ := leads
    have hreads := (keeps_x8664 flags).readsAs m.mem t (vmmVirtToTableIndex v (n + 2))
    rw [ensureTablesLoop_on hc]
    exact ih ((leads_readsAs hreads).mpr hrest)

/-- A page that is mapped has a page table. -/
theorem exists_leads_of_mapped {mem : BitVec 64 → Fin 512 → BitVec 64} (h : Straight mem v n t)
    (mapped : leaf mem v n t ≠ 0) : ∃ pt, Leads mem v pt n t := by
  induction n generalizing t with
  | zero => exact ⟨t, rfl⟩
  | succ n ih =>
    rcases h.cases with ⟨c, hc, hrest, hleaf⟩ | ⟨-, hleaf⟩
    · obtain ⟨pt, hpt⟩ := ih hrest (hleaf ▸ mapped)
      exact ⟨pt, c, hc, hpt⟩
    · exact absurd hleaf mapped

end Ensuring

/-! ## One call of the mapper -/

section Calls

variable {pml4 v page : BitVec 64} {flags : BitVec 16} {ok : Bool} {m m' : Machine}

theorem path_align {mem : BitVec 64 → Fin 512 → BitVec 64} {n : Nat} {t f : BitVec 64} :
    Path mem (v &&& 0xfffffffffffff000) n t f ↔ Path mem v n t f := by
  induction n generalizing t with
  | zero => rfl
  | succ n ih => simp only [Path, index_align, ih]

/-- A page whose page table is there can be mapped. -/
theorem vmmMapPageIn_leads {pt : BitVec 64} (leads : Leads m.mem v pt 3 pml4) (page : BitVec 64)
    (flags : BitVec 16) : (vmmMapPageIn m pml4 v page flags).1 = true := by
  have hsome := ensureTablesLoop_leads flags (leads_align.mpr leads)
  have hloop : VmMapper.ensureTables m pml4 (v &&& 0xfffffffffffff000) 1 flags =
      VmMapper.ensureTablesLoop (v &&& 0xfffffffffffff000) flags 3 pml4 m := rfl
  generalize VmMapper.ensureTablesLoop (v &&& 0xfffffffffffff000) flags 3 pml4 m = result
    at hsome hloop
  obtain ⟨table, m1⟩ := result
  obtain rfl : table = some pt := hsome
  simp only [vmmMapPageIn, hloop]

/-- What `vmm_map_page_in` does beside mapping its page. -/
structure MapEffect (pml4 v : BitVec 64) (m : Machine) (ok : Bool) (m' : Machine) : Prop where
  wellFormed : WellFormed m' pml4
  others : KeepsOthers v pml4 m m'
  members : ∀ f, Member down m'.mem 3 pml4 f →
    Member down m.mem 3 pml4 f ∨ f ∈ freePages m.region
  frame : ∀ f, ¬ Path m.mem v 3 pml4 f → f ∉ freePages m.region → m'.mem f = m.mem f
  root : ∀ j c, down (m.mem pml4 j) = some c → down (m'.mem pml4 j) = some c
  left : ∀ page ∈ freePages m'.region, page ∈ freePages m.region
  count : (freePages m.region).length ≤ (freePages m'.region).length + 3
  enough : 3 ≤ (freePages m.region).length → ok = true
  failed : ok = false → freePages m'.region = []

theorem vmmMapPageIn_effect (wf : WellFormed m pml4) (straight : Straight m.mem v 3 pml4)
    (h : vmmMapPageIn m pml4 v page flags = (ok, m')) : MapEffect pml4 v m ok m' := by
  obtain ⟨hothers, hwf⟩ := map_keeps_others wf straight h
  have hapart : ∀ f, Member down m.mem 3 pml4 f → f ∉ freePages m.region :=
    fun f hf hfree => wf.supplies.apart f hfree hf
  have hstraight := straight_align.mpr straight
  have hstocked := Stocked.of_wellFormed wf
  obtain ⟨taken, hensured⟩ := ensureTablesLoop_ensured (v &&& 0xfffffffffffff000) flags wf.tree
    wf.supplies hstraight
  have hkeeps := ensureTablesLoop_keepsPresent flags hstocked hapart hstraight
  have htouches := ensureTablesLoop_touches flags hstocked hapart hstraight
  have hloop : VmMapper.ensureTables m pml4 (v &&& 0xfffffffffffff000) 1 flags =
      VmMapper.ensureTablesLoop (v &&& 0xfffffffffffff000) flags 3 pml4 m := rfl
  generalize VmMapper.ensureTablesLoop (v &&& 0xfffffffffffff000) flags 3 pml4 m = result
    at hensured hkeeps htouches hloop
  obtain ⟨table, m1⟩ := result
  have hmembers : ∀ f, Member down m1.mem 3 pml4 f →
      Member down m.mem 3 pml4 f ∨ f ∈ freePages m.region := fun f hf =>
    (hensured.members f hf).imp_right
      (fun ht => hensured.perm.mem_iff.mpr (List.mem_append_left _ ht))
  have hframe : ∀ f, ¬ Path m.mem v 3 pml4 f → f ∉ freePages m.region → m1.mem f = m.mem f :=
    fun f hf => htouches.frame f (fun hp => hf (path_align.mp hp))
  have hroot : ∀ j c, down (m.mem pml4 j) = some c → down (m1.mem pml4 j) = some c :=
    fun j c hc => hkeeps.down_eq (hapart pml4 (member_self _ _)) hc
  cases table with
  | none =>
    simp only [vmmMapPageIn, hloop, Prod.mk.injEq] at h
    obtain ⟨rfl, rfl⟩ := h
    refine ⟨hwf, hothers, hmembers, hframe, hroot, htouches.left, htouches.count, ?_,
      fun _ => htouches.failed rfl⟩
    exact fun henough => absurd (htouches.enough henough) (by simp)
  | some pt =>
    simp only [vmmMapPageIn, hloop, Prod.mk.injEq] at h
    obtain ⟨rfl, rfl⟩ := h
    have hleads := hensured.leads pt rfl
    have hset := leafSet_setEntry (vmmPhysAndFlagsToTableEntry page (flags.zeroExtend 64))
      hensured.tree (leads_align.mp hleads)
    refine ⟨hwf, hothers, fun f hf => hmembers f (hset.members f hf), fun f hf hfree => ?_,
      fun j c hc => ?_, htouches.left, htouches.count, fun _ => rfl, fun h => ?_⟩
    · have hne : f ≠ pt := by
        rintro rfl
        rcases htouches.table f rfl with hp | hp
        · exact hf (path_align.mp hp)
        · exact hfree hp
      exact (setEntry_table _ _ hne).trans (hframe f hf hfree)
    · obtain ⟨d, hd, hrest⟩ := hleads
      have hne : pml4 ≠ pt := by
        rintro rfl
        exact (hensured.tree.1 _ _ hd).2 hrest.member
      exact (congrArg (fun table => down (table j)) (setEntry_table _ _ hne)).trans (hroot j c hc)
    · cases h

end Calls

/-! ## A change on the way of one address -/

section Effects

variable {v t pml4 page : BitVec 64} {n : Nat} {m m' : Machine} {flags : BitVec 16}

/-- The loop writes one entry of the table it starts at. -/
theorem ensureTablesLoop_siblings (flags : BitVec 16) (stocked : Stocked m)
    (tree : Tree down m.mem (n + 1) t)
    (apart : ∀ f, Member down m.mem (n + 1) t f → f ∉ freePages m.region)
    (straight : Straight m.mem v (n + 1) t) {j : Fin 512}
    (other : j ≠ vmmVirtToTableIndex v (n + 2)) :
    (VmMapper.ensureTablesLoop v flags (n + 1) t m).2.mem t j = m.mem t j := by
  have hfree := apart t (member_self _ _)
  rcases straight.cases with ⟨c, hc, hrest, -⟩ | ⟨habsent, -⟩
  · have hreads := (keeps_x8664 flags).readsAs m.mem t (vmmVirtToTableIndex v (n + 2))
    have hentry : setEntry m.mem t (vmmVirtToTableIndex v (n + 2)) (visitX8664 flags
        (m.mem t (vmmVirtToTableIndex v (n + 2)))) t j = m.mem t j := setEntry_index _ other
    rw [ensureTablesLoop_on hc]
    generalize setEntry m.mem t (vmmVirtToTableIndex v (n + 2)) (visitX8664 flags
      (m.mem t (vmmVirtToTableIndex v (n + 2)))) = mem1 at hreads hentry ⊢
    have htouches := @ensureTablesLoop_touches v c n { m with mem := mem1 } flags
      ⟨stocked.sized, stocked.nodup, stocked.frames⟩
      (fun f hf => apart f (((member_readsAs hreads).mp hf).child hc))
      ((straight_readsAs hreads).mpr hrest)
    have hpath : ¬ Path mem1 v n c t := fun hp =>
      (tree.1 _ _ hc).2 ((member_readsAs hreads).mp hp.member)
    exact (congrFun (htouches.frame t hpath hfree) j).trans hentry
  · rcases ensureTablesLoop_new flags stocked hfree habsent with
      ⟨-, hnone⟩ | ⟨new, m1, hrun, hcreated⟩
    · rw [hnone]
    · obtain ⟨-, hmembers⟩ := @empty_table m1.mem n new hcreated.empty
      have htouches := @ensureTablesLoop_touches v new n m1 flags hcreated.stocked
        (fun f hf => hmembers f hf ▸ hcreated.fresh) (empty_walk hcreated.empty v).1
      have hpath : ¬ Path m1.mem v n new t := by
        intro hp
        have hsame : t = new := hmembers t hp.member
        exact hfree (hsame ▸ hcreated.taken)
      rw [hrun]
      refine (congrFun (htouches.frame t hpath (fun hp => hfree (hcreated.left hp))) j).trans ?_
      exact hcreated.entries j other

/-- What is done to the tables of one address space on the way of one address. -/
structure WayEffect (pml4 v : BitVec 64) (m m' : Machine) : Prop where
  wellFormed : WellFormed m' pml4
  others : KeepsOthers v pml4 m m'
  members : ∀ f, Member down m'.mem 3 pml4 f →
    Member down m.mem 3 pml4 f ∨ f ∈ freePages m.region
  frame : ∀ f, ¬ Path m.mem v 3 pml4 f → f ∉ freePages m.region → m'.mem f = m.mem f
  siblings : ∀ j ≠ vmmVirtToTableIndex v 4, m'.mem pml4 j = m.mem pml4 j
  left : ∀ page ∈ freePages m'.region, page ∈ freePages m.region

theorem mapped_wayEffect (wf : WellFormed m pml4) (straight : Straight m.mem v 3 pml4)
    (page : BitVec 64) (flags : BitVec 16) :
    WayEffect pml4 v m (vmmMapPageIn m pml4 v page flags).2 := by
  have heffect := vmmMapPageIn_effect wf straight
    (rfl : vmmMapPageIn m pml4 v page flags = (_, _))
  refine ⟨heffect.wellFormed, heffect.others, heffect.members, heffect.frame, ?_, heffect.left⟩
  intro j hj
  have hloop : VmMapper.ensureTables m pml4 (v &&& 0xfffffffffffff000) 1 flags =
      VmMapper.ensureTablesLoop (v &&& 0xfffffffffffff000) flags 3 pml4 m := rfl
  obtain ⟨taken, hensured⟩ := ensureTablesLoop_ensured (v &&& 0xfffffffffffff000) flags wf.tree
    wf.supplies (straight_align.mpr straight)
  have hsiblings := @ensureTablesLoop_siblings _ pml4 2 m flags (Stocked.of_wellFormed wf) wf.tree
    (fun f hf hfree => wf.supplies.apart f hfree hf) (straight_align.mpr straight) j
    ((index_align v 3).symm ▸ hj)
  generalize VmMapper.ensureTablesLoop (v &&& 0xfffffffffffff000) flags 3 pml4 m = result
    at hensured hloop hsiblings
  obtain ⟨table, m1⟩ := result
  cases table with
  | none =>
    simp only [vmmMapPageIn, hloop]
    exact hsiblings
  | some pt =>
    obtain ⟨d, hd, hrest⟩ := hensured.leads pt rfl
    have hne : pml4 ≠ pt := by
      rintro rfl
      exact (hensured.tree.1 _ _ hd).2 hrest.member
    simp only [vmmMapPageIn, hloop]
    exact (congrFun (setEntry_table _ _ hne) j).trans hsiblings

theorem path_of_leads {mem : BitVec 64 → Fin 512 → BitVec 64} {pt : BitVec 64}
    (h : Leads mem v pt n t) : Path mem v n t pt := by
  induction n generalizing t with
  | zero => exact h
  | succ n ih =>
    obtain ⟨c, hc, hrest⟩ := h
    exact Or.inr ⟨c, hc, ih hrest⟩

theorem unmapped_wayEffect (wf : WellFormed m pml4) (straight : Straight m.mem v 3 pml4) :
    WayEffect pml4 v m (vmmUnmapPageIn m pml4 v).2 := by
  obtain ⟨frame, m1, hrun⟩ : ∃ frame m1, vmmUnmapPageIn m pml4 v = (frame, m1) := ⟨_, _, rfl⟩
  obtain ⟨-, -, hothers, hwf⟩ := unmap_clears_one_page wf straight hrun
  rw [hrun]
  rcases (vmmUnmapPageIn_cases straight hrun).2 with ⟨-, rfl⟩ | ⟨hregion, pt, hleads, hmem⟩
  · exact ⟨wf, fun v' hv' => ⟨hv', fun _ => rfl⟩, fun f hf => Or.inl hf, fun f _ _ => rfl,
      fun j _ => rfl, fun page hp => hp⟩
  · have hset := leafSet_setEntry 0 wf.tree hleads
    rw [← hmem] at hset
    have hne : pml4 ≠ pt := by
      obtain ⟨c, hc, hrest⟩ := hleads
      rintro rfl
      exact (wf.tree.1 _ _ hc).2 hrest.member
    refine ⟨hwf, hothers, fun f hf => Or.inl (hset.members f hf), fun f hf _ => ?_, fun j _ => ?_,
      fun page hp => hregion ▸ hp⟩
    · have hfp : f ≠ pt := by
        rintro rfl
        exact hf (path_of_leads hleads)
      rw [hmem]
      exact setEntry_table _ _ hfp
    · rw [hmem]
      exact congrFun (setEntry_table _ _ hne) j

/-- What is under the other entries of the top-level table is left alone. -/
theorem WayEffect.under (effect : WayEffect pml4 v m m') (wf : WellFormed m pml4) {j : Fin 512}
    {d f : BitVec 64} (other : j ≠ vmmVirtToTableIndex v 4) (hd : down (m.mem pml4 j) = some d)
    (hf : Member down m.mem 2 d f) : m'.mem f = m.mem f := by
  apply effect.frame
  · rintro (rfl | ⟨c, hc, hrest⟩)
    · exact (wf.tree.1 j d hd).2 hf
    · exact wf.tree.2 _ _ _ _ other hd hc f hf hrest.member
  · exact fun hfree => wf.supplies.apart f hfree (hf.child hd)

/-- A table of the lower half was one before, or was free. -/
theorem WayEffect.lower_member (effect : WayEffect pml4 v m m') (wf : WellFormed m pml4)
    (low : (vmmVirtToTableIndex v 4).val < 256) {i : Fin 512} {c f : BitVec 64} (hi : i.val < 256)
    (hc : down (m'.mem pml4 i) = some c) (hf : Member down m'.mem 2 c f) :
    f ∈ freePages m.region ∨ ∃ j d, j.val < 256 ∧ down (m.mem pml4 j) = some d ∧
      Member down m.mem 2 d f := by
  have htree := effect.wellFormed.tree
  rcases effect.members f (hf.child hc) with hold | hfree
  · rcases hold with rfl | ⟨j, d, hd, hmember⟩
    · exact absurd hf (htree.1 i c hc).2
    · by_cases hj : j.val < 256
      · exact Or.inr ⟨j, d, hj, hd, hmember⟩
      · -- the upper half is apart from the lower one, after the change too
        have hother : j ≠ vmmVirtToTableIndex v 4 := by
          rintro rfl
          exact hj low
        have hij : i ≠ j := by
          rintro rfl
          exact hj hi
        have hd' : down (m'.mem pml4 j) = some d := (effect.siblings j hother).symm ▸ hd
        have hkept : Member down m'.mem 2 d f ↔ Member down m.mem 2 d f :=
          member_congr (fun g hg => effect.under wf hother hd hg) f
        exact absurd (hkept.mpr hmember) (htree.2 i j c d hij hc hd' f hf)
  · exact Or.inl hfree

end Effects

end TablePaths
