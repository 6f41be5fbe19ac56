import AnosKernel.AddressSpace

/-!
# Address spaces side by side

Several top-level tables of x86_64 in one memory. What is under the lower half of each belongs to
it alone and has no large page; the upper half may be shared and may have some. A change on the way
of a user address in one of them is then seen in that address space only, and there only in what it
was meant for.
-/

namespace UserSpaces

open PageAlloc VmMapper TableTree TablePaths AddressSpace

/-! ## What an address is translated to -/

/-- The entry that maps an address, and how many levels are left below it. -/
def translate (mem : BitVec 64 → Fin 512 → BitVec 64) (v : BitVec 64) :
    Nat → BitVec 64 → Option (Nat × BitVec 64)
  | 0, t =>
    let e := mem t (vmmVirtToTableIndex v 1)
    if isPresent e then some (0, e) else none
  | n + 1, t =>
    let e := mem t (vmmVirtToTableIndex v (n + 2))
    if isPresent e then
      if isPagesizeLeaf e then some (n + 1, e) else translate mem v n (vmmTableEntryToPhys e)
    else none

/-- What `vmm_unmap_page_in` does to the tables, level by level. -/
def clear (mem : BitVec 64 → Fin 512 → BitVec 64) (v : BitVec 64) :
    Nat → BitVec 64 → BitVec 64 → Fin 512 → BitVec 64
  | 0, t =>
    if isPresent (mem t (vmmVirtToTableIndex v 1)) then
      setEntry mem t (vmmVirtToTableIndex v 1) 0
    else mem
  | n + 1, t =>
    let e := mem t (vmmVirtToTableIndex v (n + 2))
    if isPresent e then
      if isPagesizeLeaf e then setEntry mem t (vmmVirtToTableIndex v (n + 2)) 0
      else clear mem v n (vmmTableEntryToPhys e)
    else mem

section Translations

variable {mem mem' : BitVec 64 → Fin 512 → BitVec 64} {v t : BitVec 64} {n : Nat}

/-- The first step: to the table below, to a large page, or to the end. -/
theorem translate_cases (mem : BitVec 64 → Fin 512 → BitVec 64) (v t : BitVec 64) (n : Nat) :
    (∃ c, down (mem t (vmmVirtToTableIndex v (n + 2))) = some c ∧
      translate mem v (n + 1) t = translate mem v n c ∧
      clear mem v (n + 1) t = clear mem v n c) ∨
    (isPresent (mem t (vmmVirtToTableIndex v (n + 2))) ∧
      translate mem v (n + 1) t = some (n + 1, mem t (vmmVirtToTableIndex v (n + 2))) ∧
      clear mem v (n + 1) t = setEntry mem t (vmmVirtToTableIndex v (n + 2)) 0) ∨
    (translate mem v (n + 1) t = none ∧ clear mem v (n + 1) t = mem) := by
  by_cases hpresent : isPresent (mem t (vmmVirtToTableIndex v (n + 2)))
  · by_cases hlarge : isPagesizeLeaf (mem t (vmmVirtToTableIndex v (n + 2)))
    · refine Or.inr (Or.inl ⟨hpresent, ?_, ?_⟩)
      · simp only [translate, hpresent, hlarge, if_true]
      · simp only [clear, hpresent, hlarge, if_true]
    · refine Or.inl ⟨_, down_eq_some.mpr ⟨hpresent, hlarge, rfl⟩, ?_, ?_⟩
      · simp only [translate, hpresent, hlarge, if_true, Bool.false_eq_true, if_false]
      · simp only [clear, hpresent, hlarge, if_true, Bool.false_eq_true, if_false]
  · refine Or.inr (Or.inr ⟨?_, ?_⟩)
    · simp only [translate, hpresent, Bool.false_eq_true, if_false]
    · simp only [clear, hpresent, Bool.false_eq_true, if_false]

theorem translate_down {c : BitVec 64}
    (hc : down (mem t (vmmVirtToTableIndex v (n + 2))) = some c) :
    translate mem v (n + 1) t = translate mem v n c := by
  obtain ⟨hpresent, hsmall, rfl⟩ := down_eq_some.mp hc
  simp only [translate, hpresent, hsmall, if_true, Bool.false_eq_true, if_false]

theorem translate_entry (same : mem' t (vmmVirtToTableIndex v (n + 2)) =
      mem t (vmmVirtToTableIndex v (n + 2)))
    (below : ∀ c, down (mem t (vmmVirtToTableIndex v (n + 2))) = some c →
      translate mem' v n c = translate mem v n c) :
    translate mem' v (n + 1) t = translate mem v (n + 1) t := by
  simp only [translate, same]
  split_ifs with hpresent hlarge
  · rfl
  · exact below _ (down_eq_some.mpr ⟨hpresent, hlarge, rfl⟩)
  · rfl

/-- A translation depends on the tables of the tree only. -/
theorem translate_congr (same : ∀ f, Member down mem n t f → mem' f = mem f) :
    translate mem' v n t = translate mem v n t := by
  induction n generalizing t with
  | zero =>
    have ht : mem' t = mem t := same t (member_self _ _)
    rw [translate, translate, ht]
  | succ n ih =>
    have ht : mem' t = mem t := same t (member_self _ _)
    refine translate_entry (congrFun ht _) (fun c hc => ih (fun f hf => ?_))
    exact same f (hf.child hc)

/-- Where no large page is on the way, it is what `vmm_virt_to_pt_entry` finds. -/
theorem translate_straight (straight : Straight mem v n t) :
    translate mem v n t = if leaf mem v n t = 0 then none else some (0, leaf mem v n t) := by
  induction n generalizing t with
  | zero =>
    by_cases hpresent : isPresent (mem t (vmmVirtToTableIndex v 1))
    · have hne : mem t (vmmVirtToTableIndex v 1) ≠ 0 := by
        intro hzero
        rw [hzero] at hpresent
        exact not_isPresent_zero hpresent
      simp only [translate, leaf, hpresent, if_true, hne, if_false]
    · simp only [translate, leaf, hpresent, Bool.false_eq_true, if_false, if_true]
  | succ n ih =>
    rcases straight.cases with ⟨c, hc, hrest, hleaf⟩ | ⟨habsent, hleaf⟩
    · rw [translate_down hc, hleaf]
      exact ih hrest
    · rw [hleaf, if_pos rfl]
      simp only [translate, habsent, Bool.false_eq_true, if_false]

theorem clear_frame {f : BitVec 64} (apart : ¬ Member down mem n t f) :
    clear mem v n t f = mem f := by
  induction n generalizing t with
  | zero =>
    have hne : f ≠ t := apart
    rw [clear]
    split_ifs
    · exact setEntry_table _ _ hne
    · rfl
  | succ n ih =>
    have hne : f ≠ t := fun e => apart (Or.inl e)
    rcases translate_cases mem v t n with ⟨c, hc, -, hclear⟩ | ⟨-, -, hclear⟩ | ⟨-, hclear⟩
    · rw [hclear]
      exact ih (fun hf => apart (hf.child hc))
    · rw [hclear]
      exact setEntry_table _ _ hne
    · rw [hclear]

/-- What is not mapped is not unmapped. -/
theorem clear_none (unmapped : translate mem v n t = none) : clear mem v n t = mem := by
  induction n generalizing t with
  | zero =>
    rw [translate] at unmapped
    rw [clear]
    split_ifs at unmapped ⊢
    rfl
  | succ n ih =>
    rcases translate_cases mem v t n with ⟨c, -, htranslate, hclear⟩ | ⟨-, hsome, -⟩ | ⟨-, hclear⟩
    · rw [hclear]
      exact ih (htranslate.symm.trans unmapped)
    · rw [unmapped] at hsome
      exact absurd hsome (by simp)
    · exact hclear

/-- In a tree of tables, an address that was unmapped has no translation. -/
theorem translate_clear (tree : Tree down mem n t) : translate (clear mem v n t) v n t = none := by
  induction n generalizing t with
  | zero =>
    rw [clear]
    split_ifs with hpresent
    · simp only [translate, setEntry_self]
      exact if_neg not_isPresent_zero
    · simp only [translate, hpresent, Bool.false_eq_true, if_false]
  | succ n ih =>
    rcases translate_cases mem v t n with ⟨c, hc, -, hclear⟩ | ⟨-, -, hclear⟩ | ⟨hnone, hclear⟩
    · obtain ⟨hsub, habove⟩ := tree.1 _ _ hc
      have ht : clear mem v n c t = mem t := clear_frame habove
      rw [hclear]
      rw [← ht] at hc
      exact (translate_down hc).trans (ih hsub)
    · rw [hclear]
      simp only [translate, setEntry_self]
      exact if_neg not_isPresent_zero
    · rw [hclear]
      exact hnone

theorem vmmUnmapPageIn_clear (m : Machine) (pml4 v : BitVec 64) :
    (vmmUnmapPageIn m pml4 v).2 = { m with mem := clear m.mem v 3 pml4 } := by
  have h4 : vmmVirtToPml4Index v = vmmVirtToTableIndex v 4 := rfl
  have h3 : vmmVirtToPdptIndex v = vmmVirtToTableIndex v 3 := rfl
  have h2 : vmmVirtToPdIndex v = vmmVirtToTableIndex v 2 := rfl
  have h1 : vmmVirtToPtIndex v = vmmVirtToTableIndex v 1 := rfl
  simp only [vmmUnmapPageIn, clear, h4, h3, h2, h1]
  split_ifs <;> rfl

end Translations

/-! ## Address spaces -/

/-- An address of the lower half, by the entry of the top-level table on its way. -/
def IsLower (v : BitVec 64) : Prop := (vmmVirtToTableIndex v 4).val < 256

instance (v : BitVec 64) : Decidable (IsLower v) := inferInstanceAs (Decidable (_ < _))

/-- The address spaces with these top-level tables: no table under the lower half of one of them
belongs to another, nor does a top-level table, and no large page is in a lower half. -/
structure Spaces (spaces : BitVec 64 → Prop) (m : Machine) : Prop where
  wellFormed : ∀ q, spaces q → WellFormed m q
  straight : ∀ q, spaces q → ∀ v, IsLower v → Straight m.mem v 3 q
  roots : ∀ q r, spaces q → spaces r → q ≠ r → ¬ Member down m.mem 3 r q
  lower : ∀ q r, spaces q → spaces r → q ≠ r → ∀ i c f, i.val < 256 →
    down (m.mem q i) = some c → Member down m.mem 2 c f → ¬ Member down m.mem 3 r f

section Changes

variable {spaces : BitVec 64 → Prop} {q r v f : BitVec 64} {m m' : Machine}

/-- The way of a lower address is through tables of its own address space. -/
theorem Spaces.own_path (h : Spaces spaces m) (hq : spaces q) (hr : spaces r) (apart : q ≠ r)
    (low : IsLower v) (path : Path m.mem v 3 r f) : ¬ Member down m.mem 3 q f := by
  rcases path with rfl | ⟨c, hc, hrest⟩
  · exact h.roots f q hr hq apart.symm
  · exact h.lower r q hr hq apart.symm _ c f low hc hrest.member

theorem Spaces.not_free (h : Spaces spaces m) (hq : spaces q) (hf : Member down m.mem 3 q f) :
    f ∉ freePages m.region := fun hfree => (h.wellFormed q hq).supplies.apart f hfree hf

/-- No other address space has a table that changed. -/
theorem Spaces.same (h : Spaces spaces m) (effect : WayEffect r v m m') (hq : spaces q)
    (hr : spaces r) (apart : q ≠ r) (low : IsLower v) (hf : Member down m.mem 3 q f) :
    m'.mem f = m.mem f := by
  apply effect.frame
  · exact fun hpath => h.own_path hq hr apart low hpath hf
  · exact h.not_free hq hf

theorem Spaces.same_members (h : Spaces spaces m) (effect : WayEffect r v m m') (hq : spaces q)
    (hr : spaces r) (apart : q ≠ r) (low : IsLower v) :
    Member down m'.mem 3 q f ↔ Member down m.mem 3 q f :=
  member_congr (fun _ hg => h.same effect hq hr apart low hg) f

/-- Nothing but the page of the address is translated in another way than before. -/
theorem Spaces.translations (h : Spaces spaces m) (effect : WayEffect r v m m') (hq : spaces q)
    (hr : spaces r) (low : IsLower v) {v' : BitVec 64}
    (elsewhere : q = r → pageNumber v' ≠ pageNumber v) :
    translate m'.mem v' 3 q = translate m.mem v' 3 q := by
  by_cases hqr : q = r
  · subst hqr
    by_cases hlow : IsLower v'
    · have hstraight := h.straight q hq v' hlow
      obtain ⟨hstraight', hkept⟩ := effect.others v' hstraight
      have hleaf : leaf m'.mem v' 3 q = leaf m.mem v' 3 q := hkept (elsewhere rfl)
      rw [translate_straight hstraight', translate_straight hstraight, hleaf]
    · have hother : vmmVirtToTableIndex v' 4 ≠ vmmVirtToTableIndex v 4 := by
        intro hsame
        apply hlow
        rw [IsLower, hsame]
        exact low
      refine translate_entry (effect.siblings _ hother) (fun c hc => ?_)
      exact translate_congr (fun f hf => effect.under (h.wellFormed q hq) hother hc hf)
  · exact translate_congr (fun f hf => h.same effect hq hr hqr low hf)

theorem Spaces.change (h : Spaces spaces m) (hr : spaces r) (low : IsLower v)
    (effect : WayEffect r v m m') : Spaces spaces m' := by
  constructor
  · intro q hq
    by_cases hqr : q = r
    · exact hqr ▸ effect.wellFormed
    · have hsupplies := effect.wellFormed.supplies
      refine ⟨(h.wellFormed q hq).tree.congr (fun f hf => h.same effect hq hr hqr low hf),
        hsupplies.sized, hsupplies.nodup, hsupplies.frames, fun page hp hmember => ?_⟩
      rw [h.same_members effect hq hr hqr low] at hmember
      exact h.not_free hq hmember (effect.left page hp)
  · intro q hq v' hv'
    have hstraight := h.straight q hq v' hv'
    by_cases hqr : q = r
    · subst hqr
      exact (effect.others v' hstraight).1
    · exact (hstraight.congr (fun f hf => h.same effect hq hr hqr low hf)).1
  · intro q p hq hp hqp hmember
    by_cases hpr : p = r
    · subst hpr
      rcases effect.members q hmember with hold | hfree
      · exact h.roots q p hq hp hqp hold
      · exact h.not_free hq (member_self _ _) hfree
    · rw [h.same_members effect hp hr hpr low] at hmember
      exact h.roots q p hq hp hqp hmember
  · intro q p hq hp hqp i c f hi hc hf hmember
    by_cases hqr : q = r
    · subst hqr
      have hpq : p ≠ q := hqp.symm
      rw [h.same_members effect hp hr hpq low] at hmember
      rcases effect.lower_member (h.wellFormed q hq) low hi hc hf with hfree | ⟨j, d, hj, hd, hold⟩
      · exact h.not_free hp hmember hfree
      · exact h.lower q p hq hp hqp j d f hj hd hold hmember
    · have hroot := h.same effect hq hr hqr low (member_self 3 q)
      have hc0 : down (m.mem q i) = some c := hroot ▸ hc
      have hbelow : Member down m'.mem 2 c f ↔ Member down m.mem 2 c f :=
        member_congr (fun g hg => h.same effect hq hr hqr low (hg.child hc0)) f
      rw [hbelow] at hf
      by_cases hpr : p = r
      · subst hpr
        rcases effect.members f hmember with hold | hfree
        · exact h.lower q p hq hp hqp i c f hi hc0 hf hold
        · exact h.not_free hq (hf.child hc0) hfree
      · rw [h.same_members effect hp hr hpr low] at hmember
        exact h.lower q p hq hp hqp i c f hi hc0 hf hmember

/-- What is under a new table is under the upper half of the one it is made from. -/
theorem newEntries_member {mem mem' : BitVec 64 → Fin 512 → BitVec 64} {new : BitVec 64}
    (root : mem' new = newEntries (mem r)) (same : ∀ g, Member down mem 3 r g → mem' g = mem g)
    (hf : Member down mem' 3 new f) : f = new ∨ ∃ j d, ¬ j.val < 256 ∧
      down (mem r j) = some d ∧ Member down mem 2 d f := by
  rcases hf with hf | ⟨j, d, hd, hf⟩
  · exact Or.inl hf
  · rw [root, newEntries] at hd
    split_ifs at hd with hj
    · exact absurd (down_eq_some.mp hd).1 not_isPresent_zero
    · have hbelow : Member down mem' 2 d f ↔ Member down mem 2 d f :=
        member_congr (fun g hg => same g (hg.child hd)) f
      exact Or.inr ⟨j, d, hj, hd, hbelow.mp hf⟩

/-- A new top-level table, which is empty in its lower half and has the upper half of a table that
is there, is one more address space. -/
theorem Spaces.create (h : Spaces spaces m) (hr : spaces r) (nonempty : m.region.stack ≠ [])
    {new : BitVec 64} {region : MemoryRegion} (hnew : pageAlloc m.region = (new, region)) :
    Spaces (fun q => q = new ∨ spaces q)
      { mem := Function.update m.mem new (newEntries (m.mem r)), region := region } := by
  have hbuilding := building_start (h.wellFormed r hr) nonempty hnew
  have hsupplies := (h.wellFormed r hr).supplies
  have hallocated := pageAlloc_allocated hsupplies.sized hsupplies.nodup nonempty hnew
  have hfree := hallocated.taken
  generalize hmem1 : Function.update m.mem new (newEntries (m.mem r)) = mem1 at hbuilding ⊢
  have hroot : mem1 new = newEntries (m.mem r) := by
    rw [← hmem1]
    exact Function.update_self _ _ _
  have hsame : ∀ q, spaces q → ∀ f, Member down m.mem 3 q f → mem1 f = m.mem f := by
    intro q hq f hf
    rw [← hmem1]
    apply Function.update_of_ne
    rintro rfl
    exact h.not_free hq hf hfree
  have hold : ∀ q, spaces q → ∀ f, Member down mem1 3 q f ↔ Member down m.mem 3 q f :=
    fun q hq => member_congr (hsame q hq)
  have hzero : ∀ i : Fin 512, i.val < 256 → mem1 new i = 0 := by
    intro i hi
    rw [hroot, newEntries, if_pos hi]
  have hupper : ∀ f, Member down mem1 3 new f → f = new ∨ ∃ j d, ¬ j.val < 256 ∧
      down (m.mem r j) = some d ∧ Member down m.mem 2 d f :=
    fun f hf => newEntries_member hroot (hsame r hr) hf
  constructor
  · rintro q (rfl | hq)
    · exact hbuilding.new
    · refine ⟨(h.wellFormed q hq).tree.congr (hsame q hq), hallocated.sized, hallocated.nodup,
        fun page hp => hsupplies.frames page (hallocated.left hp), fun page hp hmember => ?_⟩
      exact h.not_free hq ((hold q hq page).mp hmember) (hallocated.left hp)
  · rintro q (rfl | hq) v hv
    · refine (Straight.of_absent ?_).1
      show ¬ isPresent (mem1 q (vmmVirtToTableIndex v 4))
      rw [hzero _ hv]
      exact not_isPresent_zero
    · exact ((h.straight q hq v hv).congr (hsame q hq)).1
  · rintro q p (rfl | hq) (rfl | hp) hqp hmember
    · exact hqp rfl
    · exact h.not_free hp ((hold p hp q).mp hmember) hfree
    · rcases hupper q hmember with hroots | ⟨j, d, -, hd, hmember⟩
      · exact hqp hroots
      · by_cases hqr : q = r
        · subst hqr
          exact ((h.wellFormed q hq).tree.1 j d hd).2 hmember
        · exact h.roots q r hq hr hqr (hmember.child hd)
    · exact h.roots q p hq hp hqp ((hold p hp q).mp hmember)
  · rintro q p (rfl | hq) hp hqp i c f hi hc hf hmember
    · have hpresent : isPresent (mem1 q i) := (down_eq_some.mp hc).1
      rw [hzero i hi] at hpresent
      exact not_isPresent_zero hpresent
    · have hc0 : down (m.mem q i) = some c := hsame q hq q (member_self _ _) ▸ hc
      have hbelow : Member down mem1 2 c f ↔ Member down m.mem 2 c f :=
        member_congr (fun g hg => hsame q hq g (hg.child hc0)) f
      have hf0 := hbelow.mp hf
      rcases hp with rfl | hp
      · rcases hupper f hmember with rfl | ⟨j, d, hj, hd, hmember⟩
        · exact h.not_free hq (hf0.child hc0) hfree
        · by_cases hqr : q = r
          · subst hqr
            have hij : i ≠ j := by
              rintro rfl
              exact hj hi
            exact (h.wellFormed q hq).tree.2 i j c d hij hc0 hd f hf0 hmember
          · exact h.lower q r hq hr hqr i c f hi hc0 hf0 (hmember.child hd)
      · exact h.lower q p hq hp hqp i c f hi hc0 hf0 ((hold p hp f).mp hmember)

end Changes

end UserSpaces
