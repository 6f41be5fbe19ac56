import AnosKernel.Lib.TableTree
import AnosKernel.PageAlloc

/-!
# The page-table mapper

`kernel/arch/x86_64/vmm/vmmapper.c`. Physical memory is reached through a linear direct map,
so a table is its physical address and memory is read by table and index, one of 512. New
tables come from the physical page allocator. The map lock only serialises the calls, and the
TLB has no part in what a table walk finds; neither is represented.
-/

namespace VmMapper

open PageAlloc TableTree

def pgPresent : BitVec 64 := 0x1
def pgWrite : BitVec 64 := 0x2
def pgUser : BitVec 64 := 0x4
def pgPagesize : BitVec 64 := 0x80

def directMapBase : BitVec 64 := 0xffff800000000000

def vmmPhysToVirt (physAddr : BitVec 64) : BitVec 64 := directMapBase + physAddr

/-- A table has entries, so that a number stands for one of its indices. -/
instance neZero_entries : NeZero 512 := ⟨by decide⟩

/-- The tables in physical memory, and the region that `page_alloc` takes pages from. -/
structure Machine where
  mem : BitVec 64 → Fin 512 → BitVec 64
  region : MemoryRegion

def setEntry (mem : BitVec 64 → Fin 512 → BitVec 64) (table : BitVec 64) (index : Fin 512)
    (entry : BitVec 64) : BitVec 64 → Fin 512 → BitVec 64 :=
  Function.update mem table (Function.update (mem table) index entry)

def isPresent (entry : BitVec 64) : Bool := entry &&& pgPresent != 0

def isPagesizeLeaf (entry : BitVec 64) : Bool := entry &&& pgPagesize != 0

theorem toNat_and_index (x : BitVec 64) : (x &&& 0x1ff).toNat = x.toNat % 512 :=
  Masks.toNat_and_low x _ 9 rfl

/-- The nine bits that index a table. -/
def tableIndex (x : BitVec 64) : Fin 512 :=
  ⟨(x &&& 0x1ff).toNat, by rw [toNat_and_index]; exact Nat.mod_lt _ (by decide)⟩

theorem tableIndex_val (x : BitVec 64) : (tableIndex x).val = x.toNat % 512 := toNat_and_index x

def vmmVirtToTableIndex (virtAddr : BitVec 64) (level : Nat) : Fin 512 :=
  tableIndex (virtAddr >>> (9 * (level - 1) + 12))

def vmmVirtToPml4Index (virtAddr : BitVec 64) : Fin 512 := tableIndex (virtAddr >>> 39)

def vmmVirtToPdptIndex (virtAddr : BitVec 64) : Fin 512 := tableIndex (virtAddr >>> 30)

def vmmVirtToPdIndex (virtAddr : BitVec 64) : Fin 512 := tableIndex (virtAddr >>> 21)

def vmmVirtToPtIndex (virtAddr : BitVec 64) : Fin 512 := tableIndex (virtAddr >>> 12)

def vmmTableEntryToPhys (entry : BitVec 64) : BitVec 64 := entry &&& 0x0000fffffffff000

def vmmTableEntryToPageFlags (entry : BitVec 64) : BitVec 64 := entry &&& 0x3ff

def vmmPhysAndFlagsToTableEntry (phys flags : BitVec 64) : BitVec 64 :=
  (phys &&& 0xfffffffffffff000) ||| flags

/-- The write and user bits of `flags`, which every table above the leaf gets too. -/
def parentFlags (flags : BitVec 16) : BitVec 64 :=
  (if flags.zeroExtend 64 &&& pgWrite ≠ 0 then pgWrite else 0) |||
    (if flags.zeroExtend 64 &&& pgUser ≠ 0 then pgUser else 0)

/-- The loop of `ensure_tables` with `levels_remain` turns to go: the table it arrives at, or
null. -/
def ensureTablesLoop (virtAddr : BitVec 64) (flags : BitVec 16) :
    Nat → BitVec 64 → Machine → Option (BitVec 64) × Machine
  | 0, currentTable, m => (some currentTable, m)
  | levels + 1, currentTable, m =>
    let index := vmmVirtToTableIndex virtAddr (levels + 2)
    let entry := m.mem currentTable index
    if entry &&& pgPresent = 0 then
      let (newTable, region) := pageAlloc m.region
      if newTable &&& 0xfff ≠ 0 then (none, { m with region := region })
      else
        let cleared := Function.update m.mem newTable (fun _ => 0)
        let linked := setEntry cleared currentTable index
          (vmmPhysAndFlagsToTableEntry newTable (pgPresent ||| parentFlags flags))
        ensureTablesLoop virtAddr flags levels newTable { mem := linked, region := region }
    else if levels + 1 > 1 ∧ isPagesizeLeaf entry then (none, m)
    else
      let reflagged := setEntry m.mem currentTable index
        (vmmPhysAndFlagsToTableEntry (vmmTableEntryToPhys entry)
          (vmmTableEntryToPageFlags entry ||| parentFlags flags))
      ensureTablesLoop virtAddr flags levels (vmmTableEntryToPhys entry)
        { m with mem := reflagged }

def ensureTables (m : Machine) (rootTable virtAddr : BitVec 64) (toLevel : Nat)
    (flags : BitVec 16) : Option (BitVec 64) × Machine :=
  if toLevel < 1 ∨ toLevel > 4 then (none, m)
  else ensureTablesLoop virtAddr flags (4 - toLevel) rootTable m

/-- `vmm_map_page_in`, which is `vmm_map_page_containing_in` under another name. -/
def vmmMapPageIn (m : Machine) (pml4 virtAddr page : BitVec 64) (flags : BitVec 16) :
    Bool × Machine :=
  match ensureTables m pml4 (virtAddr &&& 0xfffffffffffff000) 1 flags with
  | (none, m) => (false, m)
  | (some pt, m) =>
    (true, { m with
      mem := setEntry m.mem pt (vmmVirtToPtIndex virtAddr)
        (vmmPhysAndFlagsToTableEntry page (flags.zeroExtend 64)) })

/-- `vmm_unmap_page_in`: the physical address that was mapped, or zero. -/
def vmmUnmapPageIn (m : Machine) (pml4 virtAddr : BitVec 64) : BitVec 64 × Machine :=
  let pml4e := m.mem pml4 (vmmVirtToPml4Index virtAddr)
  if isPresent pml4e then
    if isPagesizeLeaf pml4e then
      (vmmTableEntryToPhys pml4e,
        { m with mem := setEntry m.mem pml4 (vmmVirtToPml4Index virtAddr) 0 })
    else
      let pdpt := vmmTableEntryToPhys pml4e
      let pdpte := m.mem pdpt (vmmVirtToPdptIndex virtAddr)
      if isPresent pdpte then
        if isPagesizeLeaf pdpte then
          (vmmTableEntryToPhys pdpte,
            { m with mem := setEntry m.mem pdpt (vmmVirtToPdptIndex virtAddr) 0 })
        else
          let pd := vmmTableEntryToPhys pdpte
          let pde := m.mem pd (vmmVirtToPdIndex virtAddr)
          if isPresent pde then
            if isPagesizeLeaf pde then
              (vmmTableEntryToPhys pde,
                { m with mem := setEntry m.mem pd (vmmVirtToPdIndex virtAddr) 0 })
            else
              let pt := vmmTableEntryToPhys pde
              let pte := m.mem pt (vmmVirtToPtIndex virtAddr)
              if isPresent pte then
                (vmmTableEntryToPhys pte,
                  { m with mem := setEntry m.mem pt (vmmVirtToPtIndex virtAddr) 0 })
              else (0, m)
          else (0, m)
      else (0, m)
  else (0, m)

/-- `vmm_virt_to_pt_entry` from a given top-level table: the walk that finds the entry of a
4 KiB page, or zero. -/
def vmmVirtToPtEntry (m : Machine) (pml4 virtAddr : BitVec 64) : BitVec 64 :=
  let pml4e := m.mem pml4 (vmmVirtToPml4Index virtAddr)
  if isPresent pml4e then
    let pdpte := m.mem (vmmTableEntryToPhys pml4e) (vmmVirtToPdptIndex virtAddr)
    if isPresent pdpte then
      let pde := m.mem (vmmTableEntryToPhys pdpte) (vmmVirtToPdIndex virtAddr)
      if isPresent pde then
        let pte := m.mem (vmmTableEntryToPhys pde) (vmmVirtToPtIndex virtAddr)
        if isPresent pte then pte else 0
      else 0
    else 0
  else 0

theorem setEntry_self (mem : BitVec 64 → Fin 512 → BitVec 64) (t : BitVec 64) (i : Fin 512)
    (e : BitVec 64) : setEntry mem t i e t i = e := by
  simp [setEntry]

theorem setEntry_index {mem : BitVec 64 → Fin 512 → BitVec 64} {t : BitVec 64} {i j : Fin 512}
    (e : BitVec 64) (h : j ≠ i) : setEntry mem t i e t j = mem t j := by
  simp [setEntry, h]

theorem setEntry_table {mem : BitVec 64 → Fin 512 → BitVec 64} {t f : BitVec 64} (i : Fin 512)
    (e : BitVec 64) (h : f ≠ t) : setEntry mem t i e f = mem f :=
  Function.update_of_ne h _ _

/-! ## Entries -/

/-- The table below an entry: a large page has none. -/
def down (entry : BitVec 64) : Option (BitVec 64) :=
  if isPresent entry ∧ ¬ isPagesizeLeaf entry then some (vmmTableEntryToPhys entry) else none

/-- A page-aligned address within the 48 bits an entry has for it; `MAX_PHYS_ADDR` keeps
physical memory below 127 TiB. -/
def IsFrame (a : BitVec 64) : Prop := vmmTableEntryToPhys a = a

theorem IsFrame.aligned {a : BitVec 64} (h : IsFrame a) : a &&& 0xfff = 0 := by
  have hmask : (0x0000fffffffff000 : BitVec 64) &&& 0xfff = 0#64 := by decide
  rw [← h, vmmTableEntryToPhys, BitVec.and_assoc, hmask, BitVec.and_zero]
  rfl

/-- Bits of an entry that come from its flags. -/
theorem entry_flags {phys flags mask : BitVec 64}
    (low : (0xfffffffffffff000 : BitVec 64) &&& mask = 0#64) :
    vmmPhysAndFlagsToTableEntry phys flags &&& mask = flags &&& mask := by
  rw [vmmPhysAndFlagsToTableEntry, BitVec.and_or_distrib_right, BitVec.and_assoc, low,
    BitVec.and_zero, BitVec.zero_or]

theorem isPresent_entry (phys flags : BitVec 64) :
    isPresent (vmmPhysAndFlagsToTableEntry phys flags) = isPresent flags := by
  have hmask : (0xfffffffffffff000 : BitVec 64) &&& pgPresent = 0#64 := by decide
  rw [isPresent, entry_flags hmask, isPresent]

/-- An entry leads to its frame, as long as the flags are beside the address. -/
theorem phys_entry {phys flags : BitVec 64} (low : flags &&& 0x0000fffffffff000 = 0#64) :
    vmmTableEntryToPhys (vmmPhysAndFlagsToTableEntry phys flags) = vmmTableEntryToPhys phys := by
  have hmask : (0xfffffffffffff000 : BitVec 64) &&& 0x0000fffffffff000 = 0x0000fffffffff000 := by
    decide
  rw [vmmTableEntryToPhys, vmmPhysAndFlagsToTableEntry, BitVec.and_or_distrib_right,
    BitVec.and_assoc, hmask, low, BitVec.or_zero, vmmTableEntryToPhys]

theorem parentFlags_and {mask : BitVec 64} (flags : BitVec 16) (hw : pgWrite &&& mask = 0#64)
    (hu : pgUser &&& mask = 0#64) : parentFlags flags &&& mask = 0#64 := by
  unfold parentFlags
  split_ifs <;> simp [BitVec.and_or_distrib_right, hw, hu]

/-- Which masked part of an entry comes from the address and which from the flags. -/
theorem entry_and (phys low mask : BitVec 64) (flags : BitVec 16) (hw : pgWrite &&& mask = 0#64)
    (hu : pgUser &&& mask = 0#64) :
    vmmPhysAndFlagsToTableEntry phys (low ||| parentFlags flags) &&& mask =
      (phys &&& (0xfffffffffffff000 &&& mask)) ||| (low &&& mask) := by
  rw [vmmPhysAndFlagsToTableEntry, BitVec.and_or_distrib_right, BitVec.and_or_distrib_right,
    parentFlags_and flags hw hu, BitVec.or_zero, BitVec.and_assoc]

theorem down_newEntry {a : BitVec 64} (frame : IsFrame a) (flags : BitVec 16) :
    down (vmmPhysAndFlagsToTableEntry a (pgPresent ||| parentFlags flags)) = some a := by
  have hpresent : isPresent (vmmPhysAndFlagsToTableEntry a (pgPresent ||| parentFlags flags)) := by
    rw [isPresent, entry_and a pgPresent pgPresent flags (by decide) (by decide)]
    have hmask : (0xfffffffffffff000 : BitVec 64) &&& pgPresent = 0#64 := by decide
    rw [hmask, BitVec.and_zero]
    decide
  have hsmall :
      ¬ isPagesizeLeaf (vmmPhysAndFlagsToTableEntry a (pgPresent ||| parentFlags flags)) := by
    rw [isPagesizeLeaf, entry_and a pgPresent pgPagesize flags (by decide) (by decide)]
    have hmask : (0xfffffffffffff000 : BitVec 64) &&& pgPagesize = 0#64 := by decide
    rw [hmask, BitVec.and_zero]
    decide
  rw [down, if_pos ⟨hpresent, hsmall⟩, vmmTableEntryToPhys,
    entry_and a pgPresent _ flags (by decide) (by decide)]
  have hmask : (0xfffffffffffff000 : BitVec 64) &&& 0x0000fffffffff000 = 0x0000fffffffff000 := by
    decide
  have hlow : pgPresent &&& 0x0000fffffffff000 = 0#64 := by decide
  rw [hmask, hlow, BitVec.or_zero]
  exact congrArg some frame

/-- Giving an entry more flags changes none of the other masked parts. -/
theorem reflag_and (e mask : BitVec 64) (flags : BitVec 16) (hw : pgWrite &&& mask = 0#64)
    (hu : pgUser &&& mask = 0#64)
    (hmask : ((0x0000fffffffff000 : BitVec 64) &&& (0xfffffffffffff000 &&& mask)) |||
      (0x3ff &&& mask) = mask) :
    vmmPhysAndFlagsToTableEntry (vmmTableEntryToPhys e)
      (vmmTableEntryToPageFlags e ||| parentFlags flags) &&& mask = e &&& mask := by
  rw [entry_and _ _ mask flags hw hu, vmmTableEntryToPhys, vmmTableEntryToPageFlags,
    BitVec.and_assoc, BitVec.and_assoc, ← BitVec.and_or_distrib_left, hmask]

theorem not_isPresent_zero : ¬ isPresent 0 := by decide

theorem down_eq_some {e c : BitVec 64} :
    down e = some c ↔ isPresent e ∧ ¬ isPagesizeLeaf e ∧ vmmTableEntryToPhys e = c := by
  unfold down
  split_ifs with h
  · simp [h]
  · simp only [false_iff]
    exact fun hc => h ⟨hc.1, hc.2.1⟩

theorem down_reflag {e c : BitVec 64} (h : down e = some c) (flags : BitVec 16) :
    down (vmmPhysAndFlagsToTableEntry c (vmmTableEntryToPageFlags e ||| parentFlags flags)) =
      some c := by
  obtain ⟨hpresent, hsmall, rfl⟩ := down_eq_some.mp h
  refine down_eq_some.mpr ⟨?_, ?_, ?_⟩
  · rwa [isPresent, reflag_and e pgPresent flags (by decide) (by decide) (by decide)]
  · rwa [isPagesizeLeaf, reflag_and e pgPagesize flags (by decide) (by decide) (by decide)]
  · exact reflag_and e _ flags (by decide) (by decide) (by decide)

/-! ## Walks, level by level -/

/-- The walk from a table with `n` levels below it. -/
def leaf (mem : BitVec 64 → Fin 512 → BitVec 64) (v : BitVec 64) : Nat → BitVec 64 → BitVec 64
  | 0, t =>
    let e := mem t (vmmVirtToTableIndex v 1)
    if isPresent e then e else 0
  | n + 1, t =>
    let e := mem t (vmmVirtToTableIndex v (n + 2))
    if isPresent e then leaf mem v n (vmmTableEntryToPhys e) else 0

/-- No entry on the way of `v` is a large page. -/
def Straight (mem : BitVec 64 → Fin 512 → BitVec 64) (v : BitVec 64) : Nat → BitVec 64 → Prop
  | 0, _ => True
  | n + 1, t =>
    let e := mem t (vmmVirtToTableIndex v (n + 2))
    isPresent e → ¬ isPagesizeLeaf e ∧ Straight mem v n (vmmTableEntryToPhys e)

/-- The way of `v` arrives at the page table `pt`. -/
def Leads (mem : BitVec 64 → Fin 512 → BitVec 64) (v pt : BitVec 64) : Nat → BitVec 64 → Prop
  | 0, t => pt = t
  | n + 1, t => ∃ c, down (mem t (vmmVirtToTableIndex v (n + 2))) = some c ∧ Leads mem v pt n c

theorem vmmVirtToPtEntry_eq_leaf (m : Machine) (pml4 v : BitVec 64) :
    vmmVirtToPtEntry m pml4 v = leaf m.mem v 3 pml4 := rfl

section Levels

variable {mem mem' : BitVec 64 → Fin 512 → BitVec 64} {v t : BitVec 64} {n : Nat}

/-- The first step of a walk: to the table below, or the end. -/
theorem Straight.cases (h : Straight mem v (n + 1) t) :
    (∃ c, down (mem t (vmmVirtToTableIndex v (n + 2))) = some c ∧ Straight mem v n c ∧
      leaf mem v (n + 1) t = leaf mem v n c) ∨
    (¬ isPresent (mem t (vmmVirtToTableIndex v (n + 2))) ∧ leaf mem v (n + 1) t = 0) := by
  by_cases hp : isPresent (mem t (vmmVirtToTableIndex v (n + 2)))
  · obtain ⟨hsmall, hrest⟩ := h hp
    exact Or.inl ⟨_, down_eq_some.mpr ⟨hp, hsmall, rfl⟩, hrest, if_pos hp⟩
  · exact Or.inr ⟨hp, if_neg hp⟩

theorem Straight.of_down {c : BitVec 64}
    (hc : down (mem t (vmmVirtToTableIndex v (n + 2))) = some c) (h : Straight mem v n c) :
    Straight mem v (n + 1) t ∧ leaf mem v (n + 1) t = leaf mem v n c := by
  obtain ⟨hp, hsmall, rfl⟩ := down_eq_some.mp hc
  exact ⟨fun _ => ⟨hsmall, h⟩, if_pos hp⟩

theorem Straight.of_absent (h : ¬ isPresent (mem t (vmmVirtToTableIndex v (n + 2)))) :
    Straight mem v (n + 1) t ∧ leaf mem v (n + 1) t = 0 :=
  ⟨fun hp => absurd hp h, if_neg h⟩

/-- A walk reads only tables of the tree. -/
theorem Straight.congr (h : Straight mem v n t)
    (same : ∀ f, Member down mem n t f → mem' f = mem f) :
    Straight mem' v n t ∧ leaf mem' v n t = leaf mem v n t := by
  induction n generalizing t with
  | zero =>
    have ht : mem' t = mem t := same t (member_self _ _)
    exact ⟨trivial, by rw [leaf, leaf, ht]⟩
  | succ n ih =>
    have ht : mem' t = mem t := same t (member_self _ _)
    rcases h.cases with ⟨c, hc, hrest, hleaf⟩ | ⟨habsent, hleaf⟩
    · obtain ⟨hrest', hsame⟩ := ih hrest (fun f hf => same f (hf.child hc))
      rw [← ht] at hc
      obtain ⟨hstraight, hleaf'⟩ := Straight.of_down hc hrest'
      exact ⟨hstraight, by rw [hleaf', hsame, hleaf]⟩
    · rw [← ht] at habsent
      obtain ⟨hstraight, hleaf'⟩ := Straight.of_absent habsent
      exact ⟨hstraight, by rw [hleaf', hleaf]⟩

/-- A walk through the entry that was rebuilt. -/
theorem Straight.of_graft {c : BitVec 64} {i : Fin 512} (g : Graft down mem mem' n t i c)
    (hi : vmmVirtToTableIndex v (n + 2) = i) (h : Straight mem' v n c) :
    Straight mem' v (n + 1) t ∧ leaf mem' v (n + 1) t = leaf mem' v n c :=
  Straight.of_down (hi ▸ g.link) h

/-- A walk through another entry than the one that was rebuilt. -/
theorem Straight.graft_kept {c : BitVec 64} {i : Fin 512} (h : Straight mem v (n + 1) t)
    (g : Graft down mem mem' n t i c) (hi : vmmVirtToTableIndex v (n + 2) ≠ i) :
    Straight mem' v (n + 1) t ∧ leaf mem' v (n + 1) t = leaf mem v (n + 1) t := by
  have hentry := g.others _ hi
  rcases h.cases with ⟨d, hd, hrest, hleaf⟩ | ⟨habsent, hleaf⟩
  · obtain ⟨hrest', hsame⟩ := hrest.congr (g.same _ hi d hd)
    rw [← hentry] at hd
    obtain ⟨hstraight, hleaf'⟩ := Straight.of_down hd hrest'
    exact ⟨hstraight, by rw [hleaf', hsame, hleaf]⟩
  · rw [← hentry] at habsent
    obtain ⟨hstraight, hleaf'⟩ := Straight.of_absent habsent
    exact ⟨hstraight, by rw [hleaf', hleaf]⟩

theorem Leads.member {pt : BitVec 64} (h : Leads mem v pt n t) : Member down mem n t pt := by
  induction n generalizing t with
  | zero => exact h
  | succ n ih =>
    obtain ⟨c, hc, hrest⟩ := h
    exact (ih hrest).child hc

/-- A table of absent entries is a tree of its own. -/
theorem empty_table {c : BitVec 64} (empty : mem c = fun _ => 0) :
    Tree down mem n c ∧ ∀ f, Member down mem n c f → f = c := by
  have hnone : ∀ i d, down (mem c i) ≠ some d := by
    intro i d hd
    rw [empty] at hd
    exact not_isPresent_zero (down_eq_some.mp hd).1
  cases n with
  | zero => exact ⟨trivial, fun f hf => hf⟩
  | succ n =>
    refine ⟨⟨fun i d hd => absurd hd (hnone i d), fun i j d d' _ hd => absurd hd (hnone i d)⟩, ?_⟩
    rintro f (rfl | ⟨i, d, hd, -⟩)
    · rfl
    · exact absurd hd (hnone i d)

theorem empty_walk {c : BitVec 64} (empty : mem c = fun _ => 0) (v : BitVec 64) :
    Straight mem v n c ∧ leaf mem v n c = 0 := by
  have habsent : ∀ i, ¬ isPresent (mem c i) := by
    intro i
    rw [empty]
    exact not_isPresent_zero
  cases n with
  | zero => exact ⟨trivial, if_neg (habsent _)⟩
  | succ n => exact Straight.of_absent (habsent _)

end Levels

/-! ## Ensuring the tables -/

/-- The free pages are different frames, none of them a table of the tree. -/
structure Supplies (m : Machine) (n : Nat) (t : BitVec 64) : Prop where
  sized : WellSized m.region
  nodup : (freePages m.region).Nodup
  frames : ∀ page ∈ freePages m.region, IsFrame page
  apart : ∀ page ∈ freePages m.region, ¬ Member down m.mem n t page

/-- What making room for `v` under a table leaves: a tree that grew by pages taken from the
free ones, with every walk as before, and a way for `v`. -/
structure Ensured (v : BitVec 64) (n : Nat) (t : BitVec 64) (m m' : Machine)
    (taken : List (BitVec 64)) (result : Option (BitVec 64)) : Prop where
  perm : (freePages m.region).Perm (taken ++ freePages m'.region)
  sized : WellSized m'.region
  tree : Tree down m'.mem n t
  members : ∀ f, Member down m'.mem n t f → Member down m.mem n t f ∨ f ∈ taken
  frame : ∀ f, ¬ Member down m.mem n t f → f ∉ taken → m'.mem f = m.mem f
  walks : ∀ v', Straight m.mem v' n t →
    Straight m'.mem v' n t ∧ leaf m'.mem v' n t = leaf m.mem v' n t
  leads : ∀ pt, result = some pt → Leads m'.mem v pt n t

theorem Ensured.refl {v t : BitVec 64} {n : Nat} {m : Machine} {result : Option (BitVec 64)}
    (sized : WellSized m.region) (tree : Tree down m.mem n t)
    (leads : ∀ pt, result = some pt → Leads m.mem v pt n t) : Ensured v n t m m [] result where
  perm := List.Perm.refl _
  sized := sized
  tree := tree
  members := fun _ hf => Or.inl hf
  frame := fun _ _ _ => rfl
  walks := fun _ h => ⟨h, rfl⟩
  leads := leads

/-- One turn of the loop: the entry of `t` on the way was made to point to `c`, with `fresh`
taken from the free pages for it. -/
structure Turn (v t c : BitVec 64) (n : Nat) (m m1 : Machine) (fresh : List (BitVec 64)) : Prop where
  perm : (freePages m.region).Perm (fresh ++ freePages m1.region)
  others : ∀ j ≠ vmmVirtToTableIndex v (n + 2), m1.mem t j = m.mem t j
  link : down (m1.mem t (vmmVirtToTableIndex v (n + 2))) = some c
  same : ∀ f, f ≠ t → f ∉ fresh → m1.mem f = m.mem f
  below : ∀ f, Member down m1.mem n c f → f ∈ fresh ∨
    (down (m.mem t (vmmVirtToTableIndex v (n + 2))) = some c ∧ Member down m.mem n c f)
  walk : ∀ v', vmmVirtToTableIndex v' (n + 2) = vmmVirtToTableIndex v (n + 2) →
    Straight m.mem v' (n + 1) t →
      Straight m1.mem v' n c ∧ leaf m1.mem v' n c = leaf m.mem v' (n + 1) t

section Turns

variable {v t c f : BitVec 64} {n : Nat} {m m1 m' : Machine} {fresh taken : List (BitVec 64)}
  {result : Option (BitVec 64)}

theorem Turn.perm_all (turn : Turn v t c n m m1 fresh) (h : Ensured v n c m1 m' taken result) :
    (freePages m.region).Perm ((fresh ++ taken) ++ freePages m'.region) := by
  rw [List.append_assoc]
  exact turn.perm.trans (h.perm.append_left _)

/-- No table of the tree is among the pages that were taken. -/
theorem Turn.not_taken (turn : Turn v t c n m m1 fresh) (supplies : Supplies m (n + 1) t)
    (h : Ensured v n c m1 m' taken result) (hf : Member down m.mem (n + 1) t f) :
    f ∉ fresh ∧ f ∉ taken := by
  have hfree : f ∉ fresh ++ taken := fun hx =>
    supplies.apart f ((turn.perm_all h).mem_iff.mpr (List.mem_append_left _ hx)) hf
  simpa [not_or] using hfree

theorem Turn.above (turn : Turn v t c n m m1 fresh) (tree : Tree down m.mem (n + 1) t)
    (supplies : Supplies m (n + 1) t) (h : Ensured v n c m1 m' taken result) :
    ¬ Member down m1.mem n c t := by
  intro hmem
  rcases turn.below t hmem with hx | ⟨hc, hx⟩
  · exact (turn.not_taken supplies h (member_self _ _)).1 hx
  · exact (tree.1 _ _ hc).2 hx

theorem Turn.table (turn : Turn v t c n m m1 fresh) (tree : Tree down m.mem (n + 1) t)
    (supplies : Supplies m (n + 1) t) (h : Ensured v n c m1 m' taken result) :
    m'.mem t = m1.mem t :=
  h.frame t (turn.above tree supplies h) (turn.not_taken supplies h (member_self _ _)).2

/-- A table under another entry is untouched and not under `c`. -/
theorem Turn.other (turn : Turn v t c n m m1 fresh) (tree : Tree down m.mem (n + 1) t)
    (supplies : Supplies m (n + 1) t) (h : Ensured v n c m1 m' taken result) {j : Fin 512}
    (hj : j ≠ vmmVirtToTableIndex v (n + 2)) {d : BitVec 64} (hd : down (m.mem t j) = some d)
    (hf : Member down m.mem n d f) : ¬ Member down m1.mem n c f ∧ m'.mem f = m.mem f := by
  obtain ⟨hfresh, htaken⟩ := turn.not_taken supplies h (hf.child hd)
  have hnot : ¬ Member down m1.mem n c f := by
    intro hc
    rcases turn.below f hc with hx | ⟨hdown, hx⟩
    · exact hfresh hx
    · exact tree.2 _ _ _ _ hj hd hdown f hf hx
  have hne : f ≠ t := fun e => (tree.1 j d hd).2 (e ▸ hf)
  exact ⟨hnot, (h.frame f hnot htaken).trans (turn.same f hne hfresh)⟩

theorem Turn.graft (turn : Turn v t c n m m1 fresh) (tree : Tree down m.mem (n + 1) t)
    (supplies : Supplies m (n + 1) t) (h : Ensured v n c m1 m' taken result) :
    Graft down m.mem m'.mem n t (vmmVirtToTableIndex v (n + 2)) c := by
  have htable := turn.table tree supplies h
  constructor
  · intro j hj
    rw [htable]
    exact turn.others j hj
  · rw [htable]
    exact turn.link
  · exact h.tree
  · intro hmem
    rcases h.members t hmem with hx | hx
    · exact turn.above tree supplies h hx
    · exact (turn.not_taken supplies h (member_self _ _)).2 hx
  · exact fun j hj d hd f hf => (turn.other tree supplies h hj hd hf).2
  · intro j hj d hd f hf hmem
    rcases h.members f hmem with hx | hx
    · exact (turn.other tree supplies h hj hd hf).1 hx
    · exact (turn.not_taken supplies h (hf.child hd)).2 hx

/-- A turn of the loop, and the tables from `c` on ensured after it. -/
theorem Ensured.lift (h : Ensured v n c m1 m' taken result) (turn : Turn v t c n m m1 fresh)
    (tree : Tree down m.mem (n + 1) t) (supplies : Supplies m (n + 1) t) :
    Ensured v (n + 1) t m m' (fresh ++ taken) result := by
  have graft := turn.graft tree supplies h
  refine ⟨turn.perm_all h, h.sized, graft.tree tree, ?_, ?_, ?_, ?_⟩
  · intro f hf
    rcases graft.member f hf with hx | hx
    · rcases h.members f hx with hx | hx
      · rcases turn.below f hx with hx | ⟨hc, hx⟩
        · exact Or.inr (List.mem_append_left _ hx)
        · exact Or.inl (hx.child hc)
      · exact Or.inr (List.mem_append_right _ hx)
    · exact Or.inl hx
  · intro f hf htaken
    simp only [List.mem_append, not_or] at htaken
    have hne : f ≠ t := fun e => hf (e ▸ member_self _ _)
    have hnot : ¬ Member down m1.mem n c f := by
      intro hc
      rcases turn.below f hc with hx | ⟨hdown, hx⟩
      · exact htaken.1 hx
      · exact hf (hx.child hdown)
    exact (h.frame f hnot htaken.2).trans (turn.same f hne htaken.1)
  · intro v' hv'
    by_cases hi : vmmVirtToTableIndex v' (n + 2) = vmmVirtToTableIndex v (n + 2)
    · obtain ⟨hstraight, hleaf⟩ := turn.walk v' hi hv'
      obtain ⟨hstraight', hleaf'⟩ := h.walks v' hstraight
      obtain ⟨hs, hl⟩ := Straight.of_graft graft hi hstraight'
      exact ⟨hs, by rw [hl, hleaf', hleaf]⟩
    · exact hv'.graft_kept graft hi
  · exact fun pt hpt => ⟨c, graft.link, h.leads pt hpt⟩

end Turns

/-- The turn that takes a page for a table that is missing. -/
theorem Ensured.create {v t : BitVec 64} {flags : BitVec 16} {n : Nat} {m : Machine}
    (tree : Tree down m.mem (n + 1) t) (supplies : Supplies m (n + 1) t)
    (habsent : ¬ isPresent (m.mem t (vmmVirtToTableIndex v (n + 2))))
    (nonempty : m.region.stack ≠ [])
    (ih : ∀ (c : BitVec 64) (m1 : Machine), Tree down m1.mem n c → Supplies m1 n c →
      Straight m1.mem v n c → ∃ taken, Ensured v n c m1 (ensureTablesLoop v flags n c m1).2 taken
        (ensureTablesLoop v flags n c m1).1) :
    ∃ taken, Ensured v (n + 1) t m (ensureTablesLoop v flags (n + 1) t m).2 taken
      (ensureTablesLoop v flags (n + 1) t m).1 := by
  have hzero : m.mem t (vmmVirtToTableIndex v (n + 2)) &&& pgPresent = 0 := by
    simpa [isPresent] using habsent
  obtain ⟨new, region, hnew⟩ : ∃ new region, pageAlloc m.region = (new, region) := ⟨_, _, rfl⟩
  have hallocated := pageAlloc_allocated supplies.sized supplies.nodup nonempty hnew
  have hframe := supplies.frames new hallocated.taken
  have hne : t ≠ new := fun e => supplies.apart new hallocated.taken (e ▸ member_self _ _)
  simp only [ensureTablesLoop, if_pos hzero, hnew, hframe.aligned, ne_eq, not_true, if_false]
  generalize hm1 : (⟨setEntry (Function.update m.mem new fun _ => 0) t
    (vmmVirtToTableIndex v (n + 2))
    (vmmPhysAndFlagsToTableEntry new (pgPresent ||| parentFlags flags)), region⟩ : Machine) = m1
  have hempty : m1.mem new = fun _ => 0 := by
    rw [← hm1]
    exact (setEntry_table _ _ hne.symm).trans (Function.update_self _ _ _)
  have hother : ∀ f, f ≠ t → f ∉ [new] → m1.mem f = m.mem f := by
    intro f hft hfn
    rw [← hm1]
    exact (setEntry_table _ _ hft).trans
      (Function.update_of_ne (fun e => hfn (List.mem_singleton.mpr e)) _ _)
  have hregion : m1.region = region := by rw [← hm1]
  obtain ⟨htree, hmembers⟩ := @empty_table m1.mem n new hempty
  have hsupplies : Supplies m1 n new := by
    rw [← hregion] at hallocated
    refine ⟨hallocated.sized, hallocated.nodup, fun page hp => ?_, fun page hp hx => ?_⟩
    · exact supplies.frames page (hallocated.left hp)
    · exact hallocated.fresh (hmembers page hx ▸ hp)
  obtain ⟨taken, h⟩ := ih new m1 htree hsupplies (empty_walk hempty v).1
  refine ⟨[new] ++ taken, h.lift ⟨?_, ?_, ?_, hother, ?_, ?_⟩ tree supplies⟩
  · rw [hregion]
    exact hallocated.perm
  · intro j hj
    rw [← hm1]
    exact (setEntry_index _ hj).trans (congrFun (Function.update_of_ne hne _ _) j)
  · rw [← hm1]
    exact (congrArg down (setEntry_self _ _ _ _)).trans (down_newEntry hframe flags)
  · exact fun f hf => Or.inl (List.mem_singleton.mpr (hmembers f hf))
  · intro v' hi hv'
    obtain ⟨hs, hl⟩ := @empty_walk m1.mem n new hempty v'
    rw [← hi] at habsent
    exact ⟨hs, hl.trans (Straight.of_absent habsent).2.symm⟩

/-- The turn that goes on to a table that is there. -/
theorem Ensured.descend {v t : BitVec 64} {flags : BitVec 16} {n : Nat} {m : Machine}
    (tree : Tree down m.mem (n + 1) t) (supplies : Supplies m (n + 1) t)
    (straight : Straight m.mem v (n + 1) t)
    (hpresent : isPresent (m.mem t (vmmVirtToTableIndex v (n + 2))))
    (ih : ∀ (c : BitVec 64) (m1 : Machine), Tree down m1.mem n c → Supplies m1 n c →
      Straight m1.mem v n c → ∃ taken, Ensured v n c m1 (ensureTablesLoop v flags n c m1).2 taken
        (ensureTablesLoop v flags n c m1).1) :
    ∃ taken, Ensured v (n + 1) t m (ensureTablesLoop v flags (n + 1) t m).2 taken
      (ensureTablesLoop v flags (n + 1) t m).1 := by
  obtain ⟨hsmall, hrest⟩ := straight hpresent
  have hzero : ¬ m.mem t (vmmVirtToTableIndex v (n + 2)) &&& pgPresent = 0 := by
    simpa [isPresent] using hpresent
  have hdown := down_eq_some.mpr ⟨hpresent, hsmall, rfl⟩
  simp only [ensureTablesLoop, if_neg hzero, hsmall, Bool.false_eq_true, and_false, if_false]
  generalize hc : vmmTableEntryToPhys (m.mem t (vmmVirtToTableIndex v (n + 2))) = c at hrest hdown
  generalize hm1 : (⟨setEntry m.mem t (vmmVirtToTableIndex v (n + 2))
    (vmmPhysAndFlagsToTableEntry c (vmmTableEntryToPageFlags
      (m.mem t (vmmVirtToTableIndex v (n + 2))) ||| parentFlags flags)), m.region⟩ : Machine) = m1
  have hother : ∀ f, f ≠ t → m1.mem f = m.mem f := by
    intro f hft
    rw [← hm1]
    exact setEntry_table _ _ hft
  have hregion : m1.region = m.region := by rw [← hm1]
  obtain ⟨hsub, habove⟩ := tree.1 _ _ hdown
  have hsame : ∀ f, Member down m.mem n c f → m1.mem f = m.mem f :=
    fun f hf => hother f (fun e => habove (e ▸ hf))
  have hsupplies : Supplies m1 n c := by
    refine ⟨hregion ▸ supplies.sized, hregion ▸ supplies.nodup, hregion ▸ supplies.frames, ?_⟩
    intro page hp hx
    rw [member_congr hsame] at hx
    exact supplies.apart page (hregion ▸ hp) (hx.child hdown)
  obtain ⟨taken, h⟩ := ih c m1 (hsub.congr hsame) hsupplies (hrest.congr hsame).1
  refine ⟨[] ++ taken, h.lift ⟨?_, ?_, ?_, fun f hf _ => hother f hf, ?_, ?_⟩ tree supplies⟩
  · rw [hregion]
    exact List.Perm.refl _
  · intro j hj
    rw [← hm1]
    exact setEntry_index _ hj
  · rw [← hm1]
    exact (congrArg down (setEntry_self _ _ _ _)).trans (down_reflag hdown flags)
  · exact fun f hf => Or.inr ⟨hdown, (member_congr hsame f).mp hf⟩
  · intro v' hi hv'
    rcases hv'.cases with ⟨d, hd, hrest', hleaf⟩ | ⟨habsent, -⟩
    · rw [hi] at hd
      obtain rfl := Option.some.inj (hd.symm.trans hdown)
      obtain ⟨hs, hl⟩ := hrest'.congr hsame
      exact ⟨hs, hl.trans hleaf.symm⟩
    · rw [hi] at habsent
      exact absurd hpresent habsent

theorem ensureTablesLoop_ensured (v : BitVec 64) (flags : BitVec 16) {n : Nat} {t : BitVec 64}
    {m : Machine} (tree : Tree down m.mem n t) (supplies : Supplies m n t)
    (straight : Straight m.mem v n t) :
    ∃ taken, Ensured v n t m (ensureTablesLoop v flags n t m).2 taken
      (ensureTablesLoop v flags n t m).1 := by
  induction n generalizing t m with
  | zero =>
    refine ⟨[], Ensured.refl supplies.sized tree ?_⟩
    intro pt hpt
    exact (Option.some.inj hpt).symm
  | succ n ih =>
    by_cases hpresent : isPresent (m.mem t (vmmVirtToTableIndex v (n + 2)))
    · exact Ensured.descend tree supplies straight hpresent (fun c m1 => ih)
    · by_cases hstack : m.region.stack = []
      · -- `page_alloc` fails, and the loop ends without a table
        have hzero : m.mem t (vmmVirtToTableIndex v (n + 2)) &&& pgPresent = 0 := by
          simpa [isPresent] using hpresent
        have hfail := pageAlloc_empty hstack
        have hodd : (0xFF : BitVec 64) &&& 0xfff ≠ 0 := by decide
        simp only [ensureTablesLoop, if_pos hzero, hfail, if_pos hodd]
        exact ⟨[], Ensured.refl supplies.sized tree (fun pt hpt => absurd hpt (by simp))⟩
      · exact Ensured.create tree supplies hpresent hstack (fun c m1 => ih)

/-! ## Writing the leaf -/

/-- Two addresses take the same way through `n` levels and the leaf. -/
def Agrees (n : Nat) (v v' : BitVec 64) : Prop :=
  ∀ l ≤ n, vmmVirtToTableIndex v' (l + 1) = vmmVirtToTableIndex v (l + 1)

/-- Writing the entry of `v` in the page table its way leads to changes the walks of `v`
alone. -/
structure LeafSet (v : BitVec 64) (entry : BitVec 64) (n : Nat) (t : BitVec 64)
    (mem mem' : BitVec 64 → Fin 512 → BitVec 64) : Prop where
  tree : Tree down mem' n t
  members : ∀ f, Member down mem' n t f → Member down mem n t f
  straight : ∀ v', Straight mem v' n t → Straight mem' v' n t
  written : ∀ v', Straight mem v' n t → Agrees n v v' →
    leaf mem' v' n t = if isPresent entry then entry else 0
  kept : ∀ v', Straight mem v' n t → ¬ Agrees n v v' → leaf mem' v' n t = leaf mem v' n t

theorem leafSet_setEntry {mem : BitVec 64 → Fin 512 → BitVec 64} {v pt t : BitVec 64} {n : Nat}
    (entry : BitVec 64) (tree : Tree down mem n t) (leads : Leads mem v pt n t) :
    LeafSet v entry n t mem (setEntry mem pt (vmmVirtToTableIndex v 1) entry) := by
  induction n generalizing t with
  | zero =>
    obtain rfl : pt = t := leads
    refine ⟨trivial, fun f hf => hf, fun _ _ => trivial, fun v' _ hv => ?_, fun v' _ hv => ?_⟩
    · have hi := hv 0 le_rfl
      simp only [leaf, hi, setEntry_self]
    · have hi : vmmVirtToTableIndex v' 1 ≠ vmmVirtToTableIndex v 1 := by
        intro hi
        refine hv (fun l hl => ?_)
        obtain rfl : l = 0 := by omega
        exact hi
      simp only [leaf, setEntry_index entry hi]
  | succ n ih =>
    obtain ⟨c, hc, hrest⟩ := leads
    obtain ⟨hsub, habove⟩ := tree.1 _ _ hc
    have h := ih hsub hrest
    generalize hmem' : setEntry mem pt (vmmVirtToTableIndex v 1) entry = mem' at h
    have hsame : ∀ f, f ≠ pt → mem' f = mem f := by
      intro f hf
      rw [← hmem']
      exact setEntry_table _ _ hf
    have ht : mem' t = mem t := hsame t (fun e => habove (e ▸ hrest.member))
    have hother : ∀ j ≠ vmmVirtToTableIndex v (n + 2), ∀ d, down (mem t j) = some d →
        ∀ f, Member down mem n d f → mem' f = mem f := by
      intro j hj d hd f hf
      refine hsame f ?_
      rintro rfl
      exact tree.2 _ _ _ _ hj hd hc f hf hrest.member
    have graft : Graft down mem mem' n t (vmmVirtToTableIndex v (n + 2)) c := by
      refine ⟨fun j _ => congrFun ht j, (congrArg down (congrFun ht _)).trans hc, h.tree,
        fun hm => habove (h.members t hm), hother, ?_⟩
      exact fun j hj d hd f hf hm => tree.2 _ _ _ _ hj hd hc f hf (h.members f hm)
    -- a walk goes under `c` or under another entry
    have hunder : ∀ v', vmmVirtToTableIndex v' (n + 2) = vmmVirtToTableIndex v (n + 2) →
        Straight mem v' (n + 1) t →
          Straight mem v' n c ∧ leaf mem v' (n + 1) t = leaf mem v' n c ∧
          Straight mem' v' (n + 1) t ∧ leaf mem' v' (n + 1) t = leaf mem' v' n c := by
      intro v' hi hv'
      rcases hv'.cases with ⟨d, hd, hs, hl⟩ | ⟨habsent, -⟩
      · rw [hi, hc] at hd
        obtain rfl := Option.some.inj hd
        exact ⟨hs, hl, Straight.of_graft graft hi (h.straight v' hs)⟩
      · rw [hi] at habsent
        exact absurd (down_eq_some.mp hc).1 habsent
    refine ⟨graft.tree tree, ?_, ?_, ?_, ?_⟩
    · intro f hf
      rcases graft.member f hf with hx | hx
      · exact (h.members f hx).child hc
      · exact hx
    · intro v' hv'
      by_cases hi : vmmVirtToTableIndex v' (n + 2) = vmmVirtToTableIndex v (n + 2)
      · exact (hunder v' hi hv').2.2.1
      · exact (hv'.graft_kept graft hi).1
    · intro v' hv' hagree
      obtain ⟨hs, -, -, hl⟩ := hunder v' (hagree (n + 1) le_rfl) hv'
      rw [hl]
      exact h.written v' hs (fun l hl => hagree l (by omega))
    · intro v' hv' hdiffer
      by_cases hi : vmmVirtToTableIndex v' (n + 2) = vmmVirtToTableIndex v (n + 2)
      · obtain ⟨hs, hl, -, hl'⟩ := hunder v' hi hv'
        rw [hl', hl]
        refine h.kept v' hs (fun hagree => hdiffer (fun l hl => ?_))
        by_cases hlast : l = n + 1
        · subst hlast
          exact hi
        · exact hagree l (by omega)
      · exact (hv'.graft_kept graft hi).2

/-! ## Virtual pages -/

/-- The number of the 48-bit virtual page of an address. -/
def pageNumber (v : BitVec 64) : BitVec 64 := (v >>> 12) &&& 0xfffffffff

theorem index_eq (v : BitVec 64) (l : Nat) :
    (vmmVirtToTableIndex v (l + 1)).val = v.toNat / 2 ^ (9 * l + 12) % 512 := by
  rw [vmmVirtToTableIndex, tableIndex_val, Nat.add_sub_cancel, BitVec.toNat_ushiftRight,
    Nat.shiftRight_eq_div_pow]

theorem toNat_pageNumber (v : BitVec 64) : (pageNumber v).toNat = v.toNat / 4096 % 2 ^ 36 := by
  have hlow : (0xfffffffff : BitVec 64).toNat = 2 ^ 36 - 1 := rfl
  rw [pageNumber, Masks.toNat_and_low _ _ 36 hlow, BitVec.toNat_ushiftRight,
    Nat.shiftRight_eq_div_pow]

/-- The four indices determine the page. -/
theorem pageNumber_eq_of_agrees {v v' : BitVec 64} (h : Agrees 3 v v') :
    pageNumber v' = pageNumber v := by
  apply BitVec.eq_of_toNat_eq
  have h0 := congrArg Fin.val (h 0 (by decide))
  have h1 := congrArg Fin.val (h 1 (by decide))
  have h2 := congrArg Fin.val (h 2 (by decide))
  have h3 := congrArg Fin.val (h 3 (by decide))
  simp only [index_eq] at h0 h1 h2 h3
  rw [toNat_pageNumber, toNat_pageNumber]
  norm_num at h0 h1 h2 h3 ⊢
  omega

theorem index_eq_of_pageNumber {v u : BitVec 64} (h : pageNumber v = pageNumber u) {l : Nat}
    (hl : l ≤ 3) : vmmVirtToTableIndex v (l + 1) = vmmVirtToTableIndex u (l + 1) := by
  have hpage := congrArg BitVec.toNat h
  rw [toNat_pageNumber, toNat_pageNumber] at hpage
  apply Fin.ext
  rw [index_eq, index_eq]
  obtain rfl | rfl | rfl | rfl : l = 0 ∨ l = 1 ∨ l = 2 ∨ l = 3 := by omega
  all_goals omega

/-- The entry of an address is that of its page. -/
theorem entry_eq_of_pageNumber {v u : BitVec 64} (h : pageNumber v = pageNumber u)
    (m : Machine) (pml4 : BitVec 64) : vmmVirtToPtEntry m pml4 v = vmmVirtToPtEntry m pml4 u := by
  have h4 : vmmVirtToPml4Index v = vmmVirtToPml4Index u :=
    @index_eq_of_pageNumber v u h 3 (by decide)
  have h3 : vmmVirtToPdptIndex v = vmmVirtToPdptIndex u :=
    @index_eq_of_pageNumber v u h 2 (by decide)
  have h2 : vmmVirtToPdIndex v = vmmVirtToPdIndex u :=
    @index_eq_of_pageNumber v u h 1 (by decide)
  have h1 : vmmVirtToPtIndex v = vmmVirtToPtIndex u :=
    @index_eq_of_pageNumber v u h 0 (by decide)
  rw [vmmVirtToPtEntry, vmmVirtToPtEntry, h4, h3, h2, h1]

theorem index_align (v : BitVec 64) (l : Nat) :
    vmmVirtToTableIndex (v &&& 0xfffffffffffff000) (l + 1) = vmmVirtToTableIndex v (l + 1) := by
  have halign : (v &&& 0xfffffffffffff000).toNat = v.toNat / 2 ^ 12 * 2 ^ 12 :=
    Masks.toNat_and_high v _ 12 (by norm_num) rfl
  have hpow : 2 ^ (9 * l + 12) = 2 ^ 12 * 2 ^ (9 * l) := by rw [← pow_add, Nat.add_comm]
  apply Fin.ext
  rw [index_eq, index_eq, halign, hpow, ← Nat.div_div_eq_div_mul, ← Nat.div_div_eq_div_mul,
    Nat.mul_div_cancel _ (by norm_num)]

theorem straight_align {mem : BitVec 64 → Fin 512 → BitVec 64} {v t : BitVec 64} {n : Nat} :
    Straight mem (v &&& 0xfffffffffffff000) n t ↔ Straight mem v n t := by
  induction n generalizing t with
  | zero => rfl
  | succ n ih => simp only [Straight, index_align, ih]

theorem leads_align {mem : BitVec 64 → Fin 512 → BitVec 64} {v pt t : BitVec 64} {n : Nat} :
    Leads mem (v &&& 0xfffffffffffff000) pt n t ↔ Leads mem v pt n t := by
  induction n generalizing t with
  | zero => rfl
  | succ n ih => simp only [Leads, index_align, ih]

/-- A tree of tables under a top-level table, with pages to grow it. -/
structure WellFormed (m : Machine) (pml4 : BitVec 64) : Prop where
  tree : Tree down m.mem 3 pml4
  supplies : Supplies m 3 pml4

/-- The pages are fewer, or there were none. -/
theorem WellFormed.pageAlloc {m : Machine} {pml4 : BitVec 64} (wf : WellFormed m pml4) :
    WellFormed { m with region := (PageAlloc.pageAlloc m.region).2 } pml4 := by
  by_cases hempty : m.region.stack = []
  · rw [pageAlloc_empty hempty]
    exact wf
  · have hallocated := pageAlloc_allocated wf.supplies.sized wf.supplies.nodup hempty rfl
    refine ⟨wf.tree, hallocated.sized, hallocated.nodup, ?_, ?_⟩
    · intro page hp
      exact wf.supplies.frames page (hallocated.left hp)
    · intro page hp
      exact wf.supplies.apart page (hallocated.left hp)

/-- The walk of every address that was straight is straight still, and outside the page of `v`
it finds what it found before. -/
def KeepsOthers (v pml4 : BitVec 64) (m m' : Machine) : Prop :=
  ∀ v', Straight m.mem v' 3 pml4 → Straight m'.mem v' 3 pml4 ∧
    (pageNumber v' ≠ pageNumber v → vmmVirtToPtEntry m' pml4 v' = vmmVirtToPtEntry m pml4 v')

theorem Ensured.supplies {v t : BitVec 64} {n : Nat} {m m' : Machine} {taken : List (BitVec 64)}
    {result : Option (BitVec 64)} (h : Ensured v n t m m' taken result) (hs : Supplies m n t) :
    Supplies m' n t := by
  have hnodup := List.nodup_append.mp (h.perm.nodup_iff.mp hs.nodup)
  have hold : ∀ page ∈ freePages m'.region, page ∈ freePages m.region :=
    fun page hp => h.perm.mem_iff.mpr (List.mem_append_right _ hp)
  refine ⟨h.sized, hnodup.2.1, fun page hp => hs.frames page (hold page hp), ?_⟩
  intro page hp hmem
  rcases h.members page hmem with hx | hx
  · exact hs.apart page (hold page hp) hx
  · exact hnodup.2.2 page hx page hp rfl

theorem LeafSet.keepsOthers {v entry pml4 : BitVec 64} {m m' : Machine}
    (h : LeafSet v entry 3 pml4 m.mem m'.mem) : KeepsOthers v pml4 m m' := by
  intro v' hv'
  refine ⟨h.straight v' hv', fun hne => ?_⟩
  rw [vmmVirtToPtEntry_eq_leaf, vmmVirtToPtEntry_eq_leaf]
  exact h.kept v' hv' (fun hagree => hne (pageNumber_eq_of_agrees hagree))

theorem LeafSet.wellFormed {v entry pml4 : BitVec 64} {m m' : Machine}
    (h : LeafSet v entry 3 pml4 m.mem m'.mem) (hregion : m'.region = m.region)
    (wf : WellFormed m pml4) : WellFormed m' pml4 := by
  refine ⟨h.tree, hregion ▸ wf.supplies.sized, hregion ▸ wf.supplies.nodup,
    hregion ▸ wf.supplies.frames, ?_⟩
  exact fun page hp hmem => wf.supplies.apart page (hregion ▸ hp) (h.members page hmem)

/-- The entry of `v` was written in the page table that its way leads to. -/
def Wrote (v entry pml4 : BitVec 64) (m m' : Machine) : Prop :=
  m'.region = m.region ∧ ∃ pt, Leads m.mem v pt 3 pml4 ∧
    m'.mem = setEntry m.mem pt (vmmVirtToTableIndex v 1) entry

theorem Wrote.leafSet {v entry pml4 : BitVec 64} {m m' : Machine} (h : Wrote v entry pml4 m m')
    (tree : Tree down m.mem 3 pml4) : LeafSet v entry 3 pml4 m.mem m'.mem := by
  obtain ⟨-, pt, hleads, hmem⟩ := h
  rw [hmem]
  exact leafSet_setEntry entry tree hleads

/-- What mapping a page does, whether or not the tables could be made. -/
theorem vmmMapPageIn_cases {m m' : Machine} {pml4 v page : BitVec 64} {flags : BitVec 16} {ok : Bool}
    (wf : WellFormed m pml4) (straight : Straight m.mem v 3 pml4)
    (h : vmmMapPageIn m pml4 v page flags = (ok, m')) :
    ∃ m1, WellFormed m1 pml4 ∧
      (∀ v', Straight m.mem v' 3 pml4 →
        Straight m1.mem v' 3 pml4 ∧ leaf m1.mem v' 3 pml4 = leaf m.mem v' 3 pml4) ∧
      (ok = false ∧ m' = m1 ∨ ok = true ∧
        Wrote v (vmmPhysAndFlagsToTableEntry page (flags.zeroExtend 64)) pml4 m1 m') := by
  obtain ⟨taken, hensured⟩ := ensureTablesLoop_ensured (v &&& 0xfffffffffffff000) flags wf.tree
    wf.supplies (straight_align.mpr straight)
  have hloop : ensureTables m pml4 (v &&& 0xfffffffffffff000) 1 flags =
      ensureTablesLoop (v &&& 0xfffffffffffff000) flags 3 pml4 m := rfl
  obtain ⟨result, m1, hrun⟩ : ∃ result m1, ensureTablesLoop (v &&& 0xfffffffffffff000) flags 3
      pml4 m = (result, m1) := ⟨_, _, rfl⟩
  rw [hrun] at hensured hloop
  refine ⟨m1, ⟨hensured.tree, hensured.supplies wf.supplies⟩, hensured.walks, ?_⟩
  cases result with
  | none =>
    simp only [vmmMapPageIn, hloop, Prod.mk.injEq] at h
    exact Or.inl ⟨h.1.symm, h.2.symm⟩
  | some pt =>
    simp only [vmmMapPageIn, hloop, Prod.mk.injEq] at h
    obtain ⟨rfl, rfl⟩ := h
    exact Or.inr ⟨rfl, rfl, pt, leads_align.mp (hensured.leads pt rfl), rfl⟩

/-- A call that fails changes no walk. -/
theorem vmmMapPageIn_failed {m m' : Machine} {pml4 v page : BitVec 64} {flags : BitVec 16}
    (wf : WellFormed m pml4) (straight : Straight m.mem v 3 pml4)
    (h : vmmMapPageIn m pml4 v page flags = (false, m')) :
    WellFormed m' pml4 ∧ ∀ v', Straight m.mem v' 3 pml4 →
      Straight m'.mem v' 3 pml4 ∧ vmmVirtToPtEntry m' pml4 v' = vmmVirtToPtEntry m pml4 v' := by
  obtain ⟨m1, wf1, hwalks, ⟨-, rfl⟩ | ⟨hok, -⟩⟩ := vmmMapPageIn_cases wf straight h
  · exact ⟨wf1, hwalks⟩
  · exact absurd hok (by decide)

/-- Whatever becomes of the call, only the page of `v` is touched. -/
theorem map_keeps_others {m m' : Machine} {pml4 v page : BitVec 64} {flags : BitVec 16} {ok : Bool}
    (wf : WellFormed m pml4) (straight : Straight m.mem v 3 pml4)
    (h : vmmMapPageIn m pml4 v page flags = (ok, m')) :
    KeepsOthers v pml4 m m' ∧ WellFormed m' pml4 := by
  obtain ⟨m1, wf1, hwalks, ⟨-, rfl⟩ | ⟨-, hwrote⟩⟩ := vmmMapPageIn_cases wf straight h
  · exact ⟨fun v' hv' => ⟨(hwalks v' hv').1, fun _ => (hwalks v' hv').2⟩, wf1⟩
  · have hset := hwrote.leafSet wf1.tree
    refine ⟨fun v' hv' => ?_, hset.wellFormed hwrote.1 wf1⟩
    obtain ⟨hs, hl⟩ := hwalks v' hv'
    obtain ⟨hs', hkept⟩ := hset.keepsOthers v' hs
    exact ⟨hs', fun hne => (hkept hne).trans hl⟩

theorem map_writes_one_page {m m' : Machine} {pml4 v page : BitVec 64} {flags : BitVec 16}
    (wf : WellFormed m pml4) (straight : Straight m.mem v 3 pml4)
    (h : vmmMapPageIn m pml4 v page flags = (true, m'))
    (present : flags.zeroExtend 64 &&& pgPresent ≠ 0) :
    vmmVirtToPtEntry m' pml4 v = (page &&& 0xfffffffffffff000) ||| flags.zeroExtend 64 := by
  obtain ⟨m1, wf1, hwalks, ⟨hok, -⟩ | ⟨-, hwrote⟩⟩ := vmmMapPageIn_cases wf straight h
  · exact absurd hok (by decide)
  · have hpresent : isPresent (vmmPhysAndFlagsToTableEntry page (flags.zeroExtend 64)) := by
      rw [isPresent_entry]
      simpa [isPresent] using present
    refine ((hwrote.leafSet wf1.tree).written v (hwalks v straight).1 (fun l _ => rfl)).trans ?_
    rw [if_pos hpresent, vmmPhysAndFlagsToTableEntry]

/-- On a straight way, unmapping clears the entry that a walk finds. -/
theorem vmmUnmapPageIn_cases {m m' : Machine} {pml4 v frame : BitVec 64}
    (straight : Straight m.mem v 3 pml4) (h : vmmUnmapPageIn m pml4 v = (frame, m')) :
    frame = vmmTableEntryToPhys (vmmVirtToPtEntry m pml4 v) ∧
      (vmmVirtToPtEntry m pml4 v = 0 ∧ m' = m ∨ Wrote v 0 pml4 m m') := by
  have unmapped : vmmVirtToPtEntry m pml4 v = 0 → vmmUnmapPageIn m pml4 v = (0, m) →
      frame = vmmTableEntryToPhys (vmmVirtToPtEntry m pml4 v) ∧
        (vmmVirtToPtEntry m pml4 v = 0 ∧ m' = m ∨ Wrote v 0 pml4 m m') := by
    intro hzero hsame
    obtain ⟨rfl, rfl⟩ := Prod.mk.injEq .. ▸ h.symm.trans hsame
    rw [hzero]
    exact ⟨rfl, Or.inl ⟨rfl, rfl⟩⟩
  by_cases h4 : isPresent (m.mem pml4 (vmmVirtToTableIndex v 4))
  · obtain ⟨hs4, straight⟩ := straight h4
    have hd4 := down_eq_some.mpr ⟨h4, hs4, rfl⟩
    by_cases h3 : isPresent (m.mem (vmmTableEntryToPhys (m.mem pml4 (vmmVirtToTableIndex v 4)))
        (vmmVirtToTableIndex v 3))
    · obtain ⟨hs3, straight⟩ := straight h3
      have hd3 := down_eq_some.mpr ⟨h3, hs3, rfl⟩
      by_cases h2 : isPresent (m.mem (vmmTableEntryToPhys
          (m.mem (vmmTableEntryToPhys (m.mem pml4 (vmmVirtToTableIndex v 4)))
            (vmmVirtToTableIndex v 3))) (vmmVirtToTableIndex v 2))
      · obtain ⟨hs2, -⟩ := straight h2
        have hd2 := down_eq_some.mpr ⟨h2, hs2, rfl⟩
        by_cases h1 : isPresent (m.mem (vmmTableEntryToPhys (m.mem (vmmTableEntryToPhys
            (m.mem (vmmTableEntryToPhys (m.mem pml4 (vmmVirtToTableIndex v 4)))
              (vmmVirtToTableIndex v 3))) (vmmVirtToTableIndex v 2))) (vmmVirtToTableIndex v 1))
        · have hwalk : vmmVirtToPtEntry m pml4 v = _ :=
            (if_pos h4).trans ((if_pos h3).trans ((if_pos h2).trans (if_pos h1)))
          have hunmap : vmmUnmapPageIn m pml4 v = _ :=
            (if_pos h4).trans ((if_neg hs4).trans ((if_pos h3).trans ((if_neg hs3).trans
              ((if_pos h2).trans ((if_neg hs2).trans (if_pos h1))))))
          obtain ⟨rfl, rfl⟩ := Prod.mk.injEq .. ▸ h.symm.trans hunmap
          rw [hwalk]
          exact ⟨rfl, Or.inr ⟨rfl, _, ⟨_, hd4, _, hd3, _, hd2, rfl⟩, rfl⟩⟩
        · exact unmapped
            ((if_pos h4).trans ((if_pos h3).trans ((if_pos h2).trans (if_neg h1))))
            ((if_pos h4).trans ((if_neg hs4).trans ((if_pos h3).trans ((if_neg hs3).trans
              ((if_pos h2).trans ((if_neg hs2).trans (if_neg h1)))))))
      · exact unmapped ((if_pos h4).trans ((if_pos h3).trans (if_neg h2)))
          ((if_pos h4).trans ((if_neg hs4).trans ((if_pos h3).trans ((if_neg hs3).trans
            (if_neg h2)))))
    · exact unmapped ((if_pos h4).trans (if_neg h3))
        ((if_pos h4).trans ((if_neg hs4).trans (if_neg h3)))
  · exact unmapped (if_neg h4) (if_neg h4)

theorem unmap_clears_one_page {m m' : Machine} {pml4 v frame : BitVec 64}
    (wf : WellFormed m pml4) (straight : Straight m.mem v 3 pml4)
    (h : vmmUnmapPageIn m pml4 v = (frame, m')) :
    frame = vmmTableEntryToPhys (vmmVirtToPtEntry m pml4 v) ∧ vmmVirtToPtEntry m' pml4 v = 0 ∧
      KeepsOthers v pml4 m m' ∧ WellFormed m' pml4 := by
  obtain ⟨hframe, ⟨hzero, rfl⟩ | hwrote⟩ := vmmUnmapPageIn_cases straight h
  · exact ⟨hframe, hzero, fun v' hv' => ⟨hv', fun _ => rfl⟩, wf⟩
  · have hset := hwrote.leafSet wf.tree
    refine ⟨hframe, ?_, hset.keepsOthers, hset.wellFormed hwrote.1 wf⟩
    exact (hset.written v straight (fun l _ => rfl)).trans (if_neg not_isPresent_zero)

/-- On a tree of tables with no large page on the way of `v`, mapping `v` and unmapping it are
updates of one page in the map from virtual pages to leaf entries. -/
theorem map_and_unmap_update_one_page {m : Machine} {pml4 v : BitVec 64}
    (wf : WellFormed m pml4) (straight : Straight m.mem v 3 pml4) :
    (∀ (page : BitVec 64) (flags : BitVec 16) (m' : Machine),
      vmmMapPageIn m pml4 v page flags = (true, m') → flags.zeroExtend 64 &&& pgPresent ≠ 0 →
        vmmVirtToPtEntry m' pml4 v = (page &&& 0xfffffffffffff000) ||| flags.zeroExtend 64 ∧
          KeepsOthers v pml4 m m' ∧ WellFormed m' pml4) ∧
    ∀ (frame : BitVec 64) (m' : Machine), vmmUnmapPageIn m pml4 v = (frame, m') →
      frame = vmmTableEntryToPhys (vmmVirtToPtEntry m pml4 v) ∧ vmmVirtToPtEntry m' pml4 v = 0 ∧
        KeepsOthers v pml4 m m' ∧ WellFormed m' pml4 :=
  ⟨fun _ _ _ h present => ⟨map_writes_one_page wf straight h present, map_keeps_others wf straight h⟩,
    fun _ _ h => unmap_clears_one_page wf straight h⟩

/-- A top-level table without entries, beside the free pages. -/
theorem wellFormed_empty {m : Machine} {pml4 : BitVec 64} (empty : m.mem pml4 = fun _ => 0)
    (sized : WellSized m.region) (nodup : (freePages m.region).Nodup)
    (frames : ∀ page ∈ freePages m.region, IsFrame page) (apart : pml4 ∉ freePages m.region) :
    WellFormed m pml4 := by
  obtain ⟨htree, hmembers⟩ := @empty_table m.mem 3 pml4 empty
  refine ⟨htree, sized, nodup, frames, ?_⟩
  intro page hp hmember
  rw [hmembers page hmember] at hp
  exact apart hp

/-- An empty top-level table at `0x1000`, and three free pages from `0x10000` on. -/
def emptyTables : Machine where
  mem := fun _ _ => 0
  region := { size := 0x3000, free := 0x3000, stack := [{ base := 0x10000, size := 3 }] }

theorem emptyTables_wellFormed : WellFormed emptyTables 0x1000 := by
  have hpages : freePages emptyTables.region = [0x10000, 0x11000, 0x12000] := by decide
  apply wellFormed_empty rfl
  · simp [WellSized, emptyTables]
  · rw [hpages]
    decide
  · rw [hpages]
    simp [IsFrame, vmmTableEntryToPhys]
  · rw [hpages]
    decide

/-- Mapping a page through three new tables, and finding it. -/
theorem map_and_unmap_update_one_page_empty :
    vmmVirtToPtEntry (vmmMapPageIn emptyTables 0x1000 0x400000 0x7654321 7).2 0x1000 0x400000 =
      0x7654007 := by
  have h := ((map_and_unmap_update_one_page emptyTables_wellFormed (v := 0x400000)
    (empty_walk rfl _).1).1 0x7654321 7 _ (Prod.ext rfl rfl) (by decide)).1
  exact h.trans (by decide)

end VmMapper
