import AnosKernel.TablePaths
import AnosKernel.ProcessCreate

/-!
# A new address space

`address_space_create` of `kernel/process/address_space.c`, on the page tables of x86_64. A page of
memory is its 512 words, be it a table or a page of the stack. The values for the stack are written
through the temporary page of the CPU, which is mapped in the current address space. Reference
counts have no part in what the new address space holds. A loop takes fuel; a store through an
address that is not mapped, or past the pages that were recorded, ends a run without a result.
-/

namespace AddressSpace

open PageAlloc VmMapper TableTree TablePaths MapSyscalls ProcessCreate

def initStackArgPagesCount : Nat := 33

/-- The top-level table of a new address space: no user pages, and the kernel's half as it is. -/
def newEntries (currentPml4 : Fin 512 → BitVec 64) (i : Fin 512) : BitVec 64 :=
  if i.val < 256 then 0 else currentPml4 i

def vmmVirtToPhysPage (m : Machine) (pml4 virtAddr : BitVec 64) : BitVec 64 :=
  vmmTableEntryToPhys (vmmVirtToPtEntry m pml4 virtAddr)

/-- Present, for the user and copied on write; the read and execute bits are zero. -/
def sharedFlags : BitVec 16 := 0x45

/-- The pages of a region that are there are mapped in the new address space too. -/
def shareLoop (currentPml4 newPml4 regionEnd : BitVec 64) :
    Nat → BitVec 64 → Machine → Option Machine
  | 0, _, _ => none
  | fuel + 1, ptr, m =>
    if ptr < regionEnd then
      let sharedPhys := vmmVirtToPhysPage m currentPml4 ptr
      if sharedPhys ≠ 0 then
        shareLoop currentPml4 newPml4 regionEnd fuel (ptr + vmPageSize)
          (vmmMapPageIn m newPml4 ptr sharedPhys sharedFlags).2
      else shareLoop currentPml4 newPml4 regionEnd fuel (ptr + vmPageSize) m
    else some m

def shareRegions (currentPml4 newPml4 : BitVec 64) (fuel : Nat) :
    List ProcessMemoryRegion → Machine → Option Machine
  | [], m => some m
  | region :: regions, m =>
    (shareLoop currentPml4 newPml4 (region.start + region.lenBytes) fuel region.start m).bind
      (shareRegions currentPml4 newPml4 fuel regions)

structure StackState where
  machine : Machine
  topPhysStackPages : List (BitVec 64)

/-- Present, writable and for the user. -/
def stackFlags : BitVec 16 := 0x7

/-- One page of the stack; whether it could be mapped is not looked at. -/
def stackStep (newPml4 : BitVec 64) (s : StackState) (ptr : BitVec 64) : Option StackState :=
  let (stackPage, region) := pageAlloc s.machine.region
  if stackPage &&& 0xff ≠ 0 then none
  else
    some
      { machine :=
          (vmmMapPageIn { s.machine with region := region } newPml4 ptr stackPage stackFlags).2
        topPhysStackPages :=
          if s.topPhysStackPages.length < initStackArgPagesCount then
            s.topPhysStackPages ++ [stackPage]
          else s.topPhysStackPages }

/-- Present and writable. -/
def tempFlags : BitVec 16 := 0x3

/-- Before the `i`-th value: at the bottom of the temporary page it is mapped to the next page, and
the pointer goes to its end. -/
def moveWindow (currentPml4 tempPage : BitVec 64) (topPhysStackPages : List (BitVec 64))
    (i bottom : Nat) (m : Machine) : Option (Nat × Machine) :=
  if bottom = 0 then
    (topPhysStackPages[i >>> 9]?).map fun phys =>
      (512, (vmmMapPageIn m currentPml4 tempPage phys tempFlags).2)
  else some (bottom, m)

/-- A store to a word of the temporary page. -/
def storeTemp (currentPml4 tempPage : BitVec 64) (word : Nat) (value : BitVec 64) (m : Machine) :
    Option Machine :=
  let entry := vmmVirtToPtEntry m currentPml4 tempPage
  if isPresent entry then
    some { m with mem := setEntry m.mem (vmmTableEntryToPhys entry) (Fin.ofNat 512 word) value }
  else none

/-- The loop over the values from the last one down, with `i` of them left and the pointer at the
word `bottom`. -/
def copyValues (currentPml4 tempPage : BitVec 64) (topPhysStackPages : List (BitVec 64))
    (stackValues : Nat → BitVec 64) : Nat → Nat → Machine → Option Machine
  | 0, _, m => some m
  | i + 1, bottom, m =>
    (moveWindow currentPml4 tempPage topPhysStackPages i bottom m).bind fun (bottom, m) =>
      (storeTemp currentPml4 tempPage (bottom - 1) (stackValues i) m).bind
        (copyValues currentPml4 tempPage topPhysStackPages stackValues i (bottom - 1))

/-- The new top-level table, zero if a page could not be allocated. -/
def addressSpaceCreate (fuel : Nat) (m : Machine) (currentPml4 tempPage : BitVec 64)
    (initStackVaddr initStackLen : BitVec 64) (regions : List ProcessMemoryRegion)
    (stackValueCount : Nat) (stackValues : Nat → BitVec 64) : Option (BitVec 64 × Machine) :=
  let (newPml4, region) := pageAlloc m.region
  if newPml4 &&& 0xff ≠ 0 then some (0, { m with region := region })
  else
    let m : Machine :=
      { mem := Function.update m.mem newPml4 (newEntries (m.mem currentPml4)), region := region }
    (shareRegions currentPml4 newPml4 fuel regions m).bind fun m =>
      (mapStack (stackStep newPml4) fuel initStackVaddr initStackLen
        { machine := m, topPhysStackPages := [] }).bind fun (done, s) =>
          if done then
            (copyValues currentPml4 tempPage s.topPhysStackPages stackValues stackValueCount 0
              s.machine).map fun m => (newPml4, (vmmUnmapPageIn m currentPml4 tempPage).2)
          else some (0, s.machine)

/-! ## Building the user half -/

section Building

variable {currentPml4 newPml4 v page : BitVec 64} {flags : BitVec 16} {ok : Bool}
  {m0 m m' : Machine}

/-- The new address space while it is built. The tables of its user half come from the pages that
were free at the start, and those of the current address space are as they were. -/
structure Building (m0 : Machine) (currentPml4 newPml4 : BitVec 64) (m : Machine) : Prop where
  new : WellFormed m newPml4
  straight : ∀ v, isUserAddress v → Straight m.mem v 3 newPml4
  root : newPml4 ∈ freePages m0.region
  free : ∀ page ∈ freePages m.region, page ∈ freePages m0.region
  user : ∀ i c f, i.val < 256 → down (m.mem newPml4 i) = some c →
    Member down m.mem 2 c f → f ∈ freePages m0.region
  same : ∀ f, Member down m0.mem 3 currentPml4 f → m.mem f = m0.mem f

theorem userIndex (user : isUserAddress v) : (vmmVirtToTableIndex v 4).val < 256 := by
  have hv := isUserAddress_iff.mp user
  rw [index_eq]
  norm_num
  omega

theorem Building.path (b : Building m0 currentPml4 newPml4 m) (user : isUserAddress v)
    {f : BitVec 64} (h : Path m.mem v 3 newPml4 f) : f ∈ freePages m0.region := by
  rcases h with rfl | ⟨c, hc, hrest⟩
  · exact b.root
  · exact b.user _ c f (userIndex user) hc hrest.member

theorem Building.map (wf : WellFormed m0 currentPml4) (b : Building m0 currentPml4 newPml4 m)
    (user : isUserAddress v) (h : vmmMapPageIn m newPml4 v page flags = (ok, m')) :
    Building m0 currentPml4 newPml4 m' := by
  have effect := mapped_wayEffect b.new (b.straight v user) page flags
  rw [h] at effect
  constructor
  · exact effect.wellFormed
  · intro v' hv'
    exact (effect.others v' (b.straight v' hv')).1
  · exact b.root
  · intro page hp
    exact b.free page (effect.left page hp)
  · intro i c f hi hc hmember
    rcases effect.lower_member b.new (userIndex user) hi hc hmember with
      hfree | ⟨j, d, hj, hd, hold⟩
    · exact b.free f hfree
    · exact b.user j d f hj hd hold
  · intro f hf
    have hpool : f ∉ freePages m0.region := fun hfree => wf.supplies.apart f hfree hf
    exact (effect.frame f (fun hp => hpool (b.path user hp))
      (fun hfree => hpool (b.free f hfree))).trans (b.same f hf)

/-- The new top-level table is all that the new address space starts with. -/
theorem building_start (wf : WellFormed m0 currentPml4) (nonempty : m0.region.stack ≠ [])
    {region : MemoryRegion} (hnew : pageAlloc m0.region = (newPml4, region)) :
    Building m0 currentPml4 newPml4
      { mem := Function.update m0.mem newPml4 (newEntries (m0.mem currentPml4))
        region := region } := by
  have hallocated := pageAlloc_allocated wf.supplies.sized wf.supplies.nodup nonempty hnew
  have hmem := hallocated.taken
  generalize hmem1 : Function.update m0.mem newPml4 (newEntries (m0.mem currentPml4)) = mem1
  have hroot : mem1 newPml4 = newEntries (m0.mem currentPml4) := by
    rw [← hmem1]
    exact Function.update_self _ _ _
  have hsame : ∀ f, Member down m0.mem 3 currentPml4 f → mem1 f = m0.mem f := by
    intro f hf
    rw [← hmem1]
    apply Function.update_of_ne
    rintro rfl
    exact wf.supplies.apart f hmem hf
  -- an entry of the new table that leads on is one of the kernel's half
  have hkernel : ∀ i c, down (mem1 newPml4 i) = some c →
      ¬ i.val < 256 ∧ down (m0.mem currentPml4 i) = some c := by
    intro i c hc
    rw [hroot, newEntries] at hc
    split_ifs at hc with hi
    · exact absurd (down_eq_some.mp hc).1 not_isPresent_zero
    · exact ⟨hi, hc⟩
  have hbelow : ∀ i c, down (m0.mem currentPml4 i) = some c → ∀ f,
      Member down mem1 2 c f ↔ Member down m0.mem 2 c f :=
    fun i c hc => member_congr (fun f hf => hsame f (hf.child hc))
  constructor
  · refine ⟨⟨fun i c hc => ?_, fun i j c d hij hc hd f hf => ?_⟩, hallocated.sized,
      hallocated.nodup, fun page hp => wf.supplies.frames page (hallocated.left hp),
      fun page hp => ?_⟩
    · obtain ⟨-, hc'⟩ := hkernel i c hc
      refine ⟨(wf.tree.1 i c hc').1.congr (fun f hf => hsame f (hf.child hc')), ?_⟩
      rw [hbelow i c hc']
      exact fun hmember => wf.supplies.apart newPml4 hmem (hmember.child hc')
    · obtain ⟨-, hc'⟩ := hkernel i c hc
      obtain ⟨-, hd'⟩ := hkernel j d hd
      rw [hbelow i c hc'] at hf
      rw [hbelow j d hd']
      exact wf.tree.2 i j c d hij hc' hd' f hf
    · rintro (rfl | ⟨i, c, hc, hmember⟩)
      · exact hallocated.fresh hp
      · obtain ⟨-, hc'⟩ := hkernel i c hc
        rw [hbelow i c hc'] at hmember
        exact wf.supplies.apart page (hallocated.left hp) (hmember.child hc')
  · intro v hv
    refine (Straight.of_absent ?_).1
    show ¬ isPresent (mem1 newPml4 (vmmVirtToTableIndex v 4))
    rw [hroot, newEntries, if_pos (userIndex hv)]
    exact not_isPresent_zero
  · exact hmem
  · exact fun page hp => hallocated.left hp
  · intro i c f hi hc
    exact absurd hi (hkernel i c hc).1
  · exact hsame

/-! ## Sharing regions -/

/-- How many pages of memory the tables for a number of pages may take. -/
def Costs (pages : Nat) (m m' : Machine) : Prop :=
  (freePages m.region).length ≤ (freePages m'.region).length + pages

theorem shareLoop_builds {ptr regionEnd : BitVec 64} {n fuel : Nat}
    (wf : WellFormed m0 currentPml4) (b : Building m0 currentPml4 newPml4 m)
    (hend : ptr.toNat + 4096 * n = regionEnd.toNat) (user : regionEnd.toNat ≤ 2 ^ 47)
    (enough : n ≤ fuel) :
    ∃ m', shareLoop currentPml4 newPml4 regionEnd (fuel + 1) ptr m = some m' ∧
      Building m0 currentPml4 newPml4 m' ∧ Costs (3 * n) m m' := by
  induction n generalizing ptr m fuel with
  | zero =>
    have hdone : ¬ ptr < regionEnd := by
      intro hlt
      have hlt' : ptr.toNat < regionEnd.toNat := hlt
      omega
    exact ⟨m, if_neg hdone, b, Nat.le_add_right _ _⟩
  | succ n ih =>
    obtain ⟨fuel, rfl⟩ : ∃ k, fuel = k + 1 := ⟨fuel - 1, by omega⟩
    have hlt : ptr < regionEnd := by
      show ptr.toNat < regionEnd.toNat
      omega
    have huser : isUserAddress ptr := isUserAddress_iff.mpr (by omega)
    have hnext := toNat_add_page (a := ptr) (by omega)
    have hend' : (ptr + vmPageSize).toNat + 4096 * n = regionEnd.toNat := by omega
    have hfuel : n ≤ fuel := by omega
    rw [shareLoop, if_pos hlt]
    by_cases hphys : vmmVirtToPhysPage m currentPml4 ptr ≠ 0
    · obtain ⟨ok, m1, hmap⟩ : ∃ ok m1, vmmMapPageIn m newPml4 ptr
          (vmmVirtToPhysPage m currentPml4 ptr) sharedFlags = (ok, m1) := ⟨_, _, rfl⟩
      have hcount := (vmmMapPageIn_effect b.new (b.straight ptr huser) hmap).count
      obtain ⟨m', hrun, hb, hcost⟩ := ih (b.map wf huser hmap) hend' hfuel
      simp only [if_pos hphys, hmap]
      refine ⟨m', hrun, hb, ?_⟩
      unfold Costs at hcost ⊢
      omega
    · obtain ⟨m', hrun, hb, hcost⟩ := ih b hend' hfuel
      simp only [if_neg hphys]
      refine ⟨m', hrun, hb, ?_⟩
      unfold Costs at hcost ⊢
      omega

/-- A region of whole pages in user space. -/
def UserRegion (region : ProcessMemoryRegion) : Prop :=
  region.lenBytes.toNat % 4096 = 0 ∧ region.start.toNat + region.lenBytes.toNat ≤ 2 ^ 47

def regionPages (regions : List ProcessMemoryRegion) : Nat :=
  (regions.map fun region => region.lenBytes.toNat / 4096).sum

theorem shareRegions_builds {regions : List ProcessMemoryRegion} {fuel : Nat}
    (wf : WellFormed m0 currentPml4) (b : Building m0 currentPml4 newPml4 m)
    (user : ∀ region ∈ regions, UserRegion region) (enough : regionPages regions ≤ fuel) :
    ∃ m', shareRegions currentPml4 newPml4 (fuel + 1) regions m = some m' ∧
      Building m0 currentPml4 newPml4 m' ∧ Costs (3 * regionPages regions) m m' := by
  induction regions generalizing m with
  | nil => exact ⟨m, rfl, b, Nat.le_add_right _ _⟩
  | cons region regions ih =>
    have hpages : regionPages (region :: regions) =
        region.lenBytes.toNat / 4096 + regionPages regions := by
      simp [regionPages]
    obtain ⟨haligned, hend⟩ := user region List.mem_cons_self
    have hsum : (region.start + region.lenBytes).toNat =
        region.start.toNat + region.lenBytes.toNat := by
      rw [BitVec.toNat_add, Nat.mod_eq_of_lt (by omega)]
    have hfuel : region.lenBytes.toNat / 4096 ≤ fuel := by omega
    have hloop : region.start.toNat + 4096 * (region.lenBytes.toNat / 4096) =
        (region.start + region.lenBytes).toNat := by omega
    obtain ⟨m1, hrun, hb, hcost⟩ := shareLoop_builds wf b hloop (by omega) hfuel
    obtain ⟨m2, hrun', hb', hcost'⟩ := ih hb (fun r hr => user r (List.mem_cons_of_mem _ hr))
      (by omega)
    refine ⟨m2, ?_, hb', ?_⟩
    · rw [shareRegions, hrun]
      exact hrun'
    · unfold Costs at hcost hcost' ⊢
      omega

/-! ## The stack -/

/-- A page is taken for the stack. -/
theorem Building.alloc (b : Building m0 currentPml4 newPml4 m) (nonempty : m.region.stack ≠ [])
    {region : MemoryRegion} (h : pageAlloc m.region = (page, region)) :
    Building m0 currentPml4 newPml4 { m with region := region } ∧
      Allocated m.region page region := by
  have hallocated := pageAlloc_allocated b.new.supplies.sized b.new.supplies.nodup nonempty h
  refine ⟨⟨⟨b.new.tree, hallocated.sized, hallocated.nodup, ?_, ?_⟩, b.straight, b.root, ?_, b.user,
    b.same⟩, hallocated⟩
  · exact fun page hp => b.new.supplies.frames page (hallocated.left hp)
  · exact fun page hp => b.new.supplies.apart page (hallocated.left hp)
  · exact fun page hp => b.free page (hallocated.left hp)

/-- The `k`-th page of the stack below its end. -/
def stackAddr (top k : Nat) : BitVec 64 := BitVec.ofNat 64 (top - 4096 * (k + 1))

theorem toNat_stackAddr {top : Nat} (user : top ≤ 2 ^ 47) (k : Nat) :
    (stackAddr top k).toNat = top - 4096 * (k + 1) := by
  rw [stackAddr, BitVec.toNat_ofNat, Nat.mod_eq_of_lt (by omega)]

theorem pageNumber_stackAddr {top : Nat} (user : top ≤ 2 ^ 47) (k : Nat) :
    (pageNumber (stackAddr top k)).toNat = top / 4096 - (k + 1) := by
  rw [toNat_pageNumber, toNat_stackAddr user]
  omega

/-- The stack from its end at `top` down, on these pages, of which the first ones are mapped: all,
or all but the last if memory has run out. -/
structure Stacked (m0 : Machine) (currentPml4 newPml4 : BitVec 64) (top : Nat)
    (pages : List (BitVec 64)) (mapped : Nat) (m : Machine) : Prop where
  building : Building m0 currentPml4 newPml4 m
  pool : ∀ s ∈ pages, s ∈ freePages m0.region
  used : ∀ s ∈ pages, s ∉ freePages m.region
  apart : ∀ s ∈ pages, ¬ Member down m.mem 3 newPml4 s
  nodup : pages.Nodup
  entries : ∀ k < mapped, vmmVirtToPtEntry m newPml4 (stackAddr top k) =
    vmmPhysAndFlagsToTableEntry (pages.getD k 0) (stackFlags.zeroExtend 64)
  most : mapped = pages.length ∨ freePages m.region = [] ∧ mapped + 1 = pages.length

theorem take_pages (pages : List (BitVec 64)) (s : BitVec 64) (n : Nat) :
    (if (pages.take n).length < n then pages.take n ++ [s] else pages.take n) =
      (pages ++ [s]).take n := by
  rw [List.length_take]
  by_cases hlt : pages.length < n
  · rw [if_pos (by omega), List.take_of_length_le hlt.le, List.take_of_length_le]
    rw [List.length_append, List.length_singleton]
    omega
  · rw [if_neg (by omega), List.take_append_of_le_length (by omega)]

theorem IsFrame.low_byte {a : BitVec 64} (h : IsFrame a) : a &&& 0xff = 0 := by
  have hmask : (0xff : BitVec 64) = 0xfff &&& 0xff := by decide
  rw [hmask, ← BitVec.and_assoc, h.aligned]
  exact BitVec.zero_and

/-- The pages of the stack so far, and one more. -/
theorem Stacked.grow {top mapped : Nat} {pages : List (BitVec 64)} {s : BitVec 64}
    {region : MemoryRegion} (stacked : Stacked m0 currentPml4 newPml4 top pages mapped m)
    (hb : Building m0 currentPml4 newPml4 m') (hallocated : Allocated m.region s region)
    (hleft : ∀ page ∈ freePages m'.region, page ∈ freePages region)
    (hmembers : ∀ f, Member down m'.mem 3 newPml4 f →
      Member down m.mem 3 newPml4 f ∨ f ∈ freePages region) (mapped' : Nat)
    (hentries : ∀ k < mapped', vmmVirtToPtEntry m' newPml4 (stackAddr top k) =
      vmmPhysAndFlagsToTableEntry ((pages ++ [s]).getD k 0) (stackFlags.zeroExtend 64))
    (hmost : mapped' = (pages ++ [s]).length ∨
      freePages m'.region = [] ∧ mapped' + 1 = (pages ++ [s]).length) :
    Stacked m0 currentPml4 newPml4 top (pages ++ [s]) mapped' m' := by
  have hs := hallocated.taken
  -- a page of the stack is no longer free, be it an old one or the new one
  have hused : ∀ page ∈ pages ++ [s], page ∉ freePages region := by
    intro page hp hfree
    rcases List.mem_append.mp hp with hp | hp
    · exact stacked.used page hp (hallocated.left hfree)
    · exact hallocated.fresh (List.mem_singleton.mp hp ▸ hfree)
  refine ⟨hb, ?_, fun page hp hfree => hused page hp (hleft page hfree), ?_, ?_, hentries, hmost⟩
  · intro page hp
    rcases List.mem_append.mp hp with hp | hp
    · exact stacked.pool page hp
    · exact List.mem_singleton.mp hp ▸ stacked.building.free s hs
  · intro page hp hmember
    rcases hmembers page hmember with hold | hfree
    · rcases List.mem_append.mp hp with hp | hp
      · exact stacked.apart page hp hold
      · exact stacked.building.new.supplies.apart s hs (List.mem_singleton.mp hp ▸ hold)
    · exact hused page hp hfree
  · refine List.nodup_append.mpr ⟨stacked.nodup, List.nodup_singleton s, ?_⟩
    intro a ha b hbs
    rw [List.mem_singleton.mp hbs]
    rintro rfl
    exact stacked.used a ha hs

theorem Stacked.step {top mapped : Nat} {pages : List (BitVec 64)} {ptr : BitVec 64}
    (wf : WellFormed m0 currentPml4) (stacked : Stacked m0 currentPml4 newPml4 top pages mapped m)
    (user : top ≤ 2 ^ 47) (room : 4096 * (pages.length + 1) ≤ top)
    (hptr : ptr = stackAddr top pages.length) :
    freePages m.region = [] ∧
      stackStep newPml4 ⟨m, pages.take initStackArgPagesCount⟩ ptr = none ∨
    ∃ s mapped' m', stackStep newPml4 ⟨m, pages.take initStackArgPagesCount⟩ ptr =
        some ⟨m', (pages ++ [s]).take initStackArgPagesCount⟩ ∧
      Stacked m0 currentPml4 newPml4 top (pages ++ [s]) mapped' m' ∧ Costs 4 m m' ∧
      mapped ≤ mapped' ∧ (4 ≤ (freePages m.region).length → pages.length < mapped') := by
  by_cases hstack : m.region.stack = []
  · have hodd : (0xFF : BitVec 64) &&& 0xff ≠ 0 := by decide
    refine Or.inl ⟨freePages_empty hstack, ?_⟩
    simp only [stackStep, pageAlloc_empty hstack, if_pos hodd]
  obtain ⟨s, region, halloc⟩ : ∃ s region, pageAlloc m.region = (s, region) := ⟨_, _, rfl⟩
  obtain ⟨hb, hallocated⟩ := stacked.building.alloc hstack halloc
  have hlength := hallocated.count
  have hs := hallocated.taken
  -- there was a free page, so that all pages so far are mapped
  have hall : mapped = pages.length := by
    rcases stacked.most with hall | ⟨hempty, -⟩
    · exact hall
    · rw [hempty] at hs
      exact absurd hs List.not_mem_nil
  have huser : isUserAddress ptr := by
    rw [isUserAddress_iff, hptr, toNat_stackAddr user]
    omega
  obtain ⟨ok, m', hmap⟩ : ∃ ok m', vmmMapPageIn { m with region := region } newPml4 ptr s
      stackFlags = (ok, m') := ⟨_, _, rfl⟩
  have effect := vmmMapPageIn_effect hb.new (hb.straight ptr huser) hmap
  have hold : ∀ k < pages.length, vmmVirtToPtEntry m' newPml4 (stackAddr top k) =
      vmmPhysAndFlagsToTableEntry ((pages ++ [s]).getD k 0) (stackFlags.zeroExtend 64) := by
    intro k hk
    have hne : pageNumber (stackAddr top k) ≠ pageNumber ptr := by
      intro heq
      have hnat := congrArg BitVec.toNat heq
      rw [hptr, pageNumber_stackAddr user, pageNumber_stackAddr user] at hnat
      omega
    have huser' : isUserAddress (stackAddr top k) := by
      rw [isUserAddress_iff, toNat_stackAddr user]
      omega
    rw [List.getD_append _ _ _ _ hk, ← stacked.entries k (hall ▸ hk)]
    exact (effect.others _ (hb.straight _ huser')).2 hne
  have hgrow := stacked.grow (hb.map wf huser hmap) hallocated effect.left effect.members
  have hlow := IsFrame.low_byte (stacked.building.new.supplies.frames s hs)
  have hrun : stackStep newPml4 ⟨m, pages.take initStackArgPagesCount⟩ ptr =
      some ⟨m', (pages ++ [s]).take initStackArgPagesCount⟩ := by
    simp only [stackStep, halloc, hlow, ne_eq, not_true, if_false, hmap, take_pages]
  have hcost : Costs 4 m m' := by
    have hcount : (freePages region).length ≤ (freePages m'.region).length + 3 := effect.count
    unfold Costs
    omega
  have hpages : (pages ++ [s]).length = pages.length + 1 := by simp
  cases ok with
  | true =>
    refine Or.inr ⟨s, pages.length + 1, m', hrun, hgrow _ (fun k hk => ?_) (Or.inl hpages.symm),
      hcost, by omega, fun _ => by omega⟩
    rcases Nat.lt_succ_iff_lt_or_eq.mp hk with hlt | rfl
    · exact hold k hlt
    · rw [← hptr, List.getD_append_right _ _ _ _ le_rfl, Nat.sub_self]
      exact map_writes_one_page hb.new (hb.straight ptr huser) hmap (by decide)
  | false =>
    have hempty := effect.failed rfl
    refine Or.inr ⟨s, pages.length, m', hrun, hgrow _ hold (Or.inr ⟨hempty, hpages.symm⟩), hcost,
      hall.le, fun hmemory => ?_⟩
    have henough : 3 ≤ (freePages region).length := by omega
    exact absurd (effect.enough henough) (by decide)

theorem mapStackLoop_stacks {vaddr ptr : BitVec 64} {top j fuel mapped : Nat}
    {pages : List (BitVec 64)} (wf : WellFormed m0 currentPml4)
    (stacked : Stacked m0 currentPml4 newPml4 top pages mapped m)
    (user : top ≤ 2 ^ 47) (htop : vaddr.toNat + 4096 * (pages.length + j) = top)
    (low : 4096 ≤ vaddr.toNat) (hptr : ptr.toNat + 4096 = vaddr.toNat + 4096 * j)
    (enough : j ≤ fuel) :
    ∃ done s', mapStackLoop (stackStep newPml4) vaddr (fuel + 1) ptr
        ⟨m, pages.take initStackArgPagesCount⟩ = some (done, s') ∧
      (done = true → ∃ pages' mapped', s'.topPhysStackPages = pages'.take initStackArgPagesCount ∧
        Stacked m0 currentPml4 newPml4 top pages' mapped' s'.machine ∧
        pages'.length = pages.length + j ∧ mapped ≤ mapped' ∧
        (0 < j → 4 ≤ (freePages m.region).length → pages.length < mapped')) ∧
      (4 * j ≤ (freePages m.region).length → done = true) := by
  induction j generalizing ptr m fuel pages mapped with
  | zero =>
    have hdone : ¬ ptr ≥ vaddr := by
      intro hge
      have hge' : vaddr.toNat ≤ ptr.toNat := hge
      omega
    exact ⟨true, _, if_neg hdone, fun _ => ⟨pages, mapped, rfl, stacked, rfl, le_rfl,
      fun hpos => absurd hpos (lt_irrefl 0)⟩, fun _ => rfl⟩
  | succ j ih =>
    obtain ⟨fuel, rfl⟩ : ∃ k, fuel = k + 1 := ⟨fuel - 1, by omega⟩
    have hge : ptr ≥ vaddr := by
      show vaddr.toNat ≤ ptr.toNat
      omega
    have haddr : ptr = stackAddr top pages.length := by
      apply BitVec.eq_of_toNat_eq
      rw [toNat_stackAddr user]
      omega
    rw [mapStackLoop, if_pos hge]
    rcases stacked.step wf user (by omega) haddr with
      ⟨hempty, hstep⟩ | ⟨s, mapped1, m1, hstep, hstacked, hcost, hmapped, hfirst⟩
    · rw [hstep]
      refine ⟨false, _, rfl, fun h => ?_, fun hmemory => ?_⟩
      · cases h
      · rw [hempty, List.length_nil] at hmemory
        omega
    · have hpage : vmPageSize.toNat = 4096 := rfl
      have hle : vmPageSize ≤ ptr := by
        show vmPageSize.toNat ≤ ptr.toNat
        omega
      have hprev : ptr.toNat = vaddr.toNat + 4096 * j := by omega
      have hnext : (ptr - vmPageSize).toNat + 4096 = vaddr.toNat + 4096 * j := by
        rw [BitVec.toNat_sub_of_le hle, ← hpage, Nat.sub_add_cancel hle, hpage, hprev]
      have hlength : (pages ++ [s]).length = pages.length + 1 := by simp
      unfold Costs at hcost
      obtain ⟨done, s', hrun, hstacks, hdone⟩ := ih hstacked (by omega) hnext
        (Nat.le_of_succ_le_succ enough)
      rw [hstep]
      refine ⟨done, s', hrun, fun h => ?_, fun hmemory => hdone (by omega)⟩
      obtain ⟨pages', mapped', hrecorded, hstacked', hlength', hmapped', -⟩ := hstacks h
      refine ⟨pages', mapped', hrecorded, hstacked', by omega, by omega, fun _ hmemory => ?_⟩
      exact (hfirst hmemory).trans_le hmapped'

/-- The stack of a call, if there are the pages for it. The page at its end is mapped, unless memory
has run out at this only page. -/
theorem mapStack_stacks {vaddr len : BitVec 64} {fuel : Nat} (wf : WellFormed m0 currentPml4)
    (b : Building m0 currentPml4 newPml4 m) (alignedVaddr : vaddr.toNat % 4096 = 0)
    (alignedLen : len.toNat % 4096 = 0) (low : 4096 ≤ vaddr.toNat)
    (user : vaddr.toNat + len.toNat ≤ 2 ^ 47) (enough : len.toNat / 4096 ≤ fuel) :
    ∃ done s', mapStack (stackStep newPml4) (fuel + 1) vaddr len ⟨m, []⟩ = some (done, s') ∧
      (done = true → ∃ pages mapped, s'.topPhysStackPages = pages.take initStackArgPagesCount ∧
        Stacked m0 currentPml4 newPml4 (vaddr.toNat + len.toNat) pages mapped s'.machine ∧
        pages.length = len.toNat / 4096 ∧
        (0 < pages.length → 1 < pages.length ∨ 4 ≤ (freePages m.region).length → 0 < mapped)) ∧
      (4 * (len.toNat / 4096) ≤ (freePages m.region).length → done = true) := by
  have hstart : Stacked m0 currentPml4 newPml4 (vaddr.toNat + len.toNat) [] 0 m :=
    ⟨b, fun s hs => absurd hs List.not_mem_nil, fun s hs => absurd hs List.not_mem_nil,
      fun s hs => absurd hs List.not_mem_nil, List.nodup_nil,
      fun k hk => absurd hk (Nat.not_lt_zero k), Or.inl rfl⟩
  by_cases hzero : len.toNat = 0
  · have hlen : len = 0 := BitVec.eq_of_toNat_eq hzero
    refine ⟨true, ⟨m, []⟩, ?_, fun _ => ⟨[], 0, rfl, hstart, ?_, ?_⟩, fun _ => rfl⟩
    · simp only [mapStack, hlen, ne_eq, not_true, if_false]
    · rw [hzero]
      rfl
    · exact fun hpos => absurd hpos (lt_irrefl 0)
  · have hvaddr : vaddr &&& 0xfffffffffffff000 = vaddr := by
      apply BitVec.eq_of_toNat_eq
      rw [toNat_alignDown]
      exact Nat.div_mul_cancel (Nat.dvd_of_mod_eq_zero alignedVaddr)
    have hpage : vmPageSize.toNat = 4096 := rfl
    have hcount : 4096 * (len.toNat / 4096) = len.toNat :=
      Nat.mul_div_cancel' (Nat.dvd_of_mod_eq_zero alignedLen)
    have hptr : (vaddr + len - vmPageSize).toNat + 4096 =
        vaddr.toNat + 4096 * (len.toNat / 4096) := by
      have hsum : (vaddr + len).toNat = vaddr.toNat + len.toNat := by
        rw [BitVec.toNat_add, Nat.mod_eq_of_lt (by omega)]
      have hle : vmPageSize ≤ vaddr + len := by
        show vmPageSize.toNat ≤ (vaddr + len).toNat
        omega
      rw [BitVec.toNat_sub_of_le hle, hsum, hpage, hcount, Nat.sub_add_cancel]
      exact low.trans (Nat.le_add_right _ _)
    have htop : vaddr.toNat + 4096 * (([] : List (BitVec 64)).length + len.toNat / 4096) =
        vaddr.toNat + len.toNat := by
      rw [List.length_nil, Nat.zero_add, hcount]
    obtain ⟨done, s', hrun, hstacks, hdone⟩ := mapStackLoop_stacks wf hstart user htop low hptr
      enough
    refine ⟨done, s', ?_, fun h => ?_, hdone⟩
    · rw [mapStack_eq _ _ _ hzero, hvaddr]
      exact hrun
    · obtain ⟨pages, mapped, hrecorded, hstacked, hlength, -, hfirst⟩ := hstacks h
      rw [List.length_nil, Nat.zero_add] at hlength
      refine ⟨pages, mapped, hrecorded, hstacked, hlength, fun hpos hmemory => ?_⟩
      have hmost := hstacked.most
      rcases hmemory with hmany | hmemory
      · omega
      · exact hfirst (by omega) hmemory

end Building

end AddressSpace
