import AnosKernel.AddressSpace

/-!
# The values on a new stack

Where the loop of `address_space_create` that copies the initial values of the stack puts them. It
goes through the values from the last one down and fills the temporary page from its end, each time
with the page of the stack that the index of the value selects.
-/

namespace StackValues

open PageAlloc VmMapper TableTree TablePaths MapSyscalls ProcessCreate AddressSpace

/-! ## The temporary page -/

section Window

variable {P : BitVec 64 → Prop} {currentPml4 tempPage s : BitVec 64} {m m' : Machine}

/-- The temporary page has its page table, and the tables of the current address space are apart
from the pages `P` of the new one. -/
structure Windowed (P : BitVec 64 → Prop) (currentPml4 tempPage : BitVec 64) (m : Machine) :
    Prop where
  current : WellFormed m currentPml4
  leads : ∃ pt, Leads m.mem tempPage pt 3 currentPml4
  apart : ∀ f, Member down m.mem 3 currentPml4 f → ¬ P f
  free : ∀ page ∈ freePages m.region, ¬ P page

/-- The entry of the temporary page while it shows a page. -/
def tempEntry (s : BitVec 64) : BitVec 64 :=
  vmmPhysAndFlagsToTableEntry s (tempFlags.zeroExtend 64)

theorem isPresent_tempEntry (s : BitVec 64) : isPresent (tempEntry s) := by
  rw [tempEntry, isPresent_entry]
  decide

theorem Windowed.map (w : Windowed P currentPml4 tempPage m) (s : BitVec 64) :
    Windowed P currentPml4 tempPage (vmmMapPageIn m currentPml4 tempPage s tempFlags).2 ∧
      vmmVirtToPtEntry (vmmMapPageIn m currentPml4 tempPage s tempFlags).2 currentPml4 tempPage =
        tempEntry s ∧
      ∀ f, P f → (vmmMapPageIn m currentPml4 tempPage s tempFlags).2.mem f = m.mem f := by
  obtain ⟨pt, hleads⟩ := w.leads
  have hstraight := straight_of_leads hleads
  have hok := vmmMapPageIn_leads hleads s tempFlags
  generalize hmap : vmmMapPageIn m currentPml4 tempPage s tempFlags = result at hok
  obtain ⟨ok, m'⟩ := result
  obtain rfl : ok = true := hok
  have effect := vmmMapPageIn_effect w.current hstraight hmap
  have hentry : vmmVirtToPtEntry m' currentPml4 tempPage = tempEntry s :=
    map_writes_one_page w.current hstraight hmap (by decide)
  have hstraight' := (effect.others tempPage hstraight).1
  refine ⟨⟨effect.wellFormed, ?_, ?_, ?_⟩, hentry, ?_⟩
  · apply exists_leads_of_mapped hstraight'
    rw [← vmmVirtToPtEntry_eq_leaf, hentry]
    intro hzero
    exact not_isPresent_zero (hzero ▸ isPresent_tempEntry s)
  · intro f hf
    rcases effect.members f hf with hold | hfree
    · exact w.apart f hold
    · exact w.free f hfree
  · exact fun page hp => w.free page (effect.left page hp)
  · intro f hf
    exact effect.frame f (fun hp => w.apart f hp.member hf) (fun hfree => w.free f hfree hf)

/-- Writing to one of the pages does not reach the tables. -/
theorem Windowed.write (w : Windowed P currentPml4 tempPage m) (hs : P s) (i : Fin 512)
    (value : BitVec 64) :
    Windowed P currentPml4 tempPage { m with mem := setEntry m.mem s i value } ∧
      vmmVirtToPtEntry { m with mem := setEntry m.mem s i value } currentPml4 tempPage =
        vmmVirtToPtEntry m currentPml4 tempPage := by
  have hsame : ∀ f, Member down m.mem 3 currentPml4 f → setEntry m.mem s i value f = m.mem f := by
    intro f hf
    apply setEntry_table
    rintro rfl
    exact w.apart f hf hs
  obtain ⟨pt, hleads⟩ := w.leads
  refine ⟨⟨⟨w.current.tree.congr hsame, w.current.supplies.sized, w.current.supplies.nodup,
    w.current.supplies.frames, ?_⟩, ⟨pt, leads_congr hleads hsame⟩, ?_, w.free⟩, ?_⟩
  · intro page hp hmember
    exact w.current.supplies.apart page hp ((member_congr hsame page).mp hmember)
  · intro f hf
    exact w.apart f ((member_congr hsame f).mp hf)
  · exact ((straight_of_leads hleads).congr hsame).2

/-- Taking the temporary page away does not reach the pages. -/
theorem Windowed.unmap (w : Windowed P currentPml4 tempPage m) {f : BitVec 64} (hf : P f) :
    (vmmUnmapPageIn m currentPml4 tempPage).2.mem f = m.mem f := by
  obtain ⟨pt, hleads⟩ := w.leads
  obtain ⟨frame, m', hunmap⟩ : ∃ frame m', vmmUnmapPageIn m currentPml4 tempPage = (frame, m') :=
    ⟨_, _, rfl⟩
  rw [hunmap]
  obtain ⟨-, ⟨-, rfl⟩ | ⟨-, pt', hleads', hmem⟩⟩ :=
    vmmUnmapPageIn_cases (straight_of_leads hleads) hunmap
  · rfl
  · rw [hmem]
    apply setEntry_table
    rintro rfl
    exact w.apart f hleads'.member hf

end Window

/-! ## The loop over the values -/

section Copying

variable {P : BitVec 64 → Prop} {currentPml4 tempPage : BitVec 64} {pages : List (BitVec 64)}
  {values : Nat → BitVec 64} {c d e : Nat} {m m2 : Machine}

/-- The page that the `d`-th value from the end goes to, of `c` values. -/
def landing (pages : List (BitVec 64)) (c d : Nat) : BitVec 64 :=
  pages.getD ((c - 1) / 512 - d / 512) 0

/-- The word of its page that the `d`-th value from the end goes to. -/
def wordOf (d : Nat) : Fin 512 := Fin.ofNat 512 (511 - d % 512)

theorem wordOf_val (d : Nat) : (wordOf d).val = 511 - d % 512 :=
  Nat.mod_eq_of_lt (by omega)

/-- The pages of a stack that `c` values fit in, and that the loop can find. -/
structure Recorded (P : BitVec 64 → Prop) (pages : List (BitVec 64)) (c : Nat) : Prop where
  pool : ∀ s ∈ pages, P s
  frames : ∀ s ∈ pages, IsFrame s
  nodup : pages.Nodup
  room : 0 < c → (c - 1) / 512 < pages.length
  bound : c ≤ 16384

theorem getD_mem {k : Nat} (hk : k < pages.length) : pages.getD k 0 ∈ pages := by
  rw [List.getD_eq_getElem _ _ hk]
  exact List.getElem_mem hk

theorem Recorded.landing_mem (recorded : Recorded P pages c) (hd : d < c) :
    landing pages c d ∈ pages := by
  have hroom := recorded.room (by omega)
  exact getD_mem (by omega)

/-- Two values do not go to the same place. -/
theorem Recorded.distinct (recorded : Recorded P pages c) (he : e < c) (hd : d < c) (hne : e ≠ d) :
    landing pages c e ≠ landing pages c d ∨ wordOf e ≠ wordOf d := by
  by_contra hboth
  obtain ⟨hpage, hword⟩ := not_or.mp hboth
  have hroom := recorded.room (by omega)
  have hpage' := not_ne_iff.mp hpage
  rw [landing, landing, List.getD_eq_getElem _ _ (by omega), List.getD_eq_getElem _ _ (by omega),
    recorded.nodup.getElem_inj_iff] at hpage'
  have hword' := congrArg Fin.val (not_ne_iff.mp hword)
  rw [wordOf_val, wordOf_val] at hword'
  omega

/-- After `d` values. -/
structure Copied (P : BitVec 64 → Prop) (currentPml4 tempPage : BitVec 64)
    (pages : List (BitVec 64)) (values : Nat → BitVec 64) (c : Nat) (m2 : Machine) (d : Nat)
    (m : Machine) : Prop where
  window : Windowed P currentPml4 tempPage m
  shows : d % 512 ≠ 0 →
    vmmVirtToPtEntry m currentPml4 tempPage = tempEntry (landing pages c d)
  stored : ∀ e < d, m.mem (landing pages c e) (wordOf e) = values (c - 1 - e)
  others : ∀ f, P f → f ∉ pages → m.mem f = m2.mem f

theorem Copied.moveWindow (recorded : Recorded P pages c)
    (copied : Copied P currentPml4 tempPage pages values c m2 d m) (hd : d < c) :
    ∃ m1, AddressSpace.moveWindow currentPml4 tempPage (pages.take initStackArgPagesCount)
        (c - 1 - d) ((512 - d % 512) % 512) m = some (512 - d % 512, m1) ∧
      Windowed P currentPml4 tempPage m1 ∧
      vmmVirtToPtEntry m1 currentPml4 tempPage = tempEntry (landing pages c d) ∧
      ∀ f, P f → m1.mem f = m.mem f := by
  have hroom := recorded.room (by omega)
  have hbound := recorded.bound
  by_cases hfull : d % 512 = 0
  · have hslot : (c - 1 - d) >>> 9 = (c - 1) / 512 - d / 512 := by
      rw [Nat.shiftRight_eq_div_pow]
      omega
    have hfound : (pages.take initStackArgPagesCount)[(c - 1 - d) >>> 9]? =
        some (landing pages c d) := by
      have hlt : (c - 1) / 512 - d / 512 < initStackArgPagesCount := by
        unfold initStackArgPagesCount
        omega
      have hin : (c - 1) / 512 - d / 512 < pages.length := by omega
      rw [hslot, List.getElem?_take_of_lt hlt, List.getElem?_eq_getElem hin, landing,
        List.getD_eq_getElem _ _ hin]
    obtain ⟨hwindow, hentry, hsame⟩ := copied.window.map (landing pages c d)
    refine ⟨_, ?_, hwindow, hentry, hsame⟩
    rw [AddressSpace.moveWindow, hfound, hfull]
    rfl
  · refine ⟨m, ?_, copied.window, copied.shows hfull, fun _ _ => rfl⟩
    have hbottom : (512 - d % 512) % 512 = 512 - d % 512 := Nat.mod_eq_of_lt (by omega)
    rw [AddressSpace.moveWindow, hbottom, if_neg (by omega)]

theorem Copied.step (recorded : Recorded P pages c)
    (copied : Copied P currentPml4 tempPage pages values c m2 d m) (hd : d < c) :
    ∃ m1 m', AddressSpace.moveWindow currentPml4 tempPage (pages.take initStackArgPagesCount)
        (c - 1 - d) ((512 - d % 512) % 512) m = some (512 - d % 512, m1) ∧
      storeTemp currentPml4 tempPage (512 - d % 512 - 1) (values (c - 1 - d)) m1 = some m' ∧
      Copied P currentPml4 tempPage pages values c m2 (d + 1) m' := by
  obtain ⟨m1, hmove, hwindow, hentry, hsame⟩ := copied.moveWindow recorded hd
  have hmem := recorded.landing_mem hd
  have hpage := recorded.pool _ hmem
  have hphys : vmmTableEntryToPhys (tempEntry (landing pages c d)) = landing pages c d :=
    (phys_entry (by decide)).trans (recorded.frames _ hmem)
  have hstore : storeTemp currentPml4 tempPage (512 - d % 512 - 1) (values (c - 1 - d)) m1 =
      some { m1 with
        mem := setEntry m1.mem (landing pages c d) (wordOf d) (values (c - 1 - d)) } := by
    have hword : Fin.ofNat 512 (512 - d % 512 - 1) = wordOf d := by
      rw [wordOf]
      congr 1
      omega
    rw [storeTemp, hentry, if_pos (isPresent_tempEntry _), hphys, hword]
  obtain ⟨hwindow', hentry'⟩ := hwindow.write hpage (wordOf d) (values (c - 1 - d))
  refine ⟨m1, _, hmove, hstore, hwindow', fun hpart => ?_, fun e he => ?_, fun f hf hout => ?_⟩
  · have hblock : (d + 1) / 512 = d / 512 := by omega
    rw [hentry', hentry, landing, landing, hblock]
  · rcases Nat.lt_succ_iff_lt_or_eq.mp he with hlt | rfl
    · have hold : setEntry m1.mem (landing pages c d) (wordOf d) (values (c - 1 - d))
          (landing pages c e) (wordOf e) = m1.mem (landing pages c e) (wordOf e) := by
        rcases recorded.distinct (by omega) hd hlt.ne with hne | hne
        · exact congrFun (setEntry_table _ _ hne) _
        · by_cases heq : landing pages c e = landing pages c d
          · rw [heq]
            exact setEntry_index _ hne
          · exact congrFun (setEntry_table _ _ heq) _
      have hin := recorded.landing_mem (d := e) (by omega)
      show setEntry m1.mem (landing pages c d) (wordOf d) (values (c - 1 - d))
        (landing pages c e) (wordOf e) = values (c - 1 - e)
      rw [hold, hsame _ (recorded.pool _ hin)]
      exact copied.stored e hlt
    · exact setEntry_self _ _ _ _
  · have hne : f ≠ landing pages c d := by
      rintro rfl
      exact hout hmem
    exact (setEntry_table _ _ hne).trans ((hsame f hf).trans (copied.others f hf hout))

/-- All values find their places. -/
theorem copyValues_copies (recorded : Recorded P pages c)
    (copied : Copied P currentPml4 tempPage pages values c m2 d m) {i : Nat} (hi : i + d = c) :
    ∃ m', copyValues currentPml4 tempPage (pages.take initStackArgPagesCount) values i
        ((512 - d % 512) % 512) m = some m' ∧
      Copied P currentPml4 tempPage pages values c m2 c m' := by
  induction i generalizing d m with
  | zero =>
    obtain rfl : d = c := by omega
    exact ⟨m, rfl, copied⟩
  | succ i ih =>
    obtain ⟨m1, m2, hmove, hstore, hcopied⟩ := copied.step recorded (by omega)
    obtain ⟨m', hrun, hdone⟩ := ih hcopied (by omega)
    have hi' : c - 1 - d = i := by omega
    have hbottom : (512 - (d + 1) % 512) % 512 = 512 - d % 512 - 1 := by omega
    rw [hi'] at hmove hstore
    rw [hbottom] at hrun
    refine ⟨m', ?_, hdone⟩
    simp only [copyValues, hmove, hstore, Option.bind_some, hrun]

end Copying

/-! ## Reading the stack -/

/-- A load of a word in an address space. -/
def readWord (m : Machine) (pml4 virtAddr : BitVec 64) : Option (BitVec 64) :=
  let entry := vmmVirtToPtEntry m pml4 virtAddr
  if isPresent entry then some (m.mem (vmmTableEntryToPhys entry) (tableIndex (virtAddr >>> 3)))
  else none

section Reading

variable {currentPml4 newPml4 tempPage : BitVec 64} {m0 m m' : Machine} {top mapped c d : Nat}
  {pages : List (BitVec 64)}

/-- The pages that were taken for the new address space. -/
def Taken (m0 m : Machine) (f : BitVec 64) : Prop :=
  f ∈ freePages m0.region ∧ f ∉ freePages m.region

/-- Building the new address space leaves the temporary page as it was. -/
theorem windowed_of_building (wf : WellFormed m0 currentPml4)
    (temp : ∃ pt, Leads m0.mem tempPage pt 3 currentPml4)
    (b : Building m0 currentPml4 newPml4 m) :
    Windowed (Taken m0 m) currentPml4 tempPage m := by
  obtain ⟨pt, hleads⟩ := temp
  have hmember := member_congr b.same
  refine ⟨⟨wf.tree.congr b.same, b.new.supplies.sized, b.new.supplies.nodup,
    b.new.supplies.frames, ?_⟩, ⟨pt, leads_congr hleads b.same⟩, ?_, ?_⟩
  · intro page hp hf
    exact wf.supplies.apart page (b.free page hp) ((hmember page).mp hf)
  · intro f hf htaken
    exact wf.supplies.apart f htaken.1 ((hmember f).mp hf)
  · exact fun page hp htaken => htaken.2 hp

theorem recorded_of_stacked (wf : WellFormed m0 currentPml4)
    (stacked : Stacked m0 currentPml4 newPml4 top pages mapped m)
    (fits : c ≤ 512 * pages.length) (bound : c ≤ 16384) : Recorded (Taken m0 m) pages c where
  pool := fun s hs => ⟨stacked.pool s hs, stacked.used s hs⟩
  frames := fun s hs => wf.supplies.frames s (stacked.pool s hs)
  nodup := stacked.nodup
  room := by omega
  bound := bound

/-- The `d`-th word of a stack from its end. -/
def stackWord (top d : Nat) : BitVec 64 := BitVec.ofNat 64 (top - 8 * (d + 1))

theorem toNat_stackWord (user : top ≤ 2 ^ 47) (d : Nat) :
    (stackWord top d).toNat = top - 8 * (d + 1) := by
  rw [stackWord, BitVec.toNat_ofNat, Nat.mod_eq_of_lt (by omega)]

theorem pageNumber_stackWord (user : top ≤ 2 ^ 47) (aligned : top % 4096 = 0)
    (room : 8 * (d + 1) ≤ top) :
    pageNumber (stackWord top d) = pageNumber (stackAddr top (d / 512)) := by
  apply BitVec.eq_of_toNat_eq
  rw [pageNumber_stackAddr user, toNat_pageNumber, toNat_stackWord user]
  omega

theorem tableIndex_stackWord (user : top ≤ 2 ^ 47) (aligned : top % 4096 = 0)
    (room : 8 * (d + 1) ≤ top) : tableIndex (stackWord top d >>> 3) = wordOf d := by
  apply Fin.ext
  rw [tableIndex_val, wordOf_val, BitVec.toNat_ushiftRight, toNat_stackWord user,
    Nat.shiftRight_eq_div_pow]
  omega

/-- A word of the stack is in the page that was mapped there, whatever is written to the pages of
the stack. -/
theorem readWord_stack (wf : WellFormed m0 currentPml4)
    (stacked : Stacked m0 currentPml4 newPml4 top pages mapped m)
    (kept : ∀ f, Taken m0 m f → f ∉ pages → m'.mem f = m.mem f) (user : top ≤ 2 ^ 47)
    (aligned : top % 4096 = 0) (room : 4096 * pages.length ≤ top) (hd : d / 512 < mapped) :
    readWord m' newPml4 (stackWord top d) = some (m'.mem (pages.getD (d / 512) 0) (wordOf d)) := by
  have hmapped : mapped ≤ pages.length := by
    have hmost := stacked.most
    omega
  have hin : d / 512 < pages.length := hd.trans_le hmapped
  have hroom : 8 * (d + 1) ≤ top := by omega
  have huser : isUserAddress (stackAddr top (d / 512)) := by
    rw [isUserAddress_iff, toNat_stackAddr user]
    omega
  have hsame : ∀ f, Path m.mem (stackAddr top (d / 512)) 3 newPml4 f → m'.mem f = m.mem f := by
    intro f hf
    have hfree : f ∉ freePages m.region :=
      fun hp => stacked.building.new.supplies.apart f hp hf.member
    exact kept f ⟨stacked.building.path huser hf, hfree⟩
      (fun hp => stacked.apart f hp hf.member)
  have hentry : vmmVirtToPtEntry m' newPml4 (stackWord top d) =
      vmmPhysAndFlagsToTableEntry (pages.getD (d / 512) 0) (stackFlags.zeroExtend 64) := by
    rw [entry_eq_of_pageNumber (pageNumber_stackWord user aligned hroom), vmmVirtToPtEntry_eq_leaf,
      (straight_congr_path (stacked.building.straight _ huser) hsame).2,
      ← vmmVirtToPtEntry_eq_leaf]
    exact stacked.entries _ hd
  have hframe : IsFrame (pages.getD (d / 512) 0) :=
    wf.supplies.frames _ (stacked.pool _ (getD_mem hin))
  have hpresent : isPresent
      (vmmPhysAndFlagsToTableEntry (pages.getD (d / 512) 0) (stackFlags.zeroExtend 64)) := by
    rw [isPresent_entry]
    decide
  have hphys : vmmTableEntryToPhys
      (vmmPhysAndFlagsToTableEntry (pages.getD (d / 512) 0) (stackFlags.zeroExtend 64)) =
        pages.getD (d / 512) 0 :=
    (phys_entry (by decide)).trans hframe
  simp only [readWord, hentry, if_pos hpresent, hphys, tableIndex_stackWord user aligned hroom]

end Reading

/-! ## The whole call -/

section Calls

variable {currentPml4 newPml4 tempPage initStackVaddr initStackLen : BitVec 64} {m m' : Machine}
  {regions : List ProcessMemoryRegion} {stackValueCount fuel : Nat} {values : Nat → BitVec 64}

/-- The values are at the top of the stack in ascending order. -/
def HoldsValues (m : Machine) (pml4 initStackVaddr initStackLen : BitVec 64)
    (stackValueCount : Nat) (stackValues : Nat → BitVec 64) : Prop :=
  ∀ i < stackValueCount,
    readWord m pml4
        (initStackVaddr + initStackLen - BitVec.ofNat 64 (8 * (stackValueCount - i))) =
      some (stackValues i)

/-- A call for pages of user space, with values that fit in the stack. The temporary page has had
its page table since the mapper was set up. `vmm_map_page_in` may fail unnoticed for the last page
of the stack; if it is the only one, there is to be memory for its tables. -/
structure StackCall (m : Machine) (currentPml4 tempPage initStackVaddr initStackLen : BitVec 64)
    (regions : List ProcessMemoryRegion) (stackValueCount fuel : Nat) : Prop where
  current : WellFormed m currentPml4
  temp : ∃ pt, Leads m.mem tempPage pt 3 currentPml4
  alignedVaddr : initStackVaddr.toNat % 4096 = 0
  alignedLen : initStackLen.toNat % 4096 = 0
  user : initStackVaddr.toNat + initStackLen.toNat ≤ 2 ^ 47
  shared : ∀ region ∈ regions, UserRegion region
  bound : stackValueCount ≤ maxStackValueCount.toNat
  fits : 8 * stackValueCount ≤ initStackLen.toNat
  single : initStackLen.toNat = 4096 →
    5 + 3 * regionPages regions ≤ (freePages m.region).length
  fuelRegions : regionPages regions ≤ fuel
  fuelStack : initStackLen.toNat / 4096 ≤ fuel

/-- The last of the values that are copied are in the page at the end of the stack. -/
def TopFilled (m : Machine) (pml4 : BitVec 64) (top count : Nat) (values : Nat → BitVec 64) :
    Prop :=
  ∀ d < count, d / 512 = (count - 1) / 512 →
    readWord m pml4 (stackWord top (d % 512)) = some (values (count - 1 - d))

/-- After the stack is mapped. -/
theorem copyValues_fills {m0 : Machine} {top mapped : Nat} {pages : List (BitVec 64)}
    (wf : WellFormed m0 currentPml4) (temp : ∃ pt, Leads m0.mem tempPage pt 3 currentPml4)
    (stacked : Stacked m0 currentPml4 newPml4 top pages mapped m) (user : top ≤ 2 ^ 47)
    (aligned : top % 4096 = 0) (room : 4096 * pages.length ≤ top)
    (fits : stackValueCount ≤ 512 * pages.length) (bound : stackValueCount ≤ 16384)
    (first : 0 < pages.length → 0 < mapped) (values : Nat → BitVec 64) :
    ∃ m1, copyValues currentPml4 tempPage (pages.take initStackArgPagesCount) values
        stackValueCount 0 m = some m1 ∧
      TopFilled (vmmUnmapPageIn m1 currentPml4 tempPage).2 newPml4 top stackValueCount values := by
  have hrecorded := recorded_of_stacked wf stacked fits bound
  have hstart : Copied (Taken m0 m) currentPml4 tempPage pages values stackValueCount m 0 m :=
    ⟨windowed_of_building wf temp stacked.building, fun h => absurd rfl h,
      fun e he => absurd he (Nat.not_lt_zero e), fun _ _ _ => rfl⟩
  obtain ⟨m1, hrun, hcopied⟩ := copyValues_copies hrecorded hstart (Nat.add_zero _)
  refine ⟨m1, hrun, fun d hd hblock => ?_⟩
  have hunmap : ∀ f, Taken m0 m f →
      (vmmUnmapPageIn m1 currentPml4 tempPage).2.mem f = m1.mem f :=
    fun f hf => hcopied.window.unmap hf
  have hkept : ∀ f, Taken m0 m f → f ∉ pages →
      (vmmUnmapPageIn m1 currentPml4 tempPage).2.mem f = m.mem f :=
    fun f hf hout => (hunmap f hf).trans (hcopied.others f hf hout)
  have hmem := hrecorded.landing_mem hd
  have hlanding : landing pages stackValueCount d = pages.getD (d % 512 / 512) 0 := by
    have hslot : (stackValueCount - 1) / 512 - d / 512 = d % 512 / 512 := by omega
    rw [landing, hslot]
  have hword : wordOf (d % 512) = wordOf d := by
    rw [wordOf, wordOf, Nat.mod_mod]
  have htop : d % 512 / 512 < mapped := by
    have hpos := first (by omega)
    omega
  rw [readWord_stack wf stacked hkept user aligned room htop, ← hlanding, hword,
    hunmap _ (hrecorded.pool _ hmem), hcopied.stored d hd]

/-- A call that is not for the lowest page of memory ends. -/
theorem addressSpaceCreate_fills
    (call : StackCall m currentPml4 tempPage initStackVaddr initStackLen regions stackValueCount
      fuel) (low : 4096 ≤ initStackVaddr.toNat) (values : Nat → BitVec 64) :
    ∃ new m', addressSpaceCreate (fuel + 1) m currentPml4 tempPage initStackVaddr initStackLen
        regions stackValueCount values = some (new, m') ∧
      (new ≠ 0 → TopFilled m' new (initStackVaddr.toNat + initStackLen.toNat) stackValueCount
        values) ∧
      (1 + 3 * regionPages regions + 4 * (initStackLen.toNat / 4096) ≤
        (freePages m.region).length → new ∈ freePages m.region) := by
  by_cases hstack : m.region.stack = []
  · have hodd : (0xFF : BitVec 64) &&& 0xff ≠ 0 := by decide
    refine ⟨0, m, ?_, fun h => absurd rfl h, fun hmemory => ?_⟩
    · simp only [addressSpaceCreate, pageAlloc_empty hstack, if_pos hodd]
    · rw [freePages_empty hstack, List.length_nil] at hmemory
      omega
  · obtain ⟨new, region, hnew⟩ : ∃ new region, pageAlloc m.region = (new, region) := ⟨_, _, rfl⟩
    have hb := building_start call.current hstack hnew
    have hlength := (pageAlloc_allocated call.current.supplies.sized call.current.supplies.nodup
      hstack hnew).count
    have hlow := IsFrame.low_byte (call.current.supplies.frames new hb.root)
    obtain ⟨m1, hshare, hb1, hcost⟩ := shareRegions_builds call.current hb call.shared
      call.fuelRegions
    have hcost' : (freePages region).length ≤
      (freePages m1.region).length + 3 * regionPages regions := hcost
    obtain ⟨done, s, hmap, hstacks, hdone⟩ := mapStack_stacks call.current hb1 call.alignedVaddr
      call.alignedLen low call.user call.fuelStack
    cases done with
    | false =>
      refine ⟨0, s.machine, ?_, fun h => absurd rfl h, fun hmemory => ?_⟩
      · simp only [addressSpaceCreate, hnew, hlow, ne_eq, not_true, if_false, hshare, hmap,
          Option.bind_some, Bool.false_eq_true]
      · exact absurd (hdone (by omega)) (by decide)
    | true =>
      obtain ⟨pages, mapped, hrecorded, hstacked, hpages, hfirst⟩ := hstacks rfl
      have halignedVaddr := call.alignedVaddr
      have halignedLen := call.alignedLen
      have hfits := call.fits
      have hsingle := call.single
      obtain ⟨m2, hcopy, hfilled⟩ := copyValues_fills call.current call.temp hstacked call.user
        (by omega) (by omega) (by omega) call.bound
        (fun hpos => hfirst hpos (by omega)) values
      refine ⟨new, (vmmUnmapPageIn m2 currentPml4 tempPage).2, ?_, fun _ => hfilled,
        fun _ => hb.root⟩
      simp only [addressSpaceCreate, hnew, hlow, ne_eq, not_true, if_false, hshare, hmap,
        Option.bind_some, if_true, hrecorded, hcopy, Option.map_some]

/-- From the lowest page of memory on, the stack is never all mapped. -/
theorem addressSpaceCreate_lowest (hlen : initStackLen.toNat ≠ 0)
    (h : addressSpaceCreate fuel m currentPml4 tempPage 0 initStackLen regions stackValueCount
      values = some (newPml4, m')) : newPml4 = 0 := by
  obtain ⟨new, region, hnew⟩ : ∃ new region, pageAlloc m.region = (new, region) := ⟨_, _, rfl⟩
  simp only [addressSpaceCreate, hnew] at h
  split at h
  · exact (congrArg Prod.fst (Option.some.inj h)).symm
  · obtain ⟨m1, -, h⟩ := Option.bind_eq_some_iff.mp h
    obtain ⟨⟨done, s⟩, hmap, h⟩ := Option.bind_eq_some_iff.mp h
    cases done with
    | false => exact (congrArg Prod.fst (Option.some.inj h)).symm
    | true =>
      rw [mapStack_eq _ _ _ hlen] at hmap
      exact absurd hmap mapStackLoop_zero

theorem addressSpaceCreate_topFilled
    (call : StackCall m currentPml4 tempPage initStackVaddr initStackLen regions stackValueCount
      fuel) (h : addressSpaceCreate (fuel + 1) m currentPml4 tempPage initStackVaddr initStackLen
        regions stackValueCount values = some (newPml4, m')) (hne : newPml4 ≠ 0) :
    TopFilled m' newPml4 (initStackVaddr.toNat + initStackLen.toNat) stackValueCount values := by
  by_cases hlow : 4096 ≤ initStackVaddr.toNat
  · obtain ⟨new, m1, hrun, hfilled, -⟩ := addressSpaceCreate_fills call hlow values
    rw [hrun] at h
    obtain ⟨rfl, rfl⟩ := Prod.mk.inj (Option.some.inj h)
    exact hfilled hne
  · have haligned := call.alignedVaddr
    have hnat : initStackVaddr.toNat = 0 := by omega
    have hzero : initStackVaddr = 0 := BitVec.eq_of_toNat_eq hnat
    by_cases hlen : initStackLen.toNat = 0
    · -- no stack, no values
      have hfits := call.fits
      intro d hd
      omega
    · subst hzero
      exact absurd (addressSpaceCreate_lowest hlen h) hne

/-- The address of a value, from the end of the stack. -/
theorem valueAddr_eq (user : initStackVaddr.toNat + initStackLen.toNat ≤ 2 ^ 47)
    (fits : 8 * stackValueCount ≤ initStackLen.toNat) {i : Nat} (hi : i < stackValueCount) :
    initStackVaddr + initStackLen - BitVec.ofNat 64 (8 * (stackValueCount - i)) =
      stackWord (initStackVaddr.toNat + initStackLen.toNat) (stackValueCount - 1 - i) := by
  have hback : stackValueCount - 1 - i + 1 = stackValueCount - i := by omega
  have hsum : (initStackVaddr + initStackLen).toNat =
      initStackVaddr.toNat + initStackLen.toNat := by
    rw [BitVec.toNat_add, Nat.mod_eq_of_lt (by omega)]
  have hoffset : (BitVec.ofNat 64 (8 * (stackValueCount - i))).toNat =
      8 * (stackValueCount - i) := by
    rw [BitVec.toNat_ofNat, Nat.mod_eq_of_lt (by omega)]
  have hle : BitVec.ofNat 64 (8 * (stackValueCount - i)) ≤ initStackVaddr + initStackLen := by
    show (BitVec.ofNat 64 (8 * (stackValueCount - i))).toNat ≤ (initStackVaddr + initStackLen).toNat
    omega
  apply BitVec.eq_of_toNat_eq
  rw [toNat_stackWord user, hback, BitVec.toNat_sub_of_le hle, hsum, hoffset]

theorem holdsValues_of_topFilled
    (call : StackCall m currentPml4 tempPage initStackVaddr initStackLen regions stackValueCount
      fuel) (few : stackValueCount ≤ 512)
    (filled : TopFilled m' newPml4 (initStackVaddr.toNat + initStackLen.toNat) stackValueCount
      values) : HoldsValues m' newPml4 initStackVaddr initStackLen stackValueCount values := by
  intro i hi
  rw [valueAddr_eq call.user call.fits hi]
  have hword := filled (stackValueCount - 1 - i) (by omega) (by omega)
  have hmod : (stackValueCount - 1 - i) % 512 = stackValueCount - 1 - i :=
    Nat.mod_eq_of_lt (by omega)
  have hindex : stackValueCount - 1 - (stackValueCount - 1 - i) = i := by omega
  rw [hmod, hindex] at hword
  exact hword

/-- With more than a page of values, the word at the end of the stack is not the last value but one
of the first. -/
theorem not_holdsValues_of_topFilled
    (call : StackCall m currentPml4 tempPage initStackVaddr initStackLen regions stackValueCount
      fuel) (many : 512 < stackValueCount)
    (filled : TopFilled m' newPml4 (initStackVaddr.toNat + initStackLen.toNat) stackValueCount
      (BitVec.ofNat 64)) :
    ¬ HoldsValues m' newPml4 initStackVaddr initStackLen stackValueCount (BitVec.ofNat 64) := by
  intro holds
  have hbound : stackValueCount ≤ 16384 := call.bound
  have hlast := holds (stackValueCount - 1) (by omega)
  rw [valueAddr_eq call.user call.fits (by omega), Nat.sub_self] at hlast
  have hfirst := filled (512 * ((stackValueCount - 1) / 512)) (by omega) (by omega)
  rw [Nat.mul_mod_right, hlast] at hfirst
  have hnat := congrArg BitVec.toNat (Option.some.inj hfirst)
  rw [BitVec.toNat_ofNat, BitVec.toNat_ofNat, Nat.mod_eq_of_lt (by omega),
    Nat.mod_eq_of_lt (by omega)] at hnat
  omega

/-- The temporary page is mapped to the pages of the stack in the wrong order: the values are where
they belong only if they all fit in one page. -/
theorem addressSpaceCreate_holds_iff
    (call : StackCall m currentPml4 tempPage initStackVaddr initStackLen regions stackValueCount
      fuel)
    (succeeds : ∀ values, ∃ new m', addressSpaceCreate (fuel + 1) m currentPml4 tempPage
      initStackVaddr initStackLen regions stackValueCount values = some (new, m') ∧ new ≠ 0) :
    (∀ values new m', addressSpaceCreate (fuel + 1) m currentPml4 tempPage initStackVaddr
        initStackLen regions stackValueCount values = some (new, m') →
      HoldsValues m' new initStackVaddr initStackLen stackValueCount values) ↔
    stackValueCount ≤ 512 := by
  constructor
  · intro holds
    by_contra hmany
    obtain ⟨new, m', hrun, hne⟩ := succeeds (BitVec.ofNat 64)
    exact not_holdsValues_of_topFilled call (by omega) (addressSpaceCreate_topFilled call hrun hne)
      (holds _ _ _ hrun)
  · intro hfew values new m' hrun
    have hne : new ≠ 0 := by
      obtain ⟨new', m'', hrun', hne⟩ := succeeds values
      rw [hrun'] at hrun
      obtain ⟨rfl, rfl⟩ := Prod.mk.inj (Option.some.inj hrun)
      exact hne
    exact holdsValues_of_topFilled call hfew (addressSpaceCreate_topFilled call hrun hne)

end Calls

/-- No tables but an empty top-level table at `0x1000`, and twelve free pages. -/
def freshMachine : Machine where
  mem := fun _ _ => 0
  region := { size := 0xc000, free := 0xc000, stack := [{ base := 0x10000, size := 12 }] }

theorem freshMachine_wellFormed : WellFormed freshMachine 0x1000 := by
  have hpages : freePages freshMachine.region =
      [0x10000, 0x11000, 0x12000, 0x13000, 0x14000, 0x15000, 0x16000, 0x17000, 0x18000, 0x19000,
        0x1a000, 0x1b000] := by decide
  apply wellFormed_empty rfl
  · simp [WellSized, freshMachine]
  · rw [hpages]
    decide
  · rw [hpages]
    simp [IsFrame, vmmTableEntryToPhys]
  · rw [hpages]
    decide

/-- The machine with the temporary page of the first CPU mapped once. -/
def tempMachine : Machine :=
  (vmmMapPageIn freshMachine 0x1000 0xffffffff80400000 0x9000 tempFlags).2

theorem tempMachine_effect : MapEffect 0x1000 0xffffffff80400000 freshMachine true tempMachine := by
  have hstraight : Straight freshMachine.mem 0xffffffff80400000 3 0x1000 := (empty_walk rfl _).1
  obtain ⟨ok, m', hmap⟩ : ∃ ok m', vmmMapPageIn freshMachine 0x1000 0xffffffff80400000 0x9000
      tempFlags = (ok, m') := ⟨_, _, rfl⟩
  have effect := vmmMapPageIn_effect freshMachine_wellFormed hstraight hmap
  obtain rfl := effect.enough (by decide)
  have htemp : tempMachine = m' := congrArg Prod.snd hmap
  rw [htemp]
  exact effect

theorem tempMachine_free :
    9 ≤ (freePages tempMachine.region).length ∧ (0 : BitVec 64) ∉ freePages tempMachine.region := by
  have hcount := tempMachine_effect.count
  have hpages : (freePages freshMachine.region).length = 12 := by decide
  refine ⟨by omega, fun hzero => ?_⟩
  exact absurd (tempMachine_effect.left 0 hzero) (by decide)

theorem tempMachine_leads : ∃ pt, Leads tempMachine.mem 0xffffffff80400000 pt 3 0x1000 := by
  have hstraight : Straight freshMachine.mem 0xffffffff80400000 3 0x1000 := (empty_walk rfl _).1
  apply exists_leads_of_mapped (tempMachine_effect.others _ hstraight).1
  rw [← vmmVirtToPtEntry_eq_leaf]
  decide

/-- Calls for the stack at `0x40000000`, of one page and of two. -/
theorem stackCall_pages {stackValueCount pages : Nat} (hpages : pages = 1 ∨ pages = 2)
    (fits : stackValueCount ≤ 512 * pages) :
    StackCall tempMachine 0x1000 0xffffffff80400000 0x40000000 (BitVec.ofNat 64 (4096 * pages)) []
      stackValueCount 2 := by
  have hlen : (BitVec.ofNat 64 (4096 * pages)).toNat = 4096 * pages := by
    rw [BitVec.toNat_ofNat, Nat.mod_eq_of_lt (by omega)]
  have hvaddr : (0x40000000 : BitVec 64).toNat = 0x40000000 := rfl
  have hbound : maxStackValueCount.toNat = 16384 := rfl
  have hregions : regionPages [] = 0 := rfl
  have hfree := tempMachine_free.1
  constructor
  · exact tempMachine_effect.wellFormed
  · exact tempMachine_leads
  · rw [hvaddr]
  · rw [hlen]
    omega
  · rw [hvaddr, hlen]
    omega
  · intro region hr
    exact absurd hr List.not_mem_nil
  · omega
  · rw [hlen]
    omega
  · rw [hregions]
    omega
  · rw [hregions]
    omega
  · rw [hlen]
    omega

theorem stackCall_succeeds {stackValueCount pages : Nat} (hpages : pages = 1 ∨ pages = 2)
    (fits : stackValueCount ≤ 512 * pages) (values : Nat → BitVec 64) :
    ∃ new m', addressSpaceCreate 3 tempMachine 0x1000 0xffffffff80400000 0x40000000
      (BitVec.ofNat 64 (4096 * pages)) [] stackValueCount values = some (new, m') ∧ new ≠ 0 := by
  have hlen : (BitVec.ofNat 64 (4096 * pages)).toNat = 4096 * pages := by
    rw [BitVec.toNat_ofNat, Nat.mod_eq_of_lt (by omega)]
  obtain ⟨new, m', hrun, -, hnew⟩ :=
    addressSpaceCreate_fills (stackCall_pages hpages fits) (by decide) values
  have hregions : regionPages [] = 0 := rfl
  have hfree := tempMachine_free.1
  refine ⟨new, m', hrun, ?_⟩
  rintro rfl
  apply tempMachine_free.2 (hnew _)
  rw [hregions, hlen]
  omega

/-- Three values on a stack of one page. -/
theorem addressSpaceCreate_holds_iff_three :
    ∃ new m', addressSpaceCreate 3 tempMachine 0x1000 0xffffffff80400000 0x40000000 0x1000 [] 3
        (BitVec.ofNat 64) = some (new, m') ∧ new ≠ 0 ∧
      HoldsValues m' new 0x40000000 0x1000 3 (BitVec.ofNat 64) := by
  have hsucceeds := stackCall_succeeds (Or.inl rfl) (show 3 ≤ 512 * 1 by decide)
  obtain ⟨new, m', hrun, hne⟩ := hsucceeds (BitVec.ofNat 64)
  have hholds := (addressSpaceCreate_holds_iff (stackCall_pages (Or.inl rfl) (by decide))
    hsucceeds).mpr (by decide)
  exact ⟨new, m', hrun, hne, hholds _ new m' hrun⟩

/-- With the values from 0 to 512 on a stack of two pages, the call succeeds, and the word at the
end of the stack is 0. -/
theorem stack_values_misplaced :
    ∃ new m', addressSpaceCreate 3 tempMachine 0x1000 0xffffffff80400000 0x40000000 0x2000 [] 513
        (BitVec.ofNat 64) = some (new, m') ∧ new ≠ 0 ∧ readWord m' new 0x40001ff8 = some 0 ∧
      ¬ HoldsValues m' new 0x40000000 0x2000 513 (BitVec.ofNat 64) := by
  have hfits : 513 ≤ 512 * 2 := by decide
  have hcall := stackCall_pages (Or.inr rfl) hfits
  obtain ⟨new, m', hrun, hne⟩ := stackCall_succeeds (Or.inr rfl) hfits (BitVec.ofNat 64)
  have hfilled := addressSpaceCreate_topFilled hcall hrun hne
  refine ⟨new, m', hrun, hne, ?_, not_holdsValues_of_topFilled hcall (by decide) hfilled⟩
  exact hfilled 512 (by decide) (by decide)

end StackValues
