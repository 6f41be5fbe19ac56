import AnosKernel.Ipwi
import AnosKernel.VmMapper

/-!
# TLB shootdown

`kernel/vmm/vmm_shootdown.c`: changing mappings of an address space and telling the other CPUs,
which may hold the old translations. The work item names the address space by the process or by
its top-level table.
-/

namespace Shootdown

open VmMapper Ipwi

/-- What the C code has for `i << VM_PAGE_LINEAR_SHIFT`, with an `int`. -/
def pageOffset (i : Nat) : BitVec 64 := (BitVec.ofNat 32 i <<< 12).signExtend 64

/-- The loop of `vmm_map_pages_containing_in` from page `i` on. -/
def mapPagesLoop (pml4 virtAddr physAddr : BitVec 64) (flags : BitVec 16) :
    Nat → Nat → Machine → Bool × Machine
  | 0, _, m => (true, m)
  | turns + 1, i, m =>
    match vmmMapPageIn m pml4 (virtAddr + pageOffset i) (physAddr + pageOffset i) flags with
    | (false, m) => (false, m)
    | (true, m) => mapPagesLoop pml4 virtAddr physAddr flags turns (i + 1) m

def vmmMapPagesContainingIn (m : Machine) (pml4 virtAddr physAddr : BitVec 64) (flags : BitVec 16)
    (numPages : BitVec 64) : Bool × Machine :=
  mapPagesLoop pml4 virtAddr physAddr flags numPages.toNat 0 m

/-- The loop of `vmm_unmap_pages_in` from page `i` on. -/
def unmapPagesLoop (pml4 virtAddr : BitVec 64) : Nat → Nat → Machine → Machine
  | 0, _, m => m
  | turns + 1, i, m =>
    unmapPagesLoop pml4 virtAddr turns (i + 1) (vmmUnmapPageIn m pml4 (virtAddr + pageOffset i)).2

def vmmUnmapPagesIn (m : Machine) (pml4 virtAddr numPages : BitVec 64) : BitVec 64 × Machine :=
  let (result, m) := vmmUnmapPageIn m pml4 virtAddr
  (result, unmapPagesLoop pml4 virtAddr (numPages.toNat - 1) 1 m)

/-- The physical memory, the CPUs and the top-level table of the CPU that runs. -/
structure World where
  machine : Machine
  cr3 : BitVec 64
  cpus : Cpus

def vmmVirtToPhys (m : Machine) (cr3 virtAddr : BitVec 64) : BitVec 64 :=
  vmmTableEntryToPhys (vmmVirtToPtEntry m cr3 virtAddr) + (virtAddr &&& 0xfff)

/-- The work item of a change from `virtAddr` on. -/
def shootdownItem (virtAddr targetPid targetPml4 : BitVec 64) : IpwiWorkItem where
  type := ipwiTypeTlbShootdown
  payload := {
    startVaddr := virtAddr
    pageCount := 1
    targetPid := targetPid
    targetPml4 := targetPml4 }

/-- The functions for a process share this body; `change` works on a top-level table. -/
def shootdownInProcess {β : Type} (w : World) (process : Process) (virtAddr : BitVec 64)
    (refused : β) (change : Machine → BitVec 64 → β × Machine) : β × World :=
  if vmmPhysToVirt process.pml4 = 0 then (refused, w)
  else
    let (result, machine) := change w.machine process.pml4
    let item := shootdownItem virtAddr process.pid 0
    (result, { w with
      machine := machine
      cpus := (ipwiEnqueueAllExceptCurrent w.cpus item).2 })

/-- The functions for a top-level table share this body. The pointer to the table is an address
of the direct map. -/
def shootdownInPml4 {β : Type} (w : World) (pml4Virt virtAddr : BitVec 64)
    (change : Machine → BitVec 64 → β × Machine) : β × World :=
  let (result, machine) := change w.machine (pml4Virt - directMapBase)
  let item := shootdownItem virtAddr 0 (vmmVirtToPhys machine w.cr3 pml4Virt)
  (result, { w with
    machine := machine
    cpus := (ipwiEnqueueAllExceptCurrent w.cpus item).2 })

def vmmShootdownMapPagesContainingInProcess (w : World) (process : Process)
    (virtAddr physAddr flags numPages : BitVec 64) : Bool × World :=
  shootdownInProcess w process virtAddr false fun m pml4 =>
    vmmMapPagesContainingIn m pml4 virtAddr physAddr (flags.setWidth 16) numPages

def vmmShootdownMapPagesContainingInPml4 (w : World) (pml4Virt : BitVec 64)
    (virtAddr physAddr flags numPages : BitVec 64) : Bool × World :=
  shootdownInPml4 w pml4Virt virtAddr fun m pml4 =>
    vmmMapPagesContainingIn m pml4 virtAddr physAddr (flags.setWidth 16) numPages

def vmmShootdownUnmapPagesInProcess (w : World) (process : Process)
    (virtAddr numPages : BitVec 64) : BitVec 64 × World :=
  shootdownInProcess w process virtAddr 0 fun m pml4 => vmmUnmapPagesIn m pml4 virtAddr numPages

def vmmShootdownUnmapPagesInPml4 (w : World) (pml4Virt virtAddr numPages : BitVec 64) :
    BitVec 64 × World :=
  shootdownInPml4 w pml4Virt virtAddr fun m pml4 => vmmUnmapPagesIn m pml4 virtAddr numPages

/-! ## Calls -/

inductive Call where
  | mapInProcess (process : Process) (virtAddr physAddr flags numPages : BitVec 64)
  | mapInPml4 (pml4Virt virtAddr physAddr flags numPages : BitVec 64)
  | unmapInProcess (process : Process) (virtAddr numPages : BitVec 64)
  | unmapInPml4 (pml4Virt virtAddr numPages : BitVec 64)

def execute (w : World) : Call → World
  | .mapInProcess process virtAddr physAddr flags numPages =>
    (vmmShootdownMapPagesContainingInProcess w process virtAddr physAddr flags numPages).2
  | .mapInPml4 pml4Virt virtAddr physAddr flags numPages =>
    (vmmShootdownMapPagesContainingInPml4 w pml4Virt virtAddr physAddr flags numPages).2
  | .unmapInProcess process virtAddr numPages =>
    (vmmShootdownUnmapPagesInProcess w process virtAddr numPages).2
  | .unmapInPml4 pml4Virt virtAddr numPages =>
    (vmmShootdownUnmapPagesInPml4 w pml4Virt virtAddr numPages).2

def Call.virtAddr : Call → BitVec 64
  | .mapInProcess _ virtAddr _ _ _ => virtAddr
  | .mapInPml4 _ virtAddr _ _ _ => virtAddr
  | .unmapInProcess _ virtAddr _ => virtAddr
  | .unmapInPml4 _ virtAddr _ => virtAddr

def Call.numPages : Call → BitVec 64
  | .mapInProcess _ _ _ _ numPages => numPages
  | .mapInPml4 _ _ _ _ numPages => numPages
  | .unmapInProcess _ _ numPages => numPages
  | .unmapInPml4 _ _ numPages => numPages

/-- The top-level table of the address space that a call changes. -/
def Call.root : Call → BitVec 64
  | .mapInProcess process _ _ _ _ => process.pml4
  | .mapInPml4 pml4Virt _ _ _ _ => pml4Virt - directMapBase
  | .unmapInProcess process _ _ => process.pml4
  | .unmapInPml4 pml4Virt _ _ => pml4Virt - directMapBase

/-- Page `i` of the range of a call. -/
def Call.page (call : Call) (i : Nat) : BitVec 64 := call.virtAddr + BitVec.ofNat 64 i <<< 12

/-- What a processor finds for `v`: the entry, and on which level; `n` levels are below `t`. -/
def translation (mem : BitVec 64 → Fin 512 → BitVec 64) (v : BitVec 64) :
    Nat → BitVec 64 → Option (Nat × BitVec 64)
  | 0, t =>
    let e := mem t (vmmVirtToTableIndex v 1)
    if isPresent e then some (0, e) else none
  | n + 1, t =>
    let e := mem t (vmmVirtToTableIndex v (n + 2))
    if isPresent e then
      if isPagesizeLeaf e then some (n + 1, e) else translation mem v n (vmmTableEntryToPhys e)
    else none

/-- The call changes the mapping of page `i`. -/
def Changed (w : World) (call : Call) (i : Nat) : Prop :=
  translation w.machine.mem (call.page i) 3 call.root ≠
    translation (execute w call).machine.mem (call.page i) 3 call.root

/-- The other CPUs that run the address space have invalidated the changed pages when they have
drained their queues. -/
def Flushed (w : World) (call : Call) : Prop :=
  ∀ j < w.cpus.cpuCount.toNat, j ≠ w.cpus.cpuId →
    ∀ state, (execute w call).cpus.cpuStates (BitVec.ofNat 8 j) = some state →
      state.owner.pml4 = call.root → ∀ trace, ipwiIpiHandler state = some trace →
        ∀ i < call.numPages.toNat, Changed w call i →
          ∃ addr ∈ trace, addr >>> 12 = call.page i >>> 12

/-- Every CPU has its state, the queues of the others have room, and an address space belongs to
one process. -/
structure Ready (w : World) (call : Call) : Prop where
  registered : w.cpus.Registered
  room : ∀ j < w.cpus.cpuCount.toNat, j ≠ w.cpus.cpuId →
    ∀ state, w.cpus.cpuStates (BitVec.ofNat 8 j) = some state →
      state.ipwiQueue.tail ≠ state.ipwiQueue.capacity
  owners : ∀ j state, w.cpus.cpuStates j = some state → state.owner.pml4 = call.root →
    match call with
    | .mapInProcess process _ _ _ _ => state.owner = process
    | .unmapInProcess process _ _ => state.owner = process
    | _ => True

/-- When the functions for a top-level table ask for its physical address, they get it. -/
def Finds (w : World) (call : Call) : Prop :=
  match call with
  | .mapInPml4 pml4Virt _ _ _ _ =>
    vmmVirtToPhys (execute w call).machine w.cr3 pml4Virt = call.root
  | .unmapInPml4 pml4Virt _ _ =>
    vmmVirtToPhys (execute w call).machine w.cr3 pml4Virt = call.root
  | _ => True

/-- A table lies at a page-aligned physical address below `MAX_PHYS_ADDR`. -/
def IsTable (root : BitVec 64) : Prop := IsFrame root ∧ root.toNat < 127 * 2 ^ 40

/-! ## The item of a call -/

/-- The work item that a call sends. -/
def Call.item (w : World) (call : Call) : IpwiWorkItem :=
  match call with
  | .mapInProcess process virtAddr _ _ _ => shootdownItem virtAddr process.pid 0
  | .mapInPml4 pml4Virt virtAddr _ _ _ =>
    shootdownItem virtAddr 0 (vmmVirtToPhys (execute w call).machine w.cr3 pml4Virt)
  | .unmapInProcess process virtAddr _ => shootdownItem virtAddr process.pid 0
  | .unmapInPml4 pml4Virt virtAddr _ =>
    shootdownItem virtAddr 0 (vmmVirtToPhys (execute w call).machine w.cr3 pml4Virt)

section Items

variable {w : World} {call : Call}

/-- A table has an address in the direct map. -/
theorem IsTable.mapped {root : BitVec 64} (h : IsTable root) : vmmPhysToVirt root ≠ 0 := by
  intro hzero
  have hnat := congrArg BitVec.toNat hzero
  have hlt := h.2
  rw [vmmPhysToVirt, BitVec.toNat_add, directMapBase] at hnat
  simp only [BitVec.ofNat_eq_ofNat, BitVec.toNat_ofNat, Nat.reducePow, Nat.reduceMod] at hnat
  omega

/-- What a call does to the tables. -/
def Call.change (call : Call) (m : Machine) : Machine :=
  match call with
  | .mapInProcess _ virtAddr physAddr flags numPages =>
    (vmmMapPagesContainingIn m call.root virtAddr physAddr (flags.setWidth 16) numPages).2
  | .mapInPml4 _ virtAddr physAddr flags numPages =>
    (vmmMapPagesContainingIn m call.root virtAddr physAddr (flags.setWidth 16) numPages).2
  | .unmapInProcess _ virtAddr numPages => (vmmUnmapPagesIn m call.root virtAddr numPages).2
  | .unmapInPml4 _ virtAddr numPages => (vmmUnmapPagesIn m call.root virtAddr numPages).2

theorem execute_eq (h : IsTable call.root) :
    (execute w call).machine = call.change w.machine ∧
      (execute w call).cpus = (ipwiEnqueueAllExceptCurrent w.cpus (call.item w)).2 := by
  cases call with
  | mapInProcess process virtAddr physAddr flags numPages =>
    have hmapped : vmmPhysToVirt process.pml4 ≠ 0 := h.mapped
    simp only [execute, vmmShootdownMapPagesContainingInProcess, shootdownInProcess,
      if_neg hmapped, Call.item]
    exact ⟨rfl, trivial⟩
  | mapInPml4 pml4Virt virtAddr physAddr flags numPages => exact ⟨rfl, rfl⟩
  | unmapInProcess process virtAddr numPages =>
    have hmapped : vmmPhysToVirt process.pml4 ≠ 0 := h.mapped
    simp only [execute, vmmShootdownUnmapPagesInProcess, shootdownInProcess, if_neg hmapped,
      Call.item]
    exact ⟨rfl, trivial⟩
  | unmapInPml4 pml4Virt virtAddr numPages => exact ⟨rfl, rfl⟩

theorem item_eq (w : World) (call : Call) :
    ∃ targetPid targetPml4, call.item w = shootdownItem call.virtAddr targetPid targetPml4 := by
  cases call <;> exact ⟨_, _, rfl⟩

/-- The item of a call is for the CPUs that run the address space. -/
theorem item_targets (ready : Ready w call) (finds : Finds w call) {j : BitVec 8}
    {state : PerCpuState} (hstate : w.cpus.cpuStates j = some state)
    (running : state.owner.pml4 = call.root) :
    (call.item w).payload.targetPid = state.owner.pid ∨
      (call.item w).payload.targetPml4 = state.owner.pml4 := by
  have howner := ready.owners j state hstate running
  cases call with
  | mapInProcess process virtAddr physAddr flags numPages =>
    exact Or.inl (congrArg Process.pid howner.symm)
  | mapInPml4 pml4Virt virtAddr physAddr flags numPages =>
    exact Or.inr (Eq.trans finds running.symm)
  | unmapInProcess process virtAddr numPages =>
    exact Or.inl (congrArg Process.pid howner.symm)
  | unmapInPml4 pml4Virt virtAddr numPages => exact Or.inr (Eq.trans finds running.symm)

/-- One page at most is invalidated, and the last page of all never is. -/
theorem handleShootdown_item (owner : Process) (virtAddr targetPid targetPml4 : BitVec 64) :
    handleShootdown owner (shootdownItem virtAddr targetPid targetPml4).payload =
      if (targetPid = owner.pid ∨ targetPml4 = owner.pml4) ∧ virtAddr.toNat + 0x1000 < 2 ^ 64 then
        [virtAddr]
      else [] := by
  have hless : virtAddr < virtAddr + 1 * 0x1000 ↔ virtAddr.toNat + 0x1000 < 2 ^ 64 := by
    have hone : (1 : BitVec 64) * 0x1000 = 0x1000 := by decide
    rw [hone, BitVec.lt_def, BitVec.toNat_add]
    simp only [BitVec.ofNat_eq_ofNat, BitVec.toNat_ofNat, Nat.reducePow, Nat.reduceMod]
    omega
  have hturns : (1 : BitVec 64).toNat = 1 := by decide
  rw [handleShootdown, shootdownItem]
  simp only [hturns, invalidateLoop, hless]
  by_cases htargets : targetPid = owner.pid ∨ targetPml4 = owner.pml4
  · simp only [htargets, true_and, if_true]
  · simp only [htargets, false_and, if_false]

/-- The state of another CPU after the call. -/
theorem other_state (h : IsTable call.root) (ready : Ready w call) {j : Nat}
    (hj : j < w.cpus.cpuCount.toNat) (other : j ≠ w.cpus.cpuId) {state : PerCpuState}
    (hstate : w.cpus.cpuStates (BitVec.ofNat 8 j) = some state) :
    ∃ state', (execute w call).cpus.cpuStates (BitVec.ofNat 8 j) = some state' ∧
      state'.owner = state.owner ∧ ipwiIpiHandler state' = (ipwiIpiHandler state).map
        (· ++ handleShootdown state.owner (call.item w).payload) := by
  have hroom := ready.room j hj other state hstate
  obtain ⟨targetPid, targetPml4, hitem⟩ := item_eq w call
  have hcontents := @contents_insertTail _ state.ipwiQueue (call.item w)
    (w.cpus.blocks (BitVec.ofNat 8 j)) hroom
  refine ⟨state.queued (call.item w) (w.cpus.blocks (BitVec.ofNat 8 j)), ?_, rfl, ?_⟩
  · rw [(execute_eq h).2]
    exact enqueueAll_states ready.registered hj other hstate
  · rw [ipwiIpiHandler_eq, ipwiIpiHandler_eq, PerCpuState.queued, hcontents, handled_append]
    rw [hitem]
    rfl

/-- One page that is not the last of all is flushed wherever its address space runs. -/
theorem flushed_of_one_page (h : IsTable call.root) (ready : Ready w call) (finds : Finds w call)
    (one : call.numPages = 1) (below : call.virtAddr.toNat + 0x1000 < 2 ^ 64) : Flushed w call := by
  intro j hj other state' hstate' running trace htrace i hi _
  obtain ⟨state, hstate⟩ := ready.registered j hj
  obtain ⟨_, heq, howner, hhandled⟩ := other_state h ready hj other hstate
  obtain rfl := Option.some.inj (heq.symm.trans hstate')
  rw [howner] at running
  obtain ⟨targetPid, targetPml4, hitem⟩ := item_eq w call
  have htargets := item_targets ready finds hstate running
  rw [hitem] at htargets hhandled
  rw [handleShootdown_item, if_pos ⟨htargets, below⟩, htrace] at hhandled
  obtain ⟨earlier, _, rfl⟩ := Option.map_eq_some_iff.mp hhandled.symm
  have hfirst : i = 0 := by
    have hone : (1 : BitVec 64).toNat = 1 := by decide
    rw [one, hone] at hi
    omega
  refine ⟨call.virtAddr, by simp, ?_⟩
  rw [hfirst, Call.page]
  simp

/-- A table that is not found under its address: no CPU with a process invalidates anything for
the call. -/
theorem ignored_of_not_found (h : IsTable call.root) (ready : Ready w call)
    (lost : ¬ Finds w call) {j : Nat} (hj : j < w.cpus.cpuCount.toNat) (other : j ≠ w.cpus.cpuId)
    {state : PerCpuState} (hstate : w.cpus.cpuStates (BitVec.ofNat 8 j) = some state)
    (running : state.owner.pml4 = call.root) (process : state.owner.pid ≠ 0) :
    ∃ state', (execute w call).cpus.cpuStates (BitVec.ofNat 8 j) = some state' ∧
      ipwiIpiHandler state' = ipwiIpiHandler state := by
  obtain ⟨state', heq, _, hhandled⟩ := other_state h ready hj other hstate
  refine ⟨state', heq, ?_⟩
  have hnothing : handleShootdown state.owner (call.item w).payload = [] := by
    cases call with
    | mapInProcess process virtAddr physAddr flags numPages => exact absurd trivial lost
    | mapInPml4 pml4Virt virtAddr physAddr flags numPages =>
      rw [Call.item, handleShootdown_item, if_neg]
      rintro ⟨hpid | hpml4, _⟩
      · exact process hpid.symm
      · exact lost (hpml4.trans running)
    | unmapInProcess process virtAddr numPages => exact absurd trivial lost
    | unmapInPml4 pml4Virt virtAddr numPages =>
      rw [Call.item, handleShootdown_item, if_neg]
      rintro ⟨hpid | hpml4, _⟩
      · exact process hpid.symm
      · exact lost (hpml4.trans running)
  rw [hhandled, hnothing]
  cases ipwiIpiHandler state <;> simp

end Items

/-! ## Changes of one tree of tables -/

/-- Every entry of the tables `3`, `2` and `1` leads to the table of the next level. -/
structure Chain (tables : Nat → BitVec 64) (mem : BitVec 64 → Fin 512 → BitVec 64) : Prop where
  apart : ∀ j ≤ 3, ∀ k ≤ 3, tables j = tables k → j = k
  links : ∀ n < 3, ∀ i, down (mem (tables (n + 1)) i) = some (tables n)

/-- A change that leaves the pages of `pages` present exactly if `present` is true, and other
pages and tables as they were. -/
structure Sets (tables : Nat → BitVec 64) (present : Bool) (pages : BitVec 64 → Prop)
    (mem mem' : BitVec 64 → Fin 512 → BitVec 64) : Prop where
  chain : Chain tables mem'
  sets : ∀ v, pages v → isPresent (mem' (tables 0) (vmmVirtToPtIndex v)) = present
  keeps : ∀ i, isPresent (mem (tables 0) i) = present → isPresent (mem' (tables 0) i) = present
  others : ∀ t, (∀ k ≤ 3, t ≠ tables k) → mem' t = mem t

section Chains

variable {tables : Nat → BitVec 64} {m : Machine}
  {mem mem' mem'' : BitVec 64 → Fin 512 → BitVec 64} {v page entry : BitVec 64}
  {flags : BitVec 16} {n i turns : Nat} {present : Bool} {P Q : BitVec 64 → Prop}

theorem Sets.refl (chain : Chain tables mem) : Sets tables present (fun _ => False) mem mem :=
  ⟨chain, fun _ h => h.elim, fun _ h => h, fun _ _ => rfl⟩

theorem Sets.trans (h : Sets tables present P mem mem') (h' : Sets tables present Q mem' mem'') :
    Sets tables present (fun v => P v ∨ Q v) mem mem'' := by
  constructor
  · exact h'.chain
  · rintro v (hv | hv)
    · exact h'.keeps _ (h.sets v hv)
    · exact h'.sets v hv
  · exact fun i hi => h'.keeps i (h.keeps i hi)
  · exact fun t ht => (h'.others t ht).trans (h.others t ht)

theorem Sets.mono (h : Sets tables present P mem mem') (fewer : ∀ v, Q v → P v) :
    Sets tables present Q mem mem' :=
  ⟨h.chain, fun v hv => h.sets v (fewer v hv), h.keeps, h.others⟩

theorem Chain.ne_leaf (chain : Chain tables mem) (hn : n < 3) : tables (n + 1) ≠ tables 0 := by
  intro heq
  exact absurd (chain.apart (n + 1) hn 0 (by omega) heq) (by omega)

/-- Writing the page table. -/
theorem Chain.sets_leaf (chain : Chain tables mem) (hentry : isPresent entry = present) :
    Sets tables present (fun u => u = v) mem
      (setEntry mem (tables 0) (vmmVirtToPtIndex v) entry) := by
  constructor
  · constructor
    · exact chain.apart
    · intro n hn j
      rw [setEntry_table _ _ (chain.ne_leaf hn)]
      exact chain.links n hn j
  · rintro _ rfl
    rw [setEntry_self, hentry]
  · intro i hi
    by_cases hsame : i = vmmVirtToPtIndex v
    · rw [hsame, setEntry_self, hentry]
    · rw [setEntry_index entry hsame, hi]
  · intro t ht
    exact setEntry_table _ _ (ht 0 (by omega))

/-- An entry of a higher table that gets other flags. -/
theorem Chain.reflag (chain : Chain tables mem) (hn : n < 3) {i : Fin 512}
    (hentry : down entry = some (tables n)) : Chain tables (setEntry mem (tables (n + 1)) i entry) := by
  constructor
  · exact chain.apart
  · intro k hk j
    by_cases htable : tables (k + 1) = tables (n + 1)
    · obtain rfl : k = n := Nat.succ.inj (chain.apart (k + 1) hk (n + 1) hn htable)
      by_cases hj : j = i
      · rw [hj, setEntry_self, hentry]
      · rw [setEntry_index entry hj]
        exact chain.links k hk j
    · rw [setEntry_table _ _ htable]
      exact chain.links k hk j

/-- The tables are all there, so only flags of their entries change on the way down. -/
theorem Chain.ensureTablesLoop (chain : Chain tables m.mem) (hn : n ≤ 3) :
    ∃ mem', ensureTablesLoop v flags n (tables n) m = (some (tables 0), { m with mem := mem' }) ∧
      Chain tables mem' ∧ mem' (tables 0) = m.mem (tables 0) ∧
      ∀ t, (∀ k ≤ 3, t ≠ tables k) → mem' t = m.mem t := by
  induction n generalizing m with
  | zero => exact ⟨m.mem, rfl, chain, rfl, fun _ _ => rfl⟩
  | succ n ih =>
    have hlink := chain.links n hn (vmmVirtToTableIndex v (n + 2))
    obtain ⟨hpresent, hsmall, hphys⟩ := down_eq_some.mp hlink
    have hentry : m.mem (tables (n + 1)) (vmmVirtToTableIndex v (n + 2)) &&& pgPresent ≠ 0 := by
      simpa [isPresent] using hpresent
    have hnotleaf : ¬ (n + 1 > 1 ∧
        isPagesizeLeaf (m.mem (tables (n + 1)) (vmmVirtToTableIndex v (n + 2)))) :=
      fun h => hsmall h.2
    have hchain : Chain tables (setEntry m.mem (tables (n + 1)) (vmmVirtToTableIndex v (n + 2))
        (vmmPhysAndFlagsToTableEntry (tables n)
          (vmmTableEntryToPageFlags (m.mem (tables (n + 1)) (vmmVirtToTableIndex v (n + 2))) |||
            parentFlags flags))) := by
      exact chain.reflag hn (down_reflag hlink flags)
    obtain ⟨mem', hloop, hchain', hleaf, hothers⟩ := @ih { m with mem := _ } hchain (by omega)
    refine ⟨mem', ?_, hchain', ?_, ?_⟩
    · rw [VmMapper.ensureTablesLoop]
      simp only [if_neg hentry, if_neg hnotleaf, hphys]
      exact hloop
    · rw [hleaf]
      exact setEntry_table _ _ (chain.ne_leaf hn).symm
    · intro t ht
      rw [hothers t ht]
      exact setEntry_table _ _ (ht (n + 1) hn)

theorem map_sets (chain : Chain tables m.mem) :
    ∃ m', vmmMapPageIn m (tables 3) v page flags = (true, m') ∧
      Sets tables (isPresent (flags.zeroExtend 64)) (fun u => u = v) m.mem m'.mem := by
  obtain ⟨mem', hloop, hchain, hleaf, hothers⟩ := @Chain.ensureTablesLoop tables m
    (v &&& 0xfffffffffffff000) flags 3 chain (Nat.le_refl 3)
  have htables : ensureTables m (tables 3) (v &&& 0xfffffffffffff000) 1 flags =
      (some (tables 0), { m with mem := mem' }) := hloop
  have hset := @Chain.sets_leaf tables mem' v _ _ hchain
    (isPresent_entry page (flags.zeroExtend 64))
  let entry := vmmPhysAndFlagsToTableEntry page (flags.zeroExtend 64)
  refine ⟨{ m with mem := setEntry mem' (tables 0) (vmmVirtToPtIndex v) entry }, ?_, hset.chain,
    hset.sets, ?_, ?_⟩
  · rw [vmmMapPageIn, htables]
  · intro i hi
    rw [← hleaf] at hi
    exact hset.keeps i hi
  · intro t ht
    rw [← hothers t ht]
    exact hset.others t ht

theorem unmap_sets (chain : Chain tables m.mem) :
    Sets tables false (fun u => u = v) m.mem (vmmUnmapPageIn m (tables 3) v).2.mem := by
  obtain ⟨hpresent4, hsmall4, hphys4⟩ :=
    down_eq_some.mp (chain.links 2 (by decide) (vmmVirtToPml4Index v))
  obtain ⟨hpresent3, hsmall3, hphys3⟩ :=
    down_eq_some.mp (chain.links 1 (by decide) (vmmVirtToPdptIndex v))
  obtain ⟨hpresent2, hsmall2, hphys2⟩ :=
    down_eq_some.mp (chain.links 0 (by decide) (vmmVirtToPdIndex v))
  simp only [vmmUnmapPageIn, if_pos hpresent4, if_neg hsmall4, hphys4, if_pos hpresent3,
    if_neg hsmall3, hphys3, if_pos hpresent2, if_neg hsmall2, hphys2]
  by_cases hpresent : isPresent (m.mem (tables 0) (vmmVirtToPtIndex v))
  · simp only [if_pos hpresent]
    exact chain.sets_leaf (by decide)
  · simp only [if_neg hpresent]
    refine ⟨chain, ?_, fun _ h => h, fun _ _ => rfl⟩
    rintro _ rfl
    exact Bool.not_eq_true _ ▸ hpresent

/-- The pages that a loop passes from page `i` on. -/
def passed (virtAddr : BitVec 64) (i turns : Nat) (v : BitVec 64) : Prop :=
  ∃ j, i ≤ j ∧ j < i + turns ∧ v = virtAddr + pageOffset j

theorem passed_succ {virtAddr : BitVec 64} (h : passed virtAddr i (turns + 1) v) :
    v = virtAddr + pageOffset i ∨ passed virtAddr (i + 1) turns v := by
  obtain ⟨j, hge, hlt, rfl⟩ := h
  by_cases hfirst : j = i
  · exact Or.inl (by rw [hfirst])
  · exact Or.inr ⟨j, by omega, by omega, rfl⟩

theorem mapPagesLoop_sets {virtAddr physAddr : BitVec 64} (chain : Chain tables m.mem) :
    Sets tables (isPresent (flags.zeroExtend 64)) (passed virtAddr i turns) m.mem
      (mapPagesLoop (tables 3) virtAddr physAddr flags turns i m).2.mem := by
  induction turns generalizing i m with
  | zero =>
    apply (Sets.refl chain).mono
    rintro v ⟨j, hge, hlt, _⟩
    omega
  | succ turns ih =>
    obtain ⟨m', hmap, hsets⟩ := @map_sets tables m (virtAddr + pageOffset i)
      (physAddr + pageOffset i) flags chain
    simp only [mapPagesLoop, hmap]
    exact (hsets.trans (ih hsets.chain)).mono fun v hv => passed_succ hv

theorem unmapPagesLoop_sets {virtAddr : BitVec 64} (chain : Chain tables m.mem) :
    Sets tables false (passed virtAddr i turns) m.mem
      (unmapPagesLoop (tables 3) virtAddr turns i m).mem := by
  induction turns generalizing i m with
  | zero =>
    apply (Sets.refl chain).mono
    rintro v ⟨j, hge, hlt, _⟩
    omega
  | succ turns ih =>
    have hsets := @unmap_sets tables m (virtAddr + pageOffset i) chain
    rw [unmapPagesLoop]
    exact (hsets.trans (ih hsets.chain)).mono fun v hv => passed_succ hv

end Chains

/-- Whether the leaves that a call writes are present. -/
def Call.present : Call → Bool
  | .mapInProcess _ _ _ flags _ => isPresent ((flags.setWidth 16).zeroExtend 64)
  | .mapInPml4 _ _ _ flags _ => isPresent ((flags.setWidth 16).zeroExtend 64)
  | _ => false

theorem unmapPages_sets {tables : Nat → BitVec 64} {m : Machine} {virtAddr numPages : BitVec 64}
    (chain : Chain tables m.mem) :
    Sets tables false (passed virtAddr 0 numPages.toNat) m.mem
      (vmmUnmapPagesIn m (tables 3) virtAddr numPages).2.mem := by
  have hfirst := @unmap_sets tables m virtAddr chain
  have hrest := @unmapPagesLoop_sets tables _ 1 (numPages.toNat - 1) virtAddr hfirst.chain
  apply (hfirst.trans hrest).mono
  rintro v ⟨j, hge, hlt, rfl⟩
  by_cases hj : j = 0
  · left
    have hzero : pageOffset 0 = 0#64 := by decide
    rw [hj, hzero, BitVec.add_zero]
  · exact Or.inr ⟨j, by omega, by omega, rfl⟩

theorem change_sets {tables : Nat → BitVec 64} {m : Machine} {call : Call}
    (chain : Chain tables m.mem) (root : tables 3 = call.root) :
    Sets tables call.present (passed call.virtAddr 0 call.numPages.toNat) m.mem
      (call.change m).mem := by
  cases call with
  | mapInProcess process virtAddr physAddr flags numPages =>
    rw [Call.change, ← root]
    exact mapPagesLoop_sets chain
  | mapInPml4 pml4Virt virtAddr physAddr flags numPages =>
    rw [Call.change, ← root]
    exact mapPagesLoop_sets chain
  | unmapInProcess process virtAddr numPages =>
    rw [Call.change, ← root]
    exact unmapPages_sets chain
  | unmapInPml4 pml4Virt virtAddr numPages =>
    rw [Call.change, ← root]
    exact unmapPages_sets chain

/-- What is found through a chain is the entry of the last table. -/
theorem Chain.translation {tables : Nat → BitVec 64} {mem : BitVec 64 → Fin 512 → BitVec 64}
    {v : BitVec 64} {n : Nat} (chain : Chain tables mem) (hn : n ≤ 3) :
    translation mem v n (tables n) =
      if isPresent (mem (tables 0) (vmmVirtToPtIndex v)) then
        some (0, mem (tables 0) (vmmVirtToPtIndex v)) else none := by
  induction n with
  | zero => rfl
  | succ n ih =>
    obtain ⟨hpresent, hsmall, hphys⟩ :=
      down_eq_some.mp (chain.links n hn (vmmVirtToTableIndex v (n + 2)))
    simp only [Shootdown.translation, if_pos hpresent, if_neg hsmall, hphys]
    exact ih (by omega)

theorem Chain.leaf {tables : Nat → BitVec 64} {mem : BitVec 64 → Fin 512 → BitVec 64} {n : Nat}
    (chain : Chain tables mem) (hn : n ≤ 3) (v : BitVec 64) :
    leaf mem v n (tables n) =
      if isPresent (mem (tables 0) (vmmVirtToPtIndex v)) then
        mem (tables 0) (vmmVirtToPtIndex v) else 0 := by
  induction n with
  | zero => rfl
  | succ n ih =>
    obtain ⟨hpresent, _, hphys⟩ :=
      down_eq_some.mp (chain.links n hn (vmmVirtToTableIndex v (n + 2)))
    simp only [VmMapper.leaf, if_pos hpresent, hphys]
    exact ih (by omega)

theorem Chain.congr {tables : Nat → BitVec 64} {mem mem' : BitVec 64 → Fin 512 → BitVec 64}
    (chain : Chain tables mem) (same : ∀ n ≤ 3, mem' (tables n) = mem (tables n)) :
    Chain tables mem' := by
  constructor
  · exact chain.apart
  · intro n hn i
    rw [same (n + 1) hn]
    exact chain.links n hn i

/-! ## Tables that are never flushed -/

/-- Page `k` behind a table, where no two of the first eight are the same. -/
def frame (root : BitVec 64) (k : Nat) : BitVec 64 := root ^^^ BitVec.ofNat 64 (k * 0x1000)

/-- The entry that leads to a table. -/
def tableEntry (table : BitVec 64) : BitVec 64 :=
  vmmPhysAndFlagsToTableEntry table (pgPresent ||| parentFlags 0)

/-- Frames `0` to `3` are the tables of an address space, whose pages all have `entry`; frames `4`
to `7` are those of another, whose pages all lead to frame `0`. -/
def staleTables (root entry : BitVec 64) (t : BitVec 64) (_ : Fin 512) : BitVec 64 :=
  if t = frame root 3 then entry
  else if t = frame root 7 then tableEntry root
  else tableEntry (root ^^^ ((t ^^^ root) + 0x1000))

/-- CPU 0 of two makes a call for the address space that CPU 1 runs. -/
def stale (call : Call) : World where
  machine := {
    mem := staleTables call.root (if call.present then 0 else pgPresent)
    region := emptyTables.region }
  cr3 := frame call.root 4
  cpus := {
    cpuCount := 2
    cpuStates := fun _ => some {
      ipwiQueue := {
        data := fun _ => shootdownItem 0 0 0
        head := 8
        tail := 8
        capacity := 16
        ordered := Nat.le_refl 8 }
      owner :=
        match call with
        | .mapInProcess process _ _ _ _ => process
        | .unmapInProcess process _ _ => process
        | _ => ⟨1, call.root⟩ }
    cpuId := 0
    blocks := fun _ => none }

section Stale

variable {root entry : BitVec 64} {call : Call} {j k : Nat}

theorem xor_and (a b mask : BitVec 64) : (a ^^^ b) &&& mask = (a &&& mask) ^^^ (b &&& mask) := by
  apply BitVec.eq_of_getLsbD_eq
  intro i _
  simp only [BitVec.getLsbD_and, BitVec.getLsbD_xor, Bool.and_xor_distrib_right]

theorem frame_inj (hj : j < 8) (hk : k < 8) (h : frame root j = frame root k) : j = k := by
  rw [frame, frame, BitVec.xor_right_inj] at h
  have hnat := congrArg BitVec.toNat h
  rw [BitVec.toNat_ofNat, BitVec.toNat_ofNat] at hnat
  omega

theorem frame_isFrame (h : IsFrame root) (hk : k < 8) : IsFrame (frame root k) := by
  have hoffset : ∀ k < 8, BitVec.ofNat 64 (k * 0x1000) &&& 0x0000fffffffff000 =
      BitVec.ofNat 64 (k * 0x1000) := by
    decide
  rw [IsFrame, vmmTableEntryToPhys, frame, xor_and, hoffset k hk]
  exact congrArg (· ^^^ _) h

theorem staleTables_next (h : IsFrame root) (hk : k < 7) (hk3 : k ≠ 3) (i : Fin 512) :
    down (staleTables root entry (frame root k) i) = some (frame root (k + 1)) := by
  have hne3 : frame root k ≠ frame root 3 := fun heq => hk3 (frame_inj (by omega) (by omega) heq)
  have hne7 : frame root k ≠ frame root 7 := by
    intro heq
    have hk7 := frame_inj (by omega) (by omega) heq
    omega
  have hnext : root ^^^ ((frame root k ^^^ root) + 0x1000) = frame root (k + 1) := by
    have hcancel : frame root k ^^^ root = BitVec.ofNat 64 (k * 0x1000) := by
      rw [frame, BitVec.xor_comm, ← BitVec.xor_assoc, BitVec.xor_self, BitVec.zero_xor]
    rw [hcancel, frame, Nat.add_mul, BitVec.ofNat_add]
    rfl
  rw [staleTables, if_neg hne3, if_neg hne7, hnext]
  exact down_newEntry (frame_isFrame h (by omega)) 0

/-- The frames from `0` and from `4` on are chains of tables. -/
theorem staleTables_chain (h : IsFrame root) (hk : k = 3 ∨ k = 7) :
    Chain (fun n => frame root (k - n)) (staleTables root entry) := by
  constructor
  · intro j hj l hl heq
    have hsame := frame_inj (by omega) (by omega) heq
    omega
  · intro n hn i
    have hnext := @staleTables_next root entry (k - (n + 1)) h (by omega) (by omega) i
    have hbelow : k - (n + 1) + 1 = k - n := by omega
    rwa [hbelow] at hnext

theorem frame_zero : frame root 0 = root := by
  simp [frame]

theorem isPresent_tableEntry : isPresent (tableEntry root) := by
  rw [tableEntry, isPresent_entry]
  decide

theorem phys_tableEntry (h : IsFrame root) : vmmTableEntryToPhys (tableEntry root) = root :=
  (down_eq_some.mp (down_newEntry h 0)).2.2

theorem stale_ready : Ready (stale call) call := by
  constructor
  · exact fun j _ => ⟨_, rfl⟩
  · intro j _ _ state hstate
    obtain rfl := Option.some.inj hstate
    exact (by decide : (8 : Nat) ≠ 16)
  · intro j state hstate _
    obtain rfl := Option.some.inj hstate
    cases call <;> trivial

theorem stale_state (call : Call) :
    ∃ state, (stale call).cpus.cpuStates (BitVec.ofNat 8 1) = some state ∧
      ipwiIpiHandler state = some [] ∧ state.owner.pml4 = call.root := by
  refine ⟨_, rfl, ipwiIpiHandler_empty _ (Nat.lt_irrefl 8), ?_⟩
  cases call <;> rfl

/-- The tables behind the call. -/
theorem stale_sets (h : IsTable call.root) :
    Sets (fun n => frame call.root (3 - n)) call.present
      (passed call.virtAddr 0 call.numPages.toNat) (stale call).machine.mem
      (execute (stale call) call).machine.mem := by
  rw [(execute_eq h).1]
  exact change_sets (staleTables_chain h.1 (Or.inl rfl)) frame_zero

/-- The other address space is as it was. -/
theorem stale_other (h : IsTable call.root) (v : BitVec 64) :
    vmmVirtToPtEntry (execute (stale call) call).machine (frame call.root 4) v =
      tableEntry call.root := by
  have hsame : ∀ n ≤ 3, (execute (stale call) call).machine.mem (frame call.root (7 - n)) =
      (stale call).machine.mem (frame call.root (7 - n)) := by
    intro n hn
    apply (stale_sets h).others
    intro l hl heq
    have hframe := frame_inj (by omega) (by omega) heq
    omega
  have hchain := (@staleTables_chain call.root _ 7 h.1 (Or.inr rfl)).congr hsame
  have hleaf := hchain.leaf (Nat.le_refl 3) v
  have hentry : (execute (stale call) call).machine.mem (frame call.root (7 - 0))
      (vmmVirtToPtIndex v) = tableEntry call.root := by
    have hne : frame call.root 7 ≠ frame call.root 3 :=
      fun heq => absurd (frame_inj (by decide) (by decide) heq) (by decide)
    rw [hsame 0 (by decide)]
    exact (if_neg hne).trans (if_pos rfl)
  rw [vmmVirtToPtEntry_eq_leaf]
  simp only [hentry, if_pos isPresent_tableEntry] at hleaf
  exact hleaf

/-- The direct map keeps the alignment of a table. -/
theorem direct_aligned {pml4Virt : BitVec 64} (h : IsFrame (pml4Virt - directMapBase)) :
    pml4Virt &&& 0xfff = 0 := by
  have hmask : (0xfff : BitVec 64).toNat = 2 ^ 12 - 1 := by decide
  have haligned := (Masks.and_low_eq_zero_iff hmask).mp h.aligned
  rw [Masks.and_low_eq_zero_iff hmask]
  rw [BitVec.toNat_sub, directMapBase] at haligned
  simp only [BitVec.ofNat_eq_ofNat, BitVec.toNat_ofNat, Nat.reducePow, Nat.reduceMod] at haligned
  omega

theorem stale_phys (h : IsTable call.root) {pml4Virt : BitVec 64}
    (hvirt : pml4Virt - directMapBase = call.root) :
    vmmVirtToPhys (execute (stale call) call).machine (stale call).cr3 pml4Virt = call.root := by
  have hlow := direct_aligned (hvirt ▸ h.1)
  rw [vmmVirtToPhys]
  have hentry := stale_other h pml4Virt
  simp only [stale] at hentry ⊢
  rw [hentry, hlow, phys_tableEntry h.1]
  simp

theorem stale_finds (h : IsTable call.root) : Finds (stale call) call := by
  cases call with
  | mapInProcess process virtAddr physAddr flags numPages => trivial
  | mapInPml4 pml4Virt virtAddr physAddr flags numPages => exact stale_phys h rfl
  | unmapInProcess process virtAddr numPages => trivial
  | unmapInPml4 pml4Virt virtAddr numPages => exact stale_phys h rfl

/-- The first two pages of the range are changed. -/
theorem stale_changed (h : IsTable call.root) (hj : j ≤ 1) (inside : j < call.numPages.toNat) :
    Changed (stale call) call j := by
  have hsets := stale_sets h
  have hoffset : ∀ j ≤ 1, BitVec.ofNat 64 j <<< 12 = pageOffset j := by decide
  have hafter := hsets.sets (call.page j)
    ⟨j, Nat.zero_le j, by omega, by rw [Call.page, hoffset j hj]⟩
  have hbefore := (@staleTables_chain call.root (if call.present then 0 else pgPresent) 3 h.1
    (Or.inl rfl)).translation (v := call.page j) (Nat.le_refl 3)
  have hthen := hsets.chain.translation (v := call.page j) (Nat.le_refl 3)
  have hentry : ∀ e i, staleTables call.root e (frame call.root 3) i = e := fun e i => if_pos rfl
  simp only [Nat.sub_self, Nat.sub_zero, frame_zero, hafter, hentry] at hbefore hthen
  intro hsame
  have heq := hbefore.symm.trans (hsame.trans hthen)
  cases hpresent : call.present with
  | false =>
    have hpage : isPresent pgPresent := by decide
    simp [hpresent, hpage] at heq
  | true =>
    have hzero : ¬ isPresent 0#64 := by decide
    simp [hpresent, hzero] at heq

theorem next_page_ne (h : call.virtAddr >>> 12 = call.page 1 >>> 12) : False := by
  have hnat := congrArg BitVec.toNat h
  have hlt := call.virtAddr.isLt
  have hoffset : BitVec.ofNat 64 1 <<< 12 = 0x1000#64 := by decide
  rw [Call.page, hoffset, BitVec.toNat_ushiftRight, BitVec.toNat_ushiftRight, BitVec.toNat_add,
    Nat.shiftRight_eq_div_pow, Nat.shiftRight_eq_div_pow, BitVec.toNat_ofNat] at hnat
  omega

/-- Neither is another page than the first ever invalidated, nor the last page of all. -/
theorem stale_not_flushed (h : IsTable call.root) (some_page : call.numPages ≠ 0)
    (many : ¬ (call.numPages = 1 ∧ call.virtAddr.toNat + 0x1000 < 2 ^ 64)) :
    ¬ Flushed (stale call) call := by
  intro hflushed
  have htwo : (2 : BitVec 8).toNat = 2 := by decide
  have hother : 1 < (stale call).cpus.cpuCount.toNat := htwo ▸ Nat.one_lt_two
  obtain ⟨state, hstate, hempty, hrunning⟩ := stale_state call
  obtain ⟨state', heq, howner, hhandled⟩ :=
    other_state h stale_ready hother Nat.one_ne_zero hstate
  obtain ⟨targetPid, targetPml4, hitem⟩ := item_eq (stale call) call
  rw [hitem, handleShootdown_item, hempty, Option.map_some, List.nil_append] at hhandled
  rw [← howner] at hrunning
  have hnonzero : call.numPages.toNat ≠ 0 := fun hzero => some_page (BitVec.eq_of_toNat_eq hzero)
  by_cases hone : call.numPages = 1
  · obtain ⟨addr, haddr, _⟩ := hflushed 1 hother Nat.one_ne_zero state' heq hrunning _ hhandled 0
      (by omega) (stale_changed h (by omega) (by omega))
    split_ifs at haddr with hbelow
    · exact many ⟨hone, hbelow.2⟩
    · exact absurd haddr (by simp)
  · have hsecond : 1 < call.numPages.toNat := by
      have hnat : call.numPages.toNat ≠ 1 := fun heq => hone (BitVec.eq_of_toNat_eq heq)
      omega
    obtain ⟨addr, haddr, hpage⟩ := hflushed 1 hother Nat.one_ne_zero state' heq hrunning _ hhandled
      1 hsecond (stale_changed h (by omega) hsecond)
    split_ifs at haddr with hbelow
    · rw [List.mem_singleton.mp haddr] at hpage
      exact next_page_ne hpage
    · exact absurd haddr (by simp)

end Stale

/-- Exactly a change of one page, not the last of all, is flushed in every state; for a table that
is not found under its address, no CPU that runs a process does anything. -/
theorem shootdown_reaches_iff (call : Call) (table : IsTable call.root)
    (some_page : call.numPages ≠ 0) :
    ((∀ w, Ready w call → Finds w call → Flushed w call) ↔
      call.numPages = 1 ∧ call.virtAddr.toNat + 0x1000 < 2 ^ 64) ∧
    ∀ w, Ready w call → ¬ Finds w call →
      ∀ j < w.cpus.cpuCount.toNat, j ≠ w.cpus.cpuId →
        ∀ state, w.cpus.cpuStates (BitVec.ofNat 8 j) = some state →
          state.owner.pml4 = call.root → state.owner.pid ≠ 0 →
            ∃ state', (execute w call).cpus.cpuStates (BitVec.ofNat 8 j) = some state' ∧
              ipwiIpiHandler state' = ipwiIpiHandler state := by
  constructor
  · constructor
    · intro hall
      by_contra hmany
      exact stale_not_flushed table some_page hmany (hall _ stale_ready (stale_finds table))
    · rintro ⟨hone, hbelow⟩ w hready hfinds
      exact flushed_of_one_page table hready hfinds hone hbelow
  · intro w hready hlost j hj other state hstate running process
    exact ignored_of_not_found table hready hlost hj other hstate running process

theorem isTable_low : IsTable 0x10000 :=
  ⟨(by decide : vmmTableEntryToPhys 0x10000 = 0x10000), by decide⟩

theorem shootdown_reaches_iff_one :
    IsTable 0x10000 ∧
      Ready (stale (.unmapInProcess ⟨42, 0x10000⟩ 0x400000 1))
        (.unmapInProcess ⟨42, 0x10000⟩ 0x400000 1) ∧
      Flushed (stale (.unmapInProcess ⟨42, 0x10000⟩ 0x400000 1))
        (.unmapInProcess ⟨42, 0x10000⟩ 0x400000 1) := by
  have h := (shootdown_reaches_iff (.unmapInProcess ⟨42, 0x10000⟩ 0x400000 1)
    isTable_low (by decide)).1
  refine ⟨isTable_low, stale_ready, ?_⟩
  exact h.mpr ⟨rfl, by decide⟩ _ stale_ready trivial

/-- Two pages are unmapped, and the second stays in the TLB of CPU 1. -/
theorem second_page_not_flushed :
    Ready (stale (.unmapInProcess ⟨42, 0x10000⟩ 0x400000 2))
        (.unmapInProcess ⟨42, 0x10000⟩ 0x400000 2) ∧
      ¬ Flushed (stale (.unmapInProcess ⟨42, 0x10000⟩ 0x400000 2))
        (.unmapInProcess ⟨42, 0x10000⟩ 0x400000 2) := by
  constructor
  · exact stale_ready
  · apply stale_not_flushed
    · exact isTable_low
    · decide
    · exact fun h => absurd h.1 (by decide)

end Shootdown
