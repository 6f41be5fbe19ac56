import AnosKernel.LargePages
import AnosKernel.MapRollback
import AnosKernel.VmallocRuns

/-!
# The locks of the address spaces

`vmm_free_block` of `kernel/vmm/vmalloc_linkedlist.c`, and `vmm_map_pages_containing_in` and
`vmm_unmap_pages_in` of `kernel/arch/x86_64/vmm/vmmapper.c` and
`kernel/arch/riscv64/vmm/vmmapper.c`, with the lock that each of them takes. The counter of the
loops is a 32-bit int; it wraps around and is extended with its sign where it meets a 64-bit value.
-/

namespace SpaceLocks

open Chains LargePages PageAlloc
open VmMapper hiding ensureTablesLoop

/-- The tables, and the lock of the file. -/
structure Mapper where
  machine : Machine
  vmmMapLock : Bool

/-- `spinlock_lock_irqsave`, which spins forever on a lock that is held. -/
def spinlockLock (s : Mapper) : Option Mapper :=
  if s.vmmMapLock then none else some { s with vmmMapLock := true }

def spinlockUnlock (s : Mapper) : Mapper := { s with vmmMapLock := false }

/-- `addr + (i << VM_PAGE_LINEAR_SHIFT)`, where the shift is one of an int. -/
def pageAt (addr : BitVec 64) (i : BitVec 32) : BitVec 64 :=
  addr + (i <<< vmPageLinearShift).signExtend 64

/-! ## Mapping and unmapping pages -/

section Pages

variable (mapPage : Machine → BitVec 64 → BitVec 64 → Bool × Machine)
  (unmapPage : Machine → BitVec 64 → BitVec 64 × Machine)

/-- The loop of `vmm_map_pages_containing_in` from the page `i` on, with the answer of
`nolock_vmm_map_page_containing_in` for each page; `none` when the fuel does not suffice. -/
def mapPagesLoop (virtAddr physAddr numPages : BitVec 64) :
    Nat → BitVec 32 → Machine → Option (Bool × Machine)
  | 0, _, _ => none
  | fuel + 1, i, m =>
    if i.signExtend 64 < numPages then
      match mapPage m (pageAt virtAddr i) (pageAt physAddr i) with
      | (false, m) => some (false, m)
      | (true, m) => mapPagesLoop virtAddr physAddr numPages fuel (i + 1) m
    else some (true, m)

/-- A page that fails is answered at once, with the lock held. -/
def mapPages (fuel : Nat) (s : Mapper) (virtAddr physAddr numPages : BitVec 64) :
    Option (Bool × Mapper) :=
  (spinlockLock s).bind fun s =>
    (mapPagesLoop mapPage virtAddr physAddr numPages fuel 0 s.machine).map fun
      | (false, m) => (false, { s with machine := m })
      | (true, m) => (true, spinlockUnlock { s with machine := m })

def unmapPagesLoop (virtAddr numPages : BitVec 64) : Nat → BitVec 32 → Machine → Option Machine
  | 0, _, _ => none
  | fuel + 1, i, m =>
    if i.signExtend 64 < numPages then
      unmapPagesLoop virtAddr numPages fuel (i + 1) (unmapPage m (pageAt virtAddr i)).2
    else some m

/-- The first page is unmapped before the loop, and its frame is the answer. -/
def unmapPages (fuel : Nat) (s : Mapper) (virtAddr numPages : BitVec 64) :
    Option (BitVec 64 × Mapper) :=
  (spinlockLock s).bind fun s =>
    let (result, m) := unmapPage s.machine virtAddr
    (unmapPagesLoop unmapPage virtAddr numPages fuel 1 m).map fun m =>
      (result, spinlockUnlock { s with machine := m })

end Pages

/-- `nolock_vmm_unmap_page_in`, which differs in the two files in how an entry is read. -/
def nolockVmmUnmapPageIn (enc : Encoding) (pml4 : BitVec 64) (m : Machine) (virtAddr : BitVec 64) :
    BitVec 64 × Machine :=
  let pml4e := m.mem pml4 (vmmVirtToPml4Index virtAddr)
  if isPresent pml4e then
    if enc.isLeaf pml4e then
      (enc.tableEntryToPhys pml4e,
        { m with mem := setEntry m.mem pml4 (vmmVirtToPml4Index virtAddr) 0 })
    else
      let pdpt := enc.tableEntryToPhys pml4e
      let pdpte := m.mem pdpt (vmmVirtToPdptIndex virtAddr)
      if isPresent pdpte then
        if enc.isLeaf pdpte then
          (enc.tableEntryToPhys pdpte,
            { m with mem := setEntry m.mem pdpt (vmmVirtToPdptIndex virtAddr) 0 })
        else
          let pd := enc.tableEntryToPhys pdpte
          let pde := m.mem pd (vmmVirtToPdIndex virtAddr)
          if isPresent pde then
            if enc.isLeaf pde then
              (enc.tableEntryToPhys pde,
                { m with mem := setEntry m.mem pd (vmmVirtToPdIndex virtAddr) 0 })
            else
              let pt := enc.tableEntryToPhys pde
              let pte := m.mem pt (vmmVirtToPtIndex virtAddr)
              if isPresent pte then
                (enc.tableEntryToPhys pte,
                  { m with mem := setEntry m.mem pt (vmmVirtToPtIndex virtAddr) 0 })
              else (0, m)
          else (0, m)
      else (0, m)
  else (0, m)

theorem nolockVmmUnmapPageIn_x8664 (pml4 : BitVec 64) (m : Machine) (virtAddr : BitVec 64) :
    nolockVmmUnmapPageIn x8664 pml4 m virtAddr = vmmUnmapPageIn m pml4 virtAddr := rfl

/-- `vmm_map_pages_containing_in` of x86_64. -/
def vmmMapPagesContainingIn (fuel : Nat) (s : Mapper) (pml4 virtAddr physAddr : BitVec 64)
    (flags : BitVec 16) (numPages : BitVec 64) : Option (Bool × Mapper) :=
  mapPages (fun m v p => vmmMapPageIn m pml4 v p flags) fuel s virtAddr physAddr numPages

/-- `vmm_map_pages_containing_in` of riscv64. -/
def vmmMapPagesContainingInRiscv64 (fuel : Nat) (s : Mapper) (pml4 virtAddr physAddr : BitVec 64)
    (flags : BitVec 16) (numPages : BitVec 64) : Option (Bool × Mapper) :=
  mapPages (fun m v p => vmmMapPageInRiscv64 m pml4 v p flags) fuel s virtAddr physAddr numPages

/-- `vmm_unmap_pages_in`. -/
def vmmUnmapPagesIn (enc : Encoding) (fuel : Nat) (s : Mapper)
    (pml4 virtAddr numPages : BitVec 64) : Option (BitVec 64 × Mapper) :=
  unmapPages (nolockVmmUnmapPageIn enc pml4) fuel s virtAddr numPages

/-! ## When there is a table for a page -/

/-- A page was taken for a table, cleared, and linked from an entry of `table`. -/
def withTable (link : BitVec 64 → BitVec 64) (m : Machine) (table : BitVec 64) (index : Fin 512) :
    Machine where
  mem := setEntry (Function.update m.mem (pageAlloc m.region).1 (fun _ => 0)) table index
    (link (pageAlloc m.region).1)
  region := (pageAlloc m.region).2

/-- On the way from `table`, with that many levels to go, there is a large page above the last
level, or an entry is missing and there is no page for the table. -/
def Blocked (enc : Encoding) (link : BitVec 64 → BitVec 64) (virtAddr : BitVec 64) :
    Nat → BitVec 64 → Machine → Prop
  | 0, _, _ => False
  | levels + 1, table, m =>
    let index := vmmVirtToTableIndex virtAddr (levels + 2)
    let entry := m.mem table index
    (isPresent entry ∧ ((0 < levels ∧ enc.isLeaf entry) ∨
      Blocked enc link virtAddr levels (enc.tableEntryToPhys entry) m)) ∨
    (¬ isPresent entry ∧ (Exhausted m.region ∨
      Blocked enc link virtAddr levels (pageAlloc m.region).1 (withTable link m table index)))

section Tables

variable {enc : Encoding} {link visit : BitVec 64 → BitVec 64} {v : BitVec 64}

theorem readsAs_update {mem mem' : BitVec 64 → Fin 512 → BitVec 64} (same : ReadsAs enc mem mem')
    (new table : BitVec 64) (index : Fin 512) (entry : BitVec 64) :
    ReadsAs enc (setEntry (Function.update mem new (fun _ => 0)) table index entry)
      (setEntry (Function.update mem' new (fun _ => 0)) table index entry) := by
  have hcleared : ReadsAs enc (Function.update mem new (fun _ => 0))
      (Function.update mem' new (fun _ => 0)) := by
    intro t i
    by_cases ht : t = new
    · subst ht
      rw [Function.update_self, Function.update_self]
      exact ⟨rfl, rfl, rfl⟩
    · rw [Function.update_of_ne ht, Function.update_of_ne ht]
      exact same t i
  intro t i
  by_cases ht : t = table
  · subst ht
    by_cases hi : i = index
    · subst hi
      rw [setEntry_self, setEntry_self]
      exact ⟨rfl, rfl, rfl⟩
    · rw [setEntry_index _ hi, setEntry_index _ hi]
      exact hcleared t i
  · rw [setEntry_table _ _ ht, setEntry_table _ _ ht]
    exact hcleared t i

/-- What was passed on the way reads as before, and so does what is blocked. -/
theorem blocked_readsAs {levels : Nat} {t : BitVec 64} {m m' : Machine}
    (same : ReadsAs enc m.mem m'.mem) (region : m'.region = m.region) :
    Blocked enc link v levels t m' ↔ Blocked enc link v levels t m := by
  induction levels generalizing t m m' with
  | zero => exact Iff.rfl
  | succ levels ih =>
    obtain ⟨hpresent, hleaf, hphys⟩ := same t (vmmVirtToTableIndex v (levels + 2))
    have hon := fun c => @ih c m m' same region
    have hlinked := readsAs_update same (pageAlloc m.region).1 t
      (vmmVirtToTableIndex v (levels + 2)) (link (pageAlloc m.region).1)
    have hnew : Blocked enc link v levels (pageAlloc m.region).1
          (withTable link m' t (vmmVirtToTableIndex v (levels + 2))) ↔
        Blocked enc link v levels (pageAlloc m.region).1
          (withTable link m t (vmmVirtToTableIndex v (levels + 2))) := by
      apply ih
      · rw [withTable, withTable, region]
        exact hlinked
      · rw [withTable, withTable, region]
    rw [Blocked, Blocked, hpresent, hleaf, hphys, region, hon, hnew]

/-- `ensure_tables` returns null exactly where the way is blocked. -/
theorem ensureTablesLoop_none_iff (keeps : Keeps enc link visit) (levels : Nat) (t : BitVec 64)
    (m : Machine) :
    (ensureTablesLoop enc link visit v levels t m).1 = none ↔ Blocked enc link v levels t m := by
  induction levels generalizing t m with
  | zero => simp [ensureTablesLoop, Blocked]
  | succ levels ih =>
    rw [Blocked]
    by_cases hpresent : isPresent (m.mem t (vmmVirtToTableIndex v (levels + 2)))
    · by_cases hstop : 0 < levels ∧ enc.isLeaf (m.mem t (vmmVirtToTableIndex v (levels + 2)))
      · have hgo : levels + 1 > 1 ∧ enc.isLeaf (m.mem t (vmmVirtToTableIndex v (levels + 2))) :=
          ⟨Nat.succ_lt_succ hstop.1, hstop.2⟩
        have hnone : (ensureTablesLoop enc link visit v (levels + 1) t m).1 = none := by
          rw [ensureTablesLoop]
          simp only
          rw [if_neg (present_ne hpresent), if_pos hgo]
        exact iff_of_true hnone (Or.inl ⟨hpresent, Or.inl hstop⟩)
      · have hon : levels = 0 ∨ ¬ enc.isLeaf (m.mem t (vmmVirtToTableIndex v (levels + 2))) := by
          rcases Nat.eq_zero_or_pos levels with hzero | hpos
          · exact Or.inl hzero
          · exact Or.inr fun hleaf => hstop ⟨hpos, hleaf⟩
        have hsame := keeps.readsAs m.mem t (vmmVirtToTableIndex v (levels + 2))
        have hback : Blocked enc link v levels
              (enc.tableEntryToPhys (m.mem t (vmmVirtToTableIndex v (levels + 2))))
              { m with
                mem := setEntry m.mem t (vmmVirtToTableIndex v (levels + 2))
                  (visit (m.mem t (vmmVirtToTableIndex v (levels + 2)))) } ↔
            Blocked enc link v levels
              (enc.tableEntryToPhys (m.mem t (vmmVirtToTableIndex v (levels + 2)))) m := by
          apply blocked_readsAs
          · exact hsame
          · rfl
        rw [ensureTablesLoop_present hpresent hon, ih, hback]
        simp only [hpresent, hstop, false_or, true_and, not_true, false_and, or_false]
    · rcases ensureTablesLoop_absent enc link visit hpresent with
        ⟨hmemory, hnone⟩ | ⟨hmemory, hgo⟩
      · exact iff_of_true hnone (Or.inr ⟨hpresent, Or.inl hmemory⟩)
      · have hlinked := ih (pageAlloc m.region).1
          (withTable link m t (vmmVirtToTableIndex v (levels + 2)))
        rw [hgo]
        refine hlinked.trans ?_
        simp only [hpresent, hmemory, false_or, true_and, not_false_eq_true, Bool.false_eq_true,
          false_and]

end Tables

/-! ## When the lock is released -/

/-- The pages before `k` were mapped, whether each of them could be or not. -/
def mappedBefore (mapPage : Machine → BitVec 64 → BitVec 64 → Bool × Machine)
    (virtAddr physAddr : BitVec 64) (m : Machine) : Nat → Machine
  | 0 => m
  | k + 1 => (mapPage (mappedBefore mapPage virtAddr physAddr m k)
      (pageAt virtAddr (BitVec.ofNat 32 k)) (pageAt physAddr (BitVec.ofNat 32 k))).2

/-- The counter of a loop gets to `k` and the loop goes on there. -/
def Turn (numPages : BitVec 64) (k : Nat) : Prop :=
  k < 2 ^ 32 ∧ ∀ j ≤ k, (BitVec.ofNat 32 j).signExtend 64 < numPages

/-- The way to no page is blocked when its turn comes. -/
def TablesAtHand (enc : Encoding) (link : BitVec 64 → BitVec 64)
    (mapPage : Machine → BitVec 64 → BitVec 64 → Bool × Machine) (m : Machine)
    (pml4 virtAddr physAddr numPages : BitVec 64) : Prop :=
  ∀ k, Turn numPages k → ¬ Blocked enc link
    (pageAt virtAddr (BitVec.ofNat 32 k) &&& 0xfffffffffffff000) 3 pml4
    (mappedBefore mapPage virtAddr physAddr m k)

/-- A node of the pool can take up the range, or the call is turned down before the lock. -/
def NodeAtHand (s : Vmalloc.State) (address numPages : BitVec 64) : Prop :=
  s.isInitialized = false ∨ numPages = 0 ∨ address &&& (Vmalloc.vmPageSize - 1) ≠ 0 ∨
    s.rangePool ≠ none

section Loops

variable {mapPage : Machine → BitVec 64 → BitVec 64 → Bool × Machine}
  {unmapPage : Machine → BitVec 64 → BitVec 64 × Machine}
  {virtAddr physAddr numPages : BitVec 64} {m : Machine}

/-- The largest counter is the largest 64-bit value, so that no loop goes on behind it. -/
theorem turn_lt {k : Nat} (hk : k < 2 ^ 32)
    (on : (BitVec.ofNat 32 k).signExtend 64 < numPages) : k + 1 < 2 ^ 32 := by
  by_contra hlast
  have hmax : k = 2 ^ 32 - 1 := by omega
  have hall : (BitVec.ofNat 32 (2 ^ 32 - 1)).signExtend 64 = BitVec.allOnes 64 := by decide
  rw [hmax, hall] at on
  have htop : (BitVec.allOnes 64).toNat = 2 ^ 64 - 1 := by decide
  have hlt : (BitVec.allOnes 64).toNat < numPages.toNat := on
  have hbound := numPages.isLt
  omega

theorem next_counter (k : Nat) : BitVec.ofNat 32 k + 1 = BitVec.ofNat 32 (k + 1) := by
  rw [BitVec.ofNat_add]
  rfl

/-- The loop ends, and answers true when every page from the counter on could be mapped. -/
theorem mapPagesLoop_spec {fuel k : Nat} (hk : k < 2 ^ 32) (enough : 2 ^ 32 ≤ fuel + k)
    (before : ∀ j < k, (BitVec.ofNat 32 j).signExtend 64 < numPages) :
    ∃ ok m', (∀ more, mapPagesLoop mapPage virtAddr physAddr numPages (fuel + more)
        (BitVec.ofNat 32 k) (mappedBefore mapPage virtAddr physAddr m k) = some (ok, m')) ∧
      (ok = true ↔ ∀ j ≥ k, Turn numPages j →
        (mapPage (mappedBefore mapPage virtAddr physAddr m j) (pageAt virtAddr (BitVec.ofNat 32 j))
          (pageAt physAddr (BitVec.ofNat 32 j))).1 = true) := by
  induction fuel generalizing k with
  | zero => omega
  | succ fuel ih =>
    by_cases hon : (BitVec.ofNat 32 k).signExtend 64 < numPages
    · have hupto : ∀ j ≤ k, (BitVec.ofNat 32 j).signExtend 64 < numPages := by
        intro j hj
        rcases Nat.lt_or_eq_of_le hj with hlt | rfl
        · exact before j hlt
        · exact hon
      cases hpage : mapPage (mappedBefore mapPage virtAddr physAddr m k)
        (pageAt virtAddr (BitVec.ofNat 32 k)) (pageAt physAddr (BitVec.ofNat 32 k)) with
      | mk ok m1 =>
        cases ok with
        | false =>
          refine ⟨false, m1, fun more => ?_, iff_of_false Bool.false_ne_true fun hall => ?_⟩
          · rw [Nat.add_right_comm, mapPagesLoop, if_pos hon, hpage]
          · have hyes := hall k (Nat.le_refl k) ⟨hk, hupto⟩
            rw [hpage] at hyes
            exact absurd hyes Bool.false_ne_true
        | true =>
          have hnext : mappedBefore mapPage virtAddr physAddr m (k + 1) = m1 := by
            rw [mappedBefore, hpage]
          obtain ⟨ok, m', hloop, hiff⟩ := ih (turn_lt hk hon) (by omega)
            (fun j hj => hupto j (Nat.le_of_lt_succ hj))
          refine ⟨ok, m', fun more => ?_, hiff.trans ⟨fun hall j hj hturn => ?_,
            fun hall j hj => hall j (Nat.le_of_succ_le hj)⟩⟩
          · rw [Nat.add_right_comm, mapPagesLoop, if_pos hon, hpage, next_counter, ← hnext]
            exact hloop more
          · rcases Nat.eq_or_lt_of_le hj with rfl | hlt
            · rw [hpage]
            · exact hall j hlt hturn
    · refine ⟨true, mappedBefore mapPage virtAddr physAddr m k, fun more => ?_,
        iff_of_true rfl fun j hj hturn => ?_⟩
      · rw [Nat.add_right_comm, mapPagesLoop, if_neg hon]
      · exact absurd (hturn.2 k hj) hon

theorem unmapPagesLoop_returns {fuel k : Nat} (hk : k < 2 ^ 32) (enough : 2 ^ 32 ≤ fuel + k)
    (m : Machine) : ∃ m', ∀ more,
      unmapPagesLoop unmapPage virtAddr numPages (fuel + more) (BitVec.ofNat 32 k) m = some m' := by
  induction fuel generalizing k m with
  | zero => omega
  | succ fuel ih =>
    by_cases hon : (BitVec.ofNat 32 k).signExtend 64 < numPages
    · obtain ⟨m', hloop⟩ := ih (turn_lt hk hon) (by omega)
        (unmapPage m (pageAt virtAddr (BitVec.ofNat 32 k))).2
      refine ⟨m', fun more => ?_⟩
      rw [Nat.add_right_comm, unmapPagesLoop, if_pos hon, next_counter]
      exact hloop more
    · refine ⟨m, fun more => ?_⟩
      rw [Nat.add_right_comm, unmapPagesLoop, if_neg hon]

/-- The call returns, and the lock is released when every page could be mapped. -/
theorem mapPages_spec (s : Mapper) (unlocked : s.vmmMapLock = false) :
    ∃ ok s', (∀ fuel ≥ 2 ^ 32, mapPages mapPage fuel s virtAddr physAddr numPages =
        some (ok, s')) ∧
      (s'.vmmMapLock = false ↔ ∀ k, Turn numPages k →
        (mapPage (mappedBefore mapPage virtAddr physAddr s.machine k)
          (pageAt virtAddr (BitVec.ofNat 32 k)) (pageAt physAddr (BitVec.ofNat 32 k))).1 =
            true) := by
  have hlock : spinlockLock s = some { s with vmmMapLock := true } := by
    rw [spinlockLock, unlocked]
    rfl
  obtain ⟨ok, m', hloop, hiff⟩ := @mapPagesLoop_spec mapPage virtAddr physAddr numPages s.machine
    (2 ^ 32) 0 (by norm_num) (Nat.le_refl _) (fun j hj => absurd hj (Nat.not_lt_zero j))
  have hrun : ∀ fuel ≥ 2 ^ 32, mapPages mapPage fuel s virtAddr physAddr numPages =
      some (ok, ⟨m', !ok⟩) := by
    intro fuel hfuel
    obtain ⟨more, rfl⟩ := Nat.exists_eq_add_of_le hfuel
    rw [mapPages, hlock, Option.bind_some]
    refine (congrArg (Option.map _) (hloop more)).trans ?_
    cases ok with
    | false => rfl
    | true => rfl
  refine ⟨ok, ⟨m', !ok⟩, hrun, ?_⟩
  rw [← (hiff.trans ⟨fun hall k => hall k (Nat.zero_le k), fun hall k _ => hall k⟩)]
  cases ok with
  | false => exact ⟨fun h => absurd h.symm Bool.false_ne_true, fun h => absurd h Bool.false_ne_true⟩
  | true => exact iff_of_true rfl rfl

theorem unmapPages_releases (s : Mapper) (unlocked : s.vmmMapLock = false) :
    ∃ result s', (∀ fuel ≥ 2 ^ 32, unmapPages unmapPage fuel s virtAddr numPages =
      some (result, s')) ∧ s'.vmmMapLock = false := by
  have hlock : spinlockLock s = some { s with vmmMapLock := true } := by
    rw [spinlockLock, unlocked]
    rfl
  obtain ⟨m', hloop⟩ := @unmapPagesLoop_returns unmapPage virtAddr numPages (2 ^ 32) 1
    (by norm_num) (by norm_num) (unmapPage s.machine virtAddr).2
  refine ⟨(unmapPage s.machine virtAddr).1, ⟨m', false⟩, fun fuel hfuel => ?_, rfl⟩
  obtain ⟨more, rfl⟩ := Nat.exists_eq_add_of_le hfuel
  rw [unmapPages, hlock, Option.bind_some]
  exact (congrArg (Option.map _) (hloop more)).trans rfl

end Loops

section Machines

variable {m : Machine} {pml4 v page : BitVec 64} {flags : BitVec 16}

theorem vmmMapPageIn_iff : (vmmMapPageIn m pml4 v page flags).1 = true ↔
    ¬ Blocked x8664 (linkX8664 flags) (v &&& 0xfffffffffffff000) 3 pml4 m := by
  rw [← ensureTablesLoop_none_iff (keeps_x8664 flags), ensureTablesLoop_x8664]
  have hensure : ensureTables m pml4 (v &&& 0xfffffffffffff000) 1 flags =
      VmMapper.ensureTablesLoop (v &&& 0xfffffffffffff000) flags 3 pml4 m := rfl
  rw [vmmMapPageIn, hensure]
  rcases VmMapper.ensureTablesLoop (v &&& 0xfffffffffffff000) flags 3 pml4 m with ⟨_ | pt, m'⟩
  · simp
  · simp

theorem vmmMapPageInRiscv64_iff : (vmmMapPageInRiscv64 m pml4 v page flags).1 = true ↔
    ¬ Blocked riscv64 linkRiscv64 (v &&& 0xfffffffffffff000) 3 pml4 m := by
  rw [← ensureTablesLoop_none_iff keeps_riscv64]
  have hensure : ensureTablesRiscv64 m pml4 (v &&& 0xfffffffffffff000) 1 =
      ensureTablesLoop riscv64 linkRiscv64 id (v &&& 0xfffffffffffff000) 3 pml4 m := rfl
  rw [vmmMapPageInRiscv64, hensure]
  rcases ensureTablesLoop riscv64 linkRiscv64 id (v &&& 0xfffffffffffff000) 3 pml4 m with
    ⟨_ | pt, m'⟩
  · simp
  · simp

end Machines

/-- A free call on any list returns, and it keeps the lock when it gets past it without a node. -/
theorem vmmFreeBlock_spec {s : Vmalloc.State} {list pool : List (BitVec 64)}
    (layout : Vmalloc.Layout s list pool) (unlocked : s.vmmLock = false)
    (address numPages : BitVec 64) : ∃ result s', (∀ fuel > list.length,
      Vmalloc.vmmFreeBlock fuel s address numPages = some (result, s')) ∧
      (s'.vmmLock = false ↔ NodeAtHand s address numPages) := by
  by_cases hready : s.isInitialized = false
  · refine ⟨_, s, fun fuel _ => by rw [Vmalloc.vmmFreeBlock, if_pos hready], ?_⟩
    exact iff_of_true unlocked (Or.inl hready)
  · by_cases hparams : numPages = 0 ∨ address &&& (Vmalloc.vmPageSize - 1) ≠ 0
    · refine ⟨_, s, fun fuel _ => by
        rw [Vmalloc.vmmFreeBlock, if_neg hready, if_pos hparams], ?_⟩
      exact iff_of_true unlocked (Or.inr (hparams.imp_right Or.inl))
    · have hlock : Vmalloc.spinlockLock s = some { s with vmmLock := true } := by
        rw [Vmalloc.spinlockLock, unlocked]
        rfl
      have hlocked : Vmalloc.Layout { s with vmmLock := true } list pool :=
        layout.congr rfl rfl rfl
      obtain ⟨hpages, haligned⟩ := not_or.mp hparams
      cases pool with
      | nil =>
        have hpool : s.rangePool = none := layout.unused
        refine ⟨Vmalloc.vmmErrorNoSpace, { s with vmmLock := true }, fun fuel _ => ?_, ?_⟩
        · rw [Vmalloc.vmmFreeBlock, if_neg hready, if_neg hparams, hlock, Option.bind_some,
            Vmalloc.allocRange]
          dsimp only
          rw [hpool]
        · refine iff_of_false (fun h => absurd h.symm Bool.false_ne_true) ?_
          rintro (h | h | h | h)
          · exact hready h
          · exact hpages h
          · exact haligned h
          · exact h hpool
      | cons r pool =>
        obtain ⟨hrange, htaken, hoff⟩ := hlocked.takeFirst
        have hput : Vmalloc.Layout (Vmalloc.initRange { s with
            vmmLock := true, rangePool := s.next r } r address (numPages * Vmalloc.vmPageSize))
            list pool := htaken.writeOff hoff
        have hnone : ∀ x ∈ ([] : List (BitVec 64)), Vmalloc.State.start (Vmalloc.initRange { s with
            vmmLock := true, rangePool := s.next r } r address (numPages * Vmalloc.vmPageSize)) x <
            address := fun x hx => absurd hx List.not_mem_nil
        obtain ⟨front, back, -, hfind, -⟩ := Vmalloc.findInsertion_spec hput.free hnone rfl
        obtain ⟨s', hplaced⟩ : ∃ s', ∀ fuel > list.length, Vmalloc.putRange fuel
            { s with vmmLock := true, rangePool := s.next r } r address
            (numPages * Vmalloc.vmPageSize) = some s' :=
          ⟨_, fun fuel enough => congrArg (Option.map _) (hfind fuel enough)⟩
        refine ⟨Vmalloc.vmmSuccess, Vmalloc.spinlockUnlock s', fun fuel enough => ?_, ?_⟩
        · rw [Vmalloc.vmmFreeBlock, if_neg hready, if_neg hparams, hlock, Option.bind_some, hrange]
          exact congrArg (Option.map _) (hplaced fuel enough)
        · have hpool : s.rangePool = some r := layout.unused.1
          refine iff_of_true rfl (Or.inr (Or.inr (Or.inr ?_)))
          rw [hpool]
          exact Option.some_ne_none r

/-- Each call returns, and when it does so with the lock released. -/
theorem locks_released_iff (numPages : BitVec 64) :
    (∀ (s : Vmalloc.State) (list pool : List (BitVec 64)), Vmalloc.Layout s list pool →
      s.vmmLock = false → ∀ address, ∃ result s', (∀ fuel > list.length,
        Vmalloc.vmmFreeBlock fuel s address numPages = some (result, s')) ∧
        (s'.vmmLock = false ↔ NodeAtHand s address numPages)) ∧
    (∀ s : Mapper, s.vmmMapLock = false → ∀ pml4 virtAddr physAddr flags,
      ∃ ok s', (∀ fuel ≥ 2 ^ 32, vmmMapPagesContainingIn fuel s pml4 virtAddr physAddr flags
          numPages = some (ok, s')) ∧
        (s'.vmmMapLock = false ↔ TablesAtHand x8664 (linkX8664 flags)
          (fun m v p => vmmMapPageIn m pml4 v p flags) s.machine pml4 virtAddr physAddr
          numPages)) ∧
    (∀ s : Mapper, s.vmmMapLock = false → ∀ pml4 virtAddr physAddr flags,
      ∃ ok s', (∀ fuel ≥ 2 ^ 32, vmmMapPagesContainingInRiscv64 fuel s pml4 virtAddr physAddr
          flags numPages = some (ok, s')) ∧
        (s'.vmmMapLock = false ↔ TablesAtHand riscv64 linkRiscv64
          (fun m v p => vmmMapPageInRiscv64 m pml4 v p flags) s.machine pml4 virtAddr physAddr
          numPages)) ∧
    (∀ (enc : Encoding) (s : Mapper), s.vmmMapLock = false → ∀ pml4 virtAddr,
      ∃ result s', (∀ fuel ≥ 2 ^ 32, vmmUnmapPagesIn enc fuel s pml4 virtAddr numPages =
          some (result, s')) ∧ s'.vmmMapLock = false) := by
  refine ⟨?_, ?_, ?_, ?_⟩
  · intro s list pool layout unlocked address
    exact vmmFreeBlock_spec layout unlocked address numPages
  · intro s unlocked pml4 virtAddr physAddr flags
    obtain ⟨ok, s', hcall, hiff⟩ := @mapPages_spec (fun m v p => vmmMapPageIn m pml4 v p flags)
      virtAddr physAddr numPages s unlocked
    refine ⟨ok, s', hcall, hiff.trans ?_⟩
    exact forall_congr' fun k => imp_congr_right fun _ => vmmMapPageIn_iff
  · intro s unlocked pml4 virtAddr physAddr flags
    obtain ⟨ok, s', hcall, hiff⟩ := @mapPages_spec
      (fun m v p => vmmMapPageInRiscv64 m pml4 v p flags) virtAddr physAddr numPages s unlocked
    refine ⟨ok, s', hcall, hiff.trans ?_⟩
    exact forall_congr' fun k => imp_congr_right fun _ => vmmMapPageInRiscv64_iff
  · intro enc s unlocked pml4 virtAddr
    exact unmapPages_releases s unlocked

/-- No memory for tables: the unmapped page is the answer of a call that releases the lock. -/
theorem locks_released_without_memory : ∃ result s', (∀ fuel ≥ 2 ^ 32,
      vmmUnmapPagesIn x8664 fuel ⟨MapRollback.noMemory, false⟩ 0x1000 0x400000 2 =
        some (result, s')) ∧ s'.vmmMapLock = false :=
  (locks_released_iff 2).2.2.2 x8664 ⟨MapRollback.noMemory, false⟩ rfl 0x1000 0x400000

/-- The only node is in use for the free memory behind the block. -/
def noNode : Vmalloc.State :=
  { VmallocRuns.blank with
    range := Function.update VmallocRuns.blank.range 0x9000 ⟨0x100001000, 0x3000, none⟩
    freeRanges := some 0x9000
    isInitialized := true }

/-- Without a node, and without memory for a table, the calls return with the lock held, and the
next call spins. -/
theorem lock_held_without_memory :
    (∃ s', (∀ fuel > 1, Vmalloc.vmmFreeBlock fuel noNode 0x100000000 1 =
        some (Vmalloc.vmmErrorNoSpace, s')) ∧ s'.vmmLock = true ∧
      ∀ fuel, Vmalloc.vmmAllocBlock fuel s' 1 = none) ∧
    (∃ s', (∀ fuel ≥ 2 ^ 32, vmmMapPagesContainingIn fuel ⟨MapRollback.noMemory, false⟩ 0x1000
        0x400000 0x200000 3 2 = some (false, s')) ∧ s'.vmmMapLock = true) ∧
    (∃ s', (∀ fuel ≥ 2 ^ 32, vmmMapPagesContainingInRiscv64 fuel ⟨MapRollback.noMemory, false⟩
        0x1000 0x400000 0x200000 3 2 = some (false, s')) ∧ s'.vmmMapLock = true) := by
  refine ⟨⟨_, fun fuel _ => rfl, rfl, fun fuel => rfl⟩, ⟨⟨MapRollback.noMemory, true⟩, ?_, rfl⟩,
    ⟨MapRollback.noMemory, true⟩, ?_, rfl⟩
  · intro fuel hfuel
    have hpos : 0 < fuel := Nat.lt_of_lt_of_le (by norm_num) hfuel
    obtain ⟨turns, rfl⟩ := Nat.exists_eq_add_one_of_ne_zero (Nat.ne_of_gt hpos)
    rfl
  · intro fuel hfuel
    have hpos : 0 < fuel := Nat.lt_of_lt_of_le (by norm_num) hfuel
    obtain ⟨turns, rfl⟩ := Nat.exists_eq_add_one_of_ne_zero (Nat.ne_of_gt hpos)
    rfl

end SpaceLocks
