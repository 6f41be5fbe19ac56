import AnosKernel.TableMemory

/-!
# The blocks of a growing table

`hash_table_resize` of `kernel/structs/hash.c` on the block allocator. The new entries are as many
blocks as there are pages; of the old ones `fba_free` is given the first.
-/

namespace TableGrowth

open FbaAlloc FbaPages HashTables Runs

/-- A table with the memory its entries come from. -/
structure Table where
  memory : FbaPages.Kernel
  entries : BitVec 64
  table : HashTable

def Table.pages (t : Table) : Nat := t.table.capacity / entriesPerPage

/-- `none` when the loop that clears the new entries runs off their blocks. -/
def hashTableResize (t : Table) : Option (Bool × Table) :=
  let newPages := t.pages * 2
  let newCapacity := newPages * entriesPerPage
  match FbaPages.fbaAllocBlocks t.memory (BitVec.ofNat 32 newPages) with
  | (none, memory) => some (false, { t with memory := memory })
  | (some newEntries, memory) =>
    if newCapacity ≤ (BitVec.ofNat 32 newPages).toNat * entriesPerPage then
      some (true,
        { memory := FbaPages.fbaFree memory t.entries
          entries := newEntries
          table := { t.table with
            entries := rehashEntries t.table.entries newCapacity t.table.capacity
            capacity := newCapacity } })
    else none

def Table.insertEntry (t : Table) (key value : BitVec 64) : Bool × Table :=
  let (inserted, table) := HashTables.insertEntry t.table key value
  (inserted, { t with table := table })

def hashTableInsert (t : Table) (key value : BitVec 64) : Option (Bool × Table) :=
  if resizeNeeded t.table then
    match hashTableResize t with
    | none => none
    | some (false, t) => some (false, t)
    | some (true, t) => some (t.insertEntry key value)
  else some (t.insertEntry key value)

/-! ## Runs -/

/-- `held` is history: the blocks that the calls for this table have marked and not cleared. -/
structure World where
  table : Table
  held : Nat → Bool

/-- What is held after a call: the marks that were not there before it, and those left of the
blocks held before. -/
def heldAfter (held : Nat → Bool) (before after : Fba) : Nat → Bool :=
  fun i => bit after.bitmap i && (held i || !bit before.bitmap i)

def World.after (w : World) (t : Table) : World :=
  ⟨t, heldAfter w.held w.table.memory.fba t.memory.fba⟩

/-- A table that `hash_table_create` has just answered. -/
def Created (w : World) : Prop :=
  ∃ fuel k numPages t k' ht k1 memory, TableMemory.Reached k ∧
    TableMemory.hashTableCreate fuel k numPages = some (some t, k') ∧
    TableMemory.slabAllocBlock k = (some ht, k1) ∧
    FbaPages.fbaAllocBlocks k1.memory (numPages.setWidth 32) = (some t.entries, memory) ∧
    w = ⟨⟨k'.memory, t.entries, t.table⟩, heldAfter (fun _ => false) k1.memory.fba memory.fba⟩

/-- What others do to the memory: their calls leave the blocks of the bitmap and those of this
table in use. -/
structure Others (w : World) (memory : FbaPages.Kernel) : Prop where
  range : memory.fba = { w.table.memory.fba with bitmap := memory.fba.bitmap }
  own : ∀ i < memory.fba.bitmapSizeBlocks.toNat, bit memory.fba.bitmap i = true
  held : ∀ i, w.held i = true → bit memory.fba.bitmap i = true

inductive Op where
  | insert (key value : BitVec 64)
  | others (memory : FbaPages.Kernel)

inductive Step (w : World) : Op → World → Prop
  | insert {key value : BitVec 64} {inserted : Bool} {t : Table} :
    hashTableInsert w.table key value = some (inserted, t) → Step w (.insert key value) (w.after t)
  | others {memory : FbaPages.Kernel} : Others w memory →
    Step w (.others memory) { w with table := { w.table with memory := memory } }

def system : System World Op where
  init := Created
  step := Step

/-- The blocks held are as many as the entries have pages, from their address on. -/
def Exact (w : World) : Prop :=
  ∃ first, w.table.entries = blockAddress w.table.memory.fba first ∧
    first + w.table.pages ≤ w.table.memory.fba.fbaSizeBlocks.toNat ∧
    ∀ i, w.held i = decide (first ≤ i ∧ i < first + w.table.pages)

/-- An insertion that needs no more entries, or whose request for them is refused by the bitmap,
or that doubles a single page and gets its pages, in a range whose end `fba_free` can compare. -/
def Guard (w : World) : Op → Prop
  | .insert _ _ =>
    resizeNeeded w.table.table →
      Refused w.table.memory.fba (.blocks (BitVec.ofNat 32 (w.table.pages * 2))) ∨
      w.table.pages = 1 ∧ EndsBelow w.table.memory.fba ∧
        (FbaPages.fbaAllocBlocks w.table.memory 2).1 ≠ none
  | .others _ => True

/-! ## What an insertion does to the memory -/

section Insert

variable {t t' : Table} {key value : BitVec 64} {inserted : Bool}

/-- The memory changes with the entries only: not at all, by a request that fails, or by one that
is answered and the release of a block. -/
theorem hashTableInsert_cases (h : hashTableInsert t key value = some (inserted, t')) :
    (¬ resizeNeeded t.table ∧ t'.memory = t.memory ∧ t'.entries = t.entries ∧ t'.pages = t.pages) ∨
    (resizeNeeded t.table ∧ t'.entries = t.entries ∧ t'.pages = t.pages ∧
      FbaPages.fbaAllocBlocks t.memory (BitVec.ofNat 32 (t.pages * 2)) = (none, t'.memory)) ∨
    (resizeNeeded t.table ∧ t'.pages = t.pages * 2 ∧
      t.pages * 2 ≤ (BitVec.ofNat 32 (t.pages * 2)).toNat ∧ ∃ memory,
        FbaPages.fbaAllocBlocks t.memory (BitVec.ofNat 32 (t.pages * 2)) =
          (some t'.entries, memory) ∧
        t'.memory = FbaPages.fbaFree memory t.entries) := by
  have hpages : ∀ t : Table, (t.insertEntry key value).2.pages = t.pages := by
    intro t
    exact congrArg (· / entriesPerPage) (insertEntry_capacity t.table key value)
  rw [hashTableInsert] at h
  by_cases hneeded : resizeNeeded t.table
  · rw [if_pos hneeded, hashTableResize] at h
    right
    cases hrequest : FbaPages.fbaAllocBlocks t.memory (BitVec.ofNat 32 (t.pages * 2)) with
    | mk answer memory =>
      simp only [hrequest] at h
      cases answer with
      | none =>
        obtain rfl := (Prod.mk.inj (Option.some.inj h)).2
        exact Or.inl ⟨hneeded, rfl, rfl, rfl⟩
      | some newEntries =>
        by_cases hroom : t.pages * 2 * entriesPerPage ≤
            (BitVec.ofNat 32 (t.pages * 2)).toNat * entriesPerPage
        · simp only [if_pos hroom] at h
          have hresult := (Prod.ext_iff.mp (Option.some.inj h)).2
          simp only at hresult
          have hnew := hpages { memory := FbaPages.fbaFree memory t.entries
                                entries := newEntries
                                table := { t.table with
                                  entries := rehashEntries t.table.entries
                                    (t.pages * 2 * entriesPerPage) t.table.capacity
                                  capacity := t.pages * 2 * entriesPerPage } }
          rw [hresult] at hnew
          refine Or.inr ⟨hneeded, ?_, ?_, memory, ?_, ?_⟩
          · rw [hnew]
            exact Nat.mul_div_cancel _ (by decide)
          · exact Nat.le_of_mul_le_mul_right hroom (by decide)
          · rw [← hresult]
            rfl
          · rw [← hresult]
            rfl
        · simp only [if_neg hroom] at h
          exact absurd h (by simp)
  · rw [if_neg hneeded] at h
    left
    have hresult := (Prod.ext_iff.mp (Option.some.inj h)).2
    simp only at hresult
    refine ⟨hneeded, ?_, ?_, ?_⟩
    · rw [← hresult]
      rfl
    · rw [← hresult]
      rfl
    · rw [← hresult]
      exact hpages t

theorem insertEntry_table (h : t.insertEntry key value = (inserted, t')) :
    HashTables.insertEntry t.table key value = (inserted, t'.table) := by
  have hpair : HashTables.insertEntry t.table key value =
      ((t.insertEntry key value).1, (t.insertEntry key value).2.table) := rfl
  rw [hpair, h]

/-- In the kernel's range the table is the one that only sees whether the request is answered. -/
theorem hashTableInsert_refines (sized : Sized t.memory.fba)
    (kernel : t.memory.fba.fbaSizeBlocks.toNat ≤ FixedBlocks.kernelFbaSizeBlocks)
    (h : hashTableInsert t key value = some (inserted, t')) :
    HashTables.hashTableInsert
      (FbaPages.fbaAllocBlocks t.memory (BitVec.ofNat 32 (t.pages * 2))).1.isSome
      t.table key value = (inserted, t'.table) := by
  rw [hashTableInsert] at h
  rw [HashTables.hashTableInsert]
  by_cases hneeded : resizeNeeded t.table
  · rw [if_pos hneeded, hashTableResize] at h
    rw [if_pos hneeded, HashTables.hashTableResize, ← Table.pages]
    cases hrequest : FbaPages.fbaAllocBlocks t.memory (BitVec.ofNat 32 (t.pages * 2)) with
    | mk answer memory =>
      simp only [hrequest] at h
      cases answer with
      | none =>
        obtain ⟨rfl, rfl⟩ := Prod.mk.inj (Option.some.inj h)
        simp [FixedBlocks.fbaAllocBlocks]
      | some newEntries =>
        obtain ⟨-, first, -, hpos, hend, -⟩ := fbaAllocBlocks_takes sized hrequest
        have hanswered : FixedBlocks.fbaAllocBlocks true (BitVec.ofNat 32 (t.pages * 2)) =
            true := by
          rw [FixedBlocks.fbaAllocBlocks, Bool.true_and, Bool.and_eq_true, decide_eq_true_iff,
            decide_eq_true_iff]
          constructor
          · intro hzero
            rw [hzero] at hpos
            exact absurd hpos (by simp)
          · omega
        split_ifs at h with hroom
        simp only [Option.isSome_some, hanswered, if_true]
        exact insertEntry_table (Option.some.inj h)
  · rw [if_neg hneeded] at h
    rw [if_neg hneeded]
    exact insertEntry_table (Option.some.inj h)

end Insert

/-! ## The blocks held -/

structure Inv (w : World) : Prop where
  blocks : FbaAlloc.Inv ⟨w.table.memory.fba, w.held⟩
  exact_ : Exact w

section Held

variable {w w' : World} {held : Nat → Bool} {before after : Fba} {first n i : Nat}

/-- A request that is answered adds its blocks. -/
theorem heldAfter_takes (used : ∀ i, held i = true → bit before.bitmap i = true)
    (clear : ∀ i < n, bit before.bitmap (first + i) = false)
    (bits : ∀ i, bit after.bitmap i =
      (bit before.bitmap i || decide (first ≤ i ∧ i < first + n))) :
    heldAfter held before after i = (held i || decide (first ≤ i ∧ i < first + n)) := by
  rw [heldAfter, bits]
  by_cases hin : first ≤ i ∧ i < first + n
  · have hclear := clear (i - first) (by omega)
    rw [Nat.add_sub_cancel' hin.1] at hclear
    simp [hclear, hin]
  · cases hheld : held i with
    | true => simp [used i hheld, hin]
    | false => simp [hin]

theorem heldAfter_same (used : ∀ i, held i = true → bit before.bitmap i = true) :
    heldAfter held before before = held := by
  funext i
  rw [heldAfter]
  cases hheld : held i with
  | true => simp [used i hheld]
  | false => simp

/-- A block is told by its address. -/
theorem blockAddress_inj (sized : Sized before) {j : Nat}
    (inside : i < before.fbaSizeBlocks.toNat) (inside' : j < before.fbaSizeBlocks.toNat)
    (same : blockAddress before i = blockAddress before j) : i = j := by
  have hnat := congrArg BitVec.toNat same
  rw [blockAddress, blockAddress, sized.toNat_address inside, sized.toNat_address inside'] at hnat
  omega

theorem Created.inv (h : Created w) : Inv w := by
  obtain ⟨fuel, k, numPages, t, k', ht, k1, memory, hreached, hcreate, htable, htaken, rfl⟩ := h
  obtain ⟨k1', memory', htable', htaken', hlock, hempty, hfits⟩ :=
    TableMemory.hashTableCreate_some hcreate
  rw [htable] at htable'
  obtain ⟨-, rfl⟩ := Prod.mk.inj htable'
  rw [htaken] at htaken'
  obtain ⟨-, rfl⟩ := Prod.mk.inj htaken'
  have hreached1 : TableMemory.Reached k1 := by
    have hstep := hreached.allocBlock.1
    rwa [htable] at hstep
  have hreached2 := hreached1.allocBlocks (numPages.setWidth 32)
  rw [htaken] at hreached2
  have hreached' := hreached2.allocBlock.1
  rw [hlock] at hreached'
  obtain ⟨hrange, first, hentries, -, hend, hclear, hbits⟩ :=
    fbaAllocBlocks_takes hreached1.sized htaken
  have hkeeps := TableMemory.slabAllocBlock_gives hreached2.sized
  rw [hlock] at hkeeps
  have hrange' : k'.memory.fba = { memory.fba with bitmap := k'.memory.fba.bitmap } := hkeeps.frame
  have hsize : k'.memory.fba.fbaSizeBlocks = k1.memory.fba.fbaSizeBlocks := by
    rw [hrange', hrange]
  have hown : k'.memory.fba.bitmapSizeBlocks = k1.memory.fba.bitmapSizeBlocks := by
    rw [hrange', hrange]
  have hbegin : k'.memory.fba.fbaBegin = k1.memory.fba.fbaBegin := by rw [hrange', hrange]
  have hheld : ∀ i, heldAfter (fun _ => false) k1.memory.fba memory.fba i =
      decide (first ≤ i ∧ i < first + (numPages.setWidth 32).toNat) := by
    intro i
    have htakes := @heldAfter_takes (fun _ => false) _ _ _ _ i (fun i hi => absurd hi (by simp))
      hclear hbits
    rwa [Bool.false_or] at htakes
  have hpages : Table.pages ⟨k'.memory, t.entries, t.table⟩ = (numPages.setWidth 32).toNat := by
    rw [Table.pages, hempty, toNat_capacity hfits]
    exact Nat.mul_div_cancel _ (by decide)
  constructor
  · refine ⟨hreached'.sized, hreached'.own, fun i hi => ?_, fun i hi => ?_⟩
    · obtain ⟨hset, -⟩ := Bool.and_eq_true_iff.mp hi
      exact hkeeps.keeps i hset
    · obtain ⟨hge, hlt⟩ := of_decide_eq_true ((hheld i).symm.trans hi)
      have hfree := hclear (i - first) (by omega)
      rw [Nat.add_sub_cancel' hge] at hfree
      simp only [hown, hsize]
      refine ⟨?_, by omega⟩
      by_contra hbitmap
      rw [hreached1.own i (by omega)] at hfree
      exact absurd hfree (by decide)
  · refine ⟨first, ?_, ?_, ?_⟩
    · simp only [blockAddress, hbegin]
      exact hentries
    · rw [hpages, hsize]
      exact hend
    · rw [hpages]
      exact hheld

end Held

section Steps

variable {w w' : World} {t : Table} {key value : BitVec 64} {inserted : Bool}

/-- Nothing happens to the memory. -/
theorem Inv.unchanged (inv : Inv w) (memory : t.memory = w.table.memory)
    (entries : t.entries = w.table.entries) (pages : t.pages = w.table.pages) :
    Inv (w.after t) := by
  have hheld : (w.after t).held = w.held := by
    rw [World.after, memory]
    exact heldAfter_same inv.blocks.used
  obtain ⟨first, hentries, hend, hexact⟩ := inv.exact_
  constructor
  · have hblocks := inv.blocks
    rw [hheld]
    simp only [World.after, memory]
    exact hblocks
  · refine ⟨first, ?_, ?_, ?_⟩
    · simp only [World.after, memory, entries]
      exact hentries
    · simp only [World.after, memory, pages]
      exact hend
    · rw [hheld]
      simp only [World.after, pages]
      exact hexact

/-- Where the entries of one page have moved to, and what is left of the old block. -/
structure Moved (w : World) (t : Table) (first first' : Nat) : Prop where
  range : t.memory.fba = { w.table.memory.fba with bitmap := t.memory.fba.bitmap }
  old : ∀ i, w.held i = decide (first ≤ i ∧ i < first + 1)
  entries : t.entries = blockAddress w.table.memory.fba first'
  fits : first' + 2 ≤ w.table.memory.fba.fbaSizeBlocks.toNat
  clear : ∀ i < 2, bit w.table.memory.fba.bitmap (first' + i) = false
  bits : ∀ i, bit t.memory.fba.bitmap i =
    ((bit w.table.memory.fba.bitmap i || decide (first' ≤ i ∧ i < first' + 2)) &&
      !decide (i = first))

theorem Inv.moved (inv : Inv w) (one : w.table.pages = 1) (ends : EndsBelow w.table.memory.fba)
    {memory : FbaPages.Kernel}
    (taken : FbaPages.fbaAllocBlocks w.table.memory 2 = (some t.entries, memory))
    (back : t.memory = FbaPages.fbaFree memory w.table.entries) :
    ∃ first first', Moved w t first first' := by
  have hinv := inv.blocks
  have hsized : Sized w.table.memory.fba := hinv.sized
  obtain ⟨hrange, first', hentries', -, hend', hclear, hbits⟩ := fbaAllocBlocks_takes hsized taken
  obtain ⟨first, hentries, hend, hexact⟩ := inv.exact_
  rw [one] at hend hexact
  have hfirst : w.held first = true := by
    rw [hexact, decide_eq_true (by omega)]
  have hbehind : first ≠ 0 := by
    have hwithin := (hinv.within first hfirst).1
    have hblocks := hsized.blocks
    simp only at hwithin
    omega
  have hbegin : w.table.memory.fba.fbaBegin = memory.fba.fbaBegin := by rw [hrange]
  have hsize : w.table.memory.fba.fbaSizeBlocks = memory.fba.fbaSizeBlocks := by rw [hrange]
  have haddress : w.table.entries = blockAddress memory.fba first := by
    rw [hentries, blockAddress, blockAddress, hbegin]
  have hends : EndsBelow memory.fba := by
    rw [hrange]
    exact ends
  have hset : bit memory.fba.bitmap first = true := by
    have hused : bit w.table.memory.fba.bitmap first = true := hinv.used first hfirst
    rw [hbits, hused, Bool.true_or]
  obtain ⟨hfreed, -, -⟩ := fbaFree_marked (hsized.of_frame hrange) hends (by rw [← hsize]; omega)
    hbehind hset
  rw [← haddress, ← back] at hfreed
  refine ⟨first, first', ?_, hexact, hentries', hend', hclear, fun i => ?_⟩
  · rw [hfreed, hrange]
  · rw [hfreed, bit_bitmapClear, Nat.div_add_mod', hbits]
    rfl

/-- The old block is not one of the new ones. -/
theorem Moved.apart {first first' : Nat} (h : Moved w t first first') (inv : Inv w) :
    ¬ (first' ≤ first ∧ first < first' + 2) := by
  intro hin
  have hfree := h.clear (first - first') (by omega)
  have hheld : w.held first = true := by
    rw [h.old, decide_eq_true (by omega)]
  have hused : bit w.table.memory.fba.bitmap first = true := inv.blocks.used first hheld
  rw [Nat.add_sub_cancel' hin.1, hused] at hfree
  exact absurd hfree (by decide)

theorem Moved.held {first first' : Nat} (h : Moved w t first first') (inv : Inv w) (i : Nat) :
    (w.after t).held i = decide (first' ≤ i ∧ i < first' + 2) := by
  have hapart := h.apart inv
  have hclear := @Moved.clear w t first first' h
  have hcall : (w.after t).held i =
      (bit t.memory.fba.bitmap i && (w.held i || !bit w.table.memory.fba.bitmap i)) := rfl
  rw [hcall, h.bits, h.old]
  by_cases hold : i = first
  · rw [hold]
    simp [hapart]
  · have hout : decide (first ≤ i ∧ i < first + 1) = false := decide_eq_false (by omega)
    rw [hout]
    by_cases hin : first' ≤ i ∧ i < first' + 2
    · have hfree := hclear (i - first') (by omega)
      rw [Nat.add_sub_cancel' hin.1] at hfree
      simp [hfree, hold, hin]
    · cases hbit : bit w.table.memory.fba.bitmap i with
      | true => simp [hin]
      | false => simp [hin]

theorem Moved.inv {first first' : Nat} (h : Moved w t first first') (inv : Inv w)
    (pages : t.pages = 2) : Inv (w.after t) := by
  have hsize : t.memory.fba.fbaSizeBlocks = w.table.memory.fba.fbaSizeBlocks := by rw [h.range]
  have hown : t.memory.fba.bitmapSizeBlocks = w.table.memory.fba.bitmapSizeBlocks := by
    rw [h.range]
  constructor
  · refine ⟨inv.blocks.sized.of_frame h.range, ?_, ?_, ?_⟩
    · intro i hi
      simp only [World.after] at hi ⊢
      rw [hown] at hi
      have hbitmap : bit w.table.memory.fba.bitmap i = true := inv.blocks.own i hi
      have hother : i ≠ first := by
        rintro rfl
        have hwithin := (inv.blocks.within i (by simp [h.old])).1
        simp only at hwithin
        omega
      rw [h.bits, hbitmap, decide_eq_false hother]
      rfl
    · intro i hi
      exact (Bool.and_eq_true_iff.mp hi).1
    · intro i hi
      simp only [World.after, hown, hsize]
      obtain ⟨hge, hlt⟩ := of_decide_eq_true ((h.held inv i).symm.trans hi)
      have hfree := h.clear (i - first') (by omega)
      rw [Nat.add_sub_cancel' hge] at hfree
      have hfits := h.fits
      exact ⟨inv.blocks.behind_bitmap hfree, by omega⟩
  · refine ⟨first', ?_, ?_, ?_⟩
    · simp only [World.after]
      rw [h.entries, blockAddress, blockAddress, h.range]
    · simp only [World.after, pages, hsize]
      exact h.fits
    · simp only [World.after, pages]
      exact h.held inv

/-- A guarded insertion keeps the invariant. -/
theorem Inv.insert (inv : Inv w) (guard : Guard w (.insert key value))
    (h : hashTableInsert w.table key value = some (inserted, t)) : Inv (w.after t) := by
  have hsized : Sized w.table.memory.fba := inv.blocks.sized
  rcases hashTableInsert_cases h with ⟨-, hmemory, hentries, hpages⟩ |
    ⟨hneeded, hentries, hpages, hfailed⟩ | ⟨hneeded, hpages, -, memory, htaken, hback⟩
  · exact inv.unchanged hmemory hentries hpages
  · rcases guard hneeded with hrefused | ⟨hone, -, hgranted⟩
    · have hsame : FbaPages.fbaAllocBlocks w.table.memory (BitVec.ofNat 32 (w.table.pages * 2)) =
          (none, w.table.memory) := exec_refused hsized hrefused
      rw [hsame] at hfailed
      exact inv.unchanged (Prod.mk.inj hfailed).2.symm hentries hpages
    · rw [hone] at hfailed
      exact absurd (congrArg Prod.fst hfailed) hgranted
  · rcases guard hneeded with hrefused | ⟨hone, hends, -⟩
    · have hsame : FbaPages.fbaAllocBlocks w.table.memory (BitVec.ofNat 32 (w.table.pages * 2)) =
          (none, w.table.memory) := exec_refused hsized hrefused
      rw [hsame] at htaken
      exact absurd (congrArg Prod.fst htaken) (by simp)
    · rw [hone] at htaken hpages
      obtain ⟨first, first', hmoved⟩ := inv.moved hone hends htaken hback
      exact hmoved.inv inv hpages

theorem Inv.step {op : Op} (inv : Inv w) (guard : Guard w op) (step : Step w op w') : Inv w' := by
  cases step with
  | insert hinsert => exact inv.insert guard hinsert
  | @others memory hothers =>
    have hrange := hothers.range
    have hown : memory.fba.bitmapSizeBlocks = w.table.memory.fba.bitmapSizeBlocks := by rw [hrange]
    have hsize : memory.fba.fbaSizeBlocks = w.table.memory.fba.fbaSizeBlocks := by rw [hrange]
    have hbegin : memory.fba.fbaBegin = w.table.memory.fba.fbaBegin := by rw [hrange]
    obtain ⟨first, hentries, hend, hexact⟩ := inv.exact_
    constructor
    · refine ⟨inv.blocks.sized.of_frame hrange, hothers.own, hothers.held, fun i hi => ?_⟩
      simp only [hown, hsize]
      exact inv.blocks.within i hi
    · refine ⟨first, ?_, ?_, hexact⟩
      · simp only [blockAddress, hbegin]
        exact hentries
      · simp only [hsize]
        exact hend

/-- A block that is held and is none of those of the entries. -/
theorem not_exact {first n i : Nat} (sized : Sized w.table.memory.fba)
    (range : t.memory.fba = { w.table.memory.fba with bitmap := t.memory.fba.bitmap })
    (entries : t.entries = blockAddress w.table.memory.fba first) (pages : t.pages = n)
    (some : 0 < n) (fits : first + n ≤ w.table.memory.fba.fbaSizeBlocks.toNat)
    (marked : bit t.memory.fba.bitmap i = true)
    (held : w.held i = true ∨ bit w.table.memory.fba.bitmap i = false)
    (out : ¬ (first ≤ i ∧ i < first + n)) : ¬ Exact (w.after t) := by
  rintro ⟨first', hentries, hend, hexact⟩
  have hsize : t.memory.fba.fbaSizeBlocks = w.table.memory.fba.fbaSizeBlocks := by rw [range]
  have hbegin : t.memory.fba.fbaBegin = w.table.memory.fba.fbaBegin := by rw [range]
  simp only [World.after, pages, hsize] at hentries hend
  have hsame : first' = first := by
    apply blockAddress_inj sized (by omega) (by omega)
    rw [blockAddress, hbegin] at hentries
    exact hentries.symm.trans entries
  have hheld : (w.after t).held i = true := by
    have hcall : (w.after t).held i =
        (bit t.memory.fba.bitmap i && (w.held i || !bit w.table.memory.fba.bitmap i)) := rfl
    rcases held with hheld | hclear
    · rw [hcall, marked, hheld]
      rfl
    · rw [hcall, marked, hclear]
      simp
  rw [hexact i] at hheld
  simp only [World.after, pages, hsame] at hheld
  exact out (of_decide_eq_true hheld)

/-- Only an array of one block is given back whole, and only in a range that ends below the last
address. -/
theorem Inv.left_marked (inv : Inv w) (pos : 0 < w.table.pages) {memory : FbaPages.Kernel}
    (taken : FbaPages.fbaAllocBlocks w.table.memory (BitVec.ofNat 32 (w.table.pages * 2)) =
      (some t.entries, memory))
    (back : t.memory = FbaPages.fbaFree memory w.table.entries)
    (other : ¬ (w.table.pages = 1 ∧ EndsBelow w.table.memory.fba ∧
      (FbaPages.fbaAllocBlocks w.table.memory 2).1 ≠ none)) :
    ∃ i, w.held i = true ∧ bit t.memory.fba.bitmap i = true := by
  have hsized : Sized w.table.memory.fba := inv.blocks.sized
  obtain ⟨hrange, first', -, -, -, -, hbits⟩ := fbaAllocBlocks_takes hsized taken
  obtain ⟨first, hentries, hend, hexact⟩ := inv.exact_
  have hset : ∀ i, w.held i = true → bit memory.fba.bitmap i = true := by
    intro i hheld
    have hused : bit w.table.memory.fba.bitmap i = true := inv.blocks.used i hheld
    rw [hbits, hused, Bool.true_or]
  by_cases hone : w.table.pages = 1
  · have hwraps : ¬ EndsBelow memory.fba := by
      rw [hrange]
      intro hends
      rw [hone] at taken
      apply other
      refine ⟨hone, hends, ?_⟩
      have hanswer : FbaPages.fbaAllocBlocks w.table.memory 2 = (some t.entries, memory) := taken
      rw [hanswer]
      exact Option.some_ne_none _
    have hheld : w.held first = true := by
      rw [hexact, decide_eq_true (by omega)]
    refine ⟨first, hheld, ?_⟩
    rw [back, fbaFree_wrapped (hsized.of_frame hrange) hwraps]
    exact hset first hheld
  · have hheld : w.held (first + 1) = true := by
      rw [hexact, decide_eq_true (by omega)]
    have hbegin : w.table.memory.fba.fbaBegin = memory.fba.fbaBegin := by rw [hrange]
    have hsize : w.table.memory.fba.fbaSizeBlocks = memory.fba.fbaSizeBlocks := by rw [hrange]
    refine ⟨first + 1, hheld, ?_⟩
    rw [back, fbaFree_refines, hentries, blockAddress, hbegin]
    rw [fbaFree_others (hsized.of_frame hrange) (by rw [← hsize]; omega) (by omega)]
    exact hset (first + 1) hheld

/-- An insertion after which the blocks are right was a guarded one. -/
theorem Inv.guard (inv : Inv w) (h : hashTableInsert w.table key value = some (inserted, t))
    (exact_ : Exact (w.after t)) : Guard w (.insert key value) := by
  have hsized : Sized w.table.memory.fba := inv.blocks.sized
  obtain ⟨first, hentries, hend, hexact⟩ := inv.exact_
  intro hneeded
  by_contra hguard
  obtain ⟨hroom, hdoubled⟩ := not_or.mp hguard
  have hpages : 0 < w.table.pages := by
    apply Nat.pos_of_ne_zero
    intro hzero
    apply hroom
    rw [hzero]
    exact Or.inl rfl
  rcases hashTableInsert_cases h with ⟨hnot, -⟩ | ⟨-, hentries', hpages', hfailed⟩ |
    ⟨-, hpages', hcount, memory, htaken, hback⟩
  · exact hnot hneeded
  · -- the request has marked a block of an array that nobody got
    have hgives := fbaAllocBlocksAligned_gives hsized (BitVec.ofNat 32 (w.table.pages * 2)) 1
    have hrun : FbaPages.fbaAllocBlocksAligned w.table.memory
        (BitVec.ofNat 32 (w.table.pages * 2)) 1 = (none, t.memory) := hfailed
    rw [hrun] at hgives
    have hmarks := exec_marks hsized hroom
    have hexec : (Request.blocks (BitVec.ofNat 32 (w.table.pages * 2))).exec w.table.memory =
        (none, t.memory) := hfailed
    rw [hexec] at hmarks
    obtain ⟨i, hi, hclear, hset⟩ := hmarks
    have hout : ¬ (first ≤ i ∧ i < first + w.table.pages) := by
      intro hin
      have hused : bit w.table.memory.fba.bitmap i = true := by
        apply inv.blocks.used i
        simp only [hexact, hin, and_self, decide_true]
      rw [hused] at hclear
      exact absurd hclear (by decide)
    exact not_exact hsized hgives.frame (hentries'.trans hentries) hpages' hpages hend hset
      (Or.inr hclear) hout exact_
  · -- the array has moved, and a block of the old one is still marked
    obtain ⟨hrange, first', hmoved, -, hend', hclear, hbits⟩ := fbaAllocBlocks_takes hsized htaken
    have hnew : (BitVec.ofNat 32 (w.table.pages * 2)).toNat = w.table.pages * 2 := by
      have hle : (BitVec.ofNat 32 (w.table.pages * 2)).toNat ≤ w.table.pages * 2 := by
        rw [BitVec.toNat_ofNat]
        exact Nat.mod_le _ _
      omega
    rw [hnew] at hend' hclear hbits
    have hout : ∀ i, w.held i = true → ¬ (first' ≤ i ∧ i < first' + w.table.pages * 2) := by
      intro i hheld hin
      have hfree := hclear (i - first') (by omega)
      have hused : bit w.table.memory.fba.bitmap i = true := inv.blocks.used i hheld
      rw [Nat.add_sub_cancel' hin.1, hused] at hfree
      exact absurd hfree (by decide)
    obtain ⟨i, hheld, hset⟩ := inv.left_marked hpages htaken hback hdoubled
    have hframe : t.memory.fba = { w.table.memory.fba with bitmap := t.memory.fba.bitmap } := by
      rw [hback, fbaFree_refines, FbaAlloc.fbaFree_frame, hrange]
    exact not_exact hsized hframe hmoved hpages' (by omega) hend' hset (Or.inl hheld)
      (hout i hheld) exact_

/-- A guarded insertion that moves the entries has given the old blocks back. -/
theorem Inv.old_free (inv : Inv w) (guard : Guard w (.insert key value))
    (h : hashTableInsert w.table key value = some (inserted, t))
    (moved : t.entries ≠ w.table.entries) {i : Nat} (held : w.held i = true) :
    bit t.memory.fba.bitmap i = false := by
  have hsized : Sized w.table.memory.fba := inv.blocks.sized
  rcases hashTableInsert_cases h with ⟨-, -, hentries, -⟩ | ⟨-, hentries, -⟩ |
    ⟨hneeded, hpages, -, memory, htaken, hback⟩
  · exact absurd hentries moved
  · exact absurd hentries moved
  · rcases guard hneeded with hrefused | ⟨hone, hends, -⟩
    · have hsame : FbaPages.fbaAllocBlocks w.table.memory (BitVec.ofNat 32 (w.table.pages * 2)) =
          (none, w.table.memory) := exec_refused hsized hrefused
      rw [hsame] at htaken
      exact absurd (congrArg Prod.fst htaken) (by simp)
    · rw [hone] at htaken
      obtain ⟨first, first', hmoved⟩ := inv.moved hone hends htaken hback
      rw [hmoved.old] at held
      have hin := of_decide_eq_true held
      have hsame : i = first := by omega
      rw [hmoved.bits, decide_eq_true hsame]
      simp

theorem reachable_inv (run : Reachable (system.restrict Guard) w) : Inv w := by
  apply Reachable.invariant Inv _ _ run
  · intro w hcreated
    exact hcreated.inv
  · rintro w op w' inv ⟨hguard, hstep⟩
    exact inv.step hguard hstep

/-- In a run whose insertions are all guarded the table holds exactly the blocks of its entries.
The next insertion leaves it so exactly when it is guarded too, and has then given the old blocks
back if it has moved the entries. -/
theorem table_holds_its_entries (run : Reachable (system.restrict Guard) w) :
    Exact w ∧ ∀ key value inserted t, hashTableInsert w.table key value = some (inserted, t) →
      (Exact (w.after t) ↔ Guard w (.insert key value)) ∧
      (Guard w (.insert key value) → t.entries ≠ w.table.entries →
        ∀ i, w.held i = true → bit t.memory.fba.bitmap i = false) := by
  have inv := reachable_inv run
  refine ⟨inv.exact_, fun key value inserted t h => ⟨⟨fun hexact => ?_, fun hguard => ?_⟩, ?_⟩⟩
  · exact inv.guard h hexact
  · exact (inv.insert hguard h).exact_
  · intro hguard hmoved i hheld
    exact inv.old_free hguard h hmoved hheld

end Steps

/-! ## A table that fills up -/

/-- Both allocators after `fba_init` and a first slab block. -/
def slabs (fbaBegin fbaSizeBlocks : BitVec 64) : SlabBlocks.Kernel :=
  (SlabBlocks.Kernel.allocBlock
    { slab := SlabAlloc.boot
      fba := ⟨(fbaInit uninitialised fbaBegin fbaSizeBlocks (fun _ => 0) fun _ => 0).2,
        fun _ => false⟩
      carved := fun _ => 0 } fun _ => 0).2

/-- A slab with room, 64 free pages and empty page tables. -/
def booted (fbaBegin fbaSizeBlocks : BitVec 64) : TableMemory.Kernel where
  memory := ⟨(slabs fbaBegin fbaSizeBlocks).fba.fba,
    ⟨fun _ _ => 0, ⟨0, 0, [⟨0x10000, 64⟩]⟩⟩, 0x1000⟩
  slab := (slabs fbaBegin fbaSizeBlocks).slab

/-- A range that `fba_init` accepts, with a base that is aligned to the size of a slab. -/
def Accepted (fbaBegin fbaSizeBlocks : BitVec 64) : Prop :=
  fbaBegin.toNat + fbaSizeBlocks.toNat * 0x1000 ≤ 2 ^ 64 ∧ fbaBegin &&& 0x3fff = 0 ∧
    (fbaInit uninitialised fbaBegin fbaSizeBlocks (fun _ => 0) fun _ => 0).1 = true ∧
    (fbaInit uninitialised fbaBegin fbaSizeBlocks (fun _ => 0) fun _ => 0).2.fbaBegin = fbaBegin

theorem booted_reached {fbaBegin fbaSizeBlocks : BitVec 64}
    (accepted : Accepted fbaBegin fbaSizeBlocks) :
    TableMemory.Reached (booted fbaBegin fbaSizeBlocks) := by
  obtain ⟨hfits, haligned, hinit, hbegin⟩ := accepted
  refine ⟨slabs fbaBegin fbaSizeBlocks, ?_, rfl, rfl⟩
  apply SlabBlocks.Linked.alloc
  apply SlabBlocks.reachable_linked
  apply Reachable.start
  refine ⟨⟨rfl, rfl, rfl, rfl⟩, ⟨?_, fun _ => rfl⟩, ?_⟩
  · exact ⟨fbaBegin, fbaSizeBlocks, fun _ => 0, fun _ => 0, hfits, Prod.ext hinit rfl⟩
  · rw [hbegin]
    exact haligned

/-- What there is for a table of one page to start with. -/
def started (k : TableMemory.Kernel) (entries : BitVec 64) : World where
  table :=
    { memory := (FbaPages.fbaAllocBlocks k.memory 1).2
      entries := entries
      table := ⟨entriesPerPage, 0, fun _ => emptyEntry⟩ }
  held := heldAfter (fun _ => false) k.memory.fba (FbaPages.fbaAllocBlocks k.memory 1).2.fba

/-- The first partial slab has blocks for the table and the lock. -/
def Roomy (k : TableMemory.Kernel) (slab : BitVec 64) : Prop :=
  k.slab.state.partialHead = some slab ∧
    SlabAlloc.freeBlock (k.slab.state.mem slab) = some 2 ∧
    (SlabAlloc.took k.slab slab).state.partialHead = some slab ∧
    SlabAlloc.freeBlock ((SlabAlloc.took k.slab slab).state.mem slab) = some 3

theorem started_created {k : TableMemory.Kernel} {slab entries : BitVec 64}
    (reached : TableMemory.Reached k) (roomy : Roomy k slab)
    (answer : (FbaPages.fbaAllocBlocks k.memory 1).1 = some entries) :
    Created (started k entries) := by
  obtain ⟨hhead, hfree, hhead', hfree'⟩ := roomy
  have htable := TableMemory.slabAllocBlock_taken hhead hfree
  have htaken : FbaPages.fbaAllocBlocks k.memory ((1 : BitVec 64).setWidth 32) =
      (some entries, (started k entries).table.memory) := Prod.ext answer rfl
  have hlock := @TableMemory.slabAllocBlock_taken
    ⟨(started k entries).table.memory, SlabAlloc.took k.slab slab⟩ _ _ hhead' hfree'
  have hcreate := @TableMemory.hashTableCreate_answered _ _ 1 0 _ _ _ _ _ htable htaken hlock
    (by decide)
  exact ⟨0, k, 1, _, _, _, _, _, reached, hcreate, htable, htaken, rfl⟩

/-- Insertions of one key after the other fill a new table without a resize. -/
theorem fill {w : World} (run : Reachable (system.restrict Guard) w)
    {m : BitVec 64 → Option (BitVec 64)} (inv : HashTables.Inv w.table.table m)
    (absent : ∀ key, w.table.table.size < key.toNat → m key = none) (turns : Nat)
    (room : w.table.table.size + turns = w.table.table.capacity * 3 / 4) :
    ∃ w', Reachable (system.restrict Guard) w' ∧ w'.table.memory = w.table.memory ∧
      w'.table.pages = w.table.pages ∧ resizeNeeded w'.table.table = true := by
  induction turns generalizing w m with
  | zero =>
    refine ⟨w, run, rfl, rfl, ?_⟩
    rw [resizeNeeded, decide_eq_true]
    omega
  | succ turns ih =>
    obtain ⟨-, ht, hinsert, hsize, hcap, m', hinv, habsent⟩ := insert_next 0 inv absent (by omega)
    have hroom : ¬ resizeNeeded w.table.table = true := by
      rw [resizeNeeded, decide_eq_true_iff]
      omega
    have hcall : hashTableInsert w.table (BitVec.ofNat 64 (w.table.table.size + 1)) 0 =
        some (true, { w.table with table := ht }) := by
      rw [hashTableInsert, if_neg hroom, Table.insertEntry, hinsert]
    have hguard : Guard w (.insert (BitVec.ofNat 64 (w.table.table.size + 1)) 0) :=
      fun hneeded => absurd hneeded hroom
    have hleft : ht.size + turns = ht.capacity * 3 / 4 := by
      rw [hsize, hcap]
      omega
    obtain ⟨w', hrun, hmemory, hpages', hneeded⟩ :=
      ih (run.next ⟨hguard, Step.insert hcall⟩) hinv habsent hleft
    refine ⟨w', hrun, hmemory, hpages'.trans ?_, hneeded⟩
    simp only [World.after, Table.pages, hcap]

/-- A table of one page that is full, with the memory it was created with. -/
theorem full_table {k : TableMemory.Kernel} {slab entries : BitVec 64} {memory : FbaPages.Kernel}
    (reached : TableMemory.Reached k) (roomy : Roomy k slab)
    (taken : FbaPages.fbaAllocBlocks k.memory 1 = (some entries, memory)) :
    ∃ w, Reachable (system.restrict Guard) w ∧ w.table.memory = memory ∧ w.table.pages = 1 ∧
      resizeNeeded w.table.table = true := by
  have hcreated := started_created reached roomy (congrArg Prod.fst taken)
  have hfresh : HashTables.hashTableCreate true true true 1 =
      some (started k entries).table.table := rfl
  obtain ⟨w, hrun, hmemory, hpages, hneeded⟩ := fill (.start hcreated) (create_inv hfresh)
    (fun _ _ => rfl) _ (Nat.zero_add _)
  refine ⟨w, hrun, hmemory.trans ?_, hpages.trans ?_, hneeded⟩
  · rw [started, taken]
  · exact @Nat.div_self entriesPerPage (by decide)

/-- A full table of one page whose request for two blocks is answered. -/
theorem insert_answered {t : Table} {entries : BitVec 64} {memory : FbaPages.Kernel}
    (needed : resizeNeeded t.table = true) (one : t.pages = 1)
    (answer : FbaPages.fbaAllocBlocks t.memory 2 = (some entries, memory)) (key value : BitVec 64) :
    ∃ inserted t', hashTableInsert t key value = some (inserted, t') ∧ t'.pages = 2 := by
  have hcount : BitVec.ofNat 32 (t.pages * 2) = 2 := by
    rw [one]
    rfl
  have hroom : t.pages * 2 * entriesPerPage ≤ (2 : BitVec 32).toNat * entriesPerPage := by
    rw [one]
    decide
  obtain ⟨inserted, t', hinsert⟩ : ∃ inserted t',
      hashTableInsert t key value = some (inserted, t') := by
    rw [hashTableInsert, if_pos needed, hashTableResize]
    simp only [hcount, answer, if_pos hroom]
    exact ⟨_, _, rfl⟩
  refine ⟨inserted, t', hinsert, ?_⟩
  rcases hashTableInsert_cases hinsert with ⟨hnot, -⟩ | ⟨-, -, -, hfailed⟩ | ⟨-, hpages, -⟩
  · exact absurd needed hnot
  · rw [hcount, answer] at hfailed
    exact absurd (congrArg Prod.fst hfailed) (by simp)
  · rw [hpages, one]

/-- A table of one page doubles and keeps the two blocks of its new entries. -/
theorem table_holds_its_entries_doubled : ∃ w t, w.table.pages = 1 ∧ t.pages = 2 ∧
    (∃ inserted, hashTableInsert w.table 1000 0 = some (inserted, t)) ∧ Exact w ∧
    Exact (w.after t) := by
  have haccepted : Accepted 0x4000 0x8000 := by
    refine ⟨?_, ?_, ?_, ?_⟩ <;> decide +kernel
  have hroomy : Roomy (booted 0x4000 0x8000) 0x8000 := by
    refine ⟨?_, ?_, ?_, ?_⟩ <;> decide +kernel
  have hends : EndsBelow (FbaPages.fbaAllocBlocks (booted 0x4000 0x8000).memory 1).2.fba := by
    show _ < _
    decide +kernel
  have hgranted : (FbaPages.fbaAllocBlocks
      (FbaPages.fbaAllocBlocks (booted 0x4000 0x8000).memory 1).2 2).1 = some 0x6000 := by
    decide +kernel
  obtain ⟨memory, htaken⟩ : ∃ memory, FbaPages.fbaAllocBlocks (booted 0x4000 0x8000).memory 1 =
      (some 0x5000, memory) := ⟨_, Prod.ext (by decide +kernel) rfl⟩
  rw [htaken] at hgranted hends
  obtain ⟨w, hrun, hmemory, hone, hneeded⟩ := full_table (booted_reached haccepted) hroomy htaken
  obtain ⟨memory', hrequest⟩ : ∃ memory', FbaPages.fbaAllocBlocks w.table.memory 2 =
      (some 0x6000, memory') := by
    rw [hmemory]
    exact ⟨_, Prod.ext hgranted rfl⟩
  obtain ⟨inserted, t, hinsert, htwo⟩ := insert_answered hneeded hone hrequest 1000 0
  have hguard : Guard w (.insert 1000 0) := by
    refine fun _ => Or.inr ⟨hone, ?_, ?_⟩
    · rw [hmemory]
      exact hends
    · rw [hrequest]
      exact Option.some_ne_none _
  obtain ⟨hexact, hnext⟩ := table_holds_its_entries hrun
  exact ⟨w, t, hone, htwo, ⟨inserted, hinsert⟩, hexact,
    (hnext 1000 0 inserted t hinsert).1.mpr hguard⟩

/-- The kernel's range ends at the last address, and the block of a table of one page stays in use
when the table has moved. -/
theorem old_block_stays_in_use : ¬ ∀ w, Reachable system w → Exact w := by
  intro h
  have haccepted : Accepted 0xffffffffc0000000 0x40000 := by
    refine ⟨?_, ?_, ?_, ?_⟩ <;> decide +kernel
  have hroomy : Roomy (booted 0xffffffffc0000000 0x40000) 0xffffffffc0008000 := by
    refine ⟨?_, ?_, ?_, ?_⟩ <;> decide +kernel
  have hwraps : ¬ EndsBelow
      (FbaPages.fbaAllocBlocks (booted 0xffffffffc0000000 0x40000).memory 1).2.fba := by
    show ¬ _ < _
    decide +kernel
  have hgranted : (FbaPages.fbaAllocBlocks
      (FbaPages.fbaAllocBlocks (booted 0xffffffffc0000000 0x40000).memory 1).2 2).1 =
        some 0xffffffffc000d000 := by
    decide +kernel
  obtain ⟨memory, htaken⟩ : ∃ memory,
      FbaPages.fbaAllocBlocks (booted 0xffffffffc0000000 0x40000).memory 1 =
        (some 0xffffffffc000c000, memory) := ⟨_, Prod.ext (by decide +kernel) rfl⟩
  rw [htaken] at hgranted hwraps
  obtain ⟨w, hrun, hmemory, hone, hneeded⟩ := full_table (booted_reached haccepted) hroomy htaken
  obtain ⟨memory', hrequest⟩ : ∃ memory', FbaPages.fbaAllocBlocks w.table.memory 2 =
      (some 0xffffffffc000d000, memory') := by
    rw [hmemory]
    exact ⟨_, Prod.ext hgranted rfl⟩
  obtain ⟨inserted, t, hinsert, -⟩ := insert_answered hneeded hone hrequest 1000 0
  have inv := reachable_inv hrun
  have hexact := h _ (hrun.of_restrict.next (Step.insert hinsert))
  rcases inv.guard hinsert hexact hneeded with hrefused | ⟨-, hends, -⟩
  · have hcount : BitVec.ofNat 32 (w.table.pages * 2) = 2 := by
      rw [hone]
      rfl
    rw [hcount] at hrefused
    have hsame : FbaPages.fbaAllocBlocks w.table.memory 2 = (none, w.table.memory) :=
      exec_refused inv.blocks.sized hrefused
    rw [hsame] at hrequest
    exact absurd (congrArg Prod.fst hrequest) (by simp)
  · rw [hmemory] at hends
    exact hwraps hends

end TableGrowth
