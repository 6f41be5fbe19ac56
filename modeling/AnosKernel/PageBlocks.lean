import AnosKernel.RefCountMap

/-!
# The blocks of owned pages

`kernel/process/memory.c` with its blocks: the pages of a process are entries in blocks of 4096
bytes, linked through their `next` fields, behind a block that holds the head of the list. A new
entry goes into the first block with room, and the last entry of a block into the place of one that
is removed. What the allocators answer is an argument, and walks along the blocks take fuel; the
answer `none` is for a walk that does not end.
-/

namespace PageBlocks

open Chains Runs

structure ProcessPageEntry where
  region : BitVec 64
  addr : BitVec 64
  deriving DecidableEq, Repr

structure ProcessPageBlock where
  next : Option (BitVec 64)
  count : Nat
  pages : Nat → ProcessPageEntry

def pagesPerBlock : Nat := (4096 - 8) / 16

/-- The memory of a process: `pages` of its `meminfo`, the head of the list in that block, and the
blocks. `allocated`, `released` and `freed` are history: the pages that `page_alloc` gave to the
process, and what `page_free` and `fba_free` were called for. -/
structure World where
  pages : Option (BitVec 64)
  head : Option (BitVec 64)
  heap : BitVec 64 → ProcessPageBlock
  refs : RefCountMaps.World
  allocated : List ProcessPageEntry
  released : List ProcessPageEntry
  freed : List (BitVec 64)

/-- What `fba_alloc_block` answers for the head of the list and for a block of it, and what the
allocations for the reference counts do. -/
structure Answers where
  header : Option (BitVec 64)
  block : Option (BitVec 64)
  counts : RefCountMaps.Allocs

def pageFree (w : World) (region addr : BitVec 64) : World :=
  { w with released := w.released ++ [⟨region, addr⟩] }

def fbaFree (w : World) (block : BitVec 64) : World := { w with freed := w.freed ++ [block] }

/-- The list of a process that has none yet. -/
def withPages (w : World) (header : Option (BitVec 64)) : Option World :=
  match w.pages with
  | some _ => some w
  | none => header.map fun page => { w with pages := some page, head := none }

/-- The count of a shared page. -/
def countShared (fuel : Nat) (w : World) (physAddr : BitVec 64) (shared : Bool)
    (counts : RefCountMaps.Allocs) : Option (Bool × World) :=
  if shared then
    (RefCountMaps.refcountMapIncrement fuel w.refs physAddr counts).map fun (count, refs) =>
      (count ≠ 0, { w with refs := refs })
  else some (true, w)

/-- The first block with room. -/
def findRoom (heap : BitVec 64 → ProcessPageBlock) : Nat → Option (BitVec 64) →
    Option (Option (BitVec 64))
  | _, none => some none
  | 0, some _ => none
  | fuel + 1, some blk =>
    if (heap blk).count ≥ pagesPerBlock then findRoom heap fuel (heap blk).next else some (some blk)

/-- `blk->pages[blk->count++] = entry`. -/
def addEntry (block : ProcessPageBlock) (entry : ProcessPageEntry) : ProcessPageBlock :=
  { block with
    count := block.count + 1
    pages := Function.update block.pages block.count entry }

/-- The entry goes into the block with room, or into a new block at the head of the list. -/
def addToBlock (w : World) (entry : ProcessPageEntry) (block : Option (BitVec 64)) :
    Option (BitVec 64) → Bool × World
  | some blk => (true, { w with heap := Function.update w.heap blk (addEntry (w.heap blk) entry) })
  | none =>
    match block with
    | none => (false, w)
    | some blk =>
      (true, { w with
        head := some blk
        heap := Function.update w.heap blk
          (addEntry { w.heap blk with count := 0, next := w.head } entry) })

/-- `proc` is whether there is a process. -/
def processAddOwnedPage (fuel : Nat) (proc : Bool) (w : World) (region physAddr : BitVec 64)
    (shared : Bool) (answers : Answers) : Option (Bool × World) :=
  if !proc then some (false, w)
  else
    match withPages w answers.header with
    | none => some (false, w)
    | some w =>
      (countShared fuel w physAddr shared answers.counts).bind fun (counted, w) =>
        if !counted then some (false, w)
        else (findRoom w.heap fuel w.head).map (addToBlock w ⟨region, physAddr⟩ answers.block)

/-- The place of an address in a block. -/
def findPage (block : ProcessPageBlock) (physAddr : BitVec 64) : Option Nat :=
  (List.range block.count).find? fun i => decide ((block.pages i).addr = physAddr)

/-- The first block with an address, behind `prev`, and the place. -/
def findOwned (heap : BitVec 64 → ProcessPageBlock) (physAddr : BitVec 64) : Nat →
    Option (BitVec 64) → Option (BitVec 64) →
      Option (Option (Option (BitVec 64) × BitVec 64 × Nat))
  | _, _, none => some none
  | 0, _, some _ => none
  | fuel + 1, prev, some blk =>
    match findPage (heap blk) physAddr with
    | some i => some (some (prev, blk, i))
    | none => findOwned heap physAddr fuel (some blk) (heap blk).next

/-- A reference to a page is dropped, and the page freed with the last one. -/
def dropPage (fuel : Nat) (w : World) (region physAddr : BitVec 64) : Option World :=
  (RefCountMaps.refcountMapDecrement fuel w.refs physAddr).map fun (prevRef, refs) =>
    let w := { w with refs := refs }
    if prevRef ≤ 1 then pageFree w region physAddr else w

/-- `blk->pages[i] = blk->pages[--blk->count]`. -/
def removeEntry (block : ProcessPageBlock) (i : Nat) : ProcessPageBlock :=
  { block with
    count := block.count - 1
    pages := Function.update block.pages i (block.pages (block.count - 1)) }

/-- An empty block behind `prev` is taken out of the list. -/
def unlinkBlock (w : World) (prev : Option (BitVec 64)) (blk : BitVec 64) : World :=
  fbaFree
    (match prev with
    | some p =>
      { w with heap := Function.update w.heap p { w.heap p with next := (w.heap blk).next } }
    | none => { w with head := (w.heap blk).next })
    blk

def processRemoveOwnedPage (fuel : Nat) (proc : Bool) (w : World) (physAddr : BitVec 64) :
    Option (Bool × World) :=
  if !proc || w.pages.isNone then some (false, w)
  else
    (findOwned w.heap physAddr fuel none w.head).bind fun found =>
      match found with
      | none => some (false, w)
      | some (prev, blk, i) =>
        (dropPage fuel w ((w.heap blk).pages i).region physAddr).map fun w =>
          let w := { w with heap := Function.update w.heap blk (removeEntry (w.heap blk) i) }
          (true, if (w.heap blk).count = 0 then unlinkBlock w prev blk else w)

/-- The pages of a block. -/
def releaseBlock (fuel : Nat) (w : World) (blk : BitVec 64) : Option World :=
  (List.range (w.heap blk).count).foldlM
    (fun w i => dropPage fuel w ((w.heap blk).pages i).region ((w.heap blk).pages i).addr) w

def releaseBlocks (fuel : Nat) : Nat → Option (BitVec 64) → World → Option World
  | _, none, w => some w
  | 0, some _, _ => none
  | turns + 1, some blk, w =>
    (releaseBlock fuel w blk).bind fun w =>
      releaseBlocks fuel turns (w.heap blk).next (fbaFree w blk)

def processReleaseOwnedPages (fuel : Nat) (proc : Bool) (w : World) : Option World :=
  if !proc then some w
  else
    match w.pages with
    | none => some w
    | some page =>
      (releaseBlocks fuel fuel w.head w).map fun w => { fbaFree w page with pages := none }

/-- `page` is what `page_alloc` answers. -/
def processPageAlloc (fuel : Nat) (proc : Bool) (w : World) (region page : BitVec 64)
    (answers : Answers) : Option (BitVec 64 × World) :=
  if !proc then some (0xff, w)
  else if page &&& 0xff ≠ 0 then some (page, w)
  else
    let w := { w with allocated := w.allocated ++ [⟨region, page⟩] }
    (processAddOwnedPage fuel true w region page false answers).map fun (added, w) =>
      if added then (page, w) else (0xff, pageFree w region page)

def processPageFree (fuel : Nat) (proc : Bool) (w : World) (physAddr : BitVec 64) :
    Option (Bool × World) :=
  if !proc then some (false, w) else processRemoveOwnedPage fuel proc w physAddr

/-! ## The list of a process -/

def link (heap : BitVec 64 → ProcessPageBlock) (blk : BitVec 64) : Option (BitVec 64) :=
  (heap blk).next

def entries (block : ProcessPageBlock) : List ProcessPageEntry :=
  (List.range block.count).map block.pages

/-- The entries of the blocks, one block after the other. -/
def owned (heap : BitVec 64 → ProcessPageBlock) (blocks : List (BitVec 64)) :
    List ProcessPageEntry := blocks.flatMap fun blk => entries (heap blk)

/-- The blocks of the list. -/
def Blocks (w : World) (blocks : List (BitVec 64)) : Prop :=
  match w.pages with
  | none => blocks = []
  | some _ => Chain (link w.heap) w.head blocks

/-- The blocks and their entries and the count of the page are what they were. -/
structure Unchanged (w w' : World) (physAddr : BitVec 64) : Prop where
  blocks : ∀ blocks, Blocks w blocks → Blocks w' blocks
  entries : ∀ blocks, Blocks w blocks → owned w'.heap blocks = owned w.heap blocks
  count : w'.refs.counts physAddr = w.refs.counts physAddr

/-- There is an entry for the count of a page, or one can be made. -/
def CountsUp (refs : RefCountMaps.World) (physAddr : BitVec 64) (allocs : RefCountMaps.Allocs) :
    Prop :=
  refs.counts physAddr ≠ 0 ∨ allocs.entry.isSome ∧ (4 * refs.map.numEntries ≥ 3 * refs.map.size →
    allocs.header = true ∧
      (RefCountMaps.allocateBucketArray allocs.memory (refs.map.size * 2)).isSome)

/-- A shared page is counted, and then the count is zero in 32 bits, or a new block is needed and
there is none. -/
def Leaks (w : World) (blocks : List (BitVec 64)) (physAddr : BitVec 64) (shared : Bool)
    (answers : Answers) : Prop :=
  shared = true ∧ (w.pages = none → answers.header.isSome) ∧
    CountsUp w.refs physAddr answers.counts ∧
    (w.refs.counts physAddr + 1 = 0x100000000 ∨
      answers.block = none ∧ ∀ blk ∈ blocks, pagesPerBlock ≤ (w.heap blk).count)

section Adding

variable {w w' : World} {blocks : List (BitVec 64)} {fuel : Nat} {physAddr : BitVec 64}
  {answers : Answers}

theorem Unchanged.refl : Unchanged w w physAddr := ⟨fun _ h => h, fun _ _ => rfl, rfl⟩

/-- An increment counts the page, or it answers zero and counts nothing. -/
theorem increment_cases {refs : RefCountMaps.World} {queue : Nat → List (BitVec 64)}
    (inv : RefCountMaps.Inv refs queue) (enough : refs.map.numEntries ≤ fuel) (physAddr : BitVec 64)
    (allocs : RefCountMaps.Allocs) :
    ∃ n refs', RefCountMaps.refcountMapIncrement fuel refs physAddr allocs = some (n, refs') ∧
      (CountsUp refs physAddr allocs ∧ n = BitVec.ofNat 32 (refs.counts physAddr + 1) ∧
          refs'.counts physAddr = refs.counts physAddr + 1 ∨
        ¬ CountsUp refs physAddr allocs ∧ n = 0 ∧ refs'.counts = refs.counts) := by
  obtain ⟨first, hfirst, ⟨hnone, habsent⟩ | ⟨before, entry, after, p, hqueue, haddr, hfound, -⟩⟩ :=
    inv.search physAddr enough
  · have hadds : ∀ (map : RefCountMaps.RefCountMap) (heap : BitVec 64 → RefCountMaps.Entry)
        (queue' : Nat → List (BitVec 64)) (new : BitVec 64),
        RefCountMaps.Inv { refs with map := map, heap := heap } queue' →
          ∃ refs', RefCountMaps.addEntry { refs with map := map, heap := heap } physAddr (some new) =
            some (1, refs') ∧ refs'.counts physAddr = refs.counts physAddr + 1 := by
      intro map heap queue' new hinv
      have hidx := RefCountMaps.hashAddress_lt hinv.layout.pos physAddr
      have hcall := RefCountMaps.addEntry.eq_2 { refs with map := map, heap := heap } physAddr new
      rw [RefCountMaps.getBucket_eq (hinv.layout.size ▸ hidx), Option.map_some] at hcall
      exact ⟨_, hcall, Function.update_self _ _ _⟩
    have hone : (1 : BitVec 32) = BitVec.ofNat 32 (refs.counts physAddr + 1) := by
      rw [habsent]
      rfl
    rw [RefCountMaps.refcountMapIncrement, hfirst, Option.bind_some, hnone, Option.bind_some]
    dsimp only
    by_cases hload : 4 * refs.map.numEntries ≥ 3 * refs.map.size
    · rw [if_pos hload]
      by_cases hgranted : allocs.header = true ∧
          (RefCountMaps.allocateBucketArray allocs.memory (refs.map.size * 2)).isSome
      · obtain ⟨newBlocks, hblocks⟩ := Option.isSome_iff_exists.mp hgranted.2
        obtain ⟨map, heap, queue', hresize, hinv⟩ :=
          inv.resizeMap_of_blocks enough hgranted.1 hblocks
        rw [hresize, Option.bind_some]
        cases hentry : allocs.entry with
        | none =>
          refine ⟨0, _, rfl, Or.inr ⟨?_, rfl, rfl⟩⟩
          rintro (hcounted | ⟨hsome, -⟩)
          · exact hcounted habsent
          · rw [hentry] at hsome
            exact absurd hsome Bool.false_ne_true
        | some new =>
          obtain ⟨refs', hadd, hcount⟩ := hadds map heap queue' new hinv
          refine ⟨1, refs', hadd, Or.inl ⟨Or.inr ⟨?_, fun _ => hgranted⟩, hone, hcount⟩⟩
          rw [hentry]
          rfl
      · have hfails : RefCountMaps.resizeMap fuel refs.map refs.heap allocs = some none := by
          rw [RefCountMaps.resizeMap]
          by_cases hheader : allocs.header = true
          · have hblocks : RefCountMaps.allocateBucketArray allocs.memory (refs.map.size * 2) =
                none := by
              rw [← Option.not_isSome_iff_eq_none]
              exact fun hsome => hgranted ⟨hheader, hsome⟩
            rw [if_pos hheader, hblocks]
          · rw [if_neg hheader]
        rw [hfails, Option.bind_some]
        refine ⟨0, refs, rfl, Or.inr ⟨?_, rfl, rfl⟩⟩
        rintro (hcounted | ⟨-, hgrants⟩)
        · exact hcounted habsent
        · exact hgranted (hgrants hload)
    · rw [if_neg hload]
      cases hentry : allocs.entry with
      | none =>
        refine ⟨0, _, rfl, Or.inr ⟨?_, rfl, rfl⟩⟩
        rintro (hcounted | ⟨hsome, -⟩)
        · exact hcounted habsent
        · rw [hentry] at hsome
          exact absurd hsome Bool.false_ne_true
      | some new =>
        obtain ⟨refs', hadd, hcount⟩ := hadds refs.map refs.heap queue new inv
        refine ⟨1, refs', hadd,
          Or.inl ⟨Or.inr ⟨?_, fun hfull => absurd hfull hload⟩, hone, hcount⟩⟩
        rw [hentry]
        rfl
  · have hidx := RefCountMaps.hashAddress_lt inv.layout.pos physAddr
    have he : entry ∈ queue (RefCountMaps.hashAddress physAddr refs.map.size) := by
      rw [hqueue]
      simp
    have hpositive : refs.counts physAddr ≠ 0 := by
      have hpos := inv.content.positive entry (RefCountMaps.mem_entriesOf.mpr ⟨_, hidx, he⟩)
      rwa [haddr] at hpos
    have hcount : (refs.heap entry).refCount + 1 = BitVec.ofNat 64 (refs.counts physAddr + 1) := by
      rw [inv.count_eq hidx he haddr, BitVec.ofNat_add]
      rfl
    rw [RefCountMaps.refcountMapIncrement, hfirst, Option.bind_some, hfound, Option.bind_some]
    refine ⟨_, _, rfl, Or.inl ⟨Or.inl hpositive, ?_, Function.update_self _ _ _⟩⟩
    rw [hcount]
    exact BitVec.setWidth_ofNat_of_le (by decide) _

/-- The search for room meets only full blocks, or full blocks and then one with room. -/
theorem findRoom_spec {heap : BitVec 64 → ProcessPageBlock} {first : Option (BitVec 64)}
    (chain : Chain (link heap) first blocks) (enough : blocks.length ≤ fuel) :
    (findRoom heap fuel first = some none ∧ ∀ blk ∈ blocks, pagesPerBlock ≤ (heap blk).count) ∨
    ∃ before blk after, blocks = before ++ blk :: after ∧ (heap blk).count < pagesPerBlock ∧
      findRoom heap fuel first = some (some blk) := by
  induction blocks generalizing fuel first with
  | nil =>
    obtain rfl : first = none := chain
    rw [findRoom]
    exact Or.inl ⟨rfl, fun blk hblk => absurd hblk List.not_mem_nil⟩
  | cons blk blocks ih =>
    obtain ⟨rfl, htail⟩ := chain
    obtain ⟨fuel, rfl⟩ : ∃ n, fuel = n + 1 := ⟨fuel - 1, by simp at enough; omega⟩
    rw [findRoom]
    by_cases hroom : (heap blk).count ≥ pagesPerBlock
    · rw [if_pos hroom]
      rcases ih htail (by simpa using enough) with ⟨hnone, hfull⟩ | ⟨before, blk', after, rfl, hrest⟩
      · left
        refine ⟨hnone, fun other hother => ?_⟩
        rcases List.mem_cons.mp hother with rfl | hother
        · exact hroom
        · exact hfull other hother
      · exact Or.inr ⟨blk :: before, blk', after, rfl, hrest⟩
    · rw [if_neg hroom]
      exact Or.inr ⟨[], blk, blocks, rfl, by omega, rfl⟩

/-- The list is there, as it was. -/
theorem withPages_some (header : w.pages = none → answers.header.isSome) :
    ∃ w' page, withPages w answers.header = some w' ∧ w'.pages = some page ∧
      w' = { w with pages := w'.pages, head := w'.head } ∧
      ∀ blocks, Blocks w blocks → Blocks w' blocks := by
  rw [withPages]
  cases hpages : w.pages with
  | some page => exact ⟨w, page, rfl, hpages, rfl, fun _ h => h⟩
  | none =>
    obtain ⟨page, hpage⟩ := Option.isSome_iff_exists.mp (header hpages)
    rw [hpage]
    refine ⟨_, page, rfl, rfl, rfl, fun blocks listed => ?_⟩
    rw [Blocks, hpages] at listed
    obtain rfl : blocks = [] := listed
    change (none : Option (BitVec 64)) = none
    rfl

theorem withPages_none (header : ¬ (w.pages = none → answers.header.isSome)) :
    withPages w answers.header = none := by
  rw [Classical.not_imp, Option.not_isSome_iff_eq_none] at header
  rw [withPages, header.1, header.2]
  rfl

theorem Blocks.chain {page : BitVec 64} (listed : Blocks w blocks) (pages : w.pages = some page) :
    Chain (link w.heap) w.head blocks := by
  rwa [Blocks, pages] at listed

section Counted

variable {w₁ w₂ : World} {page region : BitVec 64} {shared : Bool}

/-- The page could not be counted. -/
theorem add_uncounted (hwith : withPages w answers.header = some w₁)
    (hcount : countShared fuel w₁ physAddr shared answers.counts = some (false, w₂)) :
    processAddOwnedPage fuel true w region physAddr shared answers = some (false, w₂) := by
  simp only [processAddOwnedPage, hwith, hcount]
  rfl

/-- The page is counted or need not be. -/
theorem add_counted (hwith : withPages w answers.header = some w₁) (listed : Blocks w₁ blocks)
    (pages : w₁.pages = some page) (walk : blocks.length ≤ fuel) {refs : RefCountMaps.World}
    (hcount : countShared fuel w₁ physAddr shared answers.counts =
      some (true, { w₁ with refs := refs })) :
    (processAddOwnedPage fuel true w region physAddr shared answers =
        some (addToBlock { w₁ with refs := refs } ⟨region, physAddr⟩ answers.block none) ∧
      ∀ blk ∈ blocks, pagesPerBlock ≤ (w₁.heap blk).count) ∨
    ∃ before blk after, blocks = before ++ blk :: after ∧ (w₁.heap blk).count < pagesPerBlock ∧
      processAddOwnedPage fuel true w region physAddr shared answers =
        some (addToBlock { w₁ with refs := refs } ⟨region, physAddr⟩ answers.block (some blk)) := by
  have hrun : ∀ room, findRoom w₁.heap fuel w₁.head = some room →
      processAddOwnedPage fuel true w region physAddr shared answers =
        some (addToBlock { w₁ with refs := refs } ⟨region, physAddr⟩ answers.block room) := by
    intro room hroom
    simp only [processAddOwnedPage, hwith, hcount, Option.bind_some, hroom]
    rfl
  rcases findRoom_spec (listed.chain pages) walk with
    ⟨hnone, hfull⟩ | ⟨before, blk, after, hblocks, hroom, hsome⟩
  · exact Or.inl ⟨hrun none hnone, hfull⟩
  · exact Or.inr ⟨before, blk, after, hblocks, hroom, hrun _ hsome⟩

end Counted

/-- A call that fails leaves the list and the count of the page exactly if it has not counted the
page by then. -/
theorem processAddOwnedPage_restores_iff {queue : Nat → List (BitVec 64)}
    (listed : Blocks w blocks) (inv : RefCountMaps.Inv w.refs queue) (walk : blocks.length ≤ fuel)
    (search : w.refs.map.numEntries ≤ fuel) (proc shared : Bool) (region physAddr : BitVec 64)
    (answers : Answers) :
    ∃ added w', processAddOwnedPage fuel proc w region physAddr shared answers = some (added, w') ∧
      ((added = false → Unchanged w w' physAddr) ↔
        ¬ (proc = true ∧ Leaks w blocks physAddr shared answers)) := by
  cases proc with
  | false => exact ⟨false, w, rfl, iff_of_true (fun _ => Unchanged.refl) fun h => nomatch h.1⟩
  | true =>
    by_cases hheader : w.pages = none → answers.header.isSome
    · obtain ⟨w₁, page, hwith, hpage, hframe, hblocks⟩ := withPages_some hheader
      have hheap : w₁.heap = w.heap := by rw [hframe]
      have hrefs : w₁.refs = w.refs := by rw [hframe]
      cases shared with
      | false =>
        have hno : ¬ (true = true ∧ Leaks w blocks physAddr false answers) := fun h => nomatch h.2.1
        rcases @add_counted w blocks fuel physAddr answers w₁ page region false hwith
            (hblocks blocks listed) hpage walk w₁.refs rfl with
          ⟨hrun, -⟩ | ⟨before, blk, after, -, -, hrun⟩
        · rw [hrun]
          cases hblock : answers.block with
          | none =>
            refine ⟨false, w₁, rfl, iff_of_true (fun _ => ⟨hblocks, fun _ _ => ?_, ?_⟩) hno⟩
            · rw [hheap]
            · rw [hrefs]
          | some blk => exact ⟨true, _, rfl, iff_of_true (fun h => nomatch h) hno⟩
        · rw [hrun]
          exact ⟨true, _, rfl, iff_of_true (fun h => nomatch h) hno⟩
      | true =>
        obtain ⟨n, refs', hincrement, hcases⟩ := increment_cases inv search physAddr answers.counts
        have hcounted : countShared fuel w₁ physAddr true answers.counts =
            some (decide (n ≠ 0), { w₁ with refs := refs' }) := by
          rw [countShared, if_pos rfl, hrefs, hincrement]
          rfl
        rcases hcases with ⟨hup, rfl, hcount⟩ | ⟨hstays, rfl, hcounts⟩
        · have hsmall := inv.content.small physAddr
          have hzero : BitVec.ofNat 32 (w.refs.counts physAddr + 1) = 0 ↔
              w.refs.counts physAddr + 1 = 0x100000000 := by
            rw [← BitVec.toNat_inj, BitVec.toNat_ofNat]
            simp only [BitVec.ofNat_eq_ofNat, BitVec.toNat_ofNat]
            omega
          have hchanged : ∀ w' : World, w'.refs = refs' → ¬ Unchanged w w' physAddr := by
            intro w' hw' hsame
            have hback := hsame.count
            rw [hw', hcount] at hback
            omega
          by_cases hwraps : w.refs.counts physAddr + 1 = 0x100000000
          · rw [decide_eq_false (not_not.mpr (hzero.mpr hwraps))] at hcounted
            refine ⟨false, _, add_uncounted hwith hcounted,
              iff_of_false (fun h => hchanged _ rfl (h rfl)) ?_⟩
            exact not_not.mpr ⟨rfl, rfl, hheader, hup, Or.inl hwraps⟩
          · rw [decide_eq_true (mt hzero.mp hwraps)] at hcounted
            rcases @add_counted w blocks fuel physAddr answers w₁ page region true hwith
                (hblocks blocks listed) hpage walk refs' hcounted with
              ⟨hrun, hfull⟩ | ⟨before, blk, after, rfl, hroom, hrun⟩
            · rw [hheap] at hfull
              rw [hrun]
              cases hblock : answers.block with
              | none =>
                refine ⟨false, _, rfl, iff_of_false (fun h => hchanged _ rfl (h rfl)) ?_⟩
                exact not_not.mpr ⟨rfl, rfl, hheader, hup, Or.inr ⟨hblock, hfull⟩⟩
              | some blk =>
                refine ⟨true, _, rfl, iff_of_true (fun h => nomatch h) ?_⟩
                rintro ⟨-, -, -, -, hcase | ⟨hmissing, -⟩⟩
                · exact hwraps hcase
                · rw [hblock] at hmissing
                  exact nomatch hmissing
            · rw [hrun]
              refine ⟨true, _, rfl, iff_of_true (fun h => nomatch h) ?_⟩
              rintro ⟨-, -, -, -, hcase | ⟨-, hfull⟩⟩
              · exact hwraps hcase
              · have hle := hfull blk (by simp)
                rw [hheap] at hroom
                omega
        · refine ⟨false, _, add_uncounted hwith hcounted,
            iff_of_true (fun _ => ⟨hblocks, fun _ _ => ?_, ?_⟩) fun h => hstays h.2.2.2.1⟩
          · simp only [hheap]
          · exact congrFun hcounts physAddr
    · refine ⟨false, w, ?_, iff_of_true (fun _ => Unchanged.refl) fun h => hheader h.2.2.1⟩
      rw [processAddOwnedPage, withPages_none hheader]
      rfl

end Adding

/-- A process that owns one page, and a map without counts. -/
def oneOwned (refs : RefCountMaps.World) : World where
  pages := some 0x8000
  head := some 0x9000
  heap := fun _ => ⟨none, 1, fun _ => ⟨0, 0x5000⟩⟩
  refs := refs
  allocated := [⟨0, 0x5000⟩]
  released := []
  freed := []

/-- No block can be had; the allocations for the counts succeed. -/
def noBlocks : Answers := ⟨none, none, ⟨true, fun _ => some fun _ => none, some 0x2000⟩⟩

theorem entriesOf_empty (map : RefCountMaps.RefCountMap) :
    RefCountMaps.entriesOf map (fun _ => []) = [] := List.flatMap_eq_nil_iff.mpr fun _ _ => rfl

theorem processAddOwnedPage_restores_iff_room :
    ∃ refs added w', processAddOwnedPage 1 true (oneOwned refs) 0 0x1000 true noBlocks =
        some (added, w') ∧ ((added = false → Unchanged (oneOwned refs) w' 0x1000) ↔
          ¬ (true = true ∧ Leaks (oneOwned refs) [0x9000] 0x1000 true noBlocks)) := by
  obtain ⟨refs, hstart, -⟩ := RefCountMaps.exists_started
  have hinv := RefCountMaps.started_inv hstart
  have hnone : refs.map.numEntries = 0 := by
    rw [hinv.numEntries, entriesOf_empty]
    rfl
  exact ⟨refs, @processAddOwnedPage_restores_iff (oneOwned refs) [0x9000] 1 _ ⟨rfl, rfl⟩ hinv
    (Nat.le_refl 1) (Nat.le_trans (Nat.le_of_eq hnone) (Nat.zero_le 1)) true true 0 0x1000 noBlocks⟩

/-- There is no block for the list of a process without pages: the page has been counted. -/
theorem failed_add_counts_page :
    ∃ refs w', let w := { oneOwned refs with head := none }
      processAddOwnedPage 1 true w 0 0x1000 true noBlocks = some (false, w') ∧
        ¬ Unchanged w w' 0x1000 := by
  obtain ⟨refs, hstart, -⟩ := RefCountMaps.exists_started
  have hinv := RefCountMaps.started_inv hstart
  have hzero := hstart.2 0x1000
  have hnone : refs.map.numEntries = 0 := by
    rw [hinv.numEntries, entriesOf_empty]
    rfl
  have hpos := hinv.layout.pos
  have hup : CountsUp refs 0x1000 noBlocks.counts := by
    refine Or.inr ⟨rfl, fun hfull => ?_⟩
    omega
  obtain ⟨n, refs', hincrement, ⟨-, rfl, hcount⟩ | ⟨hstays, -⟩⟩ :=
    @increment_cases 1 refs _ hinv (by omega) 0x1000 noBlocks.counts
  · have hcounted : countShared 1 { oneOwned refs with head := none } 0x1000 true noBlocks.counts =
        some (true, { oneOwned refs with head := none, refs := refs' }) := by
      rw [countShared, if_pos rfl]
      simp only [oneOwned, hincrement, hzero]
      rfl
    rcases @add_counted { oneOwned refs with head := none } [] 1 0x1000 noBlocks
        { oneOwned refs with head := none } 0x8000 0 true rfl rfl rfl (Nat.zero_le 1) refs' hcounted
      with ⟨hrun, -⟩ | ⟨before, blk, after, hblocks, -⟩
    · refine ⟨refs, _, hrun, fun hsame => ?_⟩
      have hback := hsame.count
      rw [hcount] at hback
      exact Nat.succ_ne_self _ hback
    · simp at hblocks
  · exact absurd hup hstays

end PageBlocks
