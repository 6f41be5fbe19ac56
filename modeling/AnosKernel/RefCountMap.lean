import AnosKernel.Lib.Chains
import AnosKernel.Lib.Runs
import Mathlib.Data.BitVec
import Mathlib.Data.List.Perm.Lattice
import Mathlib.Data.Set.Card

/-!
# The map of reference counts

`kernel/structs/ref_count_map.c`: a hash table with chaining. The buckets are in blocks of 512
pointers, and the blocks in a list with the newest block first; an index into the buckets counts
blocks along that list. The entries of a bucket are linked through their `next` field, so a
resize, which moves every entry to another list of blocks, rewrites all these links. Following
links may not end when they form a cycle, so it takes fuel; the answer `none` is for a walk that
does not end or a null pointer followed.
-/

namespace RefCountMaps

open Chains Runs

def initialSize : Nat := 1024

def ptrsPerBlock : Nat := 512

structure Entry where
  physicalAddr : BitVec 64
  refCount : BitVec 64
  isOccupied : Bool
  next : Option (BitVec 64)
  deriving DecidableEq, Repr

/-- The pointers in a block. -/
abbrev Block := Nat → Option (BitVec 64)

structure RefCountMap where
  size : Nat
  numEntries : Nat
  blockList : List Block

def hashAddress (addr : BitVec 64) (size : Nat) : Nat :=
  ((addr * 0x9E3779B97F4A7C15) >>> 32).toNat % size

/-- `get_bucket_ptr` and the read through it; null when the list has too few blocks. -/
def getBucket (blockList : List Block) (idx : Nat) : Option (Option (BitVec 64)) :=
  blockList[idx / ptrsPerBlock]?.map fun block => block (idx % ptrsPerBlock)

/-- A write through `get_bucket_ptr`. -/
def setBucket (blockList : List Block) (idx : Nat) (entry : Option (BitVec 64)) : List Block :=
  blockList.modify (idx / ptrsPerBlock) fun block =>
    Function.update block (idx % ptrsPerBlock) entry

def clearBlock (n : Nat) (block : Block) : Block := fun i => if i < n then none else block i

/-- The loop of `allocate_bucket_array` after `i` blocks, with `remaining` pointers to go. The
memory of a block is what `add_block` got for it, or null. -/
def addBlocks (memory : Nat → Option Block) (i remaining : Nat) (blockList : List Block) :
    Option (List Block) :=
  if remaining = 0 then some blockList
  else
    match memory i with
    | none => none
    | some block =>
      let n := min remaining ptrsPerBlock
      addBlocks memory (i + 1) (remaining - n) (clearBlock n block :: blockList)
termination_by remaining
decreasing_by
  simp only [ptrsPerBlock]
  omega

/-- `allocate_bucket_array` for a map that has no blocks. The first block is taken whole. -/
def allocateBucketArray (memory : Nat → Option Block) (size : Nat) : Option (List Block) :=
  (memory 0).bind fun block =>
    addBlocks memory 1 (size - ptrsPerBlock) [clearBlock (min ptrsPerBlock size) block]

/-- `refcount_map_init`; `header` is whether the map itself could be allocated. -/
def refcountMapInit (header : Bool) (memory : Nat → Option Block) : Option RefCountMap :=
  if header then
    (allocateBucketArray memory initialSize).map fun blockList =>
      { size := initialSize, numEntries := 0, blockList := blockList }
  else none

/-- The inner loop of `resize_map` from `entry` on: each entry goes to the front of its bucket in
the new blocks. -/
def rehashChain (newSize : Nat) : Nat → Option (BitVec 64) → (BitVec 64 → Entry) × List Block →
    Option ((BitVec 64 → Entry) × List Block)
  | _, none, state => some state
  | 0, some _, _ => none
  | fuel + 1, some entry, (heap, blockList) =>
    let newIdx := hashAddress (heap entry).physicalAddr newSize
    (getBucket blockList newIdx).bind fun first =>
      rehashChain newSize fuel (heap entry).next
        (Function.update heap entry { heap entry with next := first },
          setBucket blockList newIdx (some entry))

/-- The loop of `resize_map` over the `n` buckets from `i` on. -/
def rehashBuckets (fuel newSize : Nat) (oldBlocks : List Block) :
    Nat → Nat → (BitVec 64 → Entry) × List Block → Option ((BitVec 64 → Entry) × List Block)
  | 0, _, state => some state
  | n + 1, i, state =>
    (getBucket oldBlocks i).bind fun first =>
      (rehashChain newSize fuel first state).bind (rehashBuckets fuel newSize oldBlocks n (i + 1))

/-- What the allocations of a call answer: the map header and the blocks of a resize, and the
entry. -/
structure Allocs where
  header : Bool
  memory : Nat → Option Block
  entry : Option (BitVec 64)

/-- `resize_map`: the map and the entries after it; the inner `none` is its answer false. -/
def resizeMap (fuel : Nat) (map : RefCountMap) (heap : BitVec 64 → Entry) (allocs : Allocs) :
    Option (Option (RefCountMap × (BitVec 64 → Entry))) :=
  let newSize := map.size * 2
  if allocs.header then
    match allocateBucketArray allocs.memory newSize with
    | none => some none
    | some newBlocks =>
      (rehashBuckets fuel newSize map.blockList map.size 0 (heap, newBlocks)).map
        fun (heap', blockList) =>
          some ({ map with size := newSize, blockList := blockList }, heap')
  else some none

/-- The search for an entry from `entry` on, behind `prev`: the entry with its predecessor. -/
def findEntry (heap : BitVec 64 → Entry) (addr : BitVec 64) :
    Nat → Option (BitVec 64) → Option (BitVec 64) →
      Option (Option (Option (BitVec 64) × BitVec 64))
  | _, _, none => some none
  | 0, _, some _ => none
  | fuel + 1, prev, some entry =>
    if (heap entry).physicalAddr = addr ∧ (heap entry).isOccupied then some (some (prev, entry))
    else findEntry heap addr fuel (some entry) (heap entry).next

/-- The map, the entries, and the blocks of the slab allocator that are given out to entries.
`counts` is history: how often each address was counted up and not down again. -/
structure World where
  map : RefCountMap
  heap : BitVec 64 → Entry
  slab : BitVec 64 → Bool
  counts : BitVec 64 → Nat

/-- The end of `refcount_map_increment`: a new entry at the front of its bucket. -/
def addEntry (w : World) (addr : BitVec 64) (entry : Option (BitVec 64)) :
    Option (BitVec 32 × World) :=
  let idx := hashAddress addr w.map.size
  match entry with
  | none => some (0, w)
  | some new =>
    (getBucket w.map.blockList idx).map fun first =>
      (1, { w with
        map := { w.map with
          numEntries := w.map.numEntries + 1
          blockList := setBucket w.map.blockList idx (some new) }
        heap := Function.update w.heap new
          { physicalAddr := addr, refCount := 1, isOccupied := true, next := first }
        slab := Function.update w.slab new true
        counts := Function.update w.counts addr (w.counts addr + 1) })

/-- `refcount_map_increment`; zero is failure. -/
def refcountMapIncrement (fuel : Nat) (w : World) (addr : BitVec 64) (allocs : Allocs) :
    Option (BitVec 32 × World) :=
  (getBucket w.map.blockList (hashAddress addr w.map.size)).bind fun first =>
    (findEntry w.heap addr fuel none first).bind fun found =>
      match found with
      | some (_, entry) =>
        let count := (w.heap entry).refCount + 1
        some (count.setWidth 32,
          { w with
            heap := Function.update w.heap entry { w.heap entry with refCount := count }
            counts := Function.update w.counts addr (w.counts addr + 1) })
      | none =>
        if 4 * w.map.numEntries ≥ 3 * w.map.size then
          (resizeMap fuel w.map w.heap allocs).bind fun resized =>
            match resized with
            | none => some (0, w)
            | some (map, heap) => addEntry { w with map := map, heap := heap } addr allocs.entry
        else addEntry w addr allocs.entry

/-- `refcount_map_decrement`: the count before the call, or zero without an entry. -/
def refcountMapDecrement (fuel : Nat) (w : World) (addr : BitVec 64) :
    Option (BitVec 32 × World) :=
  let idx := hashAddress addr w.map.size
  (getBucket w.map.blockList idx).bind fun first =>
    (findEntry w.heap addr fuel none first).map fun found =>
      match found with
      | none => (0, w)
      | some (prev, entry) =>
        let count := (w.heap entry).refCount - 1
        let counts := Function.update w.counts addr (w.counts addr - 1)
        let heap := Function.update w.heap entry { w.heap entry with refCount := count }
        if count = 0 then
          let map := { w.map with numEntries := w.map.numEntries - 1 }
          let slab := Function.update w.slab entry false
          match prev with
          | some p =>
            (1, { map := map
                  heap := Function.update heap p { heap p with next := (heap entry).next }
                  slab := slab, counts := counts })
          | none =>
            (1, { map := { map with
                    blockList := setBucket w.map.blockList idx (heap entry).next }
                  heap := heap, slab := slab, counts := counts })
        else ((count + 1).setWidth 32, { w with heap := heap, counts := counts })

/-! ## Buckets -/

/-- The first entry of a bucket. -/
def bucket (blockList : List Block) (idx : Nat) : Option (BitVec 64) :=
  (getBucket blockList idx).getD none

section Buckets

variable {blockList : List Block} {idx : Nat}

theorem getBucket_eq (h : idx < ptrsPerBlock * blockList.length) :
    getBucket blockList idx = some (bucket blockList idx) := by
  have hblock : idx / ptrsPerBlock < blockList.length := Nat.div_lt_of_lt_mul h
  simp [bucket, getBucket, hblock]

@[simp] theorem length_setBucket (entry : Option (BitVec 64)) :
    (setBucket blockList idx entry).length = blockList.length := by
  simp [setBucket]

theorem bucket_setBucket (h : idx < ptrsPerBlock * blockList.length)
    (entry : Option (BitVec 64)) :
    bucket (setBucket blockList idx entry) = Function.update (bucket blockList) idx entry := by
  have hblock : idx / ptrsPerBlock < blockList.length := Nat.div_lt_of_lt_mul h
  funext j
  by_cases hj : j = idx
  · subst hj
    simp [bucket, getBucket, setBucket, hblock]
  · rw [Function.update_of_ne hj]
    simp only [bucket, getBucket, setBucket, List.getElem?_modify]
    by_cases hsame : idx / ptrsPerBlock = j / ptrsPerBlock
    · -- another place in the same block
      have hoff : j % ptrsPerBlock ≠ idx % ptrsPerBlock := by
        intro hoff
        apply hj
        rw [← Nat.div_add_mod j ptrsPerBlock, ← Nat.div_add_mod idx ptrsPerBlock, hsame, hoff]
      rw [hsame] at hblock
      simp [hsame, hblock, Function.update_of_ne hoff]
    · simp [hsame]

theorem bucket_of_cleared (clear : ∀ block ∈ blockList, ∀ i < ptrsPerBlock, block i = none) :
    bucket blockList idx = none := by
  have hoff : idx % ptrsPerBlock < ptrsPerBlock := Nat.mod_lt _ (by decide)
  cases hblock : blockList[idx / ptrsPerBlock]? with
  | none => simp [bucket, getBucket, hblock]
  | some block =>
    simp [bucket, getBucket, hblock, clear block (List.mem_of_getElem? hblock) _ hoff]

end Buckets

theorem addBlocks_spec {memory : Nat → Option Block} {n i : Nat} {blockList newBlocks : List Block}
    (clear : ∀ block ∈ blockList, ∀ i < ptrsPerBlock, block i = none)
    (h : addBlocks memory i (ptrsPerBlock * n) blockList = some newBlocks) :
    newBlocks.length = blockList.length + n ∧
      ∀ block ∈ newBlocks, ∀ i < ptrsPerBlock, block i = none := by
  induction n generalizing i blockList with
  | zero =>
    rw [addBlocks, if_pos (Nat.mul_zero _)] at h
    obtain rfl := Option.some.inj h
    exact ⟨rfl, clear⟩
  | succ n ih =>
    have hpos : ptrsPerBlock * (n + 1) ≠ 0 := by simp [ptrsPerBlock]
    have hmin : min (ptrsPerBlock * (n + 1)) ptrsPerBlock = ptrsPerBlock := by
      rw [Nat.mul_succ]
      omega
    have hrest : ptrsPerBlock * (n + 1) - ptrsPerBlock = ptrsPerBlock * n := by
      rw [Nat.mul_succ]
      omega
    rw [addBlocks, if_neg hpos] at h
    cases hmemory : memory i with
    | none => simp [hmemory] at h
    | some block =>
      simp only [hmemory, hmin, hrest] at h
      have hclear : ∀ b ∈ clearBlock ptrsPerBlock block :: blockList,
          ∀ i < ptrsPerBlock, b i = none := by
        intro b hb j hj
        rcases List.mem_cons.mp hb with rfl | hb
        · exact if_pos hj
        · exact clear b hb j hj
      obtain ⟨hlength, hcleared⟩ := ih hclear h
      constructor
      · rw [hlength, List.length_cons]
        omega
      · exact hcleared

theorem addBlocks_isSome {memory : Nat → Option Block} (granted : ∀ i, (memory i).isSome)
    (i remaining : Nat) (blockList : List Block) :
    (addBlocks memory i remaining blockList).isSome := by
  induction remaining using Nat.strongRecOn generalizing i blockList with
  | ind remaining ih =>
    rw [addBlocks]
    split_ifs with hzero
    · rfl
    · obtain ⟨block, hblock⟩ := Option.isSome_iff_exists.mp (granted i)
      simp only [hblock]
      apply ih
      simp only [ptrsPerBlock]
      omega

/-- New buckets are empty. -/
theorem allocateBucketArray_spec {memory : Nat → Option Block} {n : Nat} {blockList : List Block}
    (pos : 0 < n) (h : allocateBucketArray memory (ptrsPerBlock * n) = some blockList) :
    blockList.length = n ∧ ∀ idx, bucket blockList idx = none := by
  obtain ⟨k, rfl⟩ : ∃ k, n = k + 1 := ⟨n - 1, by omega⟩
  obtain ⟨block, -, hblocks⟩ := Option.bind_eq_some_iff.mp h
  have hrest : ptrsPerBlock * (k + 1) - ptrsPerBlock = ptrsPerBlock * k := by
    rw [Nat.mul_succ]
    omega
  have hmin : min ptrsPerBlock (ptrsPerBlock * (k + 1)) = ptrsPerBlock := by
    rw [Nat.mul_succ]
    omega
  rw [hrest, hmin] at hblocks
  have hclear : ∀ b ∈ [clearBlock ptrsPerBlock block], ∀ i < ptrsPerBlock, b i = none := by
    intro b hb j hj
    rw [List.mem_singleton.mp hb]
    exact if_pos hj
  obtain ⟨hlength, hcleared⟩ := addBlocks_spec hclear hblocks
  constructor
  · rw [hlength, List.length_singleton]
    omega
  · exact fun idx => bucket_of_cleared hcleared

theorem allocateBucketArray_isSome {memory : Nat → Option Block}
    (granted : ∀ i, (memory i).isSome) (size : Nat) : (allocateBucketArray memory size).isSome := by
  obtain ⟨block, hblock⟩ := Option.isSome_iff_exists.mp (granted 0)
  rw [allocateBucketArray, hblock]
  exact addBlocks_isSome granted _ _ _

/-! ## Moving the entries -/

def link (heap : BitVec 64 → Entry) (entry : BitVec 64) : Option (BitVec 64) := (heap entry).next

theorem link_update (heap : BitVec 64 → Entry) (entry : BitVec 64) (new : Entry) :
    link (Function.update heap entry new) = Function.update (link heap) entry new.next := by
  funext e
  by_cases he : e = entry
  · simp [link, he]
  · simp [link, he]

theorem hashAddress_lt {size : Nat} (pos : 0 < size) (addr : BitVec 64) :
    hashAddress addr size < size := Nat.mod_lt _ pos

/-- One turn of the inner loop of `resize_map`. -/
def moveEntry (newSize : Nat) (state : (BitVec 64 → Entry) × List Block) (entry : BitVec 64) :
    (BitVec 64 → Entry) × List Block :=
  let newIdx := hashAddress (state.1 entry).physicalAddr newSize
  (Function.update state.1 entry { state.1 entry with next := bucket state.2 newIdx },
    setBucket state.2 newIdx (some entry))

section Rehash

variable {newSize : Nat} {heap : BitVec 64 → Entry} {blockList : List Block}
  {state : (BitVec 64 → Entry) × List Block}

theorem length_moveEntry (entry : BitVec 64) :
    (moveEntry newSize state entry).2.length = state.2.length := length_setBucket _

theorem length_foldl_moveEntry (xs : List (BitVec 64)) :
    (xs.foldl (moveEntry newSize) state).2.length = state.2.length := by
  induction xs generalizing state with
  | nil => rfl
  | cons x xs ih => rw [List.foldl_cons, ih, length_moveEntry]

theorem link_foldl_moveEntry {xs : List (BitVec 64)} {entry : BitVec 64} (off : entry ∉ xs) :
    link (xs.foldl (moveEntry newSize) state).1 entry = link state.1 entry := by
  induction xs generalizing state with
  | nil => rfl
  | cons x xs ih =>
    simp only [List.mem_cons, not_or] at off
    rw [List.foldl_cons, ih off.2, moveEntry, link_update, Function.update_of_ne off.1]

/-- The walk along a chain moves its entries one after the other. -/
theorem rehashChain_eq {fuel : Nat} {first : Option (BitVec 64)} {xs : List (BitVec 64)}
    (chain : Chain (link state.1) first xs) (enough : xs.length ≤ fuel)
    (size : newSize = ptrsPerBlock * state.2.length) (pos : 0 < newSize) :
    rehashChain newSize fuel first state = some (xs.foldl (moveEntry newSize) state) := by
  induction xs generalizing fuel first state with
  | nil =>
    obtain rfl : first = none := chain
    rw [rehashChain]
    rfl
  | cons x xs ih =>
    have hoff : x ∉ xs := (List.nodup_cons.mp (chain_nodup chain)).1
    obtain ⟨rfl, htail⟩ := chain
    obtain ⟨fuel, rfl⟩ : ∃ n, fuel = n + 1 := ⟨fuel - 1, by simp at enough; omega⟩
    have hidx : hashAddress (state.1 x).physicalAddr newSize < ptrsPerBlock * state.2.length :=
      size ▸ hashAddress_lt pos _
    obtain ⟨heap, blockList⟩ := state
    rw [rehashChain, getBucket_eq hidx, Option.bind_some, List.foldl_cons]
    apply ih
    · rw [link_update]
      exact Seg.update htail hoff
    · simpa using enough
    · rw [length_setBucket]
      exact size

/-- The walk along the buckets from `i` on moves the entries of one after the other. -/
theorem rehashBuckets_eq {fuel n i : Nat} {oldBlocks : List Block} {queue : Nat → List (BitVec 64)}
    (family : Family (link state.1) (bucket oldBlocks) queue (List.range' i n))
    (nodup : ((List.range' i n).flatMap queue).Nodup)
    (enough : ∀ j ∈ List.range' i n, (queue j).length ≤ fuel)
    (inside : i + n ≤ ptrsPerBlock * oldBlocks.length)
    (size : newSize = ptrsPerBlock * state.2.length) (pos : 0 < newSize) :
    rehashBuckets fuel newSize oldBlocks n i state =
      some (((List.range' i n).flatMap queue).foldl (moveEntry newSize) state) := by
  induction n generalizing i state with
  | zero => rfl
  | succ n ih =>
    have hidx : i < ptrsPerBlock * oldBlocks.length := by omega
    have hfirst : i ∈ List.range' i (n + 1) := by simp
    have hlater : ∀ j ∈ List.range' (i + 1) n, j ∈ List.range' i (n + 1) := by
      intro j hj
      rw [List.range'_succ]
      exact List.mem_cons_of_mem _ hj
    rw [List.range'_succ, List.flatMap_cons] at nodup
    obtain ⟨-, hnodup, happart⟩ := List.nodup_append.mp nodup
    rw [rehashBuckets, getBucket_eq hidx, Option.bind_some,
      rehashChain_eq (family i hfirst) (enough i hfirst) size pos, Option.bind_some,
      List.range'_succ, List.flatMap_cons, List.foldl_append]
    apply ih
    · intro j hj
      -- the entries of a later bucket have not been moved
      apply Seg.congr (family j (hlater j hj))
      intro e he
      apply link_foldl_moveEntry
      intro hmoved
      exact happart e hmoved e (List.mem_flatMap.mpr ⟨j, hj, he⟩) rfl
    · exact hnodup
    · exact fun j hj => enough j (hlater j hj)
    · omega
    · rw [length_foldl_moveEntry]
      exact size

/-- The entries of a list that belong into a bucket. -/
def bucketOf (heap : BitVec 64 → Entry) (size : Nat) (xs : List (BitVec 64)) (i : Nat) :
    List (BitVec 64) :=
  xs.filter fun e => hashAddress (heap e).physicalAddr size = i

/-- The entries `done` have been moved, the last one first in the list; they are linked into their
buckets, and nothing but the links has changed. -/
structure Moved (newSize : Nat) (heap : BitVec 64 → Entry) (done : List (BitVec 64))
    (state : (BitVec 64 → Entry) × List Block) : Prop where
  size : newSize = ptrsPerBlock * state.2.length
  family : Family (link state.1) (bucket state.2) (bucketOf heap newSize done)
    (List.range newSize)
  kept : ∀ e, { state.1 e with next := none } = { heap e with next := none }

theorem Moved.field {done : List (BitVec 64)} (h : Moved newSize heap done state)
    (e : BitVec 64) : (state.1 e).physicalAddr = (heap e).physicalAddr ∧
      (state.1 e).refCount = (heap e).refCount ∧ (state.1 e).isOccupied = (heap e).isOccupied := by
  have hkept := h.kept e
  simp only [Entry.mk.injEq] at hkept
  exact ⟨hkept.1, hkept.2.1, hkept.2.2.1⟩

theorem Moved.step {done : List (BitVec 64)} (h : Moved newSize heap done state)
    (pos : 0 < newSize) {entry : BitVec 64} (off : entry ∉ done) :
    Moved newSize heap (entry :: done) (moveEntry newSize state entry) := by
  have hsame := (h.field entry).1
  have hidx : hashAddress (heap entry).physicalAddr newSize < newSize := hashAddress_lt pos _
  have hfresh : entry ∉ (List.range newSize).flatMap (bucketOf heap newSize done) := by
    intro hmem
    obtain ⟨i, -, hi⟩ := List.mem_flatMap.mp hmem
    exact off (List.mem_filter.mp hi).1
  have hpush := h.family.push (List.mem_range.mpr hidx) hfresh
  constructor
  · rw [length_moveEntry]
    exact h.size
  · have hqueue : bucketOf heap newSize (entry :: done) =
        Function.update (bucketOf heap newSize done)
          (hashAddress (heap entry).physicalAddr newSize)
          (entry :: bucketOf heap newSize done (hashAddress (heap entry).physicalAddr newSize)) := by
      funext i
      by_cases hi : hashAddress (heap entry).physicalAddr newSize = i
      · subst hi
        simp [bucketOf]
      · rw [Function.update_of_ne (Ne.symm hi)]
        simp [bucketOf, hi]
    rw [hqueue, moveEntry, hsame, link_update, bucket_setBucket (h.size ▸ hidx)]
    exact hpush
  · intro e
    rw [← h.kept e, moveEntry]
    by_cases he : e = entry
    · subst he
      simp
    · simp [he]

theorem Moved.foldl {done xs : List (BitVec 64)} (h : Moved newSize heap done state)
    (pos : 0 < newSize) (nodup : xs.Nodup) (off : ∀ e ∈ xs, e ∉ done) :
    Moved newSize heap (xs.reverse ++ done) (xs.foldl (moveEntry newSize) state) := by
  induction xs generalizing done state with
  | nil => exact h
  | cons x xs ih =>
    obtain ⟨hx, hnodup⟩ := List.nodup_cons.mp nodup
    rw [List.foldl_cons, List.reverse_cons, List.append_assoc]
    apply ih (h.step pos (off x List.mem_cons_self)) hnodup
    intro e he hmem
    rcases List.mem_cons.mp hmem with rfl | hdone
    · exact hx he
    · exact off e (List.mem_cons_of_mem _ he) hdone

end Rehash

/-! ## What the map holds -/

/-- The entries `all` hold the counts that are not zero, each address once. -/
structure Content (heap : BitVec 64 → Entry) (slab : BitVec 64 → Bool) (counts : BitVec 64 → Nat)
    (all : List (BitVec 64)) : Prop where
  nodup : all.Nodup
  occupied : ∀ e ∈ all, (heap e).isOccupied = true
  count : ∀ e ∈ all, (heap e).refCount.toNat = counts (heap e).physicalAddr
  positive : ∀ e ∈ all, counts (heap e).physicalAddr ≠ 0
  unique : ∀ e ∈ all, ∀ e' ∈ all, (heap e).physicalAddr = (heap e').physicalAddr → e = e'
  complete : ∀ addr, counts addr ≠ 0 → ∃ e ∈ all, (heap e).physicalAddr = addr
  slab : ∀ e ∈ all, slab e = true
  small : ∀ addr, counts addr < 0x100000000

/-- The buckets are chains of entries, each in the bucket of its address. -/
structure Layout (map : RefCountMap) (heap : BitVec 64 → Entry) (queue : Nat → List (BitVec 64)) :
    Prop where
  size : map.size = ptrsPerBlock * map.blockList.length
  pos : 0 < map.size
  family : Family (link heap) (bucket map.blockList) queue (List.range map.size)
  placed : ∀ i < map.size, ∀ e ∈ queue i, hashAddress (heap e).physicalAddr map.size = i

/-- The entries of all buckets. -/
def entriesOf (map : RefCountMap) (queue : Nat → List (BitVec 64)) : List (BitVec 64) :=
  (List.range map.size).flatMap queue

structure Inv (w : World) (queue : Nat → List (BitVec 64)) : Prop where
  layout : Layout w.map w.heap queue
  content : Content w.heap w.slab w.counts (entriesOf w.map queue)
  numEntries : w.map.numEntries = (entriesOf w.map queue).length

section Content

variable {heap heap' : BitVec 64 → Entry} {slab : BitVec 64 → Bool} {counts : BitVec 64 → Nat}
  {all all' : List (BitVec 64)} {addr entry new : BitVec 64}

/-- Entries that hold the same data, whatever their order and their links. -/
theorem Content.congr (h : Content heap slab counts all) (perm : all'.Perm all)
    (haddr : ∀ e ∈ all, (heap' e).physicalAddr = (heap e).physicalAddr)
    (hcount : ∀ e ∈ all, (heap' e).refCount = (heap e).refCount)
    (hoccupied : ∀ e ∈ all, (heap' e).isOccupied = (heap e).isOccupied) :
    Content heap' slab counts all' := by
  constructor
  · exact perm.nodup_iff.mpr h.nodup
  · intro e he
    rw [perm.mem_iff] at he
    rw [hoccupied e he]
    exact h.occupied e he
  · intro e he
    rw [perm.mem_iff] at he
    rw [hcount e he, haddr e he]
    exact h.count e he
  · intro e he
    rw [perm.mem_iff] at he
    rw [haddr e he]
    exact h.positive e he
  · intro e he e' he' heq
    rw [perm.mem_iff] at he he'
    rw [haddr e he, haddr e' he'] at heq
    exact h.unique e he e' he' heq
  · intro a ha
    obtain ⟨e, he, heq⟩ := h.complete a ha
    exact ⟨e, perm.mem_iff.mpr he, (haddr e he).trans heq⟩
  · exact fun e he => h.slab e (perm.mem_iff.mp he)
  · exact h.small

/-- Only one entry holds the address. -/
theorem Content.other (h : Content heap slab counts all) (he : entry ∈ all)
    (haddr : (heap entry).physicalAddr = addr) {e : BitVec 64} (hmem : e ∈ all) (hne : e ≠ entry) :
    (heap e).physicalAddr ≠ addr :=
  fun heq => hne (h.unique e hmem entry he (heq.trans haddr.symm))

/-- Giving the entry of an address another count. -/
theorem Content.recount (h : Content heap slab counts all) (he : entry ∈ all)
    (haddr : (heap entry).physicalAddr = addr) {n : BitVec 64} (pos : n.toNat ≠ 0)
    (small : n.toNat < 0x100000000) :
    Content (Function.update heap entry { heap entry with refCount := n }) slab
      (Function.update counts addr n.toNat) all := by
  have hphys : ∀ e, (Function.update heap entry
      { heap entry with refCount := n } e).physicalAddr = (heap e).physicalAddr := by
    intro e
    by_cases hee : e = entry
    · simp [hee]
    · simp [hee]
  constructor
  · exact h.nodup
  · intro e hmem
    by_cases hee : e = entry
    · simp [hee, h.occupied entry he]
    · simp [hee, h.occupied e hmem]
  · intro e hmem
    rw [hphys]
    by_cases hee : e = entry
    · simp [hee, haddr]
    · rw [Function.update_of_ne hee, Function.update_of_ne (h.other he haddr hmem hee)]
      exact h.count e hmem
  · intro e hmem
    rw [hphys]
    by_cases hee : e = entry
    · simpa [hee, haddr] using pos
    · rw [Function.update_of_ne (h.other he haddr hmem hee)]
      exact h.positive e hmem
  · intro e hmem e' hmem' heq
    rw [hphys, hphys] at heq
    exact h.unique e hmem e' hmem' heq
  · intro a ha
    by_cases haa : a = addr
    · exact ⟨entry, he, by rw [hphys, haddr, haa]⟩
    · rw [Function.update_of_ne haa] at ha
      obtain ⟨e, hmem, heq⟩ := h.complete a ha
      exact ⟨e, hmem, (hphys e).trans heq⟩
  · exact h.slab
  · intro a
    by_cases haa : a = addr
    · simpa [haa] using small
    · simpa [haa] using h.small a

/-- A new entry for an address that had none. -/
theorem Content.add (h : Content heap slab counts all) (absent : counts addr = 0)
    (off : new ∉ all) (next : Option (BitVec 64)) :
    Content (Function.update heap new ⟨addr, 1, true, next⟩) (Function.update slab new true)
      (Function.update counts addr 1) (new :: all) := by
  have hne : ∀ e ∈ all, e ≠ new := fun e he heq => off (heq ▸ he)
  have hother : ∀ e ∈ all, (heap e).physicalAddr ≠ addr :=
    fun e he heq => h.positive e he (heq ▸ absent)
  constructor
  · exact List.nodup_cons.mpr ⟨off, h.nodup⟩
  · intro e he
    rcases List.mem_cons.mp he with rfl | he
    · simp
    · simp [hne e he, h.occupied e he]
  · intro e he
    rcases List.mem_cons.mp he with rfl | he
    · simp
    · simp [hne e he, hother e he, h.count e he]
  · intro e he
    rcases List.mem_cons.mp he with rfl | he
    · simp
    · simp [hne e he, hother e he, h.positive e he]
  · intro e he e' he' heq
    rcases List.mem_cons.mp he with rfl | hold
    · rcases List.mem_cons.mp he' with rfl | hold'
      · rfl
      · simp only [Function.update_self, Function.update_of_ne (hne e' hold')] at heq
        exact absurd heq.symm (hother e' hold')
    · rcases List.mem_cons.mp he' with rfl | hold'
      · simp only [Function.update_self, Function.update_of_ne (hne e hold)] at heq
        exact absurd heq (hother e hold)
      · rw [Function.update_of_ne (hne e hold), Function.update_of_ne (hne e' hold')] at heq
        exact h.unique e hold e' hold' heq
  · intro a ha
    by_cases haa : a = addr
    · exact ⟨new, List.mem_cons_self, by simp [haa]⟩
    · rw [Function.update_of_ne haa] at ha
      obtain ⟨e, he, heq⟩ := h.complete a ha
      exact ⟨e, List.mem_cons_of_mem _ he, by rw [Function.update_of_ne (hne e he), heq]⟩
  · intro e he
    rcases List.mem_cons.mp he with rfl | he
    · simp
    · simp [hne e he, h.slab e he]
  · intro a
    by_cases haa : a = addr
    · simp [haa]
    · simpa [haa] using h.small a

/-- The entry of an address is given back. -/
theorem Content.drop (h : Content heap slab counts (entry :: all))
    (haddr : (heap entry).physicalAddr = addr) :
    Content heap (Function.update slab entry false) (Function.update counts addr 0) all := by
  have hfirst : entry ∈ entry :: all := List.mem_cons_self
  obtain ⟨hoff, hnodup⟩ := List.nodup_cons.mp h.nodup
  have hne : ∀ e ∈ all, e ≠ entry := fun e he heq => hoff (heq ▸ he)
  have hmem : ∀ e ∈ all, e ∈ entry :: all := fun e he => List.mem_cons_of_mem _ he
  have hother : ∀ e ∈ all, (heap e).physicalAddr ≠ addr :=
    fun e he => h.other hfirst haddr (hmem e he) (hne e he)
  constructor
  · exact hnodup
  · exact fun e he => h.occupied e (hmem e he)
  · intro e he
    rw [Function.update_of_ne (hother e he)]
    exact h.count e (hmem e he)
  · intro e he
    rw [Function.update_of_ne (hother e he)]
    exact h.positive e (hmem e he)
  · exact fun e he e' he' => h.unique e (hmem e he) e' (hmem e' he')
  · intro a ha
    have haa : a ≠ addr := by
      rintro rfl
      simp at ha
    rw [Function.update_of_ne haa] at ha
    obtain ⟨e, he, heq⟩ := h.complete a ha
    rcases List.mem_cons.mp he with rfl | he
    · exact absurd (heq.symm.trans haddr) haa
    · exact ⟨e, he, heq⟩
  · intro e he
    rw [Function.update_of_ne (hne e he)]
    exact h.slab e (hmem e he)
  · intro a
    by_cases haa : a = addr
    · simp [haa]
    · simpa [haa] using h.small a

end Content

/-- As many entries as addresses that are counted. -/
theorem Content.ncard {heap : BitVec 64 → Entry} {slab : BitVec 64 → Bool}
    {counts : BitVec 64 → Nat} {all : List (BitVec 64)} (h : Content heap slab counts all) :
    {addr | counts addr ≠ 0}.ncard = all.length := by
  have hnodup : (all.map fun e => (heap e).physicalAddr).Nodup :=
    List.Nodup.map_on (fun e he e' he' => h.unique e he e' he') h.nodup
  have hset : {addr | counts addr ≠ 0} =
      ((all.map fun e => (heap e).physicalAddr).toFinset : Set (BitVec 64)) := by
    ext addr
    simp only [Set.mem_ofPred_eq, List.coe_toFinset, List.mem_map]
    constructor
    · exact h.complete addr
    · rintro ⟨e, he, rfl⟩
      exact h.positive e he
  rw [hset, Set.ncard_coe_finset, List.toFinset_card_of_nodup hnodup, List.length_map]

/-- What a search in a chain finds: an entry of the address, with its predecessor, or none. -/
theorem findEntry_spec {heap : BitVec 64 → Entry} {addr : BitVec 64} {fuel : Nat}
    {prev first : Option (BitVec 64)} {xs : List (BitVec 64)} (chain : Chain (link heap) first xs)
    (occupied : ∀ e ∈ xs, (heap e).isOccupied = true) (enough : xs.length ≤ fuel) :
    (findEntry heap addr fuel prev first = some none ∧
      ∀ e ∈ xs, (heap e).physicalAddr ≠ addr) ∨
    ∃ before entry after p, xs = before ++ entry :: after ∧ (heap entry).physicalAddr = addr ∧
      findEntry heap addr fuel prev first = some (some (p, entry)) ∧
      (before = [] ∧ p = prev ∨ ∃ bs c, before = bs ++ [c] ∧ p = some c) := by
  induction xs generalizing fuel prev first with
  | nil =>
    obtain rfl : first = none := chain
    rw [findEntry]
    exact Or.inl ⟨rfl, by simp⟩
  | cons x xs ih =>
    obtain ⟨rfl, htail⟩ := chain
    obtain ⟨fuel, rfl⟩ : ∃ n, fuel = n + 1 := ⟨fuel - 1, by simp at enough; omega⟩
    rw [findEntry]
    by_cases hx : (heap x).physicalAddr = addr
    · rw [if_pos ⟨hx, occupied x List.mem_cons_self⟩]
      exact Or.inr ⟨[], x, xs, prev, rfl, hx, rfl, Or.inl ⟨rfl, rfl⟩⟩
    · rw [if_neg fun hmatch => hx hmatch.1]
      have hrest := @ih fuel (some x) _ htail
        (fun e he => occupied e (List.mem_cons_of_mem _ he)) (by simpa using enough)
      rcases hrest with ⟨hnone, habsent⟩ | ⟨before, entry, after, p, rfl, haddr, hfound, hprev⟩
      · left
        refine ⟨hnone, ?_⟩
        intro e he
        rcases List.mem_cons.mp he with rfl | he
        · exact hx
        · exact habsent e he
      · right
        refine ⟨x :: before, entry, after, p, rfl, haddr, hfound, Or.inr ?_⟩
        rcases hprev with ⟨rfl, rfl⟩ | ⟨bs, c, rfl, rfl⟩
        · exact ⟨[], x, rfl, rfl⟩
        · exact ⟨x :: bs, c, rfl, rfl⟩

section Calls

variable {w : World} {queue : Nat → List (BitVec 64)} {addr : BitVec 64}

theorem mem_entriesOf {map : RefCountMap} {e : BitVec 64} :
    e ∈ entriesOf map queue ↔ ∃ i < map.size, e ∈ queue i := by
  simp [entriesOf, List.mem_flatMap]

theorem Inv.length_le (h : Inv w queue) {i : Nat} (hi : i < w.map.size) :
    (queue i).length ≤ w.map.numEntries := by
  have hsub : (queue i).Sublist (entriesOf w.map queue) :=
    List.sublist_flatten_of_mem (List.mem_map.mpr ⟨i, List.mem_range.mpr hi, rfl⟩)
  rw [h.numEntries]
  exact hsub.length_le

/-- What the search of an increment or a decrement finds. -/
theorem Inv.search (h : Inv w queue) (addr : BitVec 64) {fuel : Nat}
    (enough : w.map.numEntries ≤ fuel) :
    ∃ first, getBucket w.map.blockList (hashAddress addr w.map.size) = some first ∧
      ((findEntry w.heap addr fuel none first = some none ∧ w.counts addr = 0) ∨
        ∃ before entry after p,
          queue (hashAddress addr w.map.size) = before ++ entry :: after ∧
          (w.heap entry).physicalAddr = addr ∧
          findEntry w.heap addr fuel none first = some (some (p, entry)) ∧
          (before = [] ∧ p = none ∨ ∃ bs c, before = bs ++ [c] ∧ p = some c)) := by
  have hidx := hashAddress_lt h.layout.pos addr
  have hmem : ∀ e ∈ queue (hashAddress addr w.map.size), e ∈ entriesOf w.map queue :=
    fun e he => mem_entriesOf.mpr ⟨_, hidx, he⟩
  have hspec := @findEntry_spec w.heap addr fuel none _ _
    (h.layout.family _ (List.mem_range.mpr hidx)) (fun e he => h.content.occupied e (hmem e he))
    (Nat.le_trans (h.length_le hidx) enough)
  refine ⟨_, getBucket_eq (h.layout.size ▸ hidx), ?_⟩
  rcases hspec with ⟨hnone, habsent⟩ | hfound
  · left
    refine ⟨hnone, ?_⟩
    by_contra hcount
    obtain ⟨e, he, haddr⟩ := h.content.complete addr hcount
    obtain ⟨i, hi, hei⟩ := mem_entriesOf.mp he
    -- an entry of the address would be in the bucket that was searched
    have hplace := h.layout.placed i hi e hei
    rw [haddr] at hplace
    subst hplace
    exact habsent e hei haddr
  · exact Or.inr hfound

/-- A change of the entries that keeps their links and addresses. -/
theorem Layout.congr {map map' : RefCountMap} {heap heap' : BitVec 64 → Entry}
    (h : Layout map heap queue) (size : map'.size = map.size)
    (blocks : map'.blockList = map.blockList) (hlink : link heap' = link heap)
    (hphys : ∀ e, (heap' e).physicalAddr = (heap e).physicalAddr) : Layout map' heap' queue := by
  constructor
  · rw [size, blocks]
    exact h.size
  · rw [size]
    exact h.pos
  · rw [size, blocks, hlink]
    exact h.family
  · intro i hi e he
    rw [size] at hi
    rw [hphys, size]
    exact h.placed i hi e he

theorem Layout.recount {map : RefCountMap} {heap : BitVec 64 → Entry} (h : Layout map heap queue)
    (entry n : BitVec 64) :
    Layout map (Function.update heap entry { heap entry with refCount := n }) queue := by
  apply h.congr rfl rfl
  · rw [link_update]
    exact Function.update_eq_self entry (link heap)
  · intro e
    by_cases hee : e = entry
    · simp [hee]
    · simp [hee]

/-- A new entry at the front of its bucket. -/
theorem Layout.add {map : RefCountMap} {heap : BitVec 64 → Entry} (h : Layout map heap queue)
    {new : BitVec 64} (off : new ∉ entriesOf map queue) (numEntries : Nat) :
    Layout { map with
        numEntries := numEntries
        blockList := setBucket map.blockList (hashAddress addr map.size) (some new) }
      (Function.update heap new
        ⟨addr, 1, true, bucket map.blockList (hashAddress addr map.size)⟩)
      (Function.update queue (hashAddress addr map.size)
        (new :: queue (hashAddress addr map.size))) := by
  have hidx := hashAddress_lt h.pos addr
  constructor
  · rw [length_setBucket]
    exact h.size
  · exact h.pos
  · rw [link_update, bucket_setBucket (h.size ▸ hidx)]
    exact h.family.push (List.mem_range.mpr hidx) off
  · intro i hi e he
    have hold : ∀ e ∈ queue i, hashAddress (Function.update heap new
        ⟨addr, 1, true, bucket map.blockList (hashAddress addr map.size)⟩ e).physicalAddr
          map.size = i := by
      intro e he
      have hne : e ≠ new := fun heq => off (heq ▸ mem_entriesOf.mpr ⟨i, hi, he⟩)
      rw [Function.update_of_ne hne]
      exact h.placed i hi e he
    by_cases hii : i = hashAddress addr map.size
    · subst hii
      rw [Function.update_self] at he
      rcases List.mem_cons.mp he with rfl | he
      · simp
      · exact hold e he
    · rw [Function.update_of_ne hii] at he
      exact hold e he

/-- `refcount_map_increment` on an address without an entry. -/
theorem Inv.addEntry (h : Inv w queue) {new : BitVec 64} (absent : w.counts addr = 0)
    (fresh : w.slab new = false) :
    ∃ w' queue', addEntry w addr (some new) = some (1, w') ∧ Inv w' queue' ∧
      w'.counts = Function.update w.counts addr 1 := by
  have hidx := hashAddress_lt h.layout.pos addr
  have hin : hashAddress addr w.map.size < ptrsPerBlock * w.map.blockList.length :=
    h.layout.size ▸ hidx
  have hoff : new ∉ entriesOf w.map queue := by
    intro hnew
    rw [h.content.slab new hnew] at fresh
    exact Bool.noConfusion fresh
  have hperm : (entriesOf w.map (Function.update queue (hashAddress addr w.map.size)
      (new :: queue (hashAddress addr w.map.size)))).Perm (new :: entriesOf w.map queue) :=
    flatMap_update_perm List.nodup_range (List.mem_range.mpr hidx) (List.Perm.refl _)
  have hcall := RefCountMaps.addEntry.eq_2 w addr new
  rw [getBucket_eq hin, Option.map_some, absent] at hcall
  refine ⟨_, Function.update queue (hashAddress addr w.map.size)
    (new :: queue (hashAddress addr w.map.size)), hcall, ⟨h.layout.add hoff _, ?_, ?_⟩, rfl⟩
  · exact (h.content.add absent hoff _).congr hperm (fun _ _ => rfl) (fun _ _ => rfl)
      fun _ _ => rfl
  · rw [h.numEntries]
    exact hperm.length_eq.symm

/-- The buckets of a list of entries hold all of them. -/
theorem perm_bucketOf {heap : BitVec 64 → Entry} {size : Nat} (pos : 0 < size)
    {all : List (BitVec 64)} (nodup : all.Nodup) :
    ((List.range size).flatMap (bucketOf heap size all)).Perm all := by
  have hnodup : ((List.range size).flatMap (bucketOf heap size all)).Nodup := by
    rw [List.nodup_flatMap]
    constructor
    · exact fun i _ => nodup.filter _
    · apply List.nodup_range.imp
      intro i j hij e hi hj
      have hi' : hashAddress (heap e).physicalAddr size = i := by
        simpa using (List.mem_filter.mp hi).2
      have hj' : hashAddress (heap e).physicalAddr size = j := by
        simpa using (List.mem_filter.mp hj).2
      exact hij (hi'.symm.trans hj')
  apply (List.perm_ext_iff_of_nodup hnodup nodup).mpr
  intro e
  rw [List.mem_flatMap]
  constructor
  · rintro ⟨i, -, hi⟩
    exact (List.mem_filter.mp hi).1
  · intro he
    refine ⟨_, List.mem_range.mpr (hashAddress_lt pos (heap e).physicalAddr), ?_⟩
    exact List.mem_filter.mpr ⟨he, by simp⟩

/-- A resize that gets its blocks moves every entry to the bucket that the new size selects. -/
theorem Inv.resizeMap_of_blocks (h : Inv w queue) {fuel : Nat} (enough : w.map.numEntries ≤ fuel)
    {allocs : Allocs} (header : allocs.header = true) {newBlocks : List Block}
    (hblocks : allocateBucketArray allocs.memory (w.map.size * 2) = some newBlocks) :
    ∃ map heap queue', RefCountMaps.resizeMap fuel w.map w.heap allocs = some (some (map, heap)) ∧
      Inv { w with map := map, heap := heap } queue' := by
  have hdouble : w.map.size * 2 = ptrsPerBlock * (w.map.blockList.length * 2) := by
    rw [h.layout.size, Nat.mul_assoc]
  have hsize := h.layout.size
  have hsizePos := h.layout.pos
  have hpos : 0 < w.map.size * 2 := by omega
  have hlengthPos : 0 < w.map.blockList.length * 2 := by
    have hne : w.map.blockList.length ≠ 0 := by
      intro hzero
      rw [hsize, hzero] at hsizePos
      exact absurd hsizePos (by simp)
    omega
  have hempty := hblocks
  rw [hdouble] at hempty
  obtain ⟨hlength, hclear⟩ := allocateBucketArray_spec hlengthPos hempty
  have hnew : w.map.size * 2 = ptrsPerBlock * newBlocks.length := hlength ▸ hdouble
  have hnodup := h.content.nodup
  have hstart : Moved (w.map.size * 2) w.heap [] (w.heap, newBlocks) := by
    constructor
    · exact hnew
    · intro i _
      exact hclear i
    · exact fun _ => rfl
  have hmoved := hstart.foldl hpos hnodup (fun _ _ => List.not_mem_nil)
  rw [List.append_nil] at hmoved
  have hrun : rehashBuckets fuel (w.map.size * 2) w.map.blockList w.map.size 0
      (w.heap, newBlocks) =
      some ((entriesOf w.map queue).foldl (moveEntry (w.map.size * 2)) (w.heap, newBlocks)) := by
    rw [entriesOf, List.range_eq_range']
    apply rehashBuckets_eq
    · rw [← List.range_eq_range']
      exact h.layout.family
    · rw [← List.range_eq_range']
      exact hnodup
    · intro i hi
      rw [← List.range_eq_range', List.mem_range] at hi
      exact Nat.le_trans (h.length_le hi) enough
    · omega
    · exact hnew
    · exact hpos
  have hperm : ((List.range (w.map.size * 2)).flatMap
      (bucketOf w.heap (w.map.size * 2) (entriesOf w.map queue).reverse)).Perm
        (entriesOf w.map queue) :=
    (perm_bucketOf hpos (List.nodup_reverse.mpr hnodup)).trans (List.reverse_perm _)
  generalize (entriesOf w.map queue).foldl (moveEntry (w.map.size * 2)) (w.heap, newBlocks) =
    state at hmoved hrun
  refine ⟨{ w.map with size := w.map.size * 2, blockList := state.2 }, state.1,
    bucketOf w.heap (w.map.size * 2) (entriesOf w.map queue).reverse, ?_, ?_⟩
  · rw [RefCountMaps.resizeMap, if_pos header]
    simp only [hblocks, hrun, Option.map_some]
  · constructor
    · constructor
      · exact hmoved.size
      · exact hpos
      · exact hmoved.family
      · intro i _ e he
        rw [(hmoved.field e).1]
        simpa using (List.mem_filter.mp he).2
    · apply h.content.congr hperm
      · exact fun e _ => (hmoved.field e).1
      · exact fun e _ => (hmoved.field e).2.1
      · exact fun e _ => (hmoved.field e).2.2
    · exact h.numEntries.trans hperm.length_eq.symm

theorem Inv.resizeMap (h : Inv w queue) {fuel : Nat} (enough : w.map.numEntries ≤ fuel)
    {allocs : Allocs} (header : allocs.header = true) (granted : ∀ i, (allocs.memory i).isSome) :
    ∃ map heap queue', resizeMap fuel w.map w.heap allocs = some (some (map, heap)) ∧
      Inv { w with map := map, heap := heap } queue' := by
  obtain ⟨newBlocks, hblocks⟩ := Option.isSome_iff_exists.mp
    (allocateBucketArray_isSome granted (w.map.size * 2))
  exact h.resizeMap_of_blocks enough header hblocks

/-- The allocations of a call succeed, and the entry was not given out. -/
structure Granted (w : World) (allocs : Allocs) : Prop where
  header : allocs.header = true
  memory : ∀ i, (allocs.memory i).isSome
  entry : ∃ new, allocs.entry = some new ∧ w.slab new = false

theorem Inv.count_eq (h : Inv w queue) {i : Nat} (hi : i < w.map.size) {entry : BitVec 64}
    (he : entry ∈ queue i) (haddr : (w.heap entry).physicalAddr = addr) :
    (w.heap entry).refCount = BitVec.ofNat 64 (w.counts addr) := by
  have hcount := h.content.count entry (mem_entriesOf.mpr ⟨i, hi, he⟩)
  rw [haddr] at hcount
  rw [← hcount, BitVec.ofNat_toNat, BitVec.setWidth_eq]

theorem toNat_ofNat_of_small {n : Nat} (small : n < 0x100000000) :
    (BitVec.ofNat 64 n).toNat = n := by
  rw [BitVec.toNat_ofNat]
  exact Nat.mod_eq_of_lt (Nat.lt_trans small (by decide))

/-- Giving the entry of an address another count. -/
theorem Inv.recount (h : Inv w queue) {i : Nat} (hi : i < w.map.size) {entry : BitVec 64}
    (he : entry ∈ queue i) (haddr : (w.heap entry).physicalAddr = addr) {n : Nat} (pos : n ≠ 0)
    (small : n < 0x100000000) :
    Inv { w with
      heap := Function.update w.heap entry
        { w.heap entry with refCount := BitVec.ofNat 64 n }
      counts := Function.update w.counts addr n } queue := by
  have hn := toNat_ofNat_of_small small
  have hcontent := h.content.recount (mem_entriesOf.mpr ⟨i, hi, he⟩) haddr
    (hn.symm ▸ pos) (hn.symm ▸ small)
  rw [hn] at hcontent
  exact ⟨h.layout.recount entry _, hcontent, h.numEntries⟩

/-- `refcount_map_increment` answers the new count of the address. -/
theorem Inv.increment (h : Inv w queue) {fuel : Nat} (enough : w.map.numEntries ≤ fuel)
    {allocs : Allocs} (granted : Granted w allocs) (small : w.counts addr + 1 < 0x100000000) :
    ∃ w' queue',
      refcountMapIncrement fuel w addr allocs = some (BitVec.ofNat 32 (w.counts addr + 1), w') ∧
      Inv w' queue' ∧ w'.counts = Function.update w.counts addr (w.counts addr + 1) := by
  obtain ⟨first, hfirst, ⟨hnone, habsent⟩ | ⟨before, entry, after, p, hqueue, haddr, hfound, -⟩⟩ :=
    h.search addr enough
  · obtain ⟨new, hentry, hfresh⟩ := granted.entry
    rw [refcountMapIncrement, hfirst, Option.bind_some, hnone, Option.bind_some]
    simp only [habsent, hentry]
    split_ifs with hload
    · obtain ⟨map, heap, queue', hresize, hinv⟩ :=
        h.resizeMap enough granted.header granted.memory
      rw [hresize, Option.bind_some]
      exact hinv.addEntry habsent hfresh
    · exact h.addEntry habsent hfresh
  · have hidx := hashAddress_lt h.layout.pos addr
    have he : entry ∈ queue (hashAddress addr w.map.size) := by
      rw [hqueue]
      simp
    have hcount : (w.heap entry).refCount + 1 = BitVec.ofNat 64 (w.counts addr + 1) := by
      rw [h.count_eq hidx he haddr, BitVec.ofNat_add]
      rfl
    have hresult : (BitVec.ofNat 64 (w.counts addr + 1)).setWidth 32 =
        BitVec.ofNat 32 (w.counts addr + 1) :=
      BitVec.setWidth_ofNat_of_le (by decide) _
    rw [refcountMapIncrement, hfirst, Option.bind_some, hfound, Option.bind_some]
    simp only [hcount, hresult]
    exact ⟨_, queue, rfl, h.recount hidx he haddr (Nat.succ_ne_zero _) small, rfl⟩

/-- Taking the entry of an address out of its chain. -/
theorem Inv.remove (h : Inv w queue) {before after : List (BitVec 64)} {entry : BitVec 64}
    (hqueue : queue (hashAddress addr w.map.size) = before ++ entry :: after)
    (haddr : (w.heap entry).physicalAddr = addr) {heap : BitVec 64 → Entry}
    {blockList : List Block} (hlength : blockList.length = w.map.blockList.length)
    (hbucket : bucket blockList = Function.update (bucket w.map.blockList)
      (hashAddress addr w.map.size) (bucket blockList (hashAddress addr w.map.size)))
    (hchain : Chain (link heap) (bucket blockList (hashAddress addr w.map.size))
      (before ++ after))
    (hlink : ∀ e, e ∉ queue (hashAddress addr w.map.size) → link heap e = link w.heap e)
    (hkept : ∀ e, e ≠ entry → { heap e with next := none } = { w.heap e with next := none }) :
    Inv { map :=
            { w.map with numEntries := w.map.numEntries - 1, blockList := blockList }
          heap := heap, slab := Function.update w.slab entry false
          counts := Function.update w.counts addr 0 }
      (Function.update queue (hashAddress addr w.map.size) (before ++ after)) := by
  have hidx := hashAddress_lt h.layout.pos addr
  have hsame : ∀ e, e ≠ entry → (heap e).physicalAddr = (w.heap e).physicalAddr ∧
      (heap e).refCount = (w.heap e).refCount ∧ (heap e).isOccupied = (w.heap e).isOccupied := by
    intro e he
    have hfields := hkept e he
    simp only [Entry.mk.injEq] at hfields
    exact ⟨hfields.1, hfields.2.1, hfields.2.2.1⟩
  generalize hidxEq : hashAddress addr w.map.size = idx at *
  have hback : Function.update (Function.update queue idx (before ++ after)) idx (queue idx) =
      queue := by
    rw [Function.update_idem, Function.update_eq_self]
  have hmiddle : (queue idx).Perm
      (entry :: Function.update queue idx (before ++ after) idx) := by
    rw [hqueue, Function.update_self]
    exact List.perm_middle
  have hperm := flatMap_update_perm List.nodup_range (List.mem_range.mpr hidx) hmiddle
  rw [hback] at hperm
  have hnodup := List.nodup_cons.mp (hperm.nodup_iff.mp h.content.nodup)
  have hne : ∀ e ∈ (List.range w.map.size).flatMap
      (Function.update queue idx (before ++ after)), e ≠ entry :=
    fun e he heq => hnodup.1 (heq ▸ he)
  have hold : ∀ i, ∀ e ∈ Function.update queue idx (before ++ after) i, e ∈ queue i := by
    intro i e he
    by_cases hi : i = idx
    · subst hi
      rw [Function.update_self] at he
      rw [hqueue]
      simp only [List.mem_append, List.mem_cons] at he ⊢
      tauto
    · rw [Function.update_of_ne hi] at he
      exact he
  constructor
  · constructor
    · rw [hlength]
      exact h.layout.size
    · exact h.layout.pos
    · rw [hbucket]
      exact h.layout.family.rewrite h.content.nodup (List.mem_range.mpr hidx) hlink hchain
    · intro i hi e he
      have hother : e ≠ entry := hne e (List.mem_flatMap.mpr ⟨i, List.mem_range.mpr hi, he⟩)
      rw [(hsame e hother).1]
      exact h.layout.placed i hi e (hold i e he)
  · have hsplit : Content w.heap w.slab w.counts (entry :: (List.range w.map.size).flatMap
        (Function.update queue idx (before ++ after))) :=
      h.content.congr hperm.symm (fun _ _ => rfl) (fun _ _ => rfl) fun _ _ => rfl
    apply (hsplit.drop haddr).congr (List.Perm.refl _)
    · exact fun e he => (hsame e (hne e he)).1
    · exact fun e he => (hsame e (hne e he)).2.1
    · exact fun e he => (hsame e (hne e he)).2.2
  · have hlen := hperm.length_eq
    rw [List.length_cons] at hlen
    change w.map.numEntries - 1 = _
    rw [h.numEntries, entriesOf, hlen, entriesOf]
    rfl

theorem kept_update {heap : BitVec 64 → Entry} {entry c : BitVec 64} (n : BitVec 64)
    (next : Option (BitVec 64)) {e : BitVec 64} (he : e ≠ entry) :
    { Function.update (Function.update heap entry { heap entry with refCount := n }) c
      { Function.update heap entry { heap entry with refCount := n } c with next := next } e with
        next := none } = { heap e with next := none } := by
  by_cases hec : e = c
  · subst hec
    simp [he]
  · simp [hec, he]

/-- `refcount_map_decrement` answers the count of the address before it. -/
theorem Inv.decrement (h : Inv w queue) {fuel : Nat} (enough : w.map.numEntries ≤ fuel)
    (addr : BitVec 64) :
    ∃ w' queue', refcountMapDecrement fuel w addr = some (BitVec.ofNat 32 (w.counts addr), w') ∧
      Inv w' queue' ∧ w'.counts = Function.update w.counts addr (w.counts addr - 1) := by
  obtain ⟨first, hfirst, ⟨hnone, habsent⟩ |
    ⟨before, entry, after, p, hqueue, haddr, hfound, hprev⟩⟩ := h.search addr enough
  · refine ⟨w, queue, ?_, h, ?_⟩
    · rw [refcountMapDecrement]
      simp [hfirst, hnone, habsent]
    · rw [habsent]
      exact (Function.update_eq_self_iff.mpr habsent.symm).symm
  · have hidx := hashAddress_lt h.layout.pos addr
    have he : entry ∈ queue (hashAddress addr w.map.size) := by
      rw [hqueue]
      simp
    have hpositive : w.counts addr ≠ 0 := by
      have := h.content.positive entry (mem_entriesOf.mpr ⟨_, hidx, he⟩)
      rwa [haddr] at this
    have hsmall := h.content.small addr
    obtain ⟨n, hn⟩ : ∃ n, w.counts addr = n + 1 := ⟨w.counts addr - 1, by omega⟩
    have hcount : (w.heap entry).refCount - 1 = BitVec.ofNat 64 n := by
      rw [h.count_eq hidx he haddr, hn, BitVec.ofNat_add]
      exact BitVec.add_sub_cancel _ _
    have hlast : link (Function.update w.heap entry
        { w.heap entry with refCount := BitVec.ofNat 64 n }) = link w.heap := by
      rw [link_update]
      exact Function.update_eq_self entry (link w.heap)
    have hchain := h.layout.family _ (List.mem_range.mpr hidx)
    rw [hqueue] at hchain
    rw [refcountMapDecrement]
    simp only [hfirst, Option.bind_some, hfound, Option.map_some, hcount, hn,
      Nat.add_sub_cancel]
    by_cases hzero : n = 0
    · subst hzero
      have hbits : BitVec.ofNat 64 0 = 0 := rfl
      rw [if_pos hbits]
      rcases hprev with ⟨rfl, rfl⟩ | ⟨bs, c, rfl, rfl⟩
      · -- the entry is the first one of its bucket
        have hset := bucket_setBucket (Nat.lt_of_lt_of_eq hidx h.layout.size) (w.heap entry).next
        refine ⟨_, _, rfl, h.remove hqueue haddr (length_setBucket _) ?_ ?_ ?_ ?_, rfl⟩
        · simp only [Function.update_self]
          rw [hset, Function.update_self]
        · simp only [Function.update_self] at hlast ⊢
          rw [hset, Function.update_self, hlast]
          exact hchain.2
        · intro e _
          rw [hlast]
        · intro e hne
          rw [Function.update_of_ne hne]
      · have hnext := hchain
        rw [List.append_assoc, List.singleton_append] at hnext
        have hbefore : c ∈ queue (hashAddress addr w.map.size) := by
          rw [hqueue]
          simp
        refine ⟨_, _, rfl, h.remove hqueue haddr rfl ?_ ?_ ?_ ?_, rfl⟩
        · exact (Function.update_eq_self _ _).symm
        · rw [link_update, hlast, Function.update_self, List.append_assoc, List.singleton_append]
          exact hnext.unlinkAfter
        · intro e hout
          rw [link_update, hlast]
          apply Function.update_of_ne
          rintro rfl
          exact hout hbefore
        · exact fun e hne => kept_update _ _ hne
    · have hbits : BitVec.ofNat 64 n ≠ 0 := by
        intro heq
        have htoNat := congrArg BitVec.toNat heq
        rw [toNat_ofNat_of_small (by omega)] at htoNat
        exact hzero htoNat
      rw [if_neg hbits]
      refine ⟨_, queue, ?_, h.recount hidx he haddr hzero (by omega), rfl⟩
      have hresult : (BitVec.ofNat 64 n + 1).setWidth 32 = BitVec.ofNat 32 (n + 1) := by
        have hsucc : BitVec.ofNat 64 n + 1 = BitVec.ofNat 64 (n + 1) :=
          (BitVec.ofNat_add n 1).symm
        rw [hsucc]
        exact BitVec.setWidth_ofNat_of_le (by decide) _
      rw [hresult]

end Calls

/-! ## Fuel -/

section Fuel

variable {fuel fuel' : Nat} {heap : BitVec 64 → Entry} {addr : BitVec 64}

theorem findEntry_mono (more : fuel ≤ fuel') {prev first : Option (BitVec 64)}
    {found : Option (Option (BitVec 64) × BitVec 64)}
    (h : findEntry heap addr fuel prev first = some found) :
    findEntry heap addr fuel' prev first = some found := by
  induction fuel generalizing fuel' prev first with
  | zero =>
    cases first with
    | none =>
      rw [findEntry] at h ⊢
      exact h
    | some entry => simp [findEntry] at h
  | succ fuel ih =>
    cases first with
    | none =>
      rw [findEntry] at h ⊢
      exact h
    | some entry =>
      obtain ⟨k, rfl⟩ : ∃ k, fuel' = k + 1 := ⟨fuel' - 1, by omega⟩
      rw [findEntry] at h ⊢
      split_ifs at h ⊢ with hmatch
      · exact h
      · exact ih (by omega) h

theorem rehashChain_mono (more : fuel ≤ fuel') {newSize : Nat} {first : Option (BitVec 64)}
    {state state' : (BitVec 64 → Entry) × List Block}
    (h : rehashChain newSize fuel first state = some state') :
    rehashChain newSize fuel' first state = some state' := by
  induction fuel generalizing fuel' first state with
  | zero =>
    cases first with
    | none =>
      rw [rehashChain] at h ⊢
      exact h
    | some entry => simp [rehashChain] at h
  | succ fuel ih =>
    cases first with
    | none =>
      rw [rehashChain] at h ⊢
      exact h
    | some entry =>
      obtain ⟨k, rfl⟩ : ∃ k, fuel' = k + 1 := ⟨fuel' - 1, by omega⟩
      obtain ⟨heap, blockList⟩ := state
      rw [rehashChain] at h ⊢
      obtain ⟨head, hhead, hrest⟩ := Option.bind_eq_some_iff.mp h
      rw [hhead, Option.bind_some]
      exact ih (by omega) hrest

theorem rehashBuckets_mono (more : fuel ≤ fuel') {newSize n i : Nat} {oldBlocks : List Block}
    {state state' : (BitVec 64 → Entry) × List Block}
    (h : rehashBuckets fuel newSize oldBlocks n i state = some state') :
    rehashBuckets fuel' newSize oldBlocks n i state = some state' := by
  induction n generalizing i state with
  | zero => exact h
  | succ n ih =>
    rw [rehashBuckets] at h ⊢
    obtain ⟨first, hfirst, h⟩ := Option.bind_eq_some_iff.mp h
    obtain ⟨next, hchain, h⟩ := Option.bind_eq_some_iff.mp h
    rw [hfirst, Option.bind_some, rehashChain_mono more hchain, Option.bind_some]
    exact ih h

theorem resizeMap_mono (more : fuel ≤ fuel') {map : RefCountMap} {allocs : Allocs}
    {resized : Option (RefCountMap × (BitVec 64 → Entry))}
    (h : resizeMap fuel map heap allocs = some resized) :
    resizeMap fuel' map heap allocs = some resized := by
  rw [resizeMap] at h ⊢
  split_ifs at h ⊢ with hheader
  · cases hblocks : allocateBucketArray allocs.memory (map.size * 2) with
    | none =>
      simp only [hblocks] at h ⊢
      exact h
    | some newBlocks =>
      simp only [hblocks] at h ⊢
      obtain ⟨state, hstate, hresized⟩ := Option.map_eq_some_iff.mp h
      rw [rehashBuckets_mono more hstate, Option.map_some]
      exact congrArg some hresized
  · exact h

end Fuel

/-! ## Runs -/

inductive Call where
  | increment (addr : BitVec 64) (allocs : Allocs)
  | decrement (addr : BitVec 64)

def exec (fuel : Nat) (w : World) : Call → Option (BitVec 32 × World)
  | .increment addr allocs => refcountMapIncrement fuel w addr allocs
  | .decrement addr => refcountMapDecrement fuel w addr

/-- The call ends with the answer `r` in the state `w'`. -/
def Returns (w : World) (call : Call) (r : BitVec 32) (w' : World) : Prop :=
  ∃ fuel, exec fuel w call = some (r, w')

/-- Allocations succeed and counts stay below 2^32. -/
def Valid (w : World) : Call → Prop
  | .increment addr allocs => Granted w allocs ∧ w.counts addr + 1 < 0x100000000
  | .decrement _ => True

/-- The map as `refcount_map_init` leaves it. -/
def Started (w : World) : Prop :=
  (∃ memory, refcountMapInit true memory = some w.map) ∧ ∀ addr, w.counts addr = 0

def refcountMap : System World Call where
  init := Started
  step := fun w call w' => Valid w call ∧ ∃ r, Returns w call r w'

/-- The counts after a call. -/
def countAfter (counts : BitVec 64 → Nat) : Call → BitVec 64 → Nat
  | .increment addr _ => Function.update counts addr (counts addr + 1)
  | .decrement addr => Function.update counts addr (counts addr - 1)

def answer (counts : BitVec 64 → Nat) : Call → BitVec 32
  | .increment addr _ => BitVec.ofNat 32 (counts addr + 1)
  | .decrement addr => BitVec.ofNat 32 (counts addr)

theorem started_inv {w : World} (h : Started w) : Inv w fun _ => [] := by
  obtain ⟨⟨memory, hinit⟩, hcounts⟩ := h
  rw [refcountMapInit, if_pos rfl] at hinit
  obtain ⟨blockList, hblocks, hmap⟩ := Option.map_eq_some_iff.mp hinit
  have hsize : initialSize = ptrsPerBlock * 2 := rfl
  rw [hsize] at hblocks
  obtain ⟨hlength, hclear⟩ := allocateBucketArray_spec (by decide) hblocks
  have hempty : entriesOf w.map (fun _ => []) = [] := by
    rw [entriesOf]
    exact List.flatMap_eq_nil_iff.mpr fun _ _ => rfl
  constructor
  · rw [← hmap]
    constructor
    · rw [hlength]
      rfl
    · exact Nat.zero_lt_succ _
    · exact fun i _ => hclear i
    · exact fun _ _ e he => absurd he List.not_mem_nil
  · rw [hempty]
    constructor
    · exact List.nodup_nil
    · exact fun e he => absurd he List.not_mem_nil
    · exact fun e he => absurd he List.not_mem_nil
    · exact fun e he => absurd he List.not_mem_nil
    · exact fun e he => absurd he List.not_mem_nil
    · exact fun addr hne => absurd (hcounts addr) hne
    · exact fun e he => absurd he List.not_mem_nil
    · intro addr
      rw [hcounts addr]
      decide
  · rw [hempty, ← hmap]
    rfl

/-- One call does to the counts what it says. -/
theorem Inv.call {w : World} {queue : Nat → List (BitVec 64)} (h : Inv w queue) {call : Call}
    (valid : Valid w call) :
    ∀ fuel ≥ w.map.numEntries, ∃ w' queue', exec fuel w call = some (answer w.counts call, w') ∧
      Inv w' queue' ∧ w'.counts = countAfter w.counts call := by
  intro fuel enough
  cases call with
  | increment addr allocs => exact h.increment enough valid.1 valid.2
  | decrement addr => exact h.decrement enough addr

/-- More fuel does not change the outcome of a call. -/
theorem exec_mono {fuel fuel' : Nat} (more : fuel ≤ fuel') {w : World} {call : Call}
    {outcome : BitVec 32 × World} (h : exec fuel w call = some outcome) :
    exec fuel' w call = some outcome := by
  cases call with
  | increment addr allocs =>
    rw [exec, refcountMapIncrement] at h ⊢
    obtain ⟨first, hfirst, h⟩ := Option.bind_eq_some_iff.mp h
    obtain ⟨found, hfound, h⟩ := Option.bind_eq_some_iff.mp h
    rw [hfirst, Option.bind_some, findEntry_mono more hfound, Option.bind_some]
    cases found with
    | some found => exact h
    | none =>
      split_ifs at h ⊢ with hload
      · obtain ⟨resized, hresized, h⟩ := Option.bind_eq_some_iff.mp h
        rw [resizeMap_mono more hresized, Option.bind_some]
        exact h
      · exact h
  | decrement addr =>
    rw [exec, refcountMapDecrement] at h ⊢
    obtain ⟨first, hfirst, h⟩ := Option.bind_eq_some_iff.mp h
    obtain ⟨found, hfound, h⟩ := Option.map_eq_some_iff.mp h
    simp only [hfirst, Option.bind_some, findEntry_mono more hfound, Option.map_some]
    exact congrArg some h

/-- What a call of a valid state returns. -/
theorem Inv.returns {w w' : World} {queue : Nat → List (BitVec 64)} (h : Inv w queue) {call : Call}
    (valid : Valid w call) {r : BitVec 32} (returns : Returns w call r w') :
    r = answer w.counts call ∧ w'.counts = countAfter w.counts call ∧ ∃ queue', Inv w' queue' := by
  obtain ⟨fuel, hexec⟩ := returns
  obtain ⟨w'', queue', hcall, hinv, hcounts⟩ :=
    h.call valid (max fuel w.map.numEntries) (Nat.le_max_right _ _)
  have heq := hcall.symm.trans (exec_mono (Nat.le_max_left _ _) hexec)
  obtain ⟨rfl, rfl⟩ := Prod.mk.inj (Option.some.inj heq)
  exact ⟨rfl, hcounts, queue', hinv⟩

theorem reachable_inv {w : World} (h : Reachable refcountMap w) : ∃ queue, Inv w queue := by
  refine Reachable.invariant (fun w => ∃ queue, Inv w queue) ?_ ?_ h
  · exact fun w hstart => ⟨_, started_inv hstart⟩
  · rintro w call w' ⟨queue, hinv⟩ ⟨hvalid, r, hreturns⟩
    exact (hinv.returns hvalid hreturns).2.2

/-- In every run the map is the function `counts`: a call ends, answers the new count or the one
before it, and changes the count of its address only; there is one entry for each address that is
counted, in the bucket of its address, with its count. -/
theorem refcount_map_refines_counts {w : World} (h : Reachable refcountMap w) :
    (∀ call, Valid w call → ∃ r w', Returns w call r w') ∧
    (∀ call r w', Valid w call → Returns w call r w' →
      r = answer w.counts call ∧ w'.counts = countAfter w.counts call) ∧
    w.map.numEntries = {addr | w.counts addr ≠ 0}.ncard ∧
    ∃ queue : Nat → List (BitVec 64),
      (∀ i < w.map.size, Chain (link w.heap) (bucket w.map.blockList i) (queue i)) ∧
      (∀ i < w.map.size, ∀ e ∈ queue i, hashAddress (w.heap e).physicalAddr w.map.size = i ∧
        (w.heap e).refCount.toNat = w.counts (w.heap e).physicalAddr) ∧
      ∀ addr, w.counts addr ≠ 0 →
        ∃! e, e ∈ queue (hashAddress addr w.map.size) ∧ (w.heap e).physicalAddr = addr := by
  obtain ⟨queue, hinv⟩ := reachable_inv h
  refine ⟨?_, ?_, ?_, queue, ?_, ?_, ?_⟩
  · intro call hvalid
    obtain ⟨w', _, hcall, _⟩ := hinv.call hvalid _ (Nat.le_refl _)
    exact ⟨_, w', _, hcall⟩
  · intro call r w' hvalid hreturns
    obtain ⟨hr, hcounts, -⟩ := hinv.returns hvalid hreturns
    exact ⟨hr, hcounts⟩
  · rw [hinv.content.ncard]
    exact hinv.numEntries
  · exact fun i hi => hinv.layout.family i (List.mem_range.mpr hi)
  · intro i hi e he
    exact ⟨hinv.layout.placed i hi e he, hinv.content.count e (mem_entriesOf.mpr ⟨i, hi, he⟩)⟩
  · intro addr hcounted
    have hidx := hashAddress_lt hinv.layout.pos addr
    obtain ⟨e, hmem, haddr⟩ := hinv.content.complete addr hcounted
    obtain ⟨i, hi, hei⟩ := mem_entriesOf.mp hmem
    have hplace := hinv.layout.placed i hi e hei
    rw [haddr] at hplace
    subst hplace
    refine ⟨e, ⟨hei, haddr⟩, ?_⟩
    rintro e' ⟨hei', haddr'⟩
    exact hinv.content.unique e' (mem_entriesOf.mpr ⟨_, hi, hei'⟩) e hmem
      (haddr'.trans haddr.symm)

/-- A map that was just initialised. -/
theorem exists_started : ∃ w, Started w ∧ ∀ e, w.slab e = false := by
  obtain ⟨blockList, hblocks⟩ := Option.isSome_iff_exists.mp
    (@allocateBucketArray_isSome (fun _ => some fun _ => none) (fun _ => rfl) initialSize)
  refine ⟨⟨⟨initialSize, 0, blockList⟩, fun _ => ⟨0, 0, false, none⟩, fun _ => false, fun _ => 0⟩,
    ⟨⟨fun _ => some fun _ => none, ?_⟩, fun _ => rfl⟩, fun _ => rfl⟩
  rw [refcountMapInit, if_pos rfl, hblocks]
  rfl

/-- Counting an address up and down again. -/
theorem refcount_map_refines_counts_once :
    ∃ w w' : World, Reachable refcountMap w ∧ w.counts 0x1000 = 1 ∧
      Returns w (.decrement 0x1000) 1 w' ∧ w'.counts 0x1000 = 0 ∧ w.map.numEntries = 1 := by
  obtain ⟨w, hstart, hslab⟩ := exists_started
  have hrun : Reachable refcountMap w := .start hstart
  have hzero := hstart.2 0x1000
  have hvalid : Valid w (.increment 0x1000 ⟨true, fun _ => some fun _ => none, some 0x2000⟩) := by
    refine ⟨⟨rfl, fun _ => rfl, 0x2000, rfl, hslab _⟩, ?_⟩
    rw [hzero]
    decide
  obtain ⟨hends, hspec, -⟩ := refcount_map_refines_counts hrun
  obtain ⟨r, w1, hreturns⟩ := hends _ hvalid
  have hrun1 : Reachable refcountMap w1 := hrun.next ⟨hvalid, r, hreturns⟩
  obtain ⟨-, hcounts⟩ := hspec _ _ _ hvalid hreturns
  have hone : w1.counts = Function.update w.counts 0x1000 1 := by
    rw [hcounts, countAfter, hzero]
  have hone' : w1.counts 0x1000 = 1 := by
    rw [hone, Function.update_self]
  obtain ⟨hends1, hspec1, hnum, -⟩ := refcount_map_refines_counts hrun1
  obtain ⟨r', w2, hreturns'⟩ := hends1 (.decrement 0x1000) trivial
  obtain ⟨rfl, hcounts'⟩ := hspec1 (.decrement 0x1000) _ _ trivial hreturns'
  refine ⟨w1, w2, hrun1, hone', ?_, ?_, ?_⟩
  · rw [answer, hone'] at hreturns'
    exact hreturns'
  · rw [hcounts', countAfter, Function.update_self, hone']
  · have hset : {addr | w1.counts addr ≠ 0} = {0x1000} := by
      ext addr
      rw [Set.mem_ofPred_eq, hone, Set.mem_singleton_iff]
      by_cases haddr : addr = 0x1000
      · simp [haddr]
      · rw [Function.update_of_ne haddr, hstart.2 addr]
        exact ⟨fun hne => absurd rfl hne, fun heq => absurd heq haddr⟩
    rw [hnum, hset, Set.ncard_singleton]

end RefCountMaps
