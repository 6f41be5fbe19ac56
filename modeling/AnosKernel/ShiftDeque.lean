import AnosKernel.Lib.Windows
import AnosKernel.ShiftArray

/-!
# Arrays as deques

The operations of `kernel/structs/shift_array.c` on the arrays that `fba_calloc_blocks` gives out.
The elements lie between `head` and `tail`; when one of them meets the end of the array, the
elements are moved to the middle of an array twice the size. An index is a 64-bit number that wraps.
-/

namespace ShiftDeque

open Bytes FbaAlloc Runs ShiftArray StdRoutines Windows
open FbaPages (blockAddress EndsBelow FirstClear allocBlock_first)

structure ShiftToMiddleArray where
  data : BitVec 64
  elemSize : BitVec 64
  head : BitVec 64
  tail : BitVec 64
  capacity : BitVec 64

/-- `written` is history: where elements were written in the last operation. -/
structure State where
  arr : ShiftToMiddleArray
  store : Store
  written : List (BitVec 64)

/-- `memcpy` of one element. -/
def writeElement (arch : Arch) (s : State) (dest src : BitVec 64) : State :=
  { s with
    store := { s.store with mem := memcpy arch s.store.mem dest src s.arr.elemSize }
    written := s.written ++ [dest] }

/-- `shift_array_init`; the array is not used when it fails. -/
def shiftArrayInit (s : Store) (elemSize : BitVec 64) (initialCapacity : BitVec 32)
    (pages : Nat → BitVec 64) : Option ShiftToMiddleArray × Store :=
  let capacity := initialCapacity.signExtend 64
  match fbaCallocBlocks s (elemSize * capacity) pages with
  | (none, s) => (none, s)
  | (some data, s) =>
    let head := (initialCapacity.sdiv 2).signExtend 64
    (some { data := data, elemSize := elemSize, head := head, tail := head, capacity := capacity }, s)

def shiftArrayFree (arr : ShiftToMiddleArray) (fba : Fba) : Fba :=
  let blocks := (arr.elemSize * arr.capacity + vmPageSize - 1) / vmPageSize
  freeBlocks arr.data blocks.toNat fba

/-- The loop of `shift_array_resize`, which ends at the tail. -/
def copyLoop (arch : Arch) (newData : BitVec 64) : Nat → BitVec 64 → BitVec 64 → State → State
  | 0, _, _, s => s
  | turns + 1, i, j, s =>
    if i < s.arr.tail then
      copyLoop arch newData turns (i + 1) (j + 1)
        (writeElement arch s (newData + j * s.arr.elemSize) (s.arr.data + i * s.arr.elemSize))
    else s

def shiftArrayResize (arch : Arch) (s : State) (pages : Nat → BitVec 64) : Bool × State :=
  let arr := s.arr
  let newCapacity := arr.capacity * 2
  match fbaCallocBlocks s.store (newCapacity * arr.elemSize) pages with
  | (none, store) => (false, { s with store := store })
  | (some newData, store) =>
    let newHead := (newCapacity - (arr.tail - arr.head)) / 2
    let s := copyLoop arch newData (arr.tail.toNat - arr.head.toNat) arr.head newHead
      { s with store := store }
    (true, { s with
      arr := { arr with
        data := newData
        tail := newHead + (arr.tail - arr.head)
        head := newHead
        capacity := newCapacity }
      store := { s.store with fba := shiftArrayFree arr s.store.fba } })

def shiftArrayInsertHead (arch : Arch) (s : State) (value : BitVec 64) (pages : Nat → BitVec 64) :
    Bool × State :=
  match if s.arr.head = 0 then shiftArrayResize arch s pages else (true, s) with
  | (false, s) => (false, s)
  | (true, s) =>
    let s := { s with arr := { s.arr with head := s.arr.head - 1 } }
    (true, writeElement arch s (s.arr.data + s.arr.head * s.arr.elemSize) value)

def shiftArrayInsertTail (arch : Arch) (s : State) (value : BitVec 64) (pages : Nat → BitVec 64) :
    Bool × State :=
  match if s.arr.tail = s.arr.capacity then shiftArrayResize arch s pages else (true, s) with
  | (false, s) => (false, s)
  | (true, s) =>
    let s := writeElement arch s (s.arr.data + s.arr.tail * s.arr.elemSize) value
    (true, { s with arr := { s.arr with tail := s.arr.tail + 1 } })

def shiftArrayRemoveHead (arr : ShiftToMiddleArray) : ShiftToMiddleArray :=
  if arr.head < arr.tail then { arr with head := arr.head + 1 } else arr

def shiftArrayRemoveTail (arr : ShiftToMiddleArray) : ShiftToMiddleArray :=
  if arr.tail > arr.head then { arr with tail := arr.tail - 1 } else arr

def shiftArrayGetHead (arr : ShiftToMiddleArray) : Option (BitVec 64) :=
  if arr.head < arr.tail then some (arr.data + arr.head * arr.elemSize) else none

def shiftArrayGetTail (arr : ShiftToMiddleArray) : Option (BitVec 64) :=
  if arr.tail > arr.head then some (arr.data + (arr.tail - 1) * arr.elemSize) else none

/-! ## Runs -/

/-- `elsewhere` is what the kernel does besides to the allocator and the memory. -/
inductive Op
  | insertHead (value : BitVec 64) (pages : Nat → BitVec 64)
  | insertTail (value : BitVec 64) (pages : Nat → BitVec 64)
  | removeHead
  | removeTail
  | elsewhere (store : Store)

def State.exec (arch : Arch) (s : State) : Op → State
  | .insertHead value pages => (shiftArrayInsertHead arch { s with written := [] } value pages).2
  | .insertTail value pages => (shiftArrayInsertTail arch { s with written := [] } value pages).2
  | .removeHead => { s with arr := shiftArrayRemoveHead s.arr, written := [] }
  | .removeTail => { s with arr := shiftArrayRemoveTail s.arr, written := [] }
  | .elsewhere store => { s with store := store, written := [] }

/-- The sequence that the deque stands for; a value is its bytes. -/
def after (s : State) (elements : List (List (BitVec 8))) : Op → List (List (BitVec 8))
  | .insertHead value _ => readBytes s.store.mem value s.arr.elemSize.toNat :: elements
  | .insertTail value _ => elements ++ [readBytes s.store.mem value s.arr.elemSize.toNat]
  | .removeHead => elements.tail
  | .removeTail => elements.dropLast
  | .elsewhere _ => elements

/-- The address lies in a block that is free. -/
def FreeAddress (fba : Fba) (x : BitVec 64) : Prop :=
  ∃ i < fba.fbaSizeBlocks.toNat, bit fba.bitmap i = false ∧
    fba.fbaBegin.toNat + i * 4096 ≤ x.toNat ∧ x.toNat < fba.fbaBegin.toNat + (i + 1) * 4096

/-- The blocks that so many bytes need are in use from an address on, behind the bitmap. -/
def Owned (fba : Fba) (data : BitVec 64) (size : Nat) : Prop :=
  ∃ first, data = blockAddress fba first ∧ ∀ j < (size + 4095) / 4096,
    fba.bitmapSizeBlocks.toNat ≤ first + j ∧ first + j < fba.fbaSizeBlocks.toNat ∧
      bit fba.bitmap (first + j) = true

def ShiftToMiddleArray.width (arr : ShiftToMiddleArray) : Nat := arr.elemSize.toNat

/-- The size of the backing array. -/
def ShiftToMiddleArray.size (arr : ShiftToMiddleArray) : Nat := arr.capacity.toNat * arr.width

/-- The memory is given, in one piece. -/
structure Allocates (store : Store) (bytes : BitVec 64) (pages : Nat → BitVec 64) : Prop where
  given : ∃ data, (fbaCallocBlocks store bytes pages).1 = some data
  contiguous : GivesArray store.fba bytes (fbaCallocBlocks store bytes pages).1
    (fbaCallocBlocks store bytes pages).2.fba

/-- The memory for an array twice the size. -/
def Grows (s : State) (pages : Nat → BitVec 64) : Prop :=
  Allocates s.store (s.arr.capacity * 2 * s.arr.elemSize) pages

/-- The caller's value lies neither in the array nor in memory that is free. -/
def Foreign (s : State) (value : BitVec 64) : Prop :=
  ∀ k < s.arr.width, (∀ l < s.arr.size, addr value k ≠ addr s.arr.data l) ∧
    ¬ FreeAddress s.store.fba (addr value k)

/-- Memory is contiguous and allocations succeed; the rest of the kernel keeps off the array. -/
def Permitted (s : State) : Op → Prop
  | .insertHead value pages => Foreign s value ∧ (s.arr.head = 0 → Grows s pages)
  | .insertTail value pages => Foreign s value ∧ (s.arr.tail = s.arr.capacity → Grows s pages)
  | .elsewhere store =>
    store.fba = { s.store.fba with bitmap := store.fba.bitmap } ∧ Initialised store.fba ∧
      Owned store.fba s.arr.data s.arr.size ∧
      ∀ k < s.arr.size, store.mem (addr s.arr.data k) = s.store.mem (addr s.arr.data k)
  | _ => True

/-- The state behind a successful `shift_array_init` with a capacity of at least one. -/
def Started (s : State) : Prop :=
  ∃ store elemSize initialCapacity pages, Initialised store.fba ∧
    store.fba.fbaBegin.toNat % 4096 = 0 ∧ 0 < BitVec.toInt initialCapacity ∧
    Allocates store (elemSize * initialCapacity.signExtend 64) pages ∧
    shiftArrayInit store elemSize initialCapacity pages = (some s.arr, s.store) ∧ s.written = []

def deque (arch : Arch) : System (State × List (List (BitVec 8))) Op where
  init := fun s => Started s.1 ∧ s.2 = []
  step := fun s op s' => Permitted s.1 op ∧ s'.1 = s.1.exec arch op ∧ s'.2 = after s.1 s.2 op

/-- The indices are in order, elements were written inside the backing array only, and its ends are
those of the sequence. -/
structure Refines (s : State) (elements : List (List (BitVec 8))) : Prop where
  ordered : s.arr.head ≤ s.arr.tail ∧ s.arr.tail ≤ s.arr.capacity
  backing : s.arr.data.toNat + s.arr.size ≤ 2 ^ 64 ∧ Owned s.store.fba s.arr.data s.arr.size
  inside : ∀ dest ∈ s.written, ∃ i < s.arr.capacity.toNat, dest = addr s.arr.data (i * s.arr.width)
  first : (shiftArrayGetHead s.arr).map (readBytes s.store.mem · s.arr.width) = elements.head?
  last : (shiftArrayGetTail s.arr).map (readBytes s.store.mem · s.arr.width) = elements.getLast?

/-- `memcpy` copies all of element `i`: sixteen to thirty-one whole words it would leave out. -/
def Whole (width i : Nat) : Prop :=
  width < 8 ∨ wholeWords (BitVec.ofNat 64 (i * width)) width < 16 ∨
    32 ≤ wholeWords (BitVec.ofNat 64 (i * width)) width

/-- Where the elements begin behind a resize. -/
def ShiftToMiddleArray.middle (arr : ShiftToMiddleArray) : Nat :=
  (arr.capacity.toNat * 2 - (arr.tail.toNat - arr.head.toNat)) / 2

/-- Twice the capacity and twice the size are numbers of 64 bits. -/
def ShiftToMiddleArray.Doubles (arr : ShiftToMiddleArray) : Prop :=
  arr.capacity.toNat * 2 < 2 ^ 64 ∧ arr.size * 2 < 2 ^ 64

/-- An element is not inserted before the only one of an array of capacity one, no size wraps, and
all elements that are copied are copied whole. -/
def Careful (s : State) : Op → Prop
  | .insertHead _ _ =>
    if s.arr.head = 0 then
      s.arr.Doubles ∧ ¬ (s.arr.tail = 1 ∧ s.arr.capacity = 1) ∧
        ∀ i, s.arr.middle - 1 ≤ i → i < s.arr.middle + s.arr.tail.toNat → Whole s.arr.width i
    else Whole s.arr.width (s.arr.head.toNat - 1)
  | .insertTail _ _ =>
    if s.arr.tail = s.arr.capacity then
      s.arr.Doubles ∧ ∀ i, s.arr.middle ≤ i →
        i ≤ s.arr.middle + (s.arr.tail.toNat - s.arr.head.toNat) → Whole s.arr.width i
    else Whole s.arr.width s.arr.tail.toNat
  | _ => True

/-- The runs that start with an array whose size does not wrap and take careful steps only. -/
def carefulDeque (arch : Arch) : System (State × List (List (BitVec 8))) Op :=
  { (deque arch).restrict fun s op => Careful s.1 op with
    init := fun s => (deque arch).init s ∧ s.1.arr.size < 2 ^ 64 }

/-! ## Memory of the array -/

section Memory

variable {fba fba' : Fba} {data x : BitVec 64} {size k first : Nat}

/-- The address of an element; it wraps as its index and its size do. -/
theorem element_address (data elemSize i : BitVec 64) :
    data + i * elemSize = addr data (i.toNat * elemSize.toNat) := by
  rw [addr, BitVec.ofNat_mul, BitVec.ofNat_toNat, BitVec.ofNat_toNat, BitVec.setWidth_eq,
    BitVec.setWidth_eq]

theorem toNat_blockAddress (sized : Sized fba) (inside : first < fba.fbaSizeBlocks.toNat) :
    (blockAddress fba first).toNat = fba.fbaBegin.toNat + first * 4096 :=
  sized.toNat_address inside

theorem Owned.toNat_end (sized : Sized fba) (owned : Owned fba data size) :
    data.toNat + size ≤ 2 ^ 64 := by
  obtain ⟨first, rfl, hblocks⟩ := owned
  by_cases hempty : size = 0
  · rw [hempty]
    exact Nat.le_of_lt (BitVec.isLt _)
  · have hfirst : first < fba.fbaSizeBlocks.toNat := (hblocks 0 (by omega)).2.1
    have hlast := (hblocks ((size + 4095) / 4096 - 1) (by omega)).2.1
    have hfits := sized.fits
    rw [toNat_blockAddress sized hfirst]
    omega

/-- What is in use is not free. -/
theorem Owned.not_free (sized : Sized fba) (owned : Owned fba data size) (inside : k < size) :
    ¬ FreeAddress fba (addr data k) := by
  have hend := owned.toNat_end sized
  obtain ⟨first, rfl, hblocks⟩ := owned
  rintro ⟨i, hi, hclear, hlow, hhigh⟩
  have hfirst : first < fba.fbaSizeBlocks.toNat := (hblocks 0 (by omega)).2.1
  obtain ⟨-, -, hset⟩ := hblocks (k / 4096) (by omega)
  rw [toNat_addr (by omega), toNat_blockAddress sized hfirst] at hlow hhigh
  have hsame : first + k / 4096 = i := by omega
  rw [hsame, hclear] at hset
  exact absurd hset Bool.false_ne_true

theorem FreeAddress.of_keeps (h : FreeAddress fba' x)
    (frame : fba' = { fba with bitmap := fba'.bitmap })
    (keeps : ∀ i, bit fba.bitmap i = true → bit fba'.bitmap i = true) : FreeAddress fba x := by
  obtain ⟨i, hi, hclear, hlow, hhigh⟩ := h
  rw [frame] at hi hlow hhigh
  refine ⟨i, hi, ?_, hlow, hhigh⟩
  rw [← Bool.not_eq_true]
  intro hset
  rw [keeps i hset] at hclear
  exact absurd hclear.symm Bool.false_ne_true

theorem free_addr (sized : Sized fba) (inside : first + k / 4096 < fba.fbaSizeBlocks.toNat)
    (clear : bit fba.bitmap (first + k / 4096) = false) :
    FreeAddress fba (addr (blockAddress fba first) k) := by
  have hfits := sized.fits
  have hblock := toNat_blockAddress sized (Nat.lt_of_le_of_lt (Nat.le_add_right first _) inside)
  have haddr : (addr (blockAddress fba first) k).toNat = fba.fbaBegin.toNat + first * 4096 + k := by
    rw [toNat_addr (by omega), hblock]
  refine ⟨first + k / 4096, inside, clear, ?_⟩
  clear hblock
  generalize addr (blockAddress fba first) k = x at haddr ⊢
  omega

/-- Zeroing a free block leaves what is not free. -/
theorem zeroBlock_used (sized : Sized fba) {mem : Memory} (inside : first < fba.fbaSizeBlocks.toNat)
    (clear : bit fba.bitmap first = false) (used : ¬ FreeAddress fba x) :
    zeroBlock mem (blockAddress fba first) x = mem x := by
  apply writeBytes_outside
  rintro k hk rfl
  rw [List.length_replicate] at hk
  have hsame : first + k / 4096 = first := by omega
  exact used (free_addr sized (by rwa [hsame]) (by rwa [hsame]))

end Memory

/-! ## The memory that is asked for -/

/-- What is in use stays in use and keeps what it holds. -/
structure Spares (s s' : Store) : Prop where
  frame : s'.fba = { s.fba with bitmap := s'.fba.bitmap }
  keeps : ∀ i, bit s.fba.bitmap i = true → bit s'.fba.bitmap i = true
  used : ∀ x, ¬ FreeAddress s.fba x → s'.mem x = s.mem x

section Calloc

variable {s s' s'' : Store} {base data bytes : BitVec 64} {pages : Nat → BitVec 64}
  {turns i : Nat} {fba : Fba}

theorem Spares.trans (h : Spares s s') (h' : Spares s' s'') : Spares s s'' := by
  refine ⟨?_, fun i hi => h'.keeps i (h.keeps i hi), fun x hx => ?_⟩
  · rw [h'.frame, h.frame]
  · rw [h'.used x fun hfree => hx (hfree.of_keeps h.frame h.keeps), h.used x hx]

/-- One block. -/
theorem spares_block (sized : Sized s.fba) (page : BitVec 64)
    (given : fbaAllocBlock s.fba page = (some data, fba)) :
    Spares s { fba := fba, mem := zeroBlock s.mem data } := by
  have hgives := allocBlock_gives sized page
  rw [given] at hgives
  obtain ⟨first, hdata, -, -, hinside, hblocks⟩ := hgives.gives data rfl
  refine ⟨hgives.frame, hgives.keeps, fun x hx => ?_⟩
  have hclear : bit s.fba.bitmap first = false := (hblocks 0 Nat.one_pos).1
  obtain rfl : data = blockAddress s.fba first := hdata
  dsimp only
  exact zeroBlock_used sized hinside hclear hx

theorem spares_callocLoop (sized : Sized s.fba)
    (run : callocLoop base pages turns i s = (true, s')) : Spares s s' := by
  induction turns generalizing i s with
  | zero =>
    simp only [callocLoop, Prod.mk.injEq, true_and] at run
    obtain rfl := run
    exact ⟨rfl, fun _ h => h, fun _ _ => rfl⟩
  | succ turns ih =>
    rw [callocLoop] at run
    cases hask : fbaAllocBlock s.fba (pages i) with
    | mk answer fba =>
      simp only [hask] at run
      cases answer with
      | none => exact absurd (congrArg Prod.fst run) Bool.false_ne_true
      | some next =>
        have hblock := spares_block sized (pages i) hask
        exact hblock.trans (ih (sized.of_frame hblock.frame) run)

theorem spares_calloc (sized : Sized s.fba)
    (run : fbaCallocBlocks s bytes pages = (some data, s')) : Spares s s' := by
  rw [fbaCallocBlocks] at run
  cases hask : fbaAllocBlock s.fba (pages 0) with
  | mk answer fba =>
    simp only [hask] at run
    cases answer with
    | none => exact absurd (congrArg Prod.fst run) (by simp)
    | some base =>
      have hblock := spares_block sized (pages 0) hask
      cases hloop : callocLoop base pages (((bytes + vmPageSize - 1) / vmPageSize).toNat - 1) 1
          { fba := fba, mem := zeroBlock s.mem base } with
      | mk complete s₁ =>
        simp only [hloop, Prod.mk.injEq] at run
        obtain ⟨hcomplete, rfl⟩ := run
        cases complete with
        | false => exact absurd hcomplete (by simp)
        | true => exact hblock.trans (spares_callocLoop (sized.of_frame hblock.frame) hloop)

theorem behind_of_clear {fba : Fba} (init : Initialised fba) (clear : bit fba.bitmap i = false) :
    fba.bitmapSizeBlocks.toNat ≤ i := by
  by_contra hown
  rw [init.own i (by omega)] at clear
  exact absurd clear.symm Bool.false_ne_true

/-- The array is in use now, and all of it was free. -/
theorem owned_of_gives (init : Initialised s.fba) (spares : Spares s s')
    (gives : GivesArray s.fba bytes (some data) s'.fba) :
    Owned s'.fba data bytes.toNat ∧ ∀ k < bytes.toNat, FreeAddress s.fba (addr data k) := by
  obtain ⟨first, rfl, hblocks⟩ := gives.given data rfl
  rw [blocksFor] at hblocks
  constructor
  · refine ⟨first, ?_, fun j hj => ?_⟩
    · rw [spares.frame]
      rfl
    · obtain ⟨hinside, hclear, hset⟩ := hblocks j hj
      have hbehind := behind_of_clear init hclear
      rw [spares.frame]
      exact ⟨hbehind, hinside, hset⟩
  · intro k hk
    obtain ⟨hinside, hclear, -⟩ := hblocks (k / 4096) (by omega)
    exact free_addr init.sized hinside hclear

end Calloc

/-! ## Elements -/

/-- The bytes of an element. -/
def element (mem : Memory) (data : BitVec 64) (width i : Nat) : List (BitVec 8) :=
  readBytes mem (addr data (i * width)) width

section Elements

variable {arch : Arch} {mem mem' : Memory} {data src a : BitVec 64} {width i j k l n capacity : Nat}

theorem wholeWords_congr {dest dest' : BitVec 64} (same : dest.toNat % 8 = dest'.toNat % 8) :
    wholeWords dest n = wholeWords dest' n := by
  rw [wholeWords, wholeWords, headBytes, headBytes, same]

/-- A whole element is copied, wherever an aligned array begins. -/
theorem memcpy_element (aligned : data.toNat % 8 = 0) {elemSize : BitVec 64}
    (whole : Whole elemSize.toNat i)
    (apart : Apart (addr data (i * elemSize.toNat)) src elemSize.toNat) (mem : Memory) :
    Moves mem (addr data (i * elemSize.toNat)) src elemSize.toNat
      (memcpy arch mem (addr data (i * elemSize.toNat)) src elemSize) := by
  rw [moves_iff (Nat.le_of_lt elemSize.isLt)]
  apply (memcpy_copied arch mem apart).congr
  have hwords : wholeWords (addr data (i * elemSize.toNat)) elemSize.toNat =
      wholeWords (BitVec.ofNat 64 (i * elemSize.toNat)) elemSize.toNat := by
    apply wholeWords_congr
    rw [addr, BitVec.toNat_add, BitVec.toNat_ofNat]
    omega
  rw [Whole, ← hwords] at whole
  intro k _
  omega

theorem readBytes_moved {dest : BitVec 64} (moves : Moves mem dest src n mem') :
    readBytes mem' dest n = readBytes mem src n := by
  apply List.ext_getElem
  · rw [length_readBytes, length_readBytes]
  · intro k hk hk'
    rw [getElem_readBytes hk, getElem_readBytes hk']
    exact moves.1 k (by rwa [length_readBytes] at hk)

theorem place_lt (hi : i < capacity) (hk : k < width) : i * width + k < capacity * width := by
  have hle : (i + 1) * width ≤ capacity * width := Nat.mul_le_mul_right width hi
  rw [Nat.succ_mul] at hle
  omega

/-- A place within an element tells the element. -/
theorem place_unique (hk : k < width) (hl : l < width) (same : i * width + k = j * width + l) :
    i = j := by
  have hdiv := congrArg (· / width) same
  have hpos : 0 < width := by omega
  simpa only [Nat.add_comm (_ * width), Nat.add_mul_div_right _ _ hpos, Nat.div_eq_of_lt hk,
    Nat.div_eq_of_lt hl, Nat.zero_add] using hdiv

/-- Another element than the one that was written. -/
theorem element_moved_ne (fits : capacity * width ≤ 2 ^ 64)
    (moves : Moves mem (addr data (i * width)) src width mem') (hi : i < capacity)
    (hj : j < capacity) (ne : j ≠ i) : element mem' data width j = element mem data width j := by
  apply readBytes_congr
  intro k hk
  apply moves.2
  intro l hl heq
  rw [addr_add, addr_add] at heq
  have hplace := place_lt hj hk
  have hplace' := place_lt hi hl
  exact ne (place_unique hk hl (addr_inj (by omega) (by omega) heq))

/-- What is written to an element lies in the array. -/
theorem moved_outside (moves : Moves mem (addr data (i * width)) src width mem')
    (hi : i < capacity) (outside : ∀ k < capacity * width, a ≠ addr data k) : mem' a = mem a := by
  apply moves.2
  intro k hk
  rw [addr_add]
  exact outside _ (place_lt hi hk)

theorem element_congr (hi : i < capacity)
    (same : ∀ k < capacity * width, mem' (addr data k) = mem (addr data k)) :
    element mem' data width i = element mem data width i := by
  apply readBytes_congr
  intro k hk
  rw [addr_add]
  exact same _ (place_lt hi hk)

end Elements

/-! ## Copying the elements -/

/-- `n` elements from place `i` on were copied to a new array from place `j` on. -/
structure Transfers (mem : Memory) (data newData : BitVec 64) (width capacity i j n : Nat)
    (mem' : Memory) : Prop where
  moved : ∀ k < n, element mem' newData width (j + k) = element mem data width (i + k)
  before : ∀ k < j, element mem' newData width k = element mem newData width k
  outside : ∀ a, (∀ k < capacity * width, a ≠ addr newData k) → mem' a = mem a

section Copying

variable {arch : Arch} {s : State} {newData i j : BitVec 64} {capacity turns : Nat}

theorem copyLoop_transfers (aligned : newData.toNat % 8 = 0)
    (last : i.toNat + turns = s.arr.tail.toNat)
    (inside : s.arr.tail.toNat ≤ s.arr.capacity.toNat) (room : j.toNat + turns ≤ capacity)
    (small : capacity < 2 ^ 64) (fits : capacity * s.arr.width ≤ 2 ^ 64)
    (apart : ∀ k < s.arr.size, ∀ l < capacity * s.arr.width, addr s.arr.data k ≠ addr newData l)
    (whole : ∀ n, j.toNat ≤ n → n < j.toNat + turns → Whole s.arr.width n) :
    ∃ mem written, copyLoop arch newData turns i j s =
        { s with store := { s.store with mem := mem }, written := s.written ++ written } ∧
      (∀ dest ∈ written, ∃ n < capacity, dest = addr newData (n * s.arr.width)) ∧
      Transfers s.store.mem s.arr.data newData s.arr.width capacity i.toNat j.toNat turns mem := by
  induction turns generalizing i j s with
  | zero =>
    refine ⟨s.store.mem, [], ?_, fun dest hdest => (nomatch hdest),
      fun k hk => absurd hk (Nat.not_lt_zero k), fun _ _ => rfl, fun _ _ => rfl⟩
    rw [copyLoop, List.append_nil]
  | succ turns ih =>
    have hi : i < s.arr.tail := by
      rw [BitVec.lt_def]
      omega
    have htail := s.arr.tail.isLt
    have hi' : (i + 1).toNat = i.toNat + 1 := by
      rw [BitVec.toNat_add]
      exact Nat.mod_eq_of_lt (by simp only [BitVec.reduceToNat]; omega)
    have hj' : (j + 1).toNat = j.toNat + 1 := by
      rw [BitVec.toNat_add]
      exact Nat.mod_eq_of_lt (by simp only [BitVec.reduceToNat]; omega)
    have hapart : Apart (addr newData (j.toNat * s.arr.width))
        (addr s.arr.data (i.toNat * s.arr.width)) s.arr.width := by
      intro k hk l hl
      rw [addr_add, addr_add]
      exact apart _ (place_lt (by omega) hk) _ (place_lt (by omega) hl)
    have hmoves : Moves s.store.mem (addr newData (j.toNat * s.arr.width))
        (addr s.arr.data (i.toNat * s.arr.width)) s.arr.width
        (memcpy arch s.store.mem (addr newData (j.toNat * s.arr.width))
          (addr s.arr.data (i.toNat * s.arr.width)) s.arr.elemSize) :=
      memcpy_element aligned (whole _ (by omega) (by omega)) hapart s.store.mem
    have hold : ∀ k < s.arr.size, memcpy arch s.store.mem (addr newData (j.toNat * s.arr.width))
        (addr s.arr.data (i.toNat * s.arr.width)) s.arr.elemSize (addr s.arr.data k) =
          s.store.mem (addr s.arr.data k) := by
      intro k hk
      exact moved_outside hmoves (by omega : j.toNat < capacity) (apart k hk)
    obtain ⟨mem, written, hrun, hinside, htransfers⟩ := @ih
      (writeElement arch s (newData + j * s.arr.elemSize) (s.arr.data + i * s.arr.elemSize))
      (i + 1) (j + 1) (by rw [hi']; simp only [writeElement]; omega) inside
      (by rw [hj']; omega) fits apart
      (by rw [hj']; exact fun n hn hn' => whole n (by omega) (by omega))
    rw [element_address, element_address] at hrun htransfers
    rw [hi', hj'] at htransfers
    refine ⟨mem, addr newData (j.toNat * s.arr.width) :: written, ?_, ?_, ?_, ?_, ?_⟩
    · rw [copyLoop, if_pos hi, element_address, element_address, hrun]
      simp only [writeElement, List.append_assoc, List.singleton_append]
      rfl
    · intro dest hdest
      rcases List.mem_cons.mp hdest with rfl | hdest
      · exact ⟨j.toNat, by omega, rfl⟩
      · exact hinside dest hdest
    · intro k hk
      cases k with
      | zero =>
        calc element mem newData s.arr.width (j.toNat + 0)
          _ = element (memcpy arch s.store.mem (addr newData (j.toNat * s.arr.width))
                (addr s.arr.data (i.toNat * s.arr.width)) s.arr.elemSize) newData s.arr.width
                  j.toNat := htransfers.before j.toNat (Nat.lt_succ_self _)
          _ = element s.store.mem s.arr.data s.arr.width (i.toNat + 0) := readBytes_moved hmoves
      | succ k =>
        have hmoved := htransfers.moved k (by omega)
        rw [Nat.add_right_comm, Nat.add_right_comm i.toNat] at hmoved
        exact hmoved.trans (element_congr (by omega) hold)
    · intro k hk
      have hbefore := htransfers.before k (by omega)
      exact hbefore.trans (element_moved_ne fits hmoves (by omega) (by omega) (by omega))
    · intro a ha
      exact (htransfers.outside a ha).trans (moved_outside hmoves (by omega : j.toNat < capacity) ha)

end Copying

/-! ## Giving back the old memory -/

section Freeing

variable {fba : Fba} {data : BitVec 64} {size first count i : Nat}

/-- Blocks outside a run that is freed. -/
theorem freeBlocks_outside (sized : Sized fba) (behind : 0 < count → first ≠ 0)
    (inside : 0 < count → first + count ≤ fba.fbaSizeBlocks.toNat)
    (outside : i < first ∨ first + count ≤ i) :
    bit (freeBlocks (blockAddress fba first) count fba).bitmap i = bit fba.bitmap i := by
  by_cases hnone : count = 0
  · rw [hnone]
    rfl
  · by_cases hends : EndsBelow fba
    · have hnot : ¬ (first ≤ i ∧ i < first + count) := by omega
      rw [bit_freeBlocks sized hends (behind (by omega)) (inside (by omega)), decide_eq_false hnot]
      simp
    · rw [freeBlocks_wrapped sized hends]

/-- The blocks of an array are freed, or none of them are when its size cannot be rounded up. -/
theorem shiftArrayFree_eq {arr : ShiftToMiddleArray} (fits : arr.size < 2 ^ 64) :
    ∃ count ≤ (arr.size + 4095) / 4096,
      shiftArrayFree arr fba = freeBlocks arr.data count fba := by
  have hsize : (arr.elemSize * arr.capacity).toNat = arr.size := by
    rw [BitVec.toNat_mul, Nat.mul_comm]
    exact Nat.mod_eq_of_lt fits
  refine ⟨_, ?_, rfl⟩
  by_cases hround : (arr.elemSize * arr.capacity).toNat + 4095 < 2 ^ 64
  · rw [toNat_numBlocks hround, blocksFor, hsize]
  · rw [(numBlocks_wrapped hround).1]
    exact Nat.zero_le _

theorem shiftArrayFree_frame (arr : ShiftToMiddleArray) (fba : Fba) :
    shiftArrayFree arr fba = { fba with bitmap := (shiftArrayFree arr fba).bitmap } :=
  freeBlocks_frame _ _ _

/-- The blocks that are not those of the array stay as they are. -/
theorem shiftArrayFree_outside {arr : ShiftToMiddleArray} (sized : Sized fba)
    (fits : arr.size < 2 ^ 64) (hdata : arr.data = blockAddress fba first)
    (blocks : ∀ j < (arr.size + 4095) / 4096, fba.bitmapSizeBlocks.toNat ≤ first + j ∧
      first + j < fba.fbaSizeBlocks.toNat)
    (outside : ∀ j < (arr.size + 4095) / 4096, i ≠ first + j) :
    bit (shiftArrayFree arr fba).bitmap i = bit fba.bitmap i := by
  obtain ⟨count, hcount, hfree⟩ := @shiftArrayFree_eq fba arr fits
  rw [hfree, hdata]
  apply freeBlocks_outside sized
  · intro hpos
    have hblocks := sized.blocks
    have hfirst := blocks 0 (by omega)
    omega
  · intro hpos
    have hlast := blocks (count - 1) (by omega)
    omega
  · by_contra hinside
    exact outside (i - first) (by omega) (by omega)

end Freeing

/-! ## The invariant -/

/-- What holds between the operations. -/
structure Holds (s : State) (elements : List (List (BitVec 8))) : Prop where
  init : Initialised s.store.fba
  aligned : s.store.fba.fbaBegin.toNat % 4096 = 0
  pos : 0 < s.arr.capacity.toNat
  ordered : s.arr.head.toNat ≤ s.arr.tail.toNat
  inside : s.arr.tail.toNat ≤ s.arr.capacity.toNat
  fits : s.arr.size < 2 ^ 64
  owned : Owned s.store.fba s.arr.data s.arr.size
  contents : window (element s.store.mem s.arr.data s.arr.width) s.arr.head.toNat
    (s.arr.tail.toNat - s.arr.head.toNat) = elements

/-- Elements were written inside the backing array only. -/
def WritesInside (s : State) : Prop :=
  ∀ dest ∈ s.written, ∃ i < s.arr.capacity.toNat, dest = addr s.arr.data (i * s.arr.width)

section Invariant

variable {arch : Arch} {s s' : State} {elements : List (List (BitVec 8))} {value : BitVec 64}
  {pages : Nat → BitVec 64}

theorem Owned.aligned {fba : Fba} {data : BitVec 64} {size : Nat} (owned : Owned fba data size)
    (aligned : fba.fbaBegin.toNat % 4096 = 0) : data.toNat % 8 = 0 := by
  obtain ⟨first, rfl, -⟩ := owned
  rw [blockAddress, BitVec.toNat_add, BitVec.toNat_mul, vmPageSize]
  simp only [BitVec.ofNat_eq_ofNat, BitVec.toNat_ofNat]
  omega

theorem Holds.refines (h : Holds s elements) (writes : WritesInside s) : Refines s elements := by
  have hcontents := h.contents
  refine ⟨⟨h.ordered, h.inside⟩, ⟨h.owned.toNat_end h.init.sized, h.owned⟩, writes, ?_, ?_⟩
  · rw [shiftArrayGetHead, ← hcontents]
    by_cases hsome : s.arr.head < s.arr.tail
    · rw [BitVec.lt_def] at hsome
      obtain ⟨n, hn⟩ := Nat.exists_eq_add_of_lt hsome
      have hlength : s.arr.tail.toNat - s.arr.head.toNat = n + 1 := by omega
      rw [if_pos (by rw [BitVec.lt_def]; exact hsome), hlength, window_cons, List.head?_cons,
        Option.map_some, element_address]
      rfl
    · rw [BitVec.lt_def] at hsome
      have hlength : s.arr.tail.toNat - s.arr.head.toNat = 0 := by omega
      rw [if_neg (by rw [BitVec.lt_def]; exact hsome), hlength, window_zero]
      rfl
  · rw [shiftArrayGetTail, ← hcontents]
    by_cases hsome : s.arr.tail > s.arr.head
    · rw [gt_iff_lt, BitVec.lt_def] at hsome
      obtain ⟨n, hn⟩ := Nat.exists_eq_add_of_lt hsome
      have hlength : s.arr.tail.toNat - s.arr.head.toNat = n + 1 := by omega
      have hlast : (s.arr.tail - 1).toNat = s.arr.head.toNat + n := by
        rw [BitVec.toNat_sub_of_le (by rw [BitVec.le_def]; simp only [BitVec.reduceToNat]; omega)]
        simp only [BitVec.reduceToNat]
        omega
      rw [if_pos (by rw [gt_iff_lt, BitVec.lt_def]; exact hsome), hlength, window_concat,
        List.getLast?_concat, Option.map_some, element_address, hlast]
      rfl
    · rw [gt_iff_lt, BitVec.lt_def] at hsome
      have hlength : s.arr.tail.toNat - s.arr.head.toNat = 0 := by omega
      rw [if_neg (by rw [gt_iff_lt, BitVec.lt_def]; exact hsome), hlength, window_zero]
      rfl

/-- The value is copied to an element from outside the array. -/
theorem Holds.write (h : Holds s elements) (i : BitVec 64) (inside : i.toNat < s.arr.capacity.toNat)
    (whole : Whole s.arr.width i.toNat)
    (apart : ∀ k < s.arr.width, ∀ l < s.arr.size, addr value k ≠ addr s.arr.data l) :
    element (memcpy arch s.store.mem (s.arr.data + i * s.arr.elemSize) value s.arr.elemSize)
        s.arr.data s.arr.width i.toNat = readBytes s.store.mem value s.arr.width ∧
      ∀ j < s.arr.capacity.toNat, j ≠ i.toNat →
        element (memcpy arch s.store.mem (s.arr.data + i * s.arr.elemSize) value s.arr.elemSize)
          s.arr.data s.arr.width j = element s.store.mem s.arr.data s.arr.width j := by
  have hapart : Apart (addr s.arr.data (i.toNat * s.arr.width)) value s.arr.width := by
    intro k hk l hl
    rw [addr_add]
    exact apart k hk _ (place_lt inside hl)
  have hmoves := @memcpy_element arch _ _ _ (h.owned.aligned h.aligned) s.arr.elemSize whole hapart
    s.store.mem
  rw [element_address]
  exact ⟨readBytes_moved hmoves,
    fun j hj ne => element_moved_ne (Nat.le_of_lt h.fits) hmoves inside hj ne⟩

theorem Holds.written_head (h : Holds s elements) (room : 0 < s.arr.head.toNat)
    (whole : Whole s.arr.width (s.arr.head.toNat - 1))
    (apart : ∀ k < s.arr.width, ∀ l < s.arr.size, addr value k ≠ addr s.arr.data l) :
    Holds (writeElement arch { s with arr := { s.arr with head := s.arr.head - 1 } }
      (s.arr.data + (s.arr.head - 1) * s.arr.elemSize) value)
      (readBytes s.store.mem value s.arr.width :: elements) := by
  have hhead : (s.arr.head - 1).toNat = s.arr.head.toNat - 1 := by
    rw [BitVec.toNat_sub_of_le (by rw [BitVec.le_def]; simp only [BitVec.reduceToNat]; omega)]
    simp only [BitVec.reduceToNat]
  have hordered := h.ordered
  have hinside := h.inside
  obtain ⟨hnew, hothers⟩ := @Holds.write arch _ _ value h (s.arr.head - 1) (by omega)
    (by rwa [hhead]) apart
  refine ⟨h.init, h.aligned, h.pos, ?_, h.inside, h.fits, h.owned, ?_⟩
  · simp only [writeElement]
    omega
  · have hlength : s.arr.tail.toNat - (s.arr.head - 1).toNat =
        s.arr.tail.toNat - s.arr.head.toNat + 1 := by omega
    simp only [writeElement]
    rw [hlength, window_cons, ← h.contents]
    congr 1
    apply window_congr
    intro k hk
    have hplace : (s.arr.head - 1).toNat + 1 + k = s.arr.head.toNat + k := by omega
    rw [hplace]
    exact hothers _ (by omega) (by omega)

theorem Holds.written_tail (h : Holds s elements)
    (room : s.arr.tail.toNat < s.arr.capacity.toNat) (whole : Whole s.arr.width s.arr.tail.toNat)
    (apart : ∀ k < s.arr.width, ∀ l < s.arr.size, addr value k ≠ addr s.arr.data l) :
    Holds { writeElement arch s (s.arr.data + s.arr.tail * s.arr.elemSize) value with
        arr := { s.arr with tail := s.arr.tail + 1 } }
      (elements ++ [readBytes s.store.mem value s.arr.width]) := by
  have hcapacity := s.arr.capacity.isLt
  have htail : (s.arr.tail + 1).toNat = s.arr.tail.toNat + 1 := by
    rw [BitVec.toNat_add]
    exact Nat.mod_eq_of_lt (by simp only [BitVec.reduceToNat]; omega)
  have hordered := h.ordered
  obtain ⟨hnew, hothers⟩ := @Holds.write arch _ _ value h s.arr.tail room whole apart
  refine ⟨h.init, h.aligned, h.pos, ?_, ?_, h.fits, h.owned, ?_⟩
  · simp only
    omega
  · simp only
    omega
  · have hlength : (s.arr.tail + 1).toNat - s.arr.head.toNat =
        s.arr.tail.toNat - s.arr.head.toNat + 1 := by omega
    simp only [writeElement]
    rw [hlength, window_concat, ← h.contents, Nat.add_sub_cancel' hordered]
    congr 1
    · apply window_congr
      intro k hk
      exact hothers _ (by omega) (by omega)
    · exact congrArg (fun bytes => [bytes]) hnew

end Invariant

/-! ## Growing -/

/-- The elements are in the middle of an array of twice the capacity, which was free before. -/
structure Resized (s : State) (elements : List (List (BitVec 8))) (s' : State) : Prop where
  holds : Holds s' elements
  writes : WritesInside s'
  head : s'.arr.head.toNat = s.arr.middle
  tail : s'.arr.tail.toNat = s.arr.middle + (s.arr.tail.toNat - s.arr.head.toNat)
  capacity : s'.arr.capacity.toNat = s.arr.capacity.toNat * 2
  width : s'.arr.width = s.arr.width
  used : ∀ x, ¬ FreeAddress s.store.fba x →
    s'.store.mem x = s.store.mem x ∧ ∀ k < s'.arr.size, x ≠ addr s'.arr.data k

section Growing

variable {arch : Arch} {s s' : State} {elements : List (List (BitVec 8))} {value : BitVec 64}
  {pages : Nat → BitVec 64} {store : Store} {data : BitVec 64}

/-- Giving back the old array leaves the new one and the bitmap. -/
theorem Holds.freed (h : Holds s elements) (spares : Spares s.store store) {bytes : BitVec 64}
    (gives : GivesArray s.store.fba bytes (some data) store.fba) :
    Initialised (shiftArrayFree s.arr store.fba) ∧
      Owned (shiftArrayFree s.arr store.fba) data bytes.toNat := by
  have hframe := shiftArrayFree_frame s.arr store.fba
  have hsized := h.init.sized.of_frame spares.frame
  obtain ⟨first, hdata, hblocks⟩ := h.owned
  have hsame : store.fba.bitmapSizeBlocks = s.store.fba.bitmapSizeBlocks ∧
      store.fba.fbaSizeBlocks = s.store.fba.fbaSizeBlocks ∧
      blockAddress store.fba first = blockAddress s.store.fba first := by
    rw [spares.frame]
    exact ⟨rfl, rfl, rfl⟩
  have hothers : ∀ i, (∀ j < (s.arr.size + 4095) / 4096, i ≠ first + j) →
      bit (shiftArrayFree s.arr store.fba).bitmap i = bit store.fba.bitmap i := by
    intro i outside
    refine shiftArrayFree_outside hsized h.fits (hdata.trans hsame.2.2.symm) (fun j hj => ?_) outside
    rw [hsame.1, hsame.2.1]
    exact ⟨(hblocks j hj).1, (hblocks j hj).2.1⟩
  constructor
  · refine ⟨hsized.of_frame hframe, fun i hi => ?_⟩
    have hi' : i < s.store.fba.bitmapSizeBlocks.toNat := by
      rw [hframe, spares.frame] at hi
      exact hi
    rw [hothers i fun j hj heq => absurd (hblocks j hj).1 (by omega)]
    exact spares.keeps i (h.init.own i hi')
  · obtain ⟨first', hdata', hnew⟩ := gives.given data rfl
    refine ⟨first', ?_, fun j hj => ?_⟩
    · rw [hframe, spares.frame]
      exact hdata'
    · obtain ⟨hinside, hclear, hset⟩ := hnew j hj
      -- a block of the new array was free when those of the old one were in use
      have hnot : ∀ l < (s.arr.size + 4095) / 4096, first' + j ≠ first + l := by
        intro l hl heq
        rw [heq, (hblocks l hl).2.2] at hclear
        exact absurd hclear.symm Bool.false_ne_true
      have hbehind := behind_of_clear h.init hclear
      rw [hothers _ hnot, hframe, spares.frame]
      exact ⟨hbehind, hinside, hset⟩

theorem ShiftToMiddleArray.toNat_middle {arr : ShiftToMiddleArray} (doubles : arr.Doubles)
    (ordered : arr.head.toNat ≤ arr.tail.toNat) (inside : arr.tail.toNat ≤ arr.capacity.toNat) :
    (arr.capacity * 2).toNat = arr.capacity.toNat * 2 ∧
    ((arr.capacity * 2 - (arr.tail - arr.head)) / 2).toNat = arr.middle ∧
    ((arr.capacity * 2 - (arr.tail - arr.head)) / 2 + (arr.tail - arr.head)).toNat =
      arr.middle + (arr.tail.toNat - arr.head.toNat) := by
  have htwice := doubles.1
  have hcapacity : (arr.capacity * 2).toNat = arr.capacity.toNat * 2 := by
    rw [BitVec.toNat_mul]
    exact Nat.mod_eq_of_lt htwice
  have hlength : (arr.tail - arr.head).toNat = arr.tail.toNat - arr.head.toNat :=
    BitVec.toNat_sub_of_le ordered
  have hmiddle : ((arr.capacity * 2 - (arr.tail - arr.head)) / 2).toNat = arr.middle := by
    rw [BitVec.toNat_udiv, BitVec.toNat_sub_of_le (by rw [BitVec.le_def]; omega), hcapacity, hlength,
      ShiftToMiddleArray.middle]
    rfl
  refine ⟨hcapacity, hmiddle, ?_⟩
  rw [BitVec.toNat_add, hmiddle, hlength]
  apply Nat.mod_eq_of_lt
  rw [ShiftToMiddleArray.middle]
  omega

theorem Holds.resized (h : Holds s elements) (nothing : s.written = []) (grows : Grows s pages)
    (doubles : s.arr.Doubles)
    (whole : ∀ i, s.arr.middle ≤ i →
      i < s.arr.middle + (s.arr.tail.toNat - s.arr.head.toNat) → Whole s.arr.width i) :
    ∃ s', shiftArrayResize arch s pages = (true, s') ∧ Resized s elements s' := by
  have hordered := h.ordered
  have hinside := h.inside
  have hpos := h.pos
  obtain ⟨hcapacity, hmiddle, htail⟩ := s.arr.toNat_middle doubles hordered hinside
  have hdouble : s.arr.capacity.toNat * 2 * s.arr.width = s.arr.size * 2 := by
    rw [Nat.mul_right_comm]
    rfl
  have htwice := doubles.2
  have hbytes : (s.arr.capacity * 2 * s.arr.elemSize).toNat = s.arr.size * 2 := by
    rw [BitVec.toNat_mul, hcapacity, ← hdouble]
    exact Nat.mod_eq_of_lt (by rw [← hdouble] at htwice; exact htwice)
  have hroom : s.arr.middle + (s.arr.tail.toNat - s.arr.head.toNat) ≤ s.arr.capacity.toNat * 2 := by
    rw [ShiftToMiddleArray.middle]
    omega
  cases hcalloc : fbaCallocBlocks s.store (s.arr.capacity * 2 * s.arr.elemSize) pages with
  | mk answer store =>
    obtain ⟨data, hgiven⟩ := grows.given
    have hgives := grows.contiguous
    rw [hcalloc] at hgiven hgives
    obtain rfl : answer = some data := hgiven
    have hspares := spares_calloc h.init.sized hcalloc
    obtain ⟨howned, hfree⟩ := owned_of_gives h.init hspares hgives
    obtain ⟨hinit, howned'⟩ := h.freed hspares hgives
    rw [hbytes] at howned hfree howned'
    have haligned : data.toNat % 8 = 0 := by
      apply howned.aligned
      rw [hspares.frame]
      exact h.aligned
    have hold : ∀ k < s.arr.size, ¬ FreeAddress s.store.fba (addr s.arr.data k) :=
      fun k hk => h.owned.not_free h.init.sized hk
    obtain ⟨mem, written, hloop, hwritten, htransfers⟩ := @copyLoop_transfers arch
      { s with store := store } data s.arr.head
      ((s.arr.capacity * 2 - (s.arr.tail - s.arr.head)) / 2) (s.arr.capacity.toNat * 2)
      (s.arr.tail.toNat - s.arr.head.toNat) haligned (Nat.add_sub_cancel' hordered) hinside
      (by rw [hmiddle]; exact hroom) doubles.1 (Nat.le_of_lt (lt_of_eq_of_lt hdouble htwice))
      (fun k hk l hl heq => hold k hk (heq ▸ hfree l (hdouble ▸ hl)))
      (by rw [hmiddle]; exact whole)
    rw [hmiddle] at htransfers
    refine ⟨_, by rw [shiftArrayResize, hcalloc], ?_⟩
    rw [hloop, nothing, List.nil_append]
    have hnew : ∀ x, ¬ FreeAddress s.store.fba x →
        ∀ k < s.arr.capacity.toNat * 2 * s.arr.width, x ≠ addr data k := by
      rintro x hx k hk rfl
      exact hx (hfree k (hdouble ▸ hk))
    have hcontents : ∀ k < s.arr.tail.toNat - s.arr.head.toNat,
        element mem data s.arr.width (s.arr.middle + k) =
          element s.store.mem s.arr.data s.arr.width (s.arr.head.toNat + k) := by
      intro k hk
      have hplace : s.arr.head.toNat + k < s.arr.capacity.toNat := by omega
      exact (htransfers.moved k hk).trans
        (element_congr hplace fun l hl => hspares.used _ (hold l hl))
    refine ⟨⟨hinit, ?_, ?_, ?_, ?_, ?_, ?_, ?_⟩, ?_, hmiddle, htail, hcapacity, rfl,
      fun x hx => ⟨?_, ?_⟩⟩
    · rw [shiftArrayFree_frame, hspares.frame]
      exact h.aligned
    · simp only [hcapacity]
      omega
    · simp only [hmiddle, htail]
      omega
    · simp only [htail, hcapacity]
      exact hroom
    · simp only [ShiftToMiddleArray.size, ShiftToMiddleArray.width, hcapacity]
      exact lt_of_eq_of_lt hdouble htwice
    · simp only [ShiftToMiddleArray.size, ShiftToMiddleArray.width, hcapacity]
      exact hdouble.symm ▸ howned'
    · simp only [hmiddle, htail, Nat.add_sub_cancel_left]
      exact (window_congr hcontents).trans h.contents
    · intro dest hdest
      obtain ⟨n, hn, rfl⟩ := hwritten dest hdest
      exact ⟨n, hcapacity.symm ▸ hn, rfl⟩
    · exact (htransfers.outside x (hnew x hx)).trans (hspares.used x hx)
    · simp only [ShiftToMiddleArray.size, ShiftToMiddleArray.width, hcapacity]
      exact hnew x hx

theorem Resized.foreign_value (h : Resized s elements s') (foreign : Foreign s value) :
    readBytes s'.store.mem value s'.arr.width = readBytes s.store.mem value s.arr.width ∧
      ∀ k < s'.arr.width, ∀ l < s'.arr.size, addr value k ≠ addr s'.arr.data l := by
  rw [h.width]
  exact ⟨readBytes_congr fun k hk => (h.used _ (foreign k hk).2).1,
    fun k hk => (h.used _ (foreign k hk).2).2⟩

end Growing

/-! ## The operations -/

section Steps

variable {arch : Arch} {s : State} {elements : List (List (BitVec 8))} {value : BitVec 64}
  {pages : Nat → BitVec 64}

theorem writes_concat (h : WritesInside s) (i : BitVec 64) (inside : i.toNat < s.arr.capacity.toNat)
    (src : BitVec 64) : WritesInside (writeElement arch s (s.arr.data + i * s.arr.elemSize) src) := by
  intro dest hdest
  rcases List.mem_append.mp hdest with hdest | hdest
  · exact h dest hdest
  · obtain rfl := List.mem_singleton.mp hdest
    exact ⟨i.toNat, inside, element_address s.arr.data s.arr.elemSize i⟩

theorem Holds.insertHead (h : Holds s elements) (nothing : s.written = [])
    (permitted : Permitted s (.insertHead value pages))
    (careful : Careful s (.insertHead value pages)) :
    Holds (shiftArrayInsertHead arch s value pages).2
        (readBytes s.store.mem value s.arr.width :: elements) ∧
      WritesInside (shiftArrayInsertHead arch s value pages).2 := by
  obtain ⟨hforeign, hgrows⟩ := permitted
  have hpred : ∀ arr : ShiftToMiddleArray, 0 < arr.head.toNat →
      (arr.head - 1).toNat = arr.head.toNat - 1 := by
    intro arr hpos
    exact BitVec.toNat_sub_of_le hpos
  by_cases hfull : s.arr.head = 0
  · simp only [Careful, if_pos hfull] at careful
    obtain ⟨hdoubles, hone, hwhole⟩ := careful
    have hzero : s.arr.head.toNat = 0 := congrArg BitVec.toNat hfull
    have hinside := h.inside
    have hpos := h.pos
    obtain ⟨s', hresize, hresized⟩ := @Holds.resized arch _ _ _ h nothing (hgrows hfull) hdoubles
      fun i hlow hhigh => hwhole i (by omega) (by omega)
    obtain ⟨hvalue, hapart⟩ := hresized.foreign_value hforeign
    have hhead := hresized.head
    -- the elements begin behind the first place, except in an array of capacity one that is full
    have hmiddle : 0 < s.arr.middle := by
      have hnot : ¬ (s.arr.tail.toNat = 1 ∧ s.arr.capacity.toNat = 1) :=
        fun h => hone ⟨BitVec.eq_of_toNat_eq h.1, BitVec.eq_of_toNat_eq h.2⟩
      rw [ShiftToMiddleArray.middle]
      omega
    have hordered := hresized.holds.ordered
    have hinside' := hresized.holds.inside
    have hpred' := hpred s'.arr (by omega)
    simp only [shiftArrayInsertHead, if_pos hfull, hresize]
    rw [← hvalue]
    refine ⟨hresized.holds.written_head (by omega) ?_ hapart, ?_⟩
    · rw [hresized.width, hhead]
      exact hwhole _ (Nat.le_refl _) (by omega)
    · exact @writes_concat arch { s' with arr := { s'.arr with head := s'.arr.head - 1 } }
        hresized.writes (s'.arr.head - 1) (by simp only; omega) value
  · simp only [Careful, if_neg hfull] at careful
    have hpos : 0 < s.arr.head.toNat := by
      rw [Nat.pos_iff_ne_zero]
      exact fun hzero => hfull (BitVec.eq_of_toNat_eq hzero)
    have hordered := h.ordered
    have hinside := h.inside
    have hpred' := hpred s.arr hpos
    simp only [shiftArrayInsertHead, if_neg hfull]
    refine ⟨h.written_head hpos careful fun k hk => (hforeign k hk).1, ?_⟩
    apply @writes_concat arch { s with arr := { s.arr with head := s.arr.head - 1 } } _
      (s.arr.head - 1) (by simp only; omega) value
    intro dest hdest
    rw [nothing] at hdest
    exact absurd hdest List.not_mem_nil

theorem Holds.insertTail (h : Holds s elements) (nothing : s.written = [])
    (permitted : Permitted s (.insertTail value pages))
    (careful : Careful s (.insertTail value pages)) :
    Holds (shiftArrayInsertTail arch s value pages).2
        (elements ++ [readBytes s.store.mem value s.arr.width]) ∧
      WritesInside (shiftArrayInsertTail arch s value pages).2 := by
  obtain ⟨hforeign, hgrows⟩ := permitted
  by_cases hfull : s.arr.tail = s.arr.capacity
  · simp only [Careful, if_pos hfull] at careful
    obtain ⟨hdoubles, hwhole⟩ := careful
    have hinside := h.inside
    have hpos := h.pos
    obtain ⟨s', hresize, hresized⟩ := @Holds.resized arch _ _ _ h nothing (hgrows hfull) hdoubles
      fun i hlow hhigh => hwhole i hlow (by omega)
    obtain ⟨hvalue, hapart⟩ := hresized.foreign_value hforeign
    have hroom : s'.arr.tail.toNat < s'.arr.capacity.toNat := by
      rw [hresized.tail, hresized.capacity, ShiftToMiddleArray.middle]
      omega
    simp only [shiftArrayInsertTail, if_pos hfull, hresize]
    rw [← hvalue]
    refine ⟨hresized.holds.written_tail hroom ?_ hapart, ?_⟩
    · rw [hresized.width, hresized.tail]
      exact hwhole _ (by omega) (Nat.le_refl _)
    · exact writes_concat hresized.writes s'.arr.tail hroom value
  · simp only [Careful, if_neg hfull] at careful
    have hroom : s.arr.tail.toNat < s.arr.capacity.toNat := by
      have hinside := h.inside
      have hne : s.arr.tail.toNat ≠ s.arr.capacity.toNat :=
        fun heq => hfull (BitVec.eq_of_toNat_eq heq)
      omega
    simp only [shiftArrayInsertTail, if_neg hfull]
    refine ⟨h.written_tail hroom careful fun k hk => (hforeign k hk).1, ?_⟩
    apply writes_concat _ s.arr.tail hroom value
    intro dest hdest
    rw [nothing] at hdest
    exact absurd hdest List.not_mem_nil

theorem Holds.removeHead (h : Holds s elements) :
    Holds { s with arr := shiftArrayRemoveHead s.arr } elements.tail := by
  have hordered := h.ordered
  have hinside := h.inside
  have hcontents := h.contents
  rw [shiftArrayRemoveHead]
  by_cases hsome : s.arr.head < s.arr.tail
  · have htail := s.arr.tail.isLt
    have hlt : s.arr.head.toNat < s.arr.tail.toNat := hsome
    have hnext : (s.arr.head + 1).toNat = s.arr.head.toNat + 1 := by
      rw [BitVec.toNat_add]
      exact Nat.mod_eq_of_lt (by simp only [BitVec.reduceToNat]; omega)
    rw [if_pos hsome]
    refine ⟨h.init, h.aligned, h.pos, ?_, hinside, h.fits, h.owned, ?_⟩
    · simp only
      omega
    · have hlength : s.arr.tail.toNat - s.arr.head.toNat =
          s.arr.tail.toNat - (s.arr.head.toNat + 1) + 1 := by omega
      rw [hlength, window_cons] at hcontents
      simp only [hnext]
      exact congrArg List.tail hcontents
  · have hnone : s.arr.tail.toNat - s.arr.head.toNat = 0 := by
      rw [BitVec.lt_def] at hsome
      omega
    rw [hnone, window_zero] at hcontents
    rw [if_neg hsome]
    subst hcontents
    exact h

theorem Holds.removeTail (h : Holds s elements) :
    Holds { s with arr := shiftArrayRemoveTail s.arr } elements.dropLast := by
  have hordered := h.ordered
  have hinside := h.inside
  have hcontents := h.contents
  rw [shiftArrayRemoveTail]
  by_cases hsome : s.arr.tail > s.arr.head
  · have hlt : s.arr.head.toNat < s.arr.tail.toNat := hsome
    have hpred : (s.arr.tail - 1).toNat = s.arr.tail.toNat - 1 :=
      BitVec.toNat_sub_of_le (Nat.lt_of_le_of_lt (Nat.zero_le _) hlt)
    rw [if_pos hsome]
    refine ⟨h.init, h.aligned, h.pos, ?_, ?_, h.fits, h.owned, ?_⟩
    · simp only
      omega
    · simp only
      omega
    · have hlength : s.arr.tail.toNat - s.arr.head.toNat =
          s.arr.tail.toNat - 1 - s.arr.head.toNat + 1 := by omega
      rw [hlength, window_concat] at hcontents
      simp only [hpred]
      rw [← hcontents, List.dropLast_concat]
      rfl
  · have hnone : s.arr.tail.toNat - s.arr.head.toNat = 0 := by
      rw [gt_iff_lt, BitVec.lt_def] at hsome
      omega
    rw [hnone, window_zero] at hcontents
    rw [if_neg hsome]
    subst hcontents
    exact h

/-- What the rest of the kernel does leaves the elements. -/
theorem Holds.elsewhere (h : Holds s elements) {store : Store}
    (permitted : Permitted s (.elsewhere store)) : Holds { s with store := store } elements := by
  obtain ⟨hframe, hinit, howned, hsame⟩ := permitted
  have hinside := h.inside
  refine ⟨hinit, ?_, h.pos, h.ordered, h.inside, h.fits, howned, ?_⟩
  · simp only
    rw [hframe]
    exact h.aligned
  · rw [← h.contents]
    apply window_congr
    intro k hk
    have hplace : s.arr.head.toNat + k < s.arr.capacity.toNat := by
      simp only at hk
      omega
    exact element_congr hplace hsame

/-- One operation, when it is used with care. -/
theorem Holds.step (h : Holds s elements) {op : Op} (permitted : Permitted s op)
    (careful : Careful s op) :
    Holds (s.exec arch op) (after s elements op) ∧ WritesInside (s.exec arch op) := by
  have hnothing : WritesInside { s with written := [] } :=
    fun dest hdest => absurd hdest List.not_mem_nil
  have hcleared : Holds { s with written := [] } elements :=
    ⟨h.init, h.aligned, h.pos, h.ordered, h.inside, h.fits, h.owned, h.contents⟩
  cases op with
  | insertHead value pages => exact hcleared.insertHead rfl permitted careful
  | insertTail value pages => exact hcleared.insertTail rfl permitted careful
  | removeHead => exact ⟨hcleared.removeHead, fun dest hdest => absurd hdest List.not_mem_nil⟩
  | removeTail => exact ⟨hcleared.removeTail, fun dest hdest => absurd hdest List.not_mem_nil⟩
  | elsewhere store =>
    exact ⟨hcleared.elsewhere permitted, fun dest hdest => absurd hdest List.not_mem_nil⟩

end Steps

/-! ## Runs of a deque -/

section Start

variable {c : BitVec 32}

theorem msb_of_pos (pos : 0 < c.toInt) : c.msb = false := by
  rw [BitVec.msb_eq_toInt]
  exact decide_eq_false (by omega)

theorem toNat_initialCapacity (pos : 0 < c.toInt) : (c.signExtend 64).toNat = c.toNat := by
  rw [BitVec.signExtend_eq_setWidth_of_msb_false (msb_of_pos pos), BitVec.toNat_setWidth]
  omega

theorem toNat_initialHead (pos : 0 < c.toInt) : ((c.sdiv 2).signExtend 64).toNat = c.toNat / 2 := by
  have hhalf : c.sdiv 2 = c / 2 := by
    rw [BitVec.sdiv_eq, msb_of_pos pos]
    rfl
  have hmsb : (c / 2).msb = false := by
    rw [BitVec.msb_eq_false_iff_two_mul_lt, BitVec.toNat_udiv]
    simp only [BitVec.reduceToNat]
    omega
  rw [hhalf, BitVec.signExtend_eq_setWidth_of_msb_false hmsb, BitVec.toNat_setWidth,
    BitVec.toNat_udiv]
  simp only [BitVec.reduceToNat]
  omega

/-- A new array is empty. -/
theorem Started.holds {s : State} (h : Started s) (fits : s.arr.size < 2 ^ 64) :
    Holds s [] ∧ WritesInside s := by
  obtain ⟨store, elemSize, initialCapacity, pages, hinit, haligned, hpos, hallocates, hrun,
    hnothing⟩ := h
  have hcapacity := toNat_initialCapacity hpos
  have hhead := toNat_initialHead hpos
  have hpositive : 0 < initialCapacity.toNat := by
    rw [Nat.pos_iff_ne_zero]
    intro hzero
    obtain rfl : initialCapacity = 0 := BitVec.eq_of_toNat_eq hzero
    exact absurd hpos (by decide)
  have hgives := hallocates.contiguous
  simp only [shiftArrayInit] at hrun
  cases hcalloc : fbaCallocBlocks store (elemSize * initialCapacity.signExtend 64) pages with
  | mk answer store' =>
    rw [hcalloc] at hgives
    simp only [hcalloc] at hrun
    cases answer with
    | none => exact absurd (congrArg Prod.fst hrun) (by simp)
    | some data =>
      simp only [Prod.mk.injEq, Option.some.injEq] at hrun
      obtain ⟨harr, hstore⟩ := hrun
      have hspares := spares_calloc hinit.sized hcalloc
      obtain ⟨howned, -⟩ := owned_of_gives hinit hspares hgives
      have hbytes : (elemSize * initialCapacity.signExtend 64).toNat = s.arr.size := by
        rw [← harr] at fits ⊢
        rw [BitVec.toNat_mul, Nat.mul_comm]
        exact Nat.mod_eq_of_lt fits
      rw [hbytes] at howned
      subst hstore
      refine ⟨⟨⟨hinit.sized.of_frame hspares.frame, fun i hi => ?_⟩, ?_, ?_, ?_, ?_, fits, ?_, ?_⟩, ?_⟩
      · rw [hspares.frame] at hi
        exact hspares.keeps i (hinit.own i hi)
      · rw [hspares.frame]
        exact haligned
      · rw [← harr]
        simp only
        omega
      · rw [← harr]
      · rw [← harr]
        simp only
        omega
      · rw [← harr] at howned ⊢
        exact howned
      · rw [← harr]
        simp only [Nat.sub_self, window_zero]
      · intro dest hdest
        rw [hnothing] at hdest
        exact absurd hdest List.not_mem_nil

end Start

/-- Used with care, the array is a double-ended queue. -/
theorem shiftArray_refines {arch : Arch} {s : State} {elements : List (List (BitVec 8))}
    (h : Reachable (carefulDeque arch) (s, elements)) : Refines s elements := by
  have hinvariant : Holds s elements ∧ WritesInside s := by
    refine h.invariant (fun state => Holds state.1 state.2 ∧ WritesInside state.1) ?_ ?_
    · rintro ⟨s, elements⟩ ⟨⟨hstarted, hnone⟩, hfits⟩
      obtain rfl : elements = [] := hnone
      exact hstarted.holds hfits
    · rintro ⟨s, elements⟩ op ⟨s', elements'⟩ ⟨hholds, -⟩ ⟨hcareful, hpermitted, hstep, hafter⟩
      obtain rfl : s' = s.exec arch op := hstep
      obtain rfl : elements' = after s elements op := hafter
      exact hholds.step hpermitted hcareful
  exact hinvariant.1.refines hinvariant.2

/-! ## Arrays of a single block -/

section Small

variable {store : Store} {bytes : BitVec 64} {pages : Nat → BitVec 64} {first : Nat}

theorem calloc_block (sized : Sized store.fba) (hfirst : FirstClear store.fba first)
    (page : pageFailed (pages 0) = false) (pos : 0 < bytes.toNat) (one : bytes.toNat ≤ 4096) :
    fbaCallocBlocks store bytes pages = (some (blockAddress store.fba first),
      { fba := { store.fba with bitmap := bitmapSet store.fba.bitmap 0 first }
        mem := zeroBlock store.mem (blockAddress store.fba first) }) := by
  have hnumber : blocksFor bytes - 1 = 0 := by
    rw [blocksFor]
    omega
  have hpage : doAlloc (blockAddress store.fba first) (pages 0) =
      some (blockAddress store.fba first) := by
    rw [doAlloc, page]
    rfl
  rw [fbaCallocBlocks, allocBlock_first sized (pages 0) hfirst, hpage]
  simp only [toNat_numBlocks (by omega : bytes.toNat + 4095 < 2 ^ 64), hnumber, callocLoop]
  rfl

theorem allocates_block (sized : Sized store.fba) (hfirst : FirstClear store.fba first)
    (page : pageFailed (pages 0) = false) (pos : 0 < bytes.toNat) (one : bytes.toNat ≤ 4096) :
    Allocates store bytes pages := by
  have hcalloc := calloc_block sized hfirst page pos one
  refine ⟨⟨_, by rw [hcalloc]⟩, ?_⟩
  rw [hcalloc]
  refine ⟨fun base hbase => ⟨first, (Option.some.inj hbase).symm, fun j hj => ?_⟩,
    fun hnone => nomatch hnone⟩
  obtain rfl : j = 0 := by
    rw [blocksFor] at hj
    omega
  refine ⟨?_, hfirst.2.1, ?_⟩
  · rw [← sized.bits]
    exact hfirst.1
  · simp

end Small

/-- An array of eight-byte elements behind the bitmap. -/
def newArray (initialCapacity : BitVec 32) : State where
  arr := ⟨0x8001000, 8, (initialCapacity.sdiv 2).signExtend 64,
    (initialCapacity.sdiv 2).signExtend 64, initialCapacity.signExtend 64⟩
  store := ⟨{ (fragmented 1).fba with bitmap := bitmapSet (fragmented 1).fba.bitmap 0 1 },
    zeroBlock (fragmented 1).mem 0x8001000⟩
  written := []

theorem newArray_started {c : BitVec 32} (pos : 0 < c.toInt) (small : c.toNat ≤ 512) :
    Started (newArray c) := by
  have hinit := fragmented_initialised 1 (by decide)
  have hfirst : FirstClear (fragmented 1).fba 1 := by
    refine ⟨by decide, by decide, fun i hi => ?_⟩
    obtain rfl : i = 0 := Nat.lt_one_iff.mp hi
    decide
  have hcapacity := toNat_initialCapacity pos
  have hpositive : 0 < c.toNat := by
    rw [Nat.pos_iff_ne_zero]
    intro hzero
    obtain rfl : c = 0 := BitVec.eq_of_toNat_eq hzero
    exact absurd pos (by decide)
  have hbytes : (8 * c.signExtend 64 : BitVec 64).toNat = 8 * c.toNat := by
    rw [BitVec.toNat_mul, hcapacity]
    exact Nat.mod_eq_of_lt (by simp only [BitVec.reduceToNat]; omega)
  have hpage : pageFailed 0x1000 = false := by decide
  refine ⟨fragmented 1, 8, c, fun _ => 0x1000, hinit, by decide, pos,
    allocates_block hinit.sized hfirst hpage (by omega) (by omega), ?_, rfl⟩
  rw [shiftArrayInit]
  simp only [@calloc_block _ _ (fun _ => 0x1000) 1 hinit.sized hfirst hpage
    (by omega : 0 < (8 * c.signExtend 64 : BitVec 64).toNat) (by omega)]
  rfl

theorem newArray_foreign {s : State} (harr : s.arr.data = 0x8001000)
    (hwidth : s.arr.width = 8) (hsize : s.arr.size ≤ 4096)
    (hbegin : s.store.fba.fbaBegin = 0x8000000) : Foreign s 0 := by
  intro k hk
  have hvalue : (addr 0 k).toNat = k := by
    rw [toNat_addr (by simp only [BitVec.reduceToNat]; omega)]
    simp
  constructor
  · intro l hl heq
    have hsame := congrArg BitVec.toNat heq
    rw [hvalue, harr, toNat_addr (by simp only [BitVec.reduceToNat]; omega)] at hsame
    simp only [BitVec.reduceToNat] at hsame
    omega
  · rintro ⟨i, -, -, hlow, -⟩
    rw [hbegin, hvalue] at hlow
    simp only [BitVec.reduceToNat] at hlow
    omega

/-- An element at the third of four places. -/
theorem shiftArray_refines_one_element :
    Refines ((newArray 4).exec .x8664 (.insertTail 0 fun _ => 0x1000))
      (after (newArray 4) [] (.insertTail 0 fun _ => 0x1000)) := by
  have hstart : Reachable (carefulDeque .x8664) (newArray 4, []) :=
    .start ⟨⟨newArray_started (by decide) (by decide), rfl⟩, by decide⟩
  have hforeign : Foreign (newArray 4) 0 := newArray_foreign rfl rfl (by decide) rfl
  have hroom : (newArray 4).arr.tail ≠ (newArray 4).arr.capacity := by decide
  have hpermitted : Permitted (newArray 4) (.insertTail 0 fun _ => 0x1000) :=
    ⟨hforeign, fun hfull => absurd hfull hroom⟩
  have hcareful : Careful (newArray 4) (.insertTail 0 fun _ => 0x1000) := by
    simp only [Careful, if_neg hroom]
    right
    left
    decide
  exact shiftArray_refines (hstart.next ⟨hcareful, hpermitted, rfl, rfl⟩)

theorem deque_next {arch : Arch} {s : State} {elements : List (List (BitVec 8))} {op : Op}
    (h : Reachable (deque arch) (s, elements)) (permitted : Permitted s op) :
    Reachable (deque arch) (s.exec arch op, after s elements op) := h.next ⟨permitted, rfl, rfl⟩

/-- An element inserted before the only one of an array of capacity one: the elements of an array
of two places begin at the first of them, and the head wraps. -/
theorem insert_head_underflows :
    ∃ s elements, Reachable (deque .x8664) (s, elements) ∧ ¬ Refines s elements := by
  let one := (newArray 1).exec .x8664 (.insertTail 0 fun _ => 0x1000)
  let two := one.exec .x8664 (.insertHead 0 fun _ => 0x1000)
  have hstart : Reachable (deque .x8664) (newArray 1, []) :=
    .start ⟨newArray_started (by decide) (by decide), rfl⟩
  have hroom : (newArray 1).arr.tail ≠ (newArray 1).arr.capacity := by decide
  have hpage : pageFailed 0x1000 = false := by decide
  have hone : Permitted (newArray 1) (.insertTail 0 fun _ => 0x1000) :=
    ⟨newArray_foreign rfl rfl (by decide) rfl, fun hfull => absurd hfull hroom⟩
  have hfirst : FirstClear one.store.fba 2 := by
    refine ⟨by decide, by decide, fun i hi => ?_⟩
    obtain rfl | rfl : i = 0 ∨ i = 1 := by omega
    · decide
    · decide
  have hsized : Sized one.store.fba := (fragmented_initialised 1 (by decide)).sized.of_frame rfl
  have htwo : Permitted one (.insertHead 0 fun _ => 0x1000) := by
    refine ⟨newArray_foreign rfl rfl (by decide) rfl, fun _ => ?_⟩
    exact allocates_block hsized hfirst hpage (by decide) (by decide)
  refine ⟨two, _, deque_next (deque_next hstart hone) htwo, ?_⟩
  intro hrefines
  have hordered : two.arr.head ≤ two.arr.tail := hrefines.ordered.1
  exact absurd hordered (by decide +kernel)

end ShiftDeque
