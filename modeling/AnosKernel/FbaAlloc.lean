import AnosKernel.Lib.Masks
import AnosKernel.Lib.Runs
import Mathlib.Data.BitVec

/-!
# The fixed block allocator

`kernel/fba/alloc.c`: a region of pages, which it calls blocks, with a bitmap of the blocks in use
in the first ones of them. A run of blocks is searched word by word and bit by bit; a single block
is the first clear bit. The bit of a block is set before there is a page for it and stays set when
there is none.
-/

namespace FbaAlloc

open Runs

def vmPageSize : BitVec 64 := 0x1000

abbrev Bitmap := Nat → BitVec 64

/-- `bitmap_set` of `structs/bitmap.h`, where the pointer is at the word `bmp`. -/
def bitmapSet (bitmap : Bitmap) (bmp bit : Nat) : Bitmap :=
  Function.update bitmap (bmp + bit >>> 6)
    (bitmap (bmp + bit >>> 6) ||| (1#64 <<< (bit &&& 0x3f)))

def bitmapClear (bitmap : Bitmap) (bmp bit : Nat) : Bitmap :=
  Function.update bitmap (bmp + bit >>> 6)
    (bitmap (bmp + bit >>> 6) &&& ~~~(1#64 <<< (bit &&& 0x3f)))

def bitmapCheck (bitmap : Bitmap) (bmp bit : Nat) : Bool :=
  bitmap (bmp + bit >>> 6) &&& (1#64 <<< (bit &&& 0x3f)) != 0

structure Fba where
  fbaBegin : BitVec 64
  fbaSizeBlocks : BitVec 64
  bitmapSizeBlocks : BitVec 64
  bitmapSizeQuads : BitVec 64
  bitmapSizeBits : BitVec 64
  bitmap : Bitmap

/-- The variables before `fba_init`. -/
def uninitialised : Fba := ⟨0, 0, 0, 0, 0, fun _ => 0⟩

/-- What `page_alloc` answers: an address that is not aligned signals an error. -/
def pageFailed (phys : BitVec 64) : Bool := phys &&& 0xfff != 0

/-- The loop of `fba_init` that maps the bitmap, after `i` pages. -/
def mapBitmap (pages : Nat → BitVec 64) (virtEnd : BitVec 64) : Nat → Nat → BitVec 64 → Bool
  | 0, _, _ => true
  | turns + 1, i, virt =>
    if virt < virtEnd then
      if pageFailed (pages i) then false
      else mapBitmap pages virtEnd turns (i + 1) (virt + 0x1000)
    else true

/-- `fba_init`; `memory` is what the pages of the bitmap hold. -/
def fbaInit (fba : Fba) (fbaBegin fbaSizeBlocks : BitVec 64) (pages : Nat → BitVec 64)
    (memory : Bitmap) : Bool × Fba :=
  if fbaBegin &&& 0xfff ≠ 0 then (false, fba)
  else if fbaSizeBlocks &&& 0x7fff ≠ 0 then (false, fba)
  else if fbaSizeBlocks = 0 then (true, fba)
  else
    let bitmapPageCount := fbaSizeBlocks >>> 15
    let bitmapPageEnd := fbaBegin + (bitmapPageCount <<< 12)
    if mapBitmap pages bitmapPageEnd bitmapPageCount.toNat 0 fbaBegin then
      let zeroed : Bitmap :=
        fun word => if word < bitmapPageCount.toNat * 512 then 0 else memory word
      (true,
        { fbaBegin := fbaBegin
          fbaSizeBlocks := fbaSizeBlocks
          bitmapSizeBlocks := bitmapPageCount
          bitmapSizeQuads := bitmapPageCount <<< 9
          bitmapSizeBits := (bitmapPageCount <<< 9) <<< 6
          bitmap := (List.range bitmapPageCount.toNat).foldl (fun b i => bitmapSet b 0 i) zeroed })
    else (false, fba)

def doAlloc (blockAddress phys : BitVec 64) : Option (BitVec 64) :=
  if pageFailed phys then none else some blockAddress

/-! ## The search for a run -/

/-- The run of clear bits the loops of `find_unset_run` have just passed. -/
structure Run where
  consecZeroes : Nat
  startBit : Nat
  deriving DecidableEq, Repr

/-- How a loop of `find_unset_run` ends: with the bit it returns, or behind its last turn. -/
inductive Scan where
  | found (bit : Nat)
  | passed (run : Run)
  deriving DecidableEq, Repr

def alignedStart (alignMask : BitVec 64) (currentBit : Nat) : BitVec 64 :=
  (BitVec.ofNat 64 currentBit + alignMask) &&& ~~~alignMask

/-- Passing `width` clear bits; a run starts only where it is aligned. -/
def Run.extend (run : Run) (alignMask : BitVec 64) (width currentBit : Nat) : Run :=
  if run.consecZeroes = 0 then
    if alignedStart alignMask currentBit ≠ BitVec.ofNat 64 currentBit then run
    else ⟨width, currentBit⟩
  else { run with consecZeroes := run.consecZeroes + width }

/-- The loop over the bits of a mixed word. -/
def scanBits (alignMask : BitVec 64) (n : Nat) (word : BitVec 64) (wordIdx : Nat) :
    Nat → Nat → Run → Scan
  | 0, _, run => .passed run
  | turns + 1, bitIdx, run =>
    if word &&& (1#64 <<< bitIdx) = 0 then
      let run := run.extend alignMask 1 (wordIdx * 64 + bitIdx)
      if run.consecZeroes = n then .found run.startBit
      else scanBits alignMask n word wordIdx turns (bitIdx + 1) run
    else scanBits alignMask n word wordIdx turns (bitIdx + 1) { run with consecZeroes := 0 }

def scanWord (alignMask : BitVec 64) (n : Nat) (word : BitVec 64) (wordIdx : Nat) (run : Run) :
    Scan :=
  if word = 0 then
    let run := run.extend alignMask 64 (wordIdx * 64)
    if run.consecZeroes ≥ n then .found run.startBit else .passed run
  else if word = 0xffffffffffffffff then .passed { run with consecZeroes := 0 }
  else scanBits alignMask n word wordIdx 64 0 run

/-- The loop over the words. -/
def scanWords (alignMask : BitVec 64) (n : Nat) (bitmap : Bitmap) : Nat → Nat → Run → Scan
  | 0, _, run => .passed run
  | turns + 1, wordIdx, run =>
    match scanWord alignMask n (bitmap wordIdx) wordIdx run with
    | .found bit => .found bit
    | .passed run => scanWords alignMask n bitmap turns (wordIdx + 1) run

/-- `find_unset_run`; its loops for at most 64 blocks and for more are the same. -/
def findUnsetRun (bitmap : Bitmap) (numQuads : Nat) (alignPageCount : BitVec 8) (n : Nat) : Nat :=
  if n = 0 ∨ numQuads = 0 then 0
  else
    match scanWords (alignPageCount.setWidth 64 - 1) n bitmap numQuads 0 ⟨0, 0⟩ with
    | .found bit => bit
    | .passed _ => numQuads <<< 6

/-! ## Allocation -/

/-- The loop of `fba_alloc_blocks_aligned` from block `i` on: whether every block got a page. -/
def allocLoop (pages : Nat → BitVec 64) (bit : Nat) (first : BitVec 64) :
    Nat → Nat → Bitmap → Bool × Bitmap
  | 0, _, bitmap => (true, bitmap)
  | turns + 1, i, bitmap =>
    let bitmap := bitmapSet bitmap 0 (bit + i)
    match doAlloc (first + BitVec.ofNat 64 i * vmPageSize) (pages i) with
    | none => (false, bitmap)
    | some _ => allocLoop pages bit first turns (i + 1) bitmap

def fbaAllocBlocksAligned (fba : Fba) (count : BitVec 32) (pageAlign : BitVec 8)
    (pages : Nat → BitVec 64) : Option (BitVec 64) × Fba :=
  if count = 0 then (none, fba)
  else if pageAlign = 0 ∨ pageAlign > 64 ∨ pageAlign &&& (pageAlign - 1) ≠ 0 then (none, fba)
  else
    let bit := findUnsetRun fba.bitmap fba.bitmapSizeQuads.toNat pageAlign count.toNat
    if bit = fba.bitmapSizeBits.toNat then (none, fba)
    else
      let firstBlockAddress := fba.fbaBegin + BitVec.ofNat 64 bit * vmPageSize
      let (complete, bitmap) := allocLoop pages bit firstBlockAddress count.toNat 0 fba.bitmap
      (if complete then some firstBlockAddress else none, { fba with bitmap := bitmap })

def fbaAllocBlocks (fba : Fba) (count : BitVec 32) (pages : Nat → BitVec 64) :
    Option (BitVec 64) × Fba :=
  fbaAllocBlocksAligned fba count 1 pages

/-- The number of trailing zeros; the code only asks for words with a bit set. -/
def firstSetBit64 (nonzero : BitVec 64) : Nat :=
  ((List.range 64).find? (nonzero.getLsbD ·)).getD 64

def fbaAllocBlock (fba : Fba) (page : BitVec 64) : Option (BitVec 64) × Fba :=
  match (List.range fba.bitmapSizeQuads.toNat).find? (fba.bitmap · ≠ 0xffffffffffffffff) with
  | none => (none, fba)
  | some bmp =>
    let bit := firstSetBit64 (~~~fba.bitmap bmp)
    (doAlloc (fba.fbaBegin + BitVec.ofNat 64 (bmp * 64 + bit) * vmPageSize) page,
      { fba with bitmap := bitmapSet fba.bitmap bmp bit })

/-! ## Freeing -/

def fbaFree (fba : Fba) (block : BitVec 64) : Fba :=
  if block = 0 then fba
  else if block < fba.fbaBegin ∨ block ≥ fba.fbaBegin + fba.fbaSizeBlocks * vmPageSize then fba
  else
    let blockIndex := ((block - fba.fbaBegin) / vmPageSize).toNat
    let quadIndex := blockIndex / 64
    let bitIndex := blockIndex % 64
    if bitmapCheck fba.bitmap quadIndex bitIndex then
      { fba with bitmap := bitmapClear fba.bitmap quadIndex bitIndex }
    else fba

/-- The loop of `fba_free_blocks`, which ends after as many turns as there are blocks. -/
def freeLoop (stop : BitVec 64) : Nat → BitVec 64 → Fba → Fba
  | 0, _, fba => fba
  | turns + 1, current, fba =>
    if current < stop then freeLoop stop turns (current + vmPageSize) (fbaFree fba current)
    else fba

def fbaFreeBlocks (fba : Fba) (block : BitVec 64) (count : BitVec 32) : Fba :=
  freeLoop (block + count.setWidth 64 * vmPageSize) count.toNat block fba

/-! ## Runs -/

/-- `live` is history: the blocks that were given out and not given back. -/
structure World where
  fba : Fba
  live : Nat → Bool

inductive Call where
  | allocBlock (page : BitVec 64)
  | allocBlocks (count : BitVec 32) (pages : Nat → BitVec 64)
  | allocBlocksAligned (count : BitVec 32) (pageAlign : BitVec 8) (pages : Nat → BitVec 64)
  | free (block : BitVec 64)
  | freeBlocks (block : BitVec 64) (count : BitVec 32)

/-- How many blocks an allocation asks for. -/
def Call.count : Call → Nat
  | .allocBlock _ => 1
  | .allocBlocks count _ => count.toNat
  | .allocBlocksAligned count _ _ => count.toNat
  | .free _ => 0
  | .freeBlocks _ _ => 0

/-- What the first block of an allocation must be a multiple of. -/
def Call.align : Call → Nat
  | .allocBlocksAligned _ pageAlign _ => pageAlign.toNat
  | _ => 1

/-- The blocks a call gives back, which start at an address. -/
def Call.released : Call → BitVec 64 × Nat
  | .free block => (block, 1)
  | .freeBlocks block count => (block, count.toNat)
  | _ => (0, 0)

def World.blockIndex (w : World) (block : BitVec 64) : Nat :=
  (block - w.fba.fbaBegin).toNat / 0x1000

def run (fba : Fba) : Call → Option (BitVec 64) × Fba
  | .allocBlock page => fbaAllocBlock fba page
  | .allocBlocks count pages => fbaAllocBlocks fba count pages
  | .allocBlocksAligned count pageAlign pages => fbaAllocBlocksAligned fba count pageAlign pages
  | .free block => (none, fbaFree fba block)
  | .freeBlocks block count => (none, fbaFreeBlocks fba block count)

/-- A call, and the blocks it gives out or takes back. -/
def World.exec (w : World) (call : Call) : Option (BitVec 64) × World :=
  let (result, fba) := run w.fba call
  (result,
    { fba := fba
      live := fun i =>
        match result with
        | some a => w.live i ||
            decide (w.blockIndex a ≤ i ∧ i < w.blockIndex a + call.count)
        | none => w.live i &&
            !decide (call.released.1 ≠ 0 ∧ w.blockIndex call.released.1 ≤ i ∧
              i < w.blockIndex call.released.1 + call.released.2) })

/-- From this address on there are so many blocks of live allocations. -/
def World.Owned (w : World) (block : BitVec 64) (n : Nat) : Prop :=
  ∃ first, block = w.fba.fbaBegin + BitVec.ofNat 64 first * vmPageSize ∧
    ∀ i < n, w.live (first + i) = true

/-- The call gives none of the blocks back that start at an address. -/
def World.Spares (w : World) (call : Call) (block : BitVec 64) (n : Nat) : Prop :=
  ∀ i < n, call.released.1 ≠ 0 → w.blockIndex call.released.1 ≤ w.blockIndex block + i →
    w.blockIndex call.released.1 + call.released.2 ≤ w.blockIndex block + i

/-- Only blocks of live allocations are freed, or a null pointer. -/
def Valid (w : World) : Call → Prop
  | .free block => block = 0 ∨ w.Owned block 1
  | .freeBlocks block count => w.Owned block count.toNat
  | _ => True

/-- The state behind a successful `fba_init` for a range of addresses. -/
def Started (w : World) : Prop :=
  (∃ fbaBegin fbaSizeBlocks pages memory,
    fbaBegin.toNat + fbaSizeBlocks.toNat * 0x1000 ≤ 2 ^ 64 ∧
      fbaInit uninitialised fbaBegin fbaSizeBlocks pages memory = (true, w.fba)) ∧
    ∀ i, w.live i = false

def fbaCalls : System World Call where
  init := Started
  step := fun w call w' => Valid w call ∧ w' = (w.exec call).2

/-! ## Bits -/

def bit (bitmap : Bitmap) (i : Nat) : Bool := (bitmap (i / 64)).getLsbD (i % 64)

section Bits

variable {bitmap : Bitmap} {bmp k i : Nat}

theorem split_bit (bmp k : Nat) : (bmp * 64 + k) / 64 = bmp + k >>> 6 ∧
    (bmp * 64 + k) % 64 = k &&& 0x3f := by
  have hlow : k &&& 0x3f = k % 64 := Nat.and_two_pow_sub_one_eq_mod k 6
  have hhigh : k >>> 6 = k / 64 := Nat.shiftRight_eq_div_pow k 6
  omega

theorem eq_of_split {i j : Nat} (word : i / 64 = j / 64) (offset : i % 64 = j % 64) : i = j := by
  omega

@[simp] theorem bit_bitmapSet :
    bit (bitmapSet bitmap bmp k) i = (bit bitmap i || decide (i = bmp * 64 + k)) := by
  obtain ⟨hword, hoffset⟩ := split_bit bmp k
  rw [bitmapSet, ← hword, ← hoffset, bit, bit]
  by_cases hsame : i / 64 = (bmp * 64 + k) / 64
  · have hlt : i % 64 < 64 := Nat.mod_lt _ (by decide)
    rw [hsame, Function.update_self, BitVec.getLsbD_or, Masks.getLsbD_one_shiftLeft hlt, ← hsame]
    congr 1
    exact decide_eq_decide.mpr ⟨eq_of_split hsame, fun h => h ▸ rfl⟩
  · have hne : i ≠ bmp * 64 + k := fun h => hsame (h ▸ rfl)
    rw [Function.update_of_ne hsame]
    simp [hne]

@[simp] theorem bit_bitmapClear :
    bit (bitmapClear bitmap bmp k) i = (bit bitmap i && !decide (i = bmp * 64 + k)) := by
  obtain ⟨hword, hoffset⟩ := split_bit bmp k
  rw [bitmapClear, ← hword, ← hoffset, bit, bit]
  by_cases hsame : i / 64 = (bmp * 64 + k) / 64
  · have hlt : i % 64 < 64 := Nat.mod_lt _ (by decide)
    rw [hsame, Function.update_self, BitVec.getLsbD_and, BitVec.getLsbD_not,
      Masks.getLsbD_one_shiftLeft hlt, ← hsame]
    simp only [hlt, decide_true, Bool.true_and]
    congr 2
    exact decide_eq_decide.mpr ⟨eq_of_split hsame, fun h => h ▸ rfl⟩
  · have hne : i ≠ bmp * 64 + k := fun h => hsame (h ▸ rfl)
    rw [Function.update_of_ne hsame]
    simp [hne]

/-- Testing a word with one bit. -/
theorem and_one_shiftLeft_eq_zero {word : BitVec 64} (h : k < 64) :
    word &&& (1#64 <<< k) = 0 ↔ word.getLsbD k = false := by
  constructor
  · intro hzero
    have hbit := congrArg (BitVec.getLsbD · k) hzero
    simpa [Masks.getLsbD_one_shiftLeft h] using hbit
  · intro hclear
    apply BitVec.eq_of_getLsbD_eq
    intro j hj
    rw [BitVec.getLsbD_and, Masks.getLsbD_one_shiftLeft hj]
    by_cases hjk : j = k
    · simp [hjk, hclear]
    · simp [hjk]

theorem bitmapCheck_eq : bitmapCheck bitmap bmp k = bit bitmap (bmp * 64 + k) := by
  obtain ⟨hword, hoffset⟩ := split_bit bmp k
  have hlt : (bmp * 64 + k) % 64 < 64 := Nat.mod_lt _ (by decide)
  rw [bitmapCheck, bit, ← hword, ← hoffset, Bool.eq_iff_iff, bne_iff_ne, ne_eq,
    and_one_shiftLeft_eq_zero hlt, Bool.not_eq_false]

theorem bit_of_word {wordIdx : Nat} (h : k < 64) :
    bit bitmap (wordIdx * 64 + k) = (bitmap wordIdx).getLsbD k := by
  have hword : (wordIdx * 64 + k) / 64 = wordIdx := by omega
  have hoffset : (wordIdx * 64 + k) % 64 = k := by omega
  rw [bit, hword, hoffset]

end Bits

/-! ## What the search finds -/

/-- The run ends before `pos`, consists of clear bits and starts at a multiple of `align`. -/
def Run.Clear (run : Run) (bitmap : Bitmap) (align pos : Nat) : Prop :=
  run.consecZeroes = 0 ∨ run.startBit + run.consecZeroes = pos ∧ align ∣ run.startBit ∧
    ∀ i < run.consecZeroes, bit bitmap (run.startBit + i) = false

/-- From `start` on there are `n` clear bits before `pos`. -/
def ClearFrom (bitmap : Bitmap) (align n pos start : Nat) : Prop :=
  align ∣ start ∧ start + n ≤ pos ∧ ∀ i < n, bit bitmap (start + i) = false

def Scan.Sound (bitmap : Bitmap) (align n pos : Nat) : Scan → Prop
  | .found start => ClearFrom bitmap align n pos start
  | .passed run => run.Clear bitmap align pos

section Search

variable {bitmap : Bitmap} {alignMask : BitVec 64} {k n pos wordIdx : Nat} {run : Run}

/-- Rounding up leaves the multiples of the alignment where they are, and nothing else. -/
theorem alignedStart_eq_iff (mask : alignMask.toNat = 2 ^ k - 1) (width : k ≤ 64) :
    alignedStart alignMask pos = BitVec.ofNat 64 pos ↔ 2 ^ k ∣ pos := by
  have hdvd : 2 ^ k ∣ pos ↔ BitVec.ofNat 64 pos &&& alignMask = 0 := by
    rw [Masks.and_low_eq_zero_iff mask, BitVec.toNat_ofNat, ← Nat.dvd_iff_mod_eq_zero,
      Nat.dvd_mod_iff (Nat.pow_dvd_pow 2 width)]
  rw [hdvd, alignedStart]
  constructor
  · intro h
    rw [← h, BitVec.and_assoc, BitVec.and_comm (~~~alignMask)]
    simp
  · intro hlow
    rw [BitVec.add_eq_or_of_and_eq_zero _ _ hlow]
    apply BitVec.eq_of_getLsbD_eq
    intro i hi
    have hbit := congrArg (BitVec.getLsbD · i) hlow
    simp only [BitVec.getLsbD_and, BitVec.ofNat_eq_ofNat, BitVec.getLsbD_zero] at hbit
    simp only [BitVec.getLsbD_and, BitVec.getLsbD_or, BitVec.getLsbD_not, hi, decide_true,
      Bool.true_and]
    cases halign : alignMask.getLsbD i with
    | false => simp
    | true => simpa [halign] using hbit.symm

theorem Run.Clear.extend (h : run.Clear bitmap (2 ^ k) pos) (mask : alignMask.toNat = 2 ^ k - 1)
    (hk : k ≤ 64) {width : Nat} (clear : ∀ i < width, bit bitmap (pos + i) = false) :
    (run.extend alignMask width pos).Clear bitmap (2 ^ k) (pos + width) := by
  rw [Run.extend]
  split_ifs with hnone hunaligned
  · exact Or.inl hnone
  · right
    exact ⟨rfl, (alignedStart_eq_iff mask hk).mp (not_not.mp hunaligned), clear⟩
  · right
    obtain ⟨hend, hdvd, hbits⟩ := h.resolve_left hnone
    refine ⟨?_, hdvd, ?_⟩
    · rw [← hend]
      exact (Nat.add_assoc _ _ _).symm
    · intro i hi
      by_cases hold : i < run.consecZeroes
      · exact hbits i hold
      · have hnew := clear (i - run.consecZeroes) (by simp only at hi; omega)
        have hpos : pos + (i - run.consecZeroes) = run.startBit + i := by omega
        rwa [hpos] at hnew

/-- A run that is long enough. -/
theorem Run.Clear.found {align : Nat} (h : run.Clear bitmap align pos) (pos_n : 0 < n)
    (long : n ≤ run.consecZeroes) : ClearFrom bitmap align n pos run.startBit := by
  obtain ⟨hend, hdvd, hbits⟩ := h.resolve_left (by omega)
  exact ⟨hdvd, by omega, fun i hi => hbits i (by omega)⟩

theorem ClearFrom.mono {align start pos' : Nat} (h : ClearFrom bitmap align n pos start)
    (le : pos ≤ pos') : ClearFrom bitmap align n pos' start :=
  ⟨h.1, Nat.le_trans h.2.1 le, h.2.2⟩

theorem scanBits_sound (mask : alignMask.toNat = 2 ^ k - 1) (hk : k ≤ 64) (pos_n : 0 < n)
    {turns bitIdx : Nat} (hturns : bitIdx + turns = 64)
    (h : run.Clear bitmap (2 ^ k) (wordIdx * 64 + bitIdx)) :
    (scanBits alignMask n (bitmap wordIdx) wordIdx turns bitIdx run).Sound bitmap (2 ^ k) n
      ((wordIdx + 1) * 64) := by
  induction turns generalizing bitIdx run with
  | zero =>
    have hend : wordIdx * 64 + bitIdx = (wordIdx + 1) * 64 := by omega
    rw [scanBits, ← hend]
    exact h
  | succ turns ih =>
    have hbit : bitIdx < 64 := by omega
    rw [scanBits]
    by_cases hclear : bitmap wordIdx &&& (1#64 <<< bitIdx) = 0
    · have hrun : (run.extend alignMask 1 (wordIdx * 64 + bitIdx)).Clear bitmap (2 ^ k)
          (wordIdx * 64 + bitIdx + 1) := by
        apply h.extend mask hk
        intro i hi
        obtain rfl : i = 0 := by omega
        rwa [and_one_shiftLeft_eq_zero hbit, ← bit_of_word hbit] at hclear
      simp only [if_pos hclear]
      split_ifs with hlong
      · exact (hrun.found pos_n (Nat.le_of_eq hlong.symm)).mono (by omega)
      · exact ih (by omega) hrun
    · rw [if_neg hclear]
      exact ih (by omega) (Or.inl rfl)

theorem scanWord_sound (mask : alignMask.toNat = 2 ^ k - 1) (hk : k ≤ 64) (pos_n : 0 < n)
    (h : run.Clear bitmap (2 ^ k) (wordIdx * 64)) :
    (scanWord alignMask n (bitmap wordIdx) wordIdx run).Sound bitmap (2 ^ k) n
      ((wordIdx + 1) * 64) := by
  rw [scanWord]
  by_cases hzero : bitmap wordIdx = 0
  · have hrun : (run.extend alignMask 64 (wordIdx * 64)).Clear bitmap (2 ^ k)
        ((wordIdx + 1) * 64) := by
      rw [Nat.add_mul, Nat.one_mul]
      apply h.extend mask hk
      intro i hi
      rw [bit_of_word hi, hzero]
      exact BitVec.getLsbD_zero
    simp only [if_pos hzero]
    split_ifs with hlong
    · exact hrun.found pos_n hlong
    · exact hrun
  · rw [if_neg hzero]
    split_ifs with hfull
    · exact Or.inl rfl
    · exact scanBits_sound mask hk pos_n rfl h

theorem scanWords_sound (mask : alignMask.toNat = 2 ^ k - 1) (hk : k ≤ 64) (pos_n : 0 < n)
    {turns : Nat} (h : run.Clear bitmap (2 ^ k) (wordIdx * 64)) :
    (scanWords alignMask n bitmap turns wordIdx run).Sound bitmap (2 ^ k) n
      ((wordIdx + turns) * 64) := by
  induction turns generalizing wordIdx run with
  | zero => exact h
  | succ turns ih =>
    have hword := scanWord_sound mask hk pos_n h
    have hpos : (wordIdx + (turns + 1)) * 64 = (wordIdx + 1 + turns) * 64 := by omega
    rw [scanWords, hpos]
    cases hscan : scanWord alignMask n (bitmap wordIdx) wordIdx run with
    | found start =>
      rw [hscan] at hword
      exact hword.mono (by omega)
    | passed run' =>
      rw [hscan] at hword
      exact ih hword

/-- An alignment that is not refused is a power of two, at most the width of a word. -/
theorem align_pow (align : BitVec 8)
    (h : ¬ (align = 0 ∨ align > 64 ∨ align &&& (align - 1) ≠ 0)) :
    ∃ k < 7, align.toNat = 2 ^ k := by
  have hall : ∀ n < 256, ¬ (BitVec.ofNat 8 n = 0 ∨ BitVec.ofNat 8 n > 64 ∨
      BitVec.ofNat 8 n &&& (BitVec.ofNat 8 n - 1) ≠ 0) →
        ∃ k < 7, (BitVec.ofNat 8 n).toNat = 2 ^ k := by
    decide +kernel
  have halign := hall align.toNat align.isLt
  rw [BitVec.ofNat_toNat, BitVec.setWidth_eq] at halign
  exact halign h

theorem toNat_alignMask {align : BitVec 8} (pow : align.toNat = 2 ^ k) :
    (align.setWidth 64 - 1).toNat = 2 ^ k - 1 := by
  have hpos : 0 < 2 ^ k := Nat.two_pow_pos k
  have hlt := align.isLt
  rw [BitVec.toNat_sub, BitVec.toNat_setWidth]
  simp only [BitVec.ofNat_eq_ofNat, BitVec.toNat_ofNat]
  omega

/-- `find_unset_run` answers the number of bits, or an aligned run of clear bits. -/
theorem findUnsetRun_spec {numQuads : Nat} {align : BitVec 8}
    (power : ¬ (align = 0 ∨ align > 64 ∨ align &&& (align - 1) ≠ 0)) (pos_n : 0 < n)
    (found : findUnsetRun bitmap numQuads align n ≠ numQuads * 64) :
    ClearFrom bitmap align.toNat n (numQuads * 64) (findUnsetRun bitmap numQuads align n) := by
  obtain ⟨k, hk, hpow⟩ := align_pow align power
  have hsound := @scanWords_sound bitmap (align.setWidth 64 - 1) k n 0 ⟨0, 0⟩
    (toNat_alignMask hpow) (by omega) pos_n numQuads (Or.inl rfl)
  rw [Nat.zero_add, ← hpow] at hsound
  rw [findUnsetRun] at found ⊢
  split_ifs at found ⊢ with hnone
  · rcases hnone with hn | hquads
    · omega
    · rw [hquads] at found
      exact absurd rfl found
  · cases hscan : scanWords (align.setWidth 64 - 1) n bitmap numQuads 0 ⟨0, 0⟩ with
    | found start =>
      rw [hscan] at hsound
      exact hsound
    | passed run =>
      rw [hscan] at found
      exact absurd (Nat.shiftLeft_eq numQuads 6) found

end Search

/-! ## What allocations give out -/

/-- The `n` blocks of an answer were clear and are set now; set bits stay set. -/
structure Gives (fba : Fba) (n align : Nat) (outcome : Option (BitVec 64) × Fba) : Prop where
  frame : outcome.2 = { fba with bitmap := outcome.2.bitmap }
  keeps : ∀ i, bit fba.bitmap i = true → bit outcome.2.bitmap i = true
  gives : ∀ a, outcome.1 = some a → ∃ first,
    a = fba.fbaBegin + BitVec.ofNat 64 first * vmPageSize ∧ align ∣ first ∧ 0 < n ∧
    first + n ≤ fba.fbaSizeBlocks.toNat ∧
    ∀ i < n, bit fba.bitmap (first + i) = false ∧ bit outcome.2.bitmap (first + i) = true

theorem Gives.refused {fba : Fba} {n align : Nat} : Gives fba n align (none, fba) :=
  ⟨rfl, fun _ h => h, fun _ h => absurd h (by simp)⟩

/-- The sizes that `fba_init` has computed. -/
structure Sized (fba : Fba) : Prop where
  blocks : fba.bitmapSizeBlocks.toNat * 32768 = fba.fbaSizeBlocks.toNat
  bits : fba.bitmapSizeBits = fba.fbaSizeBlocks
  quads : fba.bitmapSizeQuads.toNat * 64 = fba.fbaSizeBlocks.toNat
  fits : fba.fbaBegin.toNat + fba.fbaSizeBlocks.toNat * 0x1000 ≤ 2 ^ 64

section Allocation

variable {fba : Fba} {pages : Nat → BitVec 64} {start turns i j : Nat} {first : BitVec 64}
  {bitmap : Bitmap}

theorem allocLoop_keeps (h : bit bitmap j = true) :
    bit (allocLoop pages start first turns i bitmap).2 j = true := by
  induction turns generalizing i bitmap with
  | zero => exact h
  | succ turns ih =>
    have hset : bit (bitmapSet bitmap 0 (start + i)) j = true := by simp [h]
    rw [allocLoop]
    cases doAlloc (first + BitVec.ofNat 64 i * vmPageSize) (pages i) with
    | none => exact hset
    | some _ => exact ih hset

theorem allocLoop_sets (complete : (allocLoop pages start first turns i bitmap).1 = true)
    (ge : i ≤ j) (lt : j < i + turns) :
    bit (allocLoop pages start first turns i bitmap).2 (start + j) = true := by
  induction turns generalizing i bitmap with
  | zero => omega
  | succ turns ih =>
    rw [allocLoop] at complete ⊢
    cases hpage : doAlloc (first + BitVec.ofNat 64 i * vmPageSize) (pages i) with
    | none =>
      simp only [hpage] at complete
      exact absurd complete (by simp)
    | some _ =>
      simp only [hpage] at complete ⊢
      by_cases hij : i = j
      · subst hij
        exact allocLoop_keeps (by simp)
      · exact ih complete (by omega) (by omega)

theorem allocBlocksAligned_gives (h : Sized fba) (count : BitVec 32) (align : BitVec 8) :
    Gives fba count.toNat align.toNat (fbaAllocBlocksAligned fba count align pages) := by
  rw [fbaAllocBlocksAligned]
  split_ifs with hcount hpower
  · exact Gives.refused
  · exact Gives.refused
  · by_cases hfull : findUnsetRun fba.bitmap fba.bitmapSizeQuads.toNat align count.toNat =
        fba.bitmapSizeBits.toNat
    · simp only [if_pos hfull]
      exact Gives.refused
    · simp only [if_neg hfull]
      have hpos : 0 < count.toNat := by
        rw [Nat.pos_iff_ne_zero]
        exact fun hzero => hcount (BitVec.eq_of_toNat_eq hzero)
      have hquads := h.quads
      rw [h.bits, ← hquads] at hfull
      obtain ⟨hdvd, hend, hclear⟩ := findUnsetRun_spec hpower hpos hfull
      generalize findUnsetRun fba.bitmap fba.bitmapSizeQuads.toNat align count.toNat = start at *
      constructor
      · rfl
      · exact fun j hj => allocLoop_keeps hj
      · intro a ha
        split_ifs at ha with hcomplete
        obtain rfl := Option.some.inj ha
        refine ⟨start, rfl, hdvd, hpos, by omega, ?_⟩
        intro j hj
        exact ⟨hclear j hj, allocLoop_sets hcomplete (Nat.zero_le j) (by omega)⟩

theorem allocLoop_others (other : j < start + i ∨ start + i + turns ≤ j) :
    bit (allocLoop pages start first turns i bitmap).2 j = bit bitmap j := by
  induction turns generalizing i bitmap with
  | zero => rfl
  | succ turns ih =>
    have hkept : bit (bitmapSet bitmap 0 (start + i)) j = bit bitmap j := by
      have hne : j ≠ start + i := by omega
      simp [hne]
    rw [allocLoop]
    cases doAlloc (first + BitVec.ofNat 64 i * vmPageSize) (pages i) with
    | none => exact hkept
    | some _ => exact (ih (by omega)).trans hkept

/-- The blocks of an answer are all that changes. -/
theorem allocBlocksAligned_takes {count : BitVec 32} {align : BitVec 8} {a : BitVec 64}
    (h : Sized fba) (answer : (fbaAllocBlocksAligned fba count align pages).1 = some a) :
    ∃ first, a = fba.fbaBegin + BitVec.ofNat 64 first * vmPageSize ∧ 0 < count.toNat ∧
      first + count.toNat ≤ fba.fbaSizeBlocks.toNat ∧
      (∀ i < count.toNat, bit fba.bitmap (first + i) = false) ∧
      ∀ i, bit (fbaAllocBlocksAligned fba count align pages).2.bitmap i =
        (bit fba.bitmap i || decide (first ≤ i ∧ i < first + count.toNat)) := by
  rw [fbaAllocBlocksAligned] at answer ⊢
  split_ifs at answer ⊢ with hcount hpower
  by_cases hfull : findUnsetRun fba.bitmap fba.bitmapSizeQuads.toNat align count.toNat =
      fba.bitmapSizeBits.toNat
  · simp only [if_pos hfull] at answer
    exact absurd answer (by simp)
  · simp only [if_neg hfull] at answer ⊢
    have hpos : 0 < count.toNat := by
      rw [Nat.pos_iff_ne_zero]
      exact fun hzero => hcount (BitVec.eq_of_toNat_eq hzero)
    have hquads := h.quads
    rw [h.bits, ← hquads] at hfull
    obtain ⟨-, hend, hclear⟩ := findUnsetRun_spec hpower hpos hfull
    generalize findUnsetRun fba.bitmap fba.bitmapSizeQuads.toNat align count.toNat = start at *
    split_ifs at answer with hcomplete
    obtain rfl := Option.some.inj answer
    refine ⟨start, rfl, hpos, by omega, hclear, fun i => ?_⟩
    by_cases hin : start ≤ i ∧ i < start + count.toNat
    · have hset := @allocLoop_sets pages start count.toNat 0 (i - start) _ _ hcomplete (by omega)
        (by omega)
      rw [Nat.add_sub_cancel' hin.1] at hset
      rw [hset, decide_eq_true hin, Bool.or_true]
    · rw [allocLoop_others (by omega), decide_eq_false hin, Bool.or_false]

theorem firstSetBit64_spec {x : BitVec 64} (h : x ≠ 0xffffffffffffffff) :
    firstSetBit64 (~~~x) < 64 ∧ x.getLsbD (firstSetBit64 (~~~x)) = false := by
  have hones : (0xffffffffffffffff : BitVec 64) = BitVec.allOnes 64 := by decide
  rw [hones] at h
  obtain ⟨n, hfind, hn, hclear⟩ := Masks.find_clear h
  rw [firstSetBit64, hfind, Option.getD_some]
  exact ⟨hn, hclear⟩

theorem allocBlock_gives (h : Sized fba) (page : BitVec 64) :
    Gives fba 1 1 (fbaAllocBlock fba page) := by
  rw [fbaAllocBlock]
  cases hspace : (List.range fba.bitmapSizeQuads.toNat).find?
      (fba.bitmap · ≠ 0xffffffffffffffff) with
  | none => exact Gives.refused
  | some bmp =>
    have hbmp : bmp < fba.bitmapSizeQuads.toNat :=
      List.mem_range.mp (List.mem_of_find?_eq_some hspace)
    have hword : fba.bitmap bmp ≠ 0xffffffffffffffff := by simpa using List.find?_some hspace
    obtain ⟨hlt, hclear⟩ := firstSetBit64_spec hword
    rw [← bit_of_word hlt] at hclear
    have hquads := h.quads
    constructor
    · rfl
    · intro i hi
      simp [hi]
    · intro a ha
      simp only [doAlloc] at ha
      split_ifs at ha with hpage
      obtain rfl := Option.some.inj ha
      refine ⟨_, rfl, Nat.one_dvd _, Nat.one_pos, by omega, ?_⟩
      intro i hi
      obtain rfl : i = 0 := by omega
      exact ⟨hclear, by simp⟩

theorem allocBlocks_gives (h : Sized fba) (count : BitVec 32) :
    Gives fba count.toNat 1 (fbaAllocBlocks fba count pages) :=
  allocBlocksAligned_gives h count 1

end Allocation

/-! ## What freeing takes back -/

section Freeing

variable {fba : Fba} {first i turns : Nat} {block stop : BitVec 64}

theorem Sized.toNat_offset (h : Sized fba) (inside : first < fba.fbaSizeBlocks.toNat) :
    (BitVec.ofNat 64 first * vmPageSize).toNat = first * 0x1000 := by
  have hfits := h.fits
  rw [BitVec.toNat_mul, BitVec.toNat_ofNat, vmPageSize]
  simp only [BitVec.ofNat_eq_ofNat, BitVec.toNat_ofNat]
  omega

theorem Sized.toNat_address (h : Sized fba) (inside : first < fba.fbaSizeBlocks.toNat) :
    (fba.fbaBegin + BitVec.ofNat 64 first * vmPageSize).toNat =
      fba.fbaBegin.toNat + first * 0x1000 := by
  have hfits := h.fits
  rw [BitVec.toNat_add, h.toNat_offset inside]
  omega

theorem next_address : fba.fbaBegin + BitVec.ofNat 64 first * vmPageSize + vmPageSize =
    fba.fbaBegin + BitVec.ofNat 64 (first + 1) * vmPageSize := by
  have hstep : BitVec.ofNat 64 (first + 1) = BitVec.ofNat 64 first + 1 := by
    rw [BitVec.ofNat_add]
    rfl
  rw [hstep, BitVec.add_mul, BitVec.add_assoc]
  rfl

/-- A block that is not refused is freed by clearing its bit. -/
theorem fbaFree_cases (fba : Fba) (block : BitVec 64) :
    fbaFree fba block = fba ∨ ∃ index, index = ((block - fba.fbaBegin) / vmPageSize).toNat ∧
      fbaFree fba block =
        { fba with bitmap := bitmapClear fba.bitmap (index / 64) (index % 64) } := by
  rw [fbaFree]
  by_cases hnull : block = 0
  · exact Or.inl (if_pos hnull)
  · rw [if_neg hnull]
    by_cases hout : block < fba.fbaBegin ∨ block ≥ fba.fbaBegin + fba.fbaSizeBlocks * vmPageSize
    · exact Or.inl (if_pos hout)
    · simp only [if_neg hout]
      split_ifs
      · exact Or.inr ⟨_, rfl, rfl⟩
      · exact Or.inl rfl

theorem fbaFree_frame : fbaFree fba block = { fba with bitmap := (fbaFree fba block).bitmap } := by
  rcases fbaFree_cases fba block with heq | ⟨_, _, heq⟩
  · rw [heq]
  · rw [heq]

/-- Only the bit of the block itself can change. -/
theorem fbaFree_others (h : Sized fba) (inside : first < fba.fbaSizeBlocks.toNat)
    (other : i ≠ first) :
    bit (fbaFree fba (fba.fbaBegin + BitVec.ofNat 64 first * vmPageSize)).bitmap i =
      bit fba.bitmap i := by
  rcases fbaFree_cases fba (fba.fbaBegin + BitVec.ofNat 64 first * vmPageSize) with
    heq | ⟨index, hindex, heq⟩
  · rw [heq]
  · rw [BitVec.add_comm, BitVec.add_sub_cancel, BitVec.toNat_udiv, h.toNat_offset inside,
      vmPageSize] at hindex
    simp only [BitVec.ofNat_eq_ofNat, BitVec.toNat_ofNat, Nat.reducePow, Nat.reduceMod] at hindex
    have hquad : index / 64 * 64 + index % 64 = first := by omega
    rw [heq, bit_bitmapClear, hquad]
    simp [other]

theorem freeLoop_frame :
    freeLoop stop turns block fba = { fba with bitmap := (freeLoop stop turns block fba).bitmap } := by
  induction turns generalizing block fba with
  | zero => rfl
  | succ turns ih =>
    rw [freeLoop]
    split_ifs
    · rw [ih, fbaFree_frame]
    · rfl

/-- The blocks before and behind those the loop passes keep their bits. -/
theorem freeLoop_others (h : Sized fba) (inside : ∀ j < turns, first + j < fba.fbaSizeBlocks.toNat)
    (other : i < first ∨ first + turns ≤ i) :
    bit (freeLoop stop turns (fba.fbaBegin + BitVec.ofNat 64 first * vmPageSize) fba).bitmap i =
      bit fba.bitmap i := by
  induction turns generalizing first fba with
  | zero => rfl
  | succ turns ih =>
    rw [freeLoop]
    split_ifs
    · have hone := @fbaFree_others fba first i h (inside 0 (by omega)) (by omega)
      have hframe := @fbaFree_frame fba (fba.fbaBegin + BitVec.ofNat 64 first * vmPageSize)
      generalize fbaFree fba (fba.fbaBegin + BitVec.ofNat 64 first * vmPageSize) = freed at *
      have hsized : Sized freed := by
        rw [hframe]
        exact ⟨h.blocks, h.bits, h.quads, h.fits⟩
      have hbegin : fba.fbaBegin = freed.fbaBegin := by rw [hframe]
      have hsize : fba.fbaSizeBlocks = freed.fbaSizeBlocks := by rw [hframe]
      rw [← hone, next_address, hbegin]
      apply ih hsized
      · intro j hj
        rw [← hsize, Nat.add_right_comm]
        exact inside (j + 1) (by omega)
      · omega
    · rfl

end Freeing

/-! ## Every run -/

/-- Live blocks are in use, inside the range and behind the blocks of the bitmap. -/
structure Inv (w : World) : Prop where
  sized : Sized w.fba
  own : ∀ i < w.fba.bitmapSizeBlocks.toNat, bit w.fba.bitmap i = true
  used : ∀ i, w.live i = true → bit w.fba.bitmap i = true
  within : ∀ i, w.live i = true →
    w.fba.bitmapSizeBlocks.toNat ≤ i ∧ i < w.fba.fbaSizeBlocks.toNat

section Start

variable {fbaBegin fbaSizeBlocks : BitVec 64} {i n : Nat}

theorem bit_foldl_set (bitmap : Bitmap) (h : i < n) :
    bit ((List.range n).foldl (fun b j => bitmapSet b 0 j) bitmap) i = true := by
  induction n with
  | zero => omega
  | succ n ih =>
    rw [List.range_succ, List.foldl_append, List.foldl_cons, List.foldl_nil, bit_bitmapSet]
    by_cases hlast : i = n
    · simp [hlast]
    · rw [ih (by omega)]
      rfl

/-- The number of pages is a multiple of the bits of a page of bitmap. -/
theorem toNat_pageCount (h : fbaSizeBlocks &&& 0x7fff = 0) :
    (fbaSizeBlocks >>> 15).toNat * 32768 = fbaSizeBlocks.toNat := by
  have hmask : (0x7fff : BitVec 64).toNat = 2 ^ 15 - 1 := by decide
  have hmod := (Masks.and_low_eq_zero_iff hmask).mp h
  rw [BitVec.toNat_ushiftRight, Nat.shiftRight_eq_div_pow]
  omega

theorem sized_quads (h : fbaSizeBlocks &&& 0x7fff = 0) :
    ((fbaSizeBlocks >>> 15) <<< 9).toNat * 64 = fbaSizeBlocks.toNat ∧
      ((fbaSizeBlocks >>> 15) <<< 9) <<< 6 = fbaSizeBlocks := by
  have hcount := toNat_pageCount h
  have hlt := fbaSizeBlocks.isLt
  have hquads : ((fbaSizeBlocks >>> 15) <<< 9).toNat = (fbaSizeBlocks >>> 15).toNat * 512 := by
    rw [BitVec.toNat_shiftLeft, Nat.shiftLeft_eq]
    omega
  constructor
  · omega
  · apply BitVec.eq_of_toNat_eq
    rw [BitVec.toNat_shiftLeft, Nat.shiftLeft_eq, hquads]
    omega

theorem fbaInit_cases {pages : Nat → BitVec 64} {memory : Bitmap} {fba : Fba}
    (h : fbaInit uninitialised fbaBegin fbaSizeBlocks pages memory = (true, fba)) :
    fba = uninitialised ∨ fbaSizeBlocks &&& 0x7fff = 0 ∧ ∃ zeroed,
      fba = {
        fbaBegin := fbaBegin
        fbaSizeBlocks := fbaSizeBlocks
        bitmapSizeBlocks := fbaSizeBlocks >>> 15
        bitmapSizeQuads := (fbaSizeBlocks >>> 15) <<< 9
        bitmapSizeBits := ((fbaSizeBlocks >>> 15) <<< 9) <<< 6
        bitmap := (List.range (fbaSizeBlocks >>> 15).toNat).foldl (fun b i => bitmapSet b 0 i)
          zeroed } := by
  rw [fbaInit] at h
  split_ifs at h with halign hsize hzero
  · exact absurd h (by simp)
  · exact absurd h (by simp)
  · exact Or.inl (Prod.ext_iff.mp h).2.symm
  · right
    simp only at h
    split_ifs at h
    · exact ⟨not_not.mp hsize, _, (Prod.ext_iff.mp h).2.symm⟩
    · exact absurd h (by simp)

end Start

theorem started_inv {w : World} (h : Started w) : Inv w := by
  obtain ⟨⟨fbaBegin, fbaSizeBlocks, pages, memory, hfits, hinit⟩, hlive⟩ := h
  have hnone : ∀ i, ¬ w.live i = true := by
    intro i hi
    rw [hlive i] at hi
    exact absurd hi (by decide)
  have hsized : Sized w.fba ∧
      ∀ i < w.fba.bitmapSizeBlocks.toNat, bit w.fba.bitmap i = true := by
    rcases fbaInit_cases hinit with heq | ⟨hlow, zeroed, heq⟩
    · rw [heq]
      constructor
      · constructor <;> decide
      · intro i hi
        exact absurd hi (Nat.not_lt_zero i)
    · obtain ⟨hquads, hbits⟩ := sized_quads hlow
      rw [heq]
      exact ⟨⟨toNat_pageCount hlow, hbits, hquads, hfits⟩, fun i hi => bit_foldl_set zeroed hi⟩
  exact ⟨hsized.1, hsized.2, fun i hi => absurd hi (hnone i), fun i hi => absurd hi (hnone i)⟩

section Step

variable {w : World} {fba : Fba} {call : Call} {n align first i : Nat}

/-- A set bitmap block has no place among blocks whose bits are clear. -/
theorem Inv.behind_bitmap (h : Inv w) (clear : bit w.fba.bitmap i = false) :
    w.fba.bitmapSizeBlocks.toNat ≤ i := by
  by_contra hown
  have hset := h.own i (by omega)
  rw [clear] at hset
  exact absurd hset (by decide)

theorem Inv.not_live (h : Inv w) (clear : bit w.fba.bitmap i = false) : w.live i = false := by
  rw [← Bool.not_eq_true]
  intro hlive
  have hset := h.used i hlive
  rw [clear] at hset
  exact absurd hset (by decide)

theorem Inv.blockIndex_address (h : Inv w) (inside : first < w.fba.fbaSizeBlocks.toNat) :
    w.blockIndex (w.fba.fbaBegin + BitVec.ofNat 64 first * vmPageSize) = first := by
  rw [World.blockIndex, BitVec.add_comm, BitVec.add_sub_cancel, h.sized.toNat_offset inside]
  exact Nat.mul_div_cancel first (by decide)

/-- What holds of the allocator's variables after a call that changes the bitmap only. -/
theorem Sized.of_frame {fba' : Fba} (h : Sized fba) (frame : fba' = { fba with bitmap := fba'.bitmap }) :
    Sized fba' := by
  rw [frame]
  exact ⟨h.blocks, h.bits, h.quads, h.fits⟩

/-- An allocation that found no blocks, or found blocks that are given out now. -/
theorem Inv.allocated (h : Inv w) {result : Option (BitVec 64)}
    (gives : Gives w.fba n align (result, fba)) {live : Nat → Bool}
    (hlive : ∀ i, live i = true → w.live i = true ∨ ∃ a, result = some a ∧
      w.blockIndex a ≤ i ∧ i < w.blockIndex a + n) :
    Inv ⟨fba, live⟩ := by
  have hframe : fba = { w.fba with bitmap := fba.bitmap } := gives.frame
  have hbitmap : fba.bitmapSizeBlocks = w.fba.bitmapSizeBlocks := by rw [hframe]
  have hsize : fba.fbaSizeBlocks = w.fba.fbaSizeBlocks := by rw [hframe]
  have hblock : ∀ i, live i = true → bit fba.bitmap i = true ∧
      w.fba.bitmapSizeBlocks.toNat ≤ i ∧ i < w.fba.fbaSizeBlocks.toNat := by
    intro i hi
    rcases hlive i hi with hold | ⟨a, ha, hge, hlt⟩
    · exact ⟨gives.keeps i (h.used i hold), h.within i hold⟩
    · obtain ⟨first, rfl, _, _, hend, hbits⟩ := gives.gives a ha
      have hindex := @Inv.blockIndex_address w first h (by omega)
      rw [hindex] at hge hlt
      have hbit := hbits (i - first) (by omega)
      rw [Nat.add_sub_cancel' hge] at hbit
      exact ⟨hbit.2, h.behind_bitmap hbit.1, by omega⟩
  constructor
  · exact h.sized.of_frame hframe
  · intro i hi
    simp only [hbitmap] at hi
    exact gives.keeps i (h.own i hi)
  · intro i hi
    exact (hblock i hi).1
  · intro i hi
    simp only [hbitmap, hsize]
    exact (hblock i hi).2

/-- Blocks that were live are given back. -/
theorem Inv.released (h : Inv w) (frame : fba = { w.fba with bitmap := fba.bitmap })
    (owned : ∀ i < n, w.live (first + i) = true)
    (others : ∀ i, i < first ∨ first + n ≤ i → bit fba.bitmap i = bit w.fba.bitmap i)
    {live : Nat → Bool}
    (hlive : ∀ i, live i = true → w.live i = true ∧ (i < first ∨ first + n ≤ i)) :
    Inv ⟨fba, live⟩ := by
  have hbitmap : fba.bitmapSizeBlocks = w.fba.bitmapSizeBlocks := by rw [frame]
  have hsize : fba.fbaSizeBlocks = w.fba.fbaSizeBlocks := by rw [frame]
  constructor
  · exact h.sized.of_frame frame
  · intro i hi
    simp only [hbitmap] at hi
    rw [others]
    · exact h.own i hi
    · by_contra hinside
      have hwithin := h.within i (by
        have hmember := owned (i - first) (by omega)
        rwa [Nat.add_sub_cancel' (by omega)] at hmember)
      omega
  · intro i hi
    obtain ⟨hold, hother⟩ := hlive i hi
    simp only [others i hother]
    exact h.used i hold
  · intro i hi
    simp only [hbitmap, hsize]
    exact h.within i (hlive i hi).1

theorem run_gives (h : Inv w) (call : Call) :
    Gives w.fba call.count call.align (run w.fba call) ∨ (run w.fba call).1 = none := by
  cases call with
  | allocBlock page => exact Or.inl (allocBlock_gives h.sized page)
  | allocBlocks count pages => exact Or.inl (allocBlocks_gives h.sized count)
  | allocBlocksAligned count pageAlign pages =>
    exact Or.inl (allocBlocksAligned_gives h.sized count pageAlign)
  | free block => exact Or.inr rfl
  | freeBlocks block count => exact Or.inr rfl

theorem exec_live_some {a : BitVec 64} (h : (run w.fba call).1 = some a) :
    (w.exec call).2.live i = (w.live i ||
      decide (w.blockIndex a ≤ i ∧ i < w.blockIndex a + call.count)) := by
  simp only [World.exec]
  rw [h]

theorem exec_live_none (h : (run w.fba call).1 = none) :
    (w.exec call).2.live i = (w.live i &&
      !decide (call.released.1 ≠ 0 ∧ w.blockIndex call.released.1 ≤ i ∧
        i < w.blockIndex call.released.1 + call.released.2)) := by
  simp only [World.exec]
  rw [h]

theorem exec_fbaBegin (h : Inv w) : (w.exec call).2.fba.fbaBegin = w.fba.fbaBegin := by
  have hframe : (run w.fba call).2 = { w.fba with bitmap := (run w.fba call).2.bitmap } := by
    cases call with
    | allocBlock page => exact (allocBlock_gives h.sized page).frame
    | allocBlocks count pages => exact (allocBlocks_gives h.sized count).frame
    | allocBlocksAligned count pageAlign pages =>
      exact (allocBlocksAligned_gives h.sized count pageAlign).frame
    | free block => exact fbaFree_frame
    | freeBlocks block count => exact freeLoop_frame
  have hbegin := congrArg Fba.fbaBegin hframe
  exact hbegin

/-- A call takes back only the blocks it names. -/
theorem Inv.owned_kept {block : BitVec 64} (h : Inv w) (owned : w.Owned block n)
    (spares : w.Spares call block n) : (w.exec call).2.Owned block n := by
  obtain ⟨first, rfl, hlive⟩ := owned
  refine ⟨first, by rw [exec_fbaBegin h], fun i hi => ?_⟩
  cases hresult : (run w.fba call).1 with
  | some a => rw [exec_live_some hresult, hlive i hi, Bool.true_or]
  | none =>
    rw [exec_live_none hresult, hlive i hi, Bool.true_and, Bool.not_eq_true',
      decide_eq_false_iff_not]
    rintro ⟨hnull, hfrom, hto⟩
    have hfirst : first < w.fba.fbaSizeBlocks.toNat := by
      have hwithin := (h.within first (hlive 0 (by omega))).2
      exact hwithin
    have hspared := spares i hi hnull
    rw [h.blockIndex_address hfirst] at hspared
    have hbehind := hspared hfrom
    omega

/-- The calls that allocate. -/
theorem step_allocation (h : Inv w) (gives : Gives w.fba call.count call.align (run w.fba call)) :
    Inv (w.exec call).2 := by
  apply h.allocated gives
  intro i (hi : (w.exec call).2.live i = true)
  cases hresult : (run w.fba call).1 with
  | none =>
    rw [exec_live_none hresult] at hi
    exact Or.inl (Bool.and_eq_true_iff.mp hi).1
  | some a =>
    rw [exec_live_some hresult] at hi
    rcases Bool.or_eq_true_iff.mp hi with hold | hnew
    · exact Or.inl hold
    · exact Or.inr ⟨a, hresult, of_decide_eq_true hnew⟩

/-- The calls that free blocks of live allocations. -/
theorem step_release (h : Inv w) (hnone : (run w.fba call).1 = none)
    (hblock : call.released.1 = w.fba.fbaBegin + BitVec.ofNat 64 first * vmPageSize)
    (owned : ∀ i < call.released.2, w.live (first + i) = true)
    (frame : (run w.fba call).2 = { w.fba with bitmap := (run w.fba call).2.bitmap })
    (others : ∀ i, i < first ∨ first + call.released.2 ≤ i →
      bit (run w.fba call).2.bitmap i = bit w.fba.bitmap i) :
    Inv (w.exec call).2 := by
  apply h.released frame owned others
  intro i (hi : (w.exec call).2.live i = true)
  rw [exec_live_none hnone] at hi
  obtain ⟨hlive, hout⟩ := Bool.and_eq_true_iff.mp hi
  have hkept := of_decide_eq_false (Bool.not_eq_true' _ ▸ hout)
  refine ⟨hlive, ?_⟩
  by_contra hinside
  have hfirst := h.within first (owned 0 (by omega))
  apply hkept
  rw [hblock, h.blockIndex_address hfirst.2]
  constructor
  · intro hnull
    have haddress := h.sized.toNat_address hfirst.2
    have hblocks := h.sized.blocks
    rw [hnull] at haddress
    simp only [BitVec.ofNat_eq_ofNat, BitVec.toNat_ofNat, Nat.zero_mod] at haddress
    omega
  · omega

theorem step_inv (h : Inv w) (valid : Valid w call) : Inv (w.exec call).2 := by
  cases call with
  | allocBlock page => exact step_allocation h (allocBlock_gives h.sized page)
  | allocBlocks count pages => exact step_allocation h (allocBlocks_gives h.sized count)
  | allocBlocksAligned count pageAlign pages =>
    exact step_allocation h (allocBlocksAligned_gives h.sized count pageAlign)
  | free block =>
    rcases valid with rfl | ⟨first, rfl, owned⟩
    · -- a null pointer gives back nothing
      apply @Inv.released w w.fba 0 0 h rfl
      · intro i hi
        exact absurd hi (Nat.not_lt_zero i)
      · intro i _
        rfl
      · intro i hi
        exact ⟨(Bool.and_eq_true_iff.mp hi).1, Or.inr (by omega)⟩
    · apply @step_release w (.free _) first h rfl rfl owned fbaFree_frame
      intro i hi
      simp only [Call.released] at hi
      exact fbaFree_others h.sized (h.within _ (owned 0 (by decide))).2 (by omega)
  | freeBlocks block count =>
    obtain ⟨first, rfl, owned⟩ := valid
    apply @step_release w (.freeBlocks _ count) first h rfl rfl owned freeLoop_frame
    intro i hi
    exact freeLoop_others h.sized (fun j hj => (h.within _ (owned j hj)).2) hi

end Step

theorem reachable_inv {w : World} (h : Reachable fbaCalls w) : Inv w := by
  apply Reachable.invariant Inv _ _ h
  · intro w hstart
    exact started_inv hstart
  · rintro w call _ hinv ⟨hvalid, rfl⟩
    exact step_inv hinv hvalid

/-- A successful allocation answers consecutive blocks of the range, aligned as requested, that
hold neither the bitmap nor a live allocation. -/
theorem allocations_are_apart {w : World} (reachable : Reachable fbaCalls w) (call : Call)
    (a : BitVec 64) (answer : (w.exec call).1 = some a) :
    ∃ first, a.toNat = w.fba.fbaBegin.toNat + first * 0x1000 ∧ call.align ∣ first ∧
      first + call.count ≤ w.fba.fbaSizeBlocks.toNat ∧
      (∀ i < call.count,
        w.fba.bitmapSizeBlocks.toNat ≤ first + i ∧ w.live (first + i) = false) ∧
      ∀ i, (w.exec call).2.live i = (w.live i || decide (first ≤ i ∧ i < first + call.count)) := by
  have hinv := reachable_inv reachable
  rcases run_gives hinv call with hgives | hnone
  · obtain ⟨first, rfl, hdvd, hpos, hend, hbits⟩ := hgives.gives a answer
    have hinside : first < w.fba.fbaSizeBlocks.toNat := by omega
    refine ⟨first, hinv.sized.toNat_address hinside, hdvd, hend, ?_, ?_⟩
    · intro i hi
      have hclear := (hbits i hi).1
      exact ⟨hinv.behind_bitmap hclear, hinv.not_live hclear⟩
    · intro i
      rw [exec_live_some answer, hinv.blockIndex_address hinside]
  · have hanswer : (run w.fba call).1 = some a := answer
    rw [hnone] at hanswer
    exact absurd hanswer (by simp)

/-- The allocator of `2 ^ 15` blocks from `0x1000` on. -/
def smallest : World where
  fba := (fbaInit uninitialised 0x1000 0x8000 (fun _ => 0) (fun _ => 0)).2
  live := fun _ => false

theorem allocations_are_apart_first :
    ∃ first, (0x2000 : BitVec 64).toNat = smallest.fba.fbaBegin.toNat + first * 0x1000 ∧
      (Call.allocBlock 0).align ∣ first ∧
      first + (Call.allocBlock 0).count ≤ smallest.fba.fbaSizeBlocks.toNat ∧
      (∀ i < (Call.allocBlock 0).count,
        smallest.fba.bitmapSizeBlocks.toNat ≤ first + i ∧ smallest.live (first + i) = false) ∧
      ∀ i, (smallest.exec (.allocBlock 0)).2.live i =
        (smallest.live i || decide (first ≤ i ∧ i < first + (Call.allocBlock 0).count)) := by
  apply allocations_are_apart _ (.allocBlock 0) 0x2000
  · decide +kernel
  · apply Reachable.start
    constructor
    · refine ⟨0x1000, 0x8000, fun _ => 0, fun _ => 0, by decide, ?_⟩
      exact Prod.ext (by decide) rfl
    · intro i
      rfl

end FbaAlloc
