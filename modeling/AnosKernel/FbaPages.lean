import AnosKernel.FbaSearch
import AnosKernel.VmMapper

/-!
# The pages behind the blocks

The fixed block allocator with the pages it takes from `page_alloc` and the tables it maps them
in. What `vmm_map_page_in` answers is ignored. A block whose page cannot be had keeps its bit, and
the blocks of the request before it keep their pages.
-/

namespace FbaPages

open FbaAlloc PageAlloc VmMapper

/-- The variables of `fba/alloc.c`, and the tables and pages that its calls change. -/
structure Kernel where
  fba : Fba
  machine : Machine
  pml4 : BitVec 64

/-- `PG_PRESENT | PG_READ | PG_WRITE`, where `PG_READ` has no bit. -/
def blockFlags : BitVec 16 := 0x3

def doAlloc (k : Kernel) (blockAddress : BitVec 64) : Option (BitVec 64) × Kernel :=
  let (phys, region) := pageAlloc k.machine.region
  let m : Machine := { k.machine with region := region }
  if pageFailed phys then (none, { k with machine := m })
  else
    (some blockAddress,
      { k with machine := (vmmMapPageIn m k.pml4 blockAddress phys blockFlags).2 })

/-- The loop of `fba_alloc_blocks_aligned` from block `i` on: whether every block got a page. -/
def allocLoop (bit : Nat) (first : BitVec 64) : Nat → Nat → Kernel → Bool × Kernel
  | 0, _, k => (true, k)
  | turns + 1, i, k =>
    let k := { k with fba := { k.fba with bitmap := bitmapSet k.fba.bitmap 0 (bit + i) } }
    match doAlloc k (first + BitVec.ofNat 64 i * FbaAlloc.vmPageSize) with
    | (none, k) => (false, k)
    | (some _, k) => allocLoop bit first turns (i + 1) k

def fbaAllocBlocksAligned (k : Kernel) (count : BitVec 32) (pageAlign : BitVec 8) :
    Option (BitVec 64) × Kernel :=
  if count = 0 then (none, k)
  else if pageAlign = 0 ∨ pageAlign > 64 ∨ pageAlign &&& (pageAlign - 1) ≠ 0 then (none, k)
  else
    let bit := findUnsetRun k.fba.bitmap k.fba.bitmapSizeQuads.toNat pageAlign count.toNat
    if bit = k.fba.bitmapSizeBits.toNat then (none, k)
    else
      let firstBlockAddress := k.fba.fbaBegin + BitVec.ofNat 64 bit * FbaAlloc.vmPageSize
      let (complete, k) := allocLoop bit firstBlockAddress count.toNat 0 k
      (if complete then some firstBlockAddress else none, k)

def fbaAllocBlocks (k : Kernel) (count : BitVec 32) : Option (BitVec 64) × Kernel :=
  fbaAllocBlocksAligned k count 1

def fbaAllocBlock (k : Kernel) : Option (BitVec 64) × Kernel :=
  match (List.range k.fba.bitmapSizeQuads.toNat).find?
      (k.fba.bitmap · ≠ 0xffffffffffffffff) with
  | none => (none, k)
  | some bmp =>
    let bit := firstSetBit64 (~~~k.fba.bitmap bmp)
    doAlloc { k with fba := { k.fba with bitmap := bitmapSet k.fba.bitmap bmp bit } }
      (k.fba.fbaBegin + BitVec.ofNat 64 (bmp * 64 + bit) * FbaAlloc.vmPageSize)

def fbaFree (k : Kernel) (block : BitVec 64) : Kernel :=
  if block = 0 then k
  else if block < k.fba.fbaBegin ∨
      block ≥ k.fba.fbaBegin + k.fba.fbaSizeBlocks * FbaAlloc.vmPageSize then k
  else
    let blockIndex := ((block - k.fba.fbaBegin) / FbaAlloc.vmPageSize).toNat
    let quadIndex := blockIndex / 64
    let bitIndex := blockIndex % 64
    if bitmapCheck k.fba.bitmap quadIndex bitIndex then
      let bitmap := bitmapClear k.fba.bitmap quadIndex bitIndex
      let (phys, m) := vmmUnmapPageIn k.machine k.pml4 block
      { k with
        fba := { k.fba with bitmap := bitmap }
        machine := if phys = 0 then m else { m with region := pageFree m.region phys } }
    else k

/-- The loop of `fba_free_blocks`. -/
def freeLoop (stop : BitVec 64) : Nat → BitVec 64 → Kernel → Kernel
  | 0, _, k => k
  | turns + 1, current, k =>
    if current < stop then
      freeLoop stop turns (current + FbaAlloc.vmPageSize) (fbaFree k current)
    else k

def fbaFreeBlocks (k : Kernel) (block : BitVec 64) (count : BitVec 32) : Kernel :=
  freeLoop (block + count.setWidth 64 * FbaAlloc.vmPageSize) count.toNat block k

/-! ## The allocator without its pages -/

section Refinement

variable {k : Kernel} {bit turns i : Nat} {first block : BitVec 64}

theorem doAlloc_fst (k : Kernel) (block : BitVec 64) :
    (doAlloc k block).1 = FbaAlloc.doAlloc block (pageAlloc k.machine.region).1 := by
  simp only [doAlloc, FbaAlloc.doAlloc]
  split_ifs <;> rfl

theorem doAlloc_fba (k : Kernel) (block : BitVec 64) : (doAlloc k block).2.fba = k.fba := by
  simp only [doAlloc]
  split_ifs <;> rfl

/-- The loop asks for the pages of the blocks still to come. -/
theorem allocLoop_congr {pages pages' : Nat → BitVec 64} {bitmap : Bitmap}
    (same : ∀ j, i ≤ j → pages j = pages' j) :
    FbaAlloc.allocLoop pages bit first turns i bitmap =
      FbaAlloc.allocLoop pages' bit first turns i bitmap := by
  induction turns generalizing i bitmap with
  | zero => rfl
  | succ turns ih =>
    rw [FbaAlloc.allocLoop, FbaAlloc.allocLoop, same i (Nat.le_refl i)]
    cases FbaAlloc.doAlloc (first + BitVec.ofNat 64 i * FbaAlloc.vmPageSize) (pages' i) with
    | none => rfl
    | some _ => exact ih fun j hj => same j (by omega)

theorem allocLoop_refines :
    ∃ pages, FbaAlloc.allocLoop pages bit first turns i k.fba.bitmap =
        ((allocLoop bit first turns i k).1, (allocLoop bit first turns i k).2.fba.bitmap) ∧
      (allocLoop bit first turns i k).2.fba =
        { k.fba with bitmap := (allocLoop bit first turns i k).2.fba.bitmap } := by
  induction turns generalizing i k with
  | zero => exact ⟨fun _ => 0, rfl, rfl⟩
  | succ turns ih =>
    let marked : Kernel :=
      { k with fba := { k.fba with bitmap := bitmapSet k.fba.bitmap 0 (bit + i) } }
    let address := first + BitVec.ofNat 64 i * FbaAlloc.vmPageSize
    have hanswer := doAlloc_fst marked address
    have hfba := doAlloc_fba marked address
    cases hpage : doAlloc marked address with
    | mk answer k' =>
      rw [hpage] at hanswer hfba
      simp only at hanswer hfba
      cases answer with
      | none =>
        refine ⟨fun _ => (pageAlloc marked.machine.region).1, ?_, ?_⟩
        · simp only [allocLoop, FbaAlloc.allocLoop, marked, address] at hpage hanswer ⊢
          rw [hpage, ← hanswer, hfba]
        · simp only [allocLoop, marked, address] at hpage ⊢
          rw [hpage, hfba]
      | some a =>
        obtain ⟨pages, hrun, hframe⟩ := @ih k' (i + 1)
        refine ⟨Function.update pages i (pageAlloc marked.machine.region).1, ?_, ?_⟩
        · simp only [allocLoop, FbaAlloc.allocLoop, marked, address] at hpage hanswer ⊢
          rw [hpage, Function.update_self, ← hanswer]
          rw [← hrun, hfba]
          apply allocLoop_congr
          intro j hj
          exact Function.update_of_ne (by omega) _ _
        · simp only [allocLoop, marked, address] at hpage ⊢
          rw [hpage, hframe, hfba]

/-- With the answers of `page_alloc` in the order of the calls, the allocator is the one
without tables and pages. -/
theorem allocBlocksAligned_refines (k : Kernel) (count : BitVec 32) (align : BitVec 8) :
    ∃ pages, FbaAlloc.fbaAllocBlocksAligned k.fba count align pages =
      ((fbaAllocBlocksAligned k count align).1, (fbaAllocBlocksAligned k count align).2.fba) := by
  simp only [fbaAllocBlocksAligned, FbaAlloc.fbaAllocBlocksAligned]
  by_cases hcount : count = 0
  · simp only [if_pos hcount]
    exact ⟨fun _ => 0, trivial⟩
  · by_cases hpower : align = 0 ∨ align > 64 ∨ align &&& (align - 1) ≠ 0
    · simp only [if_neg hcount, if_pos hpower]
      exact ⟨fun _ => 0, trivial⟩
    · simp only [if_neg hcount, if_neg hpower]
      generalize findUnsetRun k.fba.bitmap k.fba.bitmapSizeQuads.toNat align count.toNat = bit
      by_cases hfull : bit = k.fba.bitmapSizeBits.toNat
      · simp only [if_pos hfull]
        exact ⟨fun _ => 0, trivial⟩
      · obtain ⟨pages, hrun, hframe⟩ := @allocLoop_refines k bit count.toNat 0
          (k.fba.fbaBegin + BitVec.ofNat 64 bit * FbaAlloc.vmPageSize)
        simp only [if_neg hfull]
        exact ⟨pages, by rw [hrun, ← hframe]⟩

theorem allocBlock_refines (k : Kernel) :
    FbaAlloc.fbaAllocBlock k.fba (pageAlloc k.machine.region).1 =
      ((fbaAllocBlock k).1, (fbaAllocBlock k).2.fba) := by
  rw [fbaAllocBlock, FbaAlloc.fbaAllocBlock]
  cases (List.range k.fba.bitmapSizeQuads.toNat).find? (k.fba.bitmap · ≠ 0xffffffffffffffff) with
  | none => rfl
  | some bmp => simp only [doAlloc_fst, doAlloc_fba]

theorem fbaFree_refines (k : Kernel) (block : BitVec 64) :
    (fbaFree k block).fba = FbaAlloc.fbaFree k.fba block := by
  simp only [fbaFree, FbaAlloc.fbaFree]
  split_ifs <;> rfl

end Refinement

/-! ## What a failed request leaves -/

inductive Request where
  | block
  | blocks (count : BitVec 32)
  | blocksAligned (count : BitVec 32) (pageAlign : BitVec 8)

def Request.exec (k : Kernel) : Request → Option (BitVec 64) × Kernel
  | .block => fbaAllocBlock k
  | .blocks count => fbaAllocBlocks k count
  | .blocksAligned count pageAlign => fbaAllocBlocksAligned k count pageAlign

/-- The request is not well formed, or the bitmap has no room for it. -/
def Refused (fba : Fba) : Request → Prop
  | .block => ∀ i < fba.bitmapSizeBits.toNat, bit fba.bitmap i = true
  | .blocks count =>
    count = 0 ∨ ∀ start, ¬ ClearFrom fba.bitmap 1 count.toNat fba.bitmapSizeBits.toNat start
  | .blocksAligned count pageAlign =>
    count = 0 ∨ (pageAlign = 0 ∨ pageAlign > 64 ∨ pageAlign &&& (pageAlign - 1) ≠ 0) ∨
      ∀ start, ¬ ClearFrom fba.bitmap pageAlign.toNat count.toNat fba.bitmapSizeBits.toNat start

/-- The address belongs to one of the blocks; the end of the range may be that of all addresses. -/
def InRange (fba : Fba) (v : BitVec 64) : Prop :=
  fba.fbaBegin.toNat ≤ v.toNat ∧
    v.toNat < fba.fbaBegin.toNat + fba.fbaSizeBlocks.toNat * 0x1000

/-- The same blocks are in use, the addresses of the range are mapped as before, and the same
physical pages are free. -/
structure Untouched (k k' : Kernel) : Prop where
  bitmap : ∀ i < k.fba.bitmapSizeBits.toNat, bit k'.fba.bitmap i = bit k.fba.bitmap i
  mappings : ∀ v, InRange k.fba v →
    vmmVirtToPtEntry k'.machine k'.pml4 v = vmmVirtToPtEntry k.machine k.pml4 v
  pages : ∀ page, page ∈ freePages k'.machine.region ↔ page ∈ freePages k.machine.region

theorem Untouched.refl (k : Kernel) : Untouched k k :=
  ⟨fun _ _ => rfl, fun _ _ => rfl, fun _ => Iff.rfl⟩

/-- A block that was free is in use. -/
def Marks (fba fba' : Fba) : Prop :=
  ∃ i < fba.bitmapSizeBits.toNat, bit fba.bitmap i = false ∧ bit fba'.bitmap i = true

theorem Untouched.not_marks {k k' : Kernel} (h : Untouched k k') : ¬ Marks k.fba k'.fba := by
  rintro ⟨i, hi, hclear, hset⟩
  rw [h.bitmap i hi, hclear] at hset
  exact absurd hset (by decide)

section Failing

variable {fba : Fba} {k : Kernel} {count : BitVec 32} {align : BitVec 8}

/-- The first turn of the loop marks a block, whatever `page_alloc` answers. -/
theorem allocLoop_marks {pages : Nat → BitVec 64} {start turns : Nat} {first : BitVec 64}
    {bitmap : Bitmap} :
    bit (FbaAlloc.allocLoop pages start first (turns + 1) 0 bitmap).2 start = true := by
  rw [FbaAlloc.allocLoop]
  have hset : bit (bitmapSet bitmap 0 (start + 0)) start = true := by simp
  cases FbaAlloc.doAlloc (first + BitVec.ofNat 64 0 * FbaAlloc.vmPageSize) (pages 0) with
  | none => exact hset
  | some _ => exact allocLoop_keeps hset

theorem toNat_pos (h : count ≠ 0) : 0 < count.toNat :=
  Nat.pos_of_ne_zero fun hzero => h (BitVec.eq_of_toNat_eq hzero)

theorem findUnsetRun_none_iff (sized : Sized fba) (hcount : count ≠ 0)
    (power : ¬ (align = 0 ∨ align > 64 ∨ align &&& (align - 1) ≠ 0)) :
    findUnsetRun fba.bitmap fba.bitmapSizeQuads.toNat align count.toNat =
        fba.bitmapSizeBits.toNat ↔
      ∀ start, ¬ ClearFrom fba.bitmap align.toNat count.toNat fba.bitmapSizeBits.toNat start := by
  obtain ⟨k, hk, hpow⟩ := align_pow align power
  have hpos := toNat_pos hcount
  have hsize : fba.bitmapSizeQuads.toNat * 64 = fba.bitmapSizeBits.toNat := by
    rw [sized.quads, sized.bits]
  have hanswer := @findUnsetRun_isLeast fba.bitmap fba.bitmapSizeQuads.toNat count.toNat align k
    (by omega) hpow hpos
  rw [hsize] at hanswer
  rcases hanswer with hleast | ⟨hnone, hend⟩
  · have hrun : ClearFrom _ _ _ _ _ := hleast.1
    constructor
    · intro hend
      have hinside := hrun.2.1
      omega
    · intro hnone
      exact absurd hrun (hnone _)
  · exact ⟨fun _ => hnone, fun _ => hend⟩

theorem allocBlocksAligned_refused (sized : Sized k.fba)
    (refused : Refused k.fba (.blocksAligned count align)) :
    fbaAllocBlocksAligned k count align = (none, k) := by
  rw [fbaAllocBlocksAligned]
  split_ifs with hcount hpower
  · rfl
  · rfl
  · have hnone := (refused.resolve_left hcount).resolve_left hpower
    simp only [if_pos ((findUnsetRun_none_iff sized hcount hpower).mpr hnone)]

theorem allocBlocksAligned_marks (sized : Sized fba)
    (h : ¬ Refused fba (.blocksAligned count align)) (pages : Nat → BitVec 64) :
    Marks fba (FbaAlloc.fbaAllocBlocksAligned fba count align pages).2 := by
  simp only [Refused, not_or] at h
  obtain ⟨hcount, hpower, hroom⟩ := h
  have hpower' : ¬ (align = 0 ∨ align > 64 ∨ align &&& (align - 1) ≠ 0) := by
    simpa only [not_or] using hpower
  have hfound := mt (findUnsetRun_none_iff sized hcount hpower').mp hroom
  have hsize : fba.bitmapSizeQuads.toNat * 64 = fba.bitmapSizeBits.toNat := by
    rw [sized.quads, sized.bits]
  obtain ⟨-, hend, hclear⟩ := findUnsetRun_spec hpower' (toNat_pos hcount)
    (fun heq => hfound (heq.trans hsize))
  obtain ⟨turns, hturns⟩ := Nat.exists_eq_add_one.mpr (toNat_pos hcount)
  have hfirst := hclear 0 (toNat_pos hcount)
  simp only [FbaAlloc.fbaAllocBlocksAligned, if_neg hcount, if_neg hpower', if_neg hfound]
  refine ⟨_, by omega, hfirst, ?_⟩
  rw [hturns]
  exact allocLoop_marks

/-- With every block in use no word has a clear bit. -/
theorem no_word_of_full (sized : Sized fba)
    (full : ∀ i < fba.bitmapSizeBits.toNat, bit fba.bitmap i = true) :
    (List.range fba.bitmapSizeQuads.toNat).find? (fba.bitmap · ≠ 0xffffffffffffffff) = none := by
  apply List.find?_eq_none.mpr
  intro word hword
  have hlt := List.mem_range.mp hword
  have hones : fba.bitmap word = BitVec.allOnes 64 := by
    apply Masks.eq_allOnes_iff.mpr
    intro i hi
    rw [← bit_of_word hi]
    apply full
    rw [sized.bits, ← sized.quads]
    omega
  rw [hones]
  decide

theorem allocBlock_refused (sized : Sized k.fba) (refused : Refused k.fba .block) :
    fbaAllocBlock k = (none, k) := by
  rw [fbaAllocBlock, no_word_of_full sized refused]

theorem allocBlock_marks (sized : Sized fba) (h : ¬ Refused fba .block) (page : BitVec 64) :
    Marks fba (FbaAlloc.fbaAllocBlock fba page).2 := by
  simp only [Refused, not_forall] at h
  obtain ⟨i, hi, hclear⟩ := h
  rw [FbaAlloc.fbaAllocBlock]
  cases hspace : (List.range fba.bitmapSizeQuads.toNat).find?
      (fba.bitmap · ≠ 0xffffffffffffffff) with
  | none =>
    rw [sized.bits, ← sized.quads] at hi
    have hword := List.find?_eq_none.mp hspace (i / 64) (List.mem_range.mpr (by omega))
    have hfull : fba.bitmap (i / 64) = BitVec.allOnes 64 := by simpa using hword
    rw [bit, hfull, BitVec.getLsbD_allOnes] at hclear
    exact absurd (decide_eq_true (Nat.mod_lt i (by decide))) hclear
  | some bmp =>
    have hbmp : bmp < fba.bitmapSizeQuads.toNat :=
      List.mem_range.mp (List.mem_of_find?_eq_some hspace)
    have hword : fba.bitmap bmp ≠ 0xffffffffffffffff := by simpa using List.find?_some hspace
    obtain ⟨hlt, hfree⟩ := firstSetBit64_spec hword
    rw [← bit_of_word hlt] at hfree
    refine ⟨_, ?_, hfree, by simp⟩
    rw [sized.bits, ← sized.quads]
    omega

theorem exec_refused (sized : Sized k.fba) {request : Request} (h : Refused k.fba request) :
    request.exec k = (none, k) := by
  cases request with
  | block => exact allocBlock_refused sized h
  | blocks count => exact allocBlocksAligned_refused sized (h.imp_right Or.inr)
  | blocksAligned count align => exact allocBlocksAligned_refused sized h

theorem exec_marks (sized : Sized k.fba) {request : Request} (h : ¬ Refused k.fba request) :
    Marks k.fba (request.exec k).2.fba := by
  have haligned : ∀ count align, ¬ Refused k.fba (.blocksAligned count align) →
      Marks k.fba (fbaAllocBlocksAligned k count align).2.fba := by
    intro count align hroom
    obtain ⟨pages, hpages⟩ := allocBlocksAligned_refines k count align
    have hmarks := allocBlocksAligned_marks sized hroom pages
    rwa [hpages] at hmarks
  cases request with
  | block =>
    have hmarks := allocBlock_marks sized h (pageAlloc k.machine.region).1
    rwa [allocBlock_refines] at hmarks
  | blocks count =>
    apply haligned
    rintro (hzero | hpower | hnone)
    · exact h (Or.inl hzero)
    · exact absurd hpower (by decide)
    · exact h (Or.inr hnone)
  | blocksAligned count align => exact haligned count align h

end Failing

/-- A request that ends with a null pointer leaves everything as it was exactly when it never got
as far as its first page. -/
theorem null_leaves_untouched_iff (k : Kernel) (sized : Sized k.fba) (request : Request)
    (_null : (request.exec k).1 = none) :
    Untouched k (request.exec k).2 ↔ Refused k.fba request := by
  constructor
  · intro huntouched
    by_contra hroom
    exact huntouched.not_marks (exec_marks sized hroom)
  · intro hrefused
    rw [exec_refused sized hrefused]
    exact Untouched.refl k

/-- An allocator of `2 ^ 15` blocks when no physical page is free. -/
def withoutPages (bitmap : Bitmap) : Kernel where
  fba := ⟨0x8000000, 0x8000, 1, 512, 0x8000, bitmap⟩
  machine := ⟨fun _ _ => 0, ⟨0, 0, []⟩⟩
  pml4 := 0x1000

theorem withoutPages_sized (bitmap : Bitmap) : Sized (withoutPages bitmap).fba := by
  constructor <;> simp [withoutPages]

/-- Every block is in use. -/
theorem null_leaves_untouched_full :
    Untouched (withoutPages fun _ => 0xffffffffffffffff)
      (Request.block.exec (withoutPages fun _ => 0xffffffffffffffff)).2 := by
  have hsized := withoutPages_sized fun _ => 0xffffffffffffffff
  have hrefused : Refused (withoutPages fun _ => 0xffffffffffffffff).fba .block := by
    intro i _
    have hones : (0xffffffffffffffff : BitVec 64) = BitVec.allOnes 64 := by decide
    exact Masks.eq_allOnes_iff.mp hones (i % 64) (Nat.mod_lt i (by decide))
  apply (null_leaves_untouched_iff _ hsized .block _).mpr hrefused
  rw [exec_refused hsized hrefused]

/-- A block is marked, there is no page for it, and its mark stays. -/
theorem null_leaves_block_marked : ∃ k : Kernel, Sized k.fba ∧
    (Request.block.exec k).1 = none ∧ ¬ Untouched k (Request.block.exec k).2 := by
  have hsized := withoutPages_sized fun word => if word = 0 then 1 else 0
  refine ⟨withoutPages fun word => if word = 0 then 1 else 0, hsized, by decide +kernel,
    fun huntouched => ?_⟩
  apply huntouched.not_marks
  apply exec_marks hsized
  intro hrefused
  exact absurd (hrefused 1 (by decide)) (by decide)

/-! ## A single block -/

/-- The address of a block. -/
def blockAddress (fba : Fba) (i : Nat) : BitVec 64 :=
  fba.fbaBegin + BitVec.ofNat 64 i * FbaAlloc.vmPageSize

/-- The end of the range is an address, so that `fba_free` can tell what lies inside it. -/
def EndsBelow (fba : Fba) : Prop :=
  fba.fbaBegin.toNat + fba.fbaSizeBlocks.toNat * 0x1000 < 2 ^ 64

/-- The first block that is not in use. -/
def FirstClear (fba : Fba) (first : Nat) : Prop :=
  first < fba.bitmapSizeBits.toNat ∧ bit fba.bitmap first = false ∧
    ∀ i < first, bit fba.bitmap i = true

/-- The position of a bit, counted from its own word or from the first one. -/
theorem bitmapSet_flat (bitmap : Bitmap) (bmp i : Nat) :
    bitmapSet bitmap bmp i = bitmapSet bitmap 0 (bmp * 64 + i) := by
  obtain ⟨hword, hoffset⟩ := split_bit bmp i
  obtain ⟨hword', hoffset'⟩ := split_bit 0 (bmp * 64 + i)
  rw [Nat.zero_mul, Nat.zero_add] at hword' hoffset'
  rw [bitmapSet, bitmapSet, ← hword, ← hoffset, ← hword', ← hoffset']

theorem FirstClear.unique {fba : Fba} {i j : Nat} (hi : FirstClear fba i)
    (hj : FirstClear fba j) : i = j := by
  obtain ⟨-, hclear, hbefore⟩ := hi
  obtain ⟨-, hclear', hbefore'⟩ := hj
  rcases Nat.lt_trichotomy i j with hlt | heq | hlt
  · exact absurd ((hbefore' i hlt).symm.trans hclear) (by decide)
  · exact heq
  · exact absurd ((hbefore j hlt).symm.trans hclear') (by decide)

theorem exists_firstClear {fba : Fba} {i : Nat} (inside : i < fba.bitmapSizeBits.toNat)
    (clear : bit fba.bitmap i = false) : ∃ first, FirstClear fba first := by
  have hsome : ∃ i, i < fba.bitmapSizeBits.toNat ∧ bit fba.bitmap i = false := ⟨i, inside, clear⟩
  obtain ⟨hlt, hclear⟩ := Nat.find_spec hsome
  refine ⟨Nat.find hsome, hlt, hclear, fun j hj => ?_⟩
  have hnot := Nat.find_min hsome hj
  rw [← Bool.not_eq_false]
  exact fun hfalse => hnot ⟨Nat.lt_trans hj hlt, hfalse⟩

theorem firstSetBit64_least {x : BitVec 64} {j : Nat} (h : x ≠ 0xffffffffffffffff)
    (below : j < firstSetBit64 (~~~x)) : x.getLsbD j = true := by
  have hones : (0xffffffffffffffff : BitVec 64) = BitVec.allOnes 64 := by decide
  rw [hones] at h
  obtain ⟨n, hfind, hn, -⟩ := Masks.find_clear h
  rw [firstSetBit64, hfind, Option.getD_some] at below
  have hnot := (List.find?_range_eq_some.mp hfind).2.2 j below
  simpa [Nat.lt_trans below hn] using hnot

/-- `fba_alloc_block` without a free block. -/
theorem allocBlock_full {fba : Fba} (sized : Sized fba) (page : BitVec 64)
    (full : ∀ i < fba.bitmapSizeBits.toNat, bit fba.bitmap i = true) :
    FbaAlloc.fbaAllocBlock fba page = (none, fba) := by
  rw [FbaAlloc.fbaAllocBlock, no_word_of_full sized full]

/-- `fba_alloc_block` takes the first free block. -/
theorem allocBlock_first {fba : Fba} {first : Nat} (sized : Sized fba) (page : BitVec 64)
    (hfirst : FirstClear fba first) :
    FbaAlloc.fbaAllocBlock fba page = (FbaAlloc.doAlloc (blockAddress fba first) page,
      { fba with bitmap := bitmapSet fba.bitmap 0 first }) := by
  cases hspace : (List.range fba.bitmapSizeQuads.toNat).find?
      (fba.bitmap · ≠ 0xffffffffffffffff) with
  | none =>
    have hlt := hfirst.1
    rw [sized.bits, ← sized.quads] at hlt
    have hword := List.find?_eq_none.mp hspace (first / 64) (List.mem_range.mpr (by omega))
    have hones : fba.bitmap (first / 64) = BitVec.allOnes 64 := by simpa using hword
    have hclear := hfirst.2.1
    rw [bit, hones, BitVec.getLsbD_allOnes] at hclear
    have hoffset : first % 64 < 64 := Nat.mod_lt first (by decide)
    exact absurd hoffset (of_decide_eq_false hclear)
  | some bmp =>
    obtain ⟨hspare, hbmp, hbefore⟩ := List.find?_range_eq_some.mp hspace
    have hword : fba.bitmap bmp ≠ 0xffffffffffffffff := by simpa using hspare
    obtain ⟨hlt, hclear⟩ := firstSetBit64_spec hword
    have hfound : FirstClear fba (bmp * 64 + firstSetBit64 (~~~fba.bitmap bmp)) := by
      refine ⟨?_, (bit_of_word hlt).trans hclear, fun i hi => ?_⟩
      · have hquads := List.mem_range.mp hbmp
        rw [sized.bits, ← sized.quads]
        omega
      · by_cases hsame : i / 64 = bmp
        · rw [bit, hsame]
          exact firstSetBit64_least hword (by omega)
        · have hones : fba.bitmap (i / 64) = BitVec.allOnes 64 := by
            simpa using hbefore (i / 64) (by omega)
          rw [bit, hones, BitVec.getLsbD_allOnes]
          exact decide_eq_true (Nat.mod_lt i (by decide))
    rw [FbaAlloc.fbaAllocBlock, hspace]
    simp only [← hfound.unique hfirst, bitmapSet_flat fba.bitmap bmp, blockAddress]

def Kernel.mark (k : Kernel) (i : Nat) : Kernel :=
  { k with fba := { k.fba with bitmap := bitmapSet k.fba.bitmap 0 i } }

/-- Each block of a successful request was clear and is in use now. -/
theorem fbaAllocBlocksAligned_gives {k : Kernel} (sized : Sized k.fba) (count : BitVec 32)
    (align : BitVec 8) : Gives k.fba count.toNat align.toNat
      ((fbaAllocBlocksAligned k count align).1, (fbaAllocBlocksAligned k count align).2.fba) := by
  obtain ⟨pages, hpages⟩ := allocBlocksAligned_refines k count align
  rw [← hpages]
  exact allocBlocksAligned_gives sized count align

/-- The blocks of a successful request are all that changes in the bitmap. -/
theorem fbaAllocBlocks_takes {k k' : Kernel} {count : BitVec 32} {a : BitVec 64}
    (sized : Sized k.fba) (answer : fbaAllocBlocks k count = (some a, k')) :
    k'.fba = { k.fba with bitmap := k'.fba.bitmap } ∧
      ∃ first, a = blockAddress k.fba first ∧ 0 < count.toNat ∧
        first + count.toNat ≤ k.fba.fbaSizeBlocks.toNat ∧
        (∀ i < count.toNat, bit k.fba.bitmap (first + i) = false) ∧
        ∀ i, bit k'.fba.bitmap i =
          (bit k.fba.bitmap i || decide (first ≤ i ∧ i < first + count.toNat)) := by
  have hgives := fbaAllocBlocksAligned_gives sized count 1
  obtain ⟨pages, hpages⟩ := allocBlocksAligned_refines k count 1
  rw [fbaAllocBlocks] at answer
  rw [answer] at hgives hpages
  have htakes := @allocBlocksAligned_takes k.fba pages count 1 a sized (by rw [hpages])
  rw [hpages] at htakes
  exact ⟨hgives.frame, htakes⟩

section Single

variable {k : Kernel} {first i : Nat}

theorem Sized.toNat_end (sized : Sized k.fba) (ends : EndsBelow k.fba) :
    (k.fba.fbaBegin + k.fba.fbaSizeBlocks * FbaAlloc.vmPageSize).toNat =
      k.fba.fbaBegin.toNat + k.fba.fbaSizeBlocks.toNat * 0x1000 := by
  have hfits := sized.fits
  rw [EndsBelow] at ends
  rw [BitVec.toNat_add, BitVec.toNat_mul, FbaAlloc.vmPageSize]
  simp only [BitVec.ofNat_eq_ofNat, BitVec.toNat_ofNat]
  omega

/-- The end of a range up to the last address is zero, and every block seems to lie behind it. -/
theorem fbaFree_wrapped (sized : Sized k.fba) (wraps : ¬ EndsBelow k.fba) (block : BitVec 64) :
    fbaFree k block = k := by
  have hend : k.fba.fbaBegin + k.fba.fbaSizeBlocks * FbaAlloc.vmPageSize = 0 := by
    have hfits := sized.fits
    rw [EndsBelow] at wraps
    apply BitVec.eq_of_toNat_eq
    rw [BitVec.toNat_add, BitVec.toNat_mul, FbaAlloc.vmPageSize]
    simp only [BitVec.ofNat_eq_ofNat, BitVec.toNat_ofNat]
    omega
  have hout : block ≥ k.fba.fbaBegin + k.fba.fbaSizeBlocks * FbaAlloc.vmPageSize := by
    rw [hend]
    exact BitVec.le_def.mpr (Nat.zero_le _)
  rw [fbaFree]
  split_ifs with hnull hrange
  · rfl
  · rfl
  · exact absurd (Or.inr hout) hrange

/-- Freeing a block in use clears its bit and unmaps its page. -/
theorem fbaFree_marked (sized : Sized k.fba) (ends : EndsBelow k.fba)
    (inside : first < k.fba.fbaSizeBlocks.toNat) (behind : first ≠ 0)
    (inUse : bit k.fba.bitmap first = true) :
    (fbaFree k (blockAddress k.fba first)).fba = { k.fba with
        bitmap := bitmapClear k.fba.bitmap (first / 64) (first % 64) } ∧
      (fbaFree k (blockAddress k.fba first)).pml4 = k.pml4 ∧
      (fbaFree k (blockAddress k.fba first)).machine.mem =
        (vmmUnmapPageIn k.machine k.pml4 (blockAddress k.fba first)).2.mem := by
  have haddress := sized.toNat_address inside
  have hend := Sized.toNat_end sized ends
  have hindex : ((blockAddress k.fba first - k.fba.fbaBegin) / FbaAlloc.vmPageSize).toNat =
      first := by
    rw [blockAddress, BitVec.add_comm, BitVec.add_sub_cancel, BitVec.toNat_udiv,
      sized.toNat_offset inside]
    exact Nat.mul_div_cancel first (by decide)
  have hnonnull : blockAddress k.fba first ≠ 0 := by
    intro hzero
    have hnat := congrArg BitVec.toNat hzero
    rw [blockAddress, haddress] at hnat
    simp only [BitVec.ofNat_eq_ofNat, BitVec.toNat_ofNat, Nat.zero_mod] at hnat
    omega
  have hrange : ¬ (blockAddress k.fba first < k.fba.fbaBegin ∨
      blockAddress k.fba first ≥
        k.fba.fbaBegin + k.fba.fbaSizeBlocks * FbaAlloc.vmPageSize) := by
    rw [BitVec.lt_def, ge_iff_le, BitVec.le_def, hend, blockAddress, haddress]
    omega
  have hcheck : bitmapCheck k.fba.bitmap (first / 64) (first % 64) = true := by
    rw [bitmapCheck_eq, Nat.div_add_mod']
    exact inUse
  rw [fbaFree, if_neg hnonnull, if_neg hrange]
  simp only [hindex, if_pos hcheck]
  refine ⟨trivial, trivial, ?_⟩
  split_ifs <;> rfl

/-- A request for one block takes the first that is not in use. -/
theorem fbaAllocBlocks_one (sized : Sized k.fba) (hfirst : FirstClear k.fba first) :
    fbaAllocBlocks k 1 = doAlloc (k.mark first) (blockAddress k.fba first) := by
  obtain ⟨hlt, hclear, hbefore⟩ := hfirst
  have hsize : k.fba.bitmapSizeQuads.toNat * 64 = k.fba.bitmapSizeBits.toNat := by
    rw [sized.quads, sized.bits]
  have hone : (1 : BitVec 32).toNat = 1 := rfl
  have hfound : findUnsetRun k.fba.bitmap k.fba.bitmapSizeQuads.toNat 1 1 = first := by
    have hroom : ClearFrom k.fba.bitmap 1 1 (k.fba.bitmapSizeQuads.toNat * 64) first := by
      refine ⟨Nat.one_dvd _, by omega, fun i hi => ?_⟩
      obtain rfl : i = 0 := by omega
      exact hclear
    rcases @findUnsetRun_isLeast k.fba.bitmap k.fba.bitmapSizeQuads.toNat 1 1 0 (by decide) rfl
      (by decide) with ⟨hrun, hleast⟩ | ⟨hnone, -⟩
    · have hle : _ ≤ first := hleast hroom
      have hbit := hrun.2.2 0 (by decide)
      by_contra hne
      rw [Nat.add_zero, hbefore _ (by omega)] at hbit
      exact absurd hbit (by decide)
    · exact absurd hroom (hnone first)
  have hpower : ¬ ((1 : BitVec 8) = 0 ∨ (1 : BitVec 8) > 64 ∨ (1 : BitVec 8) &&& (1 - 1) ≠ 0) := by
    decide
  have haddress : k.fba.fbaBegin + BitVec.ofNat 64 first * FbaAlloc.vmPageSize +
      BitVec.ofNat 64 0 * FbaAlloc.vmPageSize = blockAddress k.fba first := by
    rw [blockAddress]
    simp
  rw [fbaAllocBlocks, fbaAllocBlocksAligned, if_neg (by decide), if_neg hpower]
  simp only [hone, hfound, if_neg (Nat.ne_of_lt hlt), allocLoop, Nat.add_zero, haddress]
  cases hpage : doAlloc (k.mark first) (blockAddress k.fba first) with
  | mk answer k' =>
    rw [Kernel.mark] at hpage
    rw [hpage]
    cases answer with
    | none => rfl
    | some a =>
      have hanswer := doAlloc_fst (k.mark first) (blockAddress k.fba first)
      rw [Kernel.mark, hpage, FbaAlloc.doAlloc] at hanswer
      split_ifs at hanswer
      obtain rfl := Option.some.inj hanswer
      rfl

/-- A block that is taken and given back is unmapped; nothing else in the range changes. -/
theorem one_block_back (sized : Sized k.fba) (ends : EndsBelow k.fba)
    (hfirst : FirstClear k.fba first) (behind : first ≠ 0)
    (page : pageFailed (pageAlloc k.machine.region).1 = false)
    (tables : WellFormed k.machine k.pml4)
    (straight : Straight k.machine.mem (blockAddress k.fba first) 3 k.pml4) {k' : Kernel}
    (back : k' = fbaFree (fbaAllocBlocks k 1).2 (blockAddress k.fba first)) :
    (fbaAllocBlocks k 1).1 = some (blockAddress k.fba first) ∧
      (fbaAllocBlocks k 1).2.fba = (k.mark first).fba ∧
      (∀ i, bit k'.fba.bitmap i = bit k.fba.bitmap i) ∧
      ∀ v, Straight k.machine.mem v 3 k.pml4 → vmmVirtToPtEntry k'.machine k'.pml4 v =
        if pageNumber v = pageNumber (blockAddress k.fba first) then 0
        else vmmVirtToPtEntry k.machine k.pml4 v := by
  have hinside : first < k.fba.fbaSizeBlocks.toNat := by
    rw [← sized.bits]
    exact hfirst.1
  let supplied : Machine := { k.machine with region := (pageAlloc k.machine.region).2 }
  obtain ⟨ok, m, hmap⟩ : ∃ ok m, vmmMapPageIn supplied k.pml4 (blockAddress k.fba first)
    (pageAlloc k.machine.region).1 blockFlags = (ok, m) := ⟨_, _, rfl⟩
  have htaken : fbaAllocBlocks k 1 =
      (some (blockAddress k.fba first), { k.mark first with machine := m }) := by
    rw [fbaAllocBlocks_one sized hfirst, doAlloc]
    simp only [Kernel.mark, page, supplied] at hmap ⊢
    simp only [hmap]
    rfl
  obtain ⟨hothers, hwf⟩ := map_keeps_others tables.pageAlloc straight hmap
  obtain ⟨frame, m', hunmap⟩ : ∃ frame m', vmmUnmapPageIn m k.pml4 (blockAddress k.fba first) =
    (frame, m') := ⟨_, _, rfl⟩
  obtain ⟨-, hzero, hothers', -⟩ := unmap_clears_one_page hwf (hothers _ straight).1 hunmap
  obtain ⟨hfba, hpml4, hmem⟩ := @fbaFree_marked { k.mark first with machine := m } first
    (sized.of_frame rfl) ends hinside behind (by simp [Kernel.mark])
  rw [htaken] at back ⊢
  have haddress : blockAddress (k.mark first).fba first = blockAddress k.fba first := rfl
  simp only [haddress] at hfba hpml4 hmem
  rw [← back] at hfba hpml4 hmem
  refine ⟨rfl, rfl, fun i => ?_, fun v hv => ?_⟩
  · rw [hfba, bit_bitmapClear, Nat.div_add_mod', Kernel.mark, bit_bitmapSet, Nat.zero_mul,
      Nat.zero_add]
    by_cases hi : i = first
    · simp [hi, hfirst.2.1]
    · simp [hi]
  · have hentry : vmmVirtToPtEntry k'.machine k'.pml4 v = vmmVirtToPtEntry m' k.pml4 v := by
      rw [vmmVirtToPtEntry_eq_leaf, vmmVirtToPtEntry_eq_leaf, hmem, hpml4]
      exact congrArg (fun r : BitVec 64 × Machine => leaf r.2.mem v 3 k.pml4) hunmap
    rw [hentry]
    split_ifs with hpage
    · exact (entry_eq_of_pageNumber hpage m' k.pml4).trans hzero
    · rw [(hothers' v (hothers v hv).1).2 hpage, (hothers v hv).2 hpage]
      rfl

end Single

end FbaPages
