import AnosKernel.FbaPages
import AnosKernel.StdRoutines

/-!
# Shift-to-middle arrays

`kernel/structs/shift_array.c`: an array with room at both ends, on blocks of the block allocator.
`fba_calloc_blocks` asks for the blocks one at a time and uses them as one piece of memory; when a
block cannot be had, it frees as many from the first one on as it was given.
-/

namespace ShiftArray

open Bytes FbaAlloc
open FbaPages hiding fbaAllocBlock fbaFree doAlloc

/-- The block allocator and the memory. -/
structure Store where
  fba : Fba
  mem : Memory

/-- `memset` of a block to zero. -/
def zeroBlock (mem : Memory) (block : BitVec 64) : Memory :=
  writeBytes mem block (List.replicate 4096 0)

/-- `fba_free` of so many blocks from an address on. -/
def freeBlocks (base : BitVec 64) (count : Nat) (fba : Fba) : Fba :=
  (List.range count).foldl (fun fba j => fbaFree fba (base + BitVec.ofNat 64 j * vmPageSize)) fba

/-- The loop of `fba_calloc_blocks` from block `i` on; `pages` are the answers of `page_alloc`. -/
def callocLoop (base : BitVec 64) (pages : Nat → BitVec 64) : Nat → Nat → Store → Bool × Store
  | 0, _, s => (true, s)
  | turns + 1, i, s =>
    match fbaAllocBlock s.fba (pages i) with
    | (none, fba) => (false, { s with fba := freeBlocks base i fba })
    | (some next, fba) =>
      callocLoop base pages turns (i + 1) { fba := fba, mem := zeroBlock s.mem next }

def fbaCallocBlocks (s : Store) (bytes : BitVec 64) (pages : Nat → BitVec 64) :
    Option (BitVec 64) × Store :=
  let numBlocks := (bytes + vmPageSize - 1) / vmPageSize
  match fbaAllocBlock s.fba (pages 0) with
  | (none, fba) => (none, { s with fba := fba })
  | (some base, fba) =>
    let (complete, s) := callocLoop base pages (numBlocks.toNat - 1) 1
      { fba := fba, mem := zeroBlock s.mem base }
    (if complete then some base else none, s)

/-! ## Giving blocks back -/

section Freeing

variable {fba : Fba} {first i count : Nat} {base block : BitVec 64}

theorem freeBlocks_succ (base : BitVec 64) (count : Nat) (fba : Fba) :
    freeBlocks base (count + 1) fba =
      fbaFree (freeBlocks base count fba) (base + BitVec.ofNat 64 count * vmPageSize) := by
  rw [freeBlocks, List.range_succ, List.foldl_append]
  rfl

theorem freeBlocks_frame (base : BitVec 64) (count : Nat) (fba : Fba) :
    freeBlocks base count fba =
      { fba with bitmap := (freeBlocks base count fba).bitmap } := by
  induction count with
  | zero => rfl
  | succ count ih =>
    rw [freeBlocks_succ, fbaFree_frame, ih]

/-- Freeing sets no bit. -/
theorem bit_of_bit_fbaFree (h : bit (fbaFree fba block).bitmap i = true) :
    bit fba.bitmap i = true := by
  rcases fbaFree_cases fba block with heq | ⟨index, -, heq⟩
  · rwa [heq] at h
  · rw [heq, bit_bitmapClear, Bool.and_eq_true] at h
    exact h.1

/-- Freeing a block of the range clears its bit and no other. -/
theorem bit_fbaFree (sized : Sized fba) (ends : EndsBelow fba)
    (inside : first < fba.fbaSizeBlocks.toNat) (behind : first ≠ 0) :
    bit (fbaFree fba (blockAddress fba first)).bitmap i =
      (bit fba.bitmap i && !decide (i = first)) := by
  by_cases hi : i = first
  · subst hi
    have hclear : bit (fbaFree fba (blockAddress fba i)).bitmap i = false := by
      by_cases hset : bit fba.bitmap i = true
      · let k : FbaPages.Kernel := ⟨fba, ⟨fun _ _ => 0, ⟨0, 0, []⟩⟩, 0⟩
        have hmarked := (@fbaFree_marked k i sized ends inside behind hset).1
        rw [fbaFree_refines] at hmarked
        rw [hmarked, bit_bitmapClear, Nat.div_add_mod']
        simp
      · rw [← Bool.not_eq_true]
        exact mt bit_of_bit_fbaFree hset
    rw [hclear]
    simp
  · have hothers := fbaFree_others sized inside hi
    rw [blockAddress, hothers]
    simp [hi]

theorem freeBlocks_wrapped (sized : Sized fba) (wraps : ¬ EndsBelow fba) :
    freeBlocks base count fba = fba := by
  induction count with
  | zero => rfl
  | succ count ih =>
    let k : FbaPages.Kernel := ⟨fba, ⟨fun _ _ => 0, ⟨0, 0, []⟩⟩, 0⟩
    have hfree := congrArg FbaPages.Kernel.fba
      (@fbaFree_wrapped k sized wraps (base + BitVec.ofNat 64 count * vmPageSize))
    rw [fbaFree_refines] at hfree
    rw [freeBlocks_succ, ih]
    exact hfree

theorem blockAddress_add (fba : Fba) (first i : Nat) :
    blockAddress fba first + BitVec.ofNat 64 i * vmPageSize = blockAddress fba (first + i) := by
  rw [blockAddress, blockAddress, BitVec.ofNat_add, BitVec.add_mul, BitVec.add_assoc]

/-- A run of blocks of the range is freed. -/
theorem bit_freeBlocks (sized : Sized fba) (ends : EndsBelow fba) (behind : first ≠ 0)
    (inside : first + count ≤ fba.fbaSizeBlocks.toNat) :
    bit (freeBlocks (blockAddress fba first) count fba).bitmap i =
      (bit fba.bitmap i && !decide (first ≤ i ∧ i < first + count)) := by
  induction count with
  | zero =>
    have hnone : ¬ (first ≤ i ∧ i < first + 0) := by omega
    rw [decide_eq_false hnone, Bool.not_false, Bool.and_true]
    rfl
  | succ count ih =>
    have hframe := freeBlocks_frame (blockAddress fba first) count fba
    have hsized := sized.of_frame hframe
    have haddress : blockAddress fba (first + count) =
        blockAddress (freeBlocks (blockAddress fba first) count fba) (first + count) := by
      rw [hframe]
      rfl
    have hends : EndsBelow (freeBlocks (blockAddress fba first) count fba) := by
      rw [hframe]
      exact ends
    have hinside : first + count <
        (freeBlocks (blockAddress fba first) count fba).fbaSizeBlocks.toNat := by
      rw [hframe]
      exact inside
    rw [freeBlocks_succ, blockAddress_add, haddress,
      bit_fbaFree hsized hends hinside (by omega), ih (by omega)]
    rw [Bool.and_assoc]
    congr 1
    rw [← Bool.not_or, ← Bool.decide_or]
    congr 1
    apply decide_eq_decide.mpr
    omega

/-- However many blocks are freed, those of the range are among them. -/
theorem bit_freeBlocks_gap (sized : Sized fba) (ends : EndsBelow fba) (behind : first ≠ 0)
    {j : Nat} (passed : j < count) (inside : first + j < fba.fbaSizeBlocks.toNat) :
    bit (freeBlocks (blockAddress fba first) count fba).bitmap (first + j) = false := by
  obtain ⟨more, rfl⟩ := Nat.exists_eq_add_of_le (Nat.succ_le_of_lt passed)
  clear passed
  induction more with
  | zero =>
    rw [Nat.add_zero, bit_freeBlocks sized ends behind (by omega)]
    simp
  | succ more ih =>
    rw [← Nat.add_assoc, freeBlocks_succ, ← Bool.not_eq_true]
    exact mt bit_of_bit_fbaFree (by simp [ih])

end Freeing

/-! ## What the blocks are -/

/-- An initialised allocator: the blocks of its bitmap are in use. -/
structure Initialised (fba : Fba) : Prop where
  sized : Sized fba
  own : ∀ i < fba.bitmapSizeBlocks.toNat, bit fba.bitmap i = true

/-- `⌈bytes / 4096⌉`. -/
def blocksFor (bytes : BitVec 64) : Nat := (bytes.toNat + 4095) / 4096

/-- The blocks from the answer on, as many as the bytes need, were free and are in use now; a null
pointer leaves the bitmap as it was. -/
structure GivesArray (fba : Fba) (bytes : BitVec 64) (answer : Option (BitVec 64)) (fba' : Fba) :
    Prop where
  given : ∀ base, answer = some base → ∃ first, base = blockAddress fba first ∧
    ∀ j < blocksFor bytes, first + j < fba.fbaSizeBlocks.toNat ∧
      bit fba.bitmap (first + j) = false ∧ bit fba'.bitmap (first + j) = true
  refused : answer = none →
    ∀ i < fba.fbaSizeBlocks.toNat, bit fba'.bitmap i = bit fba.bitmap i

/-- The first `r` free blocks are adjacent. They are as many as are needed, or they are all free
blocks there are and `fba_free` can tell that they lie in the range. -/
structure AdjacentFree (fba : Fba) (needed first r : Nat) : Prop where
  lowest : FirstClear fba first
  clear : ∀ j < r, first + j < fba.fbaSizeBlocks.toNat ∧ bit fba.bitmap (first + j) = false
  enough : r = needed ∨ r < needed ∧ EndsBelow fba ∧
    ∀ i, first + r ≤ i → i < fba.fbaSizeBlocks.toNat → bit fba.bitmap i = true

section Calloc

variable {fba : Fba} {s s' : Store} {pages : Nat → BitVec 64} {base : BitVec 64}
  {first turns i n : Nat}

/-- Bits that are set stay set, up to the blocks that are freed at a failure. -/
theorem callocLoop_keeps (sized : Sized s.fba) {complete : Bool}
    (run : callocLoop base pages turns i s = (complete, s')) :
    ∃ fba freed, i ≤ freed ∧ fba = { s.fba with bitmap := fba.bitmap } ∧
      (∀ j, bit s.fba.bitmap j = true → bit fba.bitmap j = true) ∧
      s'.fba = if complete then fba else freeBlocks base freed fba := by
  induction turns generalizing i s with
  | zero =>
    simp only [callocLoop, Prod.mk.injEq] at run
    obtain ⟨rfl, rfl⟩ := run
    exact ⟨s.fba, i, Nat.le_refl i, rfl, fun _ h => h, rfl⟩
  | succ turns ih =>
    have hgives := allocBlock_gives sized (pages i)
    rw [callocLoop] at run
    cases hask : fbaAllocBlock s.fba (pages i) with
    | mk answer fba =>
      rw [hask] at hgives
      simp only [hask] at run
      cases answer with
      | none =>
        simp only [Prod.mk.injEq] at run
        obtain ⟨rfl, rfl⟩ := run
        exact ⟨fba, i, Nat.le_refl i, hgives.frame, hgives.keeps, rfl⟩
      | some next =>
        have hframe : fba = { s.fba with bitmap := fba.bitmap } := hgives.frame
        obtain ⟨fba', freed, hfreed, hframe', hkeeps, hend⟩ := ih (sized.of_frame hframe) run
        refine ⟨fba', freed, by omega, ?_, fun j hj => hkeeps j (hgives.keeps j hj), hend⟩
        rw [hframe', hframe]

/-- The loop has taken the blocks from the first free one on, `i` of them. -/
structure Taken (fba : Fba) (first i : Nat) (s : Store) : Prop where
  frame : s.fba = { fba with bitmap := s.fba.bitmap }
  bits : ∀ j, bit s.fba.bitmap j = (bit fba.bitmap j || decide (first ≤ j ∧ j < first + i))
  clear : ∀ j < i, first + j < fba.fbaSizeBlocks.toNat ∧ bit fba.bitmap (first + j) = false

theorem Taken.next (h : Taken fba first i s) (inside : first + i < fba.fbaSizeBlocks.toNat)
    (clear : bit fba.bitmap (first + i) = false) (mem : Memory) :
    Taken fba first (i + 1)
      ⟨{ s.fba with bitmap := bitmapSet s.fba.bitmap 0 (first + i) }, mem⟩ := by
  refine ⟨?_, fun j => ?_, fun j hj => ?_⟩
  · rw [h.frame]
  · simp only [bit_bitmapSet, Nat.zero_mul, Nat.zero_add, h.bits, Bool.or_assoc]
    congr 1
    rw [← Bool.decide_or]
    apply decide_eq_decide.mpr
    omega
  · by_cases hlast : j = i
    · subst hlast
      exact ⟨inside, clear⟩
    · exact h.clear j (by omega)

/-- How the blocks of an array come out. -/
structure Outcome (fba : Fba) (first n : Nat) (outcome : Bool × Store) : Prop where
  given : outcome.1 = true → ∀ j < n, first + j < fba.fbaSizeBlocks.toNat ∧
    bit fba.bitmap (first + j) = false ∧ bit outcome.2.fba.bitmap (first + j) = true
  refused : outcome.1 = false →
    ∀ j < fba.fbaSizeBlocks.toNat, bit outcome.2.fba.bitmap j = bit fba.bitmap j

/-- No block is left: those taken are freed, which works unless the range ends at the end of all
addresses. -/
theorem Taken.exhausted (h : Taken fba first i s) (sized : Sized fba) (behind : first ≠ 0)
    (pos : 0 < i) : Outcome fba first n
      (false, { s with fba := freeBlocks (blockAddress fba first) i s.fba }) ↔ EndsBelow fba := by
  have hsized : Sized s.fba := sized.of_frame h.frame
  have hlast := (h.clear (i - 1) (by omega)).1
  have haddress : blockAddress fba first = blockAddress s.fba first := by
    rw [h.frame]
    rfl
  constructor
  · intro houtcome
    by_contra hwraps
    have hwraps' : ¬ EndsBelow s.fba := by
      rw [h.frame]
      exact hwraps
    obtain ⟨hinside, hclear⟩ := h.clear 0 pos
    have hback := houtcome.refused rfl (first + 0) hinside
    simp only [freeBlocks_wrapped hsized hwraps', h.bits, hclear] at hback
    exact absurd hback (by simp [pos])
  · intro hends
    refine ⟨fun hfalse => absurd hfalse Bool.false_ne_true, fun _ j hj => ?_⟩
    have hends' : EndsBelow s.fba := by
      rw [h.frame]
      exact hends
    have hinside : first + i ≤ s.fba.fbaSizeBlocks.toNat := by
      rw [h.frame]
      simp only
      omega
    simp only [haddress, bit_freeBlocks hsized hends' behind hinside, h.bits]
    by_cases hrun : first ≤ j ∧ j < first + i
    · have hclear := (h.clear (j - first) (by omega)).2
      rw [Nat.add_sub_cancel' hrun.1] at hclear
      simp [hclear, hrun]
    · simp [hrun]

/-- A free block that is marked and for which there is no page stays marked. -/
theorem Taken.pageless (h : Taken fba first i s) (sized : Sized fba) (behind : first ≠ 0)
    (pos : 0 < i) {c : Nat} (inside : c < fba.fbaSizeBlocks.toNat) (ge : first + i ≤ c)
    (clear : bit fba.bitmap c = false) : ¬ Outcome fba first n (false, { s with
      fba := freeBlocks (blockAddress fba first) i
        { s.fba with bitmap := bitmapSet s.fba.bitmap 0 c } }) := by
  intro houtcome
  have hback := houtcome.refused rfl c inside
  rw [clear] at hback
  have hsized : Sized { s.fba with bitmap := bitmapSet s.fba.bitmap 0 c } :=
    (sized.of_frame h.frame).of_frame rfl
  have haddress : blockAddress fba first =
      blockAddress { s.fba with bitmap := bitmapSet s.fba.bitmap 0 c } first := by
    rw [h.frame]
    rfl
  by_cases hends : EndsBelow { s.fba with bitmap := bitmapSet s.fba.bitmap 0 c }
  · have hlast := (h.clear (i - 1) (by omega)).1
    have hinside : first + i ≤
        ({ s.fba with bitmap := bitmapSet s.fba.bitmap 0 c } : Fba).fbaSizeBlocks.toNat := by
      rw [h.frame]
      simp only
      omega
    have hnot : ¬ (first ≤ c ∧ c < first + i) := by omega
    simp only [haddress, bit_freeBlocks hsized hends behind hinside, bit_bitmapSet] at hback
    simp [hnot] at hback
  · simp only [freeBlocks_wrapped hsized hends, bit_bitmapSet] at hback
    simp at hback

/-- The loop that goes on behind a gap: the array has a block in it that was in use, and so have
the blocks that are freed at a failure. -/
theorem Taken.gap (h : Taken fba first i s) (sized : Sized fba) (behind : first ≠ 0) (pos : 0 < i)
    {c : Nat} (inside : c < fba.fbaSizeBlocks.toNat) (gt : first + i < c)
    (used : bit fba.bitmap (first + i) = true) (more : i < n) (mem : Memory) :
    ¬ Outcome fba first n (callocLoop (blockAddress fba first) pages turns (i + 1)
      ⟨{ s.fba with bitmap := bitmapSet s.fba.bitmap 0 c }, mem⟩) := by
  intro houtcome
  let marked : Store := ⟨{ s.fba with bitmap := bitmapSet s.fba.bitmap 0 c }, mem⟩
  have hmarked : marked.fba = { fba with bitmap := marked.fba.bitmap } := by
    simp only [marked]
    rw [h.frame]
  cases hrun : callocLoop (blockAddress fba first) pages turns (i + 1) marked with
  | mk complete s' =>
    simp only [marked] at hrun
    rw [hrun] at houtcome
    cases complete with
    | true =>
      have hclear := (houtcome.given rfl i more).2.1
      rw [used] at hclear
      exact absurd hclear (by decide)
    | false =>
      obtain ⟨fba', freed, hfreed, hframe, hkeeps, hend⟩ :=
        @callocLoop_keeps marked _ _ _ _ _ (sized.of_frame hmarked) _ hrun
      rw [hmarked] at hframe
      have hsized : Sized fba' := sized.of_frame (hframe.trans rfl)
      simp only [Bool.false_eq_true, if_false] at hend
      have haddress : blockAddress fba first = blockAddress fba' first := by
        rw [hframe]
        rfl
      by_cases hends : EndsBelow fba'
      · have hinside : first + i < fba'.fbaSizeBlocks.toNat := by
          rw [hframe]
          exact Nat.lt_trans gt inside
        have hback := houtcome.refused rfl (first + i) (by omega)
        rw [hend, haddress, bit_freeBlocks_gap hsized hends behind hfreed hinside, used] at hback
        exact absurd hback (by decide)
      · obtain ⟨hfirst, hclear⟩ := h.clear 0 pos
        have hback := houtcome.refused rfl (first + 0) hfirst
        have hset : bit marked.fba.bitmap (first + 0) = true := by
          simp only [marked, bit_bitmapSet, h.bits]
          simp [pos]
        rw [hend, freeBlocks_wrapped hsized hends, hkeeps _ hset, hclear] at hback
        exact absurd hback (by decide)

/-- The first free block behind the ones taken. -/
theorem Taken.firstClear_ge (h : Taken fba first i s) (hfirst : FirstClear fba first) {c : Nat}
    (hc : FirstClear s.fba c) : first + i ≤ c ∧ bit fba.bitmap c = false := by
  have hclear := hc.2.1
  rw [h.bits, Bool.or_eq_false_iff] at hclear
  have hnot : ¬ (first ≤ c ∧ c < first + i) := of_decide_eq_false hclear.2
  have hle : first ≤ c := by
    by_contra hlt
    have hset := hfirst.2.2 c (by omega)
    rw [hset] at hclear
    exact absurd hclear.1 (by decide)
  exact ⟨by omega, hclear.1⟩

/-- The loop does what an array needs exactly if the free blocks it meets are adjacent and there
are pages for them. -/
theorem callocLoop_iff (sized : Sized fba) (hfirst : FirstClear fba first) (behind : first ≠ 0)
    (pos : 0 < i) (total : i + turns = n) (taken : Taken fba first i s) :
    Outcome fba first n (callocLoop (blockAddress fba first) pages turns i s) ↔
      ∃ r, i ≤ r ∧ AdjacentFree fba n first r ∧
        ∀ j, i ≤ j → j < r → pageFailed (pages j) = false := by
  induction turns generalizing i s with
  | zero =>
    obtain rfl : i = n := total
    refine iff_of_true ⟨fun _ j hj => ?_, fun hfalse => nomatch hfalse⟩
      ⟨i, Nat.le_refl i, ⟨hfirst, taken.clear, Or.inl rfl⟩, fun j hij hji => absurd hij (by omega)⟩
    obtain ⟨hinside, hclear⟩ := taken.clear j hj
    refine ⟨hinside, hclear, ?_⟩
    simp only [callocLoop, taken.bits]
    simp [hj]
  | succ turns ih =>
    have hsized : Sized s.fba := sized.of_frame taken.frame
    have hbits : s.fba.bitmapSizeBits.toNat = fba.fbaSizeBlocks.toNat := by
      rw [hsized.bits, taken.frame]
    -- what a longer run of adjacent free blocks says about the next block
    have hnext : ∀ r, i < r → AdjacentFree fba n first r →
        first + i < fba.fbaSizeBlocks.toNat ∧ bit fba.bitmap (first + i) = false :=
      fun r hr hadjacent => hadjacent.clear i hr
    have hunmarked : bit s.fba.bitmap (first + i) = bit fba.bitmap (first + i) := by
      rw [taken.bits]
      simp
    by_cases hfull : ∀ j < s.fba.bitmapSizeBits.toNat, bit s.fba.bitmap j = true
    · simp only [callocLoop, allocBlock_full hsized (pages i) hfull]
      rw [taken.exhausted sized behind pos]
      constructor
      · intro hends
        refine ⟨i, Nat.le_refl i, ⟨hfirst, taken.clear, Or.inr ⟨by omega, hends, ?_⟩⟩,
          fun j hij hji => absurd hij (by omega)⟩
        intro j hj hinside
        have hset := hfull j (by omega)
        have hnot : ¬ (first ≤ j ∧ j < first + i) := by omega
        rw [taken.bits] at hset
        simpa [hnot] using hset
      · rintro ⟨r, hr, hadjacent, -⟩
        by_cases hri : r = i
        · subst hri
          exact (hadjacent.enough.resolve_left (by omega)).2.1
        · obtain ⟨hinside, hclear⟩ := hnext r (by omega) hadjacent
          have hset := hfull (first + i) (by omega)
          rw [hunmarked, hclear] at hset
          exact absurd hset (by decide)
    · push Not at hfull
      obtain ⟨j, hj, hclear⟩ := hfull
      obtain ⟨c, hc⟩ := exists_firstClear hj (by simpa using hclear)
      obtain ⟨hge, hfree⟩ := taken.firstClear_ge hfirst hc
      have hinside : c < fba.fbaSizeBlocks.toNat := hbits ▸ hc.1
      have hnotlast : ∀ r, r ≤ i → ¬ (r = i ∧ AdjacentFree fba n first r) := by
        rintro r - ⟨rfl, hadjacent⟩
        have hset := (hadjacent.enough.resolve_left (by omega)).2.2 c hge hinside
        rw [hfree] at hset
        exact absurd hset (by decide)
      simp only [callocLoop, allocBlock_first hsized (pages i) hc, doAlloc]
      by_cases hpage : pageFailed (pages i) = true
      · simp only [if_pos hpage]
        refine iff_of_false (taken.pageless sized behind pos hinside hge hfree) ?_
        rintro ⟨r, hr, hadjacent, hpages⟩
        by_cases hri : r = i
        · exact hnotlast r (by omega) ⟨hri, hadjacent⟩
        · have hok := hpages i (Nat.le_refl i) (by omega)
          rw [hpage] at hok
          exact absurd hok (by decide)
      · simp only [if_neg hpage]
        by_cases hadjoins : c = first + i
        · subst hadjoins
          rw [ih (by omega) (by omega) (taken.next hinside hfree _)]
          constructor
          · rintro ⟨r, hr, hadjacent, hpages⟩
            refine ⟨r, by omega, hadjacent, fun j hij hjr => ?_⟩
            by_cases hji : j = i
            · rw [hji]
              simpa using hpage
            · exact hpages j (by omega) hjr
          · rintro ⟨r, hr, hadjacent, hpages⟩
            have hri : i + 1 ≤ r := by
              by_contra hlt
              exact hnotlast r (by omega) ⟨by omega, hadjacent⟩
            exact ⟨r, hri, hadjacent, fun j hij hjr => hpages j (by omega) hjr⟩
        · have hused : bit fba.bitmap (first + i) = true := by
            rw [← hunmarked]
            exact hc.2.2 (first + i) (by omega)
          refine iff_of_false
            (taken.gap sized behind pos hinside (by omega) hused (by omega) _) ?_
          rintro ⟨r, hr, hadjacent, -⟩
          by_cases hri : r = i
          · exact hnotlast r (by omega) ⟨hri, hadjacent⟩
          · have hclear := (hnext r (by omega) hadjacent).2
            rw [hused] at hclear
            exact absurd hclear (by decide)

end Calloc

/-! ## The array that is asked for -/

/-- No block is free; or the bytes do not wrap when they are rounded up to blocks, and there are
adjacent free blocks with a page for each of them. -/
def Serves (fba : Fba) (bytes : BitVec 64) (pages : Nat → BitVec 64) : Prop :=
  (∀ i < fba.fbaSizeBlocks.toNat, bit fba.bitmap i = true) ∨
  bytes.toNat + 4095 < 2 ^ 64 ∧ ∃ first r, 0 < r ∧
    AdjacentFree fba (max 1 (blocksFor bytes)) first r ∧ ∀ j < r, pageFailed (pages j) = false

section Arrays

variable {fba : Fba} {s : Store} {bytes base : BitVec 64} {pages : Nat → BitVec 64}
  {first n : Nat}

theorem toNat_numBlocks (fits : bytes.toNat + 4095 < 2 ^ 64) :
    ((bytes + vmPageSize - 1) / vmPageSize).toNat = blocksFor bytes := by
  have hsum : (bytes + vmPageSize - 1).toNat = bytes.toNat + 4095 := by
    have hpage : vmPageSize - 1 = 4095 := by decide
    have hadd : bytes + vmPageSize - 1 = bytes + 4095 := by
      rw [← hpage, BitVec.sub_eq_add_neg, BitVec.sub_eq_add_neg, BitVec.add_assoc]
    rw [hadd, BitVec.toNat_add]
    exact Nat.mod_eq_of_lt fits
  rw [BitVec.toNat_udiv, hsum]
  rfl

/-- Rounding up wraps to less than one block. -/
theorem numBlocks_wrapped (wraps : ¬ bytes.toNat + 4095 < 2 ^ 64) :
    ((bytes + vmPageSize - 1) / vmPageSize).toNat = 0 ∧ 2 ^ 52 ≤ blocksFor bytes := by
  have hbytes := bytes.isLt
  have hpage : vmPageSize - 1 = 4095 := by decide
  have hadd : bytes + vmPageSize - 1 = bytes + 4095 := by
    rw [← hpage, BitVec.sub_eq_add_neg, BitVec.sub_eq_add_neg, BitVec.add_assoc]
  have hsum : (bytes + vmPageSize - 1).toNat = bytes.toNat + 4095 - 2 ^ 64 := by
    have hlow : (4095 : BitVec 64).toNat = 4095 := rfl
    rw [hadd, BitVec.toNat_add, hlow]
    omega
  have hsize : vmPageSize.toNat = 4096 := rfl
  constructor
  · rw [BitVec.toNat_udiv, hsum, hsize]
    omega
  · rw [blocksFor]
    omega

theorem blockAddress_injective (sized : Sized fba) {i j : Nat}
    (hi : i < fba.fbaSizeBlocks.toNat) (hj : j < fba.fbaSizeBlocks.toNat)
    (same : blockAddress fba i = blockAddress fba j) : i = j := by
  have hnat := congrArg BitVec.toNat same
  rw [blockAddress, blockAddress, sized.toNat_address hi, sized.toNat_address hj] at hnat
  omega

/-- The outcome for the blocks is the one for the array. -/
theorem givesArray_iff (sized : Sized fba) (hfirst : FirstClear fba first)
    (outcome : Bool × Store) (one : blocksFor bytes = 0 → outcome.1 = true ∧
      first < fba.fbaSizeBlocks.toNat ∧ bit outcome.2.fba.bitmap first = true) :
    GivesArray fba bytes (if outcome.1 then some (blockAddress fba first) else none)
      outcome.2.fba ↔ Outcome fba first (max 1 (blocksFor bytes)) outcome := by
  have hinside : first < fba.fbaSizeBlocks.toNat := by
    rw [← sized.bits]
    exact hfirst.1
  constructor
  · rintro ⟨hgiven, hrefused⟩
    refine ⟨fun hcomplete j hj => ?_, fun hfailed => hrefused (by simp [hfailed])⟩
    obtain ⟨first', hbase, hblocks⟩ := hgiven (blockAddress fba first) (by simp [hcomplete])
    by_cases hempty : blocksFor bytes = 0
    · obtain ⟨-, hlt, hset⟩ := one hempty
      obtain rfl : j = 0 := by omega
      exact ⟨hlt, hfirst.2.1, hset⟩
    · have hlt := (hblocks 0 (by omega)).1
      obtain rfl := blockAddress_injective sized hinside (by omega) hbase
      exact hblocks j (by omega)
  · rintro ⟨hgiven, hrefused⟩
    refine ⟨fun base hbase => ?_, fun hnone => ?_⟩
    · split_ifs at hbase with hcomplete
      obtain rfl := Option.some.inj hbase
      exact ⟨first, rfl, fun j hj => hgiven hcomplete j (by omega)⟩
    · split_ifs at hnone with hcomplete
      exact hrefused (by simpa using hcomplete)

/-- `fba_calloc_blocks` keeps to what an array needs exactly if the free blocks are adjacent from
the first one on, as far as it gets. -/
theorem fbaCallocBlocks_iff (init : Initialised s.fba) (bytes : BitVec 64)
    (pages : Nat → BitVec 64) :
    GivesArray s.fba bytes (fbaCallocBlocks s bytes pages).1
      (fbaCallocBlocks s bytes pages).2.fba ↔ Serves s.fba bytes pages := by
  have hsized := init.sized
  by_cases hfull : ∀ i < s.fba.fbaSizeBlocks.toNat, bit s.fba.bitmap i = true
  · have hfull' := hfull
    rw [← hsized.bits] at hfull'
    simp only [fbaCallocBlocks, allocBlock_full hsized (pages 0) hfull']
    exact iff_of_true ⟨fun base hbase => absurd hbase (by simp), fun _ _ _ => rfl⟩ (Or.inl hfull)
  · have hsome := hfull
    push Not at hsome
    obtain ⟨i, hi, hclear⟩ := hsome
    obtain ⟨first, hfirst⟩ := exists_firstClear (hsized.bits ▸ hi) (by simpa using hclear)
    have hinside : first < s.fba.fbaSizeBlocks.toNat := by
      rw [← hsized.bits]
      exact hfirst.1
    have hbehind : first ≠ 0 := by
      rintro rfl
      have hblocks := hsized.blocks
      have hused := init.own 0 (by omega)
      rw [hfirst.2.1] at hused
      exact absurd hused (by decide)
    have hserves : Serves s.fba bytes pages ↔ bytes.toNat + 4095 < 2 ^ 64 ∧ ∃ r, 1 ≤ r ∧
        AdjacentFree s.fba (max 1 (blocksFor bytes)) first r ∧
          ∀ j < r, pageFailed (pages j) = false := by
      rw [Serves, or_iff_right hfull]
      refine and_congr_right fun _ => ?_
      constructor
      · rintro ⟨first', r, hr, hadjacent, hpages⟩
        obtain rfl := hfirst.unique hadjacent.lowest
        exact ⟨r, hr, hadjacent, hpages⟩
      · rintro ⟨r, hr, hadjacent, hpages⟩
        exact ⟨first, r, hr, hadjacent, hpages⟩
    rw [hserves]
    simp only [fbaCallocBlocks, allocBlock_first hsized (pages 0) hfirst, doAlloc]
    by_cases hpage : pageFailed (pages 0) = true
    · -- the first block is marked, and stays marked without a page
      simp only [if_pos hpage]
      refine iff_of_false ?_ ?_
      · rintro ⟨-, hrefused⟩
        have hback := hrefused rfl first hinside
        rw [bit_bitmapSet, hfirst.2.1] at hback
        simp at hback
      · rintro ⟨-, r, hr, -, hpages⟩
        have hok := hpages 0 hr
        rw [hpage] at hok
        exact absurd hok (by decide)
    · simp only [if_neg hpage]
      let taken : Store := ⟨{ s.fba with bitmap := bitmapSet s.fba.bitmap 0 first },
        zeroBlock s.mem (blockAddress s.fba first)⟩
      have hnone : Taken s.fba first 0 s := by
        refine ⟨rfl, fun j => ?_, fun j hj => absurd hj (Nat.not_lt_zero j)⟩
        have hnot : ¬ (first ≤ j ∧ j < first + 0) := by omega
        rw [decide_eq_false hnot, Bool.or_false]
      have htaken : Taken s.fba first 1 taken :=
        hnone.next hinside hfirst.2.1 (zeroBlock s.mem (blockAddress s.fba first))
      by_cases hfits : bytes.toNat + 4095 < 2 ^ 64
      · rw [toNat_numBlocks hfits]
        have hloop := @callocLoop_iff s.fba taken pages first (blocksFor bytes - 1) 1
          (max 1 (blocksFor bytes)) hsized hfirst hbehind Nat.one_pos (by omega) htaken
        rw [givesArray_iff hsized hfirst, hloop]
        · constructor
          · rintro ⟨r, hr, hadjacent, hpages⟩
            refine ⟨hfits, r, hr, hadjacent, fun j hj => ?_⟩
            by_cases hzero : j = 0
            · rw [hzero]
              simpa using hpage
            · exact hpages j (by omega) hj
          · rintro ⟨-, r, hr, hadjacent, hpages⟩
            exact ⟨r, hr, hadjacent, fun j _ hj => hpages j hj⟩
        · intro hempty
          have hset : bit taken.fba.bitmap first = true := by simp [taken]
          rw [hempty]
          exact ⟨rfl, hinside, hset⟩
      · -- a single block for more bytes than there are addresses behind it
        obtain ⟨hnumber, hneeded⟩ := numBlocks_wrapped hfits
        refine iff_of_false ?_ fun h => hfits h.1
        rintro ⟨hgiven, -⟩
        rw [hnumber] at hgiven
        obtain ⟨first', hbase, hblocks⟩ := hgiven (blockAddress s.fba first) rfl
        have hrange := hsized.fits
        have hfirstBlock := (hblocks 0 (by omega)).1
        obtain rfl := blockAddress_injective hsized hinside hfirstBlock hbase
        have hlast := (hblocks (2 ^ 52 - 1) (by omega)).1
        omega

end Arrays

/-- An allocator of `2 ^ 15` blocks with the first word of its bitmap. -/
def fragmented (word : BitVec 64) : Store where
  fba := ⟨0x8000000, 0x8000, 1, 512, 0x8000, fun i => if i = 0 then word else 0⟩
  mem := fun _ => 0

theorem fragmented_initialised (word : BitVec 64) (own : word.getLsbD 0 = true) :
    Initialised (fragmented word).fba := by
  refine ⟨by constructor <;> simp [fragmented], fun i hi => ?_⟩
  obtain rfl : i = 0 := Nat.lt_one_iff.mp hi
  exact own

/-- Two blocks behind that of the bitmap. -/
theorem fbaCallocBlocks_iff_two_blocks :
    GivesArray (fragmented 1).fba 0x2000
      (fbaCallocBlocks (fragmented 1) 0x2000 fun _ => 0x1000).1
      (fbaCallocBlocks (fragmented 1) 0x2000 fun _ => 0x1000).2.fba := by
  have hpage : pageFailed 0x1000 = false := by decide
  apply (fbaCallocBlocks_iff (fragmented_initialised 1 (by decide)) 0x2000 fun _ => 0x1000).mpr
  refine Or.inr ⟨by decide, 1, 2, by decide, ⟨⟨by decide, by decide, fun i hi => ?_⟩,
    fun j hj => ?_, Or.inl (by decide)⟩, fun _ _ => hpage⟩
  · obtain rfl : i = 0 := Nat.lt_one_iff.mp hi
    decide
  · obtain rfl | rfl : j = 0 ∨ j = 1 := by omega
    · exact ⟨by decide, by decide⟩
    · exact ⟨by decide, by decide⟩

/-- Blocks 1 and 3 are free, block 2 is in use: the array reaches into it. -/
theorem array_overlaps_used_block :
    Initialised (fragmented 5).fba ∧
    ¬ GivesArray (fragmented 5).fba 0x2000
      (fbaCallocBlocks (fragmented 5) 0x2000 fun _ => 0x1000).1
      (fbaCallocBlocks (fragmented 5) 0x2000 fun _ => 0x1000).2.fba := by
  refine ⟨fragmented_initialised 5 (by decide), ?_⟩
  rintro ⟨hgiven, -⟩
  have hanswer : (fbaCallocBlocks (fragmented 5) 0x2000 fun _ => 0x1000).1 =
      some (blockAddress (fragmented 5).fba 1) := by decide +kernel
  obtain ⟨first, hbase, hblocks⟩ := hgiven _ hanswer
  have hsized := (fragmented_initialised 5 (by decide)).sized
  have hfirst := (hblocks 0 (by decide)).1
  obtain rfl := blockAddress_injective hsized (by decide) hfirst hbase
  exact absurd (hblocks 1 (by decide)).2.1 (by decide)

end ShiftArray
