import AnosKernel.Lib.Chains
import AnosKernel.Lib.Masks
import AnosKernel.Lib.Runs
import Mathlib.Data.Finset.Card
import Mathlib.Data.Finset.Range
import Mathlib.Data.List.Perm.Basic
import Mathlib.Tactic.IntervalCases

/-!
# The slab allocator

`kernel/slab/alloc.c` carves 16 KiB slabs into 256 blocks of 64 bytes. The first block of a
slab is its header: a list link and a bitmap of four words. Slabs with a free block hang on
the list `partial`, the others on `full`, both threaded through the headers. The state holds
the two list heads and the header found at each slab address; a null pointer is `none`. The
slab lock only serialises the calls and is not represented.
-/

namespace SlabAlloc

open Chains Runs

structure Slab where
  next : Option (BitVec 64)
  bitmap0 : BitVec 64
  bitmap1 : BitVec 64
  bitmap2 : BitVec 64
  bitmap3 : BitVec 64
  deriving DecidableEq, Repr

/-- The bitmap words are consecutive in memory: `(&slab->bitmap0)[i]`. -/
def Slab.word (slab : Slab) : Nat → BitVec 64
  | 0 => slab.bitmap0
  | 1 => slab.bitmap1
  | 2 => slab.bitmap2
  | _ => slab.bitmap3

def Slab.setWord (slab : Slab) (i : Nat) (value : BitVec 64) : Slab :=
  match i with
  | 0 => { slab with bitmap0 := value }
  | 1 => { slab with bitmap1 := value }
  | 2 => { slab with bitmap2 := value }
  | _ => { slab with bitmap3 := value }

def bitmapSet (slab : Slab) (bit : Nat) : Slab :=
  slab.setWord (bit >>> 6) (slab.word (bit >>> 6) ||| (1#64 <<< (bit &&& 0x3f)))

def bitmapClear (slab : Slab) (bit : Nat) : Slab :=
  slab.setWord (bit >>> 6) (slab.word (bit >>> 6) &&& ~~~(1#64 <<< (bit &&& 0x3f)))

def bitmapCheck (slab : Slab) (bit : Nat) : Bool :=
  (slab.word (bit >>> 6)).getLsbD (bit &&& 0x3f)

/-- The number of trailing zeros; the code only asks for words with a bit set. -/
def firstSetBit64 (nonzero : BitVec 64) : Nat :=
  ((List.range 64).find? (nonzero.getLsbD ·)).getD 64

/-- The condition under which a slab is moved from one list to the other. -/
def Slab.isFull (slab : Slab) : Bool :=
  slab.bitmap0 == 0xffffffffffffffff && slab.bitmap1 == 0xffffffffffffffff &&
    slab.bitmap2 == 0xffffffffffffffff && slab.bitmap3 == 0xffffffffffffffff

def freeBlock (slab : Slab) : Option Nat :=
  if slab.bitmap0 ≠ 0xffffffffffffffff then some (firstSetBit64 (~~~slab.bitmap0))
  else if slab.bitmap1 ≠ 0xffffffffffffffff then some (firstSetBit64 (~~~slab.bitmap1) + 64)
  else if slab.bitmap2 ≠ 0xffffffffffffffff then some (firstSetBit64 (~~~slab.bitmap2) + 128)
  else if slab.bitmap3 ≠ 0xffffffffffffffff then some (firstSetBit64 (~~~slab.bitmap3) + 192)
  else none

structure SlabState where
  partialHead : Option (BitVec 64)
  fullHead : Option (BitVec 64)
  mem : BitVec 64 → Slab

def SlabState.next (s : SlabState) (slab : BitVec 64) : Option (BitVec 64) := (s.mem slab).next

def SlabState.write (s : SlabState) (addr : BitVec 64) (slab : Slab) : SlabState :=
  { s with mem := Function.update s.mem addr slab }

/-- The header of a slab just obtained: its first block is the header itself. -/
def newSlab : Slab := { next := none, bitmap0 := 1, bitmap1 := 0, bitmap2 := 0, bitmap3 := 0 }

/-- The second half of `slab_alloc_block`: take a block of the slab at the head of `partial`,
and move the slab over when that was the last one. -/
def takeBlock (s : SlabState) (target : BitVec 64) : Option (BitVec 64) × SlabState :=
  match freeBlock (s.mem target) with
  | none => (none, s)
  | some n =>
    let slab := bitmapSet (s.mem target) n
    if slab.isFull then
      (some (target + 64 * BitVec.ofNat 64 n),
        { (s.write target { slab with next := s.fullHead }) with
          partialHead := slab.next
          fullHead := some target })
    else (some (target + 64 * BitVec.ofNat 64 n), s.write target slab)

/-- `slab_alloc_block`, given what `fba_alloc_blocks_aligned` answers if it is asked. -/
def slabAllocBlock (s : SlabState) (fba : Option (BitVec 64)) : Option (BitVec 64) × SlabState :=
  match s.partialHead with
  | none =>
    match fba with
    | none => (none, s)
    | some target => takeBlock { s.write target newSlab with partialHead := some target } target
  | some target => takeBlock s target

def slabBase (block : BitVec 64) : BitVec 64 := block &&& 0xffffffffffffc000

def blockNum (block : BitVec 64) : Nat := ((block - slabBase block) >>> 6).toNat

/-- The loop that looks for the predecessor of `slab` from `test` on. The inner result is null
when the list ends without one; the outer one is `none` when the fuel does not suffice. -/
def findPrev (s : SlabState) (slab : BitVec 64) : Nat → Option (BitVec 64) →
    Option (Option (BitVec 64))
  | 0, _ => none
  | _ + 1, none => some none
  | fuel + 1, some test =>
    if s.next test = some slab then some (some test) else findPrev s slab fuel (s.next test)

/-- Take a full slab off `full` and put it on `partial`. -/
def unfull (s : SlabState) (slab : BitVec 64) (fuel : Nat) : Option SlabState :=
  if s.fullHead = some slab then
    some { (s.write slab { s.mem slab with next := s.partialHead }) with
      partialHead := some slab
      fullHead := s.next slab }
  else
    match findPrev s slab fuel s.fullHead with
    | none => none
    | some none => some s
    | some (some test) =>
      -- `prev` is `test` here, so `prev->next = test->next` changes nothing,
      -- and it is `test` that goes to `partial`
      some { (s.write test { s.mem test with next := s.partialHead }) with
        partialHead := some test }

def slabFree (s : SlabState) (block : BitVec 64) (fuel : Nat) : Option SlabState :=
  let slab := slabBase block
  if block = 0 ∨ slab = 0 ∨ blockNum block = 0 then some s
  else
    (if (s.mem slab).isFull then unfull s slab fuel else some s).map fun s =>
      s.write slab (bitmapClear (s.mem slab) (blockNum block))

/-! ## The bitmap of a slab -/

theorem word_setWord {slab : Slab} {i j : Nat} {value : BitVec 64} (hi : i < 4) (hj : j < 4) :
    (slab.setWord i value).word j = if j = i then value else slab.word j := by
  interval_cases i <;> interval_cases j <;> rfl

theorem bitmapCheck_eq (slab : Slab) (n : Nat) :
    bitmapCheck slab n = (slab.word (n / 64)).getLsbD (n % 64) := by
  have hmod : n &&& 0x3f = n % 64 := Nat.and_two_pow_sub_one_eq_mod n 6
  rw [bitmapCheck, Nat.shiftRight_eq_div_pow, hmod]

theorem bitmapCheck_set {slab : Slab} {n m : Nat} (hn : n < 256) (hm : m < 256) :
    bitmapCheck (bitmapSet slab n) m = (decide (m = n) || bitmapCheck slab m) := by
  have hmod : n &&& 0x3f = n % 64 := Nat.and_two_pow_sub_one_eq_mod n 6
  have hdiv : n >>> 6 = n / 64 := Nat.shiftRight_eq_div_pow n 6
  rw [bitmapCheck_eq, bitmapCheck_eq, bitmapSet, hmod, hdiv,
    word_setWord (by omega) (by omega)]
  by_cases hw : m / 64 = n / 64
  · have hsame : decide (m = n) = decide (m % 64 = n % 64) := decide_eq_decide.mpr (by omega)
    have hlt : m % 64 < 64 := Nat.mod_lt _ (by decide)
    rw [if_pos hw, BitVec.getLsbD_or, Masks.getLsbD_one_shiftLeft hlt, hsame, hw, Bool.or_comm]
  · have hne : m ≠ n := fun h => hw (by rw [h])
    simp [hw, hne]

theorem bitmapCheck_clear {slab : Slab} {n m : Nat} (hn : n < 256) (hm : m < 256) :
    bitmapCheck (bitmapClear slab n) m = (!decide (m = n) && bitmapCheck slab m) := by
  have hmod : n &&& 0x3f = n % 64 := Nat.and_two_pow_sub_one_eq_mod n 6
  have hdiv : n >>> 6 = n / 64 := Nat.shiftRight_eq_div_pow n 6
  rw [bitmapCheck_eq, bitmapCheck_eq, bitmapClear, hmod, hdiv,
    word_setWord (by omega) (by omega)]
  by_cases hw : m / 64 = n / 64
  · have hsame : decide (m = n) = decide (m % 64 = n % 64) := decide_eq_decide.mpr (by omega)
    have hlt : m % 64 < 64 := Nat.mod_lt _ (by decide)
    rw [if_pos hw, BitVec.getLsbD_and, BitVec.getLsbD_not, Masks.getLsbD_one_shiftLeft hlt,
      hsame, hw]
    simp [hlt, Bool.and_comm]
  · have hne : m ≠ n := fun h => hw (by rw [h])
    simp [hw, hne]

theorem isFull_iff {slab : Slab} : slab.isFull ↔ ∀ n < 256, bitmapCheck slab n = true := by
  have hones : (0xffffffffffffffff : BitVec 64) = BitVec.allOnes 64 := by decide
  simp only [Slab.isFull, hones, Bool.and_eq_true, beq_iff_eq, Masks.eq_allOnes_iff]
  constructor
  · rintro ⟨⟨⟨h0, h1⟩, h2⟩, h3⟩ n hn
    have hlt : n % 64 < 64 := Nat.mod_lt _ (by decide)
    have hdiv : n / 64 < 4 := by omega
    rw [bitmapCheck_eq]
    generalize n / 64 = k at hdiv
    interval_cases k
    · exact h0 _ hlt
    · exact h1 _ hlt
    · exact h2 _ hlt
    · exact h3 _ hlt
  · intro h
    have hword : ∀ k < 4, ∀ i < 64, (slab.word k).getLsbD i = true := by
      intro k hk i hi
      have hbit := h (64 * k + i) (by omega)
      rwa [bitmapCheck_eq, show (64 * k + i) / 64 = k by omega,
        show (64 * k + i) % 64 = i by omega] at hbit
    exact ⟨⟨⟨hword 0 (by decide), hword 1 (by decide)⟩, hword 2 (by decide)⟩, hword 3 (by decide)⟩

theorem firstSetBit64_spec {x : BitVec 64} (h : x ≠ 0xffffffffffffffff) :
    firstSetBit64 (~~~x) < 64 ∧ x.getLsbD (firstSetBit64 (~~~x)) = false := by
  have hones : (0xffffffffffffffff : BitVec 64) = BitVec.allOnes 64 := by decide
  rw [hones] at h
  obtain ⟨n, hfind, hn, hclear⟩ := Masks.find_clear h
  rw [firstSetBit64, hfind, Option.getD_some]
  exact ⟨hn, hclear⟩

/-- A slab that is not full has a free block, and the block found is one. -/
theorem freeBlock_spec {slab : Slab} (h : ¬ slab.isFull) :
    ∃ n, freeBlock slab = some n ∧ n < 256 ∧ bitmapCheck slab n = false := by
  have found : ∀ k < 4, slab.word k ≠ 0xffffffffffffffff →
      firstSetBit64 (~~~slab.word k) + 64 * k < 256 ∧
        bitmapCheck slab (firstSetBit64 (~~~slab.word k) + 64 * k) = false := by
    intro k hk hword
    obtain ⟨hlt, hclear⟩ := firstSetBit64_spec hword
    generalize firstSetBit64 (~~~slab.word k) = n at hlt hclear
    refine ⟨by omega, ?_⟩
    rwa [bitmapCheck_eq, show (n + 64 * k) / 64 = k by omega, show (n + 64 * k) % 64 = n by omega]
  unfold freeBlock
  split_ifs with h0 h1 h2 h3
  · exact ⟨_, rfl, found 0 (by decide) h0⟩
  · exact ⟨_, rfl, found 1 (by decide) h1⟩
  · exact ⟨_, rfl, found 2 (by decide) h2⟩
  · exact ⟨_, rfl, found 3 (by decide) h3⟩
  · push Not at h0 h1 h2 h3
    exact absurd (by simp [Slab.isFull, h0, h1, h2, h3]) h

@[simp] theorem bitmapSet_next (slab : Slab) (n : Nat) : (bitmapSet slab n).next = slab.next := by
  unfold bitmapSet Slab.setWord
  split <;> rfl

@[simp] theorem bitmapClear_next (slab : Slab) (n : Nat) :
    (bitmapClear slab n).next = slab.next := by
  unfold bitmapClear Slab.setWord
  split <;> rfl

theorem bitmapClear_not_full {slab : Slab} {n : Nat} (hn : n < 256) :
    ¬ (bitmapClear slab n).isFull := by
  intro h
  have hbit := isFull_iff.mp h n hn
  simp [bitmapCheck_clear hn hn] at hbit

/-! ## Addresses -/

theorem slabBase_toNat (block : BitVec 64) :
    (slabBase block).toNat = block.toNat / 16384 * 16384 :=
  Masks.toNat_and_high block _ 14 (by norm_num) rfl

theorem blockNum_lt (block : BitVec 64) : blockNum block < 256 := by
  have hbase := slabBase_toNat block
  have hsub : (block - slabBase block).toNat = block.toNat - (slabBase block).toNat := by bv_omega
  rw [blockNum, BitVec.toNat_ushiftRight, Nat.shiftRight_eq_div_pow, hsub]
  omega

theorem toNat_blockOffset {n : Nat} (hn : n < 256) : (64 * BitVec.ofNat 64 n).toNat = 64 * n := by
  have hsize : (64 : BitVec 64).toNat = 64 := rfl
  rw [BitVec.toNat_mul, BitVec.toNat_ofNat, Nat.mod_eq_of_lt (by omega : n < 2 ^ 64), hsize]
  exact Nat.mod_eq_of_lt (by omega)

/-- A block lies in the slab it was carved from. -/
theorem slabBase_block {target : BitVec 64} {n : Nat} (aligned : target &&& 0x3fff = 0)
    (hn : n < 256) : slabBase (target + 64 * BitVec.ofNat 64 n) = target := by
  have haligned : target.toNat % 16384 = 0 := (Masks.and_low_eq_zero_iff (k := 14) rfl).mp aligned
  have hoffset := toNat_blockOffset hn
  have hsum : (target + 64 * BitVec.ofNat 64 n).toNat = target.toNat + 64 * n := by
    have := target.isLt
    rw [BitVec.toNat_add, hoffset, Nat.mod_eq_of_lt (by omega)]
  apply BitVec.eq_of_toNat_eq
  rw [slabBase_toNat, hsum]
  omega

theorem blockNum_block {target : BitVec 64} {n : Nat} (aligned : target &&& 0x3fff = 0)
    (hn : n < 256) : blockNum (target + 64 * BitVec.ofNat 64 n) = n := by
  have hoffset := toNat_blockOffset hn
  have hsub : target + 64 * BitVec.ofNat 64 n - target = 64 * BitVec.ofNat 64 n := by
    rw [BitVec.add_comm, BitVec.add_sub_cancel]
  rw [blockNum, slabBase_block aligned hn, hsub, BitVec.toNat_ushiftRight, hoffset,
    Nat.shiftRight_eq_div_pow]
  omega

@[simp] theorem write_next (s : SlabState) (addr : BitVec 64) (slab : Slab) :
    (s.write addr slab).next = Function.update s.next addr slab.next := by
  funext a
  by_cases h : a = addr
  · simp [SlabState.next, SlabState.write, h]
  · simp [SlabState.next, SlabState.write, h]

theorem write_mem_self (s : SlabState) (addr : BitVec 64) (slab : Slab) :
    (s.write addr slab).mem addr = slab := Function.update_self _ _ _

theorem write_mem_ne (s : SlabState) {addr a : BitVec 64} (slab : Slab) (h : a ≠ addr) :
    (s.write addr slab).mem a = s.mem a := Function.update_of_ne h _ _

/-! ## Runs

Beside the allocator's state the world records which slabs it has obtained and which blocks
are live. -/

structure World where
  state : SlabState
  obtained : List (BitVec 64)
  live : List (BitVec 64)

inductive Op
  /-- `slab_alloc_block`, with the answer of `fba_alloc_blocks_aligned` if it is asked. -/
  | alloc (fba : Option (BitVec 64))
  | free (block : BitVec 64)
  deriving DecidableEq, Repr

/-- The FBA answers with a slab-aligned address that is not in use; frees are of live blocks. -/
def Valid (w : World) : Op → Prop
  | .alloc fba => ∀ target, fba = some target →
      target &&& 0x3fff = 0 ∧ target ≠ 0 ∧ target ∉ w.obtained
  | .free block => block ∈ w.live

def allocated (w : World) (fba : Option (BitVec 64)) : World where
  state := (slabAllocBlock w.state fba).2
  obtained := if w.state.partialHead = none then fba.toList ++ w.obtained else w.obtained
  live := (slabAllocBlock w.state fba).1.toList ++ w.live

/-- The calls; `slab_free` may search a list, so its result is the one some fuel gives. -/
inductive Step : World → Op → World → Prop
  | alloc (w : World) (fba : Option (BitVec 64)) : Step w (.alloc fba) (allocated w fba)
  | free (w : World) (block : BitVec 64) (fuel : Nat) (state : SlabState) :
      slabFree w.state block fuel = some state →
      Step w (.free block) { w with state := state, live := w.live.erase block }

/-- Both heads are null at the start; what lies in memory does not matter. -/
def system : System World Op where
  init := fun w => w.state.partialHead = none ∧ w.state.fullHead = none ∧
    w.obtained = [] ∧ w.live = []
  step := fun w op w' => Valid w op ∧ Step w op w'

/-- Both lists end, every slab obtained is on exactly one of them, and it is on `full` exactly
when all bits of its bitmap are set. -/
def ListsSound (w : World) : Prop :=
  ∃ ps fs, Chain w.state.next w.state.partialHead ps ∧ ps.Nodup ∧
    Chain w.state.next w.state.fullHead fs ∧ fs.Nodup ∧
    ∀ slab ∈ w.obtained, (slab ∈ ps ∧ slab ∉ fs ∨ slab ∉ ps ∧ slab ∈ fs) ∧
      (slab ∈ fs ↔ ∀ n < 256, bitmapCheck (w.state.mem slab) n = true)

/-- An allocation fails only when there is no partial slab and no new one either. -/
def FailsOnlyExhausted (w : World) : Prop :=
  ∀ fba, (slabAllocBlock w.state fba).1 = none → w.state.partialHead = none ∧ fba = none

/-- The slabs of the two lists, from their heads on. -/
structure Lists (w : World) (ps fs : List (BitVec 64)) : Prop where
  partialChain : Chain w.state.next w.state.partialHead ps
  fullChain : Chain w.state.next w.state.fullHead fs
  perm : (ps ++ fs).Perm w.obtained
  nodup : w.obtained.Nodup
  aligned : ∀ slab ∈ w.obtained, slab &&& 0x3fff = 0
  open_ : ∀ slab ∈ ps, ¬ (w.state.mem slab).isFull
  full : ∀ slab ∈ fs, (w.state.mem slab).isFull
  live : ∀ block ∈ w.live, slabBase block ∈ w.obtained

def Inv (w : World) : Prop := ∃ ps fs, Lists w ps fs

theorem Lists.apart {w : World} {ps fs : List (BitVec 64)} (h : Lists w ps fs) :
    ∀ slab ∈ ps, slab ∉ fs := by
  have hnodup : (ps ++ fs).Nodup := h.perm.nodup_iff.mpr h.nodup
  intro slab hp hf
  exact (List.nodup_append.mp hnodup).2.2 slab hp slab hf rfl

theorem Lists.sound {w : World} {ps fs : List (BitVec 64)} (h : Lists w ps fs) : ListsSound w := by
  refine ⟨ps, fs, h.partialChain, chain_nodup h.partialChain, h.fullChain,
    chain_nodup h.fullChain, ?_⟩
  intro slab hslab
  rcases List.mem_append.mp (h.perm.mem_iff.mpr hslab) with hp | hf
  · have hout := h.apart slab hp
    refine ⟨Or.inl ⟨hp, hout⟩, fun hf => absurd hf hout, fun hall => ?_⟩
    exact absurd (isFull_iff.mpr hall) (h.open_ slab hp)
  · have hout : slab ∉ ps := fun hp => h.apart slab hp hf
    exact ⟨Or.inr ⟨hout, hf⟩, fun _ => isFull_iff.mp (h.full slab hf), fun _ => hf⟩

/-- What `takeBlock` does on a slab that is not full: a clear bit is set, and the slab stays
where it is or, with its last free block gone, moves to `full`. -/
theorem takeBlock_cases {s : SlabState} {t : BitVec 64} (h : ¬ (s.mem t).isFull) :
    ∃ n < 256, bitmapCheck (s.mem t) n = false ∧
      (takeBlock s t).1 = some (t + 64 * BitVec.ofNat 64 n) ∧
      ((¬ (bitmapSet (s.mem t) n).isFull ∧
          (takeBlock s t).2 = s.write t (bitmapSet (s.mem t) n)) ∨
        ((bitmapSet (s.mem t) n).isFull ∧
          (takeBlock s t).2 =
            { (s.write t { bitmapSet (s.mem t) n with next := s.fullHead }) with
              partialHead := s.next t
              fullHead := some t })) := by
  obtain ⟨n, hfree, hn, hclear⟩ := freeBlock_spec h
  refine ⟨n, hn, hclear, ?_⟩
  by_cases hfull : (bitmapSet (s.mem t) n).isFull
  · simp [takeBlock, hfree, hfull, SlabState.next]
  · simp [takeBlock, hfree, hfull]

/-- The world after a block of `t` was taken. -/
def took (w : World) (t : BitVec 64) : World where
  state := (takeBlock w.state t).2
  obtained := w.obtained
  live := (takeBlock w.state t).1.toList ++ w.live

theorem took_mem_ne {w : World} {t a : BitVec 64} (ha : a ≠ t) :
    (took w t).state.mem a = w.state.mem a := by
  unfold took takeBlock
  split
  · rfl
  · dsimp only
    split
    · exact write_mem_ne _ _ ha
    · exact write_mem_ne _ _ ha

/-- Rewriting the bitmap of a partial slab so that it still has a free block. -/
theorem Lists.rewrite {w : World} {t : BitVec 64} {ps fs : List (BitVec 64)} {slab : Slab}
    (h : Lists w ps fs) (ht : t ∈ ps) (hnext : slab.next = w.state.next t) (hopen : ¬ slab.isFull)
    {live : List (BitVec 64)} (hlive : ∀ block ∈ live, slabBase block ∈ w.obtained) :
    Lists { w with state := w.state.write t slab, live := live } ps fs := by
  have hsame : (w.state.write t slab).next = w.state.next := by
    rw [write_next, hnext]
    exact Function.update_eq_self _ _
  refine ⟨?_, ?_, h.perm, h.nodup, h.aligned, ?_, ?_, hlive⟩
  · rw [hsame]
    exact h.partialChain
  · rw [hsame]
    exact h.fullChain
  · intro a ha
    by_cases hat : a = t
    · rwa [hat, write_mem_self]
    · rw [write_mem_ne _ _ hat]
      exact h.open_ a ha
  · intro a ha
    rw [write_mem_ne _ _ (ne_of_mem_of_not_mem ha (h.apart t ht))]
    exact h.full a ha

/-- After a block of the first partial slab was taken, the slab stays first on `partial` or is
first on `full`. -/
theorem Lists.take {w : World} {t : BitVec 64} {ps fs : List (BitVec 64)}
    (h : Lists w (t :: ps) fs) :
    Lists (took w t) (t :: ps) fs ∨ Lists (took w t) ps (t :: fs) := by
  obtain ⟨n, hn, -, hblock, hstate⟩ := takeBlock_cases (h.open_ t List.mem_cons_self)
  have hmem : t ∈ w.obtained := h.perm.mem_iff.mp (List.mem_append_left _ List.mem_cons_self)
  have hps : t ∉ ps := (List.nodup_cons.mp (chain_nodup h.partialChain)).1
  have hfs : t ∉ fs := h.apart t List.mem_cons_self
  have hlive : ∀ block ∈ (took w t).live, slabBase block ∈ w.obtained := by
    intro block hb
    rcases List.mem_append.mp hb with hb | hb
    · rw [hblock, Option.toList_some, List.mem_singleton] at hb
      rwa [hb, slabBase_block (h.aligned t hmem) hn]
    · exact h.live block hb
  rcases hstate with ⟨hopen, hstate⟩ | ⟨hfull, hstate⟩
  · have hrewrite := h.rewrite List.mem_cons_self (bitmapSet_next _ _) hopen hlive
    rw [← hstate] at hrewrite
    exact Or.inl hrewrite
  · have hnext : (took w t).state.next = Function.update w.state.next t w.state.fullHead := by
      rw [took, hstate]
      exact write_next _ _ _
    refine Or.inr ⟨?_, ?_, List.perm_middle.trans h.perm, h.nodup, h.aligned, ?_, ?_, hlive⟩
    · rw [hnext, took, hstate]
      exact h.partialChain.2.update hps
    · rw [hnext, took, hstate]
      refine ⟨rfl, ?_⟩
      rw [Function.update_self]
      exact h.fullChain.update hfs
    · intro slab hslab
      rw [took_mem_ne (ne_of_mem_of_not_mem hslab hps)]
      exact h.open_ slab (List.mem_cons_of_mem _ hslab)
    · intro slab hslab
      rcases List.mem_cons.mp hslab with rfl | hslab
      · rw [took, hstate]
        exact (congrArg Slab.isFull (write_mem_self _ _ _)).trans hfull
      · rw [took_mem_ne (ne_of_mem_of_not_mem hslab hfs)]
        exact h.full slab hslab

/-- The world after the slab `t` was obtained and put on the empty `partial`. -/
def grown (w : World) (t : BitVec 64) : World where
  state := { w.state.write t newSlab with partialHead := some t }
  obtained := t :: w.obtained
  live := w.live

theorem Lists.grow {w : World} {t : BitVec 64} {fs : List (BitVec 64)} (h : Lists w [] fs)
    (aligned : t &&& 0x3fff = 0) (fresh : t ∉ w.obtained) : Lists (grown w t) [t] fs := by
  have hfs : t ∉ fs := fun ht => fresh (h.perm.mem_iff.mp ht)
  have hnext : (grown w t).state.next = Function.update w.state.next t none := write_next _ _ _
  refine ⟨?_, ?_, h.perm.cons t, List.nodup_cons.mpr ⟨fresh, h.nodup⟩, ?_, ?_, ?_, ?_⟩
  · rw [hnext]
    exact ⟨rfl, Function.update_self _ _ _⟩
  · rw [hnext]
    exact h.fullChain.update hfs
  · intro slab hslab
    rcases List.mem_cons.mp hslab with rfl | hslab
    · exact aligned
    · exact h.aligned slab hslab
  · intro slab hslab
    have hself : (grown w t).state.mem t = newSlab := write_mem_self _ _ _
    rw [List.mem_singleton.mp hslab, hself]
    decide
  · intro slab hslab
    have hother : (grown w t).state.mem slab = w.state.mem slab :=
      write_mem_ne _ _ (ne_of_mem_of_not_mem hslab hfs)
    rw [hother]
    exact h.full slab hslab
  · exact fun block hb => List.mem_cons_of_mem _ (h.live block hb)

theorem allocated_some {w : World} {t : BitVec 64} {fba : Option (BitVec 64)}
    (h : w.state.partialHead = some t) : allocated w fba = took w t := by
  simp [allocated, took, slabAllocBlock, h]

theorem allocated_none {w : World} (h : w.state.partialHead = none) : allocated w none = w := by
  simp [allocated, slabAllocBlock, h]

theorem allocated_grown {w : World} {t : BitVec 64} (h : w.state.partialHead = none) :
    allocated w (some t) = took (grown w t) t := by
  simp [allocated, took, grown, slabAllocBlock, h]

theorem Inv.alloc {w : World} {fba : Option (BitVec 64)} (inv : Inv w)
    (valid : Valid w (.alloc fba)) : Inv (allocated w fba) := by
  obtain ⟨ps, fs, h⟩ := inv
  have taken : ∀ {w' : World} {t : BitVec 64} {ps' : List (BitVec 64)},
      Lists w' (t :: ps') fs → Inv (took w' t) := by
    intro w' t ps' h'
    rcases h'.take with h' | h'
    · exact ⟨_, _, h'⟩
    · exact ⟨_, _, h'⟩
  cases ps with
  | cons t ps =>
    rw [allocated_some h.partialChain.1]
    exact taken h
  | nil =>
    cases fba with
    | none =>
      rw [allocated_none h.partialChain]
      exact ⟨_, _, h⟩
    | some t =>
      obtain ⟨haligned, -, hfresh⟩ := valid t rfl
      rw [allocated_grown h.partialChain]
      exact taken (h.grow haligned hfresh)

/-- The step that goes wrong: freeing a block of a full slab that is not first on `full`. -/
def Guard (w : World) : Op → Prop
  | .alloc _ => True
  | .free block => (w.state.mem (slabBase block)).isFull → w.state.fullHead = some (slabBase block)

/-- Popping the first full slab to `partial`, with a bit cleared. -/
theorem Lists.pop {w w' : World} {t : BitVec 64} {ps fs : List (BitVec 64)}
    (h : Lists w ps (t :: fs))
    (hpart : w'.state.partialHead = some t) (hfull : w'.state.fullHead = w.state.next t)
    (hnext : w'.state.next = Function.update w.state.next t w.state.partialHead)
    (hother : ∀ a ≠ t, w'.state.mem a = w.state.mem a) (hopen : ¬ (w'.state.mem t).isFull)
    (hobtained : w'.obtained = w.obtained)
    (hlive : ∀ block ∈ w'.live, slabBase block ∈ w.obtained) : Lists w' (t :: ps) fs := by
  have hps : t ∉ ps := fun hp => h.apart t hp List.mem_cons_self
  have hfs : t ∉ fs := (List.nodup_cons.mp (chain_nodup h.fullChain)).1
  rw [← hobtained] at hlive
  refine ⟨?_, ?_, ?_, hobtained ▸ h.nodup, hobtained ▸ h.aligned, ?_, ?_, hlive⟩
  · rw [hpart, hnext]
    refine ⟨rfl, ?_⟩
    rw [Function.update_self]
    exact h.partialChain.update hps
  · rw [hfull, hnext]
    exact h.fullChain.2.update hfs
  · rw [hobtained]
    exact List.perm_middle.symm.trans h.perm
  · intro a ha
    rcases List.mem_cons.mp ha with rfl | ha
    · exact hopen
    · rw [hother a (ne_of_mem_of_not_mem ha hps)]
      exact h.open_ a ha
  · intro a ha
    rw [hother a (ne_of_mem_of_not_mem ha hfs)]
    exact h.full a (List.mem_cons_of_mem _ ha)

/-- What a guarded `slab_free` does: nothing, clear a bit of a slab with a free block, or pop
the first full slab and clear a bit of it. -/
theorem slabFree_cases {s state : SlabState} {block : BitVec 64} {fuel : Nat}
    (guard : (s.mem (slabBase block)).isFull → s.fullHead = some (slabBase block))
    (h : slabFree s block fuel = some state) :
    state = s ∨
    (¬ (s.mem (slabBase block)).isFull ∧
      state = s.write (slabBase block) (bitmapClear (s.mem (slabBase block)) (blockNum block))) ∨
    (s.fullHead = some (slabBase block) ∧ state.partialHead = some (slabBase block) ∧
      state.fullHead = s.next (slabBase block) ∧
      state.next = Function.update s.next (slabBase block) s.partialHead ∧
      (∀ a ≠ slabBase block, state.mem a = s.mem a) ∧
      ¬ (state.mem (slabBase block)).isFull) := by
  unfold slabFree at h
  dsimp only at h
  split_ifs at h with hskip hfull
  · exact Or.inl (Option.some.inj h).symm
  · have hhead := guard hfull
    rw [unfull, if_pos hhead, Option.map_some, Option.some.injEq] at h
    refine Or.inr (Or.inr ⟨hhead, ?_⟩)
    rw [← h]
    refine ⟨rfl, rfl, ?_, ?_, ?_⟩
    · funext a
      by_cases ha : a = slabBase block
      · simp [SlabState.next, SlabState.write, ha]
      · simp [SlabState.next, SlabState.write, ha]
    · intro a ha
      simp [SlabState.write, ha]
    · rw [write_mem_self]
      exact bitmapClear_not_full (blockNum_lt block)
  · exact Or.inr (Or.inl ⟨hfull, (Option.some.inj h).symm⟩)

theorem Inv.free {w : World} {block : BitVec 64} {fuel : Nat} {state : SlabState} (inv : Inv w)
    (valid : Valid w (.free block)) (guard : Guard w (.free block))
    (hfree : slabFree w.state block fuel = some state) :
    Inv { w with state := state, live := w.live.erase block } := by
  obtain ⟨ps, fs, h⟩ := inv
  have hlive : ∀ b ∈ w.live.erase block, slabBase b ∈ w.obtained :=
    fun b hb => h.live b (List.mem_of_mem_erase hb)
  rcases slabFree_cases guard hfree with rfl | ⟨hopen, rfl⟩ |
    ⟨hhead, hpart, hfull, hnext, hother, hopen⟩
  · exact ⟨ps, fs, { h with live := hlive }⟩
  · rcases List.mem_append.mp (h.perm.mem_iff.mpr (h.live block valid)) with hp | hf
    · exact ⟨ps, fs, h.rewrite hp (bitmapClear_next _ _)
        (bitmapClear_not_full (blockNum_lt block)) hlive⟩
    · exact absurd (h.full _ hf) hopen
  · have hchain := h.fullChain
    rw [hhead] at hchain
    obtain ⟨rest, rfl, -⟩ := hchain.cons_of_some
    exact ⟨_, _, h.pop hpart hfull hnext hother hopen rfl hlive⟩

theorem Inv.step {w w' : World} {op : Op} (inv : Inv w) (guard : Guard w op) (valid : Valid w op)
    (hstep : Step w op w') : Inv w' := by
  cases hstep with
  | alloc fba => exact inv.alloc valid
  | free block fuel state hfree => exact inv.free valid guard hfree

theorem Inv.failsOnlyExhausted {w : World} (inv : Inv w) : FailsOnlyExhausted w := by
  obtain ⟨ps, fs, h⟩ := inv
  intro fba hnull
  cases ps with
  | cons t ps =>
    obtain ⟨n, -, -, hblock, -⟩ := takeBlock_cases (h.open_ t List.mem_cons_self)
    simp [slabAllocBlock, h.partialChain.1, hblock] at hnull
  | nil =>
    have hempty : w.state.partialHead = none := h.partialChain
    refine ⟨hempty, ?_⟩
    cases fba with
    | none => rfl
    | some t =>
      have hnew : ¬ ((grown w t).state.mem t).isFull := by
        rw [grown, write_mem_self]
        decide
      obtain ⟨n, -, -, hblock, -⟩ := takeBlock_cases hnew
      rw [slabAllocBlock, hempty] at hnull
      exact absurd (hblock.symm.trans hnull) (by simp)

theorem Inv.init {w : World} (h : system.init w) : Inv w := by
  obtain ⟨hpart, hfull, hobtained, hlive⟩ := h
  refine ⟨[], [], hpart, hfull, ?_, ?_, ?_, ?_, ?_, ?_⟩ <;> simp [hobtained, hlive]

/-- In every run in which a block of a full slab is freed only while that slab is first on
`full`, both lists stay sound, `slab_free` returns without searching, and an allocation fails
only when there is no partial slab and no new one. -/
theorem guarded_runs_keep_lists {w : World} (run : Reachable (system.restrict Guard) w) :
    ListsSound w ∧ FailsOnlyExhausted w ∧
      ∀ block, Guard w (.free block) → (slabFree w.state block 0).isSome := by
  have inv : Inv w := by
    refine run.invariant Inv ?_ ?_
    · intro s hs
      exact Inv.init hs
    · rintro s a t hs ⟨hguard, hvalid, hstep⟩
      exact hs.step hguard hvalid hstep
  refine ⟨?_, inv.failsOnlyExhausted, ?_⟩
  · obtain ⟨ps, fs, h⟩ := inv
    exact h.sound
  · intro block hguard
    unfold slabFree
    dsimp only
    split_ifs with hskip hfull
    · rfl
    · rw [unfull, if_pos (hguard hfull)]
      rfl
    · rfl

/-- Before the first call. -/
def boot : World where
  state := { partialHead := none, fullHead := none, mem := fun _ => newSlab }
  obtained := []
  live := []

/-- The result at the state after a first allocation, from the slab `0xffffffffc0004000`. -/
theorem guarded_runs_keep_lists_first_block :
    (allocated boot (some 0xffffffffc0004000)).live = [0xffffffffc0004040] ∧
      ListsSound (allocated boot (some 0xffffffffc0004000)) := by
  have hvalid : Valid boot (.alloc (some 0xffffffffc0004000)) := by
    intro target h
    obtain rfl := Option.some.inj h
    exact ⟨by decide, by decide, by simp [boot]⟩
  have hguard : Guard boot (.alloc (some 0xffffffffc0004000)) := trivial
  exact ⟨by decide, (guarded_runs_keep_lists
    (.next (.start ⟨rfl, rfl, rfl, rfl⟩) ⟨hguard, hvalid, .alloc _ _⟩)).1⟩

/-! ## Two full slabs

Filling slabs one after the other puts two of them on `full`. Freeing a block of the older one
then moves the younger one to `partial` and drops the older one. -/

/-- The number of free blocks of a slab. -/
def clearBits (slab : Slab) : Nat :=
  ((Finset.range 256).filter (fun n => bitmapCheck slab n = false)).card

theorem clearBits_took {w : World} {t : BitVec 64} (h : ¬ (w.state.mem t).isFull) :
    clearBits ((took w t).state.mem t) < clearBits (w.state.mem t) := by
  obtain ⟨n, hn, hclear, -, hstate⟩ := takeBlock_cases h
  have hbits : ∀ m < 256, bitmapCheck ((took w t).state.mem t) m =
      (decide (m = n) || bitmapCheck (w.state.mem t) m) := by
    intro m hm
    rcases hstate with ⟨-, hstate⟩ | ⟨-, hstate⟩
    · rw [took, hstate, write_mem_self, bitmapCheck_set hn hm]
    · rw [took, hstate]
      exact (congrArg (bitmapCheck · m) (write_mem_self _ _ _)).trans (bitmapCheck_set hn hm)
  refine Finset.card_lt_card ⟨?_, ?_⟩
  · intro m hm
    obtain ⟨hlt, hm⟩ := Finset.mem_filter.mp hm
    rw [hbits m (Finset.mem_range.mp hlt), Bool.or_eq_false_iff] at hm
    exact Finset.mem_filter.mpr ⟨hlt, hm.2⟩
  · intro hsub
    have hmem := (Finset.mem_filter.mp
      (hsub (Finset.mem_filter.mpr ⟨Finset.mem_range.mpr hn, hclear⟩))).2
    simp [hbits n hn] at hmem

theorem reachable_took {w : World} {t : BitVec 64} (run : Reachable system w)
    (h : w.state.partialHead = some t) : Reachable system (took w t) := by
  have hvalid : Valid w (.alloc none) := fun target ht => absurd ht (by simp)
  have hstep := Step.alloc w none
  rw [allocated_some h] at hstep
  exact .next run ⟨hvalid, hstep⟩

/-- Allocations fill the only partial slab. -/
theorem fill {t : BitVec 64} {fs : List (BitVec 64)} (k : Nat) {w : World}
    (run : Reachable system w) (h : Lists w [t] fs) (hk : clearBits (w.state.mem t) ≤ k) :
    ∃ w', Reachable system w' ∧ Lists w' [] (t :: fs) ∧ w'.obtained = w.obtained ∧
      w.live ⊆ w'.live := by
  induction k generalizing w with
  | zero =>
    have hless := clearBits_took (h.open_ t List.mem_cons_self)
    omega
  | succ k ih =>
    have hless := clearBits_took (h.open_ t List.mem_cons_self)
    have hrun := reachable_took run h.partialChain.1
    have hlive : w.live ⊆ (took w t).live := List.subset_append_right _ _
    rcases h.take with hstay | hfull
    · obtain ⟨w', hrun', hlists, hobtained, hsub⟩ := ih hrun hstay (by omega)
      exact ⟨w', hrun', hlists, hobtained, fun b hb => hsub (hlive hb)⟩
    · exact ⟨took w t, hrun, hfull, rfl, hlive⟩

/-- With `partial` empty, allocations obtain a slab and fill it; a block of it is then live. -/
theorem obtain_and_fill {t : BitVec 64} {fs : List (BitVec 64)} {w : World}
    (run : Reachable system w) (h : Lists w [] fs) (aligned : t &&& 0x3fff = 0) (nonnull : t ≠ 0)
    (fresh : t ∉ w.obtained) :
    ∃ w', Reachable system w' ∧ Lists w' [] (t :: fs) ∧ w'.obtained = t :: w.obtained ∧
      w.live ⊆ w'.live ∧ ∃ n < 256, n ≠ 0 ∧ t + 64 * BitVec.ofNat 64 n ∈ w'.live := by
  have hvalid : Valid w (.alloc (some t)) := by
    intro target ht
    obtain rfl := Option.some.inj ht
    exact ⟨aligned, nonnull, fresh⟩
  have hstep := Step.alloc w (some t)
  rw [allocated_grown h.partialChain] at hstep
  have hrun : Reachable system (took (grown w t) t) := .next run ⟨hvalid, hstep⟩
  have hgrow := h.grow aligned fresh
  obtain ⟨n, hn, hclear, hblock, -⟩ := takeBlock_cases (hgrow.open_ t List.mem_cons_self)
  have hmem : t + 64 * BitVec.ofNat 64 n ∈ (took (grown w t) t).live := by
    rw [took, hblock]
    exact List.mem_append_left _ (List.mem_singleton.mpr rfl)
  have hsub : w.live ⊆ (took (grown w t) t).live := List.subset_append_right _ _
  have hnum : n ≠ 0 := by
    rintro rfl
    rw [grown, write_mem_self] at hclear
    exact absurd hclear (by decide)
  rcases hgrow.take with hstay | hfull
  · obtain ⟨w', hrun', hlists, hobtained, hlive⟩ := fill _ hrun hstay le_rfl
    exact ⟨w', hrun', hlists, hobtained, fun b hb => hlive (hsub hb), n, hn, hnum, hlive hmem⟩
  · exact ⟨_, hrun, hfull, rfl, hsub, n, hn, hnum, hmem⟩

/-- Freeing a block of the second slab on `full` takes that slab off both lists. -/
theorem free_second_full {a b : BitVec 64} {n : Nat} {w : World} (run : Reachable system w)
    (h : Lists w [] [b, a]) (aligned : a &&& 0x3fff = 0) (nonnull : a ≠ 0) (hn : n < 256)
    (hnum : n ≠ 0) (hlive : a + 64 * BitVec.ofNat 64 n ∈ w.live) :
    ∃ w', Reachable system w' ∧ a ∈ w'.obtained ∧
      Chain w'.state.next w'.state.partialHead [b] ∧ Chain w'.state.next w'.state.fullHead [b] := by
  have hbase := slabBase_block aligned hn
  have hblockNum := blockNum_block aligned hn
  have hne : a ≠ b := by
    have hnodup := chain_nodup h.fullChain
    simp only [List.nodup_cons, List.mem_singleton] at hnodup
    exact fun e => hnodup.1 e.symm
  obtain ⟨hhead, hnext, -⟩ := h.fullChain
  generalize a + 64 * BitVec.ofNat 64 n = block at hbase hblockNum hlive
  have hnonzero : block ≠ 0 := by
    rintro rfl
    exact nonnull (hbase ▸ by decide)
  have hskip : ¬ (block = 0 ∨ a = 0 ∨ blockNum block = 0) := by
    rw [hblockNum]
    tauto
  have hother : ¬ w.state.fullHead = some a := by
    rw [hhead]
    exact fun e => hne (Option.some.inj e).symm
  have hprev : findPrev w.state a 1 w.state.fullHead = some (some b) := by
    rw [hhead, findPrev, if_pos hnext]
  have hfull : (w.state.mem a).isFull := h.full a (by simp)
  obtain ⟨state, hfree, hpart, hfullHead, hlink⟩ : ∃ state, slabFree w.state block 1 = some state ∧
      state.partialHead = some b ∧ state.fullHead = some b ∧ state.next b = none := by
    simp only [slabFree, hbase, if_neg hskip, hfull, if_true, unfull, if_neg hother, hprev,
      Option.map_some, Option.some.injEq, exists_eq_left']
    refine ⟨rfl, hhead, ?_⟩
    rw [write_next, Function.update_of_ne hne.symm]
    exact (congrFun (write_next w.state b _) b).trans
      ((Function.update_self _ _ _).trans h.partialChain)
  have hvalid : Valid w (.free block) := hlive
  refine ⟨_, .next run ⟨hvalid, .free w block 1 state hfree⟩, ?_, ?_, ?_⟩
  · exact h.perm.mem_iff.mp (by simp)
  · exact ⟨hpart, hlink⟩
  · exact ⟨hfullHead, hlink⟩

/-- Two slabs fill up; freeing a block of the first one loses it. -/
theorem freed_full_slab_is_lost :
    ¬ ∀ w, Reachable system w → ListsSound w ∧ FailsOnlyExhausted w := by
  intro h
  obtain ⟨ps, fs, h0⟩ : Inv boot := Inv.init ⟨rfl, rfl, rfl, rfl⟩
  obtain rfl : ps = [] := h0.partialChain.eq_nil
  obtain rfl : fs = [] := h0.fullChain.eq_nil
  obtain ⟨w1, run1, h1, ho1, -, n, hn, hnum, hlive⟩ :=
    obtain_and_fill (t := 0xffffffffc0004000) (.start ⟨rfl, rfl, rfl, rfl⟩) h0 (by decide)
      (by decide) (by simp [boot])
  obtain ⟨w2, run2, h2, ho2, hsub, -⟩ :=
    obtain_and_fill (t := 0xffffffffc0008000) run1 h1 (by decide) (by decide) (by simp [ho1, boot])
  obtain ⟨w3, run3, hmem, hpart, hfull⟩ :=
    free_second_full run2 h2 (by decide) (by decide) hn hnum (hsub hlive)
  obtain ⟨ps, fs, hps, -, hfs, -, hsound⟩ := (h w3 run3).1
  rw [chain_unique hps hpart, chain_unique hfs hfull] at hsound
  have hexact := (hsound _ hmem).1
  simp at hexact

end SlabAlloc
