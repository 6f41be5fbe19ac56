import AnosKernel.Lib.Bytes

/-!
# Copying memory

`kernel/arch/x86_64/std_routines.c` and `kernel/arch/riscv64/std_routines.c`. An element that is
read and written is its bytes. `memcpy` is the same on both but for the blocks of sixteen words,
which the x86_64 code moves four at a time.
-/

namespace StdRoutines

open Bytes

inductive Arch where
  | x8664
  | riscv64
  deriving DecidableEq

/-- `d[k] = s[k]` for elements of so many bytes. -/
def copyElement (size : Nat) (mem : Memory) (d s : BitVec 64) (k : Nat) : Memory :=
  writeBytes mem (addr d (size * k)) (readBytes mem (addr s (size * k)) size)

/-- The cases of a switch from `case n` on, which fall through down to `case 1`. -/
def copyCases (size : Nat) (mem : Memory) (d s : BitVec 64) : Nat → Memory
  | 0 => mem
  | k + 1 => copyCases size (copyElement size mem d s k) d s k

/-- A switch with the cases from 1 to `last`. -/
def copySwitch (size last : Nat) (mem : Memory) (d s : BitVec 64) (n : Nat) : Memory :=
  if n ≤ last then copyCases size mem d s n else mem

/-- Element `i` of an array of 64-bit words. -/
def wordAddr (p : BitVec 64) (i : Int) : BitVec 64 := p + BitVec.ofInt 64 (8 * i)

/-- Words that are all read before they are written: where each goes, and where it is from. -/
def copyWords (mem : Memory) (d s : BitVec 64) (moves : List (Int × Int)) : Memory :=
  (moves.map fun (target, source) => (target, readBytes mem (wordAddr s source) 8)).foldl
    (fun mem (target, word) => writeBytes mem (wordAddr d target) word) mem

def samePlaces (places : List Int) : List (Int × Int) := places.map fun i => (i, i)

/-- Sixteen words. -/
def copyBlock (arch : Arch) (mem : Memory) (d s : BitVec 64) : Memory :=
  match arch with
  | .x8664 =>
    let mem := copyWords mem d s (samePlaces [0, 1, 2, 3])
    let mem := copyWords mem d s (samePlaces [4, 5, 6, 7])
    let mem := copyWords mem d s (samePlaces [8, 9, 10, 11])
    copyWords mem d s (samePlaces [12, 13, 14, 15])
  | .riscv64 =>
    copyWords mem d s (samePlaces [0, 1, 2, 3, 4, 5, 6, 7, 8, 9, 10, 11, 12, 13, 14, 15])

def copyBlocks (arch : Arch) (mem : Memory) (d s : BitVec 64) (blocks : Nat) :
    Memory × BitVec 64 × BitVec 64 × Nat :=
  if blocks ≥ 16 then copyBlocks arch (copyBlock arch mem d s) (d + 128) (s + 128) (blocks - 16)
  else (mem, d, s, blocks)

/-- The rest of `memcpy`, from an aligned `d` on. -/
def copyAligned (arch : Arch) (mem : Memory) (d s : BitVec 64) (count : Nat) : Memory :=
  let blocks := count / 8
  let count := count % 8
  let (mem, d, s, blocks) :=
    if blocks ≥ 32 then copyBlocks arch mem d s blocks else (mem, d, s, blocks)
  let mem := copySwitch 8 15 mem d s blocks
  copySwitch 1 7 mem (addr d (8 * blocks)) (addr s (8 * blocks)) count

def memcpy (arch : Arch) (mem : Memory) (dest src count : BitVec 64) : Memory :=
  let count := count.toNat
  if count < 8 then copySwitch 1 7 mem dest src count
  else
    let align := ((8 - (dest &&& 7)) &&& 7).toNat
    if align ≠ 0 then
      copyAligned arch (copySwitch 1 7 mem dest src align) (addr dest align) (addr src align)
        (count - align)
    else copyAligned arch mem dest src count

/-! ## `memmove` of riscv64 -/

/-- `while (((uintptr_t)d & 7) && count)`, forwards. -/
def alignForward (mem : Memory) (d s : BitVec 64) : Nat → Memory × BitVec 64 × BitVec 64 × Nat
  | 0 => (mem, d, s, 0)
  | count + 1 =>
    if d &&& 7 ≠ 0 then alignForward (copyElement 1 mem d s 0) (d + 1) (s + 1) count
    else (mem, d, s, count + 1)

def chunksForward (mem : Memory) (d s : BitVec 64) (count : Nat) :
    Memory × BitVec 64 × BitVec 64 × Nat :=
  if count ≥ 64 then
    chunksForward (copyWords mem d s (samePlaces [0, 1, 2, 3, 4, 5, 6, 7])) (d + 64) (s + 64)
      (count - 64)
  else (mem, d, s, count)

def bytesForward (mem : Memory) (d s : BitVec 64) : Nat → Memory
  | 0 => mem
  | count + 1 => bytesForward (copyElement 1 mem d s 0) (d + 1) (s + 1) count

def alignBackward (mem : Memory) (d s : BitVec 64) : Nat → Memory × BitVec 64 × BitVec 64 × Nat
  | 0 => (mem, d, s, 0)
  | count + 1 =>
    if d &&& 7 ≠ 0 then alignBackward (copyElement 1 mem (d - 1) (s - 1) 0) (d - 1) (s - 1) count
    else (mem, d, s, count + 1)

/-- The words of a chunk, backwards: the one at -6 is stored at -5, and those after it one place
too high, so that the place at -8 is never written. -/
def backwardMoves : List (Int × Int) :=
  [(-1, -1), (-2, -2), (-3, -3), (-4, -4), (-5, -5), (-5, -6), (-6, -7), (-7, -8)]

def chunksBackward (mem : Memory) (d s : BitVec 64) (count : Nat) :
    Memory × BitVec 64 × BitVec 64 × Nat :=
  if count ≥ 64 then
    chunksBackward (copyWords mem d s backwardMoves) (d - 64) (s - 64) (count - 64)
  else (mem, d, s, count)

def bytesBackward (mem : Memory) (d s : BitVec 64) : Nat → Memory
  | 0 => mem
  | count + 1 => bytesBackward (copyElement 1 mem (d - 1) (s - 1) 0) (d - 1) (s - 1) count

def memmove (mem : Memory) (dest src count : BitVec 64) : Memory :=
  if dest = src then mem
  else if dest < src ∨ dest ≥ src + count then
    let (mem, d, s, count) := alignForward mem dest src count.toNat
    let (mem, d, s, count) := chunksForward mem d s count
    bytesForward mem d s count
  else
    let (mem, d, s, count) := alignBackward mem (dest + count) (src + count) count.toNat
    let (mem, d, s, count) := chunksBackward mem d s count
    bytesBackward mem d s count

/-! ## What the routines are for -/

/-- The bytes at `dest` are those that were at `src`, and no other byte has changed. -/
def Moves (mem : Memory) (dest src : BitVec 64) (count : Nat) (mem' : Memory) : Prop :=
  (∀ k < count, mem' (addr dest k) = mem (addr src k)) ∧
    ∀ x, (∀ k < count, x ≠ addr dest k) → mem' x = mem x

section Words

variable {mem₀ mem : Memory} {d s : BitVec 64} {done : Nat → Prop} {o n : Nat}

theorem moves_iff (small : n ≤ 2 ^ 64) : Moves mem₀ d s n mem ↔ Copied mem₀ d s (· < n) mem := by
  constructor
  · rintro ⟨hin, hout⟩
    refine ⟨fun k _ h => hin k h, ?_⟩
    intro k hk hnot
    apply hout
    intro j hj heq
    exact hnot (addr_inj hk (by omega) heq ▸ hj)
  · intro h
    refine ⟨fun k hk => h.inside k (by omega) hk, ?_⟩
    intro x hx
    obtain ⟨k, hk, rfl⟩ := exists_addr d x
    exact h.outside k hk (fun hlt => hx k hlt rfl)

theorem wordAddr_addr {i : Int} (h : 0 ≤ (o : Int) + 8 * i) :
    wordAddr (addr d o) i = addr d ((o : Int) + 8 * i).toNat := by
  have hsum : BitVec.ofNat 64 o + BitVec.ofInt 64 (8 * i) =
      BitVec.ofNat 64 ((o : Int) + 8 * i).toNat := by
    rw [← BitVec.ofInt_natCast, ← BitVec.ofInt_add, ← BitVec.ofInt_natCast, Int.toNat_of_nonneg h]
  rw [wordAddr, addr, addr, BitVec.add_assoc, hsum]

/-- The cases of a switch, where no source byte is written. -/
theorem copied_cases {size : Nat} (h : Copied mem₀ d s done mem) (small : o + size * n ≤ 2 ^ 64)
    (intact : Intact d s (fun k => done k ∨ (o ≤ k ∧ k < o + size * n)) o (size * n)) :
    Copied mem₀ d s (fun k => done k ∨ (o ≤ k ∧ k < o + size * n))
      (copyCases size mem (addr d o) (addr s o) n) := by
  induction n generalizing mem done with
  | zero =>
    apply h.congr
    intro k _
    rw [iff_self_or]
    omega
  | succ n ih =>
    rw [Nat.mul_succ] at small intact
    have hfirst := h.move (o := o + size * n) (n := size) (fun i hlow hhigh k hk hdone =>
      intact i (by omega) (by omega) k hk (Or.inl hdone)) (by omega)
    rw [copyCases, copyElement, addr_add, addr_add]
    apply (ih hfirst (by omega) ?_).congr
    · intro k _
      rw [Nat.mul_succ, or_assoc]
      apply or_congr_right
      omega
    · intro i hlow hhigh k hk hdone
      apply intact i hlow (by omega) k hk
      rw [or_assoc] at hdone
      apply hdone.imp_right
      omega

/-- Words that go to the places they are from, read before any of them is written. -/
theorem copied_words (places : List Int) (h : Copied mem₀ d s done mem)
    (low : ∀ i ∈ places, 0 ≤ (o : Int) + 8 * i)
    (high : ∀ i ∈ places, (o : Int) + 8 * i + 8 ≤ 2 ^ 64)
    (intact : ∀ i ∈ places, Intact d s done ((o : Int) + 8 * i).toNat 8) :
    Copied mem₀ d s
      (fun k => done k ∨ ∃ i ∈ places, (o : Int) + 8 * i ≤ k ∧ k < (o : Int) + 8 * i + 8)
      (copyWords mem (addr d o) (addr s o) (samePlaces places)) := by
  have hread : ∀ i ∈ places, readBytes mem (wordAddr (addr s o) i) 8 =
      readBytes mem₀ (addr s ((o : Int) + 8 * i).toNat) 8 := by
    intro i hi
    rw [wordAddr_addr (low i hi)]
    exact h.read_eq (intact i hi)
  have hwords : (samePlaces places).map (fun (target, source) =>
      (target, readBytes mem (wordAddr (addr s o) source) 8)) =
        places.map fun i => (i, readBytes mem₀ (addr s ((o : Int) + 8 * i).toNat) 8) := by
    rw [samePlaces, List.map_map]
    apply List.map_congr_left
    intro i hi
    exact congrArg (Prod.mk i) (hread i hi)
  rw [copyWords, hwords]
  clear hread hwords intact
  -- the words are those of `mem₀` now, and are written one after another
  induction places generalizing mem done with
  | nil =>
    apply h.congr
    simp
  | cons i places ih =>
    have hlow := low i List.mem_cons_self
    have hhigh := high i List.mem_cons_self
    have hfirst := h.write (o := ((o : Int) + 8 * i).toNat) (n := 8) (by omega)
    rw [List.map_cons, List.foldl_cons]
    dsimp only
    rw [wordAddr_addr hlow]
    apply (ih hfirst (fun j hj => low j (List.mem_cons_of_mem i hj))
      (fun j hj => high j (List.mem_cons_of_mem i hj))).congr
    intro k _
    rw [List.exists_mem_cons_iff, or_assoc]
    apply or_congr_right
    apply or_congr_left
    omega

/-- Going forwards, no byte of the source is written before it is read. -/
def Ahead (d s : BitVec 64) (n : Nat) : Prop := ∀ i < n, ∀ k < i, addr s i ≠ addr d k

theorem Ahead.intact {o' m : Nat} (ahead : Ahead d s n) (reached : o ≤ o') (fits : o' + m ≤ n) :
    Intact d s (· < o) o' m := by
  intro i hlow hhigh k _ hk
  exact ahead i (by omega) k (by omega)

/-- Words from place `first` on. -/
theorem copied_places (first number : Nat) (ahead : Ahead d s n) (small : n ≤ 2 ^ 64)
    (h : Copied mem₀ d s (· < o + 8 * first) mem) (fits : o + 8 * (first + number) ≤ n) :
    Copied mem₀ d s (· < o + 8 * (first + number))
      (copyWords mem (addr d o) (addr s o)
        (samePlaces ((List.range' first number).map Int.ofNat))) := by
  have hplaces : ∀ i ∈ (List.range' first number).map Int.ofNat,
      (first : Int) ≤ i ∧ i < first + number := by
    intro i hi
    obtain ⟨j, hj, rfl⟩ := List.mem_map.mp hi
    rw [List.mem_range'_1] at hj
    simp only [Int.ofNat_eq_natCast]
    omega
  have hwords := copied_words (o := o) ((List.range' first number).map Int.ofNat) h
    (fun i hi => by have := hplaces i hi; omega) (fun i hi => by have := hplaces i hi; omega)
    (fun i hi => ahead.intact (by have := hplaces i hi; omega) (by have := hplaces i hi; omega))
  apply hwords.congr
  intro k _
  constructor
  · rintro (hk | ⟨i, hi, hlow, hhigh⟩)
    · omega
    · have := hplaces i hi
      omega
  · intro hk
    by_cases hbefore : k < o + 8 * first
    · exact Or.inl hbefore
    · right
      refine ⟨Int.ofNat ((k - o) / 8), List.mem_map_of_mem ?_, ?_, ?_⟩
      · rw [List.mem_range'_1]
        omega
      all_goals
        simp only [Int.ofNat_eq_natCast]
        omega

end Words

/-! ## `memcpy` -/

/-- No byte of the source is one of the destination. -/
def Apart (d s : BitVec 64) (n : Nat) : Prop := ∀ i < n, ∀ k < n, addr s i ≠ addr d k

section Memcpy

variable {mem₀ mem : Memory} {d s : BitVec 64} {done : Nat → Prop} {o n m : Nat}

theorem Apart.intact (apart : Apart d s n) (inside : ∀ k, done k → k < n) (fits : o + m ≤ n) :
    Intact d s done o m := by
  intro i _ hi k _ hdone
  exact apart i (by omega) k (inside k hdone)

theorem Apart.ahead (apart : Apart d s n) : Ahead d s n := by
  intro i hi k hk
  exact apart i hi k (by omega)

theorem copied_switch (size last m : Nat) (apart : Apart d s n) (small : n ≤ 2 ^ 64)
    (h : Copied mem₀ d s (· < o) mem) (fits : o + size * m ≤ n) (hm : m ≤ last) :
    Copied mem₀ d s (· < o + size * m) (copySwitch size last mem (addr d o) (addr s o) m) := by
  have hintact : Intact d s (fun k => k < o ∨ (o ≤ k ∧ k < o + size * m)) o (size * m) :=
    apart.intact (by omega) fits
  rw [copySwitch, if_pos hm]
  apply (copied_cases h (by omega) hintact).congr
  intro k _
  omega

theorem copied_block (arch : Arch) (apart : Apart d s n) (small : n ≤ 2 ^ 64)
    (h : Copied mem₀ d s (· < o) mem) (fits : o + 128 ≤ n) :
    Copied mem₀ d s (· < o + 128) (copyBlock arch mem (addr d o) (addr s o)) := by
  cases arch with
  | x8664 =>
    have h4 := copied_places 0 4 apart.ahead small h (by omega)
    have h8 := copied_places 4 4 apart.ahead small h4 (by omega)
    have h12 := copied_places 8 4 apart.ahead small h8 (by omega)
    exact copied_places 12 4 apart.ahead small h12 (by omega)
  | riscv64 => exact copied_places 0 16 apart.ahead small h (by omega)

/-- The loop of sixteen words leaves fewer than sixteen. -/
theorem copied_blocks (arch : Arch) (blocks : Nat) (apart : Apart d s n) (small : n ≤ 2 ^ 64)
    (h : Copied mem₀ d s (· < o) mem) (fits : o + 8 * blocks ≤ n) :
    ∃ mem', copyBlocks arch mem (addr d o) (addr s o) blocks =
        (mem', addr d (o + 128 * (blocks / 16)), addr s (o + 128 * (blocks / 16)), blocks % 16) ∧
      Copied mem₀ d s (· < o + 128 * (blocks / 16)) mem' := by
  induction blocks using Nat.strong_induction_on generalizing mem o with
  | h blocks ih =>
    rw [copyBlocks]
    split
    · rename_i hge
      have hblock := copied_block arch apart small h (by omega)
      obtain ⟨mem', heq, hcopied⟩ := ih (blocks - 16) (by omega) hblock (by omega)
      have hdone : o + 128 + 128 * ((blocks - 16) / 16) = o + 128 * (blocks / 16) := by omega
      have hleft : (blocks - 16) % 16 = blocks % 16 := by omega
      have hd : addr d o + 128 = addr d (o + 128) := addr_add
      have hs : addr s o + 128 = addr s (o + 128) := addr_add
      rw [hd, hs]
      rw [hdone, hleft] at heq
      rw [hdone] at hcopied
      exact ⟨mem', heq, hcopied⟩
    · rename_i hlt
      have hzero : blocks / 16 = 0 := by omega
      have hsame : blocks % 16 = blocks := by omega
      rw [hzero, hsame]
      exact ⟨mem, rfl, h⟩

/-- From an aligned place on everything is copied, but for sixteen to thirty-one words: too few for
the loop and too many for the switch. -/
theorem copied_aligned (arch : Arch) {count : Nat} (apart : Apart d s n) (small : n ≤ 2 ^ 64)
    (h : Copied mem₀ d s (· < o) mem) (fits : o + count = n) :
    Copied mem₀ d s
      (fun k => k < n ∧ ¬ (16 ≤ count / 8 ∧ count / 8 < 32 ∧ o ≤ k ∧ k < o + 8 * (count / 8)))
      (copyAligned arch mem (addr d o) (addr s o) count) := by
  rw [copyAligned]
  dsimp only
  by_cases hlarge : count / 8 ≥ 32
  · obtain ⟨mem', heq, hblocks⟩ :=
      copied_blocks arch (count / 8) apart small h (by omega)
    rw [if_pos hlarge, heq]
    dsimp only
    have hwords := copied_switch 8 15 (count / 8 % 16) apart small hblocks
      (by omega) (by omega)
    have htail := copied_switch 1 7 (count % 8) apart small hwords
      (by omega) (by omega)
    rw [addr_add, addr_add]
    apply htail.congr
    intro k _
    omega
  rw [if_neg hlarge]
  dsimp only
  rw [addr_add, addr_add]
  by_cases hfew : count / 8 < 16
  · have hwords := copied_switch 8 15 (count / 8) apart small h
      (by omega) (by omega)
    have htail := copied_switch 1 7 (count % 8) apart small hwords
      (by omega) (by omega)
    apply htail.congr
    intro k _
    omega
  · have hnone : copySwitch 8 15 mem (addr d o) (addr s o) (count / 8) = mem := by
      rw [copySwitch, if_neg (by omega)]
    have hintact : Intact d s (fun k => k < o ∨
        (o + 8 * (count / 8) ≤ k ∧ k < o + 8 * (count / 8) + 1 * (count % 8)))
        (o + 8 * (count / 8)) (1 * (count % 8)) := apart.intact (by omega) (by omega)
    rw [hnone, copySwitch, if_pos (by omega)]
    apply (copied_cases h (by omega) hintact).congr
    intro k _
    omega

/-- The bytes before the first aligned one. -/
def headBytes (dest : BitVec 64) : Nat := (8 - dest.toNat % 8) % 8

/-- The aligned words of `count` bytes. -/
def wholeWords (dest : BitVec 64) (count : Nat) : Nat := (count - headBytes dest) / 8

theorem toNat_and_seven (x : BitVec 64) : (x &&& 7).toNat = x.toNat % 8 := by
  rw [BitVec.toNat_and]
  exact Nat.and_two_pow_sub_one_eq_mod x.toNat 3

theorem toNat_align (dest : BitVec 64) :
    ((8 - (dest &&& 7)) &&& 7).toNat = headBytes dest := by
  have hand := toNat_and_seven dest
  have h8 : (8 : BitVec 64).toNat = 8 := rfl
  rw [toNat_and_seven, BitVec.toNat_sub, hand, h8, headBytes]
  omega

/-- What `memcpy` copies, and that it changes nothing else. -/
theorem memcpy_copied (arch : Arch) (mem : Memory) {dest src count : BitVec 64}
    (apart : Apart dest src count.toNat) :
    Copied mem dest src
      (fun k => k < count.toNat ∧ ¬ (8 ≤ count.toNat ∧ 16 ≤ wholeWords dest count.toNat ∧
        wholeWords dest count.toNat < 32 ∧ headBytes dest ≤ k ∧
          k < headBytes dest + 8 * wholeWords dest count.toNat))
      (memcpy arch mem dest src count) := by
  have hsmall : count.toNat ≤ 2 ^ 64 := Nat.le_of_lt count.isLt
  have hnone : Copied mem dest src (· < 0) mem := Copied.refl.congr (by simp)
  have hhead : headBytes dest < 8 := Nat.mod_lt _ (by decide)
  rw [memcpy]
  dsimp only
  rw [toNat_align]
  split
  · rename_i hfew
    have hcases := copied_switch 1 7 count.toNat apart hsmall hnone (by omega) (by omega)
    rw [addr_zero, addr_zero] at hcases
    apply hcases.congr
    intro k _
    omega
  · split
    · have hcases := copied_switch 1 7 (headBytes dest) apart hsmall hnone (by omega) (by omega)
      rw [addr_zero, addr_zero] at hcases
      have hrest := copied_aligned arch (o := headBytes dest) apart hsmall (hcases.congr (by omega))
        (Nat.add_sub_cancel' (by omega : headBytes dest ≤ count.toNat))
      apply hrest.congr
      intro k _
      rw [wholeWords]
      omega
    · rename_i haligned
      have hrest := copied_aligned arch apart hsmall hnone (Nat.zero_add count.toNat)
      rw [addr_zero, addr_zero] at hrest
      apply hrest.congr
      intro k _
      rw [wholeWords]
      omega

theorem memcpy_moves_iff (arch : Arch) {dest src count : BitVec 64}
    (apart : Apart dest src count.toNat) :
    (∀ mem, Moves mem dest src count.toNat (memcpy arch mem dest src count)) ↔
      count.toNat < 8 ∨ wholeWords dest count.toNat < 16 ∨ 32 ≤ wholeWords dest count.toNat := by
  constructor
  · intro hmoves
    by_contra hskipped
    have hhead : headBytes dest < 8 := Nat.mod_lt _ (by decide)
    have hin : headBytes dest < count.toNat := by omega
    -- one byte is set, that of the first aligned place
    have hone := (hmoves (fun x => if x = addr src (headBytes dest) then 1 else 0)).1 _ hin
    have hother := (memcpy_copied arch (fun x => if x = addr src (headBytes dest) then 1 else 0)
      apart).outside (headBytes dest) (by omega) (by omega)
    rw [hother] at hone
    simp only [if_pos, if_neg (apart _ hin _ hin).symm] at hone
    exact absurd hone (by decide)
  · intro hall mem
    rw [moves_iff (Nat.le_of_lt count.isLt)]
    apply (memcpy_copied arch mem apart).congr
    intro k _
    omega

theorem apart_of_le {d s : BitVec 64} {n : Nat} (before : d.toNat + n ≤ s.toNat)
    (fits : s.toNat + n ≤ 2 ^ 64) : Apart d s n := by
  intro i hi k hk heq
  have hnat := congrArg BitVec.toNat heq
  rw [toNat_addr (by omega), toNat_addr (by omega)] at hnat
  omega

theorem memcpy_moves_iff_oneWord :
    (∀ mem, Moves mem 0x1000 0x2000 8 (memcpy .riscv64 mem 0x1000 0x2000 8)) ↔
      8 < 8 ∨ wholeWords 0x1000 8 < 16 ∨ 32 ≤ wholeWords 0x1000 8 :=
  @memcpy_moves_iff .riscv64 0x1000 0x2000 8 (apart_of_le (by decide) (by decide))

/-- Sixteen aligned words are not copied at all. -/
theorem memcpy_loses_sixteen_words :
    Apart 0x1000 0x2000 128 ∧
    ∀ arch, ¬ Moves (fun x => if x = 0x2000 then 1 else 0) 0x1000 0x2000 128
      (memcpy arch (fun x => if x = 0x2000 then 1 else 0) 0x1000 0x2000 128) := by
  have hapart : Apart 0x1000 0x2000 128 := apart_of_le (by decide) (by decide)
  refine ⟨hapart, ?_⟩
  intro arch hmoves
  have hone := hmoves.1 0 (by decide)
  have hother := (@memcpy_copied arch (fun x => if x = 0x2000 then 1 else 0) 0x1000 0x2000 128
    hapart).outside 0 (by decide) (by decide)
  rw [hother] at hone
  exact absurd hone (by decide)

end Memcpy

/-! ## `memmove` -/

section Forward

variable {mem₀ mem : Memory} {d s : BitVec 64} {o n : Nat}

theorem copied_next (ahead : Ahead d s n) (small : n ≤ 2 ^ 64) (h : Copied mem₀ d s (· < o) mem)
    (fits : o + 1 ≤ n) :
    Copied mem₀ d s (· < o + 1) (copyElement 1 mem (addr d o) (addr s o) 0) := by
  rw [copyElement, Nat.mul_zero, addr_zero, addr_zero]
  apply (h.move (ahead.intact (Nat.le_refl o) fits) (by omega)).congr
  intro k _
  omega

theorem copied_alignForward {count : Nat} (ahead : Ahead d s n) (small : n ≤ 2 ^ 64)
    (h : Copied mem₀ d s (· < o) mem) (fits : o + count = n) :
    ∃ mem' o' count', alignForward mem (addr d o) (addr s o) count =
        (mem', addr d o', addr s o', count') ∧
      o' + count' = n ∧ Copied mem₀ d s (· < o') mem' := by
  induction count generalizing mem o with
  | zero => exact ⟨mem, o, 0, rfl, fits, h⟩
  | succ count ih =>
    rw [alignForward]
    split
    · rw [addr_next, addr_next]
      exact ih (copied_next ahead small h (by omega)) (by omega)
    · exact ⟨mem, o, count + 1, rfl, fits, h⟩

theorem copied_chunksForward {count : Nat} (ahead : Ahead d s n) (small : n ≤ 2 ^ 64)
    (h : Copied mem₀ d s (· < o) mem) (fits : o + count = n) :
    ∃ mem' o' count', chunksForward mem (addr d o) (addr s o) count =
        (mem', addr d o', addr s o', count') ∧
      o' + count' = n ∧ Copied mem₀ d s (· < o') mem' := by
  induction count using Nat.strong_induction_on generalizing mem o with
  | h count ih =>
    rw [chunksForward]
    split
    · have hchunk := copied_places 0 8 ahead small h (by omega)
      have hd : addr d o + 64 = addr d (o + 64) := addr_add
      have hs : addr s o + 64 = addr s (o + 64) := addr_add
      rw [hd, hs]
      exact ih (count - 64) (by omega) hchunk (by omega)
    · exact ⟨mem, o, count, rfl, fits, h⟩

theorem copied_bytesForward {count : Nat} (ahead : Ahead d s n) (small : n ≤ 2 ^ 64)
    (h : Copied mem₀ d s (· < o) mem) (fits : o + count = n) :
    Copied mem₀ d s (· < n) (bytesForward mem (addr d o) (addr s o) count) := by
  induction count generalizing mem o with
  | zero => exact h.congr (by omega)
  | succ count ih =>
    rw [bytesForward, addr_next, addr_next]
    exact ih (copied_next ahead small h (by omega)) (by omega)

/-- The forward path moves everything. -/
theorem copied_forward {dest src count : BitVec 64} (ahead : Ahead dest src count.toNat)
    (forward : dest < src ∨ dest ≥ src + count) (differ : dest ≠ src) :
    Copied mem dest src (· < count.toNat) (memmove mem dest src count) := by
  have hsmall : count.toNat ≤ 2 ^ 64 := Nat.le_of_lt count.isLt
  have hnone : Copied mem dest src (· < 0) mem := Copied.refl.congr (by simp)
  obtain ⟨mem₁, o₁, count₁, hhead, hsum₁, hcopied₁⟩ :=
    copied_alignForward ahead hsmall hnone (Nat.zero_add _)
  obtain ⟨mem₂, o₂, count₂, hchunks, hsum₂, hcopied₂⟩ :=
    copied_chunksForward ahead hsmall hcopied₁ hsum₁
  rw [addr_zero, addr_zero] at hhead
  rw [memmove, if_neg differ, if_pos forward, hhead]
  dsimp only
  rw [hchunks]
  exact copied_bytesForward ahead hsmall hcopied₂ hsum₂

end Forward

section Backward

variable {mem₀ mem : Memory} {d s : BitVec 64} {n r : Nat}

/-- Going backwards, no byte of the source is written before it is read. -/
def Behind (d s : BitVec 64) (n : Nat) : Prop := ∀ k < n, ∀ i < k, addr s i ≠ addr d k

theorem copied_previous (behind : Behind d s n) (small : n ≤ 2 ^ 64)
    (h : Copied mem₀ d s (fun k => r + 1 ≤ k ∧ k < n) mem) (fits : r + 1 ≤ n) :
    Copied mem₀ d s (fun k => r ≤ k ∧ k < n) (copyElement 1 mem (addr d r) (addr s r) 0) := by
  have hintact : Intact d s (fun k => r + 1 ≤ k ∧ k < n) r 1 := by
    intro i hlow hhigh k _ hk
    exact behind k hk.2 i (by omega)
  rw [copyElement, Nat.mul_zero, addr_zero, addr_zero]
  apply (h.move hintact (by omega)).congr
  intro k _
  omega

/-- The bytes from the last aligned place on. -/
theorem copied_alignBackward (behind : Behind d s n) (small : n ≤ 2 ^ 64)
    (h : Copied mem₀ d s (fun k => r ≤ k ∧ k < n) mem) (fits : r ≤ n) :
    ∃ mem', alignBackward mem (addr d r) (addr s r) r =
        (mem', addr d (r - (d.toNat + r) % 8), addr s (r - (d.toNat + r) % 8),
          r - (d.toNat + r) % 8) ∧
      Copied mem₀ d s (fun k => r - (d.toNat + r) % 8 ≤ k ∧ k < n) mem' := by
  induction r generalizing mem with
  | zero =>
    rw [Nat.zero_sub]
    exact ⟨mem, rfl, h⟩
  | succ r ih =>
    -- eight divides the size of the address space, so that a wrap leaves the alignment
    have hmod : (addr d (r + 1) &&& 7).toNat = (d.toNat + (r + 1)) % 8 := by
      rw [toNat_and_seven, addr, BitVec.toNat_add, BitVec.toNat_ofNat]
      omega
    rw [alignBackward]
    split
    · rename_i hodd
      have hne : (d.toNat + (r + 1)) % 8 ≠ 0 := by
        intro hzero
        apply hodd
        apply BitVec.eq_of_toNat_eq
        rw [hmod, hzero]
        rfl
      have hsame : r + 1 - (d.toNat + (r + 1)) % 8 = r - (d.toNat + r) % 8 := by omega
      rw [addr_prev, addr_prev, hsame]
      exact ih (copied_previous behind small h fits) (by omega)
    · rename_i heven
      rw [Decidable.not_not] at heven
      rw [heven] at hmod
      have hzero : (d.toNat + (r + 1)) % 8 = 0 := hmod.symm
      rw [hzero, Nat.sub_zero]
      exact ⟨mem, rfl, h⟩

theorem copied_bytesBackward (behind : Behind d s n) (small : n ≤ 2 ^ 64)
    (h : Copied mem₀ d s (fun k => r ≤ k ∧ k < n) mem) (fits : r ≤ n) :
    Copied mem₀ d s (· < n) (bytesBackward mem (addr d r) (addr s r) r) := by
  induction r generalizing mem with
  | zero => exact h.congr (by omega)
  | succ r ih =>
    rw [bytesBackward, addr_prev, addr_prev]
    exact ih (copied_previous behind small h fits) (by omega)

theorem copyWords_outside {x : BitVec 64} {moves : List (Int × Int)}
    (outside : ∀ move ∈ moves, ∀ k < 8, x ≠ addr (wordAddr d move.1) k) :
    copyWords mem d s moves x = mem x := by
  have hwritten : ∀ words : List (Int × List (BitVec 8)),
      (∀ word ∈ words, ∀ k < word.2.length, x ≠ addr (wordAddr d word.1) k) →
      ∀ mem : Memory,
        words.foldl (fun mem (target, word) => writeBytes mem (wordAddr d target) word) mem x =
          mem x := by
    intro words
    induction words with
    | nil => exact fun _ _ => rfl
    | cons word words ih =>
      intro hout mem
      rw [List.foldl_cons, ih (fun other hother => hout other (List.mem_cons_of_mem _ hother))]
      exact writeBytes_outside (hout word List.mem_cons_self)
  apply hwritten
  intro word hword
  obtain ⟨move, hmove, rfl⟩ := List.mem_map.mp hword
  rw [length_readBytes]
  exact outside move hmove

/-- A chunk writes nothing above itself, and not its lowest word. -/
theorem backwardMoves_outside {k : Nat} (hr : 64 ≤ r) (hk : k < 2 ^ 64) (small : r ≤ 2 ^ 64)
    (outside : k < r - 56 ∨ r ≤ k) :
    copyWords mem (addr d r) (addr s r) backwardMoves (addr d k) = mem (addr d k) := by
  apply copyWords_outside
  have hplaces : ∀ move ∈ backwardMoves, -7 ≤ move.1 ∧ move.1 ≤ -1 := by decide
  intro move hmove j hj heq
  have hrange := hplaces move hmove
  rw [wordAddr_addr (by omega), addr_add] at heq
  have hsame := addr_inj hk (by omega) heq
  omega

theorem chunksBackward_above (mem : Memory) {k : Nat} (hk : k < 2 ^ 64) (above : r ≤ k) :
    ∃ mem' r', chunksBackward mem (addr d r) (addr s r) r = (mem', addr d r', addr s r', r') ∧
      r' ≤ r ∧ mem' (addr d k) = mem (addr d k) := by
  induction r using Nat.strong_induction_on generalizing mem with
  | h r ih =>
    rw [chunksBackward]
    split
    · rename_i hlong
      have hd : addr d r - 64 = addr d (r - 64) := addr_sub hlong
      have hs : addr s r - 64 = addr s (r - 64) := addr_sub hlong
      obtain ⟨mem', r', heq, hle, hsame⟩ :=
        ih (r - 64) (by omega) (copyWords mem (addr d r) (addr s r) backwardMoves) (by omega)
      rw [backwardMoves_outside hlong hk (by omega) (Or.inr above)] at hsame
      rw [hd, hs]
      exact ⟨mem', r', heq, by omega, hsame⟩
    · exact ⟨mem, r, rfl, Nat.le_refl r, rfl⟩

theorem bytesBackward_above {k : Nat} (hk : k < 2 ^ 64) (above : r ≤ k) :
    bytesBackward mem (addr d r) (addr s r) r (addr d k) = mem (addr d k) := by
  induction r generalizing mem with
  | zero => rfl
  | succ r ih =>
    rw [bytesBackward, addr_prev, addr_prev, ih (by omega), copyElement, Nat.mul_zero, addr_zero,
      addr_zero]
    apply writeBytes_outside
    intro j hj heq
    rw [length_readBytes] at hj
    rw [addr_add] at heq
    have hsame := addr_inj hk (by omega) heq
    omega

variable {dest src count : BitVec 64}

/-- The backward path moves everything if no chunk is left after the alignment. -/
theorem copied_backward (behind : Behind dest src count.toNat)
    (backward : ¬ (dest < src ∨ dest ≥ src + count)) (differ : dest ≠ src)
    (short : count.toNat - (dest.toNat + count.toNat) % 8 < 64) :
    Copied mem dest src (· < count.toNat) (memmove mem dest src count) := by
  have hsmall : count.toNat ≤ 2 ^ 64 := Nat.le_of_lt count.isLt
  have hnone : Copied mem dest src (fun k => count.toNat ≤ k ∧ k < count.toNat) mem :=
    Copied.refl.congr (by simp)
  obtain ⟨mem', hhead, hcopied⟩ := copied_alignBackward behind hsmall hnone (Nat.le_refl _)
  rw [addr, addr, BitVec.ofNat_toNat, BitVec.setWidth_eq] at hhead
  rw [memmove, if_neg differ, if_neg backward, hhead]
  dsimp only
  rw [chunksBackward, if_neg (by omega)]
  exact copied_bytesBackward behind hsmall hcopied (by omega)

/-- Otherwise the lowest word of the first chunk keeps what it had. -/
theorem memmove_keeps_word (behind : Behind dest src count.toNat)
    (small : dest.toNat + count.toNat < 2 ^ 64) (backward : ¬ (dest < src ∨ dest ≥ src + count))
    (differ : dest ≠ src) {r : Nat} (hr : r = count.toNat - (dest.toNat + count.toNat) % 8)
    (long : 64 ≤ r) :
    memmove mem dest src count (addr dest (r - 64)) = mem (addr dest (r - 64)) := by
  have hnone : Copied mem dest src (fun k => count.toNat ≤ k ∧ k < count.toNat) mem :=
    Copied.refl.congr (by simp)
  obtain ⟨mem₁, hhead, hcopied⟩ := copied_alignBackward behind (by omega) hnone (Nat.le_refl _)
  rw [addr, addr, BitVec.ofNat_toNat, BitVec.setWidth_eq, ← hr] at hhead
  rw [← hr] at hcopied
  have hd : addr dest r - 64 = addr dest (r - 64) := addr_sub long
  have hs : addr src r - 64 = addr src (r - 64) := addr_sub long
  obtain ⟨mem₂, r', hchunks, hle, hkept⟩ := chunksBackward_above (d := dest) (s := src)
    (copyWords mem₁ (addr dest r) (addr src r) backwardMoves) (by omega) (Nat.le_refl (r - 64))
  have hloop : chunksBackward mem₁ (addr dest r) (addr src r) r =
      (mem₂, addr dest r', addr src r', r') := by
    rw [chunksBackward, if_pos long, hd, hs, hchunks]
  rw [memmove, if_neg differ, if_neg backward, hhead]
  dsimp only
  rw [hloop]
  dsimp only
  calc bytesBackward mem₂ (addr dest r') (addr src r') r' (addr dest (r - 64))
    _ = mem₂ (addr dest (r - 64)) := bytesBackward_above (by omega) hle
    _ = copyWords mem₁ (addr dest r) (addr src r) backwardMoves (addr dest (r - 64)) := hkept
    _ = mem₁ (addr dest (r - 64)) :=
      backwardMoves_outside long (by omega) (by omega) (Or.inl (by omega))
    _ = mem (addr dest (r - 64)) := hcopied.outside _ (by omega) (by omega)

end Backward

section Memmove

variable {mem : Memory} {dest src count : BitVec 64}

theorem addr_eq_iff {i k : Nat} (hd : dest.toNat + k < 2 ^ 64) (hs : src.toNat + i < 2 ^ 64) :
    addr src i = addr dest k ↔ src.toNat + i = dest.toNat + k := by
  rw [← BitVec.toNat_inj, toNat_addr hs, toNat_addr hd]

/-- The two paths, where neither buffer reaches the end of the address space. -/
theorem forward_iff (hs : src.toNat + count.toNat < 2 ^ 64) :
    dest < src ∨ dest ≥ src + count ↔
      ¬ (src.toNat ≤ dest.toNat ∧ dest.toNat < src.toNat + count.toNat) := by
  have hend : (src + count).toNat = src.toNat + count.toNat := by
    rw [BitVec.toNat_add, Nat.mod_eq_of_lt hs]
  rw [ge_iff_le, BitVec.lt_def, BitVec.le_def, hend]
  omega

theorem ahead_of_forward {n : Nat} (hd : dest.toNat + n ≤ 2 ^ 64) (hs : src.toNat + n ≤ 2 ^ 64)
    (apart : dest.toNat < src.toNat ∨ src.toNat + n ≤ dest.toNat) : Ahead dest src n := by
  intro i hi k hk
  rw [ne_eq, addr_eq_iff (by omega) (by omega)]
  omega

theorem behind_of_backward {n : Nat} (hd : dest.toNat + n ≤ 2 ^ 64)
    (above : src.toNat < dest.toNat) : Behind dest src n := by
  intro k hk i hi
  rw [ne_eq, addr_eq_iff (by omega) (by omega)]
  omega

theorem memmove_moves_iff (hd : dest.toNat + count.toNat < 2 ^ 64)
    (hs : src.toNat + count.toNat < 2 ^ 64) :
    (∀ mem, Moves mem dest src count.toNat (memmove mem dest src count)) ↔
      ¬ (src.toNat < dest.toNat ∧ dest.toNat < src.toNat + count.toNat ∧
        64 ≤ count.toNat - (dest.toNat + count.toNat) % 8) := by
  have hsmall : count.toNat ≤ 2 ^ 64 := Nat.le_of_lt count.isLt
  by_cases hsame : dest = src
  · -- nothing to move
    subst hsame
    constructor
    · omega
    · intro _ mem
      rw [memmove, if_pos rfl]
      exact ⟨fun _ _ => rfl, fun _ _ => rfl⟩
  have hdiffer : src.toNat ≠ dest.toNat := fun h => hsame (BitVec.eq_of_toNat_eq h.symm)
  by_cases hforward : dest < src ∨ dest ≥ src + count
  · have hapart := (forward_iff hs).mp hforward
    have hahead : Ahead dest src count.toNat := ahead_of_forward (by omega) (by omega) (by omega)
    constructor
    · omega
    · intro _ mem
      rw [moves_iff hsmall]
      exact copied_forward hahead hforward hsame
  · have hoverlap := mt (forward_iff hs).mpr hforward
    have hbehind : Behind dest src count.toNat := behind_of_backward (by omega) (by omega)
    constructor
    · intro hmoves hlong
      obtain ⟨r, hr⟩ : ∃ r, r = count.toNat - (dest.toNat + count.toNat) % 8 := ⟨_, rfl⟩
      -- one byte is set, the one for the place that is never written
      have hone := (hmoves (fun x => if x = addr src (r - 64) then 1 else 0)).1 (r - 64) (by omega)
      rw [memmove_keeps_word hbehind hd hforward hsame hr (by omega)] at hone
      have hne : addr dest (r - 64) ≠ addr src (r - 64) := by
        rw [ne_comm, ne_eq, addr_eq_iff (by omega) (by omega)]
        omega
      simp only [if_pos, if_neg hne] at hone
      exact absurd hone (by decide)
    · intro hshort mem
      rw [moves_iff hsmall]
      exact copied_backward hbehind hforward hsame (by omega)

theorem memmove_moves_iff_overlap :
    (∀ mem, Moves mem 0x1001 0x1000 8 (memmove mem 0x1001 0x1000 8)) ↔
      ¬ ((0x1000 : Nat) < 0x1001 ∧ 0x1001 < 0x1000 + 8 ∧ 64 ≤ 8 - (0x1001 + 8) % 8) :=
  @memmove_moves_iff 0x1001 0x1000 8 (by decide) (by decide)

/-- Moved up by eight bytes, the lowest of eight words is lost. -/
theorem memmove_loses_word :
    ¬ Moves (fun x => if x = 0x1000 then 1 else 0) 0x1008 0x1000 64
      (memmove (fun x => if x = 0x1000 then 1 else 0) 0x1008 0x1000 64) := by
  intro hmoves
  have hbehind : Behind 0x1008 0x1000 64 :=
    behind_of_backward (by decide) (by decide)
  have hone := hmoves.1 0 (by decide)
  rw [@memmove_keeps_word _ 0x1008 0x1000 64 hbehind (by decide) (by decide) (by decide) 64
    (by decide) (by decide)] at hone
  exact absurd hone (by decide)

end Memmove

end StdRoutines
