import AnosKernel.StdRoutines

/-!
# Moving memory on x86_64

`memmove` of `kernel/arch/x86_64/std_routines.c`. It takes the two ways that the one of riscv64
takes, but a chunk is moved in two halves: four words are loaded and stored before the next four
are loaded. The fence after the stores that bypass the cache orders nothing that the CPU itself can
see.
-/

namespace StdRoutines.X8664

open Bytes

def chunkForward (mem : Memory) (d s : BitVec 64) : Memory :=
  let mem := copyWords mem d s (samePlaces [0, 1, 2, 3])
  copyWords mem d s (samePlaces [4, 5, 6, 7])

def chunksForward (mem : Memory) (d s : BitVec 64) (count : Nat) :
    Memory × BitVec 64 × BitVec 64 × Nat :=
  if count ≥ 64 then
    chunksForward (chunkForward mem d s) (d + 64) (s + 64) (count - 64)
  else (mem, d, s, count)

def chunkBackward (mem : Memory) (d s : BitVec 64) : Memory :=
  let mem := copyWords mem d s (samePlaces [-1, -2, -3, -4])
  copyWords mem d s (samePlaces [-5, -6, -7, -8])

def chunksBackward (mem : Memory) (d s : BitVec 64) (count : Nat) :
    Memory × BitVec 64 × BitVec 64 × Nat :=
  if count ≥ 64 then
    chunksBackward (chunkBackward mem d s) (d - 64) (s - 64) (count - 64)
  else (mem, d, s, count)

def memmove (mem : Memory) (dest src count : BitVec 64) : Memory :=
  if dest = src then mem
  else if dest < src ∨ dest ≥ src + count then
    let (mem, d, s, count) := alignForward mem dest src count.toNat
    let (mem, d, s, count) := chunksForward mem d s count
    bytesForward mem d s count
  else
    let (mem, d, s, count) := alignBackward mem (dest + count) (src + count) count.toNat
    let (mem, d, s, count) := chunksBackward mem d s count
    bytesBackward mem d s count

section Chunks

variable {mem₀ mem : Memory} {d s : BitVec 64} {n o r : Nat}

theorem copied_chunkForward (ahead : Ahead d s n) (small : n ≤ 2 ^ 64)
    (h : Copied mem₀ d s (· < o) mem) (fits : o + 64 ≤ n) :
    Copied mem₀ d s (· < o + 64) (chunkForward mem (addr d o) (addr s o)) := by
  have hhalf := copied_places 0 4 ahead small h (by omega)
  exact copied_places 4 4 ahead small hhalf (by omega)

theorem copied_chunksForward {count : Nat} (ahead : Ahead d s n) (small : n ≤ 2 ^ 64)
    (h : Copied mem₀ d s (· < o) mem) (fits : o + count = n) :
    ∃ mem' o' count', chunksForward mem (addr d o) (addr s o) count =
        (mem', addr d o', addr s o', count') ∧
      o' + count' = n ∧ Copied mem₀ d s (· < o') mem' := by
  induction count using Nat.strong_induction_on generalizing mem o with
  | h count ih =>
    rw [chunksForward]
    split
    · have hd : addr d o + 64 = addr d (o + 64) := addr_add
      have hs : addr s o + 64 = addr s (o + 64) := addr_add
      rw [hd, hs]
      apply ih (count - 64)
      · omega
      · exact copied_chunkForward ahead small h (by omega)
      · omega
    · exact ⟨mem, o, count, rfl, fits, h⟩

/-- Words below a place, which go downwards. A later word lies below everything that was written,
so that what it is read from is still the source. -/
theorem copied_placesBelow (first number : Nat) (behind : Behind d s n) (small : n ≤ 2 ^ 64)
    (h : Copied mem₀ d s (fun k => r - 8 * first ≤ k ∧ k < n) mem)
    (fits : 8 * (first + number) ≤ r) (hr : r ≤ n) :
    Copied mem₀ d s (fun k => r - 8 * (first + number) ≤ k ∧ k < n)
      (copyWords mem (addr d r) (addr s r)
        (samePlaces ((List.range' (first + 1) number).map fun j : Nat => -(j : Int)))) := by
  have hplaces : ∀ i ∈ (List.range' (first + 1) number).map (fun j : Nat => -(j : Int)),
      -((first : Int) + number) ≤ i ∧ i ≤ -((first : Int) + 1) := by
    intro i hi
    obtain ⟨j, hj, rfl⟩ := List.mem_map.mp hi
    rw [List.mem_range'_1] at hj
    omega
  have hwords := copied_words (o := r) _ h
    (fun i hi => by have := hplaces i hi; omega) (fun i hi => by have := hplaces i hi; omega)
    (fun i hi => by
      intro x hlow hhigh k _ hk
      have := hplaces i hi
      exact behind k hk.2 x (by omega))
  apply hwords.congr
  intro k _
  constructor
  · rintro (hk | ⟨i, hi, hlow, hhigh⟩)
    · omega
    · have := hplaces i hi
      omega
  · intro hk
    by_cases hbefore : r - 8 * first ≤ k
    · exact Or.inl ⟨hbefore, hk.2⟩
    · right
      refine ⟨-(((r - 1 - k) / 8 + 1 : Nat) : Int), List.mem_map_of_mem ?_, ?_, ?_⟩
      · rw [List.mem_range'_1]
        omega
      · omega
      · omega

theorem copied_chunkBackward (behind : Behind d s n) (small : n ≤ 2 ^ 64)
    (h : Copied mem₀ d s (fun k => r ≤ k ∧ k < n) mem) (long : 64 ≤ r) (hr : r ≤ n) :
    Copied mem₀ d s (fun k => r - 64 ≤ k ∧ k < n) (chunkBackward mem (addr d r) (addr s r)) := by
  have hhalf := copied_placesBelow 0 4 behind small h (by omega) hr
  exact copied_placesBelow 4 4 behind small hhalf (by omega) hr

theorem copied_chunksBackward (behind : Behind d s n) (small : n ≤ 2 ^ 64)
    (h : Copied mem₀ d s (fun k => r ≤ k ∧ k < n) mem) (hr : r ≤ n) :
    ∃ mem' r', chunksBackward mem (addr d r) (addr s r) r = (mem', addr d r', addr s r', r') ∧
      r' ≤ n ∧ Copied mem₀ d s (fun k => r' ≤ k ∧ k < n) mem' := by
  induction r using Nat.strong_induction_on generalizing mem with
  | h r ih =>
    rw [chunksBackward]
    split
    · rename_i hlong
      have hd : addr d r - 64 = addr d (r - 64) := addr_sub hlong
      have hs : addr s r - 64 = addr s (r - 64) := addr_sub hlong
      rw [hd, hs]
      apply ih (r - 64)
      · omega
      · exact copied_chunkBackward behind small h hlong hr
      · omega
    · exact ⟨mem, r, rfl, hr, h⟩

end Chunks

section Memmove

variable {mem : Memory} {dest src count : BitVec 64}

theorem copied_forward (ahead : Ahead dest src count.toNat)
    (forward : dest < src ∨ dest ≥ src + count) (differ : dest ≠ src) :
    Copied mem dest src (· < count.toNat) (memmove mem dest src count) := by
  have hsmall : count.toNat ≤ 2 ^ 64 := Nat.le_of_lt count.isLt
  have hnone : Copied mem dest src (· < 0) mem := Copied.refl.congr (by simp)
  obtain ⟨mem₁, o₁, count₁, hhead, hsum₁, hcopied₁⟩ :=
    copied_alignForward ahead hsmall hnone (Nat.zero_add _)
  obtain ⟨mem₂, o₂, count₂, hchunks, hsum₂, hcopied₂⟩ :=
    copied_chunksForward ahead hsmall hcopied₁ hsum₁
  rw [addr_zero, addr_zero] at hhead
  rw [memmove, if_neg differ, if_pos forward, hhead]
  dsimp only
  rw [hchunks]
  exact copied_bytesForward ahead hsmall hcopied₂ hsum₂

theorem copied_backward (behind : Behind dest src count.toNat)
    (backward : ¬ (dest < src ∨ dest ≥ src + count)) (differ : dest ≠ src) :
    Copied mem dest src (· < count.toNat) (memmove mem dest src count) := by
  have hsmall : count.toNat ≤ 2 ^ 64 := Nat.le_of_lt count.isLt
  have hnone : Copied mem dest src (fun k => count.toNat ≤ k ∧ k < count.toNat) mem :=
    Copied.refl.congr (by simp)
  obtain ⟨mem₁, hhead, hcopied₁⟩ := copied_alignBackward behind hsmall hnone (Nat.le_refl _)
  obtain ⟨mem₂, r₂, hchunks, hr₂, hcopied₂⟩ :=
    copied_chunksBackward behind hsmall hcopied₁ (Nat.sub_le _ _)
  rw [addr, addr, BitVec.ofNat_toNat, BitVec.setWidth_eq] at hhead
  rw [memmove, if_neg differ, if_neg backward, hhead]
  dsimp only
  rw [hchunks]
  exact copied_bytesBackward behind hsmall hcopied₂ hr₂

/-- The path that is taken never writes a byte of the source before it is read. A source that ends
with the address space is followed by the address 0, and then every destination counts as above it;
but none of them can lie above the source there. -/
theorem ahead_or_behind (hd : dest.toNat + count.toNat ≤ 2 ^ 64)
    (hs : src.toNat + count.toNat ≤ 2 ^ 64) (differ : dest ≠ src) :
    (dest < src ∨ dest ≥ src + count → Ahead dest src count.toNat) ∧
      (¬ (dest < src ∨ dest ≥ src + count) → Behind dest src count.toNat) := by
  have hne : dest.toNat ≠ src.toNat := fun h => differ (BitVec.eq_of_toNat_eq h)
  have hend : (src + count).toNat = (src.toNat + count.toNat) % 2 ^ 64 := BitVec.toNat_add _ _
  rw [ge_iff_le, BitVec.lt_def, BitVec.le_def, hend]
  constructor
  · intro hforward
    apply ahead_of_forward hd hs
    omega
  · intro hbackward
    apply behind_of_backward hd
    omega

/-- Whatever way the buffers overlap, everything is moved. -/
theorem memmove_moves (mem : Memory) (dest src count : BitVec 64)
    (hd : dest.toNat + count.toNat ≤ 2 ^ 64) (hs : src.toNat + count.toNat ≤ 2 ^ 64) :
    Moves mem dest src count.toNat (memmove mem dest src count) := by
  by_cases hsame : dest = src
  · subst hsame
    rw [memmove, if_pos rfl]
    exact ⟨fun _ _ => rfl, fun _ _ => rfl⟩
  · have hsmall : count.toNat ≤ 2 ^ 64 := Nat.le_of_lt count.isLt
    obtain ⟨hahead, hbehind⟩ := ahead_or_behind hd hs hsame
    rw [moves_iff hsmall]
    by_cases hforward : dest < src ∨ dest ≥ src + count
    · exact copied_forward (hahead hforward) hforward hsame
    · exact copied_backward (hbehind hforward) hforward hsame

/-- Eight words moved up by one word. -/
theorem memmove_moves_overlap :
    Moves (fun x => BitVec.ofNat 8 x.toNat) 0x1008 0x1000 64
      (memmove (fun x => BitVec.ofNat 8 x.toNat) 0x1008 0x1000 64) :=
  memmove_moves _ 0x1008 0x1000 64 (by decide) (by decide)

end Memmove

end StdRoutines.X8664
