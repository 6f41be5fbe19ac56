import AnosKernel.FbaAlloc
import Mathlib.Order.Bounds.Basic

/-!
# The search for a run of blocks

`find_unset_run` of `kernel/fba/alloc.c` has a loop for at most 64 blocks and a loop for more of
them, which differ in one assignment. Both start a run only at a multiple of the alignment and
never start another while one goes on, so that the run they end with is the first one there is.
-/

namespace FbaAlloc

/-- One turn of either loop, where `skip` is what it does to a run that cannot start here. -/
def searchWord (skip : Run → Run) (alignMask : BitVec 64) (n : Nat) (word : BitVec 64)
    (wordIdx : Nat) (run : Run) : Scan :=
  if word = 0 then
    if run.consecZeroes = 0 ∧
        alignedStart alignMask (wordIdx * 64) ≠ BitVec.ofNat 64 (wordIdx * 64) then
      .passed (skip run)
    else
      let startBit := if run.consecZeroes = 0 then wordIdx * 64 else run.startBit
      let consecZeroes := run.consecZeroes + 64
      if consecZeroes ≥ n then .found startBit else .passed ⟨consecZeroes, startBit⟩
  else if word = 0xffffffffffffffff then .passed { run with consecZeroes := 0 }
  else scanBits alignMask n word wordIdx 64 0 run

def searchWords (skip : Run → Run) (alignMask : BitVec 64) (n : Nat) (bitmap : Bitmap) :
    Nat → Nat → Run → Scan
  | 0, _, run => .passed run
  | turns + 1, wordIdx, run =>
    match searchWord skip alignMask n (bitmap wordIdx) wordIdx run with
    | .found bit => .found bit
    | .passed run => searchWords skip alignMask n bitmap turns (wordIdx + 1) run

def searchQuads (skip : Run → Run) (bitmap : Bitmap) (numQuads : Nat) (alignPageCount : BitVec 8)
    (n : Nat) : Nat :=
  match searchWords skip (alignPageCount.setWidth 64 - 1) n bitmap numQuads 0 ⟨0, 0⟩ with
  | .found bit => bit
  | .passed _ => numQuads <<< 6

/-- The loop for at most 64 blocks sets the length of the run to zero once more. -/
def findShortRun : Bitmap → Nat → BitVec 8 → Nat → Nat :=
  searchQuads fun run => { run with consecZeroes := 0 }

/-- The loop for more than 64 blocks. -/
def findLongRun : Bitmap → Nat → BitVec 8 → Nat → Nat :=
  searchQuads fun run => run

/-- `find_unset_run` with its two loops. -/
def findUnsetRunLoops (bitmap : Bitmap) (numQuads : Nat) (alignPageCount : BitVec 8) (n : Nat) :
    Nat :=
  if n = 0 ∨ numQuads = 0 then 0
  else if n ≤ 64 then findShortRun bitmap numQuads alignPageCount n
  else findLongRun bitmap numQuads alignPageCount n

section Loops

variable {skip : Run → Run} {alignMask : BitVec 64} {bitmap : Bitmap} {n : Nat}

theorem searchWord_eq (idle : ∀ run : Run, run.consecZeroes = 0 → skip run = run) (pos_n : 0 < n)
    (word : BitVec 64) (wordIdx : Nat) (run : Run) :
    searchWord skip alignMask n word wordIdx run = scanWord alignMask n word wordIdx run := by
  rw [searchWord, scanWord]
  by_cases hzero : word = 0
  · simp only [if_pos hzero, Run.extend]
    by_cases hnone : run.consecZeroes = 0
    · by_cases haligned : alignedStart alignMask (wordIdx * 64) = BitVec.ofNat 64 (wordIdx * 64)
      · simp [hnone, haligned]
      · have hshort : ¬ n = 0 := by omega
        simp [hnone, haligned, hshort, idle run hnone]
    · simp [hnone]
  · simp only [if_neg hzero]

theorem searchWords_eq (idle : ∀ run : Run, run.consecZeroes = 0 → skip run = run) (pos_n : 0 < n)
    (turns wordIdx : Nat) (run : Run) :
    searchWords skip alignMask n bitmap turns wordIdx run =
      scanWords alignMask n bitmap turns wordIdx run := by
  induction turns generalizing wordIdx run with
  | zero => rfl
  | succ turns ih =>
    rw [searchWords, scanWords, searchWord_eq idle pos_n]
    cases scanWord alignMask n (bitmap wordIdx) wordIdx run with
    | found bit => rfl
    | passed run' => exact ih (wordIdx + 1) run'

end Loops

/-! ## No run is missed -/

/-- Before `pos` there is no run of `n` bits, and the run that reaches `pos` is the longest. -/
structure Run.Earliest (run : Run) (bitmap : Bitmap) (align n pos : Nat) : Prop where
  none : ∀ start, ¬ ClearFrom bitmap align n pos start
  short : run.consecZeroes < n
  first : ∀ start < pos, align ∣ start → (∀ i, start ≤ i → i < pos → bit bitmap i = false) →
    run.consecZeroes ≠ 0 ∧ run.startBit ≤ start

/-- Nothing starts before the run that is found; behind the last turn nothing was missed. -/
def Scan.Complete (bitmap : Bitmap) (align n pos : Nat) : Scan → Prop
  | .found start => ∀ start' pos', ClearFrom bitmap align n pos' start' → start ≤ start'
  | .passed run => run.Earliest bitmap align n pos

section Complete

variable {bitmap : Bitmap} {alignMask : BitVec 64} {k n pos wordIdx width : Nat} {run : Run}

theorem Run.extend_le (run : Run) (alignMask : BitVec 64) (width pos : Nat) :
    (run.extend alignMask width pos).consecZeroes ≤ run.consecZeroes + width := by
  rw [Run.extend]
  split_ifs
  · exact Nat.le_add_right _ _
  · exact Nat.le_add_left _ _
  · exact Nat.le_refl _

/-- A run that goes on over clear bits starts before every other that reaches them. -/
theorem Run.Earliest.extend_first (h : run.Earliest bitmap (2 ^ k) n pos)
    (clear : run.Clear bitmap (2 ^ k) pos) (mask : alignMask.toNat = 2 ^ k - 1) (hk : k ≤ 64)
    (place : width = 1 ∨ 2 ^ k ∣ pos) {start : Nat} (lt : start < pos + width)
    (aligned : 2 ^ k ∣ start) (bits : ∀ i, start ≤ i → i < pos → bit bitmap i = false) :
    (run.extend alignMask width pos).startBit ≤ start ∧
      (run.extend alignMask width pos).startBit + (run.extend alignMask width pos).consecZeroes =
        pos + width := by
  rw [Run.extend]
  by_cases hbefore : start < pos
  · obtain ⟨hrun, hle⟩ := h.first start hbefore aligned bits
    obtain ⟨hend, -, -⟩ := clear.resolve_left hrun
    rw [if_neg hrun]
    exact ⟨hle, by simp only; omega⟩
  · by_cases hrun : run.consecZeroes = 0
    · -- a run can start here: one bit is the start itself, a word starts at a multiple
      have hplace : 2 ^ k ∣ pos := by
        rcases place with hone | hplace
        · obtain rfl : start = pos := by omega
          exact aligned
        · exact hplace
      have haligned := (@alignedStart_eq_iff alignMask k pos mask hk).mpr hplace
      rw [if_pos hrun, if_neg (not_not.mpr haligned)]
      exact ⟨by simp only; omega, rfl⟩
    · obtain ⟨hend, -, -⟩ := clear.resolve_left hrun
      rw [if_neg hrun]
      exact ⟨by simp only; omega, by simp only; omega⟩

theorem Run.Earliest.extend (h : run.Earliest bitmap (2 ^ k) n pos)
    (clear : run.Clear bitmap (2 ^ k) pos) (mask : alignMask.toNat = 2 ^ k - 1) (hk : k ≤ 64)
    (place : width = 1 ∨ 2 ^ k ∣ pos) (short : (run.extend alignMask width pos).consecZeroes < n) :
    (run.extend alignMask width pos).Earliest bitmap (2 ^ k) n (pos + width) := by
  constructor
  · intro start ⟨haligned, hend, hbits⟩
    by_cases hbefore : start + n ≤ pos
    · exact h.none start ⟨haligned, hbefore, hbits⟩
    · have hreach := h.extend_first clear mask hk place (show start < pos + width by omega) haligned
        (fun i hge hlt => by
          have hbit := hbits (i - start) (by omega)
          rwa [Nat.add_sub_cancel' hge] at hbit)
      omega
  · exact short
  · intro start hlt haligned hbits
    have hreach := h.extend_first clear mask hk place hlt haligned
      (fun i hge hpos => hbits i hge (by omega))
    omega

theorem Run.Earliest.found (h : run.Earliest bitmap (2 ^ k) n pos)
    (clear : run.Clear bitmap (2 ^ k) pos) (mask : alignMask.toNat = 2 ^ k - 1) (hk : k ≤ 64)
    (place : width = 1 ∨ 2 ^ k ∣ pos)
    (reach : (run.extend alignMask width pos).Clear bitmap (2 ^ k) (pos + width)) (pos_n : 0 < n)
    (long : n ≤ (run.extend alignMask width pos).consecZeroes) {start pos' : Nat}
    (other : ClearFrom bitmap (2 ^ k) n pos' start) :
    (run.extend alignMask width pos).startBit ≤ start := by
  obtain ⟨haligned, -, hbits⟩ := other
  obtain ⟨hend, -, -⟩ := reach.resolve_left (by omega)
  by_cases hbefore : start + n ≤ pos
  · exact absurd ⟨haligned, hbefore, hbits⟩ (h.none start)
  · by_cases hlt : start < pos + width
    · refine (h.extend_first clear mask hk place hlt haligned fun i hge hpos => ?_).1
      have hbit := hbits (i - start) (by omega)
      rwa [Nat.add_sub_cancel' hge] at hbit
    · omega

/-- Bits that are set end every run. -/
theorem Run.Earliest.reset {align : Nat} (h : run.Earliest bitmap align n pos) (pos_n : 0 < n)
    (pos_width : 0 < width) (set : ∀ i < width, bit bitmap (pos + i) = true) :
    ({ run with consecZeroes := 0 } : Run).Earliest bitmap align n (pos + width) := by
  have hset : ∀ i, pos ≤ i → i < pos + width → bit bitmap i ≠ false := by
    intro i hge hlt
    have hbit := set (i - pos) (by omega)
    rw [Nat.add_sub_cancel' hge] at hbit
    simp [hbit]
  constructor
  · intro start ⟨haligned, hend, hbits⟩
    by_cases hbefore : start + n ≤ pos
    · exact h.none start ⟨haligned, hbefore, hbits⟩
    · apply hset (start + (n - 1)) (by omega) (by omega)
      exact hbits (n - 1) (by omega)
  · exact pos_n
  · intro start hlt haligned hbits
    have hlast := hbits (pos + width - 1) (by omega) (by omega)
    exact absurd hlast (hset _ (by omega) (by omega))

theorem scanBits_complete (mask : alignMask.toNat = 2 ^ k - 1) (hk : k ≤ 64) (pos_n : 0 < n)
    {turns bitIdx : Nat} (hturns : bitIdx + turns = 64)
    (clear : run.Clear bitmap (2 ^ k) (wordIdx * 64 + bitIdx))
    (h : run.Earliest bitmap (2 ^ k) n (wordIdx * 64 + bitIdx)) :
    (scanBits alignMask n (bitmap wordIdx) wordIdx turns bitIdx run).Complete bitmap (2 ^ k) n
      ((wordIdx + 1) * 64) := by
  induction turns generalizing bitIdx run with
  | zero =>
    have hend : wordIdx * 64 + bitIdx = (wordIdx + 1) * 64 := by omega
    rw [scanBits, ← hend]
    exact h
  | succ turns ih =>
    have hbit : bitIdx < 64 := by omega
    have hvalue := @and_one_shiftLeft_eq_zero bitIdx (bitmap wordIdx) hbit
    rw [← bit_of_word hbit] at hvalue
    rw [scanBits]
    by_cases hzero : bitmap wordIdx &&& (1#64 <<< bitIdx) = 0
    · have hreach : (run.extend alignMask 1 (wordIdx * 64 + bitIdx)).Clear bitmap (2 ^ k)
          (wordIdx * 64 + bitIdx + 1) := by
        apply clear.extend mask hk
        intro i hi
        obtain rfl : i = 0 := by omega
        exact hvalue.mp hzero
      simp only [if_pos hzero]
      split_ifs with hlong
      · intro start pos' hother
        exact h.found clear mask hk (Or.inl rfl) hreach pos_n (Nat.le_of_eq hlong.symm) hother
      · apply ih (by omega) hreach
        apply h.extend clear mask hk (Or.inl rfl)
        have hshort := h.short
        have hle := run.extend_le alignMask 1 (wordIdx * 64 + bitIdx)
        omega
    · rw [if_neg hzero]
      apply ih (by omega) (Or.inl rfl)
      apply h.reset pos_n Nat.one_pos
      intro i hi
      obtain rfl : i = 0 := by omega
      exact Bool.eq_true_of_not_eq_false (fun hclear => hzero (hvalue.mpr hclear))

theorem scanWord_complete (mask : alignMask.toNat = 2 ^ k - 1) (hk : k ≤ 6) (pos_n : 0 < n)
    (clear : run.Clear bitmap (2 ^ k) (wordIdx * 64))
    (h : run.Earliest bitmap (2 ^ k) n (wordIdx * 64)) :
    (scanWord alignMask n (bitmap wordIdx) wordIdx run).Complete bitmap (2 ^ k) n
      ((wordIdx + 1) * 64) := by
  have hplace : 2 ^ k ∣ wordIdx * 64 := Dvd.dvd.mul_left (Nat.pow_dvd_pow 2 hk) wordIdx
  rw [scanWord]
  by_cases hzero : bitmap wordIdx = 0
  · have hreach : (run.extend alignMask 64 (wordIdx * 64)).Clear bitmap (2 ^ k)
        (wordIdx * 64 + 64) := by
      apply clear.extend mask (by omega)
      intro i hi
      rw [bit_of_word hi, hzero]
      exact BitVec.getLsbD_zero
    simp only [if_pos hzero]
    split_ifs with hlong
    · intro start pos' hother
      exact h.found clear mask (by omega) (Or.inr hplace) hreach pos_n hlong hother
    · rw [Nat.add_mul, Nat.one_mul]
      exact h.extend clear mask (by omega) (Or.inr hplace) (by omega)
  · rw [if_neg hzero]
    split_ifs with hfull
    · rw [Nat.add_mul, Nat.one_mul]
      apply h.reset pos_n (by decide)
      intro i hi
      have hones : (0xffffffffffffffff : BitVec 64) = BitVec.allOnes 64 := by decide
      rw [bit_of_word hi, hfull, hones, BitVec.getLsbD_allOnes]
      exact decide_eq_true hi
    · exact scanBits_complete mask (by omega) pos_n rfl clear h

theorem scanWords_complete (mask : alignMask.toNat = 2 ^ k - 1) (hk : k ≤ 6) (pos_n : 0 < n)
    {turns : Nat} (clear : run.Clear bitmap (2 ^ k) (wordIdx * 64))
    (h : run.Earliest bitmap (2 ^ k) n (wordIdx * 64)) :
    (scanWords alignMask n bitmap turns wordIdx run).Complete bitmap (2 ^ k) n
      ((wordIdx + turns) * 64) := by
  induction turns generalizing wordIdx run with
  | zero => exact h
  | succ turns ih =>
    have hsound := scanWord_sound mask (by omega) pos_n clear
    have hword := scanWord_complete mask hk pos_n clear h
    have hpos : (wordIdx + (turns + 1)) * 64 = (wordIdx + 1 + turns) * 64 := by omega
    rw [scanWords, hpos]
    cases hscan : scanWord alignMask n (bitmap wordIdx) wordIdx run with
    | found start =>
      rw [hscan] at hword
      exact hword
    | passed run' =>
      rw [hscan] at hsound hword
      exact ih hsound hword

end Complete

section Answer

variable {bitmap : Bitmap} {numQuads n : Nat} {align : BitVec 8}

/-- Both loops are the one search. -/
theorem searchQuads_eq {skip : Run → Run}
    (idle : ∀ run : Run, run.consecZeroes = 0 → skip run = run) (pos_n : 0 < n) :
    searchQuads skip bitmap numQuads align n = findUnsetRun bitmap numQuads align n := by
  rw [searchQuads, findUnsetRun, searchWords_eq idle pos_n]
  split_ifs with hnone
  · obtain rfl := hnone.resolve_left (by omega)
    rfl
  · rfl

theorem findShortRun_eq (pos_n : 0 < n) :
    findShortRun bitmap numQuads align n = findUnsetRun bitmap numQuads align n := by
  apply searchQuads_eq _ pos_n
  intro run hnone
  rw [← hnone]

theorem findLongRun_eq (pos_n : 0 < n) :
    findLongRun bitmap numQuads align n = findUnsetRun bitmap numQuads align n :=
  searchQuads_eq (fun _ _ => rfl) pos_n

/-- The answer is the first place with room for the run, or the number of bits. -/
theorem findUnsetRun_isLeast {k : Nat} (hk : k ≤ 6) (pow : align.toNat = 2 ^ k) (pos_n : 0 < n) :
    IsLeast {start | ClearFrom bitmap align.toNat n (numQuads * 64) start}
        (findUnsetRun bitmap numQuads align n) ∨
      (∀ start, ¬ ClearFrom bitmap align.toNat n (numQuads * 64) start) ∧
        findUnsetRun bitmap numQuads align n = numQuads * 64 := by
  have hstart : Run.Earliest ⟨0, 0⟩ bitmap (2 ^ k) n (0 * 64) := by
    constructor
    · intro start hclear
      have hend := hclear.2.1
      omega
    · exact pos_n
    · intro start hlt
      exact absurd hlt (Nat.not_lt_zero start)
  have hsound := @scanWords_sound bitmap (align.setWidth 64 - 1) k n 0 ⟨0, 0⟩
    (toNat_alignMask pow) (by omega) pos_n numQuads (Or.inl rfl)
  have hcomplete := @scanWords_complete bitmap (align.setWidth 64 - 1) k n 0 ⟨0, 0⟩
    (toNat_alignMask pow) hk pos_n numQuads (Or.inl rfl) hstart
  rw [Nat.zero_add, ← pow] at hsound hcomplete
  rw [findUnsetRun]
  split_ifs with hnone
  · obtain rfl := hnone.resolve_left (by omega)
    exact Or.inr ⟨hcomplete.none, rfl⟩
  · cases hscan : scanWords (align.setWidth 64 - 1) n bitmap numQuads 0 ⟨0, 0⟩ with
    | found start =>
      rw [hscan] at hsound hcomplete
      exact Or.inl ⟨hsound, fun start' hother => hcomplete start' _ hother⟩
    | passed run =>
      rw [hscan] at hcomplete
      exact Or.inr ⟨hcomplete.none, Nat.shiftLeft_eq numQuads 6⟩

/-- Both loops of `find_unset_run` answer the first aligned run of `n` clear bits in the bitmap,
or the number of its bits when there is none. -/
theorem find_unset_run_is_first_fit (bitmap : Bitmap) (numQuads : Nat) (align : BitVec 8)
    (k n : Nat) (hk : k ≤ 6) (pow : align.toNat = 2 ^ k) (pos_n : 1 ≤ n) :
    (IsLeast {start | ClearFrom bitmap align.toNat n (64 * numQuads) start}
          (findUnsetRunLoops bitmap numQuads align n) ∨
        (∀ start, ¬ ClearFrom bitmap align.toNat n (64 * numQuads) start) ∧
          findUnsetRunLoops bitmap numQuads align n = 64 * numQuads) ∧
      findShortRun bitmap numQuads align n = findLongRun bitmap numQuads align n := by
  have hloops : findUnsetRunLoops bitmap numQuads align n =
      findUnsetRun bitmap numQuads align n := by
    rw [findUnsetRunLoops, findShortRun_eq pos_n, findLongRun_eq pos_n, ite_self]
    split_ifs with hnone
    · rw [findUnsetRun, if_pos hnone]
    · rfl
  rw [hloops, Nat.mul_comm 64]
  exact ⟨findUnsetRun_isLeast hk pow pos_n,
    (findShortRun_eq pos_n).trans (findLongRun_eq pos_n).symm⟩

/-- A run of 66 bits that starts in the middle of a word. -/
theorem find_unset_run_is_first_fit_spanning :
    IsLeast {start | ClearFrom (fun word => if word = 0 then 0x3fffffffffffff1f else 0) 2 66
        (64 * 3) start}
      (findUnsetRunLoops (fun word => if word = 0 then 0x3fffffffffffff1f else 0) 3 2 66) ∧
    findUnsetRunLoops (fun word => if word = 0 then 0x3fffffffffffff1f else 0) 3 2 66 = 62 := by
  have hanswer :
      findUnsetRunLoops (fun word => if word = 0 then 0x3fffffffffffff1f else 0) 3 2 66 = 62 := by
    decide +kernel
  refine ⟨?_, hanswer⟩
  rcases (find_unset_run_is_first_fit (fun word => if word = 0 then 0x3fffffffffffff1f else 0) 3 2
    1 66 (by decide) (by decide) (by decide)).1 with hleast | ⟨-, hnone⟩
  · exact hleast
  · rw [hanswer] at hnone
    exact absurd hnone (by decide)

end Answer

end FbaAlloc
