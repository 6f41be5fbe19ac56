import Mathlib.Data.Nat.Bitwise
import Mathlib.Tactic.Ring

/-!
# Bit masks over machine words

Masking with a run of ones is arithmetic on the unsigned value: the low field is a
remainder, a high field is rounding down, and a field in the middle is both. The
lemmas are stated for words of any width, with the mask given by its two ends.
-/

namespace Masks

theorem nat_and_field (x k m : Nat) (hkm : k ≤ m) :
    x &&& (2 ^ m - 2 ^ k) = x % 2 ^ m / 2 ^ k * 2 ^ k := by
  have hmask : 2 ^ m - 2 ^ k = (2 ^ (m - k) - 1) <<< k := by
    rw [Nat.shiftLeft_eq, Nat.sub_mul, ← pow_add, Nat.sub_add_cancel hkm, one_mul]
  rw [hmask, ← Nat.shiftRight_eq_div_pow, ← Nat.shiftLeft_eq]
  apply Nat.eq_of_testBit_eq
  intro i
  simp only [Nat.testBit_land, Nat.testBit_shiftLeft, Nat.testBit_two_pow_sub_one,
    Nat.testBit_shiftRight, Nat.testBit_mod_two_pow]
  by_cases hi : k ≤ i
  · have he : k + (i - k) = i := by omega
    simp only [hi, he, decide_true, Bool.true_and]
    by_cases hm : i < m
    · have hk : i - k < m - k := by omega
      simp [hm, hk]
    · have hk : ¬ i - k < m - k := by omega
      simp [hm, hk]
  · simp [hi]

/-- Masking with the bits from `k` up to `m`: drop what is above, round down what is below. -/
theorem toNat_and_field {w : Nat} (x mask : BitVec w) (k m : Nat) (hkm : k ≤ m)
    (hmask : mask.toNat = 2 ^ m - 2 ^ k) :
    (x &&& mask).toNat = x.toNat % 2 ^ m / 2 ^ k * 2 ^ k := by
  rw [BitVec.toNat_and, hmask, nat_and_field _ _ _ hkm]

/-- Masking with all bits from `k` up rounds down to a multiple of `2 ^ k`. -/
theorem toNat_and_high {w : Nat} (x mask : BitVec w) (k : Nat) (hk : k ≤ w)
    (hmask : mask.toNat = 2 ^ w - 2 ^ k) :
    (x &&& mask).toNat = x.toNat / 2 ^ k * 2 ^ k := by
  rw [toNat_and_field x mask k w hk hmask, Nat.mod_eq_of_lt x.isLt]

/-- Masking with the low `k` bits is the remainder modulo `2 ^ k`. -/
theorem toNat_and_low {w : Nat} (x mask : BitVec w) (k : Nat)
    (hmask : mask.toNat = 2 ^ k - 1) :
    (x &&& mask).toNat = x.toNat % 2 ^ k := by
  rw [BitVec.toNat_and, hmask, Nat.and_two_pow_sub_one_eq_mod]

/-- The low `k` bits are all clear exactly on the multiples of `2 ^ k`. -/
theorem and_low_eq_zero_iff {w : Nat} {x mask : BitVec w} {k : Nat}
    (hmask : mask.toNat = 2 ^ k - 1) : x &&& mask = 0 ↔ x.toNat % 2 ^ k = 0 := by
  rw [← toNat_and_low x mask k hmask]
  constructor
  · intro h
    rw [h]
    simp
  · intro h
    exact BitVec.eq_of_toNat_eq (by simpa using h)

theorem getLsbD_one_shiftLeft {w i j : Nat} (hj : j < w) :
    (1#w <<< i).getLsbD j = decide (j = i) := by
  have htwo : 1#w <<< i = BitVec.twoPow w i := rfl
  rw [htwo, BitVec.getLsbD_twoPow]
  by_cases h : i = j
  · simp [h, hj]
  · have hne : j ≠ i := fun h' => h h'.symm
    simp [h, hne]

theorem eq_allOnes_iff {w : Nat} {x : BitVec w} :
    x = BitVec.allOnes w ↔ ∀ i < w, x.getLsbD i = true := by
  constructor
  · rintro rfl i hi
    simp [hi]
  · intro h
    apply BitVec.eq_of_getLsbD_eq
    intro i hi
    simp [h i hi, hi]

/-- A word that is not full has a lowest clear bit. -/
theorem find_clear {w : Nat} {x : BitVec w} (h : x ≠ BitVec.allOnes w) :
    ∃ n, (List.range w).find? ((~~~x).getLsbD ·) = some n ∧ n < w ∧ x.getLsbD n = false := by
  rw [ne_eq, eq_allOnes_iff] at h
  push Not at h
  obtain ⟨i, hi, hclear⟩ := h
  have hfound : ((List.range w).find? ((~~~x).getLsbD ·)).isSome := by
    rw [List.find?_isSome]
    exact ⟨i, List.mem_range.mpr hi, by simpa [hi] using hclear⟩
  obtain ⟨n, hn⟩ := Option.isSome_iff_exists.mp hfound
  have hlt : n < w := List.mem_range.mp (List.mem_of_find?_eq_some hn)
  have hset := List.find?_some hn
  exact ⟨n, hn, hlt, by simpa [hlt] using hset⟩

end Masks
