import Mathlib.Algebra.Order.Ring.Nat
import Mathlib.Data.List.Basic
import Mathlib.Logic.Function.Basic

/-!
# Bytes in memory

Memory is a map from addresses to bytes. Addresses wrap around, so that every address is found at
one distance from a given one. A copy that is under way is described by the distances that it has
reached.
-/

namespace Bytes

abbrev Memory := BitVec 64 → BitVec 8

/-- The address at a distance. -/
def addr (a : BitVec 64) (k : Nat) : BitVec 64 := a + BitVec.ofNat 64 k

def readBytes (mem : Memory) (a : BitVec 64) : Nat → List (BitVec 8)
  | 0 => []
  | n + 1 => mem a :: readBytes mem (a + 1) n

def writeBytes (mem : Memory) (a : BitVec 64) : List (BitVec 8) → Memory
  | [] => mem
  | b :: bytes => writeBytes (Function.update mem a b) (a + 1) bytes

section Addresses

variable {a x : BitVec 64} {i j k n : Nat}

@[simp] theorem addr_zero : addr a 0 = a := by
  rw [addr]
  exact BitVec.add_zero a

theorem addr_succ : addr (a + 1) k = addr a (k + 1) := by
  rw [addr, addr, BitVec.add_assoc, BitVec.ofNat_add, BitVec.add_comm (BitVec.ofNat 64 k)]
  rfl

theorem addr_add : addr (addr a i) j = addr a (i + j) := by
  rw [addr, addr, addr, BitVec.add_assoc, ← BitVec.ofNat_add]

theorem addr_next : addr a k + 1 = addr a (k + 1) := addr_add

theorem toNat_ofNat_of_lt {w : Nat} (h : n < 2 ^ w) : (BitVec.ofNat w n).toNat = n := by
  rw [BitVec.toNat_ofNat, Nat.mod_eq_of_lt h]

theorem toNat_addr (h : a.toNat + k < 2 ^ 64) : (addr a k).toNat = a.toNat + k := by
  rw [addr, BitVec.toNat_add, BitVec.toNat_ofNat, Nat.add_mod_mod, Nat.mod_eq_of_lt h]

theorem addr_sub (h : j ≤ k) : addr a k - BitVec.ofNat 64 j = addr a (k - j) := by
  have hsum : addr a k = addr a (k - j) + BitVec.ofNat 64 j := by
    rw [← Nat.sub_add_cancel h, ← addr_add, Nat.add_sub_cancel, addr]
  rw [hsum, BitVec.add_sub_cancel]

theorem addr_prev : addr a (k + 1) - 1 = addr a k := addr_sub (Nat.le_add_left 1 k)

theorem toNat_addr_sub (h : k < 2 ^ 64) : (addr a k - a).toNat = k := by
  rw [addr, BitVec.add_comm, BitVec.add_sub_cancel, toNat_ofNat_of_lt h]

theorem addr_inj (hi : i < 2 ^ 64) (hj : j < 2 ^ 64) (h : addr a i = addr a j) : i = j := by
  rw [← @toNat_addr_sub a i hi, h, toNat_addr_sub hj]

theorem addr_distance (a x : BitVec 64) : x = addr a (x - a).toNat := by
  rw [addr, BitVec.ofNat_toNat, BitVec.setWidth_eq, BitVec.add_comm, BitVec.sub_add_cancel]

theorem exists_addr (a x : BitVec 64) : ∃ k < 2 ^ 64, x = addr a k :=
  ⟨_, (x - a).isLt, addr_distance a x⟩

end Addresses

section Access

variable {mem mem' : Memory} {a x : BitVec 64} {k n : Nat} {bytes : List (BitVec 8)}

@[simp] theorem length_readBytes : (readBytes mem a n).length = n := by
  induction n generalizing a with
  | zero => rfl
  | succ n ih => rw [readBytes, List.length_cons, ih]

theorem getElem_readBytes (h : k < (readBytes mem a n).length) :
    (readBytes mem a n)[k] = mem (addr a k) := by
  induction n generalizing a k with
  | zero => exact absurd h (Nat.not_lt_zero k)
  | succ n ih =>
    cases k with
    | zero => simp [readBytes]
    | succ k =>
      rw [← addr_succ]
      exact ih (Nat.lt_of_succ_lt_succ h)

theorem readBytes_congr (same : ∀ k < n, mem (addr a k) = mem' (addr a k)) :
    readBytes mem a n = readBytes mem' a n := by
  apply List.ext_getElem
  · rw [length_readBytes, length_readBytes]
  · intro k hk hk'
    rw [getElem_readBytes hk, getElem_readBytes hk']
    exact same k (by rwa [length_readBytes] at hk)

theorem writeBytes_outside (outside : ∀ k < bytes.length, x ≠ addr a k) :
    writeBytes mem a bytes x = mem x := by
  induction bytes generalizing mem a with
  | nil => rfl
  | cons b bytes ih =>
    have hfirst : x ≠ a := by
      have h := outside 0 (Nat.succ_pos _)
      rwa [addr_zero] at h
    have hrest : ∀ k < bytes.length, x ≠ addr (a + 1) k := by
      intro k hk
      rw [addr_succ]
      exact outside (k + 1) (Nat.succ_lt_succ hk)
    rw [writeBytes, ih hrest, Function.update_of_ne hfirst]

theorem writeBytes_inside (small : bytes.length ≤ 2 ^ 64) (h : k < bytes.length) :
    writeBytes mem a bytes (addr a k) = bytes[k] := by
  induction bytes generalizing mem a k with
  | nil => exact absurd h (Nat.not_lt_zero k)
  | cons b bytes ih =>
    rw [List.length_cons] at small h
    cases k with
    | zero =>
      have houtside : ∀ k < bytes.length, addr a 0 ≠ addr (a + 1) k := by
        intro k hk heq
        rw [addr_succ] at heq
        exact absurd (addr_inj (by omega) (by omega) heq) (by omega)
      rw [writeBytes, writeBytes_outside houtside, addr_zero, Function.update_self]
      rfl
    | succ k =>
      rw [writeBytes, ← addr_succ]
      exact ih (by omega) (by omega)

/-- What was written is read back. -/
theorem readBytes_writeBytes (small : bytes.length ≤ 2 ^ 64) :
    readBytes (writeBytes mem a bytes) a bytes.length = bytes := by
  apply List.ext_getElem
  · exact length_readBytes
  · intro k hk hk'
    rw [getElem_readBytes hk, writeBytes_inside small hk']

end Access

/-! ## Numbers, the lowest byte first -/

def ofBytes : List (BitVec 8) → Nat
  | [] => 0
  | b :: bytes => b.toNat + 256 * ofBytes bytes

def toBytes : Nat → Nat → List (BitVec 8)
  | 0, _ => []
  | n + 1, v => BitVec.ofNat 8 v :: toBytes n (v / 256)

section Numbers

variable {n v : Nat}

@[simp] theorem length_toBytes : (toBytes n v).length = n := by
  induction n generalizing v with
  | zero => rfl
  | succ n ih => rw [toBytes, List.length_cons, ih]

/-- As much of a number as there is room for is read back. -/
theorem ofBytes_toBytes_mod : ofBytes (toBytes n v) = v % 256 ^ n := by
  induction n generalizing v with
  | zero =>
    rw [Nat.pow_zero, Nat.mod_one]
    rfl
  | succ n ih =>
    have hsplit : v % 256 ^ (n + 1) = v % 256 + 256 * (v / 256 % 256 ^ n) := by
      rw [Nat.pow_succ', Nat.mod_mul]
    rw [toBytes, ofBytes, ih, BitVec.toNat_ofNat, hsplit]

/-- A number that fits is read back. -/
theorem ofBytes_toBytes (fits : v < 256 ^ n) : ofBytes (toBytes n v) = v := by
  rw [ofBytes_toBytes_mod, Nat.mod_eq_of_lt fits]

theorem ofBytes_lt (bytes : List (BitVec 8)) : ofBytes bytes < 256 ^ bytes.length := by
  induction bytes with
  | nil => exact Nat.one_pos
  | cons b bytes ih =>
    have hb : b.toNat < 256 := b.isLt
    rw [ofBytes, List.length_cons, Nat.pow_succ']
    omega

theorem toBytes_ofBytes (bytes : List (BitVec 8)) :
    toBytes bytes.length (ofBytes bytes) = bytes := by
  induction bytes with
  | nil => rfl
  | cons b bytes ih =>
    have hb : b.toNat < 256 := b.isLt
    have hrest : (b.toNat + 256 * ofBytes bytes) / 256 = ofBytes bytes := by omega
    have hfirst : BitVec.ofNat 8 (b.toNat + 256 * ofBytes bytes) = b := by
      apply BitVec.eq_of_toNat_eq
      rw [BitVec.toNat_ofNat]
      omega
    rw [ofBytes, List.length_cons, toBytes, hrest, hfirst, ih]

end Numbers

/-! ## Fields of a record -/

section Fields

universe u

variable {α : Type u}

/-- The `n` elements from place `o` on. -/
def slice (o n : Nat) (l : List α) : List α := (l.drop o).take n

/-- Elements written from place `o` on. -/
def patch (l : List α) (o : Nat) (piece : List α) : List α :=
  l.take o ++ piece ++ l.drop (o + piece.length)

variable {l piece : List α} {o p n : Nat}

theorem length_slice (fits : o + n ≤ l.length) : (slice o n l).length = n := by
  rw [slice, List.length_take, List.length_drop]
  omega

/-- A slice of a slice. -/
theorem slice_slice {m : Nat} (inside : o + n ≤ m) :
    slice o n (slice p m l) = slice (p + o) n l := by
  rw [slice, slice, slice, List.drop_take, List.take_take, List.drop_drop,
    Nat.min_eq_left (by omega)]

theorem slice_readBytes {mem : Memory} {a : BitVec 64} {m : Nat} (inside : o + n ≤ m) :
    slice o n (readBytes mem a m) = readBytes mem (addr a o) n := by
  apply List.ext_getElem
  · rw [length_slice (by rw [length_readBytes]; exact inside), length_readBytes]
  · intro k hk hk'
    rw [length_slice (by rw [length_readBytes]; exact inside)] at hk
    simp only [slice, List.getElem_take, List.getElem_drop, getElem_readBytes, addr_add]

theorem slice_subset_take {k m : Nat} (h : o + k ≤ m) :
    slice o k l ⊆ l.take m := by
  have hslice : slice o k l = (l.take (o + k)).drop o := by
    rw [slice, List.drop_take, Nat.add_sub_cancel_left]
  rw [hslice]
  exact ((List.drop_sublist _ _).trans (List.take_sublist_take_left h)).subset

theorem slice_disjoint {k m j : Nat} (nodup : l.Nodup) (h : o + k ≤ m) :
    List.Disjoint (slice o k l) (slice m j l) := by
  rw [← List.take_append_drop m l, List.nodup_append] at nodup
  intro x hx hx'
  exact nodup.2.2 x (slice_subset_take h hx) x ((List.take_sublist _ _).subset hx') rfl

/-- Parts that follow one another. -/
theorem flatten_slices (o width count : Nat) (l : List α) :
    ((List.range count).map fun i => slice (o + width * i) width l).flatten =
      slice o (width * count) l := by
  induction count with
  | zero =>
    rw [Nat.mul_zero, slice, List.take_zero]
    rfl
  | succ count ih =>
    rw [List.range_succ, List.map_append, List.flatten_append, ih, List.map_singleton,
      List.flatten_singleton, slice, slice, slice, Nat.mul_succ, List.take_add, List.drop_drop]

theorem length_patch (fits : o + piece.length ≤ l.length) :
    (patch l o piece).length = l.length := by
  rw [patch, List.length_append, List.length_append, List.length_take, List.length_drop]
  omega

/-- A part of what was written is read back. -/
theorem slice_patch_inside (low : o ≤ p) (high : p + n ≤ o + piece.length) (fits : o ≤ l.length) :
    slice p n (patch l o piece) = slice (p - o) n piece := by
  have hlength : (l.take o).length = o := List.length_take_of_le fits
  rw [slice, slice, patch, List.append_assoc, List.drop_append, hlength,
    List.drop_of_length_le (by omega), List.nil_append, List.drop_append_of_le_length (by omega),
    List.take_append_of_le_length (by rw [List.length_drop]; omega)]

/-- What was written is read back. -/
theorem slice_patch (fits : o ≤ l.length) : slice o piece.length (patch l o piece) = piece := by
  rw [slice_patch_inside (Nat.le_refl o) (Nat.le_refl _) fits, slice, Nat.sub_self, List.drop_zero,
    List.take_length]

/-- A field that lies before. -/
theorem slice_patch_before (before : p + n ≤ o) (fits : o ≤ l.length) :
    slice p n (patch l o piece) = slice p n l := by
  have hlength : (l.take o).length = o := List.length_take_of_le fits
  rw [slice, slice, patch, List.append_assoc, List.drop_append_of_le_length (by omega),
    List.take_append_of_le_length (by rw [List.length_drop]; omega), List.drop_take, List.take_take,
    Nat.min_eq_left (by omega)]

/-- What lies after stays as it was. -/
theorem drop_patch_after (after : o + piece.length ≤ p) (fits : o ≤ l.length) :
    (patch l o piece).drop p = l.drop p := by
  have hlength : (l.take o ++ piece).length = o + piece.length := by
    rw [List.length_append, List.length_take_of_le fits]
  rw [patch, List.drop_append, hlength, List.drop_of_length_le (by omega), List.nil_append,
    List.drop_drop, Nat.add_sub_cancel' after]

theorem slice_patch_after (after : o + piece.length ≤ p) (fits : o ≤ l.length) :
    slice p n (patch l o piece) = slice p n l := by
  rw [slice, slice, drop_patch_after after fits]

theorem take_patch (fits : o ≤ l.length) :
    (patch l o piece).take (o + piece.length) = l.take o ++ piece := by
  apply List.take_left'
  rw [List.length_append, List.length_take_of_le fits]

theorem getElem?_patch_inside {k : Nat} (fits : o ≤ l.length) (inside : k < piece.length) :
    (patch l o piece)[o + k]? = piece[k]? := by
  have hlength : (l.take o).length = o := List.length_take_of_le fits
  rw [patch, List.append_assoc, List.getElem?_append_right (by omega), hlength,
    Nat.add_sub_cancel_left, List.getElem?_append_left inside]

theorem getElem?_patch_outside {k : Nat} (fits : o + piece.length ≤ l.length)
    (outside : k < o ∨ o + piece.length ≤ k) : (patch l o piece)[k]? = l[k]? := by
  have hlength : (l.take o).length = o := List.length_take_of_le (by omega)
  rw [patch, List.append_assoc]
  rcases outside with hk | hk
  · rw [List.getElem?_append_left (by omega), List.getElem?_take_of_lt hk]
  · rw [List.getElem?_append_right (by omega), hlength, List.getElem?_append_right (by omega),
      List.getElem?_drop]
    congr 1
    omega

/-- A patch of the second of two parts. -/
theorem patch_append_right {before : List α} :
    patch (before ++ l) (before.length + o) piece = before ++ patch l o piece := by
  rw [patch, patch, List.take_length_add_append, Nat.add_assoc, List.drop_length_add_append,
    List.append_assoc, List.append_assoc, List.append_assoc]

/-- A patch of the first of two parts. -/
theorem patch_append_left {after : List α} (fits : o + piece.length ≤ l.length) :
    patch (l ++ after) o piece = patch l o piece ++ after := by
  rw [patch, patch, List.take_append_of_le_length (by omega),
    List.drop_append_of_le_length fits, List.append_assoc, List.append_assoc, List.append_assoc]

/-- The middle of three parts is replaced by one of the same length. -/
theorem patch_middle {before old after : List α} (same : piece.length = old.length) :
    patch (before ++ old ++ after) before.length piece = before ++ piece ++ after := by
  have hdrop : (before ++ old ++ after).drop (before.length + piece.length) = after := by
    apply List.drop_left'
    rw [List.length_append, same]
  rw [patch, hdrop, List.append_assoc before old, List.take_left]

theorem length_records {β : Type u} {f : β → List α} {width : Nat} {records : List β}
    (sized : ∀ r, (f r).length = width) : (records.flatMap f).length = width * records.length := by
  induction records with
  | nil => rfl
  | cons first records ih =>
    rw [List.flatMap_cons, List.length_append, ih, sized first, List.length_cons, Nat.mul_succ,
      Nat.add_comm]

/-- Records that are told by their places. -/
theorem flatMap_range {β : Type u} {records : List β} {f : Nat → List α} {g : β → List α} {n : Nat}
    (length : n = records.length) (same : ∀ j r, records[j]? = some r → f j = g r) :
    (List.range n).flatMap f = records.flatMap g := by
  have hmap : (List.range n).map f = records.map g := by
    apply List.ext_getElem
    · rw [List.length_map, List.length_map, List.length_range, length]
    · intro j hj hj'
      rw [List.length_map] at hj'
      rw [List.getElem_map, List.getElem_map, List.getElem_range]
      exact same j records[j] (List.getElem?_eq_getElem hj')
  rw [List.flatMap_def, List.flatMap_def, hmap]

/-- One of several records of the same size. -/
theorem drop_flatMap {β : Type u} {f : β → List α} {width : Nat} {records : List β}
    (sized : ∀ r, (f r).length = width) {i : Nat} {r : β} (hi : records[i]? = some r)
    (rest : List α) :
    ∃ more, (records.flatMap f ++ rest).drop (i * width) = f r ++ more := by
  induction records generalizing i with
  | nil => cases hi
  | cons first records ih =>
    cases i with
    | zero =>
      cases hi
      rw [Nat.zero_mul, List.drop_zero, List.flatMap_cons, List.append_assoc]
      exact ⟨_, rfl⟩
    | succ i =>
      rw [List.getElem?_cons_succ] at hi
      rw [Nat.succ_mul, Nat.add_comm, ← List.drop_drop, List.flatMap_cons, List.append_assoc,
        List.drop_left' (sized first)]
      exact ih hi

end Fields

/-! ## Copies -/

/-- From `mem₀` on, the bytes at the distances of `done` were copied from `s` to `d`, and no other
byte was changed. -/
structure Copied (mem₀ : Memory) (d s : BitVec 64) (done : Nat → Prop) (mem : Memory) : Prop where
  inside : ∀ k < 2 ^ 64, done k → mem (addr d k) = mem₀ (addr s k)
  outside : ∀ k < 2 ^ 64, ¬ done k → mem (addr d k) = mem₀ (addr d k)

section Copies

variable {mem₀ mem mem' : Memory} {d s : BitVec 64} {done done' : Nat → Prop} {o n : Nat}

theorem Copied.refl : Copied mem₀ d s (fun _ => False) mem₀ :=
  ⟨fun _ _ h => h.elim, fun _ _ _ => rfl⟩

theorem Copied.congr (h : Copied mem₀ d s done mem) (same : ∀ k < 2 ^ 64, done k ↔ done' k) :
    Copied mem₀ d s done' mem :=
  ⟨fun k hk hdone => h.inside k hk ((same k hk).mpr hdone),
    fun k hk hnot => h.outside k hk (fun hdone => hnot ((same k hk).mp hdone))⟩

/-- The source bytes at distances `o` to `o + n` have not been written. -/
def Intact (d s : BitVec 64) (done : Nat → Prop) (o n : Nat) : Prop :=
  ∀ i, o ≤ i → i < o + n → ∀ k < 2 ^ 64, done k → addr s i ≠ addr d k

theorem Copied.read_eq (h : Copied mem₀ d s done mem) (intact : Intact d s done o n) :
    readBytes mem (addr s o) n = readBytes mem₀ (addr s o) n := by
  apply readBytes_congr
  intro i hi
  rw [addr_add]
  obtain ⟨k, hk, heq⟩ := exists_addr d (addr s (o + i))
  rw [heq]
  apply h.outside k hk
  intro hdone
  exact intact (o + i) (Nat.le_add_right o i) (Nat.add_lt_add_left hi o) k hk hdone heq

/-- A piece of the source is written to its place. -/
theorem Copied.write (h : Copied mem₀ d s done mem) (small : o + n ≤ 2 ^ 64) :
    Copied mem₀ d s (fun k => done k ∨ (o ≤ k ∧ k < o + n))
      (writeBytes mem (addr d o) (readBytes mem₀ (addr s o) n)) := by
  have hlength : (readBytes mem₀ (addr s o) n).length = n := length_readBytes
  have hpiece : ∀ k, o ≤ k → k < o + n →
      writeBytes mem (addr d o) (readBytes mem₀ (addr s o) n) (addr d k) = mem₀ (addr s k) := by
    intro k hlow hhigh
    have hk : k - o < (readBytes mem₀ (addr s o) n).length := by omega
    have hin := @writeBytes_inside mem (addr d o) (k - o) _ (by omega) hk
    rw [addr_add, Nat.add_sub_cancel' hlow, getElem_readBytes hk, addr_add,
      Nat.add_sub_cancel' hlow] at hin
    exact hin
  have hother : ∀ k < 2 ^ 64, ¬ (o ≤ k ∧ k < o + n) →
      writeBytes mem (addr d o) (readBytes mem₀ (addr s o) n) (addr d k) = mem (addr d k) := by
    intro k hk hnot
    apply writeBytes_outside
    intro i hi heq
    rw [addr_add] at heq
    have hsame := addr_inj hk (by omega) heq
    omega
  constructor
  · intro k hk hdone
    by_cases hin : o ≤ k ∧ k < o + n
    · exact hpiece k hin.1 hin.2
    · rw [hother k hk hin]
      exact h.inside k hk (hdone.resolve_right hin)
  · intro k hk hnot
    rw [hother k hk (fun hin => hnot (Or.inr hin))]
    exact h.outside k hk (fun hdone => hnot (Or.inl hdone))

/-- A piece is moved: read where it is now, and written to its place. -/
theorem Copied.move (h : Copied mem₀ d s done mem) (intact : Intact d s done o n)
    (small : o + n ≤ 2 ^ 64) :
    Copied mem₀ d s (fun k => done k ∨ (o ≤ k ∧ k < o + n))
      (writeBytes mem (addr d o) (readBytes mem (addr s o) n)) := by
  rw [h.read_eq intact]
  exact h.write small

end Copies

end Bytes
