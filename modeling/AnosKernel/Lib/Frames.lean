import Mathlib.Data.BitVec
import Mathlib.Data.List.Basic
import Mathlib.Data.List.Nodup
import Mathlib.Logic.Function.Basic
import Mathlib.Tactic.Ring

/-!
# Frames of saved registers

Memory is a map from addresses to words of eight bytes. A frame is a list of registers with their
places from a base on. Storing a frame and loading it gives back its registers, and pushing
registers and popping them in the opposite order is to store and load a frame.
-/

namespace Frames

universe u

abbrev Words := BitVec 64 → BitVec 64

def cell (base : BitVec 64) (k : Nat) : BitVec 64 := base + BitVec.ofNat 64 (8 * k)

variable {R : Type u} {base sp : BitVec 64} {mem : Words} {regs saved : R → BitVec 64}
  {frame : List (R × Nat)}

/-- The registers of the frame are at their places. -/
def Holds (mem : Words) (base : BitVec 64) (frame : List (R × Nat)) (regs : R → BitVec 64) :
    Prop :=
  ∀ p ∈ frame, mem (cell base p.2) = regs p.1

def storeAll (base : BitVec 64) (regs : R → BitVec 64) : List (R × Nat) → Words → Words
  | [], mem => mem
  | p :: frame, mem => storeAll base regs frame (Function.update mem (cell base p.2) (regs p.1))

theorem storeAll_append (frame others : List (R × Nat)) :
    storeAll base regs (frame ++ others) mem =
      storeAll base regs others (storeAll base regs frame mem) := by
  induction frame generalizing mem with
  | nil => rfl
  | cons p frame ih => exact ih

theorem cell_inj {i j : Nat} (hi : i < 2 ^ 61) (hj : j < 2 ^ 61)
    (h : cell base i = cell base j) : i = j := by
  have hword : BitVec.ofNat 64 (8 * i) = BitVec.ofNat 64 (8 * j) := by
    simpa only [cell, BitVec.add_right_inj] using h
  have hnat := congrArg BitVec.toNat hword
  simp only [BitVec.toNat_ofNat] at hnat
  omega

theorem cell_zero : cell base 0 = base := by simp [cell]

theorem cell_cell (i j : Nat) : cell (cell base i) j = cell base (i + j) := by
  unfold cell
  rw [BitVec.add_assoc, ← BitVec.ofNat_add, Nat.mul_add]

theorem cell_sub (top : BitVec 64) (n k : Nat) :
    cell (top - BitVec.ofNat 64 n) k = top - (BitVec.ofNat 64 n - BitVec.ofNat 64 (8 * k)) := by
  unfold cell
  ring

/-- No two registers of the frame have one place. -/
structure Apart (frame : List (R × Nat)) : Prop where
  nodup : (frame.map Prod.snd).Nodup
  bound : ∀ p ∈ frame, p.2 < 2 ^ 61

theorem Apart.tail {p : R × Nat} (apart : Apart (p :: frame)) : Apart frame where
  nodup := (List.nodup_cons.mp apart.nodup).2
  bound q hq := apart.bound q (List.mem_cons_of_mem _ hq)

theorem storeAll_other {a : BitVec 64} (h : ∀ p ∈ frame, a ≠ cell base p.2) :
    storeAll base regs frame mem a = mem a := by
  induction frame generalizing mem with
  | nil => rfl
  | cons p frame ih =>
    rw [storeAll, ih fun q hq => h q (List.mem_cons_of_mem _ hq)]
    exact Function.update_of_ne (h p List.mem_cons_self) _ _

theorem holds_storeAll (apart : Apart frame) :
    Holds (storeAll base regs frame mem) base frame regs := by
  induction frame generalizing mem with
  | nil =>
    intro p hp
    cases hp
  | cons p frame ih =>
    intro q hq
    rcases List.mem_cons.mp hq with rfl | hq
    · -- the places stored to after this one are others
      rw [storeAll, storeAll_other, Function.update_self]
      intro p hp heq
      have hplace := cell_inj (apart.bound q List.mem_cons_self)
        (apart.bound p (List.mem_cons_of_mem _ hp)) heq
      apply (List.nodup_cons.mp apart.nodup).1
      rw [hplace]
      exact List.mem_map_of_mem hp
    · exact ih apart.tail q hq

/-- A frame stays where nothing is stored to its places. -/
theorem Holds.kept {mem' : Words} (h : Holds mem base frame regs)
    (same : ∀ p ∈ frame, mem' (cell base p.2) = mem (cell base p.2)) :
    Holds mem' base frame regs := fun p hp => (same p hp).trans (h p hp)

section Loads

variable [DecidableEq R]

def loadAll (base : BitVec 64) (mem : Words) : List (R × Nat) → (R → BitVec 64) → R → BitVec 64
  | [], regs => regs
  | p :: frame, regs => loadAll base mem frame (Function.update regs p.1 (mem (cell base p.2)))

theorem loadAll_append (frame others : List (R × Nat)) :
    loadAll base mem (frame ++ others) regs =
      loadAll base mem others (loadAll base mem frame regs) := by
  induction frame generalizing regs with
  | nil => rfl
  | cons p frame ih => exact ih

theorem loadAll_other {r : R} (h : r ∉ frame.map Prod.fst) :
    loadAll base mem frame regs r = regs r := by
  induction frame generalizing regs with
  | nil => rfl
  | cons p frame ih =>
    rw [List.map_cons, List.mem_cons, not_or] at h
    rw [loadAll, ih h.2]
    exact Function.update_of_ne h.1 _ _

/-- A load of a frame gives back what the frame holds. -/
theorem loadAll_mem (h : Holds mem base frame saved) {r : R} (hr : r ∈ frame.map Prod.fst) :
    loadAll base mem frame regs r = saved r := by
  induction frame generalizing regs with
  | nil => cases hr
  | cons p frame ih =>
    have htail : Holds mem base frame saved := fun q hq => h q (List.mem_cons_of_mem _ hq)
    rw [loadAll]
    by_cases hin : r ∈ frame.map Prod.fst
    · exact ih htail hin
    · rw [loadAll_other hin]
      rw [List.map_cons, List.mem_cons] at hr
      have heq : r = p.1 := hr.resolve_right hin
      rw [heq, Function.update_self]
      exact h p List.mem_cons_self

end Loads

section Pushes

/-- The memory and the stack pointer after pushes. -/
def pushAll (regs : R → BitVec 64) : List R → Words × BitVec 64 → Words × BitVec 64
  | [], s => s
  | r :: rs, s => pushAll regs rs (Function.update s.1 (s.2 - 8) (regs r), s.2 - 8)

/-- The registers and the stack pointer after pops. -/
def popAll [DecidableEq R] (mem : Words) :
    List R → (R → BitVec 64) × BitVec 64 → (R → BitVec 64) × BitVec 64
  | [], x => x
  | r :: rs, x => popAll mem rs (Function.update x.1 r (mem x.2), x.2 + 8)

/-- The frame of registers that are popped in this order. -/
def stacked (rs : List R) : List (R × Nat) := rs.zipIdx

theorem apart_stacked {rs : List R} (h : rs.length < 2 ^ 61) : Apart (stacked rs) where
  nodup := by
    unfold stacked
    rw [List.zipIdx_map_snd]
    exact List.nodup_range'
  bound := by
    intro p hp
    unfold stacked at hp
    have hlt := List.snd_lt_of_mem_zipIdx hp
    omega

theorem popAll_eq [DecidableEq R] (rs : List R) (k : Nat) :
    popAll mem rs (regs, cell base k) =
      (loadAll base mem (rs.zipIdx k) regs, cell base (k + rs.length)) := by
  induction rs generalizing regs k with
  | nil => rfl
  | cons r rs ih =>
    have hnext : cell base k + 8 = cell base (k + 1) := by
      rw [← cell_cell]
      rfl
    rw [popAll]
    dsimp only
    rw [hnext, ih, List.zipIdx_cons, loadAll, List.length_cons, Nat.add_right_comm, Nat.add_assoc]

theorem pushAll_eq (rs : List R) :
    pushAll regs rs (mem, sp) =
      (storeAll (sp - BitVec.ofNat 64 (8 * rs.length)) regs (stacked rs.reverse).reverse mem,
        sp - BitVec.ofNat 64 (8 * rs.length)) := by
  induction rs generalizing mem sp with
  | nil => simp [pushAll, stacked, storeAll]
  | cons r rs ih =>
    have hsp : sp - 8 - BitVec.ofNat 64 (8 * rs.length) =
        sp - BitVec.ofNat 64 (8 * (r :: rs).length) := by
      rw [List.length_cons, Nat.mul_add, BitVec.ofNat_add]
      bv_omega
    have hplace : cell (sp - BitVec.ofNat 64 (8 * (r :: rs).length)) rs.length = sp - 8 := by
      rw [← hsp]
      unfold cell
      bv_omega
    have hframe : (stacked (r :: rs).reverse).reverse =
        (r, rs.length) :: (stacked rs.reverse).reverse := by
      unfold stacked
      rw [List.reverse_cons, List.zipIdx_append, List.reverse_append]
      simp
    rw [pushAll]
    dsimp only
    rw [ih, hsp, hframe, storeAll, hplace]

theorem pushAll_snd (rs : List R) :
    (pushAll regs rs (mem, sp)).2 = sp - BitVec.ofNat 64 (8 * rs.length) := by
  rw [pushAll_eq]

/-- The pushed registers are there for pops in the opposite order. -/
theorem holds_pushAll {rs : List R} (h : rs.length < 2 ^ 61) :
    Holds (pushAll regs rs (mem, sp)).1 (sp - BitVec.ofNat 64 (8 * rs.length))
      (stacked rs.reverse) regs := by
  have hapart : Apart (stacked rs.reverse) := by
    apply apart_stacked
    rwa [List.length_reverse]
  have hreverse : Apart (stacked rs.reverse).reverse := by
    refine ⟨?_, fun p hp => hapart.bound p (List.mem_reverse.mp hp)⟩
    rw [List.map_reverse]
    exact List.nodup_reverse.mpr hapart.nodup
  rw [pushAll_eq]
  exact fun p hp => holds_storeAll hreverse p (List.mem_reverse.mpr hp)

theorem pushAll_other {rs : List R} {a : BitVec 64}
    (h : ∀ k < rs.length, a ≠ cell (sp - BitVec.ofNat 64 (8 * rs.length)) k) :
    (pushAll regs rs (mem, sp)).1 a = mem a := by
  rw [pushAll_eq]
  apply storeAll_other
  intro p hp
  apply h
  have hlt := List.snd_lt_of_mem_zipIdx (List.mem_reverse.mp hp)
  rwa [List.length_reverse, Nat.add_zero] at hlt

theorem popAll_base [DecidableEq R] (rs : List R) :
    popAll mem rs (regs, base) =
      (loadAll base mem (stacked rs) regs, cell base rs.length) := by
  have heq : popAll mem rs (regs, cell base 0) =
      (loadAll base mem (rs.zipIdx 0) regs, cell base (0 + rs.length)) := popAll_eq rs 0
  rwa [cell_zero, Nat.zero_add] at heq

end Pushes

end Frames
