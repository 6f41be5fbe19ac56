import Mathlib.Data.BitVec
import AnosKernel.Lib.Masks
import AnosKernel.Lib.Orbits

/-!
# The MSI capability of a PCI device

`servers/ahcidrv/pci.c`. The capabilities of a device are linked by pointers in its configuration
space, which is the device's own memory.
-/

namespace PciCapability

open Masks Orbits

abbrev Byte := BitVec 8

/-- The memory from `pci_base` on; the configuration space is its first 256 bytes. -/
abbrev ConfigSpace := Nat → Byte

/-! ## The search -/

def pciCapabilityList : BitVec 16 := 0x34
def pciCapIdMsi : Byte := 0x05

def pciReadConfig32 (config : ConfigSpace) (offset : BitVec 16) : BitVec 32 :=
  let first := 4 * (offset.toNat / 4)
  config (first + 3) ++ config (first + 2) ++ config (first + 1) ++ config first

def pciReadConfig16 (config : ConfigSpace) (offset : BitVec 16) : BitVec 16 :=
  let dword := pciReadConfig32 config (offset &&& ~~~3)
  ((dword >>> ((offset &&& 3).toNat * 8)) &&& 0xFFFF).setWidth 16

def pciReadConfig8 (config : ConfigSpace) (offset : BitVec 16) : Byte :=
  let dword := pciReadConfig32 config (offset &&& ~~~3)
  ((dword >>> ((offset &&& 3).toNat * 8)) &&& 0xFF).setWidth 8

/-- The loop; none is that it still runs. -/
def searchFrom (config : ConfigSpace) : Nat → Byte → Option Byte
  | 0, _ => none
  | fuel + 1, capPtr =>
    if capPtr = 0 then some 0
    else
      let capId := pciReadConfig8 config (capPtr.setWidth 16)
      if capId = pciCapIdMsi then some capPtr
      else searchFrom config fuel (pciReadConfig8 config (capPtr.setWidth 16 + 1) &&& 0xFC)

def pciFindMsiCapability (config : ConfigSpace) (fuel : Nat) : Option Byte :=
  let status := pciReadConfig16 config 0x06
  if status &&& ((1 : BitVec 16) <<< 4) = 0 then some 0
  else searchFrom config fuel (pciReadConfig8 config pciCapabilityList &&& 0xFC)

/-! ## The chain of capabilities -/

/-- Bit 4 of the status register. -/
def HasCapabilities (config : ConfigSpace) : Prop := (config 0x06).getLsbD 4 = true

def firstCapability (config : ConfigSpace) : Byte := config 0x34 &&& 0xFC

def nextCapability (config : ConfigSpace) (capPtr : Byte) : Byte :=
  config (capPtr.toNat + 1) &&& 0xFC

/-- The pointers of the chain. -/
def chain (config : ConfigSpace) (n : Nat) : Byte :=
  (nextCapability config)^[n] (firstCapability config)

def IsMsi (config : ConfigSpace) (capPtr : Byte) : Prop := config capPtr.toNat = pciCapIdMsi

instance (config : ConfigSpace) (capPtr : Byte) : Decidable (IsMsi config capPtr) :=
  inferInstanceAs (Decidable (_ = _))

/-- The `n`th pointer is the first one to an MSI capability, and the chain has not ended before. -/
def FirstMsi (config : ConfigSpace) (n : Nat) : Prop :=
  chain config n ≠ 0 ∧ IsMsi config (chain config n) ∧
    ∀ m < n, chain config m ≠ 0 ∧ ¬ IsMsi config (chain config m)

/-- The answer that is to be given. -/
def IsAnswer (config : ConfigSpace) (answer : Byte) : Prop :=
  (HasCapabilities config ∧ ∃ n, FirstMsi config n ∧ answer = chain config n) ∨
    (¬ (HasCapabilities config ∧ ∃ n, FirstMsi config n) ∧ answer = 0)

/-- The search ends, with the right answer. -/
def FindsMsi (config : ConfigSpace) : Prop :=
  ∃ fuel answer, pciFindMsiCapability config fuel = some answer ∧ IsAnswer config answer

def Stops (config : ConfigSpace) (capPtr : Byte) : Prop := capPtr = 0 ∨ IsMsi config capPtr

instance (config : ConfigSpace) : DecidablePred (Stops config) :=
  fun _ => inferInstanceAs (Decidable (_ ∨ _))

/-- The chain meets a capability again before it ends or comes to an MSI capability. -/
def GoesRound (config : ConfigSpace) : Prop :=
  Circles (nextCapability config) (Stops config) (firstCapability config)

/-! ## Reading -/

theorem toNat_dword (b₀ b₁ b₂ b₃ : Byte) : (b₃ ++ b₂ ++ b₁ ++ b₀ : BitVec 32).toNat =
    b₀.toNat + 256 * (b₁.toNat + 256 * (b₂.toNat + 256 * b₃.toNat)) := by
  have h₀ := b₀.isLt
  have h₁ := b₁.isLt
  have h₂ := b₂.isLt
  rw [BitVec.toNat_append, BitVec.toNat_append, BitVec.toNat_append,
    ← Nat.shiftLeft_add_eq_or_of_lt h₂, ← Nat.shiftLeft_add_eq_or_of_lt h₁,
    ← Nat.shiftLeft_add_eq_or_of_lt h₀]
  simp only [Nat.shiftLeft_eq]
  omega

theorem getLsbD_dword (b₀ b₁ b₂ b₃ : Byte) :
    (b₃ ++ b₂ ++ b₁ ++ b₀ : BitVec 32).getLsbD 20 = b₂.getLsbD 4 := by
  show (b₃ ++ b₂ ++ b₁ ++ b₀).getLsbD 20 = _
  rw [BitVec.getLsbD_append, BitVec.getLsbD_append, BitVec.getLsbD_append]
  rfl

/-- The four bytes at a multiple of 4, whatever the offset in them is. -/
theorem toNat_pciReadConfig32 (config : ConfigSpace) (offset : BitVec 16) :
    let first := 4 * (offset.toNat / 4)
    (pciReadConfig32 config (offset &&& ~~~3)).toNat = (config first).toNat +
      256 * ((config (first + 1)).toNat + 256 * ((config (first + 2)).toNat +
        256 * (config (first + 3)).toNat)) := by
  have hmasked : (offset &&& ~~~3).toNat = offset.toNat / 4 * 4 :=
    toNat_and_high offset _ 2 (by decide) (by decide)
  have hfirst : 4 * ((offset &&& ~~~3).toNat / 4) = 4 * (offset.toNat / 4) := by omega
  rw [pciReadConfig32, hfirst]
  exact toNat_dword _ _ _ _

theorem pciReadConfig8_eq (config : ConfigSpace) (offset : BitVec 16) :
    pciReadConfig8 config offset = config offset.toNat := by
  have hdword := toNat_pciReadConfig32 config offset
  have hshift : (offset &&& 3).toNat = offset.toNat % 4 := toNat_and_low offset 3 2 (by decide)
  apply BitVec.eq_of_toNat_eq
  rw [pciReadConfig8]
  dsimp only at hdword ⊢
  rw [BitVec.toNat_setWidth, toNat_and_low _ _ 8 (by decide), BitVec.toNat_ushiftRight, hdword,
    hshift, Nat.shiftRight_eq_div_pow]
  generalize hfirst : 4 * (offset.toNat / 4) = first
  have h₀ := (config first).isLt
  have h₁ := (config (first + 1)).isLt
  have h₂ := (config (first + 2)).isLt
  have h₃ := (config (first + 3)).isLt
  have hsplit := Nat.div_add_mod offset.toNat 4
  have hmod := Nat.mod_lt offset.toNat (show 0 < 4 by decide)
  -- which of the four bytes it is
  rcases hr : offset.toNat % 4 with _ | _ | _ | _ | r
  · rw [show offset.toNat = first by omega]
    omega
  · rw [show offset.toNat = first + 1 by omega]
    omega
  · rw [show offset.toNat = first + 2 by omega]
    omega
  · rw [show offset.toNat = first + 3 by omega]
    omega
  · omega

theorem status_iff (config : ConfigSpace) :
    pciReadConfig16 config 0x06 &&& ((1 : BitVec 16) <<< 4) = 0 ↔ ¬ HasCapabilities config := by
  have hbit : (pciReadConfig16 config 0x06).getLsbD 4 = (config 0x06).getLsbD 4 := by
    have hdword : (pciReadConfig32 config 0x04).getLsbD 20 = (config 0x06).getLsbD 4 :=
      getLsbD_dword _ _ _ _
    rw [pciReadConfig16, BitVec.getLsbD_setWidth, BitVec.getLsbD_and, BitVec.getLsbD_ushiftRight]
    exact (Bool.and_true _).trans hdword
  rw [HasCapabilities, ← hbit]
  generalize pciReadConfig16 config 0x06 = status
  have htwo : (1 : BitVec 16) <<< 4 = BitVec.twoPow 16 4 := rfl
  rw [htwo, BitVec.and_twoPow]
  cases hfour : status.getLsbD 4 with
  | false => exact iff_of_true rfl Bool.false_ne_true
  | true => exact iff_of_false (by decide) fun h => h rfl

section Search

variable {config : ConfigSpace} {capPtr answer : Byte} {fuel n : Nat}

theorem searchFrom_eq (config : ConfigSpace) (fuel : Nat) (capPtr : Byte) :
    searchFrom config fuel capPtr = follow (nextCapability config) (Stops config) fuel capPtr := by
  induction fuel generalizing capPtr with
  | zero => rfl
  | succ fuel ih =>
    have hid : (capPtr.setWidth 16).toNat = capPtr.toNat :=
      BitVec.toNat_setWidth_of_le (by decide)
    have hlink : (capPtr.setWidth 16 + 1).toNat = capPtr.toNat + 1 := by
      rw [BitVec.toNat_add, hid]
      exact Nat.mod_eq_of_lt (by have := capPtr.isLt; simp; omega)
    rw [searchFrom, follow]
    dsimp only
    rw [pciReadConfig8_eq, pciReadConfig8_eq, hid, hlink, ih]
    by_cases hend : capPtr = 0
    · rw [if_pos hend, if_pos (show Stops config capPtr from Or.inl hend), hend]
    · rw [if_neg hend]
      by_cases hmsi : IsMsi config capPtr
      · rw [if_pos (show config capPtr.toNat = pciCapIdMsi from hmsi),
          if_pos (show Stops config capPtr from Or.inr hmsi)]
      · have hgo : ¬ Stops config capPtr := not_or.mpr ⟨hend, hmsi⟩
        rw [if_neg (show ¬ config capPtr.toNat = pciCapIdMsi from hmsi), if_neg hgo]
        rfl

theorem pciFindMsiCapability_of_none (hnone : ¬ HasCapabilities config) :
    pciFindMsiCapability config fuel = some 0 :=
  if_pos ((status_iff config).mpr hnone)

theorem pciFindMsiCapability_of_some (hsome : HasCapabilities config) :
    pciFindMsiCapability config fuel =
      follow (nextCapability config) (Stops config) fuel (firstCapability config) := by
  rw [← searchFrom_eq, firstCapability]
  have hlist : pciReadConfig8 config pciCapabilityList = config 0x34 := pciReadConfig8_eq config _
  rw [← hlist]
  exact if_neg fun h => (status_iff config).mp h hsome

/-- Where the search ends, its answer is right. -/
theorem isAnswer_of_end (h : pciFindMsiCapability config fuel = some answer) :
    IsAnswer config answer := by
  by_cases hsome : HasCapabilities config
  · rw [pciFindMsiCapability_of_some hsome] at h
    obtain ⟨k, -, hk, hstop, hbefore⟩ := follow_eq_some.mp h
    have hchain : ∀ m < k, chain config m ≠ 0 ∧ ¬ IsMsi config (chain config m) :=
      fun m hm => not_or.mp (hbefore m hm)
    by_cases hzero : answer = 0
    · refine Or.inr ⟨?_, hzero⟩
      rintro ⟨-, n, hne, hmsi, hfirst⟩
      -- the chain has ended at its `k`th pointer
      rcases Nat.lt_trichotomy n k with hlt | rfl | hlt
      · exact (hchain n hlt).2 hmsi
      · exact hne (hk.trans hzero)
      · exact (hfirst k hlt).1 (hk.trans hzero)
    · have hmsi : IsMsi config answer := hstop.resolve_left hzero
      refine Or.inl ⟨hsome, k, ⟨?_, ?_, hchain⟩, hk.symm⟩
      · rw [chain, hk]
        exact hzero
      · rw [chain, hk]
        exact hmsi
  · rw [pciFindMsiCapability_of_none hsome] at h
    cases h
    exact Or.inr ⟨fun hboth => hsome hboth.1, rfl⟩

end Search

instance : Finite Byte := Finite.of_injective BitVec.toFin fun _ _ => BitVec.eq_of_toFin_eq

/-- The search ends unless the chain goes round. -/
theorem ends_iff (config : ConfigSpace) :
    (∃ fuel answer, pciFindMsiCapability config fuel = some answer) ↔
      ¬ (HasCapabilities config ∧ GoesRound config) := by
  by_cases hsome : HasCapabilities config
  · simp only [pciFindMsiCapability_of_some hsome]
    rw [follow_ends_iff]
    exact not_congr (and_iff_right hsome).symm
  · exact iff_of_true ⟨0, 0, pciFindMsiCapability_of_none hsome⟩ fun hboth => hsome hboth.1

/-- The first MSI capability is found, or 0 is returned, unless the chain goes round. -/
theorem findsMsi_iff (config : ConfigSpace) :
    FindsMsi config ↔ ¬ (HasCapabilities config ∧ GoesRound config) := by
  rw [← ends_iff]
  constructor
  · rintro ⟨fuel, answer, h, -⟩
    exact ⟨fuel, answer, h⟩
  · rintro ⟨fuel, answer, h⟩
    exact ⟨fuel, answer, h, isAnswer_of_end h⟩

/-- A single capability, with a pointer to itself. -/
def selfLinked : ConfigSpace := fun offset =>
  if offset = 0x06 then 0x10 else if offset = 0x34 ∨ offset = 0x41 then 0x40 else 0

theorem selfLinked_never_ends : ¬ FindsMsi selfLinked := by
  rintro ⟨fuel, answer, h, -⟩
  refine (ends_iff selfLinked).mp ⟨fuel, answer, h⟩ ⟨rfl, 0, 1, Nat.zero_lt_one, rfl, ?_⟩
  intro k hk
  obtain rfl := Nat.lt_one_iff.mp hk
  exact not_or.mpr ⟨by decide, by decide⟩

end PciCapability
