import Mathlib.Data.List.Basic
import Mathlib.Data.List.Monad
import Mathlib.Tactic.Ring

/-!
# Enumeration of PCI functions

`servers/pcidrv/pci.c`, `servers/pcidrv/enumerate.c` and `servers/pcidrv/main.c`, without the
debugging builds. Configuration space is read through the linear mapping that the driver has asked
for; a read outside it is a page fault, and ends the driver.
-/

namespace PciEnumeration

structure PCIBusDriver where
  ecamBase : BitVec 64
  segment : BitVec 16
  busStart : BitVec 8
  busEnd : BitVec 8
  mappedEcam : BitVec 64
  mappedSize : BitVec 64

def ecamBaseAddress : BitVec 64 := 0x9000000000

/-- `pci_initialize_driver`, where the mapping is made. -/
def pciInitializeDriver (ecamBase : BitVec 64) (segment : BitVec 16) (busStart busEnd : BitVec 8) :
    PCIBusDriver :=
  let numBuses : BitVec 32 := busEnd.setWidth 32 - busStart.setWidth 32 + 1
  { ecamBase, segment, busStart, busEnd, mappedEcam := ecamBaseAddress
    mappedSize := (numBuses * 1024 * 1024).setWidth 64 }

/-- A function of a device on a bus. -/
structure PciFunction where
  bus : BitVec 8
  device : BitVec 8
  function : BitVec 8
  deriving DecidableEq

structure PciDeviceInfo where
  parentId : BitVec 64
  vendorId : BitVec 16
  deviceId : BitVec 16
  place : PciFunction
  classCode : BitVec 8
  subclass : BitVec 8
  progIf : BitVec 8
  configBase : BitVec 64
  deriving DecidableEq

/-- What stands outside the driver: the words of physical memory, and the answer of DEVMAN to a
registration, if its channel is found. -/
structure World where
  word : BitVec 64 → BitVec 32
  devman : PciDeviceInfo → Option (BitVec 64)

/-- Where the linear mapping leads. -/
def translate (driver : PCIBusDriver) (virtual : BitVec 64) : Option (BitVec 64) :=
  if virtual - driver.mappedEcam < driver.mappedSize then
    some (driver.ecamBase + (virtual - driver.mappedEcam))
  else none

/-- `config_addr`. -/
def configAddr (driver : PCIBusDriver) (f : PciFunction) (offset : BitVec 8) : BitVec 64 :=
  driver.mappedEcam +
    ((f.bus.setWidth 64 - driver.busStart.setWidth 64) <<< 20 ||| f.device.setWidth 64 <<< 15 |||
      f.function.setWidth 64 <<< 12 ||| offset.setWidth 64)

section Reads

variable (world : World) (driver : PCIBusDriver) (f : PciFunction)

def pciConfigRead32 (offset : BitVec 8) : Option (BitVec 32) :=
  (translate driver (configAddr driver f offset)).map world.word

def pciConfigRead16 (offset : BitVec 8) : Option (BitVec 16) :=
  (pciConfigRead32 world driver f (offset &&& ~~~3)).map fun (dword : BitVec 32) =>
    (dword >>> ((offset &&& 3).toNat * 8)).setWidth 16

def pciConfigRead8 (offset : BitVec 8) : Option (BitVec 8) :=
  (pciConfigRead32 world driver f (offset &&& ~~~3)).map fun (dword : BitVec 32) =>
    (dword >>> ((offset &&& 3).toNat * 8)).setWidth 8

def pciDeviceExists : Option Bool :=
  (pciConfigRead16 world driver f 0x00).map fun (vendorId : BitVec 16) =>
    vendorId ≠ 0xFFFF ∧ vendorId ≠ 0x0000

end Reads

/-- The address that is passed on, to DEVMAN and to the AHCI driver. -/
def pciConfigBase (driver : PCIBusDriver) (f : PciFunction) : BitVec 64 :=
  driver.ecamBase + f.bus.setWidth 64 <<< 20 + f.device.setWidth 64 <<< 15 +
    f.function.setWidth 64 <<< 12

/-- What others are told about a function. -/
inductive Told where
  | registered (info : PciDeviceInfo)
  | spawnedAhci (ahciBase pciConfigBase pciDeviceId : BitVec 64)
  deriving DecidableEq

def Told.configBase : Told → BitVec 64
  | .registered info => info.configBase
  | .spawnedAhci _ base _ => base

section Enumerate

variable (world : World) (driver : PCIBusDriver) (pciBusDeviceId : BitVec 64)

/-- The device's number at DEVMAN, 0 without one, and what DEVMAN is told. -/
def registerPciDevice (info : PciDeviceInfo) : BitVec 64 × List Told :=
  match world.devman info with
  | none => (0, [])
  | some id => (id, [.registered info])

def pciEnumerateFunction (f : PciFunction) : Option (List (PciFunction × Told)) := do
  if ¬ (← pciDeviceExists world driver f) then return []
  let vendorId ← pciConfigRead16 world driver f 0x00
  let deviceId ← pciConfigRead16 world driver f 0x02
  let classD ← pciConfigRead32 world driver f 0x08
  let classCode := (classD >>> 24).setWidth 8
  let subclass := (classD >>> 16).setWidth 8
  let progIf := (classD >>> 8).setWidth 8
  let (pciDeviceId, told) := registerPciDevice world
    { parentId := pciBusDeviceId, vendorId, deviceId, place := f, classCode, subclass, progIf
      configBase := pciConfigBase driver f }
  if classCode = 0x01 ∧ subclass = 0x06 ∧ progIf = 0x01 then
    let bar5Low ← pciConfigRead32 world driver f 0x24
    if bar5Low ≠ 0 ∧ bar5Low ≠ 0xFFFFFFFF then
      let ahciBase := (bar5Low &&& 0xFFFFFFF0).setWidth 64
      let told := told ++ [.spawnedAhci ahciBase (pciConfigBase driver f) pciDeviceId]
      return told.map (f, ·)
  return told.map (f, ·)

def pciEnumerateDevice (bus device : BitVec 8) : Option (List (PciFunction × Told)) := do
  let first : PciFunction := ⟨bus, device, 0⟩
  if ¬ (← pciDeviceExists world driver first) then return []
  let headerType ← pciConfigRead8 world driver first 0x0E
  let told ← pciEnumerateFunction world driver pciBusDeviceId first
  if headerType &&& 0x80 ≠ 0 then
    let others ← [1, 2, 3, 4, 5, 6, 7].mapM fun function =>
      pciEnumerateFunction world driver pciBusDeviceId ⟨bus, device, function⟩
    return told ++ others.flatten
  return told

def pciEnumerateBus (bus : BitVec 8) : Option (List (PciFunction × Told)) := do
  let told ← (List.range 32).mapM fun device =>
    pciEnumerateDevice world driver pciBusDeviceId bus (BitVec.ofNat 8 device)
  return told.flatten

/-- The buses are counted with 16 bits. -/
def pciEnumerateAllBuses : Option (List (PciFunction × Told)) := do
  let first := driver.busStart.toNat
  let told ← (List.range' first (driver.busEnd.toNat + 1 - first)).mapM fun bus =>
    pciEnumerateBus world driver pciBusDeviceId (BitVec.ofNat 8 bus)
  return told.flatten

end Enumerate

/-! ## Addresses -/

/-- The functions that the mapping has room for. -/
structure InRange (driver : PCIBusDriver) (f : PciFunction) : Prop where
  first : driver.busStart.toNat ≤ f.bus.toNat
  last : f.bus.toNat ≤ driver.busEnd.toNat
  device : f.device.toNat < 32
  function : f.function.toNat < 8

/-- The base is where the function's configuration space is read, all of it inside the mapped
range. -/
def Agrees (driver : PCIBusDriver) (f : PciFunction) (base : BitVec 64) : Prop :=
  (∀ offset : BitVec 8,
    translate driver (configAddr driver f offset) = some (base + offset.setWidth 64)) ∧
  (base - driver.ecamBase).toNat + 4096 ≤ driver.mappedSize.toNat

/-- The page of a function's configuration space, counted from bus `first`. -/
def page (first : Nat) (f : PciFunction) : Nat :=
  (f.bus.toNat - first) * 256 + f.device.toNat * 8 + f.function.toNat

section Addresses

variable {driver : PCIBusDriver} {f : PciFunction}

theorem page_lt (first : Nat) (range : InRange driver f) :
    page first f < (f.bus.toNat - first + 1) * 256 := by
  have hdevice := range.device
  have hfunction := range.function
  rw [page]
  omega

theorem toNat_byte (b : BitVec 8) : (b.setWidth 64).toNat = b.toNat := by
  have hb := b.isLt
  rw [BitVec.toNat_setWidth, Nat.mod_eq_of_lt (by omega)]

theorem toNat_byte_shiftLeft {b : BitVec 8} {k : Nat} (hk : k ≤ 20) :
    (b.setWidth 64 <<< k).toNat = b.toNat <<< k := by
  have hpow : 2 ^ k ≤ 2 ^ 20 := Nat.pow_le_pow_right (by decide) hk
  have hprod : b.toNat * 2 ^ k ≤ 2 ^ 8 * 2 ^ 20 := Nat.mul_le_mul (Nat.le_of_lt b.isLt) hpow
  rw [BitVec.toNat_shiftLeft, toNat_byte, Nat.mod_eq_of_lt]
  rw [Nat.shiftLeft_eq]
  omega

theorem toNat_busOffset (range : InRange driver f) :
    ((f.bus.setWidth 64 - driver.busStart.setWidth 64) <<< 20).toNat =
      (f.bus.toNat - driver.busStart.toNat) <<< 20 := by
  have hfirst := range.first
  have hsub : f.bus.setWidth 64 - driver.busStart.setWidth 64 =
      (f.bus - driver.busStart).setWidth 64 := by
    apply BitVec.eq_of_toNat_eq
    rw [BitVec.toNat_sub_of_le, toNat_byte, toNat_byte, toNat_byte, BitVec.toNat_sub_of_le hfirst]
    rw [BitVec.le_def, toNat_byte, toNat_byte]
    exact hfirst
  rw [hsub, toNat_byte_shiftLeft (Nat.le_refl 20), BitVec.toNat_sub_of_le hfirst]

/-- Fields that do not overlap add up. -/
theorem fields_or {n device function offset : Nat} (hdevice : device < 32)
    (hfunction : function < 8) (hoffset : offset < 2 ^ 12) :
    n <<< 20 ||| device <<< 15 ||| function <<< 12 ||| offset =
      (n * 256 + device * 8 + function) * 4096 + offset := by
  have hlow : device <<< 15 < 2 ^ 20 := by
    rw [Nat.shiftLeft_eq]
    exact Nat.mul_lt_mul_of_pos_right hdevice (by decide)
  have hlower : function <<< 12 < 2 ^ 15 := by
    rw [Nat.shiftLeft_eq]
    exact Nat.mul_lt_mul_of_pos_right hfunction (by decide)
  have hdevices : n <<< 20 + device <<< 15 = (n * 32 + device) <<< 15 := by
    simp only [Nat.shiftLeft_eq]
    ring
  have hpages : (n * 32 + device) <<< 15 + function <<< 12 =
      (n * 256 + device * 8 + function) <<< 12 := by
    simp only [Nat.shiftLeft_eq]
    ring
  rw [← Nat.shiftLeft_add_eq_or_of_lt hlow, hdevices, ← Nat.shiftLeft_add_eq_or_of_lt hlower,
    hpages, ← Nat.shiftLeft_add_eq_or_of_lt hoffset, Nat.shiftLeft_eq]

theorem deviceOffset_eq (range : InRange driver f) (offset : BitVec 8) :
    (f.bus.setWidth 64 - driver.busStart.setWidth 64) <<< 20 ||| f.device.setWidth 64 <<< 15 |||
      f.function.setWidth 64 <<< 12 ||| offset.setWidth 64 =
    BitVec.ofNat 64 (page driver.busStart.toNat f * 4096 + offset.toNat) := by
  have hpage := page_lt driver.busStart.toNat range
  have hbus := f.bus.isLt
  have hoffset : offset.toNat < 2 ^ 12 := Nat.lt_trans offset.isLt (by decide)
  apply BitVec.eq_of_toNat_eq
  rw [BitVec.toNat_or, BitVec.toNat_or, BitVec.toNat_or, toNat_busOffset range,
    toNat_byte_shiftLeft (by decide), toNat_byte_shiftLeft (by decide), toNat_byte,
    fields_or range.device range.function hoffset, BitVec.toNat_ofNat, ← page,
    Nat.mod_eq_of_lt (by omega)]

theorem byte_shiftLeft {b : BitVec 8} {k : Nat} (hk : k ≤ 20) :
    b.setWidth 64 <<< k = BitVec.ofNat 64 (b.toNat <<< k) := by
  rw [← toNat_byte_shiftLeft hk, BitVec.ofNat_toNat, BitVec.setWidth_eq]

theorem pciConfigBase_eq :
    pciConfigBase driver f = driver.ecamBase + BitVec.ofNat 64 (page 0 f * 4096) := by
  have hsum : f.bus.toNat <<< 20 + f.device.toNat <<< 15 + f.function.toNat <<< 12 =
      page 0 f * 4096 := by
    simp only [page, Nat.shiftLeft_eq, Nat.sub_zero]
    ring
  rw [pciConfigBase, byte_shiftLeft (by decide), byte_shiftLeft (by decide),
    byte_shiftLeft (by decide), ← hsum, BitVec.ofNat_add, BitVec.ofNat_add, BitVec.add_assoc,
    BitVec.add_assoc, BitVec.add_assoc]

/-- The mapping has room for every bus of the range. -/
def Mapped (driver : PCIBusDriver) : Prop :=
  driver.mappedSize.toNat = (driver.busEnd.toNat - driver.busStart.toNat + 1) * 256 * 4096

theorem mapped_pciInitializeDriver {ecamBase : BitVec 64} {segment : BitVec 16}
    {busStart busEnd : BitVec 8} (order : busStart ≤ busEnd) :
    Mapped (pciInitializeDriver ecamBase segment busStart busEnd) := by
  rw [BitVec.le_def] at order
  have hend := busEnd.isLt
  simp only [Mapped, pciInitializeDriver]
  bv_omega

/-- Every function in range is read inside the mapping. -/
theorem translate_configAddr (mapped : Mapped driver) (range : InRange driver f)
    (offset : BitVec 8) :
    translate driver (configAddr driver f offset) = some (driver.ecamBase +
      BitVec.ofNat 64 (page driver.busStart.toNat f * 4096) + offset.setWidth 64) := by
  have hpage := page_lt driver.busStart.toNat range
  have hend := driver.busEnd.isLt
  have hlast := range.last
  have hoffset := offset.isLt
  have hinside : configAddr driver f offset - driver.mappedEcam < driver.mappedSize := by
    rw [configAddr, deviceOffset_eq range, BitVec.add_comm, BitVec.add_sub_cancel, BitVec.lt_def,
      BitVec.toNat_ofNat, mapped, Nat.mod_eq_of_lt (by omega)]
    omega
  rw [translate, if_pos hinside, configAddr, deviceOffset_eq range,
    BitVec.add_comm driver.mappedEcam, BitVec.add_sub_cancel, BitVec.ofNat_add,
    ← BitVec.add_assoc, BitVec.ofNat_toNat]

/-- The base that is passed on counts from bus 0, the reads from the first bus of the range. -/
theorem agrees_iff (mapped : Mapped driver) (range : InRange driver f) :
    Agrees driver f (pciConfigBase driver f) ↔ driver.busStart = 0 := by
  have hbus := f.bus.isLt
  have hfirst := range.first
  have hlast := range.last
  have hpage := page_lt 0 range
  have hpage' := page_lt driver.busStart.toNat range
  constructor
  · intro hagrees
    have hsame := hagrees.1 0
    rw [translate_configAddr mapped range, pciConfigBase_eq, Option.some.injEq, BitVec.add_left_inj,
      BitVec.add_right_inj, ← BitVec.toNat_inj, BitVec.toNat_ofNat, BitVec.toNat_ofNat,
      Nat.mod_eq_of_lt (by omega), Nat.mod_eq_of_lt (by omega)] at hsame
    have hpages := Nat.eq_of_mul_eq_mul_right (by decide) hsame
    rw [page, page] at hpages
    apply BitVec.eq_of_toNat_eq
    change driver.busStart.toNat = 0
    omega
  · intro hzero
    have hzeroNat : driver.busStart.toNat = 0 := by
      rw [hzero]
      rfl
    rw [hzeroNat] at hfirst
    constructor
    · intro offset
      rw [translate_configAddr mapped range, pciConfigBase_eq, hzeroNat]
    · rw [pciConfigBase_eq, BitVec.add_comm, BitVec.add_sub_cancel, BitVec.toNat_ofNat, mapped,
        hzeroNat, Nat.mod_eq_of_lt (by omega)]
      omega

end Addresses

/-! ## What enumeration tells others -/

/-- What is told is about functions in range, and carries their base. -/
def AllTold (driver : PCIBusDriver) (told : List (PciFunction × Told)) : Prop :=
  ∀ entry ∈ told, InRange driver entry.1 ∧ entry.2.configBase = pciConfigBase driver entry.1

/-- The run ends, without a page fault. -/
def Tells (driver : PCIBusDriver) (run : Option (List (PciFunction × Told))) : Prop :=
  ∃ told, run = some told ∧ AllTold driver told

section Enumeration

variable {world : World} {driver : PCIBusDriver} {f : PciFunction} {pciBusDeviceId : BitVec 64}

theorem AllTold.nil : AllTold driver [] := by
  intro entry hentry
  exact absurd hentry List.not_mem_nil

theorem AllTold.append {told others : List (PciFunction × Told)} (h : AllTold driver told)
    (h' : AllTold driver others) : AllTold driver (told ++ others) := by
  intro entry hentry
  exact (List.mem_append.mp hentry).elim (h entry) (h' entry)

theorem AllTold.one {t : Told} (range : InRange driver f)
    (base : t.configBase = pciConfigBase driver f) : AllTold driver [(f, t)] := by
  intro entry hentry
  obtain rfl := List.mem_singleton.mp hentry
  exact ⟨range, base⟩

/-- A loop over runs that all end. -/
theorem tells_mapM {α : Type} {run : α → Option (List (PciFunction × Told))} {places : List α}
    (each : ∀ a ∈ places, Tells driver (run a)) :
    Tells driver (do let told ← places.mapM run; return told.flatten) := by
  induction places with
  | nil => exact ⟨[], rfl, AllTold.nil⟩
  | cons a places ih =>
    obtain ⟨first, hfirst, hall⟩ := each a List.mem_cons_self
    obtain ⟨rest, hrest, hall'⟩ := ih (fun b hb => each b (List.mem_cons_of_mem a hb))
    obtain ⟨lists, hlists, hflat⟩ := Option.bind_eq_some_iff.mp hrest
    obtain rfl := Option.some.inj hflat
    refine ⟨first ++ lists.flatten, ?_, hall.append hall'⟩
    rw [List.mapM_cons, hfirst, hlists]
    rfl

theorem pciConfigRead32_ends (mapped : Mapped driver) (range : InRange driver f)
    (offset : BitVec 8) :
    ∃ dword, pciConfigRead32 world driver f offset = some dword := by
  rw [pciConfigRead32, translate_configAddr mapped range]
  exact ⟨_, rfl⟩

theorem pciConfigRead16_ends (mapped : Mapped driver) (range : InRange driver f)
    (offset : BitVec 8) :
    ∃ word, pciConfigRead16 world driver f offset = some word := by
  obtain ⟨dword, hdword⟩ := @pciConfigRead32_ends world driver f mapped range (offset &&& ~~~3)
  rw [pciConfigRead16, hdword]
  exact ⟨_, rfl⟩

theorem pciConfigRead8_ends (mapped : Mapped driver) (range : InRange driver f)
    (offset : BitVec 8) :
    ∃ byte, pciConfigRead8 world driver f offset = some byte := by
  obtain ⟨dword, hdword⟩ := @pciConfigRead32_ends world driver f mapped range (offset &&& ~~~3)
  rw [pciConfigRead8, hdword]
  exact ⟨_, rfl⟩

theorem pciDeviceExists_ends (mapped : Mapped driver) (range : InRange driver f) :
    ∃ found, pciDeviceExists world driver f = some found := by
  obtain ⟨vendorId, hvendor⟩ := @pciConfigRead16_ends world driver f mapped range 0x00
  rw [pciDeviceExists, hvendor]
  exact ⟨_, rfl⟩

theorem registerPciDevice_told (range : InRange driver f) {info : PciDeviceInfo}
    (base : info.configBase = pciConfigBase driver f) :
    AllTold driver ((registerPciDevice world info).2.map (f, ·)) := by
  rw [registerPciDevice]
  split
  · exact AllTold.nil
  · exact AllTold.one range base

theorem pciEnumerateFunction_tells (mapped : Mapped driver) (range : InRange driver f) :
    Tells driver (pciEnumerateFunction world driver pciBusDeviceId f) := by
  obtain ⟨found, hfound⟩ := @pciDeviceExists_ends world driver f mapped range
  obtain ⟨vendorId, hvendor⟩ := @pciConfigRead16_ends world driver f mapped range 0x00
  obtain ⟨deviceId, hdevice⟩ := @pciConfigRead16_ends world driver f mapped range 0x02
  obtain ⟨classD, hclass⟩ := @pciConfigRead32_ends world driver f mapped range 0x08
  obtain ⟨bar5Low, hbar⟩ := @pciConfigRead32_ends world driver f mapped range 0x24
  rw [pciEnumerateFunction, hfound, hvendor, hdevice, hclass, hbar]
  simp only [Option.bind_eq_bind, Option.bind_some, Option.pure_def]
  generalize hinfo : PciDeviceInfo.mk pciBusDeviceId vendorId deviceId f _ _ _ _ = info
  have hbase : info.configBase = pciConfigBase driver f := by rw [← hinfo]
  have htold := @registerPciDevice_told world driver f range info hbase
  split
  · exact ⟨_, rfl, AllTold.nil⟩
  split
  · split
    · refine ⟨_, rfl, ?_⟩
      rw [List.map_append]
      exact htold.append (AllTold.one range rfl)
    · exact ⟨_, rfl, htold⟩
  · exact ⟨_, rfl, htold⟩

theorem pciEnumerateDevice_tells {bus device : BitVec 8} (mapped : Mapped driver)
    (range : ∀ function : BitVec 8, function.toNat < 8 → InRange driver ⟨bus, device, function⟩) :
    Tells driver (pciEnumerateDevice world driver pciBusDeviceId bus device) := by
  have hfirst := range 0 (by decide)
  obtain ⟨found, hfound⟩ := @pciDeviceExists_ends world driver _ mapped hfirst
  obtain ⟨headerType, hheader⟩ := @pciConfigRead8_ends world driver _ mapped hfirst 0x0E
  obtain ⟨told, htold, hall⟩ :=
    @pciEnumerateFunction_tells world driver _ pciBusDeviceId mapped hfirst
  have hothers : ∀ function ∈ [1, 2, 3, 4, 5, 6, 7],
      Tells driver (pciEnumerateFunction world driver pciBusDeviceId ⟨bus, device, function⟩) := by
    intro function hmem
    have hlt : ∀ function ∈ ([1, 2, 3, 4, 5, 6, 7] : List (BitVec 8)), function.toNat < 8 := by
      decide
    exact pciEnumerateFunction_tells mapped (range function (hlt function hmem))
  obtain ⟨others, hmapM, hall'⟩ := tells_mapM hothers
  obtain ⟨lists, hlists, hflat⟩ := Option.bind_eq_some_iff.mp hmapM
  obtain rfl := Option.some.inj hflat
  rw [pciEnumerateDevice, hfound, hheader, htold, hlists]
  simp only [Option.bind_eq_bind, Option.bind_some, Option.pure_def]
  split
  · exact ⟨_, rfl, AllTold.nil⟩
  split
  · exact ⟨_, rfl, hall.append hall'⟩
  · exact ⟨_, rfl, hall⟩

theorem pciEnumerateBus_tells {bus : BitVec 8} (mapped : Mapped driver)
    (first : driver.busStart.toNat ≤ bus.toNat) (last : bus.toNat ≤ driver.busEnd.toNat) :
    Tells driver (pciEnumerateBus world driver pciBusDeviceId bus) := by
  apply tells_mapM
  intro device hdevice
  apply pciEnumerateDevice_tells mapped
  intro function hfunction
  rw [List.mem_range] at hdevice
  refine ⟨first, last, ?_, hfunction⟩
  rw [BitVec.toNat_ofNat, Nat.mod_eq_of_lt (by omega)]
  exact hdevice

theorem pciEnumerateAllBuses_tells (mapped : Mapped driver) :
    Tells driver (pciEnumerateAllBuses world driver pciBusDeviceId) := by
  have hend := driver.busEnd.isLt
  apply tells_mapM
  intro bus hbus
  rw [List.mem_range'_1] at hbus
  have htoNat : (BitVec.ofNat 8 bus).toNat = bus := by
    rw [BitVec.toNat_ofNat, Nat.mod_eq_of_lt (by omega)]
  apply pciEnumerateBus_tells mapped
  · rw [htoNat]
    exact hbus.1
  · rw [htoNat]
    omega

/-- The driver reads every function inside its mapping, and the base that it passes on is where it
reads just when the range of buses starts at 0. -/
theorem config_bases_agree_iff (world : World) (pciBusDeviceId ecamBase : BitVec 64)
    (segment : BitVec 16) {busStart busEnd : BitVec 8} (order : busStart ≤ busEnd) :
    ∃ told, pciEnumerateAllBuses world (pciInitializeDriver ecamBase segment busStart busEnd)
        pciBusDeviceId = some told ∧
      ∀ entry ∈ told, InRange (pciInitializeDriver ecamBase segment busStart busEnd) entry.1 ∧
        (Agrees (pciInitializeDriver ecamBase segment busStart busEnd) entry.1 entry.2.configBase ↔
          busStart = 0) := by
  have hmapped : Mapped (pciInitializeDriver ecamBase segment busStart busEnd) :=
    mapped_pciInitializeDriver order
  obtain ⟨told, hrun, hall⟩ := @pciEnumerateAllBuses_tells world _ pciBusDeviceId hmapped
  refine ⟨told, hrun, ?_⟩
  intro entry hentry
  obtain ⟨hrange, hbase⟩ := hall entry hentry
  refine ⟨hrange, ?_⟩
  rw [hbase]
  exact agrees_iff hmapped hrange

/-- A single function, the first on the first bus of the range. -/
def oneFunction : World where
  word a := if a = 0xE0000000 then 0x00011234 else 0
  devman _ := some 5

theorem config_bases_agree_iff_twoBuses :
    ∃ told, pciEnumerateAllBuses oneFunction (pciInitializeDriver 0xE0000000 0 0 1) 1 = some told ∧
      ∀ entry ∈ told, InRange (pciInitializeDriver 0xE0000000 0 0 1) entry.1 ∧
        (Agrees (pciInitializeDriver 0xE0000000 0 0 1) entry.1 entry.2.configBase ↔
          (0 : BitVec 8) = 0) :=
  config_bases_agree_iff oneFunction 1 0xE0000000 0 (by decide)

/-- Found at 0xE0000000, and passed on as 0xE0100000. -/
theorem config_base_of_second_bus :
    ∃ told, pciEnumerateAllBuses oneFunction (pciInitializeDriver 0xE0000000 0 1 1) 1 = some told ∧
      ∃ entry ∈ told, entry.1 = ⟨1, 0, 0⟩ ∧ entry.2.configBase = 0xE0100000 ∧
        ¬ Agrees (pciInitializeDriver 0xE0000000 0 1 1) entry.1 entry.2.configBase := by
  refine ⟨[(⟨1, 0, 0⟩, .registered ⟨1, 0x1234, 1, ⟨1, 0, 0⟩, 0, 0, 0, 0xE0100000⟩)],
    by decide +kernel, _, List.mem_singleton_self _, rfl, rfl, ?_⟩
  intro hagrees
  exact absurd (hagrees.1 0) (by decide)

end Enumeration

end PciEnumeration
