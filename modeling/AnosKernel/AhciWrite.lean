import Mathlib.Data.List.GetD
import AnosKernel.Lib.Bytes

/-!
# Writing sectors

`ahci_port_write` of `servers/ahcidrv/ahci.c` and the write case of `handle_storage_io_message` of
`servers/ahcidrv/main.c`. The driver stores through its virtual pages; the host bus adapter finds the
command, and the data that it names, by physical address.
-/

namespace AhciWrite

open Bytes

abbrev Byte := BitVec 8

/-! ## Virtual pages -/

/-- The frame of each virtual page. -/
abbrev Frames := Nat → BitVec 52

def frameOf (frames : Frames) (v : BitVec 64) : BitVec 52 := frames (v.toNat / 4096)

def phys (frames : Frames) (v : BitVec 64) : BitVec 64 :=
  BitVec.ofNat 64 ((frameOf frames v).toNat * 4096 + v.toNat % 4096)

/-- Memory as the driver sees it. -/
def view (frames : Frames) (mem : Memory) : Memory := fun v => mem (phys frames v)

def storeBytes (frames : Frames) (mem : Memory) (v : BitVec 64) : List Byte → Memory
  | [] => mem
  | b :: bytes => storeBytes frames (Function.update mem (phys frames v) b) (v + 1) bytes

def number (mem : Memory) (a : BitVec 64) (size : Nat) : Nat := ofBytes (readBytes mem a size)

/-! ## The command -/

structure AHCIPort where
  initialized : Bool
  sectorSize : BitVec 16
  cmdList : BitVec 64
  cmdTables : BitVec 64
  /-- The registers `clb` and `clbu`. -/
  clb : BitVec 64

/-- The fields that are set: five words of FIS, a write, one entry; a reserved bit stays. -/
def headerFields (old : Byte) : List Byte := [0x45, old &&& 0x08, 1, 0, 0, 0, 0, 0]

def lbaByte (lba i : Nat) : Byte := BitVec.ofNat 8 (lba / 256 ^ i)

def fisRegH2D (lba count : Nat) : List Byte :=
  [0x27, 0x80, 0x35, 0, lbaByte lba 0, lbaByte lba 1, lbaByte lba 2, 0x40,
    lbaByte lba 3, lbaByte lba 4, lbaByte lba 5, 0] ++ toBytes 2 count ++ toBytes 6 0

/-- One less than the number of bytes, in 22 bits. -/
def dbc (port : AHCIPort) (count : Nat) : Nat :=
  (count * port.sectorSize.toNat + 2 ^ 22 - 1) % 2 ^ 22

def prdEntry (port : AHCIPort) (count : Nat) (buffer : BitVec 64) : List Byte :=
  toBytes 8 buffer.toNat ++ toBytes 4 0 ++ toBytes 4 (dbc port count + 2 ^ 31)

/-- Memory with the command in it, in the order of the stores. -/
def issue (frames : Frames) (port : AHCIPort) (lba count : Nat) (buffer : BitVec 64) (mem : Memory) :
    Memory :=
  let mem := storeBytes frames mem port.cmdTables (List.replicate 144 0)
  let mem := storeBytes frames mem port.cmdList
    (headerFields (view frames mem (port.cmdList + 1)))
  let mem := storeBytes frames mem port.cmdTables (fisRegH2D lba count)
  storeBytes frames mem (addr port.cmdTables 128) (prdEntry port count buffer)

/-! ## The adapter and its device -/

/-- Sectors of 512 bytes, as many as 48 bits can name. -/
structure Disk where
  sectors : List (List Byte)
  small : sectors.length ≤ 2 ^ 48

/-- The bytes that the entries name. -/
def gather (mem : Memory) (table : BitVec 64) (prdtl : Nat) : List Byte :=
  (List.range prdtl).flatMap fun i =>
    let entry := addr table (128 + 16 * i)
    readBytes mem (BitVec.ofNat 64 (number mem entry 8))
      (number mem (addr entry 12) 4 % 2 ^ 22 + 1)

/-- A write that is found at `clb`; none if the adapter reports an error. -/
def performWrite (mem : Memory) (clb : BitVec 64) (disk : Disk) : Option Disk :=
  let table := BitVec.ofNat 64 (number mem (addr clb 8) 8)
  let fis := readBytes mem table 20
  if (mem clb).getLsbD 6 ∧ slice 0 3 fis = [0x27, 0x80, 0x35] then
    let lba := ofBytes (slice 4 3 fis ++ slice 8 3 fis)
    let field := ofBytes (slice 12 2 fis)
    let count := if field = 0 then 65536 else field
    let data := gather mem table (number mem (addr clb 2) 2)
    if data.length < 512 * count then none
    else if fits : lba + count ≤ disk.sectors.length then
      some { sectors := patch disk.sectors lba ((List.range count).map fun k => slice (512 * k) 512 data)
             small := by rw [length_patch (by simpa using fits)]; exact disk.small }
    else none
  else none

/-! ## The driver -/

structure AHCIController where
  portCount : Nat
  activePorts : BitVec 32
  ports : Nat → AHCIPort

/-- Memory, and the device at each port. -/
structure State where
  mem : Memory
  disks : Nat → Disk

/-- `inTime` says whether the driver sees a completion before it gives up. -/
def ahciPortWrite (frames : Frames) (port : AHCIPort) (lba count : Nat) (buffer : BitVec 64)
    (inTime : Bool) (mem : Memory) (disk : Disk) : Memory × Disk × Bool :=
  if ¬ port.initialized ∨ buffer = 0 ∨ count = 0 then (mem, disk, false)
  else
    let mem := issue frames port lba count buffer mem
    match performWrite mem port.clb disk with
    | none => (mem, disk, false)
    | some disk => (mem, disk, inTime)

/-- The first port that is active and initialized. -/
def activePort (ctrl : AHCIController) : Option Nat :=
  (List.range ctrl.portCount).find? fun i =>
    ctrl.activePorts.getLsbD i && (ctrl.ports i).initialized

def startSector (frames : Frames) (mem : Memory) (buffer : BitVec 64) : Nat :=
  number (view frames mem) (addr buffer 8) 8

def sectorCount (frames : Frames) (mem : Memory) (buffer : BitVec 64) : Nat :=
  number (view frames mem) (addr buffer 16) 4

/-- The reply to a message of the type `STORAGE_MSG_WRITE_SECTORS`, and what is left. -/
def handleWriteSectors (frames : Frames) (ctrl : AHCIController) (buffer : BitVec 64) (size : Nat)
    (inTime : Bool) (s : State) : Nat × State :=
  if size < 24 then (0, s)
  else
    match activePort ctrl with
    | none => (0, s)
    | some i =>
      let count := sectorCount frames s.mem buffer
      if count > 8 then (0, s)
      else
        let (mem, disk, success) := ahciPortWrite frames (ctrl.ports i)
          (startSector frames s.mem buffer) count (addr buffer 24) inTime s.mem (s.disks i)
        (if success then count else 0, ⟨mem, Function.update s.disks i disk⟩)

/-! ## Stores within a page -/

section Pages

variable {frames : Frames} {mem : Memory} {v x : BitVec 64} {k o n : Nat} {bytes : List Byte}

theorem addr_in_page (aligned : v.toNat % 4096 = 0) (inside : k < 4096) :
    (addr v k).toNat = v.toNat + k := by
  apply toNat_addr
  have hlt := v.isLt
  omega

theorem frameOf_addr (aligned : v.toNat % 4096 = 0) (inside : k < 4096) :
    frameOf frames (addr v k) = frameOf frames v := by
  rw [frameOf, frameOf, addr_in_page aligned inside]
  congr 1
  omega

theorem toNat_phys : (phys frames v).toNat = (frameOf frames v).toNat * 4096 + v.toNat % 4096 := by
  rw [phys, BitVec.toNat_ofNat, Nat.mod_eq_of_lt]
  have hlt := (frameOf frames v).isLt
  omega

/-- A page lies in one piece. -/
theorem phys_addr (aligned : v.toNat % 4096 = 0) (inside : k < 4096) :
    phys frames (addr v k) = addr (phys frames v) k := by
  have hlt := (frameOf frames v).isLt
  apply BitVec.eq_of_toNat_eq
  rw [toNat_phys, frameOf_addr aligned inside, addr_in_page aligned inside, toNat_addr, toNat_phys]
  · omega
  · rw [toNat_phys]
    omega

/-- Stores within a page are stores into its frame. -/
theorem storeBytes_eq (aligned : v.toNat % 4096 = 0) (fits : o + bytes.length ≤ 4096) :
    storeBytes frames mem (addr v o) bytes = writeBytes mem (addr (phys frames v) o) bytes := by
  induction bytes generalizing mem o with
  | nil => rfl
  | cons b bytes ih =>
    rw [List.length_cons] at fits
    rw [storeBytes, writeBytes, phys_addr aligned (by omega), addr_next, addr_next, ih (by omega)]

theorem storeBytes_page (aligned : v.toNat % 4096 = 0) (fits : bytes.length ≤ 4096) :
    storeBytes frames mem v bytes = writeBytes mem (phys frames v) bytes := by
  have hstore := @storeBytes_eq frames mem v 0 bytes aligned (by omega)
  rwa [addr_zero, addr_zero] at hstore

/-- Addresses in different frames differ. -/
theorem ne_of_frames {w : BitVec 64} (aligned : w.toNat % 4096 = 0) (inside : k < 4096)
    (apart : frameOf frames v ≠ frameOf frames w) : phys frames v ≠ addr (phys frames w) k := by
  intro h
  apply apart
  have hnat := congrArg BitVec.toNat h
  rw [← phys_addr aligned inside, toNat_phys, toNat_phys, frameOf_addr aligned inside] at hnat
  apply BitVec.eq_of_toNat_eq
  have hv := Nat.mod_lt v.toNat (by decide : 4096 > 0)
  have hw := Nat.mod_lt (addr w k).toNat (by decide : 4096 > 0)
  omega

/-- What is stored within a frame is not seen in other frames. -/
theorem write_other {w : BitVec 64} (aligned : w.toNat % 4096 = 0)
    (apart : frameOf frames v ≠ frameOf frames w) (fits : o + bytes.length ≤ 4096) :
    writeBytes mem (addr (phys frames w) o) bytes (phys frames v) = mem (phys frames v) := by
  apply writeBytes_outside
  intro k hk
  rw [addr_add]
  exact ne_of_frames aligned (by omega) apart

/-- Nor elsewhere in the same frame. -/
theorem write_elsewhere {a : BitVec 64} (small : k < 4096) (fits : o + bytes.length ≤ 4096)
    (outside : k < o ∨ o + bytes.length ≤ k) :
    writeBytes mem (addr a o) bytes (addr a k) = mem (addr a k) := by
  apply writeBytes_outside
  intro j hj heq
  rw [addr_add] at heq
  have hsame := addr_inj (by omega) (by omega) heq
  omega

end Pages

/-! ## The command in memory -/

/-- A port as `ahci_port_init` leaves it: the adapter finds the command list, and its first header
names the command tables. -/
structure Ready (frames : Frames) (port : AHCIPort) (mem : Memory) : Prop where
  listAligned : port.cmdList.toNat % 4096 = 0
  tablesAligned : port.cmdTables.toNat % 4096 = 0
  clb : port.clb = phys frames port.cmdList
  ctba : number mem (addr port.clb 8) 8 = (phys frames port.cmdTables).toNat
  apart : frameOf frames port.cmdList ≠ frameOf frames port.cmdTables

section Command

variable {frames : Frames} {port : AHCIPort} {mem : Memory} {lba count k : Nat}
  {buffer v : BitVec 64}

theorem length_headerFields (old : Byte) : (headerFields old).length = 8 := rfl

theorem length_fisRegH2D : (fisRegH2D lba count).length = 20 := by
  rw [fisRegH2D, List.length_append, List.length_append, length_toBytes, length_toBytes]
  rfl

theorem length_prdEntry : (prdEntry port count buffer).length = 16 := by
  rw [prdEntry, List.length_append, List.length_append, length_toBytes, length_toBytes,
    length_toBytes]

/-- The four stores, in the frames of the two pages. -/
theorem Ready.issue_eq (ready : Ready frames port mem) :
    ∃ old, issue frames port lba count buffer mem =
      writeBytes (writeBytes (writeBytes (writeBytes mem (phys frames port.cmdTables)
        (List.replicate 144 0)) (phys frames port.cmdList) (headerFields old))
        (phys frames port.cmdTables) (fisRegH2D lba count))
        (addr (phys frames port.cmdTables) 128) (prdEntry port count buffer) := by
  have hzeros := @storeBytes_page frames mem _ (List.replicate 144 0) ready.tablesAligned
    (by rw [List.length_replicate]; decide)
  have hheader := fun m old => @storeBytes_page frames m _ (headerFields old) ready.listAligned
    (by rw [length_headerFields]; decide)
  have hfis := fun m => @storeBytes_page frames m _ (fisRegH2D lba count) ready.tablesAligned
    (by rw [length_fisRegH2D]; decide)
  have hprd := fun m => @storeBytes_eq frames m _ 128 (prdEntry port count buffer)
    ready.tablesAligned (by rw [length_prdEntry]; decide)
  exact ⟨_, by rw [issue, hzeros, hheader, hfis, hprd]⟩

/-- Frames other than the two keep their bytes. -/
theorem Ready.issue_other (ready : Ready frames port mem)
    (list : frameOf frames v ≠ frameOf frames port.cmdList)
    (tables : frameOf frames v ≠ frameOf frames port.cmdTables) :
    issue frames port lba count buffer mem (phys frames v) = mem (phys frames v) := by
  obtain ⟨old, hissue⟩ := @Ready.issue_eq _ _ _ lba count buffer ready
  have hlength := length_headerFields old
  have hzeros := @write_other frames mem v 0 (List.replicate 144 0) _ ready.tablesAligned tables
    (by rw [List.length_replicate]; decide)
  rw [addr_zero] at hzeros
  have hheader := fun m => @write_other frames m v 0 (headerFields old) _ ready.listAligned list
    (by rw [hlength]; decide)
  have hfis := fun m => @write_other frames m v 0 (fisRegH2D lba count) _ ready.tablesAligned tables
    (by rw [length_fisRegH2D]; decide)
  rw [addr_zero] at hheader hfis
  rw [hissue, write_other ready.tablesAligned tables (by rw [length_prdEntry]; decide), hfis, hheader,
    hzeros]

/-- The page of the command list: the new fields, and the rest as it was. -/
theorem Ready.issue_list (ready : Ready frames port mem) : ∃ old, ∀ k < 4096,
    issue frames port lba count buffer mem (addr port.clb k) =
      (headerFields old).getD k (mem (addr port.clb k)) := by
  obtain ⟨old, hissue⟩ := @Ready.issue_eq _ _ _ lba count buffer ready
  refine ⟨old, ?_⟩
  intro k hk
  have hlength := length_headerFields old
  have htables : frameOf frames (addr port.cmdList k) ≠ frameOf frames port.cmdTables := by
    rw [frameOf_addr ready.listAligned hk]
    exact ready.apart
  have hplace : phys frames (addr port.cmdList k) = addr (phys frames port.cmdList) k :=
    phys_addr ready.listAligned hk
  have hother := fun m o bytes => @write_other frames m _ o bytes _ ready.tablesAligned htables
  rw [hplace] at hother
  have hfis := fun m => hother m 0 (fisRegH2D lba count) (by rw [length_fisRegH2D]; decide)
  have hzeros := hother mem 0 (List.replicate 144 0) (by rw [List.length_replicate]; decide)
  rw [addr_zero] at hfis hzeros
  rw [hissue, ready.clb, hother _ _ _ (by rw [length_prdEntry]; decide), hfis]
  by_cases hin : k < 8
  · rw [writeBytes_inside (by rw [hlength]; decide) hin, List.getD_eq_getElem _ _ hin]
  · have hskip := @write_elsewhere (writeBytes mem (phys frames port.cmdTables)
      (List.replicate 144 0)) k 0 (headerFields old) (phys frames port.cmdList) hk
      (by rw [hlength]; decide) (Or.inr (by rw [hlength]; omega))
    rw [addr_zero] at hskip
    rw [hskip, hzeros, List.getD_eq_default _ _ (by rw [hlength]; omega)]

/-- The command table: the FIS. -/
theorem Ready.issue_fis (ready : Ready frames port mem) :
    readBytes (issue frames port lba count buffer mem) (phys frames port.cmdTables) 20 =
      fisRegH2D lba count := by
  obtain ⟨old, hissue⟩ := @Ready.issue_eq _ _ _ lba count buffer ready
  have hread := fun m => @readBytes_writeBytes m (phys frames port.cmdTables) (fisRegH2D lba count)
    (by rw [length_fisRegH2D]; decide)
  rw [length_fisRegH2D] at hread
  rw [hissue]
  generalize writeBytes (writeBytes mem _ _) _ _ = m
  refine (@readBytes_congr _ (writeBytes m _ _) _ _ ?_).trans (hread m)
  intro k hk
  apply write_elsewhere (by omega)
  · rw [length_prdEntry]
    decide
  · exact Or.inl (by omega)

/-- And the one entry. -/
theorem Ready.issue_prdEntry (ready : Ready frames port mem) :
    readBytes (issue frames port lba count buffer mem) (addr (phys frames port.cmdTables) 128) 16 =
      prdEntry port count buffer := by
  obtain ⟨old, hissue⟩ := @Ready.issue_eq _ _ _ lba count buffer ready
  have hread := fun m => @readBytes_writeBytes m (addr (phys frames port.cmdTables) 128)
    (prdEntry port count buffer) (by rw [length_prdEntry]; decide)
  rw [length_prdEntry] at hread
  rw [hissue, hread]

/-- Six bytes hold 48 bits of the address. -/
theorem lba_of_fis :
    ofBytes (slice 4 3 (fisRegH2D lba count) ++ slice 8 3 (fisRegH2D lba count)) = lba % 2 ^ 48 := by
  have hbytes : slice 4 3 (fisRegH2D lba count) ++ slice 8 3 (fisRegH2D lba count) =
      toBytes 6 lba := by
    simp only [toBytes, Nat.div_div_eq_div_mul]
    simp only [slice, fisRegH2D, lbaByte, List.cons_append, List.drop_succ_cons, List.drop_zero,
      List.take_succ_cons, List.take_zero, List.nil_append, Nat.pow_zero, Nat.div_one, Nat.pow_one]
    rfl
  have hpower : 256 ^ 6 = 2 ^ 48 := by decide
  rw [hbytes, ofBytes_toBytes_mod, hpower]

theorem count_of_fis (few : count < 65536) : ofBytes (slice 12 2 (fisRegH2D lba count)) = count := by
  have hbytes : slice 12 2 (fisRegH2D lba count) = toBytes 2 count := rfl
  rw [hbytes, ofBytes_toBytes (by omega)]

/-- The one entry names the bytes from the buffer's address on. -/
theorem Ready.gather_eq (ready : Ready frames port mem) :
    gather (issue frames port lba count buffer mem) (phys frames port.cmdTables) 1 =
      readBytes (issue frames port lba count buffer mem) buffer (dbc port count + 1) := by
  have hentry := @Ready.issue_prdEntry _ _ _ lba count buffer ready
  have hdba : number (issue frames port lba count buffer mem)
      (addr (phys frames port.cmdTables) 128) 8 = buffer.toNat := by
    have hslice := @slice_readBytes 0 8 (issue frames port lba count buffer mem)
      (addr (phys frames port.cmdTables) 128) 16 (by decide)
    rw [hentry, addr_zero] at hslice
    rw [number, ← hslice]
    have hbytes : slice 0 8 (prdEntry port count buffer) = toBytes 8 buffer.toNat := rfl
    rw [hbytes, ofBytes_toBytes buffer.isLt]
  have hdbc : number (issue frames port lba count buffer mem)
      (addr (addr (phys frames port.cmdTables) 128) 12) 4 % 2 ^ 22 = dbc port count := by
    have hslice := @slice_readBytes 12 4 (issue frames port lba count buffer mem)
      (addr (phys frames port.cmdTables) 128) 16 (by decide)
    rw [hentry] at hslice
    have hbytes : slice 12 4 (prdEntry port count buffer) = toBytes 4 (dbc port count + 2 ^ 31) := rfl
    have hsmall : dbc port count < 2 ^ 22 := Nat.mod_lt _ (by decide)
    rw [number, ← hslice, hbytes, ofBytes_toBytes (by omega)]
    omega
  rw [gather, List.range_one, List.flatMap_singleton]
  dsimp only
  rw [Nat.mul_zero, Nat.add_zero, hdba, hdbc, BitVec.ofNat_toNat, BitVec.setWidth_eq]

/-- What the adapter finds. -/
theorem Ready.found (ready : Ready frames port mem) :
    (issue frames port lba count buffer mem port.clb).getLsbD 6 ∧
    number (issue frames port lba count buffer mem) (addr port.clb 2) 2 = 1 ∧
    BitVec.ofNat 64 (number (issue frames port lba count buffer mem) (addr port.clb 8) 8) =
      phys frames port.cmdTables := by
  obtain ⟨old, hlist⟩ := @Ready.issue_list _ _ _ lba count buffer ready
  have hfirst := hlist 0 (by decide)
  rw [addr_zero] at hfirst
  have hprdtl : readBytes (issue frames port lba count buffer mem) (addr port.clb 2) 2 = [1, 0] := by
    have hthird := hlist 2 (by decide)
    have hfourth := hlist 3 (by decide)
    rw [readBytes, readBytes, readBytes, addr_next, hthird, hfourth]
    rfl
  have hctba : number (issue frames port lba count buffer mem) (addr port.clb 8) 8 =
      number mem (addr port.clb 8) 8 := by
    rw [number, number]
    congr 1
    apply readBytes_congr
    intro k hk
    rw [addr_add, hlist _ (by omega), List.getD_eq_default _ _ (by rw [length_headerFields]; omega)]
  refine ⟨?_, ?_, ?_⟩
  · have hvalue : (headerFields old).getD 0 (mem port.clb) = 0x45 := rfl
    rw [hfirst, hvalue]
    decide
  · rw [number, hprdtl]
    decide
  · rw [hctba, ready.ctba, BitVec.ofNat_toNat, BitVec.setWidth_eq]

/-- The sectors that the adapter takes from memory. -/
def taken (mem : Memory) (buffer : BitVec 64) (count : Nat) : List (List Byte) :=
  (List.range count).map fun k => readBytes mem (addr buffer (512 * k)) 512

/-- A command of the driver is performed just if the entry is long enough and the device has the
sectors. -/
theorem Ready.performWrite_issue (ready : Ready frames port mem) (pos : 0 < count)
    (few : count < 65536) (disk : Disk) :
    (∀ disk', performWrite (issue frames port lba count buffer mem) port.clb disk = some disk' →
      512 * count ≤ dbc port count + 1 ∧ lba % 2 ^ 48 + count ≤ disk.sectors.length) ∧
    (512 * count ≤ dbc port count + 1 → lba % 2 ^ 48 + count ≤ disk.sectors.length →
      ∃ disk', performWrite (issue frames port lba count buffer mem) port.clb disk = some disk' ∧
        disk'.sectors = patch disk.sectors (lba % 2 ^ 48)
          (taken (issue frames port lba count buffer mem) buffer count)) := by
  obtain ⟨hwrite, hprdtl, htable⟩ := @Ready.found _ _ _ lba count buffer ready
  have hfis := @Ready.issue_fis _ _ _ lba count buffer ready
  have hgather := @Ready.gather_eq _ _ _ lba count buffer ready
  have hcommand : slice 0 3 (fisRegH2D lba count) = [0x27, 0x80, 0x35] := rfl
  rw [performWrite]
  simp only [htable, hfis, hprdtl, hgather, hwrite, hcommand, lba_of_fis, count_of_fis few,
    if_neg (Nat.pos_iff_ne_zero.mp pos), length_readBytes]
  constructor
  · intro disk' h
    split at h
    · split at h
      · cases h
      next hlong =>
        split at h
        next hfits => exact ⟨Nat.le_of_not_lt hlong, hfits⟩
        · cases h
    · cases h
  · intro hlong hfits
    refine ⟨_, by rw [if_pos ⟨trivial, trivial⟩, if_neg (Nat.not_lt.mpr hlong), dif_pos hfits], ?_⟩
    dsimp only
    congr 1
    apply List.map_congr_left
    intro k hk
    have hlast := List.mem_range.mp hk
    exact slice_readBytes (by omega)

end Command

/-! ## The message -/

/-- The request of a message is accepted, performed and seen to be complete in time. -/
structure Performed (frames : Frames) (ctrl : AHCIController) (buffer : BitVec 64) (size : Nat)
    (inTime : Bool) (s : State) (i : Nat) : Prop where
  size : 24 ≤ size
  port : activePort ctrl = some i
  few : sectorCount frames s.mem buffer ≤ 8
  data : addr buffer 24 ≠ 0
  entry : 512 * sectorCount frames s.mem buffer ≤
    dbc (ctrl.ports i) (sectorCount frames s.mem buffer) + 1
  device : startSector frames s.mem buffer % 2 ^ 48 + sectorCount frames s.mem buffer ≤
    (s.disks i).sectors.length
  inTime : inTime = true

/-- The data of the message lie inside it and are what the sectors hold, and no other sector of any
device changes. -/
structure Written (frames : Frames) (ctrl : AHCIController) (buffer : BitVec 64) (size : Nat)
    (before after : State) : Prop where
  inside : ∀ k < 512 * sectorCount frames before.mem buffer, 24 + k < size
  holds : ∀ i, activePort ctrl = some i → ∀ k < sectorCount frames before.mem buffer,
    (after.disks i).sectors[startSector frames before.mem buffer + k]? =
      some (readBytes (view frames before.mem) (addr buffer (24 + 512 * k)) 512)
  others : ∀ j n, ¬ (activePort ctrl = some j ∧ startSector frames before.mem buffer ≤ n ∧
      n < startSector frames before.mem buffer + sectorCount frames before.mem buffer) →
    (after.disks j).sectors[n]? = (before.disks j).sectors[n]?

section Messages

variable {frames : Frames} {ctrl : AHCIController} {buffer : BitVec 64} {size i : Nat}
  {inTime : Bool} {s : State}

theorem initialized_of_active (h : activePort ctrl = some i) : (ctrl.ports i).initialized = true := by
  have hfound := List.find?_some h
  rw [Bool.and_eq_true] at hfound
  exact hfound.2

/-- No sectors are no write. -/
theorem handleWriteSectors_none (none : sectorCount frames s.mem buffer = 0) (j : Nat) :
    (handleWriteSectors frames ctrl buffer size inTime s).2.disks j = s.disks j := by
  rw [handleWriteSectors]
  split
  · rfl
  split
  · rfl
  dsimp only
  split
  · rfl
  rw [ahciPortWrite, if_pos (Or.inr (Or.inr none))]
  dsimp only
  rw [Function.update_eq_self]

theorem handleWriteSectors_performed
    (ready : ∀ i, activePort ctrl = some i → Ready frames (ctrl.ports i) s.mem)
    (pos : 0 < sectorCount frames s.mem buffer)
    (h : Performed frames ctrl buffer size inTime s i) :
    ∃ disk', disk'.sectors = patch (s.disks i).sectors (startSector frames s.mem buffer % 2 ^ 48)
        (taken (issue frames (ctrl.ports i) (startSector frames s.mem buffer)
          (sectorCount frames s.mem buffer) (addr buffer 24) s.mem) (addr buffer 24)
          (sectorCount frames s.mem buffer)) ∧
      (handleWriteSectors frames ctrl buffer size inTime s).1 = sectorCount frames s.mem buffer ∧
      (handleWriteSectors frames ctrl buffer size inTime s).2.disks =
        Function.update s.disks i disk' := by
  have hfew := h.few
  obtain ⟨-, hperform⟩ := @Ready.performWrite_issue _ _ _ (startSector frames s.mem buffer) _
    (addr buffer 24) (ready i h.port) pos (by omega) (s.disks i)
  obtain ⟨disk', hdisk', hsectors⟩ := hperform h.entry h.device
  have hwrite : ahciPortWrite frames (ctrl.ports i) (startSector frames s.mem buffer)
      (sectorCount frames s.mem buffer) (addr buffer 24) inTime s.mem (s.disks i) =
      (issue frames (ctrl.ports i) (startSector frames s.mem buffer)
        (sectorCount frames s.mem buffer) (addr buffer 24) s.mem, disk', true) := by
    rw [ahciPortWrite, if_neg]
    · dsimp only
      rw [hdisk', h.inTime]
    · rintro (hport | hdata | hcount)
      · exact hport (initialized_of_active h.port)
      · exact h.data hdata
      · omega
  refine ⟨disk', hsectors, ?_⟩
  rw [handleWriteSectors, if_neg (Nat.not_lt.mpr h.size), h.port]
  dsimp only
  rw [if_neg (Nat.not_lt.mpr hfew), hwrite]
  exact ⟨rfl, rfl⟩

/-- A write that succeeds was performed. -/
theorem ahciPortWrite_success {port : AHCIPort} {lba count : Nat} {data : BitVec 64} {mem : Memory}
    {disk : Disk} (ready : Ready frames port mem) (few : count < 65536)
    (h : (ahciPortWrite frames port lba count data inTime mem disk).2.2 = true) :
    data ≠ 0 ∧ 512 * count ≤ dbc port count + 1 ∧ lba % 2 ^ 48 + count ≤ disk.sectors.length ∧
      inTime = true := by
  rw [ahciPortWrite] at h
  by_cases hchecks : ¬ port.initialized ∨ data = 0 ∨ count = 0
  · rw [if_pos hchecks] at h
    cases h
  rw [if_neg hchecks] at h
  dsimp only at h
  rw [not_or, not_or] at hchecks
  obtain ⟨hperform, -⟩ := @Ready.performWrite_issue _ _ _ lba count data ready
    (Nat.pos_of_ne_zero hchecks.2.2) few disk
  rcases hdisk' : performWrite (issue frames port lba count data mem) port.clb disk with _ | disk'
  · rw [hdisk'] at h
    cases h
  · rw [hdisk'] at h
    obtain ⟨hentry, hdevice⟩ := hperform disk' hdisk'
    exact ⟨hchecks.2.1, hentry, hdevice, h⟩

theorem performed_of_reply
    (ready : ∀ i, activePort ctrl = some i → Ready frames (ctrl.ports i) s.mem)
    (pos : 0 < sectorCount frames s.mem buffer)
    (h : (handleWriteSectors frames ctrl buffer size inTime s).1 = sectorCount frames s.mem buffer) :
    ∃ i, Performed frames ctrl buffer size inTime s i := by
  rw [handleWriteSectors] at h
  split at h
  · exact absurd h (Nat.ne_of_lt pos)
  next hsize =>
    split at h
    · exact absurd h (Nat.ne_of_lt pos)
    next i hport =>
      dsimp only at h
      split at h
      · exact absurd h (Nat.ne_of_lt pos)
      next hfew =>
        have hsuccess : (ahciPortWrite frames (ctrl.ports i) (startSector frames s.mem buffer)
            (sectorCount frames s.mem buffer) (addr buffer 24) inTime s.mem (s.disks i)).2.2 =
            true := by
          by_contra hfailed
          rw [if_neg hfailed] at h
          exact absurd h (Nat.ne_of_lt pos)
        obtain ⟨hdata, hentry, hdevice, hinTime⟩ :=
          ahciPortWrite_success (ready i hport) (by omega) hsuccess
        exact ⟨i, Nat.le_of_not_lt hsize, hport, Nat.le_of_not_lt hfew, hdata, hentry, hdevice,
          hinTime⟩

/-- The bytes that the device is given are those of the message, though they are found by physical
address. -/
def Reaches (frames : Frames) (ctrl : AHCIController) (buffer : BitVec 64) (s : State) (i : Nat) :
    Prop :=
  ∀ k < 512 * sectorCount frames s.mem buffer,
    issue frames (ctrl.ports i) (startSector frames s.mem buffer) (sectorCount frames s.mem buffer)
      (addr buffer 24) s.mem (addr buffer (24 + k)) = view frames s.mem (addr buffer (24 + k))

/-- Sectors of equal bytes. -/
theorem sectors_eq_iff {mem mem' : Memory} {a : BitVec 64} {count : Nat} :
    (∀ k < count, readBytes mem (addr a (512 * k)) 512 = readBytes mem' (addr a (512 * k)) 512) ↔
      ∀ k < 512 * count, mem (addr a k) = mem' (addr a k) := by
  constructor
  · intro h k hk
    have hbytes := h (k / 512) (by omega)
    have hlength : k % 512 < 512 := Nat.mod_lt _ (by decide)
    have hbyte : (readBytes mem (addr a (512 * (k / 512))) 512)[k % 512]? =
        (readBytes mem' (addr a (512 * (k / 512))) 512)[k % 512]? := by rw [hbytes]
    rw [List.getElem?_eq_getElem (by rwa [length_readBytes]),
      List.getElem?_eq_getElem (by rwa [length_readBytes]), getElem_readBytes, getElem_readBytes,
      addr_add, Nat.div_add_mod, Option.some.injEq] at hbyte
    exact hbyte
  · intro h k hk
    apply readBytes_congr
    intro j hj
    rw [addr_add]
    exact h _ (by omega)

theorem write_meets_iff
    (ready : ∀ i, activePort ctrl = some i → Ready frames (ctrl.ports i) s.mem)
    (pos : 0 < sectorCount frames s.mem buffer)
    (h : Performed frames ctrl buffer size inTime s i) :
    Written frames ctrl buffer size s (handleWriteSectors frames ctrl buffer size inTime s).2 ↔
      24 + 512 * sectorCount frames s.mem buffer ≤ size ∧
      startSector frames s.mem buffer < 2 ^ 48 ∧ Reaches frames ctrl buffer s i := by
  obtain ⟨disk', hsectors, -, hdisks⟩ := handleWriteSectors_performed ready pos h
  have hdevice := h.device
  have hlength : (taken (issue frames (ctrl.ports i) (startSector frames s.mem buffer)
      (sectorCount frames s.mem buffer) (addr buffer 24) s.mem) (addr buffer 24)
      (sectorCount frames s.mem buffer)).length = sectorCount frames s.mem buffer := by
    rw [taken, List.length_map, List.length_range]
  have hown : (handleWriteSectors frames ctrl buffer size inTime s).2.disks i = disk' := by
    rw [hdisks, Function.update_self]
  have hreaches := @sectors_eq_iff (issue frames (ctrl.ports i) (startSector frames s.mem buffer)
    (sectorCount frames s.mem buffer) (addr buffer 24) s.mem) (view frames s.mem) (addr buffer 24)
    (sectorCount frames s.mem buffer)
  simp only [addr_add] at hreaches
  have htaken : ∀ k < sectorCount frames s.mem buffer,
      disk'.sectors[startSector frames s.mem buffer % 2 ^ 48 + k]? =
        some (readBytes (issue frames (ctrl.ports i) (startSector frames s.mem buffer)
          (sectorCount frames s.mem buffer) (addr buffer 24) s.mem) (addr buffer (24 + 512 * k)) 512) := by
    intro k hk
    rw [hsectors, getElem?_patch_inside (by omega) (by rw [hlength]; exact hk), taken,
      List.getElem?_map, List.getElem?_range hk, Option.map_some, addr_add]
  constructor
  · intro hwritten
    have hinside := hwritten.inside (512 * sectorCount frames s.mem buffer - 1) (by omega)
    have hstart : startSector frames s.mem buffer < 2 ^ 48 := by
      have hfirst := hwritten.holds i h.port 0 pos
      rw [hown] at hfirst
      obtain ⟨hlt, -⟩ := List.getElem?_eq_some_iff.mp hfirst
      have hsmall := disk'.small
      omega
    refine ⟨by omega, hstart, hreaches.mp ?_⟩
    intro k hk
    have hholds := hwritten.holds i h.port k hk
    have hbytes := htaken k hk
    rw [Nat.mod_eq_of_lt hstart] at hbytes
    rw [hown, hbytes, Option.some.injEq] at hholds
    exact hholds
  · rintro ⟨hinside, hstart, hsame⟩
    rw [Nat.mod_eq_of_lt hstart] at htaken hsectors hdevice
    constructor
    · intro k hk
      omega
    · intro j hj k hk
      rw [h.port, Option.some.injEq] at hj
      rw [← hj, hown, htaken k hk, hreaches.mpr hsame k hk]
    · intro j n hn
      rw [hdisks]
      by_cases hj : j = i
      · rw [hj, Function.update_self, hsectors]
        apply getElem?_patch_outside
        · rw [hlength]
          exact hdevice
        · rw [hlength]
          by_contra hin
          exact hn ⟨by rw [hj, h.port], by omega, by omega⟩
      · rw [Function.update_of_ne hj]

/-- Sectors are written as the message says just if the message holds all their bytes, their numbers
fit in 48 bits, and the bytes are also found by the physical address that equals their virtual
one. -/
theorem write_sectors_iff
    (ready : ∀ i, activePort ctrl = some i → Ready frames (ctrl.ports i) s.mem) :
    ((handleWriteSectors frames ctrl buffer size inTime s).1 = sectorCount frames s.mem buffer →
      Written frames ctrl buffer size s (handleWriteSectors frames ctrl buffer size inTime s).2) ↔
    ∀ i, 0 < sectorCount frames s.mem buffer → Performed frames ctrl buffer size inTime s i →
      24 + 512 * sectorCount frames s.mem buffer ≤ size ∧
      startSector frames s.mem buffer < 2 ^ 48 ∧ Reaches frames ctrl buffer s i := by
  constructor
  · intro h i hpos hperformed
    obtain ⟨-, -, hreply, -⟩ := handleWriteSectors_performed ready hpos hperformed
    exact (write_meets_iff ready hpos hperformed).mp (h hreply)
  · intro h hreply
    by_cases hpos : 0 < sectorCount frames s.mem buffer
    · obtain ⟨i, hperformed⟩ := performed_of_reply ready hpos hreply
      exact (write_meets_iff ready hpos hperformed).mpr (h i hpos hperformed)
    · have hnone : sectorCount frames s.mem buffer = 0 := by omega
      constructor
      · intro k hk
        omega
      · intro i _ k hk
        omega
      · intro j n _
        rw [handleWriteSectors_none hnone]

/-- The page of the driver's messages lies in a given frame, every other page in its own. -/
def movedTo (frame : BitVec 52) : Frames := fun n => if n = 0x300000 then frame else BitVec.ofNat 52 n

def onePort : AHCIController where
  portCount := 1
  activePorts := 1
  ports := fun _ => ⟨true, 512, 0xA000000000, 0xA000002000, 0xA000000000⟩

/-- A request in a frame to write one sector of bytes 0x55 to sector 5, and an empty device. -/
def requested (message : BitVec 64) : State where
  mem := fun a =>
    if a = 0xA000000009 then 0x20
    else if a = 0xA00000000C then 0xA0
    else if a = message then 2
    else if a = message + 8 then 5
    else if a = message + 16 then 1
    else if message + 24 ≤ a ∧ a < message + 536 then 0x55
    else 0
  disks := fun _ => ⟨List.replicate 10 (List.replicate 512 0), by rw [List.length_replicate]; decide⟩

theorem write_sectors_iff_samePlace :
    (∀ i, activePort onePort = some i →
      Ready (movedTo 0x300000) (onePort.ports i) (requested 0x300000000).mem) ∧
    (handleWriteSectors (movedTo 0x300000) onePort 0x300000000 536 true
      (requested 0x300000000)).1 = 1 ∧
    Written (movedTo 0x300000) onePort 0x300000000 536 (requested 0x300000000)
      (handleWriteSectors (movedTo 0x300000) onePort 0x300000000 536 true
        (requested 0x300000000)).2 := by
  have hport : Ready (movedTo 0x300000) (onePort.ports 0) (requested 0x300000000).mem :=
    ⟨by decide, by decide, by decide +kernel, by decide +kernel, by decide +kernel⟩
  have hready : ∀ i, activePort onePort = some i →
      Ready (movedTo 0x300000) (onePort.ports i) (requested 0x300000000).mem := fun _ _ => hport
  have hperformed : Performed (movedTo 0x300000) onePort 0x300000000 536 true
      (requested 0x300000000) 0 :=
    ⟨by decide, rfl, by decide +kernel, by decide, by decide +kernel, by decide +kernel, rfl⟩
  have hcount : sectorCount (movedTo 0x300000) (requested 0x300000000).mem 0x300000000 = 1 := by
    decide +kernel
  have hstart : startSector (movedTo 0x300000) (requested 0x300000000).mem 0x300000000 < 2 ^ 48 := by
    decide +kernel
  obtain ⟨-, -, hreply, -⟩ := handleWriteSectors_performed hready (by rw [hcount]; decide) hperformed
  refine ⟨hready, by rw [hreply, hcount], (write_sectors_iff hready).mpr ?_ hreply⟩
  intro i _ _
  refine ⟨by rw [hcount], hstart, ?_⟩
  intro k hk
  rw [hcount] at hk
  have haligned : (0x300000000 : BitVec 64).toNat % 4096 = 0 := by decide
  have hframe : frameOf (movedTo 0x300000) (addr 0x300000000 (24 + k)) = 0x300000 := by
    rw [frameOf_addr haligned (by omega)]
    decide
  -- the frame has the number of the page
  have hplace : phys (movedTo 0x300000) (addr 0x300000000 (24 + k)) = addr 0x300000000 (24 + k) := by
    rw [phys_addr haligned (by omega)]
    congr 1
  have hother := @Ready.issue_other _ _ _
    (startSector (movedTo 0x300000) (requested 0x300000000).mem 0x300000000)
    (sectorCount (movedTo 0x300000) (requested 0x300000000).mem 0x300000000)
    (addr 0x300000000 24) (addr 0x300000000 (24 + k)) hport
    (by rw [hframe]; decide) (by rw [hframe]; decide)
  rw [hplace] at hother
  rw [view, hplace]
  exact hother

/-- With the message in another frame, the device is given other bytes. -/
theorem write_of_other_bytes :
    (∀ i, activePort onePort = some i →
      Ready (movedTo 0x1234) (onePort.ports i) (requested 0x1234000).mem) ∧
    (handleWriteSectors (movedTo 0x1234) onePort 0x300000000 536 true (requested 0x1234000)).1 =
      sectorCount (movedTo 0x1234) (requested 0x1234000).mem 0x300000000 ∧
    ¬ Written (movedTo 0x1234) onePort 0x300000000 536 (requested 0x1234000)
      (handleWriteSectors (movedTo 0x1234) onePort 0x300000000 536 true (requested 0x1234000)).2 := by
  have hport : Ready (movedTo 0x1234) (onePort.ports 0) (requested 0x1234000).mem :=
    ⟨by decide, by decide, by decide +kernel, by decide +kernel, by decide +kernel⟩
  have hready : ∀ i, activePort onePort = some i →
      Ready (movedTo 0x1234) (onePort.ports i) (requested 0x1234000).mem := fun _ _ => hport
  have hperformed : Performed (movedTo 0x1234) onePort 0x300000000 536 true (requested 0x1234000) 0 :=
    ⟨by decide, rfl, by decide +kernel, by decide, by decide +kernel, by decide +kernel, rfl⟩
  have hpos : 0 < sectorCount (movedTo 0x1234) (requested 0x1234000).mem 0x300000000 := by
    decide +kernel
  obtain ⟨-, -, hreply, -⟩ := handleWriteSectors_performed hready hpos hperformed
  refine ⟨hready, hreply, ?_⟩
  rw [write_meets_iff hready hpos hperformed]
  rintro ⟨-, -, hreaches⟩
  have hfirst := hreaches 0 (by decide +kernel)
  exact absurd hfirst (by decide +kernel)

end Messages

end AhciWrite
