import AnosKernel.AhciWrite

/-!
# Reading sectors

`ahci_port_read` and `allocate_aligned_memory` of `servers/ahcidrv/ahci.c`. The sectors are read into
fresh pages that are mapped for them, and are copied from there.
-/

namespace AhciRead

open Bytes AhciWrite

/-! ## Memory for the adapter -/

def ahciMemoryBase : BitVec 64 := 0xA000000000

/-- The driver's memory, and the part of its window that is in use. -/
structure State where
  frames : Frames
  mem : Memory
  memoryOffset : Nat

/-- The results of the system calls, and whether a completion is seen before the driver gives up. -/
structure Answers where
  /-- None is an error. -/
  allocated : Option (BitVec 64)
  mapped : Bool
  inTime : Bool

/-- For an alignment that is a power of two. -/
def roundUp (size alignment : Nat) : Nat := (size + alignment - 1) / alignment * alignment

/-- The pages from `virtAddr` on are the frames from `physAddr` on. -/
def mapPhysical (frames : Frames) (physAddr virtAddr : BitVec 64) (size : Nat) : Frames := fun page =>
  if virtAddr.toNat / 4096 ≤ page ∧ page < virtAddr.toNat / 4096 + size / 4096 then
    BitVec.ofNat 52 (physAddr.toNat / 4096 + (page - virtAddr.toNat / 4096))
  else frames page

def windowAt (s : State) : BitVec 64 := addr ahciMemoryBase s.memoryOffset

/-- The virtual and the physical address. -/
def allocateAlignedMemory (answers : Answers) (size alignment : Nat) (s : State) :
    State × Option (BitVec 64 × BitVec 64) :=
  let alignedSize := roundUp size alignment
  let pageAlignedSize := roundUp alignedSize 4096
  match answers.allocated with
  | none => (s, none)
  | some physAddr =>
    if physAddr = 0 then (s, none)
    else
      let virtAddr := windowAt s
      let s := { s with memoryOffset := s.memoryOffset + pageAlignedSize }
      if answers.mapped then
        let frames := mapPhysical s.frames physAddr virtAddr pageAlignedSize
        ({ s with
            frames := frames
            mem := storeBytes frames s.mem virtAddr (List.replicate alignedSize 0) },
          some (virtAddr, physAddr))
      else (s, none)

/-! ## The command -/

/-- As for a write, but for the bit that says so. -/
def headerFields (old : Byte) : List Byte := [0x05, old &&& 0x08, 1, 0, 0, 0, 0, 0]

def fisRegH2D (lba count : Nat) : List Byte :=
  [0x27, 0x80, 0x25, 0, lbaByte lba 0, lbaByte lba 1, lbaByte lba 2, 0x40,
    lbaByte lba 3, lbaByte lba 4, lbaByte lba 5, 0] ++ toBytes 2 count ++ toBytes 6 0

/-- Sectors of 512 bytes each. -/
structure Device extends Disk where
  whole : ∀ sector ∈ sectors, sector.length = 512

/-- Memory after a read that is found at `clb`; none if the adapter reports an error. -/
def performRead (mem : Memory) (clb : BitVec 64) (device : Device) : Option Memory :=
  let table := BitVec.ofNat 64 (number mem (addr clb 8) 8)
  let fis := readBytes mem table 20
  if (mem clb).getLsbD 6 = false ∧ number mem (addr clb 2) 2 = 1 ∧
      slice 0 3 fis = [0x27, 0x80, 0x25] then
    let lba := ofBytes (slice 4 3 fis ++ slice 8 3 fis)
    let field := ofBytes (slice 12 2 fis)
    let count := if field = 0 then 65536 else field
    if lba + count ≤ device.sectors.length then
      let entry := addr table 128
      some (writeBytes mem (BitVec.ofNat 64 (number mem entry 8))
        ((slice lba count device.sectors).flatten.take (number mem (addr entry 12) 4 % 2 ^ 22 + 1)))
    else none
  else none

/-! ## The driver -/

/-- The header and the FIS, before memory is allocated. -/
def prepare (frames : Frames) (port : AHCIPort) (lba count : Nat) (mem : Memory) : Memory :=
  let mem := storeBytes frames mem port.cmdTables (List.replicate 144 0)
  let mem := storeBytes frames mem port.cmdList (headerFields (view frames mem (port.cmdList + 1)))
  storeBytes frames mem port.cmdTables (fisRegH2D lba count)

def ahciPortRead (port : AHCIPort) (lba count : Nat) (buffer : BitVec 64) (answers : Answers)
    (device : Device) (s : State) : State × Bool :=
  if ¬ port.initialized ∨ buffer = 0 ∨ count = 0 then (s, false)
  else
    let s := { s with mem := prepare s.frames port lba count s.mem }
    let transferSize := count * port.sectorSize.toNat
    match allocateAlignedMemory answers transferSize 4096 s with
    | (s, none) => (s, false)
    | (s, some (dmaBuffer, dmaPhysAddr)) =>
      if dmaBuffer = 0 ∨ dmaPhysAddr = 0 then (s, false)
      else
        let mem := storeBytes s.frames s.mem (addr port.cmdTables 128)
          (prdEntry port count dmaPhysAddr)
        match performRead mem port.clb device with
        | none => ({ s with mem := mem }, false)
        | some mem =>
          if answers.inTime then
            ({ s with
                mem := storeBytes s.frames mem buffer
                  (readBytes (view s.frames mem) dmaBuffer transferSize) }, true)
          else ({ s with mem := mem }, false)

/-! ## What a read is for -/

/-- The buffer holds the sectors. -/
def Holds (s : State) (buffer : BitVec 64) (device : Device) (lba count : Nat) : Prop :=
  ∀ k < count, device.sectors[lba + k]? =
    some (readBytes (view s.frames s.mem) (addr buffer (512 * k)) 512)

/-- A request that 48 bits and the 22 bits of a length can express. -/
def Expressible (lba count : Nat) : Prop := lba < 2 ^ 48 ∧ 512 * count ≤ 2 ^ 22

/-- The buffer holds the sectors on success, and other requests are refused. -/
def ReadsRight (port : AHCIPort) (lba count : Nat) (buffer : BitVec 64) (answers : Answers)
    (device : Device) (s : State) : Prop :=
  let (after, success) := ahciPortRead port lba count buffer answers device s
  (success = true → Holds after buffer device lba count) ∧
    (¬ Expressible lba count → success = false)

/-- What the callers and the kernel promise: the port is set up; the bytes of the buffer lie at
different places, outside of the window; the window is apart from the command, and the pages that
are allocated are fresh. -/
structure Given (port : AHCIPort) (count : Nat) (buffer : BitVec 64) (answers : Answers)
    (s : State) : Prop where
  ready : Ready s.frames port s.mem
  sectorSize : port.sectorSize = 512
  once : ∀ i < 512 * count, ∀ j < 512 * count,
    phys s.frames (addr buffer i) = phys s.frames (addr buffer j) → i = j
  windowAligned : (windowAt s).toNat % 4096 = 0
  windowPos : windowAt s ≠ 0
  windowEnd : (windowAt s).toNat + roundUp (512 * count) 4096 ≤ 2 ^ 64
  bufferEnd : buffer.toNat + 512 * count ≤ 2 ^ 64
  bufferApart : buffer.toNat + 512 * count ≤ (windowAt s).toNat ∨
    (windowAt s).toNat + roundUp (512 * count) 4096 ≤ buffer.toNat
  commandApart : ∀ page, page = port.cmdList ∨ page = port.cmdTables →
    page.toNat + 4096 ≤ (windowAt s).toNat ∨
      (windowAt s).toNat + roundUp (512 * count) 4096 ≤ page.toNat
  pages : ∀ physAddr, answers.allocated = some physAddr →
    physAddr.toNat % 4096 = 0 ∧ physAddr.toNat + roundUp (512 * count) 4096 ≤ 2 ^ 64
  fresh : ∀ physAddr, answers.allocated = some physAddr →
    ∀ page, page = port.cmdList ∨ page = port.cmdTables →
      (phys s.frames page).toNat + 4096 ≤ physAddr.toNat ∨
        physAddr.toNat + roundUp (512 * count) 4096 ≤ (phys s.frames page).toNat

/-- The kernel gives and maps memory, the device has the sectors that the command names, and the
completion is seen. -/
structure Served (port : AHCIPort) (lba count : Nat) (buffer : BitVec 64) (answers : Answers)
    (device : Device) : Prop where
  initialized : port.initialized = true
  buffer : buffer ≠ 0
  positive : 0 < count
  allocated : ∃ physAddr, answers.allocated = some physAddr ∧ physAddr ≠ 0
  mapped : answers.mapped = true
  sectors : lba % 2 ^ 48 + count ≤ device.sectors.length
  inTime : answers.inTime = true

/-! ## Memory in one piece -/

section Pieces

variable {frames : Frames} {mem : Memory} {v p a b : BitVec 64} {i j k m n : Nat}
  {bytes : List Byte}

theorem addr_ne (ha : a.toNat + n ≤ 2 ^ 64) (hb : b.toNat + m ≤ 2 ^ 64)
    (apart : a.toNat + n ≤ b.toNat ∨ b.toNat + m ≤ a.toNat) (hi : i < n) (hj : j < m) :
    addr a i ≠ addr b j := by
  intro h
  have hnat := congrArg BitVec.toNat h
  rw [toNat_addr (by omega), toNat_addr (by omega)] at hnat
  omega

theorem readBytes_apart (ha : a.toNat + n ≤ 2 ^ 64) (hb : b.toNat + bytes.length ≤ 2 ^ 64)
    (apart : a.toNat + n ≤ b.toNat ∨ b.toNat + bytes.length ≤ a.toNat) :
    readBytes (writeBytes mem b bytes) a n = readBytes mem a n :=
  readBytes_congr fun _ hi => writeBytes_outside fun _ hj => addr_ne ha hb apart hi hj

/-- Where physical memory is in one piece, stores are made to it. -/
theorem storeBytes_piece (piece : ∀ k < bytes.length, phys frames (addr v k) = addr p k) :
    storeBytes frames mem v bytes = writeBytes mem p bytes := by
  induction bytes generalizing mem v p with
  | nil => rfl
  | cons byte bytes ih =>
    have hfirst := piece 0 (Nat.zero_lt_succ _)
    rw [addr_zero, addr_zero] at hfirst
    rw [storeBytes, writeBytes, hfirst]
    apply ih
    intro k hk
    rw [addr_succ, addr_succ]
    exact piece (k + 1) (Nat.succ_lt_succ hk)

theorem readBytes_piece (piece : ∀ k < n, phys frames (addr v k) = addr p k) :
    readBytes (view frames mem) v n = readBytes mem p n := by
  apply List.ext_getElem
  · rw [length_readBytes, length_readBytes]
  · intro k hk hk'
    rw [getElem_readBytes hk, getElem_readBytes hk', view]
    rw [length_readBytes] at hk
    rw [piece k hk]

theorem storeBytes_outside {x : BitVec 64}
    (outside : ∀ k < bytes.length, x ≠ phys frames (addr v k)) :
    storeBytes frames mem v bytes x = mem x := by
  induction bytes generalizing mem v with
  | nil => rfl
  | cons byte bytes ih =>
    have hfirst := outside 0 (Nat.zero_lt_succ _)
    rw [addr_zero] at hfirst
    rw [storeBytes, ih, Function.update_of_ne hfirst]
    intro k hk
    rw [addr_succ]
    exact outside (k + 1) (Nat.succ_lt_succ hk)

/-- What is stored is read back, if no two bytes have the same place. -/
theorem readBytes_storeBytes
    (once : ∀ i < bytes.length, ∀ j < bytes.length,
      phys frames (addr v i) = phys frames (addr v j) → i = j) :
    readBytes (view frames (storeBytes frames mem v bytes)) v bytes.length = bytes := by
  induction bytes generalizing mem v with
  | nil => rfl
  | cons byte bytes ih =>
    rw [List.length_cons, readBytes, storeBytes]
    congr 1
    · rw [view, storeBytes_outside, Function.update_self]
      intro k hk hsame
      rw [addr_succ] at hsame
      have hplaces := once 0 (Nat.zero_lt_succ _) (k + 1) (Nat.succ_lt_succ hk)
      rw [addr_zero] at hplaces
      exact absurd (hplaces hsame) (by omega)
    · apply ih
      intro i hi j hj hsame
      rw [addr_succ, addr_succ] at hsame
      exact Nat.succ.inj (once (i + 1) (Nat.succ_lt_succ hi) (j + 1) (Nat.succ_lt_succ hj) hsame)

/-- A sector of several. -/
theorem slice_flatten {sectors : List (List Byte)} {sector : List Byte}
    (whole : ∀ sector ∈ sectors, sector.length = 512) (hk : sectors[k]? = some sector) :
    slice (512 * k) 512 sectors.flatten = sector := by
  induction sectors generalizing k with
  | nil => cases hk
  | cons first sectors ih =>
    have hfirst := whole first List.mem_cons_self
    rw [List.flatten_cons]
    cases k with
    | zero =>
      cases hk
      rw [Nat.mul_zero, slice, List.drop_zero, List.take_left' hfirst]
    | succ k =>
      rw [List.getElem?_cons_succ] at hk
      rw [Nat.mul_succ, Nat.add_comm, slice, ← List.drop_drop, List.drop_left' hfirst]
      exact ih (fun sector h => whole sector (List.mem_cons_of_mem _ h)) hk

theorem length_flatten {sectors : List (List Byte)}
    (whole : ∀ sector ∈ sectors, sector.length = 512) :
    sectors.flatten.length = 512 * sectors.length := by
  induction sectors with
  | nil => rfl
  | cons first sectors ih =>
    rw [List.flatten_cons, List.length_append, whole first List.mem_cons_self,
      ih fun sector h => whole sector (List.mem_cons_of_mem _ h), List.length_cons]
    omega

end Pieces

/-! ## The window -/

section Window

variable {frames : Frames} {physAddr virtAddr v : BitVec 64} {k size : Nat}

theorem phys_inside (virtAligned : virtAddr.toNat % 4096 = 0)
    (physAligned : physAddr.toNat % 4096 = 0) (pages : size % 4096 = 0)
    (virtEnd : virtAddr.toNat + size ≤ 2 ^ 64) (physEnd : physAddr.toNat + size ≤ 2 ^ 64)
    (hk : k < size) :
    phys (mapPhysical frames physAddr virtAddr size) (addr virtAddr k) = addr physAddr k := by
  have hvirt : (addr virtAddr k).toNat = virtAddr.toNat + k := toNat_addr (by omega)
  have hphys : (addr physAddr k).toNat = physAddr.toNat + k := toNat_addr (by omega)
  apply BitVec.eq_of_toNat_eq
  rw [toNat_phys, frameOf, mapPhysical, hvirt, hphys, if_pos (by omega), BitVec.toNat_ofNat]
  omega

theorem phys_outside (virtAligned : virtAddr.toNat % 4096 = 0) (pages : size % 4096 = 0)
    (outside : v.toNat < virtAddr.toNat ∨ virtAddr.toNat + size ≤ v.toNat) :
    phys (mapPhysical frames physAddr virtAddr size) v = phys frames v := by
  apply BitVec.eq_of_toNat_eq
  rw [toNat_phys, toNat_phys, frameOf, frameOf, mapPhysical, if_neg (by omega)]

theorem roundUp_pages (size : Nat) : roundUp size 4096 % 4096 = 0 := Nat.mul_mod_left _ _

theorem le_roundUp (size : Nat) : size ≤ roundUp size 4096 := by
  rw [roundUp]
  omega

theorem roundUp_idem (size : Nat) : roundUp (roundUp size 4096) 4096 = roundUp size 4096 := by
  have hpages := roundUp_pages size
  generalize roundUp size 4096 = rounded at *
  rw [roundUp]
  omega

end Window

/-! ## The command in memory -/

section Command

variable {frames : Frames} {port : AHCIPort} {mem : Memory} {lba count : Nat}
  {clb table physAddr : BitVec 64} {device : Device}

theorem length_headerFields (old : Byte) : (headerFields old).length = 8 := rfl

theorem length_fisRegH2D : (fisRegH2D lba count).length = 20 := by
  rw [fisRegH2D, List.length_append, List.length_append, length_toBytes, length_toBytes]
  rfl

/-- A command of the driver, as the adapter finds it. -/
structure Commanded (port : AHCIPort) (lba count : Nat) (table physAddr : BitVec 64)
    (mem : Memory) : Prop where
  header : ∃ old, readBytes mem port.clb 8 = headerFields old
  ctba : number mem (addr port.clb 8) 8 = table.toNat
  fis : readBytes mem table 20 = fisRegH2D lba count
  entry : readBytes mem (addr table 128) 16 = prdEntry port count physAddr

/-- The adapter performs it just if the device has the sectors. -/
theorem Commanded.performRead_eq (commanded : Commanded port lba count table physAddr mem)
    (pos : 0 < count) (few : count < 65536) :
    performRead mem port.clb device =
      if lba % 2 ^ 48 + count ≤ device.sectors.length then
        some (writeBytes mem physAddr
          ((slice (lba % 2 ^ 48) count device.sectors).flatten.take (dbc port count + 1)))
      else none := by
  obtain ⟨old, hheader⟩ := commanded.header
  have hfirst : (mem port.clb).getLsbD 6 = false := by
    have hbyte : mem port.clb = 0x05 := (List.cons.inj hheader).1
    rw [hbyte]
    decide
  have hprdtl : number mem (addr port.clb 2) 2 = 1 := by
    have hslice := @slice_readBytes 2 2 mem port.clb 8 (by decide)
    rw [hheader] at hslice
    rw [number, ← hslice]
    rfl
  have hcommand : slice 0 3 (fisRegH2D lba count) = [0x27, 0x80, 0x25] := rfl
  have hlba : ofBytes (slice 4 3 (fisRegH2D lba count) ++ slice 8 3 (fisRegH2D lba count)) =
      lba % 2 ^ 48 := @lba_of_fis lba count
  have hcount : ofBytes (slice 12 2 (fisRegH2D lba count)) = count := @count_of_fis lba count few
  have hdba : number mem (addr table 128) 8 = physAddr.toNat := by
    have hslice := @slice_readBytes 0 8 mem (addr table 128) 16 (by decide)
    have hbytes : slice 0 8 (prdEntry port count physAddr) = toBytes 8 physAddr.toNat := rfl
    rw [commanded.entry, addr_zero, hbytes] at hslice
    rw [number, ← hslice, ofBytes_toBytes physAddr.isLt]
  have hdbc : number mem (addr (addr table 128) 12) 4 % 2 ^ 22 = dbc port count := by
    have hslice := @slice_readBytes 12 4 mem (addr table 128) 16 (by decide)
    have hbytes : slice 12 4 (prdEntry port count physAddr) = toBytes 4 (dbc port count + 2 ^ 31) :=
      rfl
    have hsmall : dbc port count < 2 ^ 22 := Nat.mod_lt _ (by decide)
    rw [commanded.entry, hbytes] at hslice
    rw [number, ← hslice, ofBytes_toBytes (by omega)]
    omega
  rw [performRead]
  simp only [commanded.ctba, BitVec.ofNat_toNat, BitVec.setWidth_eq, commanded.fis, hfirst, hprdtl,
    hcommand, hlba, hcount, hdba, hdbc, if_neg (Nat.pos_iff_ne_zero.mp pos), and_self, if_true]

/-- The stores that leave a command, in the frames of the pages. -/
theorem prepare_eq (ready : Ready frames port mem) : ∃ old, prepare frames port lba count mem =
    writeBytes (writeBytes (writeBytes mem (phys frames port.cmdTables) (List.replicate 144 0))
      (phys frames port.cmdList) (headerFields old)) (phys frames port.cmdTables)
      (fisRegH2D lba count) := by
  have hzeros := @storeBytes_page frames mem _ (List.replicate 144 0) ready.tablesAligned
    (by rw [List.length_replicate]; decide)
  have hheader := fun m old => @storeBytes_page frames m _ (headerFields old) ready.listAligned
    (by rw [length_headerFields]; decide)
  have hfis := fun m => @storeBytes_page frames m _ (fisRegH2D lba count) ready.tablesAligned
    (by rw [length_fisRegH2D]; decide)
  exact ⟨_, by rw [prepare, hzeros, hheader, hfis]⟩

/-- A frame of a page. -/
theorem phys_page {v : BitVec 64} (aligned : v.toNat % 4096 = 0) :
    (phys frames v).toNat % 4096 = 0 ∧ (phys frames v).toNat + 4096 ≤ 2 ^ 64 := by
  have hlt := (frameOf frames v).isLt
  rw [toNat_phys]
  omega

theorem commanded_of_ready (ready : Ready frames port mem) {size : Nat}
    (physEnd : physAddr.toNat + size ≤ 2 ^ 64)
    (fresh : ∀ page, page = port.cmdList ∨ page = port.cmdTables →
      (phys frames page).toNat + 4096 ≤ physAddr.toNat ∨
        physAddr.toNat + size ≤ (phys frames page).toNat) :
    Commanded port lba count (phys frames port.cmdTables) physAddr
      (writeBytes (writeBytes (prepare frames port lba count mem) physAddr (List.replicate size 0))
        (addr (phys frames port.cmdTables) 128) (prdEntry port count physAddr)) := by
  obtain ⟨old, hprepare⟩ := @prepare_eq frames port mem lba count ready
  have hlistFresh := fresh port.cmdList (Or.inl rfl)
  have htablesFresh := fresh port.cmdTables (Or.inr rfl)
  have hlist := @phys_page frames _ ready.listAligned
  have htables := @phys_page frames _ ready.tablesAligned
  have hne : (phys frames port.cmdList).toNat ≠ (phys frames port.cmdTables).toNat := by
    intro heq
    have hvirt := ready.listAligned
    have hvirt' := ready.tablesAligned
    rw [toNat_phys, toNat_phys] at heq
    exact ready.apart (BitVec.eq_of_toNat_eq (by omega))
  have hclb := ready.clb
  have hctba := ready.ctba
  rw [hclb] at hctba
  rw [hprepare]
  generalize phys frames port.cmdList = list at *
  generalize phys frames port.cmdTables = table at *
  have hentry : (addr table 128).toNat = table.toNat + 128 := toNat_addr (by omega)
  have hlink : (addr list 8).toNat = list.toNat + 8 := toNat_addr (by omega)
  have hzeros : (List.replicate size (0 : Byte)).length = size := List.length_replicate
  have hclear : (List.replicate 144 (0 : Byte)).length = 144 := List.length_replicate
  have hheaderLength := length_headerFields old
  have hfisLength := @length_fisRegH2D lba count
  have hentryLength := @length_prdEntry port count physAddr
  constructor
  · refine ⟨old, ?_⟩
    rw [hclb, readBytes_apart (by omega) (by omega) (by omega),
      readBytes_apart (by omega) (by omega) (by omega),
      readBytes_apart (by omega) (by omega) (by omega)]
    exact readBytes_writeBytes (by rw [hheaderLength]; decide)
  · rw [hclb, number, readBytes_apart (by omega) (by omega) (by omega),
      readBytes_apart (by omega) (by omega) (by omega),
      readBytes_apart (by omega) (by omega) (by omega),
      readBytes_apart (by omega) (by omega) (by omega),
      readBytes_apart (by omega) (by omega) (by omega)]
    exact hctba
  · rw [readBytes_apart (by omega) (by omega) (by omega),
      readBytes_apart (by omega) (by omega) (by omega)]
    have hread := fun m => @readBytes_writeBytes m table (fisRegH2D lba count)
      (by rw [hfisLength]; decide)
    rw [hfisLength] at hread
    exact hread _
  · have hread := fun m => @readBytes_writeBytes m (addr table 128) (prdEntry port count physAddr)
      (by rw [hentryLength]; decide)
    rw [hentryLength] at hread
    exact hread _

end Command

/-! ## Reading -/

section Reading

variable {port : AHCIPort} {lba count : Nat} {buffer : BitVec 64} {answers : Answers}
  {device : Device} {s : State}

/-- The bytes of the sectors that the command names. -/
def sectorBytes (device : Device) (lba count : Nat) : List Byte :=
  (slice (lba % 2 ^ 48) count device.sectors).flatten

/-- The frames after the allocation. -/
def mappedFrames (s : State) (physAddr : BitVec 64) (count : Nat) : Frames :=
  mapPhysical s.frames physAddr (windowAt s) (roundUp (512 * count) 4096)

theorem Given.inside (given : Given port count buffer answers s) {physAddr : BitVec 64}
    (allocated : answers.allocated = some physAddr) {k : Nat} (hk : k < roundUp (512 * count) 4096) :
    phys (mappedFrames s physAddr count) (addr (windowAt s) k) = addr physAddr k := by
  obtain ⟨haligned, hend⟩ := given.pages physAddr allocated
  exact phys_inside given.windowAligned haligned (roundUp_pages _) given.windowEnd hend hk

theorem Given.allocate_eq (given : Given port count buffer answers s) {physAddr : BitVec 64}
    (allocated : answers.allocated = some physAddr) (valid : physAddr ≠ 0)
    (mapped : answers.mapped = true) (mem : Memory) :
    allocateAlignedMemory answers (512 * count) 4096 { s with mem := mem } =
      ({ frames := mappedFrames s physAddr count
         mem := writeBytes mem physAddr (List.replicate (roundUp (512 * count) 4096) 0)
         memoryOffset := s.memoryOffset + roundUp (512 * count) 4096 },
        some (windowAt s, physAddr)) := by
  have hstore : storeBytes (mappedFrames s physAddr count) mem (windowAt s)
      (List.replicate (roundUp (512 * count) 4096) 0) =
      writeBytes mem physAddr (List.replicate (roundUp (512 * count) 4096) 0) := by
    apply storeBytes_piece
    intro k hk
    rw [List.length_replicate] at hk
    exact given.inside allocated hk
  rw [allocateAlignedMemory, allocated]
  dsimp only
  rw [if_neg valid, if_pos mapped, roundUp_idem, ← hstore]
  rfl

/-- The command is found where the port is set up. -/
theorem Given.commanded (given : Given port count buffer answers s) {physAddr : BitVec 64}
    (allocated : answers.allocated = some physAddr) (lba : Nat) :
    Commanded port lba count (phys s.frames port.cmdTables) physAddr
      (storeBytes (mappedFrames s physAddr count)
        (writeBytes (prepare s.frames port lba count s.mem) physAddr
          (List.replicate (roundUp (512 * count) 4096) 0))
        (addr port.cmdTables 128) (prdEntry port count physAddr)) := by
  obtain ⟨-, hend⟩ := given.pages physAddr allocated
  have hsame : phys (mappedFrames s physAddr count) port.cmdTables = phys s.frames port.cmdTables := by
    have hapart := given.commandApart port.cmdTables (Or.inr rfl)
    exact phys_outside given.windowAligned (roundUp_pages _) (by omega)
  rw [storeBytes_eq given.ready.tablesAligned (by rw [length_prdEntry]; decide), hsame]
  exact commanded_of_ready given.ready hend (given.fresh physAddr allocated)

theorem ahciPortRead_served (given : Given port count buffer answers s) (few : count < 65536)
    (served : Served port lba count buffer answers device) :
    ∃ after, ahciPortRead port lba count buffer answers device s = (after, true) ∧
      (512 * count ≤ 2 ^ 22 →
        readBytes (view after.frames after.mem) buffer (512 * count) =
          sectorBytes device lba count) := by
  obtain ⟨physAddr, hallocated, hvalid⟩ := served.allocated
  have hsize : count * port.sectorSize.toNat = 512 * count := by
    rw [given.sectorSize]
    exact Nat.mul_comm _ _
  have hchecks : ¬ (¬ port.initialized ∨ buffer = 0 ∨ count = 0) := by
    rintro (hport | hbuffer | hcount)
    · exact hport served.initialized
    · exact served.buffer hbuffer
    · exact absurd served.positive (by omega)
  have hperform := @Commanded.performRead_eq _ _ _ _ _ _ device (given.commanded hallocated lba)
    served.positive few
  rw [if_pos served.sectors, ← sectorBytes] at hperform
  rw [ahciPortRead, if_neg hchecks]
  dsimp only
  rw [hsize, given.allocate_eq hallocated hvalid served.mapped]
  dsimp only
  rw [if_neg (not_or.mpr ⟨given.windowPos, hvalid⟩), hperform]
  dsimp only
  rw [if_pos served.inTime]
  refine ⟨_, rfl, ?_⟩
  intro hsmall
  dsimp only
  generalize storeBytes (mappedFrames s physAddr count) _ (addr port.cmdTables 128) _ = mem
  have hlength : (sectorBytes device lba count).length = 512 * count := by
    have hwhole : ∀ sector ∈ slice (lba % 2 ^ 48) count device.sectors, sector.length = 512 :=
      fun sector hmem => device.whole sector (List.mem_of_mem_drop (List.mem_of_mem_take hmem))
    rw [sectorBytes, length_flatten hwhole, length_slice served.sectors]
  have hdbc : dbc port count + 1 = 512 * count := by
    have hpos := served.positive
    rw [dbc, hsize]
    omega
  have hroundUp := le_roundUp (512 * count)
  have hread : readBytes (view (mappedFrames s physAddr count)
      (writeBytes mem physAddr ((sectorBytes device lba count).take
        (dbc port count + 1)))) (windowAt s) (512 * count) = sectorBytes device lba count := by
    rw [readBytes_piece fun k hk => given.inside hallocated (by omega), hdbc,
      List.take_of_length_le hlength.le]
    have hback := @readBytes_writeBytes mem physAddr (sectorBytes device lba count) (by omega)
    rw [hlength] at hback
    exact hback
  rw [hread]
  have honce : ∀ i < (sectorBytes device lba count).length,
      ∀ j < (sectorBytes device lba count).length,
      phys (mappedFrames s physAddr count) (addr buffer i) =
        phys (mappedFrames s physAddr count) (addr buffer j) → i = j := by
    have houtside : ∀ i < 512 * count, phys (mappedFrames s physAddr count) (addr buffer i) =
        phys s.frames (addr buffer i) := by
      intro i hi
      have hend := given.bufferEnd
      have hapart := given.bufferApart
      have haddress : (addr buffer i).toNat = buffer.toNat + i := toNat_addr (by omega)
      exact phys_outside given.windowAligned (roundUp_pages _) (by omega)
    rw [hlength]
    intro i hi j hj hsame
    rw [houtside i hi, houtside j hj] at hsame
    exact given.once i hi j hj hsame
  have hstored := @readBytes_storeBytes _ (writeBytes mem physAddr
    ((sectorBytes device lba count).take (dbc port count + 1))) buffer _ honce
  rw [hlength] at hstored
  exact hstored

/-- A read that succeeds was served. -/
theorem served_of_success (given : Given port count buffer answers s) (few : count < 65536)
    (h : (ahciPortRead port lba count buffer answers device s).2 = true) :
    Served port lba count buffer answers device := by
  have hsize : count * port.sectorSize.toNat = 512 * count := by
    rw [given.sectorSize]
    exact Nat.mul_comm _ _
  rw [ahciPortRead] at h
  by_cases hchecks : ¬ port.initialized ∨ buffer = 0 ∨ count = 0
  · rw [if_pos hchecks] at h
    cases h
  rw [if_neg hchecks] at h
  dsimp only at h
  rw [hsize] at h
  rw [not_or, not_or, not_not] at hchecks
  obtain ⟨hport, hbuffer, hcount⟩ := hchecks
  have hpos : 0 < count := Nat.pos_of_ne_zero hcount
  cases hallocated : answers.allocated with
  | none =>
    rw [allocateAlignedMemory, hallocated] at h
    cases h
  | some physAddr =>
    by_cases hvalid : physAddr = 0
    · rw [allocateAlignedMemory, hallocated] at h
      dsimp only at h
      rw [if_pos hvalid] at h
      cases h
    cases hmapped : answers.mapped with
    | false =>
      rw [allocateAlignedMemory, hallocated, hmapped] at h
      dsimp only at h
      rw [if_neg hvalid, if_neg Bool.false_ne_true] at h
      cases h
    | true =>
      have hperform := @Commanded.performRead_eq _ _ _ _ _ _ device (given.commanded hallocated lba)
        hpos few
      rw [given.allocate_eq hallocated hvalid hmapped] at h
      dsimp only at h
      rw [if_neg (not_or.mpr ⟨given.windowPos, hvalid⟩), hperform] at h
      by_cases hsectors : lba % 2 ^ 48 + count ≤ device.sectors.length
      · rw [if_pos hsectors] at h
        dsimp only at h
        cases htime : answers.inTime with
        | false =>
          rw [htime, if_neg Bool.false_ne_true] at h
          cases h
        | true =>
          exact ⟨hport, hbuffer, hpos, ⟨physAddr, hallocated, hvalid⟩, hmapped, hsectors, htime⟩
      · rw [if_neg hsectors] at h
        cases h

/-- Sectors whose number fits are those of the request. -/
theorem holds_of_sectorBytes {after : State}
    (fits : lba % 2 ^ 48 + count ≤ device.sectors.length) (small : lba < 2 ^ 48)
    (bytes : readBytes (view after.frames after.mem) buffer (512 * count) =
      sectorBytes device lba count) : Holds after buffer device lba count := by
  intro k hk
  rw [sectorBytes, Nat.mod_eq_of_lt small] at bytes
  rw [Nat.mod_eq_of_lt small] at fits
  have hsector : (slice lba count device.sectors)[k]? = device.sectors[lba + k]? := by
    rw [slice, List.getElem?_take_of_lt hk, List.getElem?_drop]
  have hwhole : ∀ sector ∈ slice lba count device.sectors, sector.length = 512 :=
    fun sector hmem => device.whole sector (List.mem_of_mem_drop (List.mem_of_mem_take hmem))
  have hget : device.sectors[lba + k]? = some device.sectors[lba + k] :=
    List.getElem?_eq_getElem (by omega)
  have hslice := @slice_readBytes (512 * k) 512 (view after.frames after.mem) buffer (512 * count)
    (by omega)
  rw [bytes, slice_flatten hwhole (hsector.trans hget)] at hslice
  rw [hget, hslice]

/-- Reads are right just if the call fails anyway or the request can be expressed. -/
theorem readsRight_iff_served (given : Given port count buffer answers s) (few : count < 65536) :
    ReadsRight port lba count buffer answers device s ↔
      ¬ Served port lba count buffer answers device ∨ Expressible lba count := by
  have hpair : ∀ result : State × Bool,
      (let (after, success) := result
       (success = true → Holds after buffer device lba count) ∧
        (¬ Expressible lba count → success = false)) ↔
      (result.2 = true → Holds result.1 buffer device lba count) ∧
        (¬ Expressible lba count → result.2 = false) := fun _ => Iff.rfl
  rw [ReadsRight, hpair]
  by_cases hserved : Served port lba count buffer answers device
  · obtain ⟨after, hread, hbytes⟩ := ahciPortRead_served given few hserved
    rw [hread]
    constructor
    · rintro ⟨-, hrefused⟩
      right
      by_contra hwide
      exact Bool.noConfusion (hrefused hwide)
    · rintro (hno | ⟨hlba, hcount⟩)
      · exact absurd hserved hno
      · exact ⟨fun _ => holds_of_sectorBytes hserved.sectors hlba (hbytes hcount),
          fun hwide => absurd ⟨hlba, hcount⟩ hwide⟩
  · have hfailed : (ahciPortRead port lba count buffer answers device s).2 = false := by
      by_contra hsuccess
      exact hserved (served_of_success given few (Bool.eq_true_of_not_eq_false hsuccess))
    rw [hfailed]
    exact iff_of_true ⟨fun h => absurd h Bool.false_ne_true, fun _ => rfl⟩ (Or.inl hserved)

end Reading

/-- For every sector number and count: reads are right just if the call fails anyway, or the number
fits in 48 bits and the length in 22. -/
theorem ahciPortRead_right_iff {port : AHCIPort} {lba : BitVec 64} {count : BitVec 16}
    {buffer : BitVec 64} {answers : Answers} {device : Device} {s : State}
    (given : Given port count.toNat buffer answers s) :
    ReadsRight port lba.toNat count.toNat buffer answers device s ↔
      ¬ Served port lba.toNat count.toNat buffer answers device ∨
        Expressible lba.toNat count.toNat :=
  readsRight_iff_served given count.isLt

/-- The driver after its start, with a page of a caller. -/
def started : State where
  frames := movedTo 0x300000
  mem := (requested 0x300000000).mem
  memoryOffset := 0x10000

def granted : Answers := ⟨some 0x100000, true, true⟩

theorem ten_small : (List.replicate 10 (List.replicate 512 (0 : Byte))).length ≤ 2 ^ 48 := by
  rw [List.length_replicate]
  decide

theorem ten_whole : ∀ sector ∈ List.replicate 10 (List.replicate 512 (0 : Byte)),
    sector.length = 512 := by
  intro sector hmem
  rw [List.eq_of_mem_replicate hmem, List.length_replicate]

def tenSectors : Device := ⟨⟨List.replicate 10 (List.replicate 512 0), ten_small⟩, ten_whole⟩

theorem given_started : Given (onePort.ports 0) 1 0x300000000 granted started := by
  have haligned : (0x300000000 : BitVec 64).toNat % 4096 = 0 := by decide
  constructor
  · exact ⟨by decide, by decide, by decide +kernel, by decide +kernel, by decide +kernel⟩
  · rfl
  · intro i hi j hj hsame
    rw [phys_addr haligned (by omega), phys_addr haligned (by omega)] at hsame
    exact addr_inj (by omega) (by omega) hsame
  · decide
  · decide
  · decide
  · decide
  · decide
  · rintro page (rfl | rfl)
    · decide
    · decide
  · rintro physAddr hallocated
    cases hallocated
    decide
  · rintro physAddr hallocated page (rfl | rfl)
    · cases hallocated
      decide +kernel
    · cases hallocated
      decide +kernel

theorem ahciPortRead_right_iff_sector :
    ReadsRight (onePort.ports 0) (5 : BitVec 64).toNat (1 : BitVec 16).toNat 0x300000000 granted
        tenSectors started ↔
      ¬ Served (onePort.ports 0) (5 : BitVec 64).toNat (1 : BitVec 16).toNat 0x300000000 granted
          tenSectors ∨
        Expressible (5 : BitVec 64).toNat (1 : BitVec 16).toNat :=
  ahciPortRead_right_iff given_started

/-- Sector `2 ^ 48` is not refused: sector 0 is read for it. -/
theorem wide_sector_not_refused :
    ¬ ReadsRight (onePort.ports 0) (0x1000000000000 : BitVec 64).toNat (1 : BitVec 16).toNat
      0x300000000 granted tenSectors started := by
  have hgiven : Given (onePort.ports 0) (1 : BitVec 16).toNat 0x300000000 granted started :=
    given_started
  rw [readsRight_iff_served hgiven (by decide)]
  rintro (hno | ⟨hlba, -⟩)
  · exact hno ⟨rfl, by decide, by decide, ⟨0x100000, rfl, by decide⟩, rfl, by decide, rfl⟩
  · exact absurd hlba (by decide)

end AhciRead
