import Mathlib.Data.Nat.Find
import AnosKernel.Lib.Bytes
import AnosKernel.Lib.Checked

/-!
# The ACPI tables in DEVMAN

`parse_acpi_rsdp`, `find_acpi_table` and `parse_mcfg_table` of `servers/devman/main.c`. One page is
mapped for each table; a read of another page is a fault. Addresses are numbers, as no sum comes
near `2 ^ 64`.
-/

namespace DevmanAcpi

open Bytes Checked

abbrev Byte := BitVec 8

/-! ## Pages -/

/-- Physical memory, and whether a physical page can be mapped at a virtual address. -/
structure Machine where
  mem : Nat → Byte
  maps : Nat → Nat → Bool

/-- The physical address of each virtual page that is mapped. -/
abbrev Space := Nat → Option Nat

def mapPhysical (space : Space) (virt physPage : Nat) : Space :=
  Function.update space (virt / 4096) (some physPage)

/-- None is a fault. -/
def readByte (m : Machine) (space : Space) (v : Nat) : Option Byte :=
  (space (v / 4096)).map fun page => m.mem (page + v % 4096)

def readNumber (m : Machine) (space : Space) (v size : Nat) : Option Nat :=
  ((List.range size).mapM fun k => readByte m space (v + k)).map ofBytes

/-- Whether there are these bytes; after one that differs none is read. -/
def strncmp (m : Machine) (space : Space) : Nat → List Byte → Option Bool
  | _, [] => some true
  | v, c :: rest =>
    (readByte m space v).bind fun b => if b = c then strncmp m space (v + 1) rest else some false

/-! ## The tables -/

def userAcpiBase : Nat := 0x8040000000

/-- The product is one of 32 bits. -/
def tempBase (i : Nat) : Nat := userAcpiBase + 0x10000 + i * 0x1000 % 2 ^ 32

/-- The loop, with the rounds that are left. -/
def findAcpiTable (m : Machine) (signature : List Byte) (entries : Nat) :
    Nat → Nat → Space → Option (Space × Option Nat)
  | 0, _, space => some (space, none)
  | n + 1, i, space =>
    (readNumber m space (entries + 4 * i) 4).bind fun low =>
    (readNumber m space (entries + 4 * (i + 1)) 4).bind fun high =>
    let tableAddr := low + 2 ^ 32 * high
    let physPage := tableAddr / 4096 * 4096
    let offset := tableAddr % 4096
    if m.maps (tempBase i) physPage then
      let space := mapPhysical space (tempBase i) physPage
      (strncmp m space (tempBase i + offset) signature).bind fun equal =>
        if equal then some (space, some (tempBase i + offset))
        else findAcpiTable m signature entries n (i + 2) space
    else findAcpiTable m signature entries n (i + 2) space

structure MCFGEntry where
  baseAddress : Nat
  pciSegmentGroup : Nat
  startBusNumber : Nat
  endBusNumber : Nat
  deriving DecidableEq

/-- What `spawn_pci_bus_driver` reads. -/
def readEntry (m : Machine) (space : Space) (v : Nat) : Option MCFGEntry :=
  (readNumber m space v 8).bind fun baseAddress =>
  (readNumber m space (v + 8) 2).bind fun pciSegmentGroup =>
  (readNumber m space (v + 10) 1).bind fun startBusNumber =>
  (readNumber m space (v + 11) 1).map fun endBusNumber =>
    ⟨baseAddress, pciSegmentGroup, startBusNumber, endBusNumber⟩

/-- The entries of the drivers that are spawned. -/
def parseMcfgTable (m : Machine) (space : Space) (table : Nat) : Option (List MCFGEntry) :=
  (readNumber m space (table + 4) 4).bind fun length =>
    let entriesSize := (length + 2 ^ 32 - 44) % 2 ^ 32
    let numEntries := entriesSize / 16
    (List.range numEntries).mapM fun i => readEntry m space (table + 44 + 16 * i)

structure ACPIRSDP where
  revision : BitVec 8
  rsdtAddress : BitVec 32
  xsdtAddress : BitVec 64

def mcfgSignature : List Byte := [0x4D, 0x43, 0x46, 0x47]

/-- The rounds of the loop in `find_acpi_table`, for the length of an XSDT. -/
def rounds (length : Nat) : Nat :=
  let entryCount := (length + 2 ^ 64 - 36) % 2 ^ 64 / 8 % 2 ^ 32
  entryCount * 2 % 2 ^ 32 / 2

def UsesXsdt (rsdp : ACPIRSDP) : Prop := 2 ≤ rsdp.revision.toNat ∧ rsdp.xsdtAddress ≠ 0

instance (rsdp : ACPIRSDP) : Decidable (UsesXsdt rsdp) := inferInstanceAs (Decidable (_ ∧ _))

def parseAcpiRsdp (m : Machine) (rsdp : ACPIRSDP) : Option (List MCFGEntry) :=
  let tableAddr := if UsesXsdt rsdp then rsdp.xsdtAddress.toNat else rsdp.rsdtAddress.toNat
  if tableAddr = 0 then some []
  else if m.maps userAcpiBase (tableAddr / 4096 * 4096) then
    let space := mapPhysical (fun _ => none) userAcpiBase (tableAddr / 4096 * 4096)
    let table := userAcpiBase + tableAddr % 4096
    if UsesXsdt rsdp then
      (readNumber m space (table + 4) 4).bind fun length =>
      (findAcpiTable m mcfgSignature (table + 36) (rounds length) 0 space).bind fun (space, found) =>
        match found with
        | none => some []
        | some mcfg => parseMcfgTable m space mcfg
    else some []
  else some []

/-! ## The tables in physical memory -/

def bytesAt (m : Machine) (a size : Nat) : List Byte := (List.range size).map fun k => m.mem (a + k)

def numberAt (m : Machine) (a size : Nat) : Nat := ofBytes (bytesAt m a size)

/-- The address in an entry of the XSDT. -/
def listed (m : Machine) (root j : Nat) : Nat :=
  numberAt m (root + 36 + 8 * j) 4 + 2 ^ 32 * numberAt m (root + 36 + 8 * j + 4) 4

/-- The table of an entry can be mapped when its turn comes. -/
def Mappable (m : Machine) (root j : Nat) : Prop :=
  m.maps (tempBase (2 * j)) (listed m root j / 4096 * 4096) = true

def IsMcfg (m : Machine) (root j : Nat) : Prop :=
  Mappable m root j ∧ bytesAt m (listed m root j) 4 = mcfgSignature

instance (m : Machine) (root j : Nat) : Decidable (Mappable m root j) :=
  inferInstanceAs (Decidable (_ = _))

instance (m : Machine) (root j : Nat) : Decidable (IsMcfg m root j) :=
  inferInstanceAs (Decidable (_ ∧ _))

/-- The first table with the signature, of the next `n` entries from entry `j` on. -/
def firstMcfg (m : Machine) (root : Nat) : Nat → Nat → Option Nat
  | 0, _ => none
  | n + 1, j => if IsMcfg m root j then some (listed m root j) else firstMcfg m root n (j + 1)

def entryAt (m : Machine) (a : Nat) : MCFGEntry where
  baseAddress := numberAt m a 8
  pciSegmentGroup := numberAt m (a + 8) 2
  startBusNumber := numberAt m (a + 10) 1
  endBusNumber := numberAt m (a + 11) 1

/-- The whole entries that lie within the length of a table. -/
def wholeEntries (m : Machine) (table : Nat) : List MCFGEntry :=
  (List.range ((numberAt m (table + 4) 4 - 44) / 16)).map fun i => entryAt m (table + 44 + 16 * i)

/-- The MCFG table of the XSDT, if there is one. -/
def mcfgOf (m : Machine) (rsdp : ACPIRSDP) : Option Nat :=
  let root := rsdp.xsdtAddress.toNat
  if UsesXsdt rsdp ∧ m.maps userAcpiBase (root / 4096 * 4096) then
    firstMcfg m root (rounds (numberAt m (root + 4) 4)) 0
  else none

/-- No byte of another page is read, and a driver is spawned for each whole entry. -/
def ParsesRight (m : Machine) (rsdp : ACPIRSDP) : Prop :=
  parseAcpiRsdp m rsdp = some (((mcfgOf m rsdp).map (wholeEntries m)).getD [])

/-! ## Tables that fit in their pages -/

/-- Bytes from an address on lie in the page of a table. -/
def InPage (table a size : Nat) : Prop := a + size ≤ table / 4096 * 4096 + 4096

instance (table a size : Nat) : Decidable (InPage table a size) :=
  inferInstanceAs (Decidable (_ ≤ _))

/-- How many bytes are compared with a signature. -/
def compared (m : Machine) : Nat → List Byte → Nat
  | _, [] => 0
  | a, c :: rest => if m.mem a = c then compared m (a + 1) rest + 1 else 1

/-- The entries up to the first MCFG table, and the signatures that are compared. -/
def SearchFits (m : Machine) (root : Nat) : Nat → Nat → Prop
  | 0, _ => True
  | n + 1, j =>
    InPage root (root + 36 + 8 * j) 8 ∧
      (Mappable m root j →
        InPage (listed m root j) (listed m root j) (compared m (listed m root j) mcfgSignature)) ∧
      (¬ IsMcfg m root j → SearchFits m root n (j + 1))

/-- The length of an MCFG table, which is at least that of its header, and its whole entries. -/
structure McfgFits (m : Machine) (table : Nat) : Prop where
  length : InPage table (table + 4) 4
  long : 44 ≤ numberAt m (table + 4) 4
  entries : ∀ i < (numberAt m (table + 4) 4 - 44) / 16, InPage table (table + 44 + 16 * i) 12

/-- What is read of the tables lies in their first pages. -/
def TablesFit (m : Machine) (rsdp : ACPIRSDP) : Prop :=
  let root := rsdp.xsdtAddress.toNat
  UsesXsdt rsdp → m.maps userAcpiBase (root / 4096 * 4096) = true →
    InPage root (root + 4) 4 ∧ SearchFits m root (rounds (numberAt m (root + 4) 4)) 0 ∧
      ∀ table, mcfgOf m rsdp = some table → McfgFits m table

/-! ## Reading a page -/

/-- The first page of a table is mapped at a virtual address, and no page behind it. -/
structure Seen (space : Space) (virt table : Nat) : Prop where
  aligned : virt % 4096 = 0
  page : space (virt / 4096) = some (table / 4096 * 4096)
  next : space (virt / 4096 + 1) = none

section Reading

variable {m : Machine} {space : Space} {virt table d size : Nat} {signature : List Byte}

theorem Seen.readByte_inside (seen : Seen space virt table) (inside : table % 4096 + d < 4096) :
    readByte m space (virt + table % 4096 + d) = some (m.mem (table + d)) := by
  have haligned := seen.aligned
  have hpage : (virt + table % 4096 + d) / 4096 = virt / 4096 := by omega
  have hoffset : table / 4096 * 4096 + (virt + table % 4096 + d) % 4096 = table + d := by omega
  rw [readByte, hpage, seen.page, Option.map_some, hoffset]

theorem Seen.readByte_beyond (seen : Seen space virt table) (beyond : 4096 ≤ table % 4096 + d)
    (near : table % 4096 + d < 8192) : readByte m space (virt + table % 4096 + d) = none := by
  have haligned := seen.aligned
  have hpage : (virt + table % 4096 + d) / 4096 = virt / 4096 + 1 := by omega
  rw [readByte, hpage, seen.next, Option.map_none]

theorem Seen.readNumber_inside (seen : Seen space virt table) (inside : InPage table (table + d) size) :
    readNumber m space (virt + table % 4096 + d) size = some (numberAt m (table + d) size) := by
  rw [InPage] at inside
  have hbytes : ((List.range size).mapM fun k => readByte m space (virt + table % 4096 + d + k)) =
      some (bytesAt m (table + d) size) := by
    rw [mapM_eq_some, bytesAt, List.map_map]
    apply List.map_congr_left
    intro k hk
    have hlast := List.mem_range.mp hk
    rw [Nat.add_assoc _ d k, seen.readByte_inside (by omega), ← Nat.add_assoc]
    rfl
  rw [readNumber, hbytes, Option.map_some, numberAt]

theorem Seen.readNumber_beyond (seen : Seen space virt table)
    (beyond : ¬ InPage table (table + d) size) (some : 0 < size)
    (near : table % 4096 + d + size ≤ 8192) :
    readNumber m space (virt + table % 4096 + d) size = none := by
  rw [InPage] at beyond
  have hbytes : ((List.range size).mapM fun k => readByte m space (virt + table % 4096 + d + k)) =
      none := by
    rw [← Option.not_isSome_iff_eq_none, mapM_isSome]
    intro hall
    have hlast := hall (size - 1) (List.mem_range.mpr (by omega))
    rw [Nat.add_assoc _ d, seen.readByte_beyond (by omega) (by omega)] at hlast
    exact Bool.false_ne_true hlast
  rw [readNumber, hbytes, Option.map_none]

theorem bytesAt_cons (a size : Nat) : bytesAt m a (size + 1) = m.mem a :: bytesAt m (a + 1) size := by
  rw [bytesAt, List.range_succ_eq_map, List.map_cons, List.map_map, bytesAt]
  congr 1
  apply List.map_congr_left
  intro k _
  show m.mem (a + (k + 1)) = m.mem (a + 1 + k)
  rw [Nat.add_comm k, Nat.add_assoc]

theorem Seen.strncmp_inside (seen : Seen space virt table)
    (inside : InPage table (table + d) (compared m (table + d) signature)) :
    strncmp m space (virt + table % 4096 + d) signature =
      some (decide (bytesAt m (table + d) signature.length = signature)) := by
  induction signature generalizing d with
  | nil => rfl
  | cons c rest ih =>
    rw [compared] at inside
    rw [InPage] at inside
    have hfirst : table % 4096 + d < 4096 := by
      split at inside <;> omega
    rw [strncmp, seen.readByte_inside hfirst, Option.bind_some, List.length_cons, bytesAt_cons]
    by_cases hsame : m.mem (table + d) = c
    · rw [if_pos hsame, Nat.add_assoc table d 1] at inside
      rw [if_pos hsame, Nat.add_assoc (virt + table % 4096), ih (by rw [InPage]; omega), hsame,
        ← Nat.add_assoc]
      refine congrArg some (decide_eq_decide.mpr ?_)
      rw [List.cons.injEq, and_iff_right rfl]
    · rw [if_neg hsame]
      refine congrArg some (decide_eq_false ?_).symm
      intro heq
      exact hsame (List.cons.inj heq).1

theorem Seen.strncmp_beyond (seen : Seen space virt table)
    (beyond : ¬ InPage table (table + d) (compared m (table + d) signature))
    (near : table % 4096 + d + signature.length ≤ 8192) (start : table % 4096 + d ≤ 4096) :
    strncmp m space (virt + table % 4096 + d) signature = none := by
  induction signature generalizing d with
  | nil =>
    rw [compared, InPage] at beyond
    omega
  | cons c rest ih =>
    rw [List.length_cons] at near
    by_cases hfirst : table % 4096 + d < 4096
    · rw [strncmp, seen.readByte_inside hfirst, Option.bind_some]
      rw [compared] at beyond
      by_cases hsame : m.mem (table + d) = c
      · rw [if_pos hsame, Nat.add_assoc table d 1] at beyond
        rw [if_pos hsame, Nat.add_assoc (virt + table % 4096)]
        apply ih
        · rw [InPage] at beyond ⊢
          omega
        · omega
        · omega
      · rw [if_neg hsame, InPage] at beyond
        omega
    · rw [strncmp, seen.readByte_beyond (by omega) (by omega), Option.bind_none]

theorem Seen.readEntry_inside (seen : Seen space virt table) (inside : InPage table (table + d) 12) :
    readEntry m space (virt + table % 4096 + d) = some (entryAt m (table + d)) := by
  rw [InPage] at inside
  have hpart : ∀ k size, k + size ≤ 12 →
      readNumber m space (virt + table % 4096 + d + k) size = some (numberAt m (table + d + k) size) := by
    intro k size hk
    rw [Nat.add_assoc _ d, seen.readNumber_inside (by rw [InPage]; omega), Nat.add_assoc table]
  have hbase := hpart 0 8 (by decide)
  rw [Nat.add_zero, Nat.add_zero] at hbase
  rw [readEntry, hbase, hpart 8 2 (by decide), hpart 10 1 (by decide), hpart 11 1 (by decide)]
  rfl

theorem Seen.readEntry_beyond (seen : Seen space virt table) (beyond : ¬ InPage table (table + d) 12)
    (near : table % 4096 + d + 12 ≤ 8192) :
    readEntry m space (virt + table % 4096 + d) = none := by
  rw [InPage] at beyond
  have hlast : readNumber m space (virt + table % 4096 + d + 11) 1 = none := by
    rw [Nat.add_assoc _ d]
    exact seen.readNumber_beyond (by rw [InPage]; omega) Nat.one_pos (by omega)
  rw [readEntry, hlast]
  cases readNumber m space (virt + table % 4096 + d) 8 with
  | none => rfl
  | some base =>
    cases readNumber m space (virt + table % 4096 + d + 8) 2 with
    | none => rfl
    | some segment =>
      cases readNumber m space (virt + table % 4096 + d + 10) 1 with
      | none => rfl
      | some start => rfl

theorem numberAt_lt (m : Machine) (a size : Nat) : numberAt m a size < 256 ^ size := by
  have hlt := ofBytes_lt (bytesAt m a size)
  rwa [bytesAt, List.length_map, List.length_range] at hlt

/-- A table that fits gives a driver for each whole entry; any other one is read beyond its page. -/
theorem Seen.parse_inside (seen : Seen space virt table) (fits : McfgFits m table) :
    parseMcfgTable m space (virt + table % 4096) = some (wholeEntries m table) := by
  have hlong := fits.long
  have hlength : numberAt m (table + 4) 4 < 2 ^ 32 := numberAt_lt m (table + 4) 4
  have hentries : (numberAt m (table + 4) 4 + 2 ^ 32 - 44) % 2 ^ 32 =
      numberAt m (table + 4) 4 - 44 := by omega
  rw [parseMcfgTable, seen.readNumber_inside fits.length, Option.bind_some]
  dsimp only
  rw [hentries, mapM_eq_some, wholeEntries, List.map_map]
  apply List.map_congr_left
  intro i hi
  have hin := fits.entries i (List.mem_range.mp hi)
  rw [Nat.add_assoc _ 44, seen.readEntry_inside (by rwa [← Nat.add_assoc]), ← Nat.add_assoc]
  rfl

theorem Seen.parse_beyond (seen : Seen space virt table) (unfit : ¬ McfgFits m table) :
    parseMcfgTable m space (virt + table % 4096) = none := by
  rw [parseMcfgTable]
  by_cases hlength : InPage table (table + 4) 4
  · rw [seen.readNumber_inside hlength, Option.bind_some]
    dsimp only
    have hlt : numberAt m (table + 4) 4 < 2 ^ 32 := numberAt_lt m (table + 4) 4
    -- the first entry that is not in the page is read in any case
    have hexists : ∃ i < (numberAt m (table + 4) 4 + 2 ^ 32 - 44) % 2 ^ 32 / 16,
        ¬ InPage table (table + 44 + 16 * i) 12 := by
      by_cases hlong : 44 ≤ numberAt m (table + 4) 4
      · by_contra hnone
        apply unfit
        refine ⟨hlength, hlong, ?_⟩
        intro i hi
        by_contra hout
        exact hnone ⟨i, by omega, hout⟩
      · exact ⟨300, by omega, by rw [InPage]; omega⟩
    have hfound := Nat.find_spec hexists
    have hbefore := fun i (hi : i < Nat.find hexists) => Nat.find_min hexists hi
    generalize Nat.find hexists = i at hfound hbefore
    obtain ⟨hi, hout⟩ := hfound
    have hnear : table % 4096 + (44 + 16 * i) + 12 ≤ 8192 := by
      rcases Nat.eq_zero_or_pos i with rfl | hpos
      · omega
      · have hprevious := hbefore (i - 1) (by omega)
        rw [InPage] at hprevious
        omega
    rw [← Option.not_isSome_iff_eq_none, mapM_isSome]
    intro hall
    have hentry := hall i (List.mem_range.mpr hi)
    rw [Nat.add_assoc _ 44, seen.readEntry_beyond (by rwa [← Nat.add_assoc]) hnear] at hentry
    exact Bool.false_ne_true hentry
  · rw [seen.readNumber_beyond hlength (by decide) (by omega), Option.bind_none]

end Reading

/-! ## The search -/

/-- The pages after the root and the first `j` tables: those of the tables at every other place. -/
structure Searched (root j : Nat) (space : Space) : Prop where
  root : Seen space userAcpiBase root
  pages : ∀ page, space page ≠ none →
    page = userAcpiBase / 4096 ∨ ∃ k < j, page = userAcpiBase / 4096 + 16 + 2 * k

section Search

variable {m : Machine} {space : Space} {root j n : Nat}

theorem tempBase_even (small : j < 512) : tempBase (2 * j) = userAcpiBase + 0x10000 + 8192 * j := by
  rw [tempBase]
  omega

theorem tempPage (small : j < 512) :
    tempBase (2 * j) / 4096 = userAcpiBase / 4096 + 16 + 2 * j := by
  rw [tempBase_even small, userAcpiBase]
  omega

theorem Searched.skip (searched : Searched root j space) : Searched root (j + 1) space := by
  refine ⟨searched.root, ?_⟩
  intro page hpage
  rcases searched.pages page hpage with hroot | ⟨k, hk, heq⟩
  · exact Or.inl hroot
  · exact Or.inr ⟨k, Nat.lt_succ_of_lt hk, heq⟩

theorem Searched.map (searched : Searched root j space) (small : j < 512) (table : Nat) :
    Searched root (j + 1) (mapPhysical space (tempBase (2 * j)) (table / 4096 * 4096)) ∧
      Seen (mapPhysical space (tempBase (2 * j)) (table / 4096 * 4096)) (tempBase (2 * j)) table := by
  have hpage := tempPage small
  have hother : ∀ page, page ≠ userAcpiBase / 4096 + 16 + 2 * j →
      mapPhysical space (tempBase (2 * j)) (table / 4096 * 4096) page = space page := by
    intro page hne
    rw [mapPhysical, hpage, Function.update_of_ne hne]
  have hroot := searched.root
  constructor
  · refine ⟨⟨hroot.aligned, ?_, ?_⟩, ?_⟩
    · rw [hother _ (by omega)]
      exact hroot.page
    · rw [hother _ (by omega)]
      exact hroot.next
    · intro page hmapped
      by_cases hnew : page = userAcpiBase / 4096 + 16 + 2 * j
      · exact Or.inr ⟨j, Nat.lt_succ_self j, hnew⟩
      · rw [hother page hnew] at hmapped
        exact searched.skip.pages page hmapped
  · refine ⟨?_, ?_, ?_⟩
    · rw [tempBase_even small, userAcpiBase]
      omega
    · exact Function.update_self _ _ _
    · rw [hpage, hother _ (by omega)]
      by_contra hmapped
      rcases searched.pages _ hmapped with hroot | ⟨k, hk, heq⟩
      · omega
      · omega

/-- The address in an entry that lies in the root's page. -/
theorem Searched.entry (searched : Searched root j space)
    (inside : InPage root (root + 36 + 8 * j) 8) :
    readNumber m space (userAcpiBase + root % 4096 + 36 + 4 * (2 * j)) 4 =
        some (numberAt m (root + 36 + 8 * j) 4) ∧
      readNumber m space (userAcpiBase + root % 4096 + 36 + 4 * (2 * j + 1)) 4 =
        some (numberAt m (root + 36 + 8 * j + 4) 4) := by
  rw [InPage] at inside
  have hlow := @Seen.readNumber_inside m _ _ _ (36 + 8 * j) 4 searched.root (by rw [InPage]; omega)
  have hhigh := @Seen.readNumber_inside m _ _ _ (36 + 8 * j + 4) 4 searched.root
    (by rw [InPage]; omega)
  constructor
  · rw [Nat.add_assoc _ 36, show 36 + 4 * (2 * j) = 36 + 8 * j by omega, hlow, Nat.add_assoc root]
  · rw [Nat.add_assoc _ 36, show 36 + 4 * (2 * j + 1) = 36 + 8 * j + 4 by omega, hhigh,
      Nat.add_assoc root 36, Nat.add_assoc root]

/-- A search that stays in the pages, and what it finds. -/
theorem Searched.find_inside (searched : Searched root j space) (small : j ≤ 508)
    (fits : SearchFits m root n j) :
    (firstMcfg m root n j = none ∧ ∃ space', findAcpiTable m mcfgSignature
        (userAcpiBase + root % 4096 + 36) n (2 * j) space = some (space', none)) ∨
      ∃ table space' virt, firstMcfg m root n j = some table ∧ Seen space' virt table ∧
        findAcpiTable m mcfgSignature (userAcpiBase + root % 4096 + 36) n (2 * j) space =
          some (space', some (virt + table % 4096)) := by
  induction n generalizing j space with
  | zero => exact Or.inl ⟨rfl, space, rfl⟩
  | succ n ih =>
    obtain ⟨hentry, hcompared, hrest⟩ := fits
    obtain ⟨hlow, hhigh⟩ := @Searched.entry m _ _ _ searched hentry
    have hnext : j + 1 ≤ 508 := by
      rw [InPage] at hentry
      omega
    rw [findAcpiTable, hlow, Option.bind_some, hhigh, Option.bind_some, firstMcfg]
    dsimp only
    rw [← listed]
    by_cases hmap : Mappable m root j
    · have hmaps : m.maps (tempBase (2 * j)) (listed m root j / 4096 * 4096) = true := hmap
      obtain ⟨hsearched, hseen⟩ := searched.map (by omega) (listed m root j)
      have hequal := @Seen.strncmp_inside m _ _ _ 0 mcfgSignature hseen (hcompared hmap)
      rw [Nat.add_zero, Nat.add_zero, show mcfgSignature.length = 4 from rfl] at hequal
      rw [if_pos hmaps, hequal, Option.bind_some]
      by_cases hmcfg : bytesAt m (listed m root j) 4 = mcfgSignature
      · rw [if_pos (decide_eq_true hmcfg), if_pos ⟨hmap, hmcfg⟩]
        exact Or.inr ⟨listed m root j, _, _, rfl, hseen, rfl⟩
      · have hother : ¬ IsMcfg m root j := fun h => hmcfg h.2
        rw [decide_eq_false hmcfg, if_neg Bool.false_ne_true, if_neg hother]
        exact ih hsearched hnext (hrest hother)
    · have hmaps : ¬ m.maps (tempBase (2 * j)) (listed m root j / 4096 * 4096) = true := hmap
      rw [if_neg hmaps, if_neg fun h => hmap h.1]
      exact ih searched.skip hnext (hrest fun h => hmap h.1)

/-- Any other search comes to a page that is not mapped. -/
theorem Searched.find_beyond (searched : Searched root j space) (small : j ≤ 508)
    (start : root % 4096 + 36 + 8 * j ≤ 4096 + 36) (unfit : ¬ SearchFits m root n j) :
    findAcpiTable m mcfgSignature (userAcpiBase + root % 4096 + 36) n (2 * j) space = none := by
  induction n generalizing j space with
  | zero => exact absurd trivial unfit
  | succ n ih =>
    rw [SearchFits] at unfit
    by_cases hentry : InPage root (root + 36 + 8 * j) 8
    · obtain ⟨hlow, hhigh⟩ := @Searched.entry m _ _ _ searched hentry
      have hnext : root % 4096 + 36 + 8 * (j + 1) ≤ 4096 := by
        rw [InPage] at hentry
        omega
      rw [findAcpiTable, hlow, Option.bind_some, hhigh, Option.bind_some]
      dsimp only
      rw [← listed]
      by_cases hmap : Mappable m root j
      · have hmaps : m.maps (tempBase (2 * j)) (listed m root j / 4096 * 4096) = true := hmap
        obtain ⟨hsearched, hseen⟩ := searched.map (by omega) (listed m root j)
        rw [if_pos hmaps]
        by_cases hcompared : InPage (listed m root j) (listed m root j)
            (compared m (listed m root j) mcfgSignature)
        · have hequal := @Seen.strncmp_inside m _ _ _ 0 mcfgSignature hseen hcompared
          rw [Nat.add_zero, Nat.add_zero, show mcfgSignature.length = 4 from rfl] at hequal
          rw [hequal, Option.bind_some]
          by_cases hmcfg : bytesAt m (listed m root j) 4 = mcfgSignature
          · exact absurd ⟨hentry, fun _ => hcompared, fun h => absurd ⟨hmap, hmcfg⟩ h⟩ unfit
          · rw [decide_eq_false hmcfg, if_neg Bool.false_ne_true]
            exact ih hsearched (by omega) (by omega)
              fun hrest => unfit ⟨hentry, fun _ => hcompared, fun _ => hrest⟩
        · have hfault := @Seen.strncmp_beyond m _ _ _ 0 mcfgSignature hseen hcompared
            (by rw [mcfgSignature]; simp only [List.length_cons, List.length_nil]; omega) (by omega)
          rw [Nat.add_zero] at hfault
          rw [hfault, Option.bind_none]
      · have hmaps : ¬ m.maps (tempBase (2 * j)) (listed m root j / 4096 * 4096) = true := hmap
        rw [if_neg hmaps]
        exact ih searched.skip (by omega) (by omega)
          fun hrest => unfit ⟨hentry, fun h => absurd h hmap, fun _ => hrest⟩
    · rw [InPage] at hentry
      have hhigh : readNumber m space (userAcpiBase + root % 4096 + 36 + 4 * (2 * j + 1)) 4 = none := by
        have hfault := @Seen.readNumber_beyond m _ _ _ (36 + 8 * j + 4) 4 searched.root
          (by rw [InPage]; omega) (by decide) (by omega)
        rw [Nat.add_assoc _ 36, show 36 + 4 * (2 * j + 1) = 36 + 8 * j + 4 by omega, hfault]
      rw [findAcpiTable, hhigh]
      cases readNumber m space (userAcpiBase + root % 4096 + 36 + 4 * (2 * j)) 4 with
      | none => rfl
      | some low => rfl

end Search

theorem searched_start (root : Nat) : Searched root 0
    (mapPhysical (fun _ => none) userAcpiBase (root / 4096 * 4096)) := by
  refine ⟨⟨by decide, Function.update_self _ _ _, ?_⟩, ?_⟩
  · exact Function.update_of_ne (Nat.succ_ne_self _) _ _
  · intro page hpage
    left
    by_contra hne
    exact hpage (Function.update_of_ne hne _ _)

/-- What an XSDT whose first page is mapped gives. -/
theorem Searched.parses_iff {m : Machine} {root : Nat} {space : Space}
    (searched : Searched root 0 space) :
    ((readNumber m space (userAcpiBase + root % 4096 + 4) 4).bind fun length =>
        (findAcpiTable m mcfgSignature (userAcpiBase + root % 4096 + 36) (rounds length) 0 space).bind
          fun (space, found) =>
            match found with
            | none => some []
            | some mcfg => parseMcfgTable m space mcfg) =
        some (((firstMcfg m root (rounds (numberAt m (root + 4) 4)) 0).map (wholeEntries m)).getD []) ↔
      InPage root (root + 4) 4 ∧ SearchFits m root (rounds (numberAt m (root + 4) 4)) 0 ∧
        ∀ table, firstMcfg m root (rounds (numberAt m (root + 4) 4)) 0 = some table →
          McfgFits m table := by
  by_cases hlength : InPage root (root + 4) 4
  · rw [searched.root.readNumber_inside hlength, Option.bind_some, and_iff_right hlength]
    generalize rounds (numberAt m (root + 4) 4) = n
    by_cases hfits : SearchFits m root n 0
    · rw [and_iff_right hfits]
      rcases searched.find_inside (by decide) hfits with
        ⟨hnone, space', hfind⟩ | ⟨table, space', virt, hfirst, hseen, hfind⟩
      · rw [Nat.mul_zero] at hfind
        rw [hfind, hnone, Option.bind_some]
        exact iff_of_true rfl fun table h => absurd h.symm (Option.some_ne_none table)
      · rw [Nat.mul_zero] at hfind
        rw [hfind, hfirst, Option.bind_some]
        dsimp only
        by_cases hmcfg : McfgFits m table
        · rw [hseen.parse_inside hmcfg]
          refine iff_of_true rfl ?_
          intro other hother
          rwa [← Option.some.inj hother]
        · rw [hseen.parse_beyond hmcfg]
          exact iff_of_false (fun h => Option.some_ne_none _ h.symm) fun h => hmcfg (h table rfl)
    · have hfind := searched.find_beyond (by decide) (by omega) hfits
      rw [Nat.mul_zero] at hfind
      rw [hfind, Option.bind_none]
      exact iff_of_false (fun h => Option.some_ne_none _ h.symm) fun h => hfits h.1
  · rw [searched.root.readNumber_beyond hlength (by decide) (by omega), Option.bind_none]
    exact iff_of_false (fun h => Option.some_ne_none _ h.symm) fun h => hlength h.1

/-- Only the right pages are read, and a driver is spawned for each whole entry, just if the tables
fit in their pages. -/
theorem parsesRight_iff (m : Machine) (rsdp : ACPIRSDP) : ParsesRight m rsdp ↔ TablesFit m rsdp := by
  rw [ParsesRight, TablesFit, parseAcpiRsdp]
  by_cases huses : UsesXsdt rsdp
  · have hroot : rsdp.xsdtAddress.toNat ≠ 0 := fun h =>
      huses.2 (BitVec.eq_of_toNat_eq (by rw [h]; rfl))
    dsimp only
    rw [if_pos huses, if_neg hroot, if_pos huses]
    by_cases hmaps : m.maps userAcpiBase (rsdp.xsdtAddress.toNat / 4096 * 4096) = true
    · have hmcfg : mcfgOf m rsdp = firstMcfg m rsdp.xsdtAddress.toNat
          (rounds (numberAt m (rsdp.xsdtAddress.toNat + 4) 4)) 0 := if_pos ⟨huses, hmaps⟩
      rw [if_pos hmaps, hmcfg]
      have hrun := (searched_start rsdp.xsdtAddress.toNat).parses_iff (m := m)
      rw [hrun]
      exact ⟨fun h _ _ => h, fun h => h huses hmaps⟩
    · have hmcfg : mcfgOf m rsdp = none := if_neg fun h => hmaps h.2
      rw [if_neg hmaps, hmcfg]
      exact iff_of_true rfl fun _ h => absurd h hmaps
  · have hmcfg : mcfgOf m rsdp = none := if_neg fun h => huses h.1
    dsimp only
    rw [if_neg huses, hmcfg]
    refine iff_of_true ?_ fun h => absurd h huses
    split
    · rfl
    split
    · rfl
    · rfl

/-- An XSDT whose header ends with its page, and whose one entry is in the next. -/
def spanning : Machine where
  mem a := if a = 0x1FE0 then 44 else 0
  maps _ _ := true

def spanningRsdp : ACPIRSDP := ⟨2, 0, 0x1FDC⟩

theorem entry_in_next_page_faults : ¬ ParsesRight spanning spanningRsdp := by
  have hfault : parseAcpiRsdp spanning spanningRsdp = none := by decide
  rw [ParsesRight, hfault]
  exact fun h => Option.some_ne_none _ h.symm

end DevmanAcpi
