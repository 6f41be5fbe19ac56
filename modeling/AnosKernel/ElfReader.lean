import AnosKernel.Lib.CStrings
import AnosKernel.Lib.Masks
import AnosKernel.MessagePage

/-!
# The reader of ELF files

`load_page`, `get_ptr` and `elf_map_elf64` of `system/elf.c`. The reader has one page, which is the
page of its messages too. A pointer to a program header is used before the next page is loaded, so
it is the bytes that it points to; the pointer to the header of the file is used until the end, so
its fields are read from the page each time.
-/

namespace ElfReader

open Bytes CStrings MessagePage

universe u

/-! ## Records of a file -/

/-- A field of a record. -/
def field (w o n : Nat) (bytes : List Byte) : BitVec w := BitVec.ofNat w (ofBytes (slice o n bytes))

structure Elf64Header where
  eIdent : List Byte
  eEntry : BitVec 64
  ePhoff : BitVec 64
  ePhentsize : BitVec 16
  ePhnum : BitVec 16

def elf64Header (bytes : List Byte) : Elf64Header where
  eIdent := slice 0 16 bytes
  eEntry := field 64 24 8 bytes
  ePhoff := field 64 32 8 bytes
  ePhentsize := field 16 54 2 bytes
  ePhnum := field 16 56 2 bytes

structure Elf64ProgramHeader where
  pType : BitVec 32
  pFlags : BitVec 32
  pOffset : BitVec 64
  pVaddr : BitVec 64
  pPaddr : BitVec 64
  pFilesz : BitVec 64
  pMemsz : BitVec 64
  pAlign : BitVec 64
  deriving DecidableEq

def elf64ProgramHeader (bytes : List Byte) : Elf64ProgramHeader where
  pType := field 32 0 4 bytes
  pFlags := field 32 4 4 bytes
  pOffset := field 64 8 8 bytes
  pVaddr := field 64 16 8 bytes
  pPaddr := field 64 24 8 bytes
  pFilesz := field 64 32 8 bytes
  pMemsz := field 64 40 8 bytes
  pAlign := field 64 48 8 bytes

def ptLoad : BitVec 32 := 1

/-! ## The reader -/

/-- The page after the `n`-th message of a reader, and its reply, where 0 stands for a failure too;
none where no reply comes. -/
abbrev FileSystem := Nat → Page → Option (Page × BitVec 64)

structure ElfPagedReader where
  filename : List Byte
  page : Page
  currentPageOffset : BitVec 64
  /-- How many messages were sent. -/
  sent : Nat

def aligned (offset : BitVec 64) : BitVec 64 := offset &&& ~~~0xfff

theorem offset_fits (offset : BitVec 64) : 0 + (toBytes 8 offset.toNat).length ≤ 4096 := by
  rw [length_toBytes]
  decide

/-- A query in a page: the offset, and the name behind it. -/
def request (page : Page) (filename : List Byte) (offset : BitVec 64)
    (fits : 8 + (cstr filename ++ [0]).length ≤ 4096) : Page :=
  (page.write 0 (toBytes 8 offset.toNat) (offset_fits offset)).write 8 (cstr filename ++ [0]) fits

/-- The page is loaded from `offset` on, and remembered under the aligned offset. A name that runs
over the end of the page is a fault. -/
def loadPage (fs : FileSystem) (r : ElfPagedReader) (offset : BitVec 64) :
    Option (ElfPagedReader × Bool) :=
  if aligned offset = r.currentPageOffset then some (r, true)
  else if fits : 8 + (cstr r.filename ++ [0]).length ≤ 4096 then
    match fs r.sent (request r.page r.filename offset fits) with
    | none => none
    | some (page, loadedBytes) =>
      if loadedBytes = 0 then some ({ r with page := page, sent := r.sent + 1 }, false)
      else
        some ({ r with
          page := page
          sent := r.sent + 1
          currentPageOffset := aligned offset }, true)
  else none

def inPageOffset (offset : BitVec 64) : Nat := (offset &&& 0xfff).toNat

/-- What stands at the pointer, none for a null pointer. Bytes of two pages are put together in
`temp`. -/
def getPtr (fs : FileSystem) (r : ElfPagedReader) (offset : BitVec 64) (size : Nat) :
    Option (ElfPagedReader × Option (List Byte)) :=
  let ofs := inPageOffset offset
  if ofs + size ≤ 4096 then
    match loadPage fs r offset with
    | none => none
    | some (r, false) => some (r, none)
    | some (r, true) => some (r, some (slice ofs size r.page.bytes))
  else
    let firstPart := 4096 - ofs
    match loadPage fs r offset with
    | none => none
    | some (r, false) => some (r, none)
    | some (r, true) =>
      let temp := slice ofs firstPart r.page.bytes
      match loadPage fs r (offset + BitVec.ofNat 64 firstPart) with
      | none => none
      | some (r, false) => some (r, none)
      | some (r, true) => some (r, some (temp ++ slice 0 (size - firstPart) r.page.bytes))

/-! ## The program headers -/

inductive Outcome where
  | returned (entry : BitVec 64)
  | nullDereference
  | noReply
  deriving DecidableEq

structure Run (σ : Type u) where
  outcome : Outcome
  reader : ElfPagedReader
  state : σ

/-- A handler, which has a state of its own; none where it waits for a reply that does not come. -/
abbrev ProgramHeaderHandler (σ : Type u) := Elf64ProgramHeader → σ → Option (σ × Bool)

/-- `(off_t)ehdr->e_phoff + i * ehdr->e_phentsize`, where the product is an `int`. -/
def phOffset (ehdr : Elf64Header) (i : Nat) : BitVec 64 :=
  ehdr.ePhoff + (BitVec.ofNat 32 (i * ehdr.ePhentsize.toNat)).signExtend 64

/-- The loop from `i = 65536 - left` on: a number of headers is less than 65536. -/
def mapHeaders {σ : Type u} (fs : FileSystem) (handler : ProgramHeaderHandler σ)
    (entry : BitVec 64) : Nat → ElfPagedReader → σ → Run σ
  | 0, r, s => ⟨.returned entry, r, s⟩
  | left + 1, r, s =>
    let i := 65535 - left
    let ehdr := elf64Header r.page.bytes
    if i < ehdr.ePhnum.toNat then
      match getPtr fs r (phOffset ehdr i) 56 with
      | none => ⟨.noReply, r, s⟩
      | some (r, none) => ⟨.nullDereference, r, s⟩
      | some (r, some bytes) =>
        let phdr := elf64ProgramHeader bytes
        if phdr.pType ≠ ptLoad then mapHeaders fs handler entry left r s
        else
          match handler phdr s with
          | none => ⟨.noReply, r, s⟩
          | some (s, false) => ⟨.returned 0, r, s⟩
          | some (s, true) => mapHeaders fs handler entry left r s
    else ⟨.returned entry, r, s⟩

/-- The entry is read before the loop. -/
def elfMapElf64 {σ : Type u} (fs : FileSystem) (r : ElfPagedReader)
    (handler : ProgramHeaderHandler σ) (s : σ) : Run σ :=
  match getPtr fs r 0 64 with
  | none => ⟨.noReply, r, s⟩
  | some (r, none) => ⟨.returned 0, r, s⟩
  | some (r, some bytes) =>
    let ehdr := elf64Header bytes
    if ehdr.eIdent.take 4 ≠ [0x7f, 0x45, 0x4c, 0x46] ∨ ehdr.eIdent.getD 4 0 ≠ 2 then
      ⟨.returned 0, r, s⟩
    else mapHeaders fs handler ehdr.eEntry 65536 r s

/-! ## What is to be mapped -/

/-- An ELF64 file with its table of program headers inside. -/
structure ElfFile (file : List Byte) : Prop where
  whole : 64 ≤ file.length
  magic : slice 0 4 file = [0x7f, 0x45, 0x4c, 0x46]
  class64 : file.getD 4 0 = 2
  entries : 56 ≤ (elf64Header file).ePhentsize.toNat
  table : (elf64Header file).ePhoff.toNat +
    (elf64Header file).ePhnum.toNat * (elf64Header file).ePhentsize.toNat ≤ file.length

/-- The place of a program header. -/
def place (file : List Byte) (i : Nat) : Nat :=
  (elf64Header file).ePhoff.toNat + i * (elf64Header file).ePhentsize.toNat

def programHeader (file : List Byte) (i : Nat) : Elf64ProgramHeader :=
  elf64ProgramHeader (slice (place file i) 56 file)

/-- The headers to load among the first `n`, in the order of the table. -/
def loadHeaders (file : List Byte) (n : Nat) : List Elf64ProgramHeader :=
  ((List.range n).map (programHeader file)).filter (·.pType = ptLoad)

/-- How much of the file there is from a place on, for a page. -/
def served (file : List Byte) (offset : Nat) : Nat := min (file.length - offset) 4096

/-- A query inside this file is answered with its bytes from the offset on, unless it is one that
fails. -/
structure Serves (fs : FileSystem) (filename file : List Byte) (fails : Nat → Bool) : Prop where
  failure : ∀ n page, fails n = true → ∃ page', fs n page = some (page', 0)
  bytes : ∀ n page more, fails n = false → page.bytes.drop 8 = filename ++ 0 :: more →
    page.number 0 8 < file.length →
    ∃ page', fs n page = some (page', BitVec.ofNat 64 (served file (page.number 0 8))) ∧
      slice 0 (served file (page.number 0 8)) page'.bytes =
        slice (page.number 0 8) (served file (page.number 0 8)) file

/-- A handler that is always content, with the calls so far. -/
def record : ProgramHeaderHandler (List Elf64ProgramHeader) :=
  fun phdr calls => some (calls ++ [phdr], true)

def newReader (filename : List Byte) (page : Page) : ElfPagedReader where
  filename := filename
  page := page
  currentPageOffset := -1
  sent := 0

/-- Where a load fails, nothing is returned; otherwise every header to load was handled. -/
structure Right (file : List Byte) (fails : Nat → Bool) (run : Run (List Elf64ProgramHeader)) :
    Prop where
  failure : (∃ n < run.reader.sent, fails n = true) → run.outcome = .returned 0
  success : (∀ n < run.reader.sent, fails n = false) →
    run.outcome = .returned (elf64Header file).eEntry ∧
      run.state = loadHeaders file (elf64Header file).ePhnum.toNat

/-- All program headers are in the page that the header of the file is in. -/
def FirstPage (file : List Byte) : Prop :=
  ∀ i < (elf64Header file).ePhnum.toNat, place file i + 56 ≤ 4096

/-! ## Loading a page -/

section Loading

variable {fs : FileSystem} {filename file : List Byte} {fails : Nat → Bool} {r : ElfPagedReader}
  {offset : BitVec 64}

theorem toNat_aligned : (aligned offset).toNat = offset.toNat / 4096 * 4096 :=
  Masks.toNat_and_high offset _ 12 (by decide) (by decide)

theorem inPageOffset_eq : inPageOffset offset = offset.toNat % 4096 :=
  Masks.toNat_and_low offset _ 12 (by decide)

theorem aligned_eq_zero_iff : aligned offset = 0 ↔ offset.toNat < 4096 := by
  rw [← BitVec.toNat_inj, toNat_aligned]
  show offset.toNat / 4096 * 4096 = 0 ↔ _
  omega

theorem loadPage_cached (h : aligned offset = r.currentPageOffset) :
    loadPage fs r offset = some (r, true) := by
  rw [loadPage, if_pos h]

variable (fits : filename.length + 9 ≤ 4096) (string : 0 ∉ filename)

include fits string

/-- What the client writes into the page. -/
theorem request_spec (page : Page) (offset : BitVec 64) :
    ∃ hfits, (request page filename offset hfits).number 0 8 = offset.toNat ∧
      ∃ more, (request page filename offset hfits).bytes.drop 8 = filename ++ 0 :: more := by
  have hstring := cstr_of_not_mem string
  have hfits : 8 + (cstr filename ++ [0]).length ≤ 4096 := by
    rw [hstring, List.length_append, List.length_singleton]
    omega
  refine ⟨hfits, ?_, ?_⟩
  · rw [request, Page.number_write_before _ (by decide), Page.number_write _ offset.isLt]
  · rw [request, Page.drop_write, hstring, List.append_assoc]
    exact ⟨_, rfl⟩

theorem loadPage_failed (serves : Serves fs filename file fails) (name : r.filename = filename)
    (miss : aligned offset ≠ r.currentPageOffset) (fail : fails r.sent = true) :
    ∃ page', loadPage fs r offset =
      some ({ r with page := page', sent := r.sent + 1 }, false) := by
  obtain ⟨hfits, -⟩ := request_spec fits string r.page offset
  obtain ⟨page', hpage⟩ := serves.failure r.sent (request r.page filename offset hfits) fail
  subst name
  refine ⟨page', ?_⟩
  rw [loadPage, if_neg miss, dif_pos hfits, hpage]
  exact if_pos rfl

theorem loadPage_served (serves : Serves fs filename file fails) (name : r.filename = filename)
    (miss : aligned offset ≠ r.currentPageOffset) (fine : fails r.sent = false)
    (inside : offset.toNat < file.length) :
    ∃ page', loadPage fs r offset =
        some ({ r with
          page := page'
          sent := r.sent + 1
          currentPageOffset := aligned offset }, true) ∧
      slice 0 (served file offset.toNat) page'.bytes =
        slice offset.toNat (served file offset.toNat) file := by
  obtain ⟨hfits, hnumber, more, hdrop⟩ := request_spec fits string r.page offset
  obtain ⟨page', hpage, hbytes⟩ := serves.bytes r.sent (request r.page filename offset hfits) more
    fine hdrop (by rw [hnumber]; exact inside)
  rw [hnumber] at hpage hbytes
  have hreply : BitVec.ofNat 64 (served file offset.toNat) ≠ 0 := by
    intro hzero
    have hnat := congrArg BitVec.toNat hzero
    rw [BitVec.toNat_ofNat, Nat.mod_eq_of_lt (by rw [served]; omega)] at hnat
    rw [served] at hnat
    change _ = 0 at hnat
    omega
  subst name
  refine ⟨page', ?_, hbytes⟩
  rw [loadPage, if_neg miss, dif_pos hfits, hpage]
  exact if_neg hreply

end Loading

/-! ## The first page -/

/-- The reader has loaded one page, the first of the file. -/
structure Holds (filename file : List Byte) (r : ElfPagedReader) : Prop where
  name : r.filename = filename
  current : r.currentPageOffset = 0
  sent : r.sent = 1
  bytes : slice 0 (served file 0) r.page.bytes = slice 0 (served file 0) file

section FirstPages

variable {fs : FileSystem} {filename file : List Byte} {fails : Nat → Bool} {r : ElfPagedReader}
  {i o n left : Nat} {entry : BitVec 64} {calls : List Elf64ProgramHeader}

theorem Holds.slice_eq (holds : Holds filename file r) (inside : o + n ≤ served file 0) :
    slice o n r.page.bytes = slice o n file := by
  have hpage := @slice_slice _ r.page.bytes o 0 n (served file 0) inside
  have hfile := @slice_slice _ file o 0 n (served file 0) inside
  rw [holds.bytes, hfile, Nat.zero_add] at hpage
  exact hpage.symm

theorem Holds.field_eq (holds : Holds filename file r) {w : Nat} (inside : o + n ≤ served file 0) :
    field w o n r.page.bytes = field w o n file := by
  rw [field, field, holds.slice_eq inside]

theorem ElfFile.served_first (elf : ElfFile file) : 64 ≤ served file 0 := by
  have hwhole := elf.whole
  rw [served]
  omega

theorem Holds.header (holds : Holds filename file r) (elf : ElfFile file) :
    elf64Header r.page.bytes = elf64Header file := by
  have hserved := elf.served_first
  rw [elf64Header, elf64Header, holds.slice_eq (by omega), holds.field_eq (by omega),
    holds.field_eq (by omega), holds.field_eq (by omega), holds.field_eq (by omega)]

/-- A product that is no more than a page does not overflow. -/
theorem toNat_phOffset (small : i * (elf64Header file).ePhentsize.toNat < 2 ^ 31)
    (inside : place file i < 2 ^ 64) : (phOffset (elf64Header file) i).toNat = place file i := by
  have hproduct :
      ((BitVec.ofNat 32 (i * (elf64Header file).ePhentsize.toNat)).signExtend 64).toNat =
        i * (elf64Header file).ePhentsize.toNat := by
    have hnat : (BitVec.ofNat 32 (i * (elf64Header file).ePhentsize.toNat)).toNat =
        i * (elf64Header file).ePhentsize.toNat :=
      toNat_ofNat_of_lt (by omega)
    have hpositive : (BitVec.ofNat 32 (i * (elf64Header file).ePhentsize.toNat)).msb = false := by
      rw [BitVec.msb_eq_false_iff_two_mul_lt, hnat]
      omega
    rw [BitVec.signExtend_eq_setWidth_of_msb_false hpositive, BitVec.toNat_setWidth, hnat,
      Nat.mod_eq_of_lt (by omega)]
  rw [place] at inside ⊢
  rw [phOffset, BitVec.toNat_add, hproduct, Nat.mod_eq_of_lt inside]

/-- What lies in the first page is read from there. -/
theorem Holds.getPtr_first (holds : Holds filename file r) {offset : BitVec 64}
    (inside : offset.toNat + n ≤ served file 0) (some : 0 < n) :
    getPtr fs r offset n = .some (r, .some (slice offset.toNat n file)) := by
  have hpage : served file 0 ≤ 4096 := Nat.min_le_right _ _
  have hofs : inPageOffset offset = offset.toNat := by
    rw [inPageOffset_eq, Nat.mod_eq_of_lt (by omega)]
  have hcached : aligned offset = r.currentPageOffset := by
    rw [holds.current]
    exact aligned_eq_zero_iff.mpr (by omega)
  rw [getPtr, hofs]
  dsimp only
  rw [if_pos (by omega), loadPage_cached hcached]
  dsimp only
  rw [holds.slice_eq inside]

/-- A pointer over the end of the first page needs another message. -/
theorem Holds.getPtr_failed (holds : Holds filename file r) (string : 0 ∉ filename)
    (fits : filename.length + 9 ≤ 4096) (serves : Serves fs filename file fails)
    (fail : fails 1 = true) {offset : BitVec 64} (small : n ≤ 4096)
    (outside : 4096 < offset.toNat + n) :
    ∃ r', getPtr fs r offset n = some (r', none) ∧ r'.sent = 2 := by
  have hfail : fails r.sent = true := by
    rw [holds.sent]
    exact fail
  have hload : ∀ {other : BitVec 64}, 4096 ≤ other.toNat → ∃ page', loadPage fs r other =
      some ({ r with page := page', sent := r.sent + 1 }, false) := by
    intro other hother
    apply loadPage_failed fits string serves holds.name _ hfail
    rw [holds.current, ne_eq, aligned_eq_zero_iff]
    omega
  have hsent : r.sent + 1 = 2 := by rw [holds.sent]
  rw [getPtr, inPageOffset_eq]
  dsimp only
  rcases Nat.lt_or_ge offset.toNat 4096 with hfirst | hlater
  · have hcached : aligned offset = r.currentPageOffset := by
      rw [holds.current]
      exact aligned_eq_zero_iff.mpr hfirst
    have hnext : (offset + BitVec.ofNat 64 (4096 - offset.toNat % 4096)).toNat = 4096 := by
      rw [BitVec.toNat_add, BitVec.toNat_ofNat]
      omega
    obtain ⟨page', hpage⟩ := hload (Nat.le_of_eq hnext.symm)
    rw [if_neg (by omega), loadPage_cached hcached]
    dsimp only
    rw [hpage]
    exact ⟨_, rfl, hsent⟩
  · obtain ⟨page', hpage⟩ := hload hlater
    rw [hpage]
    dsimp only
    rw [ite_self]
    exact ⟨_, rfl, hsent⟩

theorem loadHeaders_succ : loadHeaders file (n + 1) =
    loadHeaders file n ++
      if (programHeader file n).pType = ptLoad then [programHeader file n] else [] := by
  rw [loadHeaders, List.range_succ, List.map_append, List.filter_append, List.map_singleton,
    List.filter_singleton, loadHeaders]
  simp

/-- A header that is in the first page is where it should be. -/
theorem ElfFile.header_first (elf : ElfFile file) (i_lt : i < (elf64Header file).ePhnum.toNat)
    (first : place file i + 56 ≤ 4096) :
    (phOffset (elf64Header file) i).toNat = place file i ∧ place file i + 56 ≤ served file 0 := by
  have htable := elf.table
  have hentries := elf.entries
  have hlast : place file i + (elf64Header file).ePhentsize.toNat ≤ file.length := by
    have hmul := Nat.mul_le_mul_right (elf64Header file).ePhentsize.toNat i_lt
    rw [Nat.succ_mul] at hmul
    rw [place]
    omega
  constructor
  · apply toNat_phOffset
    · rw [place] at first
      omega
    · omega
  · rw [served]
    omega

/-- The header behind those in the first page is not far away, if it is not the first. -/
theorem offset_next (before : ∀ j < i, place file j + 56 ≤ 4096) :
    (phOffset (elf64Header file) i).toNat = place file i := by
  have hentry := (elf64Header file).ePhentsize.isLt
  have hstart := (elf64Header file).ePhoff.isLt
  rcases i with _ | i
  · apply toNat_phOffset
    · rw [Nat.zero_mul]
      decide
    · rw [place, Nat.zero_mul]
      exact hstart
  · have hlast := before i (Nat.lt_succ_self i)
    have hproduct := Nat.succ_mul i (elf64Header file).ePhentsize.toNat
    rw [place] at hlast
    apply toNat_phOffset
    · rw [hproduct]
      omega
    · rw [place, hproduct]
      omega

/-- The loop, where no other page is needed. -/
theorem Holds.mapHeaders_first (holds : Holds filename file r) (elf : ElfFile file)
    (first : FirstPage file) (index : i + left = 65536)
    (i_le : i ≤ (elf64Header file).ePhnum.toNat) :
    mapHeaders fs record entry left r (loadHeaders file i) =
      ⟨.returned entry, r, loadHeaders file (elf64Header file).ePhnum.toNat⟩ := by
  have hcount := (elf64Header file).ePhnum.isLt
  induction left generalizing i with
  | zero => omega
  | succ left ih =>
    have hindex : 65535 - left = i := by omega
    rw [mapHeaders, hindex, holds.header elf]
    dsimp only
    by_cases hi : i < (elf64Header file).ePhnum.toNat
    · obtain ⟨hoffset, hinside⟩ := elf.header_first hi (first i hi)
      have hnext := ih (by omega) (Nat.succ_le_of_lt hi)
      have hbytes := @Holds.getPtr_first fs _ _ _ 56 holds (phOffset (elf64Header file) i)
        (by rw [hoffset]; exact hinside) (by decide)
      rw [hoffset] at hbytes
      rw [if_pos hi, hbytes]
      dsimp only
      rw [loadHeaders_succ, programHeader] at hnext
      by_cases hload : (elf64ProgramHeader (slice (place file i) 56 file)).pType = ptLoad
      · rw [if_pos hload] at hnext
        rw [if_neg (not_not_intro hload), record]
        exact hnext
      · rw [if_neg hload, List.append_nil] at hnext
        rw [if_pos hload]
        exact hnext
    · rw [if_neg hi, Nat.le_antisymm i_le (Nat.not_lt.mp hi)]

/-- The loop, where a header needs a page that cannot be loaded. -/
theorem Holds.mapHeaders_failed (holds : Holds filename file r) (elf : ElfFile file)
    (string : 0 ∉ filename) (fits : filename.length + 9 ≤ 4096)
    (serves : Serves fs filename file fails) (fail : fails 1 = true) (index : i + left = 65536)
    (before : ∀ j < i, place file j + 56 ≤ 4096)
    (outside : ∃ j < (elf64Header file).ePhnum.toNat, 4096 < place file j + 56) :
    (mapHeaders fs record entry left r calls).outcome = .nullDereference ∧
      (mapHeaders fs record entry left r calls).reader.sent = 2 := by
  have hcount := (elf64Header file).ePhnum.isLt
  induction left generalizing i calls with
  | zero =>
    obtain ⟨j, hj, hout⟩ := outside
    have hin := before j (by omega)
    omega
  | succ left ih =>
    have hindex : 65535 - left = i := by omega
    have hi : i < (elf64Header file).ePhnum.toNat := by
      obtain ⟨j, hj, hout⟩ := outside
      by_contra hge
      have hin := before j (by omega)
      omega
    rw [mapHeaders, hindex, holds.header elf]
    dsimp only
    rw [if_pos hi]
    by_cases hfirst : place file i + 56 ≤ 4096
    · obtain ⟨hoffset, hinside⟩ := elf.header_first hi hfirst
      have hbefore : ∀ j < i + 1, place file j + 56 ≤ 4096 := by
        intro j hj
        rcases Nat.lt_succ_iff_lt_or_eq.mp hj with hlt | rfl
        · exact before j hlt
        · exact hfirst
      have hbytes := @Holds.getPtr_first fs _ _ _ 56 holds (phOffset (elf64Header file) i)
        (by rw [hoffset]; exact hinside) (by decide)
      rw [hbytes]
      dsimp only
      split
      · exact ih (by omega) hbefore
      · exact ih (by omega) hbefore
    · have hoffset := offset_next before
      obtain ⟨r', hptr, hsent⟩ := holds.getPtr_failed string fits serves fail
        (by decide : 56 ≤ 4096) (by rw [hoffset]; omega)
      rw [hptr]
      exact ⟨rfl, hsent⟩

end FirstPages

/-! ## Mapping a file -/

section Mapping

variable {fs : FileSystem} {filename file : List Byte} {fails : Nat → Bool} {page : Page}

theorem field_slice {w o n : Nat} (inside : o + n ≤ 64) :
    field w o n (slice 0 64 file) = field w o n file := by
  rw [field, field, slice_slice inside, Nat.zero_add]

theorem elf64Header_slice : elf64Header (slice 0 64 file) = elf64Header file := by
  rw [elf64Header, elf64Header, slice_slice (by decide), field_slice (by decide),
    field_slice (by decide), field_slice (by decide), field_slice (by decide)]

/-- The file is taken to be what it is. -/
theorem ElfFile.ident (elf : ElfFile file) :
    ¬ ((elf64Header file).eIdent.take 4 ≠ [0x7f, 0x45, 0x4c, 0x46] ∨
      (elf64Header file).eIdent.getD 4 0 ≠ 2) := by
  have hmagic : (slice 0 16 file).take 4 = slice 0 4 file := by
    rw [slice, slice, List.take_take]
    rfl
  have hclass : (slice 0 16 file).getD 4 0 = file.getD 4 0 := by
    rw [slice, List.drop_zero, List.getD_eq_getElem?_getD, List.getElem?_take_of_lt (by decide),
      List.getD_eq_getElem?_getD]
  rw [elf64Header]
  dsimp only
  rw [hmagic, hclass, elf.magic, elf.class64]
  exact fun h => h.elim (fun h => h rfl) (fun h => h rfl)

/-- The first message. -/
theorem first_load (elf : ElfFile file) (string : 0 ∉ filename)
    (fits : filename.length + 9 ≤ 4096) (serves : Serves fs filename file fails) :
    (fails 0 = true ∧ ∃ r, getPtr fs (newReader filename page) 0 64 = some (r, none) ∧
        r.sent = 1) ∨
      (fails 0 = false ∧ ∃ r, getPtr fs (newReader filename page) 0 64 =
        some (r, some (slice 0 64 file)) ∧ Holds filename file r) := by
  have hmiss : aligned 0 ≠ (newReader filename page).currentPageOffset := by
    show aligned 0 ≠ -1
    decide
  have hofs : inPageOffset 0 = 0 := by decide
  cases hfail : fails 0 with
  | true =>
    obtain ⟨page', hload⟩ := loadPage_failed fits string serves rfl hmiss hfail
    obtain ⟨r, hr⟩ : ∃ r : ElfPagedReader, r = { newReader filename page with
      page := page'
      sent := (newReader filename page).sent + 1 } := ⟨_, rfl⟩
    refine Or.inl ⟨rfl, r, ?_, ?_⟩
    · rw [getPtr, hofs, hload, ← hr]
      rfl
    · rw [hr]
      rfl
  | false =>
    have hwhole := elf.whole
    obtain ⟨page', hload, hbytes⟩ := loadPage_served fits string serves rfl hmiss hfail
      (Nat.lt_of_lt_of_le (by decide) hwhole)
    obtain ⟨r, hr⟩ : ∃ r : ElfPagedReader, r = { newReader filename page with
      page := page'
      sent := (newReader filename page).sent + 1
      currentPageOffset := aligned 0 } := ⟨_, rfl⟩
    have hholds : Holds filename file r := by
      rw [hr]
      exact ⟨rfl, aligned_eq_zero_iff.mpr (by decide), rfl, hbytes⟩
    refine Or.inr ⟨rfl, r, ?_, hholds⟩
    rw [getPtr, hofs, hload, ← hr]
    dsimp only
    rw [if_pos (by decide), hholds.slice_eq elf.served_first]

theorem length_served {o : Nat} : (slice o (served file o) file).length = served file o := by
  rw [slice, List.length_take, List.length_drop, served]
  omega

theorem served_fits (file : List Byte) (o : Nat) :
    0 + (slice o (served file o) file).length ≤ 4096 := by
  rw [length_served, served]
  omega

/-- A file system of one file, which fails for some messages. -/
def service (file : List Byte) (fails : Nat → Bool) : FileSystem := fun n page =>
  if fails n then some (page, 0)
  else
    some (page.write 0 (slice (page.number 0 8) (served file (page.number 0 8)) file)
        (served_fits file (page.number 0 8)),
      BitVec.ofNat 64 (served file (page.number 0 8)))

theorem service_serves : Serves (service file fails) filename file fails := by
  constructor
  · intro n page hfail
    exact ⟨page, if_pos hfail⟩
  · intro n page more hfine _ _
    refine ⟨_, if_neg (by rw [hfine]; exact Bool.false_ne_true), ?_⟩
    have hpiece := @slice_patch _ page.bytes
      (slice (page.number 0 8) (served file (page.number 0 8)) file) 0 (Nat.zero_le _)
    rw [length_served] at hpiece
    exact hpiece

/-- Where the program headers are in the first page, one message is enough. -/
theorem maps_first (elf : ElfFile file) (string : 0 ∉ filename) (fits : filename.length + 9 ≤ 4096)
    (first : FirstPage file) (serves : Serves fs filename file fails) :
    Right file fails (elfMapElf64 fs (newReader filename page) record []) := by
  rw [elfMapElf64]
  rcases @first_load fs filename file fails page elf string fits serves with
    ⟨hfail, r, hptr, hsent⟩ | ⟨hfine, r, hptr, hholds⟩
  · rw [hptr]
    dsimp only
    constructor
    · intro _
      rfl
    · intro hall
      have hzero := hall 0 (by rw [hsent]; decide)
      rw [hfail] at hzero
      cases hzero
  · rw [hptr]
    dsimp only
    rw [elf64Header_slice, if_neg elf.ident]
    have hrun := @Holds.mapHeaders_first fs _ _ _ 0 65536 (elf64Header file).eEntry hholds elf first
      (by decide) (Nat.zero_le _)
    have hnone : loadHeaders file 0 = [] := rfl
    rw [hnone] at hrun
    rw [hrun]
    constructor
    · rintro ⟨n, hn, hfail⟩
      dsimp only at hn
      rw [hholds.sent] at hn
      rw [Nat.lt_one_iff.mp hn, hfine] at hfail
      cases hfail
    · intro _
      exact ⟨rfl, rfl⟩

/-- Whatever loads fail, a file is mapped right just when all of its program headers are in the page
of its header. -/
theorem elfMapElf64_right_iff (elf : ElfFile file) (string : 0 ∉ filename)
    (fits : filename.length + 9 ≤ 4096) :
    (∀ fs fails, Serves fs filename file fails →
      Right file fails (elfMapElf64 fs (newReader filename page) record [])) ↔ FirstPage file := by
  constructor
  · intro h
    by_contra hfirst
    obtain ⟨fails, hfails⟩ : ∃ fails : Nat → Bool, fails = fun n => decide (n ≠ 0) := ⟨_, rfl⟩
    have hserves : Serves (service file fails) filename file fails := service_serves
    have hright := h _ fails hserves
    have houtside : ∃ j < (elf64Header file).ePhnum.toNat, 4096 < place file j + 56 := by
      by_contra hnone
      apply hfirst
      intro i hi
      by_contra hlarge
      exact hnone ⟨i, hi, Nat.not_le.mp hlarge⟩
    rcases @first_load _ filename file fails page elf string fits hserves with
      ⟨hfail, -⟩ | ⟨-, r, hptr, hholds⟩
    · rw [hfails] at hfail
      exact absurd hfail (by decide)
    · have hsecond : fails 1 = true := by
        rw [hfails]
        decide
      rw [elfMapElf64, hptr] at hright
      dsimp only at hright
      rw [elf64Header_slice, if_neg elf.ident] at hright
      obtain ⟨houtcome, hsent⟩ := @Holds.mapHeaders_failed _ _ _ _ _ 0 65536
        (elf64Header file).eEntry [] hholds elf string fits hserves hsecond (by decide)
        (fun j hj => absurd hj (Nat.not_lt_zero j)) houtside
      have hzero := hright.failure ⟨1, by rw [hsent]; decide, hsecond⟩
      rw [houtcome] at hzero
      cases hzero
  · intro first fs fails serves
    exact maps_first elf string fits first serves

/-- The header of an executable with its entry at 0x400000. -/
def elfHeader (phoff phnum : Nat) : List Byte :=
  [0x7f, 0x45, 0x4c, 0x46, 2, 1, 1] ++ (List.replicate 9 0 ++ (toBytes 2 2 ++ (toBytes 2 0x3e ++
    (toBytes 4 1 ++ (toBytes 8 0x400000 ++ (toBytes 8 phoff ++ (toBytes 8 0 ++ (toBytes 4 0 ++
      (toBytes 2 64 ++ (toBytes 2 56 ++ (toBytes 2 phnum ++ toBytes 6 0)))))))))))

/-- A page of the file to be loaded at an address. -/
def loadHeader (offset vaddr : Nat) : List Byte :=
  toBytes 4 1 ++ (toBytes 4 5 ++ (toBytes 8 offset ++ (toBytes 8 vaddr ++ (toBytes 8 vaddr ++
    (toBytes 8 4096 ++ (toBytes 8 4096 ++ toBytes 8 4096))))))

def oneHeader : List Byte := elfHeader 64 1 ++ loadHeader 4096 0x400000

/-- The table has two headers, and is in the second page. -/
def twoHeaders : List Byte :=
  elfHeader 4096 2 ++ (List.replicate 4032 0 ++ (loadHeader 8192 0x400000 ++
    loadHeader 12288 0x401000))

theorem length_twoHeaders : twoHeaders.length = 4208 := by
  simp only [twoHeaders, elfHeader, loadHeader, List.length_append, List.length_cons,
    List.length_nil, List.length_replicate, length_toBytes]

def zeroPage : Page := ⟨List.replicate 4096 0, length_zeros⟩

theorem elfMapElf64_right_iff_oneHeader : Right oneHeader (fun _ => false)
    (elfMapElf64 (service oneHeader fun _ => false) (newReader [0x61] zeroPage) record []) := by
  have helf : ElfFile oneHeader :=
    ⟨by decide, by decide, by decide, by decide, by decide⟩
  have hfirst : ∀ i < (elf64Header oneHeader).ePhnum.toNat, place oneHeader i + 56 ≤ 4096 := by
    decide
  exact (elfMapElf64_right_iff helf (by decide) (by decide)).mpr hfirst _ _ service_serves

/-- The second header is lost, since the number of headers is read again from the page that the
first one is in. If this page cannot be loaded, a null pointer is dereferenced. -/
theorem twoHeaders_mapped_wrong : ElfFile twoHeaders ∧
    ¬ Right twoHeaders (fun _ => false)
      (elfMapElf64 (service twoHeaders fun _ => false) (newReader [0x61] zeroPage) record []) ∧
    ¬ Right twoHeaders (fun n => n = 1)
      (elfMapElf64 (service twoHeaders fun n => n = 1) (newReader [0x61] zeroPage) record []) := by
  have hfields : elf64Header twoHeaders =
      ⟨[0x7f, 0x45, 0x4c, 0x46, 2, 1, 1] ++ List.replicate 9 0, 0x400000, 4096, 56, 2⟩ := rfl
  have helf : ElfFile twoHeaders := by
    refine ⟨?_, rfl, rfl, ?_, ?_⟩
    · rw [length_twoHeaders]
      decide
    · rw [hfields]
      decide
    · rw [hfields, length_twoHeaders]
      decide
  refine ⟨helf, ?_, ?_⟩
  · intro right
    have hcount := congrArg List.length (right.success fun _ _ => rfl).2
    exact absurd hcount (by decide +kernel)
  · intro right
    have houtcome := right.failure ⟨1, by decide +kernel, by decide⟩
    exact absurd houtcome (by decide +kernel)

end Mapping

end ElfReader
