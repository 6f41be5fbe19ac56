import AnosKernel.Lib.Bytes
import AnosKernel.Lib.CStrings

/-!
# RAMFS images

The writer `tools/mkramfs/main.c` and the reader `system/ramfs.c`. An image is its bytes; a pointer
into it is an offset from its start.
-/

namespace Ramfs

open Bytes CStrings

abbrev Byte := BitVec 8

def ramfsMagic : Nat := 0x0101CA75

def ramfsVersion : Nat := 10

/-- The bytes of an `AnosRAMFSHeader`. -/
def fsHeader (fsSize fileCount : Nat) : List Byte :=
  toBytes 4 ramfsMagic ++ toBytes 4 ramfsVersion ++ toBytes 8 fsSize ++ toBytes 8 fileCount ++
    toBytes 8 0

structure AnosRAMFSFileHeader where
  fileStart : Nat
  fileLength : Nat
  fileName : List Byte
  sized : fileName.length = 16

def AnosRAMFSFileHeader.bytes (header : AnosRAMFSFileHeader) : List Byte :=
  toBytes 8 header.fileStart ++ toBytes 8 header.fileLength ++ header.fileName

/-! ## The writer -/

structure InputFile where
  name : List Byte
  contents : List Byte

/-- `(n + PAGE_SIZE - 1) & ~(PAGE_SIZE - 1)`. -/
def pageAligned (n : Nat) : Nat := (n + 4095) / 4096 * 4096

/-- Data are copied through a buffer of 4096 bytes. -/
def copyData (out file : List Byte) : List Byte :=
  if file = [] then out else copyData (out ++ file.take 4096) (file.drop 4096)
  termination_by file.length
  decreasing_by
    rename_i h
    have hpos := List.length_pos_iff.mpr h
    rw [List.length_drop]
    omega

def fileHeader (file : InputFile) (currentOffset i : Nat) : AnosRAMFSFileHeader where
  fileStart := currentOffset - (32 + i * 32)
  fileLength := file.contents.length
  fileName := strncpy 15 file.name ++ [0]
  sized := by rw [List.length_append, length_strncpy, List.length_singleton]

/-- The files from the `i`-th on: their headers, and what is written so far. -/
def writeFiles (out : List Byte) (currentOffset i : Nat) :
    List InputFile → List AnosRAMFSFileHeader × List Byte
  | [] => ([], out)
  | file :: files =>
    let header := fileHeader file currentOffset i
    let out := copyData out file.contents
    let currentOffset := currentOffset + file.contents.length
    let pad := (4096 - currentOffset % 4096) % 4096
    let (headers, out) :=
      writeFiles (out ++ List.replicate pad 0) (currentOffset + pad) (i + 1) files
    (header :: headers, out)

def writeFilesystem (files : List InputFile) : List Byte :=
  let fileCount := files.length
  let headersRaw := 32 + fileCount * 32
  let headersPadded := pageAligned headersRaw
  -- the headers of the files are blank at first
  let out := fsHeader 0 fileCount ++ List.replicate (fileCount * 32) 0 ++
    List.replicate (headersPadded - headersRaw) 0
  let (fileHeaders, out) := writeFiles out headersPadded 0 files
  let out := patch out 32 (fileHeaders.flatMap AnosRAMFSFileHeader.bytes)
  let finalSize := pageAligned out.length
  patch out 8 (toBytes 8 finalSize)

/-! ## The reader -/

/-- A number in memory. -/
def number (mem : List Byte) (offset size : Nat) : Nat := ofBytes (slice offset size mem)

def isValidRamfs (mem : List Byte) : Bool :=
  number mem 0 4 = ramfsMagic ∧ number mem 4 4 = ramfsVersion

def ramfsFileCount (mem : List Byte) : Int :=
  if isValidRamfs mem then (BitVec.ofNat 32 (number mem 16 8)).toInt else -1

/-- The loop over the headers from the `i`-th on. -/
def findFrom (mem name : List Byte) (i : Nat) : Nat → Option Nat
  | 0 => none
  | left + 1 =>
    let current := 32 + i * 32
    if mem.getD (current + 16) 0 ≠ 0 ∧ strncmp 24 name (mem.drop (current + 16)) then some current
    else findFrom mem name (i + 1) left

/-- The place of the header, none for a null pointer. -/
def ramfsFindFile (mem name : List Byte) : Option Nat :=
  if isValidRamfs mem then findFrom mem name 0 (number mem 16 8) else none

def ramfsFileOpen (mem : List Byte) (file : Option Nat) : Option Nat :=
  match file with
  | none => none
  | some file =>
    if number mem (file + 8) 8 = 0 then none
    else if number mem file 8 = 0 then none
    else some (file + number mem file 8)

/-! ## The layout of an image -/

theorem AnosRAMFSFileHeader.length_bytes (header : AnosRAMFSFileHeader) :
    header.bytes.length = 32 := by
  rw [bytes, List.length_append, List.length_append, length_toBytes, length_toBytes, header.sized]

theorem length_headers (headers : List AnosRAMFSFileHeader) :
    (headers.flatMap AnosRAMFSFileHeader.bytes).length = headers.length * 32 := by
  induction headers with
  | nil => rfl
  | cons header headers ih =>
    rw [List.flatMap_cons, List.length_append, ih, header.length_bytes, List.length_cons]
    omega

theorem length_fsHeader (fsSize fileCount : Nat) : (fsHeader fsSize fileCount).length = 32 := by
  simp only [fsHeader, List.length_append, length_toBytes]

theorem copyData_eq (out file : List Byte) : copyData out file = out ++ file := by
  fun_induction copyData out file with
  | case1 out => rw [List.append_nil]
  | case2 out file _ ih => rw [ih, List.append_assoc, List.take_append_drop]

/-- The header of the `i`-th file and where the image has its data. -/
structure Placed (image : List Byte) (i : Nat) (file : InputFile) (header : AnosRAMFSFileHeader) :
    Prop where
  fileLength : header.fileLength = file.contents.length
  fileName : header.fileName = strncpy 15 file.name ++ [0]
  start : 0 < header.fileStart
  aligned : (32 + i * 32 + header.fileStart) % 4096 = 0
  inside : 32 + i * 32 + header.fileStart + file.contents.length ≤ image.length
  data : slice (32 + i * 32 + header.fileStart) file.contents.length image = file.contents

section Layout

variable {out : List Byte} {currentOffset i : Nat} {files : List InputFile}

theorem placed_first {file : InputFile} {rest : List Byte} (offset : out.length = currentOffset)
    (aligned : currentOffset % 4096 = 0) (above : 32 + i * 32 < currentOffset) :
    Placed (out ++ (file.contents ++ rest)) (i + 0) file (fileHeader file currentOffset i) := by
  have hplace : 32 + (i + 0) * 32 + (fileHeader file currentOffset i).fileStart =
      currentOffset := by
    simp only [fileHeader]
    omega
  refine ⟨rfl, rfl, ?_, ?_, ?_, ?_⟩
  · simp only [fileHeader]
    omega
  · rw [hplace, aligned]
  · rw [hplace, List.length_append, List.length_append]
    omega
  · rw [hplace, slice, List.drop_left' offset, List.take_left]

/-- The loop over the files only appends, and leaves each file where its header says. -/
theorem writeFiles_spec (offset : out.length = currentOffset) (aligned : currentOffset % 4096 = 0)
    (above : 32 + (i + files.length) * 32 ≤ currentOffset) :
    ∃ data, (writeFiles out currentOffset i files).2 = out ++ data ∧
      (out ++ data).length % 4096 = 0 ∧
      (writeFiles out currentOffset i files).1.length = files.length ∧
      ∀ k file header, files[k]? = some file →
        (writeFiles out currentOffset i files).1[k]? = some header →
        Placed (out ++ data) (i + k) file header ∧
          currentOffset ≤ 32 + (i + k) * 32 + header.fileStart := by
  induction files generalizing out currentOffset i with
  | nil =>
    refine ⟨[], ?_, ?_, rfl, nofun⟩
    · rw [writeFiles, List.append_nil]
    · rw [List.append_nil, offset, aligned]
  | cons file files ih =>
    rw [List.length_cons] at above
    obtain ⟨pad, hpad⟩ : ∃ pad, pad =
        (4096 - (currentOffset + file.contents.length) % 4096) % 4096 := ⟨_, rfl⟩
    have hlength : (out ++ file.contents ++ List.replicate pad 0).length =
        currentOffset + file.contents.length + pad := by
      rw [List.length_append, List.length_append, List.length_replicate, offset]
    obtain ⟨data, hout, hall, hcount, hplaced⟩ := ih hlength (i := i + 1) (by omega) (by omega)
    have hassoc : out ++ file.contents ++ List.replicate pad 0 ++ data =
        out ++ (file.contents ++ (List.replicate pad 0 ++ data)) := by
      rw [List.append_assoc, List.append_assoc]
    rw [hassoc] at hout hall hplaced
    rw [writeFiles, copyData_eq, ← hpad]
    dsimp only
    refine ⟨file.contents ++ (List.replicate pad 0 ++ data), hout, hall, ?_, ?_⟩
    · rw [List.length_cons, hcount, List.length_cons]
    · intro k other header hfile hheader
      cases k with
      | zero =>
        cases hfile
        cases hheader
        refine ⟨placed_first offset aligned (by omega), ?_⟩
        simp only [fileHeader]
        omega
      | succ k =>
        rw [List.getElem?_cons_succ] at hfile hheader
        obtain ⟨hnext, hafter⟩ := hplaced k other header hfile hheader
        have hindex : i + 1 + k = i + (k + 1) := by omega
        rw [hindex] at hnext hafter
        exact ⟨hnext, by omega⟩

theorem pageAligned_spec (n : Nat) : n ≤ pageAligned n ∧ pageAligned n % 4096 = 0 := by
  rw [pageAligned]
  omega

theorem pageAligned_of_aligned {n : Nat} (aligned : n % 4096 = 0) : pageAligned n = n := by
  rw [pageAligned]
  omega

/-- Writing into the headers does not move the files. -/
theorem Placed.patch {image piece : List Byte} {file : InputFile} {header : AnosRAMFSFileHeader}
    {o : Nat} (placed : Placed image i file header)
    (after : o + piece.length ≤ 32 + i * 32 + header.fileStart) :
    Placed (Bytes.patch image o piece) i file header := by
  have hinside := placed.inside
  refine ⟨placed.fileLength, placed.fileName, placed.start, placed.aligned, ?_, ?_⟩
  · rw [length_patch (by omega)]
    exact hinside
  · rw [slice_patch_after after (by omega)]
    exact placed.data

theorem fsHeader_patch (size fileCount : Nat) (rest : List Byte) :
    patch (fsHeader 0 fileCount ++ rest) 8 (toBytes 8 size) = fsHeader size fileCount ++ rest := by
  have hlength : (toBytes 4 ramfsMagic ++ toBytes 4 ramfsVersion).length = 8 := by
    rw [List.length_append, length_toBytes, length_toBytes]
  have hsame : (toBytes 8 size).length = (toBytes 8 0).length := by
    rw [length_toBytes, length_toBytes]
  have hpatch := @patch_middle _ (toBytes 8 size) (toBytes 4 ramfsMagic ++ toBytes 4 ramfsVersion)
    (toBytes 8 0) (toBytes 8 fileCount ++ (toBytes 8 0 ++ rest)) hsame
  rw [hlength] at hpatch
  simp only [fsHeader, List.append_assoc] at hpatch ⊢
  exact hpatch

/-- An image is its header, the headers of its files and the rest, where each file is placed. -/
theorem writeFilesystem_eq (files : List InputFile) :
    ∃ (headers : List AnosRAMFSFileHeader) (rest : List Byte),
      writeFilesystem files = fsHeader (writeFilesystem files).length files.length ++
        (headers.flatMap AnosRAMFSFileHeader.bytes ++ rest) ∧
      headers.length = files.length ∧
      ∀ k file header, files[k]? = some file → headers[k]? = some header →
        Placed (writeFilesystem files) k file header := by
  obtain ⟨hpadded, haligned⟩ := pageAligned_spec (32 + files.length * 32)
  generalize hp : pageAligned (32 + files.length * 32) = headersPadded at hpadded haligned
  obtain ⟨blank, hblank⟩ : ∃ blank : List Byte, blank = List.replicate (files.length * 32) 0 :=
    ⟨_, rfl⟩
  obtain ⟨padding, hpadding⟩ : ∃ padding : List Byte,
    padding = List.replicate (headersPadded - (32 + files.length * 32)) 0 := ⟨_, rfl⟩
  have hblankLength : blank.length = files.length * 32 := by rw [hblank, List.length_replicate]
  have hout : (fsHeader 0 files.length ++ blank ++ padding).length = headersPadded := by
    rw [List.length_append, List.length_append, length_fsHeader, hblankLength, hpadding,
      List.length_replicate]
    omega
  obtain ⟨data, hwritten, hall, hcount, hplaced⟩ :=
    @writeFiles_spec _ _ 0 files hout haligned (by omega)
  generalize hheaders : (writeFiles (fsHeader 0 files.length ++ blank ++ padding) headersPadded 0
    files).1 = headers at hcount hplaced
  -- the headers of the files take the place of the blank ones
  have hbytes : (headers.flatMap AnosRAMFSFileHeader.bytes).length = blank.length := by
    rw [length_headers, hcount, hblankLength]
  have hpatched : patch (fsHeader 0 files.length ++ blank ++ padding ++ data) 32
      (headers.flatMap AnosRAMFSFileHeader.bytes) = fsHeader 0 files.length ++
        (headers.flatMap AnosRAMFSFileHeader.bytes ++ (padding ++ data)) := by
    have hmiddle := @patch_middle _ (headers.flatMap AnosRAMFSFileHeader.bytes)
      (fsHeader 0 files.length) blank (padding ++ data) hbytes
    rw [length_fsHeader] at hmiddle
    rw [List.append_assoc _ padding, hmiddle, List.append_assoc]
  obtain ⟨size, hsize⟩ : ∃ size, size = (fsHeader 0 files.length ++
    (headers.flatMap AnosRAMFSFileHeader.bytes ++ (padding ++ data))).length := ⟨_, rfl⟩
  have hfull : (fsHeader 0 files.length ++ blank ++ padding ++ data).length = size := by
    simp only [List.length_append, hsize, hbytes]
    omega
  have hpatches : writeFilesystem files = patch (patch
      (fsHeader 0 files.length ++ blank ++ padding ++ data) 32
      (headers.flatMap AnosRAMFSFileHeader.bytes)) 8 (toBytes 8 size) := by
    rw [writeFilesystem]
    dsimp only
    rw [hp, ← hblank, ← hpadding, hwritten, hheaders, hpatched, ← hsize,
      pageAligned_of_aligned (by rw [← hfull]; exact hall)]
  have himage : writeFilesystem files = fsHeader size files.length ++
      (headers.flatMap AnosRAMFSFileHeader.bytes ++ (padding ++ data)) := by
    rw [hpatches, hpatched, fsHeader_patch]
  have hlength : (writeFilesystem files).length = size := by
    rw [himage, hsize, List.length_append, List.length_append, length_fsHeader, length_fsHeader]
  refine ⟨headers, padding ++ data, ?_, hcount, ?_⟩
  · rw [hlength]
    exact himage
  · intro k file header hfile hheader
    obtain ⟨hin, hafter⟩ := hplaced k file header hfile hheader
    rw [Nat.zero_add] at hin hafter
    rw [hpatches]
    apply (hin.patch ?_).patch
    · rw [length_toBytes]
      omega
    · rw [hbytes, hblankLength]
      omega

end Layout

/-! ## Reading an image -/

/-- The `k`-th header is the one of a file, and points to its contents. -/
structure FileAt (mem : List Byte) (k : Nat) (file : InputFile) : Prop where
  fileName : cstr (mem.drop (32 + k * 32 + 16)) = file.name
  fileLength : number mem (32 + k * 32 + 8) 8 = file.contents.length
  start : 0 < number mem (32 + k * 32) 8
  inside : 32 + k * 32 + number mem (32 + k * 32) 8 + file.contents.length ≤ mem.length
  data : slice (32 + k * 32 + number mem (32 + k * 32) 8) file.contents.length mem = file.contents

/-- Memory that holds a valid RAMFS with these files. -/
structure Image (mem : List Byte) (files : List InputFile) : Prop where
  valid : isValidRamfs mem = true
  fileCount : number mem 16 8 = files.length
  fileAt : ∀ k file, files[k]? = some file → FileAt mem k file

/-- Names that fit in a header. -/
structure Named (files : List InputFile) : Prop where
  nonempty : ∀ file ∈ files, file.name ≠ []
  short : ∀ file ∈ files, file.name.length ≤ 15
  nonzero : ∀ file ∈ files, 0 ∉ file.name
  distinct : (files.map InputFile.name).Nodup

section Reading

variable {mem name : List Byte} {files : List InputFile} {file : InputFile} {k : Nat}

/-- The comparison of 24 bytes is one of the whole names. -/
theorem FileAt.compare (h : FileAt mem k file) (short : file.name.length ≤ 15) (string : 0 ∉ name) :
    strncmp 24 name (mem.drop (32 + k * 32 + 16)) = true ↔ name = file.name := by
  rw [strncmp_iff, chars_eq_take, chars_eq_take, h.fileName, cstr_of_not_mem string,
    List.take_of_length_le (by omega : file.name.length ≤ 24)]
  constructor
  · intro heq
    have hlength := congrArg List.length heq
    rw [List.length_take] at hlength
    rwa [List.take_of_length_le (by omega)] at heq
  · intro heq
    rw [heq, List.take_of_length_le (by omega)]

theorem FileAt.first_ne (h : FileAt mem k file) (nonempty : file.name ≠ []) :
    mem.getD (32 + k * 32 + 16) 0 ≠ 0 := by
  intro hzero
  apply nonempty
  rw [List.getD_eq_getElem?_getD, ← List.head?_drop] at hzero
  rw [← h.fileName]
  cases hdrop : mem.drop (32 + k * 32 + 16) with
  | nil => rfl
  | cons c rest =>
    rw [hdrop, List.head?_cons, Option.getD_some] at hzero
    rw [hzero, cstr_cons_zero]

/-- The search stops at the first header with the name. -/
theorem findFrom_some {left : Nat}
    (before : ∀ j, k ≤ j → j < k + left → ¬ (mem.getD (32 + j * 32 + 16) 0 ≠ 0 ∧
      strncmp 24 name (mem.drop (32 + j * 32 + 16)) = true))
    (found : mem.getD (32 + (k + left) * 32 + 16) 0 ≠ 0 ∧
      strncmp 24 name (mem.drop (32 + (k + left) * 32 + 16)) = true) (more : Nat) :
    findFrom mem name k (left + 1 + more) = some (32 + (k + left) * 32) := by
  induction left generalizing k with
  | zero =>
    rw [Nat.add_comm, findFrom]
    exact if_pos found
  | succ left ih =>
    have hindex : k + 1 + left = k + (left + 1) := by omega
    have hrest := @ih (k + 1) (fun j hlow hhigh => before j (by omega) (by omega))
      (by rw [hindex]; exact found)
    rw [hindex] at hrest
    rw [Nat.add_right_comm, findFrom, if_neg (before k (Nat.le_refl k) (by omega)), hrest]

theorem findFrom_none {left : Nat}
    (none : ∀ j, k ≤ j → j < k + left → ¬ (mem.getD (32 + j * 32 + 16) 0 ≠ 0 ∧
      strncmp 24 name (mem.drop (32 + j * 32 + 16)) = true)) :
    findFrom mem name k left = .none := by
  induction left generalizing k with
  | zero => rfl
  | succ left ih =>
    rw [findFrom, if_neg (none k (Nat.le_refl k) (by omega))]
    exact ih fun j hlow hhigh => none j (by omega) (by omega)

theorem Image.compare (image : Image mem files) (named : Named files) (string : 0 ∉ name)
    (h : files[k]? = some file) :
    (mem.getD (32 + k * 32 + 16) 0 ≠ 0 ∧ strncmp 24 name (mem.drop (32 + k * 32 + 16)) = true) ↔
      name = file.name := by
  have hmem := List.mem_of_getElem? h
  have hat := image.fileAt k file h
  rw [hat.compare (named.short file hmem) string]
  exact and_iff_right (hat.first_ne (named.nonempty file hmem))

/-- Each name is found at its header. -/
theorem Image.find (image : Image mem files) (named : Named files) (h : files[k]? = some file) :
    ramfsFindFile mem file.name = some (32 + k * 32) := by
  have hlt : k < files.length := (List.getElem?_eq_some_iff.mp h).1
  have hstring := named.nonzero file (List.mem_of_getElem? h)
  obtain ⟨more, hmore⟩ := Nat.exists_eq_add_of_lt hlt
  have hfound := (image.compare named hstring h).mpr rfl
  have hbefore : ∀ j, 0 ≤ j → j < 0 + k → ¬ (mem.getD (32 + j * 32 + 16) 0 ≠ 0 ∧
      strncmp 24 file.name (mem.drop (32 + j * 32 + 16)) = true) := by
    intro j _ hj
    have hother := List.getElem?_eq_getElem (by omega : j < files.length)
    rw [image.compare named hstring hother]
    intro hsame
    have hjk : (files.map InputFile.name)[j]? = (files.map InputFile.name)[k]? := by
      rw [List.getElem?_map, List.getElem?_map, hother, h, Option.map_some, Option.map_some, hsame]
    have heq := (List.getElem?_inj (by rw [List.length_map]; omega) named.distinct).mp hjk
    omega
  have hfind := findFrom_some hbefore (by rw [Nat.zero_add]; exact hfound) more
  rw [Nat.zero_add] at hfind
  rw [ramfsFindFile, if_pos image.valid, image.fileCount, hmore, Nat.add_right_comm]
  exact hfind

/-- No other string is found. -/
theorem Image.find_other (image : Image mem files) (named : Named files) (string : 0 ∉ name)
    (other : name ∉ files.map InputFile.name) : ramfsFindFile mem name = none := by
  rw [ramfsFindFile, if_pos image.valid, image.fileCount]
  apply findFrom_none
  intro j _ hj
  have hfile := List.getElem?_eq_getElem (by omega : j < files.length)
  rw [image.compare named string hfile]
  rintro rfl
  exact other (List.mem_map_of_mem (List.getElem_mem _))

/-- Only the string at the name counts. -/
theorem find_cstr : ramfsFindFile mem name = ramfsFindFile mem (cstr name) := by
  have hcompare : ∀ bytes : List Byte, strncmp 24 name bytes = strncmp 24 (cstr name) bytes := by
    intro bytes
    have hsame : chars 24 (cstr name) = chars 24 name := by
      rw [chars_eq_take, chars_eq_take, cstr_of_not_mem zero_not_mem_cstr]
    rw [Bool.eq_iff_iff, strncmp_iff, strncmp_iff, hsame]
  have hfrom : ∀ i left, findFrom mem name i left = findFrom mem (cstr name) i left := by
    intro i left
    induction left generalizing i with
    | zero => rfl
    | succ left ih => rw [findFrom, findFrom, hcompare, ih]
  rw [ramfsFindFile, ramfsFindFile, hfrom]

theorem FileAt.open_file (h : FileAt mem k file) (nonempty : file.contents ≠ []) :
    ramfsFileOpen mem (some (32 + k * 32)) =
      some (32 + k * 32 + number mem (32 + k * 32) 8) := by
  have hlength := h.fileLength
  have hpos := List.length_pos_iff.mpr nonempty
  have hstart := h.start
  rw [ramfsFileOpen, if_neg (by omega), if_neg (by omega)]

theorem FileAt.open_empty (h : FileAt mem k file) (empty : file.contents = []) :
    ramfsFileOpen mem (some (32 + k * 32)) = none := by
  rw [ramfsFileOpen, h.fileLength, empty, if_pos List.length_nil]

end Reading

/-! ## The round trip -/

section RoundTrip

variable {mem rest : List Byte}

theorem number_fsHeader {size count : Nat} (h : mem = fsHeader size count ++ rest)
    (hsize : size < 256 ^ 8) (hcount : count < 256 ^ 8) :
    isValidRamfs mem = true ∧ number mem 8 8 = size ∧ number mem 16 8 = count := by
  have h8 : (toBytes 4 ramfsMagic ++ toBytes 4 ramfsVersion).length = 8 := by
    rw [List.length_append, length_toBytes, length_toBytes]
  have h16 : (toBytes 4 ramfsMagic ++ toBytes 4 ramfsVersion ++ toBytes 8 size).length = 16 := by
    rw [List.length_append, h8, length_toBytes]
  refine ⟨?_, ?_, ?_⟩
  · have hmagic : number mem 0 4 = ramfsMagic := by
      rw [number, h, fsHeader, slice, List.drop_zero]
      simp only [List.append_assoc]
      rw [List.take_left' length_toBytes, ofBytes_toBytes (by decide)]
    have hversion : number mem 4 4 = ramfsVersion := by
      rw [number, h, fsHeader, slice]
      simp only [List.append_assoc]
      rw [List.drop_left' length_toBytes, List.take_left' length_toBytes,
        ofBytes_toBytes (by decide)]
    rw [isValidRamfs, hmagic, hversion]
    rfl
  · rw [number, h, fsHeader, slice, List.append_assoc, List.append_assoc, List.append_assoc,
      List.drop_left' h8, List.take_left' length_toBytes, ofBytes_toBytes hsize]
  · rw [number, h, fsHeader, slice, List.append_assoc, List.append_assoc,
      List.drop_left' h16, List.take_left' length_toBytes, ofBytes_toBytes hcount]

/-- The fields of a header that stands in memory. -/
theorem number_fileHeader {header : AnosRAMFSFileHeader} {k : Nat}
    (h : mem.drop (32 + k * 32) = header.bytes ++ rest) (hstart : header.fileStart < 256 ^ 8)
    (hlength : header.fileLength < 256 ^ 8) :
    number mem (32 + k * 32) 8 = header.fileStart ∧
      number mem (32 + k * 32 + 8) 8 = header.fileLength ∧
      mem.drop (32 + k * 32 + 16) = header.fileName ++ rest := by
  have h16 : (toBytes 8 header.fileStart ++ toBytes 8 header.fileLength).length = 16 := by
    rw [List.length_append, length_toBytes, length_toBytes]
  rw [AnosRAMFSFileHeader.bytes, List.append_assoc, List.append_assoc] at h
  refine ⟨?_, ?_, ?_⟩
  · rw [number, slice, h, List.take_left' length_toBytes, ofBytes_toBytes hstart]
  · rw [number, slice, ← List.drop_drop, h, List.drop_left' length_toBytes,
      List.take_left' length_toBytes, ofBytes_toBytes hlength]
  · rw [← List.drop_drop, h, ← List.append_assoc, List.drop_left' h16]

/-- The image that is written, wherever it is loaded. -/
theorem image_writeFilesystem {files : List InputFile} (named : Named files)
    (few : files.length < 2 ^ 31) (size : (writeFilesystem files).length < 2 ^ 63)
    (after : List Byte) :
    Image (writeFilesystem files ++ after) files ∧
      number (writeFilesystem files ++ after) 8 8 = (writeFilesystem files).length ∧
      ∀ k < files.length, (32 + k * 32 +
        number (writeFilesystem files ++ after) (32 + k * 32) 8) % 4096 = 0 := by
  obtain ⟨headers, rest, himage, hcount, hplaced⟩ := writeFilesystem_eq files
  generalize writeFilesystem files = image at *
  have hmem : image ++ after = fsHeader image.length files.length ++
      (headers.flatMap AnosRAMFSFileHeader.bytes ++ (rest ++ after)) := by
    rw [← List.append_assoc _ rest, ← List.append_assoc, ← himage]
  obtain ⟨hvalid, hsize, hfiles⟩ := number_fsHeader hmem (by omega) (by omega)
  have hread : ∀ {k file header}, files[k]? = some file → headers[k]? = some header →
      Placed image k file header ∧
      number (image ++ after) (32 + k * 32) 8 = header.fileStart ∧
      number (image ++ after) (32 + k * 32 + 8) 8 = header.fileLength ∧
      cstr ((image ++ after).drop (32 + k * 32 + 16)) = chars 15 file.name := by
    intro k file header hfile hheader
    have hat := hplaced k file header hfile hheader
    have hinside := hat.inside
    have hlength := hat.fileLength
    obtain ⟨more, hmore⟩ := drop_flatMap AnosRAMFSFileHeader.length_bytes hheader (rest ++ after)
    have hdrop : (image ++ after).drop (32 + k * 32) = header.bytes ++ more := by
      rw [hmem, ← List.drop_drop, List.drop_left' (length_fsHeader _ _), hmore]
    obtain ⟨hstart, hfileLength, hname⟩ := number_fileHeader hdrop (by omega) (by omega)
    refine ⟨hat, hstart, hfileLength, ?_⟩
    rw [hname, hat.fileName, List.append_assoc, List.singleton_append, cstr_strncpy_zero]
  have hheader : ∀ {k}, k < files.length → ∃ header, headers[k]? = some header := by
    intro k hk
    exact ⟨_, List.getElem?_eq_getElem (by omega : k < headers.length)⟩
  refine ⟨⟨hvalid, hfiles, ?_⟩, hsize, ?_⟩
  · intro k file hfile
    obtain ⟨header, hk⟩ := hheader (List.getElem?_eq_some_iff.mp hfile).1
    obtain ⟨hat, hstart, hlength, hname⟩ := hread hfile hk
    have hfit := List.mem_of_getElem? hfile
    have hinside := hat.inside
    constructor
    · rw [hname, chars_eq_take, cstr_of_not_mem (named.nonzero file hfit),
        List.take_of_length_le (named.short file hfit)]
    · rw [hlength, hat.fileLength]
    · rw [hstart]
      exact hat.start
    · rw [hstart, List.length_append]
      omega
    · rw [hstart, slice, List.drop_append_of_le_length (by omega),
        List.take_append_of_le_length (by rw [List.length_drop]; omega), ← slice]
      exact hat.data
  · intro k hk
    obtain ⟨header, hheaderk⟩ := hheader hk
    obtain ⟨hat, hstart, -⟩ := hread (List.getElem?_eq_getElem hk) hheaderk
    rw [hstart]
    exact hat.aligned

/-- The image of every list of files is valid and holds exactly these files: each is found by its
name and by no other, opens at an aligned place with its contents, or not at all if it is empty, and
the size is that of the image. -/
theorem ramfs_round_trip {files : List InputFile} (named : Named files)
    (few : files.length < 2 ^ 31) (size : (writeFilesystem files).length < 2 ^ 63)
    (after : List Byte) :
    isValidRamfs (writeFilesystem files ++ after) = true ∧
    ramfsFileCount (writeFilesystem files ++ after) = files.length ∧
    number (writeFilesystem files ++ after) 8 8 = (writeFilesystem files).length ∧
    (∀ name, 0 ∉ name → name ∉ files.map InputFile.name →
      ramfsFindFile (writeFilesystem files ++ after) name = none) ∧
    ∀ k file, files[k]? = some file →
      ramfsFindFile (writeFilesystem files ++ after) file.name = some (32 + k * 32) ∧
      number (writeFilesystem files ++ after) (32 + k * 32 + 8) 8 = file.contents.length ∧
      (file.contents ≠ [] → ∃ place,
        ramfsFileOpen (writeFilesystem files ++ after) (some (32 + k * 32)) = some place ∧
        place % 4096 = 0 ∧
        slice place file.contents.length (writeFilesystem files ++ after) = file.contents) ∧
      (file.contents = [] →
        ramfsFileOpen (writeFilesystem files ++ after) (some (32 + k * 32)) = none) := by
  obtain ⟨himage, hsize, haligned⟩ := image_writeFilesystem named few size after
  refine ⟨himage.valid, ?_, hsize, ?_, ?_⟩
  · have hcount : (BitVec.ofNat 32 files.length).toNat = files.length :=
      toNat_ofNat_of_lt (by omega)
    rw [ramfsFileCount, if_pos himage.valid, himage.fileCount,
      BitVec.toInt_eq_toNat_of_lt (by rw [hcount]; omega), hcount]
  · intro name hstring hother
    exact himage.find_other named hstring hother
  · intro k file hfile
    have hat := himage.fileAt k file hfile
    refine ⟨himage.find named hfile, hat.fileLength, ?_, hat.open_empty⟩
    intro hnonempty
    have hlt := (List.getElem?_eq_some_iff.mp hfile).1
    exact ⟨_, hat.open_file hnonempty, haligned k hlt, hat.data⟩

/-- Two files, of which the second is empty. -/
def twoFiles : List InputFile := [⟨[0x61], [1, 2, 3]⟩, ⟨[0x61, 0x62], []⟩]

/-- The headers, the file with data at 4096, and zeros up to the end of its page. -/
theorem writeFilesystem_twoFiles : writeFilesystem twoFiles = fsHeader 8192 2 ++
    ((fileHeader ⟨[0x61], [1, 2, 3]⟩ 4096 0).bytes ++
      (fileHeader ⟨[0x61, 0x62], []⟩ 8192 1).bytes ++
      (List.replicate 4000 0 ++ ([1, 2, 3] ++ List.replicate 4093 0))) := by
  have hpadded : pageAligned (32 + twoFiles.length * 32) = 4096 := rfl
  have hwritten : ∀ out, writeFiles out 4096 0 twoFiles =
      ([fileHeader ⟨[0x61], [1, 2, 3]⟩ 4096 0, fileHeader ⟨[0x61, 0x62], []⟩ 8192 1],
        out ++ ([1, 2, 3] ++ List.replicate 4093 0)) := by
    intro out
    simp only [writeFiles, twoFiles, copyData_eq, List.append_nil, List.append_assoc,
      List.length_cons, List.length_nil, Nat.reduceAdd, Nat.reduceMod, Nat.reduceSub,
      List.replicate_zero]
  have hlength : ((fileHeader ⟨[0x61], [1, 2, 3]⟩ 4096 0).bytes ++
      (fileHeader ⟨[0x61, 0x62], []⟩ 8192 1).bytes).length = 64 := by
    rw [List.length_append, AnosRAMFSFileHeader.length_bytes, AnosRAMFSFileHeader.length_bytes]
  have hpatched := @patch_middle _ ((fileHeader ⟨[0x61], [1, 2, 3]⟩ 4096 0).bytes ++
    (fileHeader ⟨[0x61, 0x62], []⟩ 8192 1).bytes) (fsHeader 0 2) (List.replicate 64 0)
    (List.replicate 4000 0 ++ ([1, 2, 3] ++ List.replicate 4093 0))
    (hlength.trans List.length_replicate.symm)
  rw [length_fsHeader] at hpatched
  have hheaders : [fileHeader ⟨[0x61], [1, 2, 3]⟩ 4096 0,
      fileHeader ⟨[0x61, 0x62], []⟩ 8192 1].flatMap AnosRAMFSFileHeader.bytes =
      (fileHeader ⟨[0x61], [1, 2, 3]⟩ 4096 0).bytes ++
        (fileHeader ⟨[0x61, 0x62], []⟩ 8192 1).bytes := by
    rw [List.flatMap_cons, List.flatMap_singleton]
  rw [writeFilesystem, hpadded, hwritten]
  dsimp only
  have hcount : twoFiles.length = 2 := rfl
  rw [hcount, hheaders, List.append_assoc (fsHeader 0 2 ++ _), hpatched,
    List.append_assoc (fsHeader 0 2)]
  have hsize : (fsHeader 0 2 ++ ((fileHeader ⟨[0x61], [1, 2, 3]⟩ 4096 0).bytes ++
      (fileHeader ⟨[0x61, 0x62], []⟩ 8192 1).bytes ++
      (List.replicate 4000 0 ++ ([1, 2, 3] ++ List.replicate 4093 0)))).length = 8192 := by
    simp only [List.length_append, length_fsHeader, hlength, List.length_replicate]
    rfl
  rw [hsize, fsHeader_patch]
  rfl

theorem length_twoFiles : (writeFilesystem twoFiles).length = 8192 := by
  rw [writeFilesystem_twoFiles]
  simp only [List.length_append, length_fsHeader, AnosRAMFSFileHeader.length_bytes,
    List.length_replicate]
  rfl

theorem ramfs_round_trip_twoFiles :
    Named twoFiles ∧ (writeFilesystem twoFiles).length < 2 ^ 63 ∧
    ramfsFileCount (writeFilesystem twoFiles ++ []) = 2 ∧
    ramfsFindFile (writeFilesystem twoFiles ++ []) [0x61, 0x62] = some 64 ∧
    ramfsFindFile (writeFilesystem twoFiles ++ []) [0x62] = none := by
  have hnamed : Named twoFiles := ⟨by decide, by decide, by decide, by decide⟩
  have hsize : (writeFilesystem twoFiles).length < 2 ^ 63 := by
    rw [length_twoFiles]
    decide
  obtain ⟨-, hcount, -, hother, hfiles⟩ := ramfs_round_trip hnamed (by decide) hsize []
  exact ⟨hnamed, hsize, hcount, (hfiles 1 _ rfl).1, hother [0x62] (by decide) (by decide)⟩

end RoundTrip

end Ramfs
