import AnosKernel.Ramfs
import AnosKernel.VfsMounts

/-!
# Loading a file from the RAMFS

The client `load_config_file` of `system/config.c`, and the server: `parse_file_path` of
`system/path.c` with `handle_file_size_query`, `handle_file_load_page_query` and
`ramfs_driver_thread` of `system/main.c`. All of them work on the one page of the message. A write
outside a buffer, and a read outside the page and the memory that holds the RAMFS, are faults.
-/

namespace ConfigLoading

open Bytes CStrings MessagePage

def slash : Byte := 0x2f

/-! ## The server -/

/-- What `parse_file_path` makes of its input: a path leaves the page with the colon replaced, and
the offset of what comes after it. -/
inductive Parsed where
  | refused
  | path (page : Page) (offset : Nat)
  | fault

/-- The input is what stands in the page from `input` on. -/
def parseFilePath (page : Page) (input inputLen : Nat) : Parsed :=
  let bytes := page.bytes.drop input
  if inputLen = 0 then .refused
  else if 0 ∉ bytes.take inputLen then
    -- the search for the zero runs on behind the page
    if input + inputLen ≤ 4096 then .refused else .fault
  else
    match strchr VfsMounts.colon (bytes.take inputLen) with
    | none => .refused
    | some colon =>
      if colon = 0 then .refused
      else if bytes.getD (colon + 1) 0 = 0 then .refused
      else if fits : input + colon + 1 ≤ 4096 then
        .path (page.write (input + colon) [0] fits) (input + colon + 1)
      else .fault

/-- The path without its leading slashes. -/
def targetName (page : Page) (path : Nat) : List Byte := (page.bytes.drop path).dropWhile (· = slash)

/-- What a thread leaves in the page, and its reply; none if it faults. -/
def handleFileSizeQuery (mem : List Byte) (page : Page) (size : Nat) : Option (Page × BitVec 64) :=
  match parseFilePath page 0 size with
  | .fault => none
  | .refused => some (page, 0)
  | .path page path =>
    match Ramfs.ramfsFindFile mem (targetName page path) with
    | none => some (page, 0)
    | some target => some (page, BitVec.ofNat 64 (Ramfs.number mem (target + 8) 8))

theorem slice_fits (left ofs : Nat) (mem : List Byte) :
    0 + (slice ofs (min left 4096) mem).length ≤ 4096 := by
  rw [slice, List.length_take]
  omega

/-- Bytes copied over the query, from `start_byte_ofs` behind the start of the file on: the addition
wraps around, and where there are no bytes to copy nothing is read. -/
def copyPart (mem : List Byte) (page : Page) (target : Nat) (startByteOfs : BitVec 64) :
    Option (Page × BitVec 64) :=
  let left := (BitVec.ofNat 64 (Ramfs.number mem (target + 8) 8) - startByteOfs).toNat
  let copySize := min left 4096
  match Ramfs.ramfsFileOpen mem (some target) with
  | none => if copySize = 0 then some (page, 0) else none
  | some src =>
    let src := (BitVec.ofNat 64 src + startByteOfs).toNat
    if copySize = 0 ∨ src + copySize ≤ mem.length then
      some (page.write 0 (slice src copySize mem) (slice_fits left src mem),
        BitVec.ofNat 64 copySize)
    else none

/-- The name is behind the offset of 8 bytes, and its length is taken to be that of the message
without 4 bytes. -/
def handleFileLoadPageQuery (mem : List Byte) (page : Page) (size : Nat) :
    Option (Page × BitVec 64) :=
  let startByteOfs := BitVec.ofNat 64 (page.number 0 8)
  match parseFilePath page 8 (BitVec.ofNat 64 size - 4).toNat with
  | .fault => none
  | .refused => some (page, 0)
  | .path page path =>
    match Ramfs.ramfsFindFile mem (targetName page path) with
    | none => some (page, 0)
    | some target => copyPart mem page target startByteOfs

def fsQueryObjectSize : BitVec 64 := 1

def fsLoadObjectPage : BitVec 64 := 2

def ramfsDriver (mem : List Byte) (page : Page) (tag : BitVec 64) (size : Nat) :
    Option (Page × BitVec 64) :=
  if tag = fsQueryObjectSize then handleFileSizeQuery mem page size
  else if tag = fsLoadObjectPage then handleFileLoadPageQuery mem page size
  else some (page, 0)

/-! ## Messages -/

structure System where
  vfsChannel : BitVec 64
  ramfsChannel : BitVec 64
  mounts : List VfsMounts.VFSMountEntry
  /-- Memory from `_system_ramfs_start` on. -/
  mem : List Byte

/-- The page after a message, and its reply, where 0 stands for a failure too. The kernel refuses
messages of more than a page. -/
def send (sys : System) (channel tag : BitVec 64) (size : Nat) (page : Page) :
    Option (Page × BitVec 64) :=
  if size > 4096 then some (page, 0)
  else if channel = sys.vfsChannel then
    (VfsMounts.vfsDriver sys.mounts ⟨tag, size, page⟩).2.map fun reply => (page, reply)
  else if channel = sys.ramfsChannel then ramfsDriver sys.mem page tag size
  else some (page, 0)

/-! ## The client -/

inductive Outcome where
  | null
  | loaded (buffer : List Byte)
  | fault
  | pending

/-- Bytes stored into a buffer; none if they do not fit. -/
def store (buffer : List Byte) (offset : Nat) (bytes : List Byte) : Option (List Byte) :=
  if offset + bytes.length ≤ buffer.length then some (patch buffer offset bytes) else none

/-- The loop over the pages of the file, for as many rounds as there is fuel. -/
def loadPages (sys : System) (cookie : BitVec 64) (filename : List Byte) :
    Nat → Page → List Byte → BitVec 64 → BitVec 64 → Outcome
  | 0, _, _, _, _ => .pending
  | fuel + 1, page, loadBuffer, bytesRemain, fileOffset =>
    let filenameSize := strlen filename + 1
    let page := page.write 0 (toBytes 8 fileOffset.toNat) (by simp)
    if fits : 8 + (cstr filename ++ [0]).length ≤ 4096 then
      let page := page.write 8 (cstr filename ++ [0]) fits
      match send sys cookie fsLoadObjectPage (filenameSize + 9) page with
      | none => .fault
      | some (page, loadedBytes) =>
        if loadedBytes = 0 then .null
        else if loadedBytes.toNat > 4096 then .fault
        else
          match store loadBuffer fileOffset.toNat (slice 0 loadedBytes.toNat page.bytes) with
          | none => .fault
          | some loadBuffer =>
            if bytesRemain - loadedBytes = 0 then
              match store loadBuffer (fileOffset + loadedBytes).toNat [0] with
              | none => .fault
              | some loadBuffer => .loaded loadBuffer
            else
              loadPages sys cookie filename fuel page loadBuffer (bytesRemain - loadedBytes)
                (fileOffset + loadedBytes)
    else .fault

/-- `load_config_file`, where `malloc` gives a buffer with any contents. -/
def loadConfigFile (sys : System) (filename : List Byte) (malloc : Nat → List Byte) (fuel : Nat) :
    Outcome :=
  let filenameSize := strlen filename + 1
  let page : Page := ⟨strncpy 4096 filename, length_strncpy⟩
  match send sys sys.vfsChannel VfsMounts.vfsFindFsDriver filenameSize page with
  | none => .fault
  | some (page, cookie) =>
    if cookie = 0 then .null
    else
      match send sys cookie fsQueryObjectSize filenameSize page with
      | none => .fault
      | some (page, fileSize) =>
        if fileSize = 0 then .null
        else loadPages sys cookie filename fuel page (malloc (fileSize.toNat + 1)) fileSize 0

/-! ## Paths -/

/-- The name in a path: what stands behind its first colon and any slashes. A path has something
before the colon, and something behind it. -/
def pathName (path : List Byte) : Option (List Byte) :=
  match path.dropWhile (· ≠ VfsMounts.colon) with
  | [] => none
  | _ :: rest =>
    if path.takeWhile (· ≠ VfsMounts.colon) = [] ∨ rest = [] then none
    else some (rest.dropWhile (· = slash))

/-- Where the first colon is. -/
def colonPlace (path : List Byte) : Nat := (path.takeWhile (· ≠ VfsMounts.colon)).length

/-- `boot:`, any number of slashes, and a name. -/
def bootPath (slashes : Nat) (name : List Byte) : List Byte :=
  VfsMounts.boot ++ (List.replicate slashes slash ++ name)

section Paths

variable {page : Page} {path mountPoint rest name more bytes : List Byte}
  {slashes input inputLen : Nat}

theorem pathName_of_not_mem (h : VfsMounts.colon ∉ path) : pathName path = none := by
  have hnone : path.dropWhile (· ≠ VfsMounts.colon) = [] := by
    rw [List.dropWhile_eq_nil_iff]
    intro c hc
    simpa using fun heq : c = VfsMounts.colon => h (heq ▸ hc)
  rw [pathName, hnone]

theorem split_colon (h : VfsMounts.colon ∉ mountPoint) :
    (mountPoint ++ VfsMounts.colon :: rest).takeWhile (· ≠ VfsMounts.colon) = mountPoint ∧
      (mountPoint ++ VfsMounts.colon :: rest).dropWhile (· ≠ VfsMounts.colon) =
        VfsMounts.colon :: rest := by
  have hall : ∀ c ∈ mountPoint, decide (c ≠ VfsMounts.colon) = true := by
    intro c hc
    simpa using fun heq : c = VfsMounts.colon => h (heq ▸ hc)
  constructor
  · rw [List.takeWhile_append_of_pos hall, List.takeWhile_cons_of_neg (by simp), List.append_nil]
  · rw [List.dropWhile_append_of_pos hall, List.dropWhile_cons_of_neg (by simp)]

theorem pathName_append (h : VfsMounts.colon ∉ mountPoint) :
    pathName (mountPoint ++ VfsMounts.colon :: rest) =
      if mountPoint = [] ∨ rest = [] then none else some (rest.dropWhile (· = slash)) := by
  rw [pathName, (split_colon h).1, (split_colon h).2]

/-- The first colon of a string that ends at a zero. -/
theorem strchr_colon (h : VfsMounts.colon ∉ mountPoint)
    (nonzero : 0 ∉ mountPoint ++ VfsMounts.colon :: rest) :
    strchr VfsMounts.colon (mountPoint ++ VfsMounts.colon :: rest ++ 0 :: more) =
      some mountPoint.length := by
  rw [strchr, cstr_append_zero nonzero, List.findIdx?_append, List.findIdx?_cons, if_pos (by simp)]
  have hnone : mountPoint.findIdx? (· = VfsMounts.colon) = none := by
    rw [List.findIdx?_eq_none_iff]
    intro c hc
    simpa using fun heq : c = VfsMounts.colon => h (heq ▸ hc)
  rw [hnone]
  simp

/-- The zero behind a name ends the slashes too. -/
theorem dropWhile_slash :
    (rest ++ 0 :: more).dropWhile (· = slash) = rest.dropWhile (· = slash) ++ 0 :: more := by
  induction rest with
  | nil => rfl
  | cons c rest ih =>
    by_cases hc : c = slash
    · rw [List.cons_append, List.dropWhile_cons_of_pos (by simpa using hc), ih,
        List.dropWhile_cons_of_pos (by simpa using hc)]
    · rw [List.cons_append, List.dropWhile_cons_of_neg (by simpa using hc),
        List.dropWhile_cons_of_neg (by simpa using hc), List.cons_append]

theorem drop_behind_colon : (mountPoint ++ VfsMounts.colon :: rest ++ 0 :: more).drop
    (mountPoint.length + 1) = rest ++ 0 :: more := by
  rw [List.append_assoc, List.cons_append, ← List.singleton_append, ← List.append_assoc]
  exact List.drop_left' (by rw [List.length_append, List.length_singleton])

/-- The string ends behind its colon if the path is empty. -/
theorem getD_behind_colon (nonzero : 0 ∉ mountPoint ++ VfsMounts.colon :: rest) :
    (mountPoint ++ VfsMounts.colon :: rest ++ 0 :: more).getD (mountPoint.length + 1) 0 = 0 ↔
      rest = [] := by
  rw [List.getD_eq_getElem?_getD, ← List.head?_drop, drop_behind_colon]
  cases rest with
  | nil => exact iff_of_true rfl rfl
  | cons c rest =>
    refine iff_of_false ?_ (List.cons_ne_nil c rest)
    rw [List.cons_append, List.head?_cons, Option.getD_some]
    rintro rfl
    exact nonzero (by simp)

/-- With the colon replaced, the name is what stands behind it. -/
theorem cstr_targetName
    (h : page.bytes.drop input = mountPoint ++ VfsMounts.colon :: rest ++ 0 :: more)
    (nonzero : 0 ∉ mountPoint ++ VfsMounts.colon :: rest)
    (fits : input + mountPoint.length + 1 ≤ 4096) :
    cstr (targetName (page.write (input + mountPoint.length) [0] fits)
      (input + mountPoint.length + 1)) = rest.dropWhile (· = slash) := by
  have hbehind : (page.write (input + mountPoint.length) [0] fits).bytes.drop
      (input + mountPoint.length + 1) = rest ++ 0 :: more := by
    rw [Page.write, drop_patch_after (by simp) (by rw [page.full]; omega), Nat.add_assoc,
      ← List.drop_drop, h, drop_behind_colon]
  have hname : 0 ∉ rest.dropWhile (· = slash) := by
    intro hmem
    exact nonzero (List.mem_append_right _ (List.mem_cons_of_mem _
      ((List.dropWhile_suffix _).subset hmem)))
  rw [targetName, hbehind, dropWhile_slash, cstr_append_zero hname]

/-- What the server makes of a string that stands in its page. -/
theorem parseFilePath_string (h : page.bytes.drop input = path ++ 0 :: more) (nonzero : 0 ∉ path)
    (long : path.length < inputLen) :
    (pathName path = none ∧ parseFilePath page input inputLen = .refused) ∨
      ∃ name, ∃ fits : input + colonPlace path + 1 ≤ 4096, pathName path = some name ∧
        parseFilePath page input inputLen =
          .path (page.write (input + colonPlace path) [0] fits) (input + colonPlace path + 1) ∧
        cstr (targetName (page.write (input + colonPlace path) [0] fits)
          (input + colonPlace path + 1)) = name := by
  have hroom : input + path.length < 4096 := by
    have hdrop := congrArg List.length h
    rw [List.length_drop, page.full, List.length_append, List.length_cons] at hdrop
    omega
  obtain ⟨more', htake⟩ : ∃ more', (path ++ 0 :: more).take inputLen = path ++ 0 :: more' := by
    obtain ⟨k, hk⟩ := Nat.exists_eq_succ_of_ne_zero (Nat.sub_ne_zero_of_lt long)
    rw [List.take_append, List.take_of_length_le (by omega), hk, List.take_succ_cons]
    exact ⟨_, rfl⟩
  have hzero : 0 ∈ path ++ 0 :: more' := List.mem_append_right _ List.mem_cons_self
  rw [parseFilePath, h, htake, if_neg (by omega), if_neg (not_not_intro hzero)]
  by_cases hcolon : VfsMounts.colon ∈ path
  · obtain ⟨mountPoint, rest, rfl, hfirst⟩ := List.eq_append_cons_of_mem hcolon
    have hlength : (mountPoint ++ VfsMounts.colon :: rest).length =
        mountPoint.length + 1 + rest.length := by
      rw [List.length_append, List.length_cons]
      omega
    have hafter := @getD_behind_colon _ _ more nonzero
    rw [strchr_colon hfirst nonzero, pathName_append hfirst]
    dsimp only
    by_cases hmount : mountPoint = []
    · rw [if_pos (List.length_eq_zero_iff.mpr hmount), if_pos (Or.inl hmount)]
      exact Or.inl ⟨rfl, rfl⟩
    · rw [if_neg (fun hzero => hmount (List.length_eq_zero_iff.mp hzero))]
      by_cases hrest : rest = []
      · rw [if_pos (hafter.mpr hrest), if_pos (Or.inr hrest)]
        exact Or.inl ⟨rfl, rfl⟩
      · right
        have hfits : input + mountPoint.length + 1 ≤ 4096 := by omega
        rw [colonPlace, (split_colon hfirst).1]
        refine ⟨_, hfits, if_neg (fun h => h.elim hmount hrest), ?_, ?_⟩
        · rw [if_neg (fun hend => hrest (hafter.mp hend)), dif_pos hfits]
        · exact cstr_targetName h nonzero hfits
  · left
    have hnone := (@strchr_none _ _ _ (path ++ 0 :: more') VfsMounts.colon).mpr
    rw [cstr_append_zero nonzero] at hnone
    rw [hnone hcolon]
    exact ⟨pathName_of_not_mem hcolon, rfl⟩

theorem zero_not_mem_bootPath (nonzero : 0 ∉ name) : 0 ∉ bootPath slashes name := by
  intro h
  rcases List.mem_append.mp h with h | h
  · exact absurd h (by decide)
  rcases List.mem_append.mp h with h | h
  · exact absurd (List.eq_of_mem_replicate h) (by decide)
  · exact nonzero h

theorem bootPath_eq : bootPath slashes name =
    VfsMounts.boot.take 4 ++ VfsMounts.colon :: (List.replicate slashes slash ++ name) := rfl

theorem colon_not_mem : VfsMounts.colon ∉ VfsMounts.boot.take 4 := by decide

/-- The colon is the fifth character. -/
theorem strchr_bootPath (nonzero : 0 ∉ name) :
    strchr VfsMounts.colon (bootPath slashes name ++ 0 :: more) = some 4 :=
  strchr_colon colon_not_mem (zero_not_mem_bootPath nonzero)

theorem pathName_bootPath (nonempty : name ≠ []) (file : name.head? ≠ some slash) :
    pathName (bootPath slashes name) = some name := by
  have hname : name.dropWhile (· = slash) = name := by
    rcases name with _ | ⟨c, name⟩
    · rfl
    · rw [List.head?_cons, ne_eq, Option.some.injEq] at file
      rw [List.dropWhile_cons_of_neg (by simpa using file)]
  rw [bootPath_eq, pathName_append colon_not_mem, if_neg ?_,
    List.dropWhile_append_of_pos (by simp), hname]
  intro h
  exact h.elim (by decide) fun hempty => nonempty (List.append_eq_nil_iff.mp hempty).2

/-- What the server makes of such a path. -/
theorem parseFilePath_bootPath (h : page.bytes.drop input = bootPath slashes name ++ 0 :: more)
    (nonempty : name ≠ []) (nonzero : 0 ∉ name) (file : name.head? ≠ some slash)
    (long : (bootPath slashes name).length < inputLen) :
    ∃ page' offset, parseFilePath page input inputLen = .path page' offset ∧
      cstr (targetName page' offset) = name := by
  have hname := @pathName_bootPath name slashes nonempty file
  rcases parseFilePath_string h (zero_not_mem_bootPath nonzero) long with ⟨hnone, -⟩ | hpath
  · rw [hname] at hnone
    cases hnone
  · obtain ⟨_, fits, hsome, hparse, htarget⟩ := hpath
    rw [hname] at hsome
    cases hsome
    exact ⟨_, _, hparse, htarget⟩

end Paths

/-! ## The copy of a part of a file -/

section Copies

variable {mem : List Byte} {k size : Nat} {file : Ramfs.InputFile} {page : Page}
  {startByteOfs : BitVec 64}

theorem toNat_inputLen (low : 4 ≤ size) (fits : size ≤ 4096) :
    (BitVec.ofNat 64 size - 4).toNat = size - 4 := by
  have hsize : (BitVec.ofNat 64 size).toNat = size :=
    toNat_ofNat_of_lt (by omega)
  rw [BitVec.toNat_sub_of_le, hsize]
  · rfl
  · rw [BitVec.le_def, hsize]
    exact low

theorem toNat_left (loadable : mem.length < 2 ^ 63) (h : Ramfs.FileAt mem k file)
    (inside : startByteOfs.toNat ≤ file.contents.length) :
    (BitVec.ofNat 64 (Ramfs.number mem (32 + k * 32 + 8) 8) - startByteOfs).toNat =
      file.contents.length - startByteOfs.toNat := by
  have hinside := h.inside
  have hlength : (BitVec.ofNat 64 file.contents.length).toNat = file.contents.length :=
    toNat_ofNat_of_lt (by omega)
  rw [h.fileLength, BitVec.toNat_sub_of_le, hlength]
  rw [BitVec.le_def, hlength]
  exact inside

theorem part_fits (file : Ramfs.InputFile) (start : Nat) :
    0 + (slice start (min (file.contents.length - start) 4096) file.contents).length ≤ 4096 :=
  slice_fits (file.contents.length - start) start file.contents

/-- What is left of the file from a place inside it on, as far as it fits in the page. -/
theorem copyPart_eq (h : Ramfs.FileAt mem k file) (loadable : mem.length < 2 ^ 63)
    (inside : startByteOfs.toNat < file.contents.length) :
    copyPart mem page (32 + k * 32) startByteOfs =
      some (page.write 0 (slice startByteOfs.toNat
          (min (file.contents.length - startByteOfs.toNat) 4096) file.contents)
          (part_fits file startByteOfs.toNat),
        BitVec.ofNat 64 (min (file.contents.length - startByteOfs.toNat) 4096)) := by
  have hinside := h.inside
  have hleft := toNat_left loadable h (Nat.le_of_lt inside)
  have hopen := h.open_file (List.length_pos_iff.mp (by omega))
  have hcontents := h.data
  obtain ⟨src, hsrc⟩ : ∃ src, src = 32 + k * 32 + Ramfs.number mem (32 + k * 32) 8 := ⟨_, rfl⟩
  rw [← hsrc] at hopen hcontents hinside
  have hplace : (BitVec.ofNat 64 src + startByteOfs).toNat = src + startByteOfs.toNat := by
    rw [BitVec.toNat_add, BitVec.toNat_ofNat, Nat.mod_add_mod, Nat.mod_eq_of_lt (by omega)]
  have hdata : slice (src + startByteOfs.toNat)
      (min (file.contents.length - startByteOfs.toNat) 4096) mem = slice startByteOfs.toNat
        (min (file.contents.length - startByteOfs.toNat) 4096) file.contents := by
    rw [← slice_slice (by omega : startByteOfs.toNat +
      min (file.contents.length - startByteOfs.toNat) 4096 ≤ file.contents.length), hcontents]
  simp only [copyPart, hopen, hplace, hleft]
  rw [if_pos (Or.inr (by omega))]
  simp only [hdata]

/-- The copied bytes are at the start of the page. -/
theorem slice_part {start : Nat} (inside : start < file.contents.length) :
    slice 0 (min (file.contents.length - start) 4096)
        (page.write 0 (slice start (min (file.contents.length - start) 4096) file.contents)
          (part_fits file start)).bytes =
      slice start (min (file.contents.length - start) 4096) file.contents := by
  have hpiece := @slice_patch _ page.bytes
    (slice start (min (file.contents.length - start) 4096) file.contents) 0 (Nat.zero_le _)
  rwa [length_slice (by omega)] at hpiece

end Copies

/-! ## The rounds of the protocol -/

/-- The system after boot, and a file that is asked for. -/
structure Serves (sys : System) (files : List Ramfs.InputFile) (k : Nat) (file : Ramfs.InputFile) :
    Prop where
  image : Ramfs.Image sys.mem files
  named : Ramfs.Named files
  loadable : sys.mem.length < 2 ^ 63
  found : files[k]? = some file
  nonempty : file.contents ≠ []
  /-- Names are base names. -/
  base : file.name.head? ≠ some slash
  ramfs : sys.ramfsChannel ≠ 0
  channels : sys.ramfsChannel ≠ sys.vfsChannel
  mounted : (VfsMounts.registerFilesystemDriver [] VfsMounts.boot sys.ramfsChannel).1 <+: sys.mounts

section Rounds

variable {sys : System} {files : List Ramfs.InputFile} {k : Nat} {file : Ramfs.InputFile}
  {page : Page} {more : List Byte} {slashes size : Nat}

theorem Serves.name_ne (serves : Serves sys files k file) : file.name ≠ [] :=
  serves.named.nonempty file (List.mem_of_getElem? serves.found)

theorem Serves.name_nonzero (serves : Serves sys files k file) : 0 ∉ file.name :=
  serves.named.nonzero file (List.mem_of_getElem? serves.found)

theorem Serves.fileAt (serves : Serves sys files k file) : Ramfs.FileAt sys.mem k file :=
  serves.image.fileAt k file serves.found

theorem Serves.length_lt (serves : Serves sys files k file) : file.contents.length < 2 ^ 63 := by
  have hinside := serves.fileAt.inside
  have hloadable := serves.loadable
  omega

/-- The name in the page leads to the file's header. -/
theorem Serves.find (serves : Serves sys files k file) {bytes : List Byte}
    (h : cstr bytes = file.name) : Ramfs.ramfsFindFile sys.mem bytes = some (32 + k * 32) := by
  rw [Ramfs.find_cstr, h]
  exact serves.image.find serves.named serves.found

/-- The first message: the driver of `boot:`. -/
theorem Serves.send_find (serves : Serves sys files k file) (fits : size ≤ 4096)
    (h : page.bytes = bootPath slashes file.name ++ 0 :: more) :
    send sys sys.vfsChannel VfsMounts.vfsFindFsDriver size page = some (page, sys.ramfsChannel) := by
  have hcolon := @strchr_bootPath file.name more slashes serves.name_nonzero
  have hmem : VfsMounts.colon ∈ cstr page.bytes := by
    rw [h]
    exact (chars_strchr hcolon).1
  have hanswer : VfsMounts.findFilesystemDriverByPath sys.mounts page.bytes = sys.ramfsChannel := by
    obtain ⟨added, hmounts⟩ := serves.mounted
    rw [VfsMounts.findFilesystemDriverByPath, h, hcolon, ← hmounts]
    rfl
  rw [send, if_neg (by omega), if_pos rfl, VfsMounts.vfsDriver, if_pos rfl, if_pos (Or.inl hmem),
    hanswer]
  rfl

/-- The second: the size of the file. -/
theorem Serves.send_size (serves : Serves sys files k file) (fits : size ≤ 4096)
    (h : page.bytes = bootPath slashes file.name ++ 0 :: more)
    (long : (bootPath slashes file.name).length < size) :
    ∃ page', send sys sys.ramfsChannel fsQueryObjectSize size page =
      some (page', BitVec.ofNat 64 file.contents.length) := by
  obtain ⟨page', offset, hparse, hname⟩ := @parseFilePath_bootPath page _ _ _ 0 size h
    serves.name_ne serves.name_nonzero serves.base long
  refine ⟨page', ?_⟩
  rw [send, if_neg (by omega), if_neg serves.channels, if_pos rfl, ramfsDriver, if_pos rfl,
    handleFileSizeQuery, hparse]
  dsimp only
  rw [serves.find hname]
  dsimp only
  rw [serves.fileAt.fileLength]

/-- Each of the others: the next bytes of the file, at the start of the page. -/
theorem Serves.send_load (serves : Serves sys files k file) (fits : size ≤ 4096) {offset : Nat}
    (h : page.bytes.drop 8 = bootPath slashes file.name ++ 0 :: more)
    (long : (bootPath slashes file.name).length + 4 < size)
    (start : page.number 0 8 = offset) (inside : offset < file.contents.length) :
    ∃ page', send sys sys.ramfsChannel fsLoadObjectPage size page =
        some (page', BitVec.ofNat 64 (min (file.contents.length - offset) 4096)) ∧
      slice 0 (min (file.contents.length - offset) 4096) page'.bytes =
        slice offset (min (file.contents.length - offset) 4096) file.contents := by
  have hlength := serves.length_lt
  have hinputLen := toNat_inputLen (by omega : 4 ≤ size) fits
  obtain ⟨page', path, hparse, hname⟩ := @parseFilePath_bootPath page _ _ _ 8 (size - 4) h
    serves.name_ne serves.name_nonzero serves.base (by omega)
  have hstart : (BitVec.ofNat 64 offset).toNat = offset :=
    toNat_ofNat_of_lt (by omega)
  have hcopy := @copyPart_eq _ _ _ page' (BitVec.ofNat 64 offset) serves.fileAt
    serves.loadable (by rw [hstart]; exact inside)
  simp only [hstart] at hcopy
  refine ⟨_, ?_, @slice_part _ page' _ inside⟩
  rw [send, if_neg (by omega), if_neg serves.channels, if_pos rfl, ramfsDriver, if_neg (by decide),
    if_pos rfl, handleFileLoadPageQuery, hinputLen, hparse, start]
  dsimp only
  rw [serves.find hname]
  exact hcopy

end Rounds

/-! ## Loading the file -/

section Loading

variable {sys : System} {files : List Ramfs.InputFile} {k : Nat} {file : Ramfs.InputFile}
  {slashes : Nat}

theorem ofNat_sub {a b : Nat} (h : b ≤ a) :
    BitVec.ofNat 64 a - BitVec.ofNat 64 b = BitVec.ofNat 64 (a - b) := by
  rw [BitVec.sub_eq_iff_eq_add, ← BitVec.ofNat_add, Nat.sub_add_cancel h]

theorem ofNat_eq_zero {a : Nat} (h : a < 2 ^ 64) : BitVec.ofNat 64 a = 0 ↔ a = 0 := by
  rw [← BitVec.toNat_inj, BitVec.toNat_ofNat, Nat.mod_eq_of_lt h]
  rfl

/-- What the client writes into the page before each message. -/
theorem query_page (page : Page) {offset : Nat} {path : List Byte} (small : offset < 2 ^ 64)
    (hoffset : 0 + (toBytes 8 offset).length ≤ 4096) (fits : 8 + (path ++ [0]).length ≤ 4096) :
    ((page.write 0 (toBytes 8 offset) hoffset).write 8 (path ++ [0]) fits).number 0 8 = offset ∧
    ∃ more, ((page.write 0 (toBytes 8 offset) hoffset).write 8 (path ++ [0]) fits).bytes.drop 8 =
      path ++ 0 :: more := by
  constructor
  · rw [Page.number_write_before _ (by decide), Page.number_write _ small]
  · rw [Page.drop_write, List.append_assoc, List.singleton_append]
    exact ⟨_, rfl⟩

/-- The rounds that are left load what is left of the file. -/
theorem Serves.loadPages_eq (serves : Serves sys files k file)
    (fits : (bootPath slashes file.name).length + 10 ≤ 4096) {fuel offset : Nat} {page : Page}
    {loadBuffer : List Byte} (inside : offset < file.contents.length)
    (enough : file.contents.length - offset ≤ fuel)
    (size : loadBuffer.length = file.contents.length + 1)
    (loaded : loadBuffer.take offset = file.contents.take offset) :
    loadPages sys sys.ramfsChannel (bootPath slashes file.name) fuel page loadBuffer
        (BitVec.ofNat 64 (file.contents.length - offset)) (BitVec.ofNat 64 offset) =
      .loaded (file.contents ++ [0]) := by
  have hlength := serves.length_lt
  have hstring : cstr (bootPath slashes file.name) = bootPath slashes file.name :=
    cstr_of_not_mem (zero_not_mem_bootPath serves.name_nonzero)
  induction fuel generalizing offset page loadBuffer with
  | zero => omega
  | succ fuel ih =>
    have hoffset : (BitVec.ofNat 64 offset).toNat = offset :=
      toNat_ofNat_of_lt (by omega)
    obtain ⟨count, hcount⟩ : ∃ count, count = min (file.contents.length - offset) 4096 := ⟨_, rfl⟩
    have hcountNat : (BitVec.ofNat 64 count).toNat = count :=
      toNat_ofNat_of_lt (by omega)
    have hroom : 8 + (bootPath slashes file.name ++ [0]).length ≤ 4096 := by
      rw [List.length_append, List.length_singleton]
      omega
    obtain ⟨hstart, more, hpath⟩ := query_page page (by omega : offset < 2 ^ 64) (by simp) hroom
    have hmessage : (bootPath slashes file.name).length + 1 + 9 ≤ 4096 := by omega
    obtain ⟨page', hsend, hbytes⟩ := serves.send_load hmessage hpath (by omega) hstart inside
    rw [← hcount] at hsend hbytes
    -- the new bytes, behind those that are there
    have hpiece : (slice offset count file.contents).length = count := length_slice (by omega)
    obtain ⟨buffer', hbuffer⟩ : ∃ buffer', buffer' =
      patch loadBuffer offset (slice offset count file.contents) := ⟨_, rfl⟩
    have hsize : buffer'.length = file.contents.length + 1 := by
      rw [hbuffer, length_patch (by omega), size]
    have hloaded : buffer'.take (offset + count) = file.contents.take (offset + count) := by
      have htake := @take_patch _ loadBuffer (slice offset count file.contents) offset (by omega)
      rw [hpiece, loaded] at htake
      rw [hbuffer, htake, slice, ← List.take_add]
    have hstore : store loadBuffer offset (slice offset count file.contents) = some buffer' := by
      rw [store, if_pos (by omega), hbuffer]
    rw [loadPages]
    simp only [strlen, hstring, hoffset]
    rw [dif_pos hroom, hsend]
    dsimp only
    rw [if_neg (by rw [ofNat_eq_zero (by omega)]; omega), hcountNat, if_neg (by omega), hbytes,
      hstore]
    dsimp only
    rw [ofNat_sub (by omega), ← BitVec.ofNat_add]
    have hleft := @ofNat_eq_zero (file.contents.length - offset - count) (by omega)
    by_cases hdone : file.contents.length - offset - count = 0
    · have hend : offset + count = file.contents.length := by omega
      rw [hend, List.take_of_length_le (Nat.le_refl _)] at hloaded
      rw [if_pos (hleft.mpr hdone), hend, BitVec.toNat_ofNat, Nat.mod_eq_of_lt (by omega), store,
        if_pos (by rw [List.length_singleton]; omega), patch, hloaded,
        List.drop_of_length_le (by rw [List.length_singleton]; omega), List.append_nil]
    · rw [if_neg (mt hleft.mp hdone), Nat.sub_sub]
      exact ih (by omega) (by omega) hsize hloaded

/-- The path in the page after the client's first copy. -/
theorem first_page {path : List Byte} (nonzero : 0 ∉ path) (fits : path.length + 1 ≤ 4096) :
    ∃ more, strncpy 4096 path = path ++ 0 :: more := by
  obtain ⟨n, hn⟩ := Nat.exists_eq_succ_of_ne_zero
    (Nat.sub_ne_zero_of_lt (by omega : path.length < 4096))
  refine ⟨List.replicate n 0, ?_⟩
  rw [strncpy_eq nonzero (by omega), hn, List.replicate_succ]

/-- The client up to its loop, with a path whose first message fits in a page. -/
theorem Serves.loadConfigFile_eq (serves : Serves sys files k file)
    (fits : (bootPath slashes file.name).length + 1 ≤ 4096) {malloc : Nat → List Byte}
    {fuel : Nat} :
    ∃ page, loadConfigFile sys (bootPath slashes file.name) malloc fuel =
      loadPages sys sys.ramfsChannel (bootPath slashes file.name) fuel page
        (malloc (file.contents.length + 1)) (BitVec.ofNat 64 file.contents.length) 0 := by
  have hlength := serves.length_lt
  have hnonzero := @zero_not_mem_bootPath file.name slashes serves.name_nonzero
  have hstring := cstr_of_not_mem hnonzero
  have hpos := List.length_pos_iff.mpr serves.nonempty
  obtain ⟨page, hpage⟩ : ∃ page : Page, page = ⟨strncpy 4096 (bootPath slashes file.name),
    length_strncpy⟩ := ⟨_, rfl⟩
  obtain ⟨more, hbytes⟩ := first_page hnonzero fits
  replace hbytes : page.bytes = bootPath slashes file.name ++ 0 :: more :=
    (congrArg Page.bytes hpage).trans hbytes
  have hfind := serves.send_find fits hbytes
  obtain ⟨page', hsize⟩ := serves.send_size fits hbytes (Nat.lt_succ_self _)
  have hsizeNat : (BitVec.ofNat 64 file.contents.length).toNat = file.contents.length :=
    toNat_ofNat_of_lt (by omega)
  refine ⟨page', ?_⟩
  rw [loadConfigFile]
  simp only [strlen, hstring, ← hpage, hfind]
  rw [if_neg serves.ramfs, hsize]
  dsimp only
  rw [if_neg (by rw [ofNat_eq_zero (by omega)]; omega), hsizeNat]

/-- A query of more than a page is refused, or runs over the end of the page before it is sent. -/
theorem loadPages_long {cookie bytesRemain fileOffset : BitVec 64} {path loadBuffer : List Byte}
    {fuel : Nat} {page : Page} (long : 4096 < (cstr path).length + 10) (buffer : List Byte) :
    loadPages sys cookie path fuel page loadBuffer bytesRemain fileOffset ≠ .loaded buffer := by
  intro h
  rcases fuel with _ | fuel
  · cases h
  rw [loadPages] at h
  simp only [strlen] at h
  split at h
  · rw [send, if_pos (by omega)] at h
    cases h
  · cases h

/-- The RAMFS of two files, mounted at boot. -/
def booted : System where
  vfsChannel := 1
  ramfsChannel := 2
  mounts := (VfsMounts.registerFilesystemDriver [] VfsMounts.boot 2).1
  mem := Ramfs.writeFilesystem Ramfs.twoFiles ++ []

end Loading

end ConfigLoading
