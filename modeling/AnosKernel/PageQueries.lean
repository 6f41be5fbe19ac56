import AnosKernel.ConfigLoading

/-!
# The bounds of a page query

What `handle_file_load_page_query` of `system/main.c` reads and replies, whatever bytes are in the
page and whatever size of the message the client gives. The kernel hands over no message of more
than a page.
-/

namespace PageQueries

open Bytes CStrings MessagePage ConfigLoading

/-! ## What is read -/

/-- How many bytes the search for the end of the input reads, the one that is a fault included. No
later loop over the input reads behind its zero. -/
def scan : List Byte → Nat → Nat
  | _, 0 => 0
  | [], _ + 1 => 1
  | c :: input, inputLen + 1 => if c = 0 then 1 else scan input inputLen + 1

/-- The bytes of the path that are read, from place 8 of the message on. -/
def pathRead (page : Page) (size : Nat) : Nat :=
  scan (page.bytes.drop 8) (BitVec.ofNat 64 size - 4).toNat

def startByteOfs (page : Page) : BitVec 64 := BitVec.ofNat 64 (page.number 0 8)

/-- The copy of a query: so many bytes of the file, from a place on. -/
structure DataRead where
  fileLength : Nat
  start : Nat
  count : Nat

def DataRead.Inside (data : DataRead) : Prop :=
  data.count = 0 ∨ data.start + data.count ≤ data.fileLength

def dataRead (mem : List Byte) (page : Page) (size : Nat) : Option DataRead :=
  match parseFilePath page 8 (BitVec.ofNat 64 size - 4).toNat with
  | .fault => none
  | .refused => none
  | .path page' path =>
    (Ramfs.ramfsFindFile mem (targetName page' path)).map fun target =>
      let fileLength := BitVec.ofNat 64 (Ramfs.number mem (target + 8) 8)
      ⟨fileLength.toNat, (startByteOfs page).toNat,
        min (fileLength - startByteOfs page).toNat 4096⟩

/-! ## What is asked -/

/-- A RAMFS in memory with the end of each name in its field. -/
structure Valid (mem : List Byte) (files : List Ramfs.InputFile) : Prop where
  image : Ramfs.Image mem files
  short : ∀ file ∈ files, file.name.length ≤ 15
  loadable : mem.length < 2 ^ 63

/-- The first file of this name; a header without a name is none of a file. -/
def fileNamed (files : List Ramfs.InputFile) (name : List Byte) : Option Ramfs.InputFile :=
  if name = [] then none else files.find? (·.name = name)

/-- The path in a message, if it ends there. -/
def messagePath (message : List Byte) : Option (List Byte) :=
  if 0 ∈ message.drop 8 then some (cstr (message.drop 8)) else none

def asked (files : List Ramfs.InputFile) (message : List Byte) : Option Ramfs.InputFile :=
  ((messagePath message).bind pathName).bind (fileNamed files)

/-- The bytes of the file from this place on that there are, as far as they fit in the page. -/
structure Served (file : Ramfs.InputFile) (start : Nat) (answer : Option (Page × BitVec 64)) :
    Prop where
  reply : answer.map Prod.snd = some (BitVec.ofNat 64 (min (file.contents.length - start) 4096))
  bytes : ∀ page', answer.map Prod.fst = some page' →
    slice 0 (min (file.contents.length - start) 4096) page'.bytes =
      slice start (min (file.contents.length - start) 4096) file.contents

/-- A query inside the file that it names is served, and any other gets 0. -/
def Answers (files : List Ramfs.InputFile) (page : Page) (size : Nat)
    (answer : Option (Page × BitVec 64)) : Prop :=
  match asked files (page.bytes.take size) with
  | some file =>
    if (startByteOfs page).toNat < file.contents.length then
      Served file (startByteOfs page).toNat answer
    else answer.map Prod.snd = some 0
  | none => answer.map Prod.snd = some 0

structure Right (mem : List Byte) (files : List Ramfs.InputFile) (page : Page) (size : Nat) :
    Prop where
  answers : Answers files page size (handleFileLoadPageQuery mem page size)
  data : ∀ data, dataRead mem page size = some data → data.Inside
  path : pathRead page size = 0 ∨ 8 + pathRead page size ≤ size

/-- The path ends in the message, or there is no room for one by the code's own count, and the query
does not start behind the end of the file. -/
def Fits (files : List Ramfs.InputFile) (page : Page) (size : Nat) : Prop :=
  (size = 4 ∨ 0 ∈ (page.bytes.take size).drop 8) ∧
    ∀ file, asked files (page.bytes.take size) = some file →
      (startByteOfs page).toNat ≤ file.contents.length

section Finding

variable {mem name : List Byte} {files : List Ramfs.InputFile} {file : Ramfs.InputFile} {i k : Nat}

/-- The first byte of a name is zero just where there is no name. -/
theorem first_zero_iff (h : Ramfs.FileAt mem k file) :
    mem.getD (32 + k * 32 + 16) 0 = 0 ↔ file.name = [] := by
  constructor
  · intro hzero
    by_contra hne
    exact h.first_ne hne hzero
  · intro hempty
    have hstring := h.fileName
    rw [List.getD_eq_getElem?_getD, ← List.head?_drop]
    cases hdrop : mem.drop (32 + k * 32 + 16) with
    | nil => rfl
    | cons c rest =>
      rw [hdrop, hempty] at hstring
      show c = 0
      by_contra hc
      rw [cstr_cons hc] at hstring
      exact List.cons_ne_nil _ _ hstring

theorem fileNamed_cons (files : List Ramfs.InputFile) :
    fileNamed (file :: files) name =
      if name ≠ [] ∧ file.name = name then some file else fileNamed files name := by
  by_cases hempty : name = []
  · rw [fileNamed, fileNamed, if_pos hempty, if_pos hempty, if_neg (fun h => h.1 hempty)]
  · rw [fileNamed, fileNamed, if_neg hempty, if_neg hempty]
    by_cases hname : file.name = name
    · rw [if_pos ⟨hempty, hname⟩, List.find?_cons_of_pos (by simpa using hname)]
    · rw [if_neg (fun h => hname h.2), List.find?_cons_of_neg (by simpa using hname)]

/-- The search through the headers from the `i`-th on. -/
theorem findFrom_files (fileAt : ∀ k file, files[k]? = some file → Ramfs.FileAt mem (i + k) file)
    (short : ∀ file ∈ files, file.name.length ≤ 15) (string : 0 ∉ name) :
    (fileNamed files name = none ∧ Ramfs.findFrom mem name i files.length = none) ∨
      ∃ k file, files[k]? = some file ∧ fileNamed files name = some file ∧
        Ramfs.findFrom mem name i files.length = some (32 + (i + k) * 32) := by
  induction files generalizing i with
  | nil =>
    left
    constructor
    · rw [fileNamed, List.find?_nil, ite_self]
    · rfl
  | cons file files ih =>
    have hat := fileAt 0 file rfl
    rw [Nat.add_zero] at hat
    have hcompare := hat.compare (short file List.mem_cons_self) string
    have hfirst := first_zero_iff hat
    rw [List.length_cons, Ramfs.findFrom, fileNamed_cons]
    by_cases hfound : name ≠ [] ∧ file.name = name
    · have hne : file.name ≠ [] := by
        rw [hfound.2]
        exact hfound.1
      right
      refine ⟨0, file, rfl, if_pos hfound, ?_⟩
      exact if_pos ⟨mt hfirst.mp hne, hcompare.mpr hfound.2.symm⟩
    · have hother : ¬ (mem.getD (32 + i * 32 + 16) 0 ≠ 0 ∧
          strncmp 24 name (mem.drop (32 + i * 32 + 16)) = true) := by
        rintro ⟨hnonzero, hsame⟩
        have hname := hcompare.mp hsame
        refine hfound ⟨fun hempty => hnonzero (hfirst.mpr ?_), hname.symm⟩
        rw [← hname, hempty]
      have hnext : ∀ k file, files[k]? = some file → Ramfs.FileAt mem (i + 1 + k) file := by
        intro k other h
        rw [Nat.add_right_comm, Nat.add_assoc]
        exact fileAt (k + 1) other h
      rw [if_neg hfound, if_neg hother]
      rcases ih hnext (fun other h => short other (List.mem_cons_of_mem _ h)) with hnone | hsome
      · exact Or.inl hnone
      · obtain ⟨k, other, hk, hnamed, hfind⟩ := hsome
        right
        refine ⟨k + 1, other, hk, hnamed, ?_⟩
        rw [hfind, Nat.add_assoc, Nat.add_comm 1 k]

/-- A name leads to the first file of that name. -/
theorem Valid.find (valid : Valid mem files) (name : List Byte) :
    (fileNamed files (cstr name) = none ∧ Ramfs.ramfsFindFile mem name = none) ∨
      ∃ k file, files[k]? = some file ∧ fileNamed files (cstr name) = some file ∧
        Ramfs.ramfsFindFile mem name = some (32 + k * 32) := by
  have hfiles : ∀ k file, files[k]? = some file → Ramfs.FileAt mem (0 + k) file := by
    intro k file h
    rw [Nat.zero_add]
    exact valid.image.fileAt k file h
  have hfind := findFrom_files hfiles valid.short (@zero_not_mem_cstr _ _ _ name)
  simp only [Nat.zero_add] at hfind
  rw [Ramfs.find_cstr, Ramfs.ramfsFindFile, if_pos valid.image.valid, valid.image.fileCount]
  exact hfind

end Finding

/-! ## The path -/

section Paths

variable {mem : List Byte} {files : List Ramfs.InputFile} {page : Page} {size : Nat}

theorem scan_eq {input : List Byte} {inputLen : Nat} :
    scan input inputLen = min inputLen (strlen input + 1) := by
  induction input generalizing inputLen with
  | nil =>
    cases inputLen with
    | zero => rfl
    | succ inputLen =>
      rw [scan, strlen, cstr_nil, List.length_nil]
      omega
  | cons c input ih =>
    cases inputLen with
    | zero =>
      rw [scan]
      omega
    | succ inputLen =>
      rw [scan, strlen]
      by_cases hc : c = 0
      · rw [if_pos hc, hc, cstr_cons_zero, List.length_nil]
        omega
      · rw [if_neg hc, cstr_cons hc, List.length_cons, ih, strlen]
        omega

theorem message_drop : (page.bytes.take size).drop 8 = (page.bytes.drop 8).take (size - 8) := by
  rw [List.drop_take]

/-- A path that ends in the message is followed by a zero there. -/
theorem message_string (h : 0 ∈ (page.bytes.take size).drop 8) :
    ∃ more, page.bytes.drop 8 = cstr ((page.bytes.take size).drop 8) ++ 0 :: more ∧
      (cstr ((page.bytes.take size).drop 8)).length < size - 8 := by
  obtain ⟨more, hmore⟩ := exists_cstr_append h
  rw [message_drop] at h hmore ⊢
  generalize hstring : cstr ((page.bytes.drop 8).take (size - 8)) = string at hmore
  have hlength := congrArg List.length hmore
  rw [List.length_take, List.length_append, List.length_cons] at hlength
  refine ⟨more ++ (page.bytes.drop 8).drop (size - 8), ?_, by omega⟩
  rw [← List.cons_append, ← List.append_assoc, ← hmore, List.take_append_drop]

/-- A path that ends in the message is the only part of it that is read behind the offset. -/
theorem path_fits_iff (fits : size ≤ 4096) :
    (pathRead page size = 0 ∨ 8 + pathRead page size ≤ size) ↔
      size = 4 ∨ 0 ∈ (page.bytes.take size).drop 8 := by
  have hrest : (page.bytes.drop 8).length = 4088 := by
    rw [List.length_drop, page.full]
  rw [pathRead, scan_eq]
  by_cases hzero : 0 ∈ (page.bytes.take size).drop 8
  · obtain ⟨more, hdrop, hlength⟩ := message_string hzero
    have hstrlen : strlen (page.bytes.drop 8) = (cstr ((page.bytes.take size).drop 8)).length := by
      rw [strlen, hdrop, cstr_append_zero zero_not_mem_cstr]
    refine iff_of_true (Or.inr ?_) (Or.inr hzero)
    rw [hstrlen]
    omega
  · have hlong : size - 8 ≤ strlen (page.bytes.drop 8) := by
      apply le_strlen_of_not_mem
      · rw [← message_drop]
        exact hzero
      · omega
    rw [or_iff_left hzero]
    rcases Nat.lt_or_ge size 4 with hsmall | hlarge
    · have hwrap : (BitVec.ofNat 64 size - 4).toNat = 2 ^ 64 - 4 + size := by
        rw [BitVec.toNat_sub, BitVec.toNat_ofNat, Nat.mod_eq_of_lt (by omega : size < 2 ^ 64)]
        show (2 ^ 64 - 4 + size) % 2 ^ 64 = _
        rw [Nat.mod_eq_of_lt (by omega)]
      rw [hwrap]
      omega
    · rw [toNat_inputLen hlarge fits]
      omega

end Paths

/-! ## The answer -/

section Answering

variable {mem : List Byte} {files : List Ramfs.InputFile} {file : Ramfs.InputFile} {page : Page}
  {size k : Nat}

/-- The copy that a query of a file makes. -/
def copied (file : Ramfs.InputFile) (page : Page) : DataRead :=
  ⟨file.contents.length, (startByteOfs page).toNat,
    min (BitVec.ofNat 64 file.contents.length - startByteOfs page).toNat 4096⟩

/-- A path that ends in the message leads to the file that is asked for. -/
theorem Valid.query_eq (valid : Valid mem files) (fits : size ≤ 4096)
    (ends : 0 ∈ (page.bytes.take size).drop 8) :
    (asked files (page.bytes.take size) = none ∧ dataRead mem page size = none ∧
        ∃ page', handleFileLoadPageQuery mem page size = some (page', 0)) ∨
      ∃ k file page', files[k]? = some file ∧ asked files (page.bytes.take size) = some file ∧
        dataRead mem page size = some (copied file page) ∧
        handleFileLoadPageQuery mem page size =
          copyPart mem page' (32 + k * 32) (startByteOfs page) := by
  obtain ⟨more, hdrop, hlength⟩ := message_string ends
  have hinputLen := @toNat_inputLen size (by omega) fits
  have hpath : messagePath (page.bytes.take size) =
      some (cstr ((page.bytes.take size).drop 8)) := if_pos ends
  rw [asked, hpath, Option.bind_some, dataRead, handleFileLoadPageQuery, hinputLen]
  rcases @parseFilePath_string page _ more 8 (size - 4) hdrop zero_not_mem_cstr (by omega) with
    ⟨hnone, hparse⟩ | ⟨name, hcolon, hname, hparse, htarget⟩
  · left
    rw [hnone, hparse]
    exact ⟨rfl, rfl, page, rfl⟩
  · rw [hname, hparse, Option.bind_some, ← htarget]
    dsimp only
    generalize 8 + colonPlace (cstr ((page.bytes.take size).drop 8)) = colon at hcolon ⊢
    generalize page.write colon [0] hcolon = page'
    rcases valid.find (targetName page' (colon + 1)) with ⟨hnamed, hfind⟩ | hsome
    · left
      rw [hnamed, hfind]
      exact ⟨rfl, rfl, page', rfl⟩
    · obtain ⟨k, file, hk, hnamed, hfind⟩ := hsome
      have hat := valid.image.fileAt k file hk
      have hlen : (BitVec.ofNat 64 file.contents.length).toNat = file.contents.length := by
        have hinside := hat.inside
        have hloadable := valid.loadable
        exact toNat_ofNat_of_lt (by omega)
      right
      refine ⟨k, file, page', hk, hnamed, ?_, ?_⟩
      · rw [hfind, Option.map_some, hat.fileLength, hlen, copied]
      · rw [hfind]
        rfl

/-- Behind the end of the file the difference of the lengths wraps around. -/
theorem copied_behind (loadable : file.contents.length < 2 ^ 63)
    (behind : file.contents.length < (startByteOfs page).toNat) :
    0 < (copied file page).count := by
  have hstart := (startByteOfs page).isLt
  rw [copied]
  dsimp only
  rw [BitVec.toNat_sub, BitVec.toNat_ofNat,
    Nat.mod_eq_of_lt (by omega : file.contents.length < 2 ^ 64), Nat.mod_eq_of_lt (by omega)]
  omega

/-- The copy of a file replies with its size, if it replies. -/
theorem copyPart_reply (h : Ramfs.FileAt mem k file) {page' : Page} {reply : BitVec 64}
    (done : (copyPart mem page' (32 + k * 32) (startByteOfs page)).map Prod.snd = some reply) :
    reply.toNat = (copied file page).count := by
  rw [copyPart, h.fileLength] at done
  dsimp only at done
  split at done
  · split at done
    · rename_i hzero
      rw [Option.map_some, Option.some.injEq] at done
      rw [← done, copied]
      exact hzero.symm
    · cases done
  · split at done
    · rw [Option.map_some, Option.some.injEq] at done
      rw [← done, copied, BitVec.toNat_ofNat]
      exact Nat.mod_eq_of_lt (Nat.lt_of_le_of_lt (Nat.min_le_right _ _) (by decide))
    · cases done

/-- At the end of the file nothing is copied, also where the file is empty. -/
theorem copyPart_end (h : Ramfs.FileAt mem k file) (loadable : mem.length < 2 ^ 63)
    (behind : (startByteOfs page).toNat = file.contents.length) (page' : Page) :
    (copyPart mem page' (32 + k * 32) (startByteOfs page)).map Prod.snd = some 0 := by
  have hleft := toNat_left loadable h (Nat.le_of_eq behind)
  rw [behind, Nat.sub_self] at hleft
  rw [copyPart, hleft]
  dsimp only
  split
  · rw [if_pos (Nat.zero_min 4096)]
    rfl
  · rw [if_pos (Or.inl (Nat.zero_min 4096))]
    rfl

/-- Inside the file the copy is inside it too. -/
theorem copied_inside (h : Ramfs.FileAt mem k file) (loadable : mem.length < 2 ^ 63)
    (inside : (startByteOfs page).toNat ≤ file.contents.length) : (copied file page).Inside := by
  have hleft := toNat_left loadable h inside
  rw [h.fileLength] at hleft
  rw [DataRead.Inside, copied, hleft]
  dsimp only
  omega

theorem Valid.answers (valid : Valid mem files) (hk : files[k]? = some file)
    (inside : (startByteOfs page).toNat ≤ file.contents.length) (page' : Page)
    (hasked : asked files (page.bytes.take size) = some file) :
    Answers files page size (copyPart mem page' (32 + k * 32) (startByteOfs page)) := by
  have hat := valid.image.fileAt k file hk
  rw [Answers, hasked]
  dsimp only
  by_cases hbefore : (startByteOfs page).toNat < file.contents.length
  · rw [if_pos hbefore, copyPart_eq hat valid.loadable hbefore]
    refine ⟨rfl, ?_⟩
    intro _ hpage
    cases hpage
    exact slice_part hbefore
  · rw [if_neg hbefore]
    exact copyPart_end hat valid.loadable (Nat.le_antisymm inside (Nat.not_lt.mp hbefore)) page'

/-- A message of 4 bytes has no path by the code's count, and none of the message's own bytes. -/
theorem query_four : handleFileLoadPageQuery mem page 4 = some (page, 0) ∧
    dataRead mem page 4 = none ∧ asked files (page.bytes.take 4) = none := by
  have hparse : parseFilePath page 8 (BitVec.ofNat 64 4 - 4).toNat = .refused := by
    rw [toNat_inputLen (Nat.le_refl 4) (by decide), parseFilePath, if_pos (Nat.sub_self 4)]
  have hpath : messagePath (page.bytes.take 4) = none := by
    rw [messagePath, message_drop]
    exact if_neg List.not_mem_nil
  refine ⟨?_, ?_, ?_⟩
  · rw [handleFileLoadPageQuery, hparse]
  · rw [dataRead, hparse]
  · rw [asked, hpath]
    rfl

/-- A query is answered from inside the message and the file just when its path ends in the message
and its offset is not behind the end of the file. -/
theorem query_right_iff (valid : Valid mem files) (fits : size ≤ 4096) :
    Right mem files page size ↔ Fits files page size := by
  constructor
  · intro right
    refine ⟨(path_fits_iff fits).mp right.path, ?_⟩
    intro file hasked
    by_contra hbehind
    rw [Nat.not_le] at hbehind
    have hends : 0 ∈ (page.bytes.take size).drop 8 := by
      by_contra hnone
      rw [asked, messagePath, if_neg hnone] at hasked
      cases hasked
    rcases valid.query_eq fits hends with ⟨hnone, -⟩ | ⟨k, other, page', hk, hsome, -, hquery⟩
    · rw [hnone] at hasked
      cases hasked
    · rw [hasked] at hsome
      cases hsome
      have hat := valid.image.fileAt k file hk
      have hanswers := right.answers
      rw [Answers, hasked, hquery] at hanswers
      dsimp only at hanswers
      rw [if_neg (Nat.not_lt.mpr (Nat.le_of_lt hbehind))] at hanswers
      have hreply := copyPart_reply hat hanswers
      have hlength := hat.inside
      have hloadable := valid.loadable
      have hpos := @copied_behind file page (by omega) hbehind
      rw [← hreply] at hpos
      exact absurd hpos (Nat.lt_irrefl 0)
  · rintro ⟨hpath, hinside⟩
    by_cases hends : 0 ∈ (page.bytes.take size).drop 8
    · rcases valid.query_eq fits hends with ⟨hnone, hdata, page', hquery⟩ |
        ⟨k, file, page', hk, hsome, hdata, hquery⟩
      · refine ⟨?_, ?_, (path_fits_iff fits).mpr hpath⟩
        · rw [Answers, hnone, hquery]
          rfl
        · intro data h
          rw [hdata] at h
          cases h
      · have hstart := hinside file hsome
        refine ⟨?_, ?_, (path_fits_iff fits).mpr hpath⟩
        · rw [hquery]
          exact valid.answers hk hstart page' hsome
        · intro data h
          rw [hdata] at h
          cases h
          exact copied_inside (valid.image.fileAt k file hk) valid.loadable hstart
    · obtain rfl := hpath.resolve_right hends
      obtain ⟨hquery, hdata, hnone⟩ := @query_four mem files page
      refine ⟨?_, ?_, (path_fits_iff fits).mpr hpath⟩
      · rw [Answers, hnone, hquery]
        rfl
      · intro data h
        rw [hdata] at h
        cases h

theorem length_query {start : Nat} {path : List Byte} :
    (toBytes 8 start ++ strncpy 4088 path).length = 4096 := by
  rw [List.length_append, length_toBytes, length_strncpy]

/-- A page with a query. -/
def query (start : Nat) (path : List Byte) : Page :=
  ⟨toBytes 8 start ++ strncpy 4088 path, length_query⟩

/-- A RAMFS with a file of 3 bytes, and the page after it. -/
def shelf : List Byte := Ramfs.writeFilesystem Ramfs.twoFiles ++ List.replicate 4096 0x55

theorem length_shelf : shelf.length = 12288 := by
  rw [shelf, List.length_append, List.length_replicate, Ramfs.length_twoFiles]

theorem shelf_valid : Valid shelf Ramfs.twoFiles := by
  have hnamed : Ramfs.Named Ramfs.twoFiles := ⟨by decide, by decide, by decide, by decide⟩
  have hsize := Ramfs.length_twoFiles
  refine ⟨(Ramfs.image_writeFilesystem hnamed (by decide) (by omega) _).1, hnamed.short, ?_⟩
  rw [length_shelf]
  decide

/-- From behind the end of the first file on, a whole page is copied. -/
theorem copyPart_shelf (page : Page) : (copyPart shelf page 32 4).map Prod.snd = some 4096 := by
  have hlength : Ramfs.number shelf (32 + 8) 8 = 3 := by
    rw [shelf, Ramfs.writeFilesystem_twoFiles]
    decide +kernel
  have hopen : Ramfs.ramfsFileOpen shelf (some 32) = some 4096 := by
    rw [shelf, Ramfs.writeFilesystem_twoFiles]
    decide +kernel
  rw [copyPart, hlength, hopen, length_shelf]
  dsimp only
  rw [if_pos (by decide)]
  rfl

theorem query_right_iff_first : Valid shelf Ramfs.twoFiles ∧
    (Right shelf Ramfs.twoFiles (query 1 (bootPath 1 [0x61])) 16 ↔
      Fits Ramfs.twoFiles (query 1 (bootPath 1 [0x61])) 16) :=
  ⟨shelf_valid, query_right_iff shelf_valid (by decide)⟩

/-- A byte behind the end of the file, 4096 bytes are read and sent. With the zero of the path in
place 14, a message of 14 bytes or 3 is read over its end. -/
theorem query_reads_outside :
    (handleFileLoadPageQuery shelf (query 4 (bootPath 0 [0x61])) 15).map Prod.snd = some 4096 ∧
      ¬ Right shelf Ramfs.twoFiles (query 4 (bootPath 0 [0x61])) 15 ∧
      ¬ Right shelf Ramfs.twoFiles (query 0 (bootPath 0 [0x61])) 14 ∧
      ¬ Right shelf Ramfs.twoFiles (query 0 (bootPath 0 [0x61])) 3 := by
  have hasked : asked Ramfs.twoFiles ((query 4 (bootPath 0 [0x61])).bytes.take 15) =
      some ⟨[0x61], [1, 2, 3]⟩ := rfl
  have hreply : (handleFileLoadPageQuery shelf (query 4 (bootPath 0 [0x61])) 15).map Prod.snd =
      some 4096 := by
    have hstart : startByteOfs (query 4 (bootPath 0 [0x61])) = 4 := by decide
    rcases @Valid.query_eq _ _ (query 4 (bootPath 0 [0x61])) 15 shelf_valid (by decide)
      (by decide) with ⟨hnone, -⟩ | ⟨k, file, page', hk, hfile, -, hquery⟩
    · rw [hasked] at hnone
      cases hnone
    · rw [hasked] at hfile
      cases hfile
      rw [hquery, hstart]
      match k, hk with
      | 0, _ => exact copyPart_shelf page'
      | 1, hk => cases hk
  refine ⟨hreply, ?_, ?_, ?_⟩
  · intro right
    have hanswers := right.answers
    have hbehind : ¬ (startByteOfs (query 4 (bootPath 0 [0x61]))).toNat <
        ([1, 2, 3] : List Byte).length := by decide
    rw [Answers, hasked, hreply] at hanswers
    dsimp only at hanswers
    rw [if_neg hbehind] at hanswers
    exact absurd hanswers (by decide)
  · intro right
    exact absurd right.path (by decide +kernel)
  · intro right
    exact absurd right.path (by decide +kernel)

end Answering

end PageQueries
