import AnosKernel.ElfReader
import AnosKernel.PageQueries

/-!
# The queries of the loader

`initial_server_loader_bounce` of `system/loader.c` asks the RAMFS for the size of a path with the
length of the path. `on_program_header` and `load_page` of `system/elf.c` ask for its pages with
messages of 26 bytes, however long the path is.
-/

namespace LoaderQueries

open Bytes CStrings MessagePage ConfigLoading PageQueries ElfReader

theorem length_request (filename : List Byte) : (strncpy 4096 filename).length = 4096 :=
  length_strncpy

/-- The page with the name, which the VFS leaves as it is. -/
def sizeRequest (filename : List Byte) : Page := ⟨strncpy 4096 filename, length_request filename⟩

theorem name_fits (filename : List Byte) : 8 + (strncpy 1024 filename).length ≤ 4096 := by
  rw [length_strncpy]
  decide

/-- The query of `on_program_header`, in the page that it is to fill. -/
def segmentRequest (page : Page) (filename : List Byte) (offset : BitVec 64) : Page :=
  (page.write 0 (toBytes 8 offset.toNat) (offset_fits offset)).write 8 (strncpy 1024 filename)
    (name_fits filename)

def loadSize : Nat := 26

/-- The header that the server finds for the input. -/
def lookup (mem : List Byte) (page : Page) (input inputLen : Nat) : Option Nat :=
  match parseFilePath page input inputLen with
  | .fault => none
  | .refused => none
  | .path page path => Ramfs.ramfsFindFile mem (targetName page path)

/-- The query of the size finds this header, and the size is not 0. -/
structure Resolves (mem filename : List Byte) (target : Nat) : Prop where
  found : lookup mem (sizeRequest filename) 0 (strlen filename + 1) = some target
  nonzero : ∃ page reply, handleFileSizeQuery mem (sizeRequest filename) (strlen filename + 1) =
    some (page, reply) ∧ reply ≠ 0

/-- A query of a page finds this header, and some bytes. -/
structure Loads (mem : List Byte) (page : Page) (target : Nat) : Prop where
  found : lookup mem page 8 (BitVec.ofNat 64 loadSize - 4).toNat = some target
  nonzero : ∃ page' reply, handleFileLoadPageQuery mem page loadSize = some (page', reply) ∧
    reply ≠ 0

/-- What is found by its size is found by each query of a page inside it, whatever was in the
page. -/
def Agree (mem filename : List Byte) : Prop :=
  ∀ target, Resolves mem filename target → ∀ (page : Page) (offset : BitVec 64),
    offset.toNat < Ramfs.number mem (target + 8) 8 →
      (∀ fits, Loads mem (request page filename offset fits) target) ∧
        Loads mem (segmentRequest page filename offset) target

/-- The file that a path names. -/
def pathFile (files : List Ramfs.InputFile) (path : List Byte) : Option Ramfs.InputFile :=
  (pathName path).bind (fileNamed files)

section Queries

variable {mem filename more : List Byte} {files : List Ramfs.InputFile} {file : Ramfs.InputFile}
  {page : Page} {offset : BitVec 64} {input inputLen : Nat}

/-- The header that a path leads to. -/
def pathTarget (mem path : List Byte) : Option Nat :=
  (pathName path).bind (Ramfs.ramfsFindFile mem)

/-- A path that the server sees whole. -/
theorem lookup_eq (h : page.bytes.drop input = filename ++ 0 :: more) (string : 0 ∉ filename)
    (long : filename.length < inputLen) :
    lookup mem page input inputLen = pathTarget mem filename := by
  rw [lookup, pathTarget]
  rcases parseFilePath_string h string long with ⟨hnone, hparse⟩ | hpath
  · rw [hnone, hparse]
    rfl
  · obtain ⟨name, hfits, hname, hparse, htarget⟩ := hpath
    rw [hname, hparse, Option.bind_some, ← htarget, ← Ramfs.find_cstr]

theorem zero_not_mem_pathName {name : List Byte} (string : 0 ∉ filename)
    (h : pathName filename = some name) : 0 ∉ name := by
  intro hzero
  apply string
  have hsuffix := @List.dropWhile_suffix _ filename (fun c => decide (c ≠ VfsMounts.colon))
  rw [pathName] at h
  split at h
  · cases h
  · rename_i c rest hdrop
    rw [hdrop] at hsuffix
    split_ifs at h
    cases h
    exact hsuffix.subset (List.mem_cons_of_mem c ((List.dropWhile_suffix _).subset hzero))

/-- It is the header of the file that the path names. -/
theorem pathTarget_eq (valid : Valid mem files) (string : 0 ∉ filename) :
    (pathFile files filename = none ∧ pathTarget mem filename = none) ∨
      ∃ k file, files[k]? = some file ∧ pathFile files filename = some file ∧
        pathTarget mem filename = some (32 + k * 32) := by
  rw [pathFile, pathTarget]
  cases hname : pathName filename with
  | none => exact Or.inl ⟨rfl, rfl⟩
  | some name =>
    have hfind := valid.find name
    rwa [cstr_of_not_mem (zero_not_mem_pathName string hname)] at hfind

/-- A path that the server does not see the end of. -/
theorem lookup_cut (string : 0 ∉ (page.bytes.drop input).take inputLen) :
    lookup mem page input inputLen = none := by
  rw [lookup, parseFilePath]
  by_cases hnone : inputLen = 0
  · rw [if_pos hnone]
  · rw [if_neg hnone, if_pos string]
    by_cases hinside : input + inputLen ≤ 4096
    · rw [if_pos hinside]
    · rw [if_neg hinside]

theorem inputLen_eq : (BitVec.ofNat 64 loadSize - 4).toNat = 22 := by decide

/-- The reply to a query of a page: the bytes of the file, over what was in the page. -/
theorem handleFileLoadPageQuery_eq (valid : Valid mem files)
    (h : page.bytes.drop 8 = filename ++ 0 :: more) (string : 0 ∉ filename)
    (short : filename.length ≤ 21) (named : pathFile files filename = some file)
    (start : page.number 0 8 = offset.toNat) (inside : offset.toNat < file.contents.length) :
    ∃ fits : 8 + colonPlace filename + 1 ≤ 4096, handleFileLoadPageQuery mem page loadSize =
      some ((page.write (8 + colonPlace filename) [0] fits).write 0
          (slice offset.toNat (min (file.contents.length - offset.toNat) 4096) file.contents)
          (part_fits file offset.toNat),
        BitVec.ofNat 64 (min (file.contents.length - offset.toNat) 4096)) := by
  have hstart : BitVec.ofNat 64 (page.number 0 8) = offset := by
    rw [start, BitVec.ofNat_toNat, BitVec.setWidth_eq]
  have hlookup := @lookup_eq mem filename more page 8 22 h string (by omega)
  rcases pathTarget_eq valid string with ⟨hnone, -⟩ | ⟨k, other, hk, hsome, htarget⟩
  · rw [named] at hnone
    cases hnone
  · rw [named] at hsome
    cases hsome
    rw [htarget, lookup] at hlookup
    rcases @parseFilePath_string page filename more 8 22 h string (by omega) with
      ⟨-, hparse⟩ | ⟨name, hfits, -, hparse, -⟩
    · rw [hparse] at hlookup
      cases hlookup
    · rw [hparse] at hlookup
      refine ⟨hfits, ?_⟩
      rw [handleFileLoadPageQuery, inputLen_eq, hparse, hstart]
      dsimp only at hlookup ⊢
      rw [hlookup]
      exact copyPart_eq (valid.image.fileAt k file hk) valid.loadable inside

theorem segmentRequest_number :
    (segmentRequest page filename offset).number 0 8 = offset.toNat := by
  rw [segmentRequest, Page.number_write_before _ (by decide), Page.number_write _ offset.isLt]

theorem segmentRequest_drop : (segmentRequest page filename offset).bytes.drop 8 =
    strncpy 1024 filename ++
      (page.write 0 (toBytes 8 offset.toNat) (offset_fits offset)).bytes.drop 1032 := by
  rw [segmentRequest, Page.drop_write, length_strncpy]

/-- A short name is followed by a zero there. -/
theorem segmentRequest_path (string : 0 ∉ filename) (short : filename.length ≤ 21) :
    ∃ more, (segmentRequest page filename offset).bytes.drop 8 = filename ++ 0 :: more := by
  obtain ⟨n, hn⟩ := Nat.exists_eq_succ_of_ne_zero
    (Nat.sub_ne_zero_of_lt (by omega : filename.length < 1024))
  rw [segmentRequest_drop, strncpy_eq string (by omega), hn, List.replicate_succ, List.append_assoc]
  exact ⟨_, rfl⟩

/-- Of a longer one the server sees no end. -/
theorem segmentRequest_cut (string : 0 ∉ filename) (long : 21 < filename.length) :
    0 ∉ ((segmentRequest page filename offset).bytes.drop 8).take 22 := by
  rw [segmentRequest_drop, List.take_append_of_le_length (by rw [length_strncpy]; decide),
    take_strncpy string (by decide) long]
  exact fun h => string (List.take_subset 22 filename h)

/-- A query with a short path finds what the path leads to. -/
theorem loads_of_short {target : Nat} (valid : Valid mem files)
    (h : page.bytes.drop 8 = filename ++ 0 :: more) (string : 0 ∉ filename)
    (short : filename.length ≤ 21) (named : pathFile files filename = some file)
    (found : pathTarget mem filename = some target) (start : page.number 0 8 = offset.toNat)
    (inside : offset.toNat < file.contents.length) : Loads mem page target := by
  obtain ⟨hfits, hquery⟩ := handleFileLoadPageQuery_eq valid h string short named start inside
  refine ⟨?_, _, _, hquery, ?_⟩
  · rw [inputLen_eq, lookup_eq h string (by omega), found]
  · rw [ne_eq, ofNat_eq_zero (by omega)]
    omega

/-- For a short path the RAMFS is a file system as the reader of ELF files needs it. -/
theorem ramfs_serves (valid : Valid mem files) (string : 0 ∉ filename)
    (short : filename.length ≤ 21) (named : pathFile files filename = some file) :
    Serves (fun _ page => handleFileLoadPageQuery mem page loadSize) filename file.contents
      fun _ => false := by
  constructor
  · intro n page hfail
    cases hfail
  · intro n page more _ hdrop hinside
    have hsmall : page.number 0 8 < 2 ^ 64 := by
      have hlt := ofBytes_lt (slice 0 8 page.bytes)
      rw [length_slice (by rw [page.full]; decide)] at hlt
      exact hlt
    have hstart : page.number 0 8 = (BitVec.ofNat 64 (page.number 0 8)).toNat := by
      exact (toNat_ofNat_of_lt hsmall).symm
    obtain ⟨hfits, hquery⟩ := handleFileLoadPageQuery_eq valid hdrop string short named hstart
      (by rw [← hstart]; exact hinside)
    simp only [← hstart] at hquery
    exact ⟨_, hquery, slice_part hinside⟩

/-- What the query of the size makes of a path. -/
theorem handleFileSizeQuery_eq (string : 0 ∉ filename) (fits : filename.length < 4096) :
    lookup mem (sizeRequest filename) 0 (strlen filename + 1) = pathTarget mem filename ∧
      ∃ page', handleFileSizeQuery mem (sizeRequest filename) (strlen filename + 1) =
        some (page', match pathTarget mem filename with
          | none => 0
          | some target => BitVec.ofNat 64 (Ramfs.number mem (target + 8) 8)) := by
  obtain ⟨more, hbytes⟩ := first_page string (by omega : filename.length + 1 ≤ 4096)
  have hdrop : (sizeRequest filename).bytes.drop 0 = filename ++ 0 :: more := hbytes
  have hlong : filename.length < strlen filename + 1 := by
    rw [strlen, cstr_of_not_mem string]
    exact Nat.lt_succ_self _
  have hlookup := @lookup_eq mem _ _ _ _ _ hdrop string hlong
  refine ⟨hlookup, ?_⟩
  rw [lookup] at hlookup
  rw [handleFileSizeQuery, ← hlookup]
  rcases parseFilePath_string hdrop string hlong with ⟨-, hparse⟩ | ⟨name, hfits, -, hparse, -⟩
  · rw [hparse]
    exact ⟨_, rfl⟩
  · rw [hparse]
    dsimp only
    cases Ramfs.ramfsFindFile mem (targetName _ (0 + colonPlace filename + 1)) with
    | none => exact ⟨_, rfl⟩
    | some target => exact ⟨_, rfl⟩

/-- It resolves the path where the path leads to bytes. -/
theorem resolves_iff (string : 0 ∉ filename) (fits : filename.length < 4096) {target : Nat} :
    Resolves mem filename target ↔
      pathTarget mem filename = some target ∧
        BitVec.ofNat 64 (Ramfs.number mem (target + 8) 8) ≠ 0 := by
  obtain ⟨hlookup, page', hquery⟩ := @handleFileSizeQuery_eq mem filename string fits
  constructor
  · rintro ⟨hfound, _, _, hreply, hnonzero⟩
    rw [hlookup] at hfound
    rw [hquery, hfound] at hreply
    cases hreply
    exact ⟨hfound, hnonzero⟩
  · rintro ⟨hfound, hnonzero⟩
    rw [hfound] at hlookup hquery
    exact ⟨hlookup, _, _, hquery, hnonzero⟩

/-- The pages of a path are found as its size is just if the path is no longer than 21 characters,
where it names a file with a size at all. -/
theorem queries_agree_iff (valid : Valid mem files) (string : 0 ∉ filename)
    (fits : filename.length < 4096) :
    Agree mem filename ↔ filename.length ≤ 21 ∨
      ∀ file, pathFile files filename = some file → file.contents = [] := by
  have hsize : ∀ {k file}, files[k]? = some file →
      Ramfs.number mem (32 + k * 32 + 8) 8 = file.contents.length ∧
        file.contents.length < 2 ^ 63 := by
    intro k file hk
    have hat := valid.image.fileAt k file hk
    have hinside := hat.inside
    have hloadable := valid.loadable
    exact ⟨hat.fileLength, by omega⟩
  constructor
  · intro agree
    by_contra hnot
    rw [not_or, Nat.not_le] at hnot
    obtain ⟨hlong, hfiles⟩ := hnot
    apply hfiles
    intro file hnamed
    by_contra hnonempty
    rcases pathTarget_eq valid string with ⟨hnone, -⟩ | ⟨k, other, hk, hsome, htarget⟩
    · rw [hnamed] at hnone
      cases hnone
    · rw [hnamed] at hsome
      cases hsome
      obtain ⟨hnumber, hlength⟩ := hsize hk
      have hpos := List.length_pos_iff.mpr hnonempty
      have hresolves : Resolves mem filename (32 + k * 32) := by
        refine (resolves_iff string fits).mpr ⟨htarget, ?_⟩
        rw [hnumber, ne_eq, ofNat_eq_zero (by omega)]
        omega
      have hloads := (agree _ hresolves zeroPage 0 (by rw [hnumber]; exact hpos)).2.found
      rw [inputLen_eq, lookup_cut (segmentRequest_cut string hlong)] at hloads
      cases hloads
  · intro hor target hresolves page offset hinside
    obtain ⟨hfound, hnonzero⟩ := (resolves_iff string fits).mp hresolves
    rcases pathTarget_eq valid string with ⟨-, hnone⟩ | ⟨k, file, hk, hnamed, htarget⟩
    · rw [hnone] at hfound
      cases hfound
    · rw [hfound] at htarget
      cases htarget
      obtain ⟨hnumber, hlength⟩ := hsize hk
      rw [hnumber] at hinside hnonzero
      have hshort : filename.length ≤ 21 := by
        refine hor.resolve_right fun hempty => ?_
        rw [hempty file hnamed] at hinside
        exact Nat.not_lt_zero _ hinside
      constructor
      · intro hfits
        obtain ⟨hfits', hnumber', more, hdrop⟩ := request_spec (by omega) string page offset
        exact loads_of_short valid hdrop string hshort hnamed hfound hnumber' hinside
      · obtain ⟨more, hdrop⟩ := @segmentRequest_path _ page offset string hshort
        exact loads_of_short valid hdrop string hshort hnamed hfound segmentRequest_number hinside

theorem queries_agree_iff_shelf :
    Agree shelf (bootPath 1 [0x61]) ↔ (bootPath 1 [0x61]).length ≤ 21 ∨
      ∀ file, pathFile Ramfs.twoFiles (bootPath 1 [0x61]) = some file → file.contents = [] :=
  queries_agree_iff shelf_valid (by decide) (by decide)

/-- `boot:`, 16 slashes and `a`: the size of the file is found, and none of its pages. -/
theorem long_path_loads_nothing :
    Resolves shelf (bootPath 16 [0x61]) 32 ∧
      ¬ Loads shelf (segmentRequest zeroPage (bootPath 16 [0x61]) 0) 32 ∧
      ¬ Agree shelf (bootPath 16 [0x61]) := by
  have hstring : 0 ∉ bootPath 16 [0x61] := zero_not_mem_bootPath (by decide)
  have hnamed : Ramfs.Named Ramfs.twoFiles := ⟨by decide, by decide, by decide, by decide⟩
  have hname : pathName (bootPath 16 [0x61]) = some [0x61] :=
    pathName_bootPath (by decide) (by decide)
  have htarget : pathTarget shelf (bootPath 16 [0x61]) = some 32 := by
    rw [pathTarget, hname]
    exact shelf_valid.image.find hnamed (rfl : Ramfs.twoFiles[0]? = some ⟨[0x61], [1, 2, 3]⟩)
  have hsize : Ramfs.number shelf (32 + 8) 8 = 3 := (shelf_valid.image.fileAt 0 _ rfl).fileLength
  have hresolves : Resolves shelf (bootPath 16 [0x61]) 32 := by
    refine (resolves_iff hstring (by decide)).mpr ⟨htarget, ?_⟩
    rw [hsize]
    decide
  have hcut : ¬ Loads shelf (segmentRequest zeroPage (bootPath 16 [0x61]) 0) 32 := by
    intro hloads
    have hfound := hloads.found
    rw [inputLen_eq, lookup_cut (segmentRequest_cut hstring (by decide))] at hfound
    cases hfound
  refine ⟨hresolves, hcut, fun agree => hcut ?_⟩
  exact (agree 32 hresolves zeroPage 0 (by rw [hsize]; decide)).2

end Queries

end LoaderQueries
