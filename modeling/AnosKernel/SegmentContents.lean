import AnosKernel.SegmentLoading

/-!
# What is in a segment

Whether a segment that `on_program_header` has loaded is what its header says. A reply goes over the
query for it, so that the page after the reply has bytes of the file from behind the file part, or
what is left of the query.
-/

namespace SegmentContents

open Bytes CStrings MessagePage ConfigLoading PageQueries ElfReader LoaderQueries SegmentLoading
open MapSyscalls (handleMapVirtual isUserAddress)

/-- The bytes of the file, and zeros behind them. -/
structure Loaded (file : List Byte) (phdr : Elf64ProgramHeader) (memory : UserMemory) : Prop where
  filePart : ∀ k < phdr.pFilesz.toNat,
    byteAt memory (addr phdr.pVaddr k) = file[phdr.pOffset.toNat + k]?
  zeroPart : ∀ k, phdr.pFilesz.toNat ≤ k → k < phdr.pMemsz.toNat →
    byteAt memory (addr phdr.pVaddr k) = some 0

/-- Whenever the handler is content, the segment is loaded, and no query has failed. -/
def Right (kernel : Kernel) (mem filename file : List Byte) (phdr : Elf64ProgramHeader)
    (memory : UserMemory) : Prop :=
  ∀ fuel s, onProgramHeader kernel mem filename phdr fuel memory = some (s, true) →
    Loaded file phdr s.memory ∧ ∀ reply ∈ s.replies, reply ≠ 0

/-! ## When it is right -/

/-- What is left of a query for the page at an offset of the file: the offset, and the name without
its colon. -/
def stale (filename : List Byte) (offset : Nat) : List Byte :=
  toBytes 8 offset ++ patch filename (colonPlace filename) [0]

/-- The byte at `k` behind the file part, in its last page. -/
def tailByte (filename file : List Byte) (offset k : Nat) : Byte :=
  if offset + k < file.length then file.getD (offset + k) 0
  else (stale filename (offset + k / 4096 * 4096)).getD (k % 4096) 0

/-- The rest of the last page of the file part has only zeros. Of a file part that is too long for
an `int`, what is left out has. -/
def Zeros (filename file : List Byte) (phdr : Elf64ProgramHeader) : Prop :=
  if phdr.pFilesz.toNat ≤ 2 ^ 31 then
    ∀ k, phdr.pFilesz.toNat ≤ k → k < phdr.pMemsz.toNat →
      k / 4096 = (phdr.pFilesz.toNat - 1) / 4096 → tailByte filename file phdr.pOffset.toNat k = 0
  else
    ∀ k, 2 ^ 31 ≤ k → k < phdr.pFilesz.toNat → file.getD (phdr.pOffset.toNat + k) 0 = 0

/-- A page of the file part is missing that was to be mapped before. -/
def Missing (phdr : Elf64ProgramHeader) (memory : UserMemory) : Prop :=
  ∃ j < 2 ^ 19, 4096 * j < phdr.pFilesz.toNat ∧
    pageAt memory (addr phdr.pVaddr (4096 * j)) = none

/-- The segment is not mapped, has no file part, or its name is too long for the queries; or else
what is behind the file part is zero. -/
def Fine (kernel : Kernel) (filename file : List Byte) (phdr : Elf64ProgramHeader)
    (memory : UserMemory) : Prop :=
  ¬ Maps kernel phdr ∨ phdr.pFilesz = 0 ∨ 21 < filename.length ∨
    (Wraps phdr ∧ Missing phdr memory) ∨ (¬ Wraps phdr ∧ Zeros filename file phdr)

/-! ## What is in a page of the file part -/

section Pages

variable {filename : List Byte} {file : Ramfs.InputFile} {files : List Ramfs.InputFile}
  {offset : BitVec 64} {t : Nat}

theorem colonPlace_lt (h : pathFile files filename = some file) :
    colonPlace filename < filename.length := by
  cases hname : pathName filename with
  | none =>
    rw [pathFile, hname] at h
    cases h
  | some name =>
    have hsplit := congrArg List.length
      (@List.takeWhile_append_dropWhile _ (fun c => decide (c ≠ VfsMounts.colon)) filename)
    rw [List.length_append] at hsplit
    rw [pathName] at hname
    split at hname
    · cases hname
    · rename_i c rest hdrop
      rw [hdrop, List.length_cons] at hsplit
      rw [colonPlace]
      omega

/-- The query in a page of zeros. -/
theorem segmentRequest_zeroPage (string : 0 ∉ filename) (short : filename.length ≤ 21) :
    (segmentRequest zeroPage filename offset).bytes =
      toBytes 8 offset.toNat ++ (filename ++ List.replicate (4088 - filename.length) 0) := by
  have hname := @strncpy_eq _ _ _ 1024 filename string (by omega)
  have hfirst : (zeroPage.write 0 (toBytes 8 offset.toNat) (offset_fits offset)).bytes =
      toBytes 8 offset.toNat ++ List.replicate 4088 0 := by
    rw [Page.bytes_write, patch, length_toBytes]
    rfl
  rw [segmentRequest, Page.bytes_write, hfirst]
  have hright := @patch_append_right _ (List.replicate 4088 0) (strncpy 1024 filename) 0
    (toBytes 8 offset.toNat)
  rw [length_toBytes] at hright
  rw [hright, patch, length_strncpy, List.take_zero, List.nil_append, List.drop_replicate, hname,
    List.append_assoc, List.replicate_append_replicate]
  congr 3
  omega

/-- What the server makes of it before the copy. -/
theorem stale_zeroPage (string : 0 ∉ filename) (short : filename.length ≤ 21)
    (named : pathFile files filename = some file) :
    ((segmentRequest zeroPage filename offset).write (8 + colonPlace filename) [0]
      (colon_fits short)).bytes =
        stale filename offset.toNat ++ List.replicate (4088 - filename.length) 0 := by
  have hcolon := colonPlace_lt named
  have hright := @patch_append_right _ (filename ++ List.replicate (4088 - filename.length) 0) [0]
    (colonPlace filename) (toBytes 8 offset.toNat)
  rw [length_toBytes] at hright
  rw [Page.bytes_write, segmentRequest_zeroPage string short, hright,
    patch_append_left (by rw [List.length_singleton]; omega), stale, List.append_assoc]

/-- A byte of the page after the reply. -/
theorem filled_getD (string : 0 ∉ filename) (short : filename.length ≤ 21)
    (named : pathFile files filename = some file) (inside : offset.toNat < file.contents.length)
    (ht : t < 4096) :
    (filled filename file short offset zeroPage).bytes.getD t 0 =
      if offset.toNat + t < file.contents.length then file.contents.getD (offset.toNat + t) 0
      else (stale filename offset.toNat).getD t 0 := by
  have hlength : (slice offset.toNat (min (file.contents.length - offset.toNat) 4096)
      file.contents).length = min (file.contents.length - offset.toNat) 4096 :=
    length_slice (by omega)
  rw [filled, Page.bytes_write, List.getD_eq_getElem?_getD]
  by_cases hfile : offset.toNat + t < file.contents.length
  · have hin := @getElem?_patch_inside _ ((segmentRequest zeroPage filename offset).write
      (8 + colonPlace filename) [0] (colon_fits short)).bytes (slice offset.toNat
        (min (file.contents.length - offset.toNat) 4096) file.contents) 0 t (Nat.zero_le _)
        (by omega)
    rw [Nat.zero_add] at hin
    rw [if_pos hfile, hin, slice, List.getElem?_take_of_lt (by omega), List.getElem?_drop,
      List.getD_eq_getElem?_getD]
  · have hzeros : ∀ k : Nat, (stale filename offset.toNat ++ List.replicate k 0).getD t 0 =
        (stale filename offset.toNat).getD t 0 := by
      intro k
      rw [List.getD_eq_getElem?_getD, List.getD_eq_getElem?_getD]
      rcases Nat.lt_or_ge t (stale filename offset.toNat).length with hlt | hge
      · rw [List.getElem?_append_left hlt]
      · rw [List.getElem?_append_right hge, List.getElem?_eq_none hge, List.getElem?_replicate]
        split_ifs <;> rfl
    rw [if_neg hfile, getElem?_patch_outside _ (Or.inr (by omega)),
      stale_zeroPage string short named, ← List.getD_eq_getElem?_getD, hzeros]
    rw [hlength, Page.full]
    omega

end Pages

/-! ## Clearing -/

section Clearing

variable {memory memory' : UserMemory} {a b : BitVec 64} {pages n : Nat}

theorem zeros_zeroPage : some (zeroPage.write 0 (List.replicate (min n 4096) 0) (clear_fits n)) =
    some zeroPage := by
  have hbytes : (zeroPage.write 0 (List.replicate (min n 4096) 0) (clear_fits n)).bytes =
      zeroPage.bytes := by
    rw [Page.bytes_write, patch, List.length_replicate]
    show List.take 0 (List.replicate 4096 0) ++ List.replicate (min n 4096) 0 ++
      List.drop (0 + min n 4096) (List.replicate 4096 0) = List.replicate 4096 (0 : Byte)
    rw [List.take_zero, List.nil_append, List.drop_replicate, List.replicate_append_replicate]
    congr 1
    omega
  cases hpage : zeroPage.write 0 (List.replicate (min n 4096) 0) (clear_fits n) with
  | mk bytes full =>
    rw [hpage] at hbytes
    cases hbytes
    rfl

theorem byte_zeroPage : zeroPage.bytes.getD n 0 = 0 := by
  rw [zeroPage, List.getD_eq_getElem?_getD, List.getElem?_replicate]
  split_ifs <;> rfl

/-- Pages of zeros stay what they are. -/
theorem clear_zeroPage (h : clear pages memory a n = some memory')
    (zero : pageAt memory b = some zeroPage) : pageAt memory' b = some zeroPage := by
  induction pages generalizing memory a n with
  | zero =>
    cases h
    exact zero
  | succ pages ih =>
    rw [clear] at h
    split at h
    · cases h
    · rename_i page hpage
      apply ih h
      rw [pageAt_update]
      by_cases hb : b = a
      · rw [hb, hpage] at zero
        cases zero
        rw [if_pos hb, if_pos (user_of_pageAt hpage), zeros_zeroPage]
      · rw [if_neg hb]
        exact zero

/-- Where the kernel begins it is a fault. -/
theorem clear_user (h : clear pages memory a n = some memory') :
    ∀ m < pages, isUserAddress (addr a (4096 * m)) = true := by
  induction pages generalizing memory a n with
  | zero => exact fun m hm => absurd hm (Nat.not_lt_zero m)
  | succ pages ih =>
    rw [clear] at h
    split at h
    · cases h
    · rename_i page hpage
      intro m hm
      cases m with
      | zero =>
        rw [Nat.mul_zero, addr_zero]
        exact user_of_pageAt hpage
      | succ m =>
        have hnext : addr a (4096 * (m + 1)) = addr (a + 4096) (4096 * m) := by
          have hsum := @addr_add a 4096 (4096 * m)
          rw [Nat.mul_succ, Nat.add_comm, ← hsum]
          rfl
        rw [hnext]
        exact ih h m (Nat.lt_of_succ_lt_succ hm)

end Clearing

/-! ## The whole segment -/

section Segments

variable {kernel : Kernel} {mem filename : List Byte} {files : List Ramfs.InputFile}
  {file : Ramfs.InputFile} {phdr : Elf64ProgramHeader} {memory memory' : UserMemory} {fuel k : Nat}
  {s s' : Segment}

/-- What has to have happened where the handler is content. -/
theorem onProgramHeader_true (header : Header file.contents phdr)
    (h : onProgramHeader kernel mem filename phdr fuel memory = some (s, true)) :
    Maps kernel phdr ∧ ∃ memory', Mapped phdr memory memory' ∧
      ((phdr.pFilesz ≠ 0 ∧ loadSegment mem filename phdr fuel 0 ⟨memory', []⟩ = some (s, true)) ∨
        (phdr.pFilesz = 0 ∧ s.replies = [] ∧ clear ((phdr.pMemsz.toNat + 4095) / 4096) memory'
          phdr.pVaddr phdr.pMemsz.toNat = some s.memory)) := by
  have hoffset : phdr.pOffset &&& 0xfff = 0 :=
    (@Masks.and_low_eq_zero_iff 64 _ 0xfff 12 rfl).mpr header.offset
  have hvaddr : phdr.pVaddr &&& 0xfff = 0 :=
    (@Masks.and_low_eq_zero_iff 64 _ 0xfff 12 rfl).mpr header.vaddr
  rw [onProgramHeader, if_neg (not_not_intro hoffset), if_neg (not_not_intro hvaddr)] at h
  split at h
  · cases h
  · rename_i result r hmap
    by_cases hok : result.type = .ok
    · rw [if_neg (not_not_intro hok)] at h
      by_cases hnull : result.value = 0
      · rw [if_pos hnull] at h
        cases h
      · rw [if_neg hnull] at h
        obtain ⟨hmaps, hvalue, hmapped⟩ := map_ok header hmap hok hnull
        refine ⟨hmaps, r.state, hmapped, ?_⟩
        by_cases hfilesz : phdr.pFilesz = 0
        · right
          rw [if_neg (by rw [hfilesz]; exact BitVec.lt_irrefl 0), hvalue] at h
          obtain ⟨cleared, hclear, heq⟩ := Option.map_eq_some_iff.mp h
          cases heq
          exact ⟨hfilesz, rfl, hclear⟩
        · left
          have hpos : phdr.pFilesz > 0 := by
            rw [gt_iff_lt, BitVec.lt_def]
            exact Nat.pos_of_ne_zero fun hzero => hfilesz (BitVec.eq_of_toNat_eq hzero)
          rw [if_pos hpos] at h
          exact ⟨hfilesz, h⟩
    · rw [if_pos hok] at h
      cases h

/-- Where the segment is mapped, its file part is loaded next. -/
theorem onProgramHeader_mapped {r : MapSyscalls.Run UserMemory} (header : Header file.contents phdr)
    (nonnull : phdr.pVaddr ≠ 0) (filesz : phdr.pFilesz ≠ 0)
    (map : handleMapVirtual (userSpace kernel.granted) kernel.kernelZeroPage fuel memory
      phdr.pMemsz phdr.pVaddr 7 = some (⟨.ok, phdr.pVaddr⟩, r)) :
    onProgramHeader kernel mem filename phdr fuel memory =
      loadSegment mem filename phdr fuel 0 ⟨r.state, []⟩ := by
  have hoffset : phdr.pOffset &&& 0xfff = 0 :=
    (@Masks.and_low_eq_zero_iff 64 _ 0xfff 12 rfl).mpr header.offset
  have hvaddr : phdr.pVaddr &&& 0xfff = 0 :=
    (@Masks.and_low_eq_zero_iff 64 _ 0xfff 12 rfl).mpr header.vaddr
  have hpos : phdr.pFilesz > 0 := by
    rw [gt_iff_lt, BitVec.lt_def]
    exact Nat.pos_of_ne_zero fun hzero => filesz (BitVec.eq_of_toNat_eq hzero)
  rw [onProgramHeader, if_neg (not_not_intro hoffset), if_neg (not_not_intro hvaddr), map]
  dsimp only
  rw [if_neg (not_not_intro rfl), if_neg nonnull, if_pos hpos]

theorem onProgramHeader_runs (header : Header file.contents phdr) (maps : Maps kernel phdr)
    (filesz : phdr.pFilesz ≠ 0) (enough : 2 ^ 35 ≤ fuel) :
    ∃ memory', Mapped phdr memory memory' ∧
      onProgramHeader kernel mem filename phdr (fuel + 1) memory =
        loadSegment mem filename phdr (fuel + 1) 0 ⟨memory', []⟩ := by
  obtain ⟨r, hmap⟩ := @map_runs kernel _ phdr memory fuel header maps enough
  obtain ⟨-, -, hmapped⟩ := map_ok header hmap rfl maps.nonnull
  exact ⟨r.state, hmapped, onProgramHeader_mapped header maps.nonnull filesz hmap⟩

/-- No memory is right for a segment that wraps around: there is the kernel in it. -/
theorem not_loaded_of_wraps (header : Header file.contents phdr) (maps : Maps kernel phdr)
    (wraps : Wraps phdr) : ¬ Loaded file.contents phdr memory := by
  intro loaded
  have hstart := MapSyscalls.isUserAddress_iff.mp maps.start
  have hinside := header.inside
  have hvaddr := header.vaddr
  rw [Wraps] at wraps
  obtain ⟨k, hk⟩ : ∃ k, k = 2 ^ 47 - phdr.pVaddr.toNat := ⟨_, rfl⟩
  have hnat := @toNat_addr phdr.pVaddr k (by omega)
  have hnone : byteAt memory (addr phdr.pVaddr k) = none := by
    have haligned := @toNat_aligned (addr phdr.pVaddr k)
    rw [byteAt, pageAt, if_neg, Option.map_none]
    rw [MapSyscalls.isUserAddress_iff]
    omega
  rcases Nat.lt_or_ge k phdr.pFilesz.toNat with hfile | hzero
  · have hbyte := loaded.filePart k hfile
    rw [hnone, List.getElem?_eq_getElem (by omega)] at hbyte
    cases hbyte
  · have hbyte := loaded.zeroPart k hzero (by omega)
    rw [hnone] at hbyte
    cases hbyte

/-- Every byte of a segment that was loaded. -/
theorem byteAt_loaded (asks : Asks mem files filename file phdr) (maps : Maps kernel phdr)
    (flat : ¬ Wraps phdr) (short : filename.length ≤ 21) (mapped : Mapped phdr memory memory')
    (filled : Filled filename file short phdr 0 ⟨memory', []⟩ s) (hk : k < phdr.pMemsz.toNat) :
    byteAt s.memory (addr phdr.pVaddr k) =
      some (if k / 4096 < rounds phdr then
        tailByte filename file.contents phdr.pOffset.toNat k else 0) := by
  have hlimit : rounds phdr ≤ 2 ^ 19 := Nat.min_le_right _ _
  have hlength := asks.length_lt
  have hinside := asks.header.inside
  have hend := (toNat_stop asks.header maps.start maps.stop).1 flat
  have hstop := MapSyscalls.isUserAddress_iff.mp maps.stop
  obtain ⟨hpage, hofs⟩ := @toNat_addr_page phdr.pVaddr k asks.header.vaddr (by omega)
  have hzero := mapped.pages flat (k / 4096) (by omega)
  rw [byteAt, hpage, hofs]
  by_cases hround : k / 4096 < rounds phdr
  · obtain ⟨page, hpresent, hfilled⟩ := filled.pages (k / 4096) (Nat.zero_le _) hround
    rw [hzero] at hpresent
    cases hpresent
    have hnat : (BitVec.ofNat 64 (phdr.pOffset.toNat + 4096 * (k / 4096))).toNat =
        phdr.pOffset.toNat + 4096 * (k / 4096) := by
      rw [rounds] at hround
      exact toNat_ofNat_of_lt (by omega)
    have hbefore : phdr.pOffset.toNat + 4096 * (k / 4096) < file.contents.length := by
      rw [rounds] at hround
      omega
    have hsum : phdr.pOffset.toNat + 4096 * (k / 4096) + k % 4096 = phdr.pOffset.toNat + k := by
      omega
    have hbyte := @filled_getD filename file files _ (k % 4096) asks.string short asks.named
      (by rw [hnat]; exact hbefore) (Nat.mod_lt _ (by decide))
    rw [hnat, hsum] at hbyte
    rw [hfilled, Option.map_some, hbyte, if_pos hround, tailByte, Nat.mul_comm (k / 4096)]
  · have hother : pageAt s.memory (addr phdr.pVaddr (4096 * (k / 4096))) = some zeroPage := by
      rw [← hzero]
      apply filled.others
      intro n _ hn heq
      have hsame := addr_inj (by omega) (by omega) heq
      omega
    rw [hother, Option.map_some, if_neg hround, byte_zeroPage]

/-- The segment is right just where the rest of its last page of the file is zero. -/
theorem loaded_iff (asks : Asks mem files filename file phdr) (maps : Maps kernel phdr)
    (flat : ¬ Wraps phdr) (filesz : phdr.pFilesz ≠ 0) (short : filename.length ≤ 21)
    (mapped : Mapped phdr memory memory')
    (filled : Filled filename file short phdr 0 ⟨memory', []⟩ s) :
    Loaded file.contents phdr s.memory ↔ Zeros filename file.contents phdr := by
  have hbyte := fun k => @byteAt_loaded _ _ _ _ _ _ _ _ k _ asks maps flat short mapped filled
  have hsizes := asks.header.sizes
  have hinside := asks.header.inside
  have hpos : 0 < phdr.pFilesz.toNat :=
    Nat.pos_of_ne_zero fun hzero => filesz (BitVec.eq_of_toNat_eq hzero)
  rw [rounds] at hbyte
  have hfile : ∀ k < phdr.pFilesz.toNat, file.contents[phdr.pOffset.toNat + k]? =
      some (file.contents.getD (phdr.pOffset.toNat + k) 0) := by
    intro k hk
    rw [List.getD_eq_getElem?_getD, List.getElem?_eq_getElem (by omega), Option.getD_some]
  constructor
  · intro loaded
    rw [Zeros]
    split_ifs with hlong
    · intro k hlow hhigh hlast
      have hk := hbyte k hhigh
      rw [loaded.zeroPart k hlow hhigh, if_pos (by omega)] at hk
      exact (Option.some.inj hk).symm
    · intro k hlow hhigh
      have hk := hbyte k (by omega)
      rw [loaded.filePart k hhigh, hfile k hhigh, if_neg (by omega)] at hk
      exact Option.some.inj hk
  · intro zeros
    rw [Zeros] at zeros
    constructor
    · intro k hk
      rw [hbyte k (by omega), hfile k hk]
      congr 1
      split_ifs with hround
      · exact if_pos (by omega)
      · rw [if_neg (by omega)] at zeros
        exact (zeros k (by omega) hk).symm
    · intro k hlow hhigh
      rw [hbyte k hhigh]
      congr 1
      split_ifs with hround
      · rw [if_pos (by omega)] at zeros
        exact zeros k hlow hhigh (by omega)
      · rfl

/-- A segment without a file part is all zeros. -/
theorem loaded_of_clear (header : Header file.contents phdr) (maps : Maps kernel phdr)
    (filesz : phdr.pFilesz = 0) (mapped : Mapped phdr memory memory')
    (cleared : clear ((phdr.pMemsz.toNat + 4095) / 4096) memory' phdr.pVaddr phdr.pMemsz.toNat =
      some s.memory) : Loaded file.contents phdr s.memory := by
  have hstart := MapSyscalls.isUserAddress_iff.mp maps.start
  have hflat : ¬ Wraps phdr := by
    intro hwraps
    rw [Wraps] at hwraps
    have huser := clear_user cleared ((2 ^ 47 - phdr.pVaddr.toNat) / 4096) (by omega)
    have hvaddr := header.vaddr
    rw [MapSyscalls.isUserAddress_iff, toNat_addr (by omega)] at huser
    omega
  have hend := (toNat_stop header maps.start maps.stop).1 hflat
  have hstop := MapSyscalls.isUserAddress_iff.mp maps.stop
  constructor
  · intro k hk
    rw [filesz] at hk
    exact absurd hk (Nat.not_lt_zero k)
  · intro k _ hk
    obtain ⟨hpage, hofs⟩ := @toNat_addr_page phdr.pVaddr k header.vaddr (by omega)
    have hzero := clear_zeroPage cleared (mapped.pages hflat (k / 4096) (by omega))
    rw [byteAt, hpage, hofs, hzero, Option.map_some, byte_zeroPage]

/-- Whenever the handler is content the segment is right, just if what is behind its file part is
zero, or the handler is never content. -/
theorem segment_right_iff (asks : Asks mem files filename file phdr) :
    Right kernel mem filename file.contents phdr memory ↔
      Fine kernel filename file.contents phdr memory := by
  constructor
  · intro right
    by_contra hnot
    simp only [Fine, not_or, not_not, not_and] at hnot
    obtain ⟨maps, hfilesz, hlong, hwrapped, hflat⟩ := hnot
    have hshort := Nat.not_lt.mp hlong
    have hlimit : rounds phdr ≤ 2 ^ 19 := Nat.min_le_right _ _
    have hsizes := asks.header.sizes
    obtain ⟨memory', hmapped, hrun⟩ := @onProgramHeader_runs kernel mem filename _ phdr memory
      (2 ^ 35) asks.header maps hfilesz (Nat.le_refl _)
    have hpresent : ∀ n, 0 ≤ n → n < rounds phdr →
        ∃ page, pageAt memory' (addr phdr.pVaddr (4096 * n)) = some page := by
      intro n _ hn
      rw [rounds] at hn
      by_cases hwraps : Wraps phdr
      · rw [hmapped.wrapped hwraps]
        apply Option.ne_none_iff_exists'.mp
        intro hnone
        exact hwrapped hwraps ⟨n, by omega, by omega, hnone⟩
      · exact ⟨zeroPage, hmapped.pages hwraps n (by omega)⟩
    obtain ⟨s, hs⟩ := @Asks.loadSegment_runs _ _ _ _ _ (2 ^ 35 + 1) 0 ⟨memory', []⟩ asks hshort
      (Nat.zero_le _) hpresent (by omega)
    have hloaded := (right (2 ^ 35 + 1) s (hrun.trans hs)).1
    by_cases hwraps : Wraps phdr
    · exact not_loaded_of_wraps asks.header maps hwraps hloaded
    · have hfilled := @Asks.loadSegment_filled _ _ _ _ _ hshort _ 0 _ _ asks (Nat.zero_le _) hs
      exact hflat hwraps
        ((loaded_iff asks maps hwraps hfilesz hshort hmapped hfilled).mp hloaded)
  · intro fine fuel s h
    obtain ⟨maps, memory', hmapped, hload | ⟨hfilesz, hreplies, hclear⟩⟩ :=
      onProgramHeader_true asks.header h
    · obtain ⟨hfilesz, hload⟩ := hload
      have hshort : filename.length ≤ 21 := by
        by_contra hlong
        exact asks.loadSegment_long (Nat.not_le.mp hlong) hfilesz hload
      have hfilled := @Asks.loadSegment_filled _ _ _ _ _ hshort _ 0 _ _ asks (Nat.zero_le _) hload
      refine ⟨?_, hfilled.replies fun reply hmem => absurd hmem List.not_mem_nil⟩
      rcases fine with hmaps | hzero | hlong | ⟨hwraps, j, hj, hpart, hnone⟩ | ⟨hflat, hzeros⟩
      · exact absurd maps hmaps
      · exact absurd hzero hfilesz
      · exact absurd hlong (Nat.not_lt.mpr hshort)
      · obtain ⟨page, hpage, -⟩ := hfilled.pages j (Nat.zero_le _) (by rw [rounds]; omega)
        rw [hmapped.wrapped hwraps, hnone] at hpage
        cases hpage
      · exact (loaded_iff asks maps hflat hfilesz hshort hmapped hfilled).mpr hzeros
    · refine ⟨loaded_of_clear asks.header maps hfilesz hmapped hclear, ?_⟩
      rw [hreplies]
      exact fun reply hmem => absurd hmem List.not_mem_nil

/-- A byte behind the file part that is not zero. -/
theorem not_right_of_byte {b : Byte} (low : phdr.pFilesz.toNat ≤ k) (high : k < phdr.pMemsz.toNat)
    (nonzero : b ≠ 0)
    (h : (onProgramHeader kernel mem filename phdr fuel memory).map
      (fun p => (byteAt p.1.memory (addr phdr.pVaddr k), p.2)) = some (some b, true)) :
    ¬ Right kernel mem filename file.contents phdr memory := by
  intro right
  obtain ⟨⟨s, ok⟩, hrun, heq⟩ := Option.map_eq_some_iff.mp h
  obtain ⟨hbyte, hok⟩ := Prod.mk.inj heq
  cases hok
  have hzero := (right fuel s hrun).1.zeroPart k low high
  rw [hbyte] at hzero
  exact nonzero (Option.some.inj hzero)

/-- A segment at 0x400000, from the start of the file on. -/
def segmentHeader (filesz memsz : BitVec 64) : Elf64ProgramHeader where
  pType := ptLoad
  pFlags := 6
  pOffset := 0
  pVaddr := 0x400000
  pPaddr := 0x400000
  pFilesz := filesz
  pMemsz := memsz
  pAlign := 4096

def willing : Kernel where
  kernelZeroPage := 0
  granted := fun _ => true

def noMemory : UserMemory := fun _ => none

theorem segmentHeader_asks {filesz memsz : BitVec 64} (inside : filesz.toNat ≤ 3)
    (sizes : filesz.toNat ≤ memsz.toNat) :
    Asks shelf Ramfs.twoFiles (bootPath 0 [0x61]) ⟨[0x61], [1, 2, 3]⟩
      (segmentHeader filesz memsz) where
  valid := shelf_valid
  string := by decide
  named := rfl
  header := by
    have hvaddr : (0x400000 : BitVec 64).toNat % 4096 = 0 := by decide
    refine ⟨rfl, hvaddr, sizes, ?_⟩
    show 0 + filesz.toNat ≤ 3
    omega

/-- A byte of the segment after the call. -/
theorem segmentHeader_byte {filesz memsz : BitVec 64} {r : MapSyscalls.Run UserMemory} {k : Nat}
    (nonempty : 0 < filesz.toNat) (inside : filesz.toNat ≤ 3) (sizes : filesz.toNat ≤ memsz.toNat)
    (small : memsz.toNat ≤ 4096) (hk : k < memsz.toNat)
    (map : handleMapVirtual (userSpace willing.granted) 0 3 noMemory memsz 0x400000 7 =
      some (⟨.ok, 0x400000⟩, r)) :
    (onProgramHeader willing shelf (bootPath 0 [0x61]) (segmentHeader filesz memsz) 3 noMemory).map
        (fun p => (byteAt p.1.memory (addr 0x400000 k), p.2)) =
      some (some (tailByte (bootPath 0 [0x61]) [1, 2, 3] 0 k), true) := by
  have hasks := @segmentHeader_asks filesz memsz inside sizes
  have hshort : (bootPath 0 [0x61]).length ≤ 21 := by decide
  have hfilesz : (segmentHeader filesz memsz).pFilesz ≠ 0 := by
    rintro (rfl : filesz = 0)
    exact Nat.lt_irrefl 0 nonempty
  have hrounds : rounds (segmentHeader filesz memsz) = 1 := by
    show min ((filesz.toNat + 4095) / 4096) (2 ^ 19) = 1
    omega
  have hflat : ¬ Wraps (segmentHeader filesz memsz) := by
    show ¬ 2 ^ 64 - 4096 < 0x400000 + memsz.toNat
    omega
  obtain ⟨hmaps, -, hmapped⟩ := @map_ok willing _ (segmentHeader filesz memsz) _ _ r ⟨.ok, 0x400000⟩
    hasks.header map rfl (by decide)
  have hrun := @onProgramHeader_mapped willing shelf (bootPath 0 [0x61]) _ _ _ _ r hasks.header
    hmaps.nonnull hfilesz map
  obtain ⟨s, hs⟩ := @Asks.loadSegment_runs _ _ _ _ _ 3 0 ⟨r.state, []⟩ hasks hshort
    (Nat.zero_le _) (fun n _ hn => ⟨zeroPage, hmapped.pages hflat n (by
      show 4096 * n < memsz.toNat
      omega)⟩) (by omega)
  have hfilled := @Asks.loadSegment_filled _ _ _ _ _ hshort _ 0 _ _ hasks (Nat.zero_le _) hs
  have hbyte := @byteAt_loaded _ _ _ _ _ _ _ _ k _ hasks hmaps hflat hshort hmapped hfilled hk
  rw [hrounds, if_pos (by omega)] at hbyte
  have hload : loadSegment shelf (bootPath 0 [0x61]) (segmentHeader filesz memsz) 3 0
      ⟨r.state, []⟩ = some (s, true) := hs
  rw [hrun, hload, Option.map_some]
  exact congrArg (fun byte => some (byte, true)) hbyte

theorem segment_right_iff_three : Asks shelf Ramfs.twoFiles (bootPath 0 [0x61])
      ⟨[0x61], [1, 2, 3]⟩ (segmentHeader 3 8) ∧
    Right willing shelf (bootPath 0 [0x61]) [1, 2, 3] (segmentHeader 3 8) noMemory := by
  have hasks := @segmentHeader_asks 3 8 (by decide) (by decide)
  have hflat : ¬ Wraps (segmentHeader 3 8) := by
    show ¬ 2 ^ 64 - 4096 < 0x400000 + 8
    decide
  have hbytes : ∀ k < 8, 3 ≤ k → tailByte (bootPath 0 [0x61]) [1, 2, 3] 0 k = 0 := by decide
  have hzeros : Zeros (bootPath 0 [0x61]) [1, 2, 3] (segmentHeader 3 8) := by
    rw [Zeros, if_pos (by decide)]
    exact fun k low high _ => hbytes k high low
  refine ⟨hasks, (segment_right_iff hasks).mpr ?_⟩
  exact Or.inr (Or.inr (Or.inr (Or.inr ⟨hflat, hzeros⟩)))

/-- Of a file of 3 bytes the third is in the segment that ends its file part at 2, and the name of
the query is in one with 16 bytes of memory. -/
theorem tail_not_zero :
    ((onProgramHeader willing shelf (bootPath 0 [0x61]) (segmentHeader 2 3) 3 noMemory).map
        (fun p => (byteAt p.1.memory (addr 0x400000 2), p.2)) = some (some 3, true) ∧
      ¬ Right willing shelf (bootPath 0 [0x61]) [1, 2, 3] (segmentHeader 2 3) noMemory) ∧
    (onProgramHeader willing shelf (bootPath 0 [0x61]) (segmentHeader 3 16) 3 noMemory).map
        (fun p => (byteAt p.1.memory (addr 0x400000 8), p.2)) = some (some 0x62, true) ∧
      ¬ Right willing shelf (bootPath 0 [0x61]) [1, 2, 3] (segmentHeader 3 16) noMemory := by
  have hfile := @segmentHeader_byte 2 3 _ 2 (by decide) (by decide) (by decide) (by decide)
    (by decide) rfl
  have hname := @segmentHeader_byte 3 16 _ 8 (by decide) (by decide) (by decide) (by decide)
    (by decide) rfl
  exact ⟨⟨hfile, @not_right_of_byte willing _ _ ⟨[0x61], [1, 2, 3]⟩ (segmentHeader 2 3) _ _ 2 3
    (by decide) (by decide) (by decide) hfile⟩, hname,
    @not_right_of_byte willing _ _ ⟨[0x61], [1, 2, 3]⟩ (segmentHeader 3 16) _ _ 8 0x62 (by decide)
      (by decide) (by decide) hname⟩

end Segments

end SegmentContents
