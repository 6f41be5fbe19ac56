import AnosKernel.LoaderQueries
import AnosKernel.MapSyscalls

/-!
# The segments of an executable

`on_program_header` of `system/loader.c`: the pages of a segment are mapped by `handle_map_virtual`
of `kernel/syscalls.c`, and each page of its file part is the page of the query that asks for it. A
write to a page that is not mapped is a fault.
-/

namespace SegmentLoading

open Bytes CStrings MessagePage ConfigLoading PageQueries ElfReader LoaderQueries
open MapSyscalls (Vmm handleMapVirtual mapVirtualLoop isUserAddress pageAlign)

/-! ## The memory of the new process -/

/-- Its pages, by their addresses. -/
abbrev UserMemory := BitVec 64 → Option Page

def pageAt (memory : UserMemory) (a : BitVec 64) : Option Page :=
  if isUserAddress a then memory a else none

def byteAt (memory : UserMemory) (a : BitVec 64) : Option Byte :=
  (pageAt memory (aligned a)).map (·.bytes.getD (inPageOffset a) 0)

structure Kernel where
  kernelZeroPage : BitVec 64
  /-- Where there is memory for the tables of a mapping. -/
  granted : BitVec 64 → Bool

/-- The page of zeros is copied when it is written, so that each address has its own. -/
def userSpace (granted : BitVec 64 → Bool) : Vmm UserMemory where
  mapPage memory virtAddr _ _ :=
    if granted virtAddr then (true, Function.update memory virtAddr (some zeroPage))
    else (false, memory)
  unmapPage memory virtAddr := (0, Function.update memory virtAddr none)

/-! ## The loader -/

theorem clear_fits (n : Nat) : 0 + (List.replicate (min n 4096) (0 : Byte)).length ≤ 4096 := by
  rw [List.length_replicate]
  omega

/-- `memset(buffer, 0, n)`, page by page. -/
def clear : Nat → UserMemory → BitVec 64 → Nat → Option UserMemory
  | 0, memory, _, _ => some memory
  | pages + 1, memory, a, n =>
    match pageAt memory a with
    | none => none
    | some page =>
      clear pages
        (Function.update memory a
          (some (page.write 0 (List.replicate (min n 4096) 0) (clear_fits n))))
        (a + 4096) (n - 4096)

structure Segment where
  memory : UserMemory
  /-- What was replied to the queries, 0 where one failed. -/
  replies : List (BitVec 64)

/-- The loop over the file part, for as many rounds as there is fuel; `i` is an `int`. -/
def loadSegment (mem filename : List Byte) (phdr : Elf64ProgramHeader) :
    Nat → BitVec 32 → Segment → Option (Segment × Bool)
  | 0, _, _ => none
  | fuel + 1, i, s =>
    if i.signExtend 64 < phdr.pFilesz then
      let msgBuffer := phdr.pVaddr + i.signExtend 64
      match pageAt s.memory msgBuffer with
      | none => none
      | some page =>
        match handleFileLoadPageQuery mem
            (segmentRequest page filename (i.signExtend 64 + phdr.pOffset)) loadSize with
        | none => none
        | some (page, loadedBytes) =>
          let s : Segment :=
            { memory := Function.update s.memory msgBuffer (some page)
              replies := s.replies ++ [loadedBytes] }
          -- it is the result of the mapping that is compared again
          if loadedBytes = 0 then some (s, false)
          else loadSegment mem filename phdr fuel (i + 0x1000) s
    else some (s, true)

/-- `on_program_header`, with the RAMFS in `mem`. -/
def onProgramHeader (kernel : Kernel) (mem filename : List Byte) (phdr : Elf64ProgramHeader)
    (fuel : Nat) (memory : UserMemory) : Option (Segment × Bool) :=
  if phdr.pOffset &&& 0xfff ≠ 0 then some (⟨memory, []⟩, false)
  else if phdr.pVaddr &&& 0xfff ≠ 0 then some (⟨memory, []⟩, false)
  else
    -- to be read, written and executed
    match handleMapVirtual (userSpace kernel.granted) kernel.kernelZeroPage fuel memory phdr.pMemsz
        phdr.pVaddr 7 with
    | none => none
    | some (result, r) =>
      if result.type ≠ .ok then some (⟨r.state, []⟩, false)
      else if result.value = 0 then some (⟨r.state, []⟩, false)
      else if phdr.pFilesz > 0 then loadSegment mem filename phdr fuel 0 ⟨r.state, []⟩
      else
        (clear ((phdr.pMemsz.toNat + 4095) / 4096) r.state result.value phdr.pMemsz.toNat).map
          fun memory => (⟨memory, []⟩, true)

/-! ## A segment -/

/-- A header of a segment that lies in the file, at the start of a page. -/
structure Header (file : List Byte) (phdr : Elf64ProgramHeader) : Prop where
  offset : phdr.pOffset.toNat % 4096 = 0
  vaddr : phdr.pVaddr.toNat % 4096 = 0
  sizes : phdr.pFilesz.toNat ≤ phdr.pMemsz.toNat
  inside : phdr.pOffset.toNat + phdr.pFilesz.toNat ≤ file.length

/-- The mapping succeeds, and not at the null pointer. -/
structure Maps (kernel : Kernel) (phdr : Elf64ProgramHeader) : Prop where
  nonempty : phdr.pMemsz ≠ 0
  start : isUserAddress phdr.pVaddr
  stop : isUserAddress (phdr.pVaddr + pageAlign phdr.pMemsz)
  granted : ∀ a, phdr.pVaddr ≤ a → a < phdr.pVaddr + pageAlign phdr.pMemsz → a.toNat % 4096 = 0 →
    kernel.granted a
  nonnull : phdr.pVaddr ≠ 0

/-- The end of the segment wraps around, so that no page is mapped. -/
def Wraps (phdr : Elf64ProgramHeader) : Prop :=
  2 ^ 64 - 4096 < phdr.pVaddr.toNat + phdr.pMemsz.toNat

/-! ## Addresses -/

section Addresses

variable {a b : BitVec 64} {k j : Nat}

theorem toNat_addr_page (base : a.toNat % 4096 = 0) (fits : a.toNat + k < 2 ^ 64) :
    aligned (addr a k) = addr a (4096 * (k / 4096)) ∧ inPageOffset (addr a k) = k % 4096 := by
  have hnat := toNat_addr fits
  constructor
  · apply BitVec.eq_of_toNat_eq
    rw [toNat_aligned, hnat, toNat_addr (by omega)]
    omega
  · rw [inPageOffset_eq, hnat]
    omega

theorem pageAt_update (memory : UserMemory) (page : Option Page) :
    pageAt (Function.update memory a page) b =
      if b = a then (if isUserAddress a then page else none) else pageAt memory b := by
  rw [pageAt, pageAt]
  by_cases h : b = a
  · rw [if_pos h, h, Function.update_self]
  · rw [if_neg h, Function.update_of_ne h]

theorem user_of_pageAt {memory : UserMemory} {page : Page} (h : pageAt memory a = some page) :
    isUserAddress a = true := by
  by_contra hnot
  rw [pageAt, if_neg hnot] at h
  cases h

end Addresses

/-! ## The mapping -/

section Mapping

variable {granted : BitVec 64 → Bool} {kernelZeroPage base stop flags a : BitVec 64}
  {flags16 : BitVec 16} {turns fuel : Nat} {r r' : MapSyscalls.Run UserMemory}
  {result : MapSyscalls.SyscallResult}

/-- One page. -/
theorem vmmMapPage_eq : MapSyscalls.vmmMapPage (userSpace granted) r a kernelZeroPage flags16 =
    if granted a = true then
      (true, ⟨Function.update r.state a (some zeroPage), r.calls ++ [a]⟩)
    else (false, ⟨r.state, r.calls ++ [a]⟩) := by
  rw [MapSyscalls.vmmMapPage, userSpace]
  by_cases h : granted a = true
  · simp only [h, if_true]
  · simp only [if_neg h]

/-- A mapping that succeeds leaves pages of zeros, and nothing else. -/
theorem mapVirtualLoop_ok (aligned : a.toNat % 4096 = 0) (user : stop.toNat < 2 ^ 47)
    (h : mapVirtualLoop (userSpace granted) kernelZeroPage base stop flags turns fuel a r =
      some (result, r')) (ok : result.type = .ok) :
    result.value = base ∧
      (∀ b, a ≤ b → b < stop → b.toNat % 4096 = 0 → granted b = true ∧
        r'.state b = some zeroPage) ∧
      ∀ b, (b < a ∨ stop ≤ b) → r'.state b = r.state b := by
  induction fuel generalizing a r with
  | zero => cases h
  | succ fuel ih =>
    rw [mapVirtualLoop] at h
    by_cases hlt : a < stop
    · have hlt' : a.toNat < stop.toNat := hlt
      have hnext := @MapSyscalls.toNat_add_page a (by omega)
      rw [if_pos hlt, vmmMapPage_eq] at h
      by_cases hgrant : granted a = true
      · rw [if_pos hgrant] at h
        obtain ⟨hvalue, hinside, houtside⟩ := ih (by omega) h
        refine ⟨hvalue, ?_, ?_⟩
        · intro b hlow hhigh hmod
          by_cases hb : b = a
          · rw [hb]
            refine ⟨hgrant, (houtside a (Or.inl ?_)).trans (Function.update_self _ _ _)⟩
            rw [BitVec.lt_def]
            omega
          · have hne := mt BitVec.eq_of_toNat_eq hb
            have hlow' : a.toNat ≤ b.toNat := hlow
            exact hinside b (by rw [BitVec.le_def]; omega) hhigh hmod
        · intro b hb
          have hne : b ≠ a := by
            rintro rfl
            rcases hb with hb | hb
            · exact BitVec.lt_irrefl _ hb
            · exact absurd hlt (BitVec.not_lt.mpr hb)
          refine (houtside b (hb.imp_left fun hlow => ?_)).trans (Function.update_of_ne hne _ _)
          rw [BitVec.lt_def] at hlow ⊢
          omega
      · rw [if_neg hgrant] at h
        obtain ⟨_, -, heq⟩ := Option.map_eq_some_iff.mp h
        cases heq
        cases ok
    · rw [if_neg hlt] at h
      cases h
      refine ⟨rfl, ?_, fun b _ => rfl⟩
      intro b hlow hhigh
      rw [BitVec.lt_def] at hlt hhigh
      rw [BitVec.le_def] at hlow
      omega

/-- Where every page is granted the mapping succeeds. -/
theorem mapVirtualLoop_runs (aligned : a.toNat % 4096 = 0) (user : stop.toNat < 2 ^ 47)
    (all : ∀ b, a ≤ b → b < stop → b.toNat % 4096 = 0 → granted b = true)
    (enough : stop.toNat ≤ a.toNat + 4096 * fuel) :
    ∃ r', mapVirtualLoop (userSpace granted) kernelZeroPage base stop flags turns (fuel + 1) a r =
      some (⟨.ok, base⟩, r') := by
  induction fuel generalizing a r with
  | zero =>
    rw [mapVirtualLoop, if_neg (by rw [BitVec.lt_def]; omega)]
    exact ⟨_, rfl⟩
  | succ fuel ih =>
    rw [mapVirtualLoop]
    by_cases hlt : a < stop
    · have hlt' : a.toNat < stop.toNat := hlt
      have hnext := @MapSyscalls.toNat_add_page a (by omega)
      have hgrant := all a (BitVec.le_refl a) hlt aligned
      rw [if_pos hlt, vmmMapPage_eq, if_pos hgrant]
      apply ih (by omega) _ (by omega)
      intro b hlow hhigh hmod
      rw [BitVec.le_def] at hlow
      exact all b (by rw [BitVec.le_def]; omega) hhigh hmod
    · rw [if_neg hlt]
      exact ⟨_, rfl⟩

theorem pageAlign_of_aligned (h : a.toNat % 4096 = 0) : pageAlign a = a := by
  have hzero : a &&& 0xfff = 0 := (@Masks.and_low_eq_zero_iff 64 a 0xfff 12 rfl).mpr h
  rw [pageAlign, if_neg (not_not_intro hzero)]

theorem toNat_pageAlign : (pageAlign a).toNat = (a.toNat + 4095) / 4096 * 4096 % 2 ^ 64 := by
  have hlt := a.isLt
  by_cases h : a.toNat % 4096 = 0
  · rw [pageAlign_of_aligned h]
    omega
  · have hnonzero : a &&& 0xfff ≠ 0 := mt (@Masks.and_low_eq_zero_iff 64 a 0xfff 12 rfl).mp h
    have hmask : ((a + PageAlloc.vmPageSize) &&& 0xfffffffffffff000).toNat =
        (a + PageAlloc.vmPageSize).toNat / 2 ^ 12 * 2 ^ 12 :=
      Masks.toNat_and_high _ _ 12 (by decide) rfl
    have hpage : PageAlloc.vmPageSize.toNat = 4096 := rfl
    rw [pageAlign, if_pos hnonzero, hmask, BitVec.toNat_add, hpage]
    omega

end Mapping

/-- What a mapping leaves. -/
structure Mapped (phdr : Elf64ProgramHeader) (memory memory' : UserMemory) : Prop where
  pages : ¬ Wraps phdr → ∀ j, 4096 * j < phdr.pMemsz.toNat →
    pageAt memory' (addr phdr.pVaddr (4096 * j)) = some zeroPage
  wrapped : Wraps phdr → memory' = memory

section Mappings

variable {kernel : Kernel} {file : List Byte} {phdr : Elf64ProgramHeader} {memory : UserMemory}
  {fuel : Nat} {r : MapSyscalls.Run UserMemory} {result : MapSyscalls.SyscallResult}

/-- Where the segment ends, unless it wraps around. -/
theorem toNat_stop (header : Header file phdr) (start : isUserAddress phdr.pVaddr)
    (stop : isUserAddress (phdr.pVaddr + pageAlign phdr.pMemsz)) :
    (¬ Wraps phdr → phdr.pVaddr.toNat + phdr.pMemsz.toNat ≤
        (phdr.pVaddr + pageAlign phdr.pMemsz).toNat) ∧
      (Wraps phdr → (phdr.pVaddr + pageAlign phdr.pMemsz).toNat ≤ phdr.pVaddr.toNat) := by
  have haligned := header.vaddr
  have hmemsz := phdr.pMemsz.isLt
  rw [MapSyscalls.isUserAddress_iff] at start stop
  rw [BitVec.toNat_add, toNat_pageAlign] at stop ⊢
  rw [Wraps]
  constructor
  · intro hwraps
    omega
  · intro hwraps
    omega

theorem map_ok (header : Header file phdr)
    (h : handleMapVirtual (userSpace kernel.granted) kernel.kernelZeroPage fuel memory phdr.pMemsz
      phdr.pVaddr 7 = some (result, r)) (ok : result.type = .ok) (nonnull : result.value ≠ 0) :
    Maps kernel phdr ∧ result.value = phdr.pVaddr ∧ Mapped phdr memory r.state := by
  rw [handleMapVirtual, pageAlign_of_aligned header.vaddr] at h
  dsimp only at h
  by_cases hempty : phdr.pMemsz = 0
  · rw [if_pos hempty] at h
    cases h
    cases ok
  rw [if_neg hempty] at h
  by_cases hstart : isUserAddress phdr.pVaddr = true
  · rw [if_neg (not_not_intro hstart)] at h
    by_cases hstop : isUserAddress (phdr.pVaddr + pageAlign phdr.pMemsz) = true
    · rw [if_neg (not_not_intro hstop)] at h
      obtain ⟨hvalue, hinside, houtside⟩ := mapVirtualLoop_ok header.vaddr
        (MapSyscalls.isUserAddress_iff.mp hstop) h ok
      obtain ⟨hflat, hwrap⟩ := toNat_stop header hstart hstop
      rw [hvalue] at nonnull
      refine ⟨⟨hempty, hstart, hstop, ?_, nonnull⟩, hvalue, ?_, ?_⟩
      · intro a hlow hhigh hmod
        exact (hinside a hlow hhigh hmod).1
      · intro hwraps j hj
        have hend := hflat hwraps
        have huser := MapSyscalls.isUserAddress_iff.mp hstop
        have hvaddr := header.vaddr
        have hnat := @toNat_addr phdr.pVaddr (4096 * j) (by omega)
        rw [pageAt, if_pos (MapSyscalls.isUserAddress_iff.mpr (by omega))]
        refine (hinside _ ?_ ?_ ?_).2
        · rw [BitVec.le_def]
          omega
        · rw [BitVec.lt_def]
          omega
        · omega
      · intro hwraps
        have hend := hwrap hwraps
        funext a
        apply houtside
        rw [BitVec.lt_def, BitVec.le_def]
        omega
    · rw [if_pos hstop] at h
      cases h
      cases ok
  · rw [if_pos hstart] at h
    cases h
    cases ok

theorem map_runs (header : Header file phdr) (maps : Maps kernel phdr) (enough : 2 ^ 35 ≤ fuel) :
    ∃ r, handleMapVirtual (userSpace kernel.granted) kernel.kernelZeroPage (fuel + 1) memory
      phdr.pMemsz phdr.pVaddr 7 = some (⟨.ok, phdr.pVaddr⟩, r) := by
  have hstop := MapSyscalls.isUserAddress_iff.mp maps.stop
  rw [handleMapVirtual, pageAlign_of_aligned header.vaddr]
  dsimp only
  rw [if_neg maps.nonempty, if_neg (not_not_intro maps.start), if_neg (not_not_intro maps.stop)]
  exact mapVirtualLoop_runs header.vaddr hstop maps.granted (by omega)

end Mappings

/-! ## The loop over the file part -/

theorem colon_fits {filename : List Byte} (short : filename.length ≤ 21) :
    8 + colonPlace filename + 1 ≤ 4096 := by
  have hcolon : colonPlace filename ≤ filename.length :=
    (List.takeWhile_prefix _).length_le
  omega

/-- A page after a query with a short name for the bytes of a file from an offset on. -/
def filled (filename : List Byte) (file : Ramfs.InputFile) (short : filename.length ≤ 21)
    (offset : BitVec 64) (page : Page) : Page :=
  ((segmentRequest page filename offset).write (8 + colonPlace filename) [0]
    (colon_fits short)).write 0 (slice offset.toNat (min (file.contents.length - offset.toNat) 4096)
      file.contents) (part_fits file offset.toNat)

/-- How many rounds the loop has, since an `int` ends at 2 ^ 31. -/
def rounds (phdr : Elf64ProgramHeader) : Nat := min ((phdr.pFilesz.toNat + 4095) / 4096) (2 ^ 19)

/-- What the rounds from the `j`-th on leave. -/
structure Filled (filename : List Byte) (file : Ramfs.InputFile) (short : filename.length ≤ 21)
    (phdr : Elf64ProgramHeader) (j : Nat) (s s' : Segment) : Prop where
  pages : ∀ n, j ≤ n → n < rounds phdr → ∃ page,
    pageAt s.memory (addr phdr.pVaddr (4096 * n)) = some page ∧
      pageAt s'.memory (addr phdr.pVaddr (4096 * n)) =
        some (filled filename file short (BitVec.ofNat 64 (phdr.pOffset.toNat + 4096 * n)) page)
  others : ∀ a, (∀ n, j ≤ n → n < rounds phdr → a ≠ addr phdr.pVaddr (4096 * n)) →
    pageAt s'.memory a = pageAt s.memory a
  replies : (∀ reply ∈ s.replies, reply ≠ 0) → ∀ reply ∈ s'.replies, reply ≠ 0

/-- The name is one of a file in the RAMFS, and the segment lies in this file. -/
structure Asks (mem : List Byte) (files : List Ramfs.InputFile) (filename : List Byte)
    (file : Ramfs.InputFile) (phdr : Elf64ProgramHeader) : Prop where
  valid : Valid mem files
  string : 0 ∉ filename
  named : pathFile files filename = some file
  header : Header file.contents phdr

section Loop

variable {mem filename : List Byte} {files : List Ramfs.InputFile} {file : Ramfs.InputFile}
  {phdr : Elf64ProgramHeader} {short : filename.length ≤ 21} {fuel j : Nat} {s s' : Segment}

/-- The counter of the loop is positive until it has run over. -/
theorem signExtend_counter (small : j < 2 ^ 19) :
    (BitVec.ofNat 32 (4096 * j)).signExtend 64 = BitVec.ofNat 64 (4096 * j) := by
  have hnat : (BitVec.ofNat 32 (4096 * j)).toNat = 4096 * j :=
    toNat_ofNat_of_lt (by omega)
  have hpositive : (BitVec.ofNat 32 (4096 * j)).msb = false := by
    rw [BitVec.msb_eq_false_iff_two_mul_lt, hnat]
    omega
  apply BitVec.eq_of_toNat_eq
  rw [BitVec.signExtend_eq_setWidth_of_msb_false hpositive, BitVec.toNat_setWidth, hnat,
    BitVec.toNat_ofNat]

theorem counter_succ : BitVec.ofNat 32 (4096 * j) + 0x1000 = BitVec.ofNat 32 (4096 * (j + 1)) := by
  rw [Nat.mul_succ, BitVec.ofNat_add]
  rfl

theorem Asks.length_lt (asks : Asks mem files filename file phdr) :
    file.contents.length < 2 ^ 63 := by
  have hfile := asks.named
  rcases pathTarget_eq asks.valid asks.string with ⟨hnone, -⟩ | ⟨k, other, hk, hsome, -⟩
  · rw [hfile] at hnone
    cases hnone
  · rw [hfile] at hsome
    cases hsome
    have hinside := (asks.valid.image.fileAt k file hk).inside
    have hloadable := asks.valid.loadable
    omega

/-- The loop goes on just for its rounds. -/
theorem Asks.counter_lt (asks : Asks mem files filename file phdr) (j_le : j ≤ rounds phdr) :
    (BitVec.ofNat 32 (4096 * j)).signExtend 64 < phdr.pFilesz ↔ j < rounds phdr := by
  have hlength := asks.length_lt
  have hinside := asks.header.inside
  rw [rounds] at j_le ⊢
  rw [BitVec.lt_def]
  rcases Nat.lt_or_ge j (2 ^ 19) with hsmall | hlarge
  · rw [signExtend_counter hsmall, BitVec.toNat_ofNat, Nat.mod_eq_of_lt (by omega)]
    omega
  · have hj : j = 2 ^ 19 := by omega
    have hnat : ((BitVec.ofNat 32 (4096 * j)).signExtend 64).toNat = 2 ^ 64 - 2 ^ 31 := by
      rw [hj]
      decide
    rw [hnat]
    omega

/-- The query of a round. -/
theorem Asks.query (asks : Asks mem files filename file phdr) (short : filename.length ≤ 21)
    (hj : j < rounds phdr) (page : Page) :
    ∃ reply : BitVec 64, reply ≠ 0 ∧ handleFileLoadPageQuery mem (segmentRequest page filename
        ((BitVec.ofNat 32 (4096 * j)).signExtend 64 + phdr.pOffset)) loadSize =
      some (filled filename file short (BitVec.ofNat 64 (phdr.pOffset.toNat + 4096 * j)) page,
        reply) := by
  have hlength := asks.length_lt
  have hinside := asks.header.inside
  have hoffset : (BitVec.ofNat 32 (4096 * j)).signExtend 64 + phdr.pOffset =
      BitVec.ofNat 64 (phdr.pOffset.toNat + 4096 * j) := by
    rw [rounds] at hj
    rw [signExtend_counter (by omega), BitVec.add_comm, BitVec.ofNat_add, BitVec.ofNat_toNat,
      BitVec.setWidth_eq]
  have hnat : (BitVec.ofNat 64 (phdr.pOffset.toNat + 4096 * j)).toNat =
      phdr.pOffset.toNat + 4096 * j := by
    rw [rounds] at hj
    exact toNat_ofNat_of_lt (by omega)
  have hbefore : phdr.pOffset.toNat + 4096 * j < file.contents.length := by
    rw [rounds] at hj
    omega
  obtain ⟨more, hdrop⟩ := @segmentRequest_path filename page
    (BitVec.ofNat 64 (phdr.pOffset.toNat + 4096 * j)) asks.string short
  obtain ⟨hfits, hquery⟩ := handleFileLoadPageQuery_eq asks.valid hdrop asks.string short asks.named
    segmentRequest_number (by rw [hnat]; exact hbefore)
  rw [hoffset]
  refine ⟨_, ?_, hquery⟩
  rw [ne_eq, ofNat_eq_zero (by omega), hnat]
  omega

theorem addr_page_ne {a : BitVec 64} {m n : Nat} (hm : m < 2 ^ 19) (hn : n < 2 ^ 19) (h : m ≠ n) :
    addr a (4096 * m) ≠ addr a (4096 * n) := by
  intro heq
  have hsame := addr_inj (by omega) (by omega) heq
  omega

/-- One round, and those behind it. -/
theorem Filled.step {page : Page} {reply : BitVec 64} (hj : j < rounds phdr) (nonzero : reply ≠ 0)
    (present : pageAt s.memory (addr phdr.pVaddr (4096 * j)) = some page)
    (rest : Filled filename file short phdr (j + 1)
      ⟨Function.update s.memory (addr phdr.pVaddr (4096 * j)) (some (filled filename file short
        (BitVec.ofNat 64 (phdr.pOffset.toNat + 4096 * j)) page)), s.replies ++ [reply]⟩ s') :
    Filled filename file short phdr j s s' := by
  have hlimit : rounds phdr ≤ 2 ^ 19 := Nat.min_le_right _ _
  have huser := user_of_pageAt present
  constructor
  · intro n hlow hhigh
    rcases Nat.eq_or_lt_of_le hlow with rfl | hlt
    · refine ⟨page, present, ?_⟩
      rw [rest.others _ fun n hn hn' => addr_page_ne (by omega) (by omega) (by omega),
        pageAt_update, if_pos rfl, if_pos huser]
    · obtain ⟨other, hother, hfilled⟩ := rest.pages n hlt hhigh
      rw [pageAt_update, if_neg (addr_page_ne (by omega) (by omega) (by omega))] at hother
      exact ⟨other, hother, hfilled⟩
  · intro a hout
    rw [rest.others a fun n hn hn' => hout n (by omega) hn', pageAt_update,
      if_neg (hout j (Nat.le_refl j) hj)]
  · intro hall
    apply rest.replies
    intro other hmem
    rcases List.mem_append.mp hmem with hmem | hmem
    · exact hall other hmem
    · rw [List.mem_singleton.mp hmem]
      exact nonzero

/-- A loop that ends well has filled its pages. -/
theorem Asks.loadSegment_filled (asks : Asks mem files filename file phdr) (j_le : j ≤ rounds phdr)
    (h : loadSegment mem filename phdr fuel (BitVec.ofNat 32 (4096 * j)) s = some (s', true)) :
    Filled filename file short phdr j s s' := by
  induction fuel generalizing j s with
  | zero => cases h
  | succ fuel ih =>
    rw [loadSegment] at h
    by_cases hj : j < rounds phdr
    · rw [if_pos ((asks.counter_lt j_le).mpr hj)] at h
      have hlimit : rounds phdr ≤ 2 ^ 19 := Nat.min_le_right _ _
      have hplace : phdr.pVaddr + (BitVec.ofNat 32 (4096 * j)).signExtend 64 =
          addr phdr.pVaddr (4096 * j) := by
        rw [signExtend_counter (by omega), addr]
      dsimp only at h
      rw [hplace] at h
      cases hpage : pageAt s.memory (addr phdr.pVaddr (4096 * j)) with
      | none =>
        rw [hpage] at h
        cases h
      | some page =>
        obtain ⟨reply, hreply, hquery⟩ := asks.query short hj page
        rw [hpage] at h
        dsimp only at h
        rw [hquery] at h
        dsimp only at h
        rw [if_neg hreply, counter_succ] at h
        exact Filled.step hj hreply hpage (ih hj h)
    · rw [if_neg (mt (asks.counter_lt j_le).mp hj)] at h
      cases h
      exact ⟨fun n hlow hhigh => by omega, fun _ _ => rfl, fun hall => hall⟩

/-- A loop that finds its pages ends well. -/
theorem Asks.loadSegment_runs (asks : Asks mem files filename file phdr)
    (short : filename.length ≤ 21) (j_le : j ≤ rounds phdr)
    (present : ∀ n, j ≤ n → n < rounds phdr →
      ∃ page, pageAt s.memory (addr phdr.pVaddr (4096 * n)) = some page)
    (enough : rounds phdr < j + fuel) :
    ∃ s', loadSegment mem filename phdr fuel (BitVec.ofNat 32 (4096 * j)) s = some (s', true) := by
  have hlimit : rounds phdr ≤ 2 ^ 19 := Nat.min_le_right _ _
  induction fuel generalizing j s with
  | zero => omega
  | succ fuel ih =>
    rw [loadSegment]
    by_cases hj : j < rounds phdr
    · obtain ⟨page, hpage⟩ := present j (Nat.le_refl j) hj
      obtain ⟨reply, hreply, hquery⟩ := asks.query short hj page
      have hplace : phdr.pVaddr + (BitVec.ofNat 32 (4096 * j)).signExtend 64 =
          addr phdr.pVaddr (4096 * j) := by
        rw [signExtend_counter (by omega), addr]
      rw [if_pos ((asks.counter_lt j_le).mpr hj)]
      dsimp only
      rw [hplace, hpage]
      dsimp only
      rw [hquery]
      dsimp only
      rw [if_neg hreply, counter_succ]
      refine ih hj ?_ (by omega)
      intro n hlow hhigh
      obtain ⟨other, hother⟩ := present n (by omega) hhigh
      refine ⟨other, ?_⟩
      rw [pageAt_update, if_neg (addr_page_ne (by omega) (by omega) (by omega))]
      exact hother
    · rw [if_neg (mt (asks.counter_lt j_le).mp hj)]
      exact ⟨s, rfl⟩

/-- A query with a long name fails. -/
theorem query_long {page : Page} {offset : BitVec 64} (string : 0 ∉ filename)
    (long : 21 < filename.length) :
    handleFileLoadPageQuery mem (segmentRequest page filename offset) loadSize =
      some (segmentRequest page filename offset, 0) := by
  have hparse : parseFilePath (segmentRequest page filename offset) 8 22 = .refused := by
    rw [parseFilePath, if_neg (by decide), if_pos (segmentRequest_cut string long),
      if_pos (by decide)]
  rw [handleFileLoadPageQuery, inputLen_eq, hparse]

theorem Asks.loadSegment_long (asks : Asks mem files filename file phdr)
    (long : 21 < filename.length) (some : phdr.pFilesz ≠ 0) :
    loadSegment mem filename phdr fuel 0 s ≠ .some (s', true) := by
  intro h
  cases fuel with
  | zero => cases h
  | succ fuel =>
    have hzero : (0 : BitVec 32).signExtend 64 = 0 := rfl
    have hpos : (0 : BitVec 64) < phdr.pFilesz := by
      rw [BitVec.lt_def]
      exact Nat.pos_of_ne_zero fun h => some (BitVec.eq_of_toNat_eq h)
    rw [loadSegment, hzero, if_pos hpos] at h
    dsimp only at h
    split at h
    · cases h
    · rw [query_long asks.string long] at h
      dsimp only at h
      rw [if_pos rfl] at h
      cases h

end Loop

end SegmentLoading
