import AnosKernel.Lib.CStrings
import AnosKernel.MessagePage

/-!
# Requests to spawn a process

The encoder `spawn_process_via_system`, the same in `servers/pcidrv/main.c` and in
`servers/devman/main.c`, and the decoder `handle_process_spawn_request` of `system/main.c`. The
record has a size of 16 bytes, and its data start at the twelfth.
-/

namespace SpawnRequest

open Bytes CStrings MessagePage

structure InitCapability where
  capabilityId : BitVec 64
  capabilityCookie : BitVec 64

def InitCapability.bytes (capability : InitCapability) : List Byte :=
  toBytes 8 capability.capabilityId.toNat ++ toBytes 8 capability.capabilityCookie.toNat

theorem InitCapability.length_bytes (capability : InitCapability) :
    capability.bytes.length = 16 := by
  rw [bytes, List.length_append, length_toBytes, length_toBytes]

/-! ## The encoder -/

/-- The bytes of an argument; one that is null has none. -/
def argumentBytes : Option (List Byte) → List Byte
  | none => []
  | some argument => cstr argument ++ [0]

def payload (capabilities : List InitCapability) (argv : List (Option (List Byte))) : List Byte :=
  capabilities.flatMap InitCapability.bytes ++ argv.flatMap argumentBytes

def header (stackSize : BitVec 64) (argc capc : BitVec 16) : List Byte :=
  toBytes 8 stackSize.toNat ++ toBytes 2 argc.toNat ++ toBytes 2 capc.toNat

theorem length_header (stackSize : BitVec 64) (argc capc : BitVec 16) :
    (header stackSize argc capc).length = 12 := by
  rw [header, List.length_append, List.length_append, length_toBytes, length_toBytes,
    length_toBytes]

/-- The page and the size of the message, none if it is too large. -/
def spawnMessage (ipcBuffer : Page) (stackSize : BitVec 64) (capabilities : List InitCapability)
    (argv : List (Option (List Byte))) : Option (Page × Nat) :=
  let totalSize := 16 + (payload capabilities argv).length
  if fits : totalSize ≤ 4096 then
    some (ipcBuffer.write 0 (header stackSize (BitVec.ofNat 16 argv.length)
        (BitVec.ofNat 16 capabilities.length) ++ payload capabilities argv)
      (by rw [List.length_append, length_header]; omega), totalSize)
  else none

/-- What the server's channel answers: none if it is not found. -/
def spawnProcessViaSystem (channel : Option (Page → Nat → Int)) (ipcBuffer : Page)
    (stackSize : BitVec 64) (capabilities : List InitCapability)
    (argv : List (Option (List Byte))) : Int :=
  match channel with
  | none => -1
  | some send =>
    match spawnMessage ipcBuffer stackSize capabilities argv with
    | none => -2
    | some (page, size) => send page size

/-! ## The decoder -/

/-- A call of `create_server_process`; the arguments are places in the message. -/
structure Call where
  stackSize : BitVec 64
  capabilities : List InitCapability
  argv : List Nat

/-- The strings that the arguments point to. -/
def Call.arguments (call : Call) (page : Page) : List (List Byte) :=
  call.argv.map fun place => cstr (page.bytes.drop place)

def readCapabilities : Nat → List Byte → List InitCapability
  | 0, _ => []
  | capc + 1, bytes =>
    ⟨BitVec.ofNat 64 (ofBytes (slice 0 8 bytes)), BitVec.ofNat 64 (ofBytes (slice 8 8 bytes))⟩ ::
      readCapabilities capc (bytes.drop 16)

/-- `while (str_offset < remaining_size && str_data[str_offset] != '\0')`. -/
def skipString (strData : List Byte) (remaining offset : Nat) : Nat :=
  if offset < remaining ∧ strData.getD offset 0 ≠ 0 then skipString strData remaining (offset + 1)
  else offset
  termination_by remaining - offset

/-- The offsets of `argc` strings. -/
def readArguments (strData : List Byte) (remaining : Nat) : Nat → Nat → Except Int (List Nat)
  | 0, _ => .ok []
  | argc + 1, offset =>
    if offset ≥ remaining then .error (-3)
    else
      let stop := skipString strData remaining offset
      if stop ≥ remaining then .error (-4)
      else (readArguments strData remaining argc (stop + 1)).map (offset :: ·)

/-- The calls that are made, and the reply. -/
def handleProcessSpawnRequest (createServerProcess : Call → Int) (page : Page) (size : Nat) :
    List Call × Int :=
  if size < 16 then ([], -1)
  else
    let argc := page.number 8 2
    let capc := page.number 10 2
    let stackSize := BitVec.ofNat 64 (page.number 0 8)
    if argc > 64 ∨ capc > 32 then ([], -10)
    else
      let remaining := size - 16
      if capc > 0 ∧ remaining < capc * 16 then ([], -2)
      else
        let capabilities := readCapabilities capc (page.bytes.drop 12)
        let data := 12 + capc * 16
        match readArguments (page.bytes.drop data) (remaining - capc * 16) argc 0 with
        | .error code => ([], code)
        | .ok offsets =>
          let call : Call := ⟨stackSize, capabilities, offsets.map (data + ·)⟩
          ([call], createServerProcess call)

/-! ## The round trip -/

section RoundTrip

variable {strData rest : List Byte} {remaining offset : Nat}

theorem ofNat_ofBytes_toBytes (x : BitVec 64) :
    BitVec.ofNat 64 (ofBytes (toBytes 8 x.toNat)) = x := by
  have hfits : x.toNat < 256 ^ 8 := x.isLt
  rw [ofBytes_toBytes hfits, BitVec.ofNat_toNat, BitVec.setWidth_eq]

theorem length_capabilities (capabilities : List InitCapability) :
    (capabilities.flatMap InitCapability.bytes).length = capabilities.length * 16 := by
  induction capabilities with
  | nil => rfl
  | cons capability capabilities ih =>
    rw [List.flatMap_cons, List.length_append, ih, capability.length_bytes, List.length_cons]
    omega

theorem readCapabilities_append (capabilities : List InitCapability) (rest : List Byte) :
    readCapabilities capabilities.length (capabilities.flatMap InitCapability.bytes ++ rest) =
      capabilities := by
  induction capabilities with
  | nil => rfl
  | cons capability capabilities ih =>
    rw [List.length_cons, readCapabilities, List.flatMap_cons, List.append_assoc,
      List.drop_left' capability.length_bytes, ih, InitCapability.bytes, List.append_assoc, slice,
      slice, List.drop_zero, List.take_left' length_toBytes, List.drop_left' length_toBytes,
      List.take_left' length_toBytes, ofNat_ofBytes_toBytes, ofNat_ofBytes_toBytes]

theorem getD_of_drop {c : Byte} (h : strData.drop offset = c :: rest) :
    strData.getD offset 0 = c := by
  rw [List.getD_eq_getElem?_getD, ← List.head?_drop, h]
  rfl

/-- A string is skipped up to its zero. -/
theorem skipString_eq {argument : List Byte} (h : strData.drop offset = argument ++ 0 :: rest)
    (nonzero : 0 ∉ argument) (inside : offset + argument.length < remaining) :
    skipString strData remaining offset = offset + argument.length := by
  induction argument generalizing offset with
  | nil =>
    rw [skipString, if_neg]
    · rfl
    · rw [getD_of_drop h]
      exact fun hne => hne.2 rfl
  | cons c argument ih =>
    rw [List.mem_cons, not_or] at nonzero
    rw [List.length_cons] at inside ⊢
    have hnext : strData.drop (offset + 1) = argument ++ 0 :: rest := by
      rw [← List.tail_drop, h]
      rfl
    rw [skipString, if_pos, ih hnext nonzero.2 (by omega)]
    · omega
    · rw [getD_of_drop h]
      exact ⟨by omega, Ne.symm nonzero.1⟩

/-- The strings that were written are found, one after another. -/
theorem readArguments_eq {arguments : List (List Byte)}
    (h : strData.drop offset = (arguments.map some).flatMap argumentBytes ++ rest)
    (nonzero : ∀ argument ∈ arguments, 0 ∉ argument)
    (inside : remaining = offset + ((arguments.map some).flatMap argumentBytes).length) :
    ∃ offsets, readArguments strData remaining arguments.length offset = .ok offsets ∧
      offsets.map (fun o => cstr (strData.drop o)) = arguments := by
  induction arguments generalizing offset with
  | nil => exact ⟨[], rfl, rfl⟩
  | cons argument arguments ih =>
    have hstring : cstr argument = argument := cstr_of_not_mem (nonzero _ List.mem_cons_self)
    rw [List.map_cons, List.flatMap_cons, argumentBytes, hstring, List.append_assoc,
      List.append_assoc, List.singleton_append] at h
    rw [List.map_cons, List.flatMap_cons, argumentBytes, hstring, List.length_append,
      List.length_append, List.length_singleton] at inside
    have hstop := skipString_eq h (nonzero _ List.mem_cons_self) (by omega : _ < remaining)
    have hnext : strData.drop (offset + argument.length + 1) =
        (arguments.map some).flatMap argumentBytes ++ rest := by
      rw [Nat.add_assoc, ← List.drop_drop, h, ← List.singleton_append, ← List.append_assoc]
      exact List.drop_left' (by rw [List.length_append, List.length_singleton])
    obtain ⟨offsets, hread, hstrings⟩ := ih hnext
      (fun other hother => nonzero other (List.mem_cons_of_mem _ hother)) (by omega)
    refine ⟨offset :: offsets, ?_, ?_⟩
    · rw [List.length_cons, readArguments, if_neg (by omega), hstop]
      dsimp only
      rw [if_neg (by omega), hread]
      rfl
    · rw [List.map_cons, hstrings, h, cstr_append_zero (nonzero _ List.mem_cons_self)]

/-- The fields of a page that starts with a header. -/
theorem numbers_of_header {page : Page} {stackSize : BitVec 64} {argc capc : BitVec 16}
    (h : page.bytes = header stackSize argc capc ++ rest) :
    page.number 0 8 = stackSize.toNat ∧ page.number 8 2 = argc.toNat ∧
      page.number 10 2 = capc.toNat ∧ page.bytes.drop 12 = rest := by
  have hstack : stackSize.toNat < 256 ^ 8 := stackSize.isLt
  have hargc : argc.toNat < 256 ^ 2 := argc.isLt
  have hcapc : capc.toNat < 256 ^ 2 := capc.isLt
  have hten : (toBytes 8 stackSize.toNat ++ toBytes 2 argc.toNat).length = 10 := by
    rw [List.length_append, length_toBytes, length_toBytes]
  refine ⟨?_, ?_, ?_, ?_⟩
  · rw [Page.number, h, header, List.append_assoc, List.append_assoc, slice, List.drop_zero,
      List.take_left' length_toBytes, ofBytes_toBytes hstack]
  · rw [Page.number, h, header, List.append_assoc, List.append_assoc, slice,
      List.drop_left' length_toBytes, List.take_left' length_toBytes, ofBytes_toBytes hargc]
  · rw [Page.number, h, header, List.append_assoc, slice, List.drop_left' hten,
      List.take_left' length_toBytes, ofBytes_toBytes hcapc]
  · rw [h, List.drop_left' (length_header stackSize argc capc)]

/-- A message that is not too large starts with its header and its payload. -/
theorem spawnMessage_eq {ipcBuffer page : Page} {stackSize : BitVec 64} {size : Nat}
    {capabilities : List InitCapability} {argv : List (Option (List Byte))}
    (h : spawnMessage ipcBuffer stackSize capabilities argv = some (page, size)) :
    size = 16 + (payload capabilities argv).length ∧ size ≤ 4096 ∧
      ∃ rest, page.bytes = header stackSize (BitVec.ofNat 16 argv.length)
        (BitVec.ofNat 16 capabilities.length) ++ (payload capabilities argv ++ rest) := by
  rw [spawnMessage] at h
  split at h
  · rename_i hfits
    cases h
    exact ⟨rfl, hfits, _, List.append_assoc _ _ _⟩
  · cases h

/-- What was encoded is decoded. -/
theorem handle_spawnMessage {ipcBuffer page : Page} {stackSize : BitVec 64} {size : Nat}
    {capabilities : List InitCapability} {arguments : List (List Byte)}
    (capc : capabilities.length ≤ 32) (argc : arguments.length ≤ 64)
    (nonzero : ∀ argument ∈ arguments, 0 ∉ argument)
    (sent : spawnMessage ipcBuffer stackSize capabilities (arguments.map some) = some (page, size))
    (createServerProcess : Call → Int) :
    ∃ call, handleProcessSpawnRequest createServerProcess page size =
        ([call], createServerProcess call) ∧
      call.stackSize = stackSize ∧ call.capabilities = capabilities ∧
      call.arguments page = arguments := by
  obtain ⟨hsize, hfits, rest, hbytes⟩ := spawnMessage_eq sent
  obtain ⟨hstack, hargc, hcapc, hdata⟩ := numbers_of_header hbytes
  have hcaps := length_capabilities capabilities
  rw [List.length_map, BitVec.toNat_ofNat, Nat.mod_eq_of_lt (by omega)] at hargc
  rw [BitVec.toNat_ofNat, Nat.mod_eq_of_lt (by omega)] at hcapc
  rw [payload, List.length_append, hcaps] at hsize
  rw [payload, List.append_assoc] at hdata
  have hstrings : page.bytes.drop (12 + capabilities.length * 16) =
      (arguments.map some).flatMap argumentBytes ++ rest := by
    rw [← List.drop_drop, hdata, List.drop_left' hcaps]
  obtain ⟨offsets, hread, harguments⟩ := @readArguments_eq
    (page.bytes.drop (12 + capabilities.length * 16)) rest (size - 16 - capabilities.length * 16) 0
    arguments hstrings nonzero (by omega)
  rw [handleProcessSpawnRequest, if_neg (by omega), hargc, hcapc]
  dsimp only
  rw [if_neg (by omega), if_neg (by omega), hread, hstack, hdata, readCapabilities_append,
    BitVec.ofNat_toNat, BitVec.setWidth_eq]
  refine ⟨_, rfl, rfl, rfl, ?_⟩
  rw [Call.arguments, List.map_map, ← harguments]
  apply List.map_congr_left
  intro offset _
  rw [Function.comp_apply, List.drop_drop]

end RoundTrip

/-! ## Messages of any content -/

section AnyMessage

variable {strData : List Byte} {remaining offset : Nat}

theorem skipString_spec : offset ≤ skipString strData remaining offset ∧
    (skipString strData remaining offset < remaining →
      strData.getD (skipString strData remaining offset) 0 = 0) := by
  fun_induction skipString strData remaining offset with
  | case1 offset hmore ih => exact ⟨by omega, ih.2⟩
  | case2 offset hstop =>
    refine ⟨Nat.le_refl offset, fun hlt => ?_⟩
    by_contra hne
    exact hstop ⟨hlt, hne⟩

/-- The next string is refused, or read with the others. -/
theorem readArguments_cases (strData : List Byte) (remaining argc offset : Nat) :
    (∃ code < 0, readArguments strData remaining (argc + 1) offset = .error code) ∨
    skipString strData remaining offset < remaining ∧
      readArguments strData remaining (argc + 1) offset =
        (readArguments strData remaining argc (skipString strData remaining offset + 1)).map
          (offset :: ·) := by
  rw [readArguments]
  split
  · exact Or.inl ⟨-3, by decide, rfl⟩
  dsimp only
  split
  · exact Or.inl ⟨-4, by decide, rfl⟩
  · rename_i hstop
    exact Or.inr ⟨Nat.not_le.mp hstop, rfl⟩

/-- Each argument ends before the end of the data, or the code is negative. -/
theorem readArguments_ends (strData : List Byte) (remaining argc offset : Nat) :
    (∃ code < 0, readArguments strData remaining argc offset = .error code) ∨
    ∃ offsets, readArguments strData remaining argc offset = .ok offsets ∧
      ∀ o ∈ offsets, ∃ stop, o ≤ stop ∧ stop < remaining ∧ strData.getD stop 0 = 0 := by
  induction argc generalizing offset with
  | zero => exact Or.inr ⟨[], rfl, nofun⟩
  | succ argc ih =>
    rcases readArguments_cases strData remaining argc offset with hrefused | ⟨hlt, heq⟩
    · exact Or.inl hrefused
    rw [heq]
    rcases ih (skipString strData remaining offset + 1) with
      ⟨code, hcode, hrest⟩ | ⟨others, hrest, hall⟩
    · rw [hrest]
      exact Or.inl ⟨code, hcode, rfl⟩
    · rw [hrest]
      right
      refine ⟨offset :: others, rfl, ?_⟩
      obtain ⟨hle, hzero⟩ := @skipString_spec strData remaining offset
      intro o ho
      rcases List.mem_cons.mp ho with rfl | ho
      · exact ⟨_, hle, hlt, hzero hlt⟩
      · exact hall o ho

/-- Every message is refused, or all its arguments end inside it. -/
theorem handle_any {page : Page} {size : Nat} (fits : size ≤ 4096)
    (createServerProcess : Call → Int) :
    (∃ code < 0, handleProcessSpawnRequest createServerProcess page size = ([], code)) ∨
    ∃ call, handleProcessSpawnRequest createServerProcess page size =
        ([call], createServerProcess call) ∧
      ∀ place ∈ call.argv, ∃ stop, place ≤ stop ∧ stop < size ∧ page.bytes[stop]? = some 0 := by
  rw [handleProcessSpawnRequest]
  split
  · exact Or.inl ⟨-1, by decide, rfl⟩
  rename_i hsize
  dsimp only
  split
  · exact Or.inl ⟨-10, by decide, rfl⟩
  split
  · exact Or.inl ⟨-2, by decide, rfl⟩
  rename_i hcapabilities
  generalize page.number 10 2 = capc at hcapabilities ⊢
  rcases readArguments_ends (page.bytes.drop (12 + capc * 16)) (size - 16 - capc * 16)
    (page.number 8 2) 0 with ⟨code, hcode, hread⟩ | ⟨offsets, hread, hall⟩
  · rw [hread]
    exact Or.inl ⟨code, hcode, rfl⟩
  · rw [hread]
    right
    refine ⟨_, rfl, ?_⟩
    intro place hplace
    obtain ⟨offset, hoffset, rfl⟩ := List.mem_map.mp hplace
    obtain ⟨stop, hle, hlt, hzero⟩ := hall offset hoffset
    have hinside : 12 + capc * 16 + stop < page.bytes.length := by
      rw [page.full]
      omega
    refine ⟨12 + capc * 16 + stop, by omega, by omega, ?_⟩
    rw [List.getD_eq_getElem?_getD, List.getElem?_drop, List.getElem?_eq_getElem hinside,
      Option.getD_some] at hzero
    rw [List.getElem?_eq_getElem hinside, hzero]

end AnyMessage

/-- A request that is not too large is carried out once, as it was made; and a message of any
content is refused, or its arguments end inside it. -/
theorem spawn_request_round_trip (createServerProcess : Call → Int) :
    (∀ ipcBuffer stackSize capabilities arguments page size,
      capabilities.length ≤ 32 → arguments.length ≤ 64 → (∀ argument ∈ arguments, 0 ∉ argument) →
      spawnMessage ipcBuffer stackSize capabilities (arguments.map some) = some (page, size) →
      ∃ call, handleProcessSpawnRequest createServerProcess page size =
          ([call], createServerProcess call) ∧
        call.stackSize = stackSize ∧ call.capabilities = capabilities ∧
        call.arguments page = arguments ∧
        spawnProcessViaSystem
            (some fun page size => (handleProcessSpawnRequest createServerProcess page size).2)
            ipcBuffer stackSize capabilities (arguments.map some) = createServerProcess call) ∧
    ∀ page size, size ≤ 4096 →
      (∃ code < 0, handleProcessSpawnRequest createServerProcess page size = ([], code)) ∨
      ∃ call, handleProcessSpawnRequest createServerProcess page size =
          ([call], createServerProcess call) ∧
        ∀ place ∈ call.argv, ∃ stop, place ≤ stop ∧ stop < size ∧ page.bytes[stop]? = some 0 := by
  constructor
  · intro _ _ _ _ _ _ capc argc nonzero sent
    obtain ⟨call, hcall, hstack, hcapabilities, harguments⟩ :=
      handle_spawnMessage capc argc nonzero sent createServerProcess
    refine ⟨call, hcall, hstack, hcapabilities, harguments, ?_⟩
    rw [spawnProcessViaSystem, sent]
    dsimp only
    rw [hcall]
  · intro _ _ fits
    exact handle_any fits createServerProcess

/-- One capability, and two arguments of which the second is empty. -/
theorem spawn_request_round_trip_empty_argument :
    ∃ page size call,
      spawnMessage ⟨List.replicate 4096 0xff, List.length_replicate⟩ 0x100000 [⟨3, 5⟩]
        [some [0x61], some []] = some (page, size) ∧
      handleProcessSpawnRequest (fun _ => 7) page size = ([call], 7) ∧
      call.stackSize = 0x100000 ∧ call.capabilities = [⟨3, 5⟩] ∧
      call.arguments page = [[0x61], []] := by
  obtain ⟨page, size, hsent⟩ : ∃ page size, spawnMessage
      ⟨List.replicate 4096 0xff, List.length_replicate⟩ 0x100000 [⟨3, 5⟩]
        [some [0x61], some []] = some (page, size) := ⟨_, _, rfl⟩
  obtain ⟨call, hcall, hstack, hcapabilities, harguments, -⟩ :=
    (spawn_request_round_trip fun _ => 7).1 _ 0x100000 [⟨3, 5⟩] [[0x61], []] page size (by decide)
      (by decide) (by decide) hsent
  exact ⟨page, size, call, hsent, hcall, hstack, hcapabilities, harguments⟩

end SpawnRequest
