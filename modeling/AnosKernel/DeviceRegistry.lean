import AnosKernel.MessagePage

/-!
# The device registry and its queries

`register_device`, `unregister_device`, `query_devices` and `handle_device_message` of
`servers/devman/main.c`, and their client `query_storage_devices` of `system/main.c`. Records are
their bytes, at the offsets of `servers/common/device_types.h`.
-/

namespace DeviceRegistry

open Bytes MessagePage

/-- The 136 bytes of a `DeviceInfo`. -/
structure DeviceInfo where
  bytes : List Byte
  size : bytes.length = 136

def DeviceInfo.deviceId (info : DeviceInfo) : Nat := ofBytes (slice 0 8 info.bytes)

def DeviceInfo.parentId (info : DeviceInfo) : Nat := ofBytes (slice 8 8 info.bytes)

def DeviceInfo.deviceType (info : DeviceInfo) : Nat := ofBytes (slice 16 4 info.bytes)

def DeviceInfo.withDeviceId (info : DeviceInfo) (id : BitVec 64) : DeviceInfo where
  bytes := patch info.bytes 0 (toBytes 8 id.toNat)
  size := by
    rw [length_patch, info.size]
    rw [length_toBytes, info.size]
    decide

/-! ## DEVMAN -/

def maxDevices : Nat := 256

structure Registry where
  devices : List DeviceInfo
  nextDeviceId : BitVec 64

def registerDevice (registry : Registry) (info : DeviceInfo) : Registry × BitVec 64 :=
  if registry.devices.length ≥ maxDevices then (registry, 0)
  else
    let deviceId := registry.nextDeviceId
    ({ devices := registry.devices ++ [info.withDeviceId deviceId], nextDeviceId := deviceId + 1 },
      deviceId)

/-- The last device moves to the slot of the one that goes. -/
def unregisterDevice (registry : Registry) (deviceId : Nat) : Registry × Bool :=
  match registry.devices.findIdx? fun info => info.deviceId = deviceId,
    registry.devices.getLast? with
  | some i, some last =>
    ({ registry with devices := (registry.devices.set i last).dropLast }, true)
  | _, _ => (registry, false)

inductive QueryType where
  | byType
  | byId
  | all
  | children

def QueryType.ofNat : Nat → Option QueryType
  | 1 => some .byType
  | 2 => some .byId
  | 3 => some .all
  | 4 => some .children
  | _ => none

def matchesQuery (queryType : Option QueryType) (deviceType targetId : Nat) (info : DeviceInfo) :
    Bool :=
  match queryType with
  | some .all => true
  | some .byType => info.deviceType = deviceType
  | some .byId => info.deviceId = targetId
  | some .children => info.parentId = targetId
  | none => false

def queryDevices (queryType : Option QueryType) (deviceType targetId : Nat) :
    List DeviceInfo → Nat → List DeviceInfo
  | [], _ => []
  | _, 0 => []
  | info :: devices, max + 1 =>
    if matchesQuery queryType deviceType targetId info then
      info :: queryDevices queryType deviceType targetId devices max
    else queryDevices queryType deviceType targetId devices (max + 1)

/-- The bytes of devices, one after another. -/
def records (devices : List DeviceInfo) : List Byte := devices.flatMap DeviceInfo.bytes

/-- The bytes of a `DeviceQueryResponse`. -/
def response (found : List DeviceInfo) : List Byte :=
  toBytes 4 found.length ++ toBytes 4 0 ++ records found

theorem records_cons (info : DeviceInfo) (devices : List DeviceInfo) :
    records (info :: devices) = info.bytes ++ records devices := List.flatMap_cons

theorem length_records (devices : List DeviceInfo) :
    (records devices).length = devices.length * 136 := by
  induction devices with
  | nil => rfl
  | cons info devices ih =>
    rw [records_cons, List.length_append, info.size, ih, List.length_cons]
    omega

theorem length_response (found : List DeviceInfo) :
    (response found).length = 8 + found.length * 136 := by
  rw [response, List.length_append, List.length_append, length_toBytes, length_toBytes,
    length_records]

/-- The page and the reply to a query: the devices and the size of the answer, or only their number
where they do not fit. -/
def answerQuery (page : Page) (found : List DeviceInfo) : Page × BitVec 64 :=
  if found.length > 0 then
    let requiredSize := 8 + found.length * 136
    if fits : requiredSize ≤ 4096 then
      (page.write 0 (response found) (by rw [length_response]; omega), BitVec.ofNat 64 requiredSize)
    else (page, BitVec.ofNat 64 found.length)
  else (page, 0)

/-- The registry, the page and the reply after a message of `size` bytes. -/
def handleDeviceMessage (registry : Registry) (page : Page) (size : Nat) :
    Registry × Page × BitVec 64 :=
  if size < 4 then (registry, page, 0)
  else
    match page.number 0 4 with
    | 1 => -- DEVICE_MSG_REGISTER
      if size ≥ 12 ∧ page.number 8 4 > 0 ∧ size ≥ 12 + 136 then
        let info : DeviceInfo := ⟨slice 12 136 page.bytes, length_slice (by rw [page.full]; decide)⟩
        let (registry, deviceId) := registerDevice registry info
        (registry, page, deviceId)
      else (registry, page, 0)
    | 2 => -- DEVICE_MSG_UNREGISTER
      if size ≥ 16 then
        let (registry, success) := unregisterDevice registry (page.number 4 8)
        (registry, page, if success then 1 else 0)
      else (registry, page, 0)
    | 3 => -- DEVICE_MSG_QUERY
      if size ≥ 24 then
        let found := queryDevices (QueryType.ofNat (page.number 4 4)) (page.number 8 4)
          (page.number 16 8) registry.devices maxDevices
        (registry, answerQuery page found)
      else (registry, page, 0)
    | _ => (registry, page, 0)

/-! ## The client -/

/-- The bytes of the query; the four bytes after `device_type` are not set. -/
def writeQuery (queryBuffer : Page) : Page :=
  ((((queryBuffer.write 0 (toBytes 4 3) (by simp)).write 4 (toBytes 4 1) (by simp)).write 8
    (toBytes 4 3) (by simp)).write 16 (toBytes 8 0) (by simp))

/-- The count that is returned, and the bytes that are copied to `devices_out`. -/
def readResponse (page : Page) (value : BitVec 64) (maxDevices : BitVec 32) : Nat × List Byte :=
  if value.toNat > 0 ∧ value.toNat > 8 then
    let deviceCount := page.number 0 4
    let errorCode := page.number 4 4
    if deviceCount > 0 ∧ errorCode = 0 then
      let count := if deviceCount > maxDevices.toNat then maxDevices.toNat else deviceCount
      (count, slice 8 (count * 136) page.bytes)
    else (0, [])
  else (0, [])

/-- `query_storage_devices`, with its buffer as an earlier query left it. -/
def queryStorageDevices (registry : Registry) (queryBuffer : Page) (maxDevices : BitVec 32) :
    Nat × List Byte :=
  let (_, page, value) := handleDeviceMessage registry (writeQuery queryBuffer) 24
  readResponse page value maxDevices

/-! ## What a query is for -/

/-- The storage devices, in the order of the registry. -/
def storageDevices (registry : Registry) : List DeviceInfo :=
  registry.devices.filter fun info => info.deviceType = 3

section Queries

variable {registry : Registry} {page queryBuffer : Page} {maxDevices : BitVec 32}

theorem queryDevices_eq (queryType : Option QueryType) (deviceType targetId : Nat)
    (devices : List DeviceInfo) (max : Nat) :
    queryDevices queryType deviceType targetId devices max =
      (devices.filter (matchesQuery queryType deviceType targetId)).take max := by
  induction devices generalizing max with
  | nil => rw [queryDevices, List.filter_nil, List.take_nil]
  | cons info devices ih =>
    cases max with
    | zero => rfl
    | succ max =>
      rw [queryDevices]
      split
      · rename_i hmatch
        rw [List.filter_cons_of_pos hmatch, List.take_succ_cons, ih]
      · rename_i hmatch
        rw [List.filter_cons_of_neg hmatch, ih]

theorem records_take (devices : List DeviceInfo) (count : Nat) :
    (records devices).take (count * 136) = records (devices.take count) := by
  induction devices generalizing count with
  | nil => rw [List.take_nil, records, List.flatMap_nil, List.take_nil]
  | cons info devices ih =>
    cases count with
    | zero => rw [Nat.zero_mul, List.take_zero, List.take_zero, records, List.flatMap_nil]
    | succ count =>
      rw [records_cons, List.take_succ_cons, records_cons, List.take_append, info.size,
        List.take_of_length_le (by rw [info.size]; omega), Nat.succ_mul, Nat.add_sub_cancel, ih]

theorem writeQuery_numbers :
    (writeQuery queryBuffer).number 0 4 = 3 ∧ (writeQuery queryBuffer).number 4 4 = 1 ∧
      (writeQuery queryBuffer).number 8 4 = 3 := by
  rw [writeQuery]
  refine ⟨?_, ?_, ?_⟩
  · rw [Page.number_write_before _ (by decide), Page.number_write_before _ (by decide),
      Page.number_write_before _ (by decide), Page.number_write _ (by decide)]
  · rw [Page.number_write_before _ (by decide), Page.number_write_before _ (by decide),
      Page.number_write _ (by decide)]
  · rw [Page.number_write_before _ (by decide), Page.number_write _ (by decide)]

/-- What the client finds in the page that the server has filled. -/
theorem readResponse_response {found : List DeviceInfo} (small : found.length ≤ 30)
    (some : 0 < found.length) (fits : 0 + (response found).length ≤ 4096) :
    readResponse (page.write 0 (response found) fits) (BitVec.ofNat 64 (8 + found.length * 136))
        maxDevices =
      (min maxDevices.toNat found.length,
        records (found.take (min maxDevices.toNat found.length))) := by
  have hinside : ∀ {o n : Nat}, o + n ≤ (response found).length →
      slice o n (page.write 0 (response found) fits).bytes = slice o n (response found) := by
    intro o n h
    rw [Page.write, slice_patch_inside (Nat.zero_le o) (by omega) (Nat.zero_le _), Nat.sub_zero]
  have hlength := length_response found
  have hcount : (page.write 0 (response found) fits).number 0 4 = found.length := by
    rw [Page.number, hinside (by omega), response, List.append_assoc, slice, List.drop_zero,
      List.take_left' length_toBytes, ofBytes_toBytes (by omega)]
  have herror : (page.write 0 (response found) fits).number 4 4 = 0 := by
    rw [Page.number, hinside (by omega), response, List.append_assoc, slice,
      List.drop_left' length_toBytes, List.take_left' length_toBytes, ofBytes_toBytes (by decide)]
  have hvalue : (BitVec.ofNat 64 (8 + found.length * 136)).toNat = 8 + found.length * 136 := by
    rw [BitVec.toNat_ofNat, Nat.mod_eq_of_lt (by omega)]
  have hmin : (if found.length > maxDevices.toNat then maxDevices.toNat else found.length) =
      min maxDevices.toNat found.length := by
    split <;> omega
  have hdata : ∀ {k : Nat}, k ≤ found.length → slice 8 (k * 136) (response found) =
      records (found.take k) := by
    intro k hk
    have hheader : (toBytes 4 found.length ++ toBytes 4 0).length = 8 := by
      rw [List.length_append, length_toBytes, length_toBytes]
    rw [response, slice, List.drop_left' hheader, records_take]
  rw [readResponse, hvalue, if_pos (by omega)]
  dsimp only
  rw [hcount, herror, if_pos ⟨some, rfl⟩, hmin, hinside (by omega), hdata (by omega)]

/-- The client's query is answered with the storage devices. -/
theorem queryStorageDevices_eq (room : registry.devices.length ≤ 256) :
    queryStorageDevices registry queryBuffer maxDevices =
      readResponse (answerQuery (writeQuery queryBuffer) (storageDevices registry)).1
        (answerQuery (writeQuery queryBuffer) (storageDevices registry)).2 maxDevices := by
  obtain ⟨hmessage, hquery, htype⟩ := @writeQuery_numbers queryBuffer
  have hfound : ∀ targetId, queryDevices (QueryType.ofNat 1) 3 targetId registry.devices 256 =
      storageDevices registry := by
    intro targetId
    rw [queryDevices_eq]
    exact List.take_of_length_le (Nat.le_trans (List.length_filter_le _ _) room)
  rw [queryStorageDevices, handleDeviceMessage, if_neg (by decide), hmessage, hquery, htype,
    DeviceRegistry.maxDevices, hfound]
  rfl

/-- A storage device whose other fields are 0. -/
def plainStorage : DeviceInfo where
  bytes := patch (List.replicate 136 0) 16 (toBytes 4 3)
  size := (length_patch (by simp)).trans List.length_replicate

end Queries

end DeviceRegistry
