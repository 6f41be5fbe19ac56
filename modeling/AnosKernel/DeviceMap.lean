import AnosKernel.DeviceRegistry
import AnosKernel.Lib.Keyed

/-!
# The device registry as a map

Any sequence of `register_device` and `unregister_device` refines a finite map from ids to devices.
The two copies of the functions, in `servers/devman/main.c` and `device_registry.c`, are the same.
-/

namespace DeviceRegistry

open Bytes Keyed

/-! ## Calls -/

inductive Call where
  /-- None is a NULL pointer. -/
  | register (info : Option DeviceInfo)
  | unregister (deviceId : BitVec 64)

inductive Answer where
  | deviceId (id : BitVec 64)
  | removed (ok : Bool)

def call (registry : Registry) : Call → Registry × Answer
  | .register none => (registry, .deviceId 0)
  | .register (some info) =>
    let (registry, id) := registerDevice registry info
    (registry, .deviceId id)
  | .unregister deviceId =>
    let (registry, ok) := unregisterDevice registry deviceId.toNat
    (registry, .removed ok)

def after (registry : Registry) (calls : List Call) : Registry :=
  calls.foldl (fun registry c => (call registry c).1) registry

/-- The calls with their answers. -/
def trace (registry : Registry) : List Call → List (Call × Answer)
  | [] => []
  | c :: calls => (c, (call registry c).2) :: trace (call registry c).1 calls

/-- How many devices the call registers. -/
def registered (registry : Registry) : Call → Nat
  | .register none => 0
  | .register (some _) => if registry.devices.length < maxDevices then 1 else 0
  | .unregister _ => 0

/-- How many devices are registered, one after another. -/
def registrations (registry : Registry) : List Call → Nat
  | [] => 0
  | c :: calls => registered registry c + registrations (call registry c).1 calls

/-! ## The map -/

/-- The devices by their ids, and the ids that were ever given. -/
structure DeviceMap where
  device : Nat → Option DeviceInfo
  given : List Nat

def DeviceMap.empty : DeviceMap := ⟨fun _ => none, []⟩

/-- As many devices as there may be. -/
def DeviceMap.Full (m : DeviceMap) : Prop := {id | m.device id ≠ none}.ncard = maxDevices

/-- What a call does to the map, with its answer. -/
inductive MapStep : DeviceMap → Call → Answer → DeviceMap → Prop
  | null (m : DeviceMap) : MapStep m (.register none) (.deviceId 0) m
  | full (m : DeviceMap) (info : DeviceInfo) (full : m.Full) :
      MapStep m (.register (some info)) (.deviceId 0) m
  | register (m : DeviceMap) (info : DeviceInfo) (id : BitVec 64) (room : ¬ m.Full)
      (nonzero : id ≠ 0) (fresh : id.toNat ∉ m.given) :
      MapStep m (.register (some info)) (.deviceId id)
        ⟨Function.update m.device id.toNat (some (info.withDeviceId id)), id.toNat :: m.given⟩
  | absent (m : DeviceMap) (id : BitVec 64) (absent : m.device id.toNat = none) :
      MapStep m (.unregister id) (.removed false) m
  | unregister (m : DeviceMap) (id : BitVec 64) (present : m.device id.toNat ≠ none) :
      MapStep m (.unregister id) (.removed true)
        { m with device := Function.update m.device id.toNat none }

inductive MapRun : DeviceMap → List (Call × Answer) → DeviceMap → Prop
  | done (m : DeviceMap) : MapRun m [] m
  | step {m m' m'' : DeviceMap} {c : Call} {answer : Answer} {rest : List (Call × Answer)}
      (first : MapStep m c answer m') (run : MapRun m' rest m'') :
      MapRun m ((c, answer) :: rest) m''

/-- The registry is the map: distinct ids that are not 0, and the records of the map. -/
structure Represents (m : DeviceMap) (registry : Registry) : Prop where
  distinct : Distinct DeviceInfo.deviceId registry.devices
  nonzero : ∀ info ∈ registry.devices, info.deviceId ≠ 0
  device : m.device = lookup DeviceInfo.deviceId registry.devices
  room : registry.devices.length ≤ maxDevices
  given : ∀ info ∈ registry.devices, info.deviceId ∈ m.given

section Registry

variable {m : DeviceMap} {registry : Registry} {info : DeviceInfo} {id : BitVec 64}

theorem deviceId_withDeviceId (info : DeviceInfo) (id : BitVec 64) :
    (info.withDeviceId id).deviceId = id.toNat := by
  have hslice := @slice_patch _ info.bytes (toBytes 8 id.toNat) 0 (Nat.zero_le _)
  rw [length_toBytes] at hslice
  rw [DeviceInfo.deviceId, DeviceInfo.withDeviceId]
  dsimp only
  rw [hslice]
  exact ofBytes_toBytes id.isLt

theorem Represents.full_iff (represents : Represents m registry) :
    m.Full ↔ registry.devices.length ≥ maxDevices := by
  rw [DeviceMap.Full, represents.device, ncard_present represents.distinct]
  exact ⟨fun h => h.ge, fun h => le_antisymm represents.room h⟩

/-- The next id counts the ids that were given. -/
structure Counted (m : DeviceMap) (registry : Registry) : Prop where
  next : registry.nextDeviceId = BitVec.ofNat 64 (m.given.length + 1)
  given_le : ∀ id ∈ m.given, id ≤ m.given.length

theorem register_step (represents : Represents m registry) (counted : Counted m registry)
    (info : DeviceInfo) (room : registry.devices.length < maxDevices)
    (few : m.given.length + 1 < 2 ^ 64) :
    ∃ m', MapStep m (.register (some info)) (.deviceId registry.nextDeviceId) m' ∧
      Represents m' (registerDevice registry info).1 ∧
      Counted m' (registerDevice registry info).1 ∧ m'.given.length = m.given.length + 1 := by
  have hid : registry.nextDeviceId.toNat = m.given.length + 1 := by
    rw [counted.next, BitVec.toNat_ofNat, Nat.mod_eq_of_lt few]
  have hfresh : registry.nextDeviceId.toNat ∉ m.given := by
    intro hmem
    have hle := counted.given_le _ hmem
    omega
  have hnonzero : registry.nextDeviceId ≠ 0 := by
    intro hzero
    rw [hzero] at hid
    exact absurd hid (by simp)
  have hkey := deviceId_withDeviceId info registry.nextDeviceId
  have hnew : (info.withDeviceId registry.nextDeviceId).deviceId ∉
      registry.devices.map DeviceInfo.deviceId := by
    rw [hkey]
    intro hmem
    obtain ⟨old, hold, heq⟩ := List.mem_map.mp hmem
    exact hfresh (heq ▸ represents.given old hold)
  rw [registerDevice, if_neg (Nat.not_le.mpr room)]
  refine ⟨_, .register m info registry.nextDeviceId ?_ hnonzero hfresh, ?_, ?_, rfl⟩
  · rw [represents.full_iff]
    exact Nat.not_le.mpr room
  · constructor
    · exact represents.distinct.append_one hnew
    · intro old hold
      rcases List.mem_append.mp hold with hold | hold
      · exact represents.nonzero old hold
      · rw [List.mem_singleton.mp hold, hkey, hid]
        exact Nat.succ_ne_zero _
    · rw [lookup_append_one represents.distinct hnew, hkey, represents.device]
    · rw [List.length_append]
      exact room
    · intro old hold
      rcases List.mem_append.mp hold with hold | hold
      · exact List.mem_cons_of_mem _ (represents.given old hold)
      · rw [List.mem_singleton.mp hold, hkey]
        exact List.mem_cons_self
  · constructor
    · rw [counted.next]
      exact (BitVec.ofNat_add _ 1).symm
    · intro old hold
      rw [List.length_cons]
      rcases List.mem_cons.mp hold with rfl | hold
      · exact hid.le
      · exact Nat.le_succ_of_le (counted.given_le old hold)

/-- The last record is in the place of the one that went. -/
theorem unregisterDevice_cases (registry : Registry) (deviceId : Nat) :
    (lookup DeviceInfo.deviceId registry.devices deviceId = none ∧
      unregisterDevice registry deviceId = (registry, false)) ∨
    ∃ info devices, info.deviceId = deviceId ∧ registry.devices.Perm (info :: devices) ∧
      unregisterDevice registry deviceId = ({ registry with devices := devices }, true) := by
  rw [unregisterDevice]
  cases hfind : registry.devices.findIdx? fun info => info.deviceId = deviceId with
  | none =>
    left
    refine ⟨lookup_eq_none.mpr ?_, rfl⟩
    intro hmem
    obtain ⟨info, hinfo, hid⟩ := List.mem_map.mp hmem
    exact absurd hid (of_decide_eq_false (List.findIdx?_eq_none_iff.mp hfind info hinfo))
  | some i =>
    right
    obtain ⟨hi, hid, -⟩ := List.findIdx?_eq_some_iff_getElem.mp hfind
    cases hlast : registry.devices.getLast? with
    | none =>
      rw [List.getLast?_eq_none_iff.mp hlast] at hi
      exact absurd hi (Nat.not_lt_zero i)
    | some last =>
      exact ⟨registry.devices[i], _, of_decide_eq_true hid, swapRemove_perm hi hlast, rfl⟩

/-- What one call does, of which the last id may be used up. -/
theorem call_step (represents : Represents m registry) (counted : Counted m registry) (c : Call)
    (few : m.given.length + registered registry c < 2 ^ 64) :
    ∃ m', MapStep m c (call registry c).2 m' ∧ Represents m' (call registry c).1 ∧
      Counted m' (call registry c).1 ∧ m'.given.length = m.given.length + registered registry c := by
  cases c with
  | register info =>
    cases info with
    | none => exact ⟨m, .null m, represents, counted, rfl⟩
    | some info =>
      by_cases hroom : registry.devices.length < maxDevices
      · rw [registered, if_pos hroom] at few ⊢
        have hanswer : (call registry (.register (some info))).2 =
            .deviceId registry.nextDeviceId := by
          rw [call, registerDevice, if_neg (Nat.not_le.mpr hroom)]
        rw [hanswer]
        exact register_step represents counted info hroom few
      · have hfull := represents.full_iff.mpr (Nat.le_of_not_lt hroom)
        rw [registered, if_neg hroom, call, registerDevice, if_pos (Nat.le_of_not_lt hroom)]
        exact ⟨m, .full m info hfull, represents, counted, rfl⟩
  | unregister id =>
    rw [call]
    rcases unregisterDevice_cases registry id.toNat with
      ⟨habsent, heq⟩ | ⟨info, devices, hid, hperm, heq⟩
    · rw [heq]
      exact ⟨m, .absent m id (by rw [represents.device]; exact habsent), represents, counted, rfl⟩
    · rw [heq]
      have hdistinct : Distinct DeviceInfo.deviceId devices :=
        (represents.distinct.perm hperm).sublist (List.sublist_cons_self info devices)
      have hold : ∀ old ∈ devices, old ∈ registry.devices :=
        fun old h => hperm.mem_iff.mpr (List.mem_cons_of_mem info h)
      have hpresent : m.device id.toNat ≠ none := by
        rw [represents.device, ← hid, ne_eq, lookup_eq_none, not_not]
        exact List.mem_map_of_mem (hperm.mem_iff.mpr List.mem_cons_self)
      refine ⟨_, .unregister m id hpresent, ?_, ⟨counted.next, counted.given_le⟩, rfl⟩
      constructor
      · exact hdistinct
      · exact fun old h => represents.nonzero old (hold old h)
      · rw [lookup_removed represents.distinct hperm, hid, represents.device]
      · have hlength := hperm.length_eq
        have hroom := represents.room
        rw [List.length_cons] at hlength
        dsimp only
        omega
      · exact fun old h => represents.given old (hold old h)

theorem run_steps (represents : Represents m registry) (counted : Counted m registry)
    (calls : List Call) (few : m.given.length + registrations registry calls < 2 ^ 64) :
    ∃ m', MapRun m (trace registry calls) m' ∧ Represents m' (after registry calls) := by
  induction calls generalizing m registry with
  | nil => exact ⟨m, .done m, represents⟩
  | cons c calls ih =>
    rw [registrations] at few
    obtain ⟨m₁, hfirst, hrepresents, hcounted, hlength⟩ :=
      call_step represents counted c (by omega)
    obtain ⟨m', hrun, hafter⟩ := ih hrepresents hcounted (by omega)
    exact ⟨m', .step hfirst hrun, hafter⟩

end Registry

def emptyRegistry : Registry := ⟨[], 1⟩

theorem represents_empty : Represents DeviceMap.empty emptyRegistry :=
  ⟨List.nodup_nil, fun _ h => absurd h List.not_mem_nil, rfl, Nat.zero_le _,
    fun _ h => absurd h List.not_mem_nil⟩

/-- A run of fewer than `2 ^ 64` registrations is one of the map; a refused registration changes
nothing; and a query returns the first of the devices that match. -/
theorem registry_refines_map (calls : List Call)
    (few : registrations emptyRegistry calls < 2 ^ 64) :
    ∃ m, MapRun DeviceMap.empty (trace emptyRegistry calls) m ∧
      Represents m (after emptyRegistry calls) ∧
      (∀ info : Option DeviceInfo, info = none ∨ m.Full →
        call (after emptyRegistry calls) (.register info) =
          (after emptyRegistry calls, .deviceId 0)) ∧
      ∀ queryType deviceType targetId maxResults,
        queryDevices queryType deviceType targetId (after emptyRegistry calls).devices maxResults =
            ((after emptyRegistry calls).devices.filter
              (matchesQuery queryType deviceType targetId)).take maxResults ∧
          Distinct DeviceInfo.deviceId
            (queryDevices queryType deviceType targetId (after emptyRegistry calls).devices
              maxResults) := by
  have hcounted : Counted DeviceMap.empty emptyRegistry :=
    ⟨rfl, fun _ h => absurd h List.not_mem_nil⟩
  obtain ⟨m, hrun, hrepresents⟩ := run_steps represents_empty hcounted calls (by
    rw [DeviceMap.empty, List.length_nil, Nat.zero_add]
    exact few)
  refine ⟨m, hrun, hrepresents, ?_, ?_⟩
  · rintro (_ | info) hrefused
    · rfl
    · have hfull := hrepresents.full_iff.mp (hrefused.resolve_left (Option.some_ne_none info))
      rw [call, registerDevice, if_pos hfull]
  · intro queryType deviceType targetId maxResults
    rw [queryDevices_eq]
    exact ⟨rfl, hrepresents.distinct.sublist
      ((List.take_sublist _ _).trans List.filter_sublist)⟩

/-- A storage device comes and goes. -/
theorem registry_refines_map_storage :
    ∃ m, MapRun DeviceMap.empty
        (trace emptyRegistry [.register (some plainStorage), .unregister 1]) m ∧
      Represents m (after emptyRegistry [.register (some plainStorage), .unregister 1]) ∧
      (∀ info : Option DeviceInfo, info = none ∨ m.Full →
        call (after emptyRegistry [.register (some plainStorage), .unregister 1]) (.register info) =
          (after emptyRegistry [.register (some plainStorage), .unregister 1], .deviceId 0)) ∧
      ∀ queryType deviceType targetId maxResults,
        queryDevices queryType deviceType targetId
            (after emptyRegistry [.register (some plainStorage), .unregister 1]).devices
            maxResults =
            ((after emptyRegistry [.register (some plainStorage), .unregister 1]).devices.filter
              (matchesQuery queryType deviceType targetId)).take maxResults ∧
          Distinct DeviceInfo.deviceId (queryDevices queryType deviceType targetId
            (after emptyRegistry [.register (some plainStorage), .unregister 1]).devices
            maxResults) :=
  registry_refines_map [.register (some plainStorage), .unregister 1]
    (lt_of_le_of_lt (show _ ≤ 1 from Nat.le_refl 1) (by decide))

/-! ## The ids wrap around -/

/-- A device is registered and unregistered, again and again. -/
def rounds (n : Nat) : List Call := (List.range n).flatMap fun k =>
  [.register (some plainStorage), .unregister (BitVec.ofNat 64 (k + 1))]

theorem unregisterDevice_only (info : DeviceInfo) (next : BitVec 64) :
    unregisterDevice ⟨[info], next⟩ info.deviceId = (⟨[], next⟩, true) := by
  rw [unregisterDevice]
  simp

theorem after_append (registry : Registry) (calls calls' : List Call) :
    after registry (calls ++ calls') = after (after registry calls) calls' :=
  List.foldl_append

theorem after_rounds (n : Nat) :
    after emptyRegistry (rounds n) = ⟨[], BitVec.ofNat 64 (n + 1)⟩ := by
  induction n with
  | zero => rfl
  | succ n ih =>
    have hregister : registerDevice ⟨[], BitVec.ofNat 64 (n + 1)⟩ plainStorage =
        (⟨[plainStorage.withDeviceId (BitVec.ofNat 64 (n + 1))], BitVec.ofNat 64 (n + 1) + 1⟩,
          BitVec.ofNat 64 (n + 1)) := rfl
    have hremove := unregisterDevice_only
      (plainStorage.withDeviceId (BitVec.ofNat 64 (n + 1))) (BitVec.ofNat 64 (n + 1) + 1)
    rw [deviceId_withDeviceId] at hremove
    rw [rounds, List.range_succ, List.flatMap_append, after_append, ← rounds, ih,
      List.flatMap_singleton, after, List.foldl_cons, List.foldl_cons, List.foldl_nil, call]
    dsimp only
    rw [hregister, call]
    dsimp only
    rw [hremove]
    exact congrArg _ (BitVec.ofNat_add (n + 1) 1).symm

/-- The id after `2 ^ 64 - 1` registrations is 0, which is no id. -/
theorem id_wraps_to_zero :
    ∃ info ∈ (after emptyRegistry
      (rounds (2 ^ 64 - 1) ++ [.register (some plainStorage)])).devices, info.deviceId = 0 := by
  rw [after_append, after_rounds]
  refine ⟨plainStorage.withDeviceId (BitVec.ofNat 64 (2 ^ 64 - 1 + 1)), List.mem_singleton.mpr rfl, ?_⟩
  rw [deviceId_withDeviceId]
  rfl

end DeviceRegistry
