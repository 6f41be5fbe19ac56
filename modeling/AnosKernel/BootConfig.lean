import AnosKernel.InitialStack
import AnosKernel.Lib.Checked

/-!
# The boot configuration

`process_config` and `process_boot_servers` of `system/config.c`, with what they read from the
document. The document is what `json_loads` gives for it.
-/

namespace BootConfig

open Bytes Checked CStrings MessagePage SpawnRequest InitialStack

/-! ## The document -/

def text (s : String) : List Byte := s.toList.map fun c => BitVec.ofNat 8 c.toNat

inductive Json where
  | null
  | boolean (value : Bool)
  | integer (value : BitVec 64)
  | real
  | string (value : List Byte)
  | array (items : List Json)
  | object (fields : List (List Byte × Json))

/-- `json_object_get`, which finds nothing in other values. -/
def Json.get (json : Json) (key : List Byte) : Option Json :=
  match json with
  | object fields => (fields.find? (·.1 = key)).map Prod.snd
  | _ => none

def string? : Option Json → Option (List Byte)
  | some (.string value) => some value
  | _ => none

def integer? : Option Json → Option (BitVec 64)
  | some (.integer value) => some value
  | _ => none

/-- The items of an array; other values have none. -/
def items : Option Json → List Json
  | some (.array items) => items
  | _ => []

def nameKey : List Byte := text "name"
def pathKey : List Byte := text "path"
def stackSizeKey : List Byte := text "stack_size"
def classKey : List Byte := text "class"
def capsKey : List Byte := text "capabilities"
def bootServersKey : List Byte := text "boot_servers"
def argsKey : List Byte := text "arguments"

def syscallIdentifiers : List (List Byte) :=
  ["SYSCALL_DEBUG_PRINT", "SYSCALL_DEBUG_CHAR", "SYSCALL_CREATE_THREAD", "SYSCALL_MEMSTATS",
    "SYSCALL_SLEEP", "SYSCALL_CREATE_PROCESS", "SYSCALL_MAP_VIRTUAL", "SYSCALL_SEND_MESSAGE",
    "SYSCALL_RECV_MESSAGE", "SYSCALL_REPLY_MESSAGE", "SYSCALL_CREATE_CHANNEL",
    "SYSCALL_DESTROY_CHANNEL", "SYSCALL_REGISTER_NAMED_CHANNEL",
    "SYSCALL_DEREGISTER_NAMED_CHANNEL", "SYSCALL_FIND_NAMED_CHANNEL", "SYSCALL_KILL_CURRENT_TASK",
    "SYSCALL_UNMAP_VIRTUAL", "SYSCALL_CREATE_REGION", "SYSCALL_DESTROY_REGION",
    "SYSCALL_MAP_FIRMWARE_TABLES", "SYSCALL_MAP_PHYSICAL", "SYSCALL_ALLOC_PHYSICAL_PAGES",
    "SYSCALL_ALLOC_INTERRUPT_VECTOR", "SYSCALL_WAIT_INTERRUPT", "SYSCALL_READ_KERNEL_LOG",
    "SYSCALL_GET_FRAMEBUFFER_PHYS"].map text

def syscallIdEnd : Nat := 27

/-- The first identifier that the string starts with, counted from one; 0 if there is none. -/
def capStrToId (str : List Byte) : Nat :=
  match syscallIdentifiers.findIdx? fun identifier =>
    strncmp (strlen identifier) identifier str with
  | some i => i + 1
  | none => 0

/-- None for -1. -/
def classStrToId (str : List Byte) : Option TaskClass :=
  if strncmp 6 (text "NORMAL") str then some .normal
  else if strncmp 4 (text "HIGH") str then some .high
  else if strncmp 4 (text "IDLE") str then some .idle
  else if strncmp 8 (text "REALTIME") str then some .realtime
  else none

/-! ## The boot servers -/

/-- One round of the loop over the capabilities, with `__syscall_capabilities`. -/
def capability (cookies : Nat → BitVec 64) (cap : Json) : Option InitCapability :=
  match string? (some cap) with
  | none => none
  | some str =>
    let capId := capStrToId str
    if capId = 0 ∨ capId ≥ syscallIdEnd then none
    else some ⟨BitVec.ofNat 64 capId, cookies capId⟩

/-- None where the source returns a null pointer; `memory` says whether there is any. -/
def buildProcessCaps (cookies : Nat → BitVec 64) (memory : Bool) (caps : Option Json) :
    Option (List InitCapability) :=
  if (items caps).length > 0 ∧ memory then (items caps).mapM (capability cookies) else none

def buildProcessArgs (memory : Bool) (args : Option Json) (path : List Byte) :
    Option (List (List Byte)) :=
  if memory then ((items args).mapM fun arg => string? (some arg)).map (path :: ·) else none

/-- What the rest of the system does for one entry. -/
structure Surroundings where
  capsMemory : Bool
  argsMemory : Bool
  calls : SystemCalls

/-- The arguments for an entry; none if it is invalid. The counts are narrowed to 16 bits. -/
def readServer (cookies : Nat → BitVec 64) (around : Surroundings) (server : Json) :
    Option Arguments := do
  let _ ← string? (server.get nameKey)
  let path ← string? (server.get pathKey)
  let className ← string? (server.get classKey)
  let stackSize ← integer? (server.get stackSizeKey)
  let taskClass ← classStrToId className
  let caps := server.get capsKey
  let processCaps := buildProcessCaps cookies around.capsMemory caps
  if (items caps).length > 0 ∧ processCaps.isNone then none
  else
    let args := server.get argsKey
    let processArgs ← buildProcessArgs around.argsMemory args path
    return {
      stackSize := stackSize
      capc := BitVec.ofNat 16 (items caps).length
      capv := processCaps
      argc := BitVec.ofNat 16 ((items args).length + 1)
      argv := processArgs
      taskClass := taskClass }

inductive ProcessConfigResult where
  | ok
  | notFound
  | invalid
  | failure

/-- The result, if there is no fault, and the calls of `create_server_process`, each with whether it
created a process. -/
structure Run where
  result : Option ProcessConfigResult
  calls : List (Arguments × Bool)

/-- The surroundings are those of the entries, in order. -/
def processBootServers (cookies : Nat → BitVec 64) : (Nat → Surroundings) → List Json → Run
  | _, [] => ⟨some .ok, []⟩
  | around, server :: servers =>
    match readServer cookies (around 0) server with
    | none => ⟨some .invalid, []⟩
    | some a =>
      match createServerProcess a (around 0).calls with
      | .fault => ⟨none, [(a, false)]⟩
      | .returned pid created =>
        if pid.slt 0 then ⟨some .failure, [(a, created)]⟩
        else
          let run := processBootServers cookies (fun i => around (i + 1)) servers
          ⟨run.result, (a, created) :: run.calls⟩

/-- The array of boot servers, if the document is an object that has one. -/
def bootServers (root : Option Json) : Option (List Json) :=
  match root.bind (·.get bootServersKey) with
  | some (.array servers) => some servers
  | _ => none

/-- The root is what `json_loads` returns. -/
def processConfig (cookies : Nat → BitVec 64) (around : Nat → Surroundings) (root : Option Json) :
    Run :=
  match root with
  | some (.object fields) =>
    match bootServers (some (.object fields)) with
    | some servers => processBootServers cookies around servers
    | none => ⟨some .ok, []⟩
  | _ => ⟨some .invalid, []⟩

/-! ## What an entry asks for -/

structure Request where
  stackSize : BitVec 64
  taskClass : TaskClass
  capabilities : List InitCapability
  argv : List (List Byte)

/-- The request of an entry: all its capabilities, and its path followed by all its arguments. -/
structure Asks (cookies : Nat → BitVec 64) (server : Json) (r : Request) : Prop where
  stackSize : server.get stackSizeKey = some (.integer r.stackSize)
  taskClass : ∃ name, server.get classKey = some (.string name) ∧
    classStrToId name = some r.taskClass
  capabilities : (items (server.get capsKey)).map (capability cookies) = r.capabilities.map some
  argv : ∃ path args, server.get pathKey = some (.string path) ∧ r.argv = path :: args ∧
    items (server.get argsKey) = args.map .string

/-- What the callee sees, with the counts that it gets. -/
def received (a : Arguments) : Request where
  stackSize := a.stackSize
  taskClass := a.taskClass
  capabilities := (a.capv.getD []).take a.capc.toNat
  argv := a.argv.take a.argc.toNat

/-- The counts of an entry fit in 16 bits. -/
def Narrow (server : Json) : Prop :=
  (items (server.get capsKey)).length < 2 ^ 16 ∧ (items (server.get argsKey)).length + 1 < 2 ^ 16

section Reading

variable {cookies : Nat → BitVec 64} {around : Surroundings} {server : Json} {a : Arguments}

theorem string?_eq_some {json : Option Json} {value : List Byte} :
    string? json = some value ↔ json = some (.string value) := by
  constructor
  · intro h
    unfold string? at h
    split at h
    · cases h
      rfl
    · cases h
  · intro h
    rw [h]
    rfl

theorem integer?_eq_some {json : Option Json} {value : BitVec 64} (h : integer? json = some value) :
    json = some (.integer value) := by
  unfold integer? at h
  split at h
  · cases h
    rfl
  · cases h

theorem strings_eq {l : List Json} {strings : List (List Byte)}
    (h : (l.mapM fun item => string? (some item)) = some strings) : l = strings.map .string := by
  rw [mapM_eq_some] at h
  induction l generalizing strings with
  | nil => rw [List.map_eq_nil_iff.mp h.symm, List.map_nil]
  | cons item l ih =>
    rcases strings with _ | ⟨s, strings⟩
    · cases h
    rw [List.map_cons, List.map_cons, List.cons.injEq, string?_eq_some, Option.some.injEq] at h
    rw [List.map_cons, h.1, ih h.2]

/-- All that the arguments hold, without regard to the counts. -/
def given (a : Arguments) : Request := ⟨a.stackSize, a.taskClass, a.capv.getD [], a.argv⟩

/-- An entry that is read is read in full; only the counts are narrowed. -/
theorem readServer_asks (h : readServer cookies around server = some a) :
    Asks cookies server (given a) ∧
    a.capc = BitVec.ofNat 16 (items (server.get capsKey)).length ∧
    a.argc = BitVec.ofNat 16 ((items (server.get argsKey)).length + 1) := by
  obtain ⟨name, -, h⟩ := Option.bind_eq_some_iff.mp h
  obtain ⟨path, hpath, h⟩ := Option.bind_eq_some_iff.mp h
  obtain ⟨className, hclassName, h⟩ := Option.bind_eq_some_iff.mp h
  obtain ⟨stackSize, hstackSize, h⟩ := Option.bind_eq_some_iff.mp h
  obtain ⟨taskClass, htaskClass, h⟩ := Option.bind_eq_some_iff.mp h
  dsimp only at h
  split at h
  · cases h
  next hcaps =>
    obtain ⟨args, hargs, h⟩ := Option.bind_eq_some_iff.mp h
    cases h
    rw [not_and, Option.isNone_iff_eq_none] at hcaps
    refine ⟨?_, rfl, rfl⟩
    constructor
    · exact integer?_eq_some hstackSize
    · exact ⟨className, string?_eq_some.mp hclassName, htaskClass⟩
    · dsimp only [given]
      rcases hbuilt : buildProcessCaps cookies around.capsMemory (server.get capsKey) with _ | caps
      · have hnone : (items (server.get capsKey)).length = 0 := by
          by_contra hpos
          exact hcaps (Nat.pos_of_ne_zero hpos) hbuilt
        rw [List.length_eq_zero_iff.mp hnone]
        rfl
      · rw [buildProcessCaps] at hbuilt
        split at hbuilt
        · exact mapM_eq_some.mp hbuilt
        · cases hbuilt
    · rw [buildProcessArgs] at hargs
      split at hargs
      · obtain ⟨strings, hstrings, rfl⟩ := Option.map_eq_some_iff.mp hargs
        exact ⟨path, strings, string?_eq_some.mp hpath, rfl, strings_eq hstrings⟩
      · cases hargs

theorem length_capabilities {r : Request} (asks : Asks cookies server r) :
    (items (server.get capsKey)).length = r.capabilities.length := by
  have hlength := congrArg List.length asks.capabilities
  rwa [List.length_map, List.length_map] at hlength

theorem length_argv {r : Request} (asks : Asks cookies server r) :
    (items (server.get argsKey)).length + 1 = r.argv.length := by
  obtain ⟨path, args, -, hargv, hitems⟩ := asks.argv
  rw [hitems, hargv, List.length_map, List.length_cons]

/-- A list cut to its narrowed length keeps its length just if it is short. -/
theorem take_narrowed {α : Type} {l : List α} :
    (l.take (BitVec.ofNat 16 l.length).toNat).length = l.length ↔ l.length < 2 ^ 16 := by
  rw [List.length_take, BitVec.toNat_ofNat]
  omega

/-- The callee sees the whole request just if the counts fit. -/
theorem asks_received_iff (h : readServer cookies around server = some a) :
    Asks cookies server (received a) ↔ Narrow server := by
  obtain ⟨hgiven, hcapc, hargc⟩ := readServer_asks h
  have hcaps := length_capabilities hgiven
  have hargv := length_argv hgiven
  dsimp only [given] at hcaps hargv
  rw [hcaps] at hcapc
  rw [hargv] at hargc
  rw [Narrow, hcaps, hargv]
  constructor
  · intro hreceived
    have hcaps' := length_capabilities hreceived
    have hargv' := length_argv hreceived
    dsimp only [received] at hcaps' hargv'
    rw [hcaps, hcapc] at hcaps'
    rw [hargv, hargc] at hargv'
    exact ⟨take_narrowed.mp hcaps'.symm, take_narrowed.mp hargv'.symm⟩
  · rintro ⟨hfewCaps, hfewArgs⟩
    have heq : received a = given a := by
      rw [received, given, hcapc, hargc, BitVec.toNat_ofNat, BitVec.toNat_ofNat,
        Nat.mod_eq_of_lt hfewCaps, Nat.mod_eq_of_lt hfewArgs, List.take_length, List.take_length]
    rw [heq]
    exact hgiven

theorem counted_of_readServer (h : readServer cookies around server = some a) : a.Counted := by
  obtain ⟨hgiven, hcapc, hargc⟩ := readServer_asks h
  have hcaps := length_capabilities hgiven
  have hargv := length_argv hgiven
  dsimp only [given] at hcaps hargv
  constructor
  · rw [hcapc, BitVec.toNat_ofNat, hcaps]
    exact Nat.mod_le _ _
  · rw [hargc, BitVec.toNat_ofNat, hargv]
    exact Nat.mod_le _ _
  · obtain ⟨name, -, hname⟩ := hgiven.taskClass
    intro hinvalid
    dsimp only [given] at hname
    rw [hinvalid, classStrToId] at hname
    repeat' split at hname
    all_goals cases hname

end Reading

/-! ## Runs over the entries -/

/-- The values of the new stack do not fit in the page that is mapped for them. -/
def Faults (a : Arguments) (calls : SystemCalls) : Prop :=
  ¬ a.Refused calls ∧ 512 < a.stackValues

/-- The kernel creates no process, or one with a negative number. -/
def Fails (a : Arguments) (calls : SystemCalls) : Prop :=
  ¬ a.Refused calls ∧ a.stackValues ≤ 512 ∧ (calls.result = .ok → calls.value.slt 0)

def Starts (a : Arguments) (calls : SystemCalls) : Prop :=
  ¬ a.Refused calls ∧ a.stackValues ≤ 512 ∧ calls.result = .ok ∧ ¬ calls.value.slt 0

/-- The loop goes on after entries that are started and after those that are refused. -/
def GoesOn (a : Arguments) (calls : SystemCalls) : Prop := a.Refused calls ∨ Starts a calls

section Creations

variable {a : Arguments} {calls : SystemCalls}

theorem code_negative {result : SyscallResultType} (h : result ≠ .ok) : result.code.slt 0 := by
  cases result <;> first | exact absurd rfl h | decide

/-- Every creation is one of four. -/
theorem creation_cases (counted : a.Counted) :
    (a.Refused calls ∧ createServerProcess a calls = .returned 0 false) ∨
    (Faults a calls ∧ createServerProcess a calls = .fault) ∨
    (Fails a calls ∧ ∃ pid created, createServerProcess a calls = .returned pid created ∧
      pid.slt 0) ∨
    (Starts a calls ∧ ∃ pid, createServerProcess a calls = .returned pid true ∧ ¬ pid.slt 0) := by
  by_cases hrefused : a.Refused calls
  · exact Or.inl ⟨hrefused, createServerProcess_refused counted.taskClass hrefused⟩
  by_cases hlarge : 512 < a.stackValues
  · exact Or.inr (Or.inl ⟨⟨hrefused, hlarge⟩,
      createServerProcess_fault counted.taskClass hrefused hlarge⟩)
  have hsmall := Nat.le_of_not_lt hlarge
  have hbuilt := createServerProcess_built counted hrefused hsmall
  by_cases hok : calls.result = .ok
  · rw [if_pos hok] at hbuilt
    by_cases hpid : calls.value.slt 0
    · exact Or.inr (Or.inr (Or.inl ⟨⟨hrefused, hsmall, fun _ => hpid⟩, _, _, hbuilt, hpid⟩))
    · exact Or.inr (Or.inr (Or.inr ⟨⟨hrefused, hsmall, hok, hpid⟩, _, hbuilt, hpid⟩))
  · rw [if_neg hok] at hbuilt
    exact Or.inr (Or.inr (Or.inl ⟨⟨hrefused, hsmall, fun h => absurd h hok⟩, _, _, hbuilt,
      code_negative hok⟩))

theorem Starts.not_refused (h : Starts a calls) : ¬ a.Refused calls := h.1

theorem GoesOn.not_fails (h : GoesOn a calls) : ¬ Fails a calls := by
  intro hfails
  rcases h with h | h
  · exact hfails.1 h
  · exact h.2.2.2 (hfails.2.2 h.2.2.1)

theorem GoesOn.not_faults (h : GoesOn a calls) : ¬ Faults a calls := by
  intro hfaults
  rcases h with h | h
  · exact hfaults.1 h
  · exact absurd hfaults.2 (Nat.not_lt.mpr h.2.1)

theorem Fails.not_faults (h : Fails a calls) : ¬ Faults a calls :=
  fun hfaults => absurd hfaults.2 (Nat.not_lt.mpr h.2.1)

end Creations

/-- Entry `i` can be read, and its creation is of a kind. -/
def Entry (cookies : Nat → BitVec 64) (around : Nat → Surroundings) (servers : List Json)
    (kind : Arguments → SystemCalls → Prop) (i : Nat) : Prop :=
  ∃ server a, servers[i]? = some server ∧ readServer cookies (around i) server = some a ∧
    kind a (around i).calls

/-- The loop comes to an entry of a kind. -/
def Meets (cookies : Nat → BitVec 64) (around : Nat → Surroundings) (servers : List Json)
    (kind : Arguments → SystemCalls → Prop) : Prop :=
  ∃ i, (∀ j < i, Entry cookies around servers GoesOn j) ∧ Entry cookies around servers kind i

section Runs

variable {cookies : Nat → BitVec 64} {around : Nat → Surroundings} {servers : List Json}
  {server : Json} {kind : Arguments → SystemCalls → Prop} {a : Arguments}

theorem entry_zero : Entry cookies around (server :: servers) kind 0 ↔
    ∃ a, readServer cookies (around 0) server = some a ∧ kind a (around 0).calls := by
  constructor
  · rintro ⟨server', a, hserver, h⟩
    cases hserver
    exact ⟨a, h⟩
  · rintro ⟨a, h⟩
    exact ⟨server, a, rfl, h⟩

theorem meets_nil : ¬ Meets cookies around [] kind := by
  rintro ⟨i, -, server, a, hserver, -⟩
  cases hserver

/-- The loop comes to an entry at once, or after one that it goes on from. -/
theorem meets_cons : Meets cookies around (server :: servers) kind ↔
    ∃ a, readServer cookies (around 0) server = some a ∧ (kind a (around 0).calls ∨
      (GoesOn a (around 0).calls ∧ Meets cookies (fun i => around (i + 1)) servers kind)) := by
  constructor
  · rintro ⟨i, hbefore, hentry⟩
    rcases i with _ | i
    · obtain ⟨a, hread, hkind⟩ := entry_zero.mp hentry
      exact ⟨a, hread, Or.inl hkind⟩
    · obtain ⟨a, hread, hgoes⟩ := entry_zero.mp (hbefore 0 (Nat.succ_pos i))
      exact ⟨a, hread, Or.inr ⟨hgoes, i, fun j hj => hbefore (j + 1) (Nat.succ_lt_succ hj), hentry⟩⟩
  · rintro ⟨a, hread, hkind | ⟨hgoes, i, hbefore, hentry⟩⟩
    · exact ⟨0, fun j hj => absurd hj (Nat.not_lt_zero j), entry_zero.mpr ⟨a, hread, hkind⟩⟩
    · refine ⟨i + 1, ?_, hentry⟩
      intro j hj
      rcases j with _ | j
      · exact entry_zero.mpr ⟨a, hread, hgoes⟩
      · exact hbefore j (Nat.lt_of_succ_lt_succ hj)

/-- One round of the loop, for an entry that can be read. -/
theorem processBootServers_cons (hread : readServer cookies (around 0) server = some a) :
    (Faults a (around 0).calls ∧
      processBootServers cookies around (server :: servers) = ⟨none, [(a, false)]⟩) ∨
    (Fails a (around 0).calls ∧ ∃ created,
      processBootServers cookies around (server :: servers) = ⟨some .failure, [(a, created)]⟩) ∨
    (GoesOn a (around 0).calls ∧ ∃ created, (created = true ↔ Starts a (around 0).calls) ∧
      processBootServers cookies around (server :: servers) =
        ⟨(processBootServers cookies (fun i => around (i + 1)) servers).result, (a, created) ::
          (processBootServers cookies (fun i => around (i + 1)) servers).calls⟩) := by
  rw [processBootServers, hread]
  dsimp only
  rcases @creation_cases a (around 0).calls (counted_of_readServer hread) with
    ⟨hkind, hcreate⟩ | ⟨hkind, hcreate⟩ | ⟨hkind, pid, created, hcreate, hpid⟩ |
    ⟨hkind, pid, hcreate, hpid⟩
  · rw [hcreate]
    refine Or.inr (Or.inr ⟨Or.inl hkind, false, ⟨?_, fun h => absurd hkind h.not_refused⟩, rfl⟩)
    intro h
    cases h
  · rw [hcreate]
    exact Or.inl ⟨hkind, rfl⟩
  · rw [hcreate]
    dsimp only
    rw [if_pos hpid]
    exact Or.inr (Or.inl ⟨hkind, created, rfl⟩)
  · rw [hcreate]
    dsimp only
    rw [if_neg hpid]
    exact Or.inr (Or.inr ⟨Or.inr hkind, true, ⟨fun _ => hkind, fun _ => rfl⟩, rfl⟩)

theorem processBootServers_invalid (hread : readServer cookies (around 0) server = none) :
    processBootServers cookies around (server :: servers) = ⟨some .invalid, []⟩ := by
  rw [processBootServers, hread]

/-- Past an entry that the loop goes on from. -/
theorem meets_past (hread : readServer cookies (around 0) server = some a)
    (goes : GoesOn a (around 0).calls) (other : ¬ kind a (around 0).calls) :
    Meets cookies around (server :: servers) kind ↔
      Meets cookies (fun i => around (i + 1)) servers kind := by
  rw [meets_cons]
  constructor
  · rintro ⟨a', hread', h⟩
    rw [hread] at hread'
    cases hread'
    rcases h with h | h
    · exact absurd h other
    · exact h.2
  · intro h
    exact ⟨a, hread, Or.inr ⟨goes, h⟩⟩

theorem not_meets_unread (hread : readServer cookies (around 0) server = none) :
    ¬ Meets cookies around (server :: servers) kind := by
  intro h
  obtain ⟨a, hread', -⟩ := meets_cons.mp h
  rw [hread] at hread'
  cases hread'

theorem not_meets_stopped (hread : readServer cookies (around 0) server = some a)
    (stops : ¬ GoesOn a (around 0).calls) (other : ¬ kind a (around 0).calls) :
    ¬ Meets cookies around (server :: servers) kind := by
  intro h
  obtain ⟨a', hread', h⟩ := meets_cons.mp h
  rw [hread] at hread'
  cases hread'
  rcases h with h | h
  · exact other h
  · exact stops h.1

/-- What holds of the runs that end at once, and is kept by a round that goes on, holds of every
run. -/
theorem processBootServers_induction
    {motive : (Nat → Surroundings) → List Json → Run → Prop}
    (nil : ∀ around, motive around [] ⟨some .ok, []⟩)
    (unread : ∀ around server servers, readServer cookies (around 0) server = none →
      motive around (server :: servers) ⟨some .invalid, []⟩)
    (faults : ∀ around server servers a, readServer cookies (around 0) server = some a →
      Faults a (around 0).calls → motive around (server :: servers) ⟨none, [(a, false)]⟩)
    (fails : ∀ around server servers a created, readServer cookies (around 0) server = some a →
      Fails a (around 0).calls →
        motive around (server :: servers) ⟨some .failure, [(a, created)]⟩)
    (goesOn : ∀ around server servers a created rest,
      readServer cookies (around 0) server = some a → GoesOn a (around 0).calls →
        (created = true ↔ Starts a (around 0).calls) →
          motive (fun i => around (i + 1)) servers rest →
            motive around (server :: servers) ⟨rest.result, (a, created) :: rest.calls⟩) :
    motive around servers (processBootServers cookies around servers) := by
  induction servers generalizing around with
  | nil => exact nil around
  | cons server servers ih =>
    rcases hread : readServer cookies (around 0) server with _ | a
    · rw [processBootServers_invalid hread]
      exact unread around server servers hread
    rcases @processBootServers_cons cookies around servers server a hread with
      ⟨hkind, hrun⟩ | ⟨hkind, created, hrun⟩ | ⟨hkind, created, hcreated, hrun⟩
    · rw [hrun]
      exact faults around server servers a hread hkind
    · rw [hrun]
      exact fails around server servers a created hread hkind
    · rw [hrun]
      exact goesOn around server servers a created _ hread hkind hcreated ih

/-- The run ends in failure just if it comes to an entry that fails. -/
theorem result_failure_iff : (processBootServers cookies around servers).result = some .failure ↔
    Meets cookies around servers Fails := by
  apply processBootServers_induction (motive := fun around servers run =>
    run.result = some .failure ↔ Meets cookies around servers Fails)
  · intro around
    constructor
    · intro h
      cases h
    · intro h
      exact absurd h meets_nil
  · intro around server servers hread
    constructor
    · intro h
      cases h
    · intro h
      exact absurd h (not_meets_unread hread)
  · intro around server servers a hread hkind
    constructor
    · intro h
      cases h
    · intro h
      exact absurd h (not_meets_stopped hread (fun hgoes => hgoes.not_faults hkind)
        fun hfails => hfails.not_faults hkind)
  · intro around server servers a created hread hkind
    exact iff_of_true rfl (meets_cons.mpr ⟨a, hread, Or.inl hkind⟩)
  · intro around server servers a created rest hread hkind _ ih
    rw [meets_past hread hkind hkind.not_fails]
    exact ih

/-- A fault ends the run without a result. -/
theorem result_of_fault (h : Meets cookies around servers Faults) :
    (processBootServers cookies around servers).result = none := by
  revert h
  apply processBootServers_induction (motive := fun around servers run =>
    Meets cookies around servers Faults → run.result = none)
  · exact fun around h => absurd h meets_nil
  · exact fun around server servers hread h => absurd h (not_meets_unread hread)
  · exact fun around server servers a hread hkind h => rfl
  · intro around server servers a created hread hkind h
    exact absurd h (not_meets_stopped hread (fun hgoes => hgoes.not_fails hkind) hkind.not_faults)
  · intro around server servers a created rest hread hkind _ ih h
    exact ih ((meets_past hread hkind hkind.not_faults).mp h)

/-- Calls that create nothing come from entries that are refused, fault or fail. -/
theorem meets_of_uncreated
    (h : ∃ call ∈ (processBootServers cookies around servers).calls, call.2 = false) :
    Meets cookies around servers Faults ∨ Meets cookies around servers Arguments.Refused ∨
      Meets cookies around servers Fails := by
  revert h
  apply processBootServers_induction (motive := fun around servers run =>
    (∃ call ∈ run.calls, call.2 = false) → Meets cookies around servers Faults ∨
      Meets cookies around servers Arguments.Refused ∨ Meets cookies around servers Fails)
  · rintro around ⟨call, hmem, -⟩
    cases hmem
  · rintro around server servers hread ⟨call, hmem, -⟩
    cases hmem
  · intro around server servers a hread hkind _
    exact Or.inl (meets_cons.mpr ⟨a, hread, Or.inl hkind⟩)
  · intro around server servers a created hread hkind _
    exact Or.inr (Or.inr (meets_cons.mpr ⟨a, hread, Or.inl hkind⟩))
  · rintro around server servers a created rest hread hkind hcreated ih ⟨call, hmem, hnot⟩
    by_cases hrefused : a.Refused (around 0).calls
    · exact Or.inr (Or.inl (meets_cons.mpr ⟨a, hread, Or.inl hrefused⟩))
    rcases List.mem_cons.mp hmem with hcall | hmem
    · rw [hcall] at hnot
      rcases hkind with hkind | hkind
      · exact absurd hkind hrefused
      · exact absurd (hcreated.mpr hkind) (Bool.eq_false_iff.mp hnot)
    · rw [meets_past hread hkind hkind.not_faults, meets_past hread hkind hrefused,
        meets_past hread hkind hkind.not_fails]
      exact ih ⟨call, hmem, hnot⟩

/-- Entries that are refused or fault are called for, and create nothing. -/
theorem uncreated_of_meets
    (h : Meets cookies around servers Faults ∨ Meets cookies around servers Arguments.Refused) :
    ∃ call ∈ (processBootServers cookies around servers).calls, call.2 = false := by
  revert h
  apply processBootServers_induction (motive := fun around servers run =>
    Meets cookies around servers Faults ∨ Meets cookies around servers Arguments.Refused →
      ∃ call ∈ run.calls, call.2 = false)
  · exact fun around h => absurd h (not_or_intro meets_nil meets_nil)
  · intro around server servers hread h
    exact absurd h (not_or_intro (not_meets_unread hread) (not_meets_unread hread))
  · exact fun around server servers a hread hkind h => ⟨_, List.mem_singleton_self _, rfl⟩
  · intro around server servers a created hread hkind h
    have hstops := fun hgoes : GoesOn a (around 0).calls => hgoes.not_fails hkind
    exact absurd h (not_or_intro (not_meets_stopped hread hstops hkind.not_faults)
      (not_meets_stopped hread hstops hkind.1))
  · intro around server servers a created rest hread hkind hcreated ih h
    by_cases hrefused : a.Refused (around 0).calls
    · refine ⟨_, List.mem_cons_self, ?_⟩
      rw [← Bool.not_eq_true]
      exact fun h => (hcreated.mp h).not_refused hrefused
    · rw [meets_past hread hkind hkind.not_faults, meets_past hread hkind hrefused] at h
      obtain ⟨call, hmem, hnot⟩ := ih h
      exact ⟨call, List.mem_cons_of_mem _ hmem, hnot⟩

/-- A run that succeeds without a refusal is one that starts every entry. -/
theorem all_start_iff : ((processBootServers cookies around servers).result = some .ok ∧
      ¬ Meets cookies around servers Arguments.Refused) ↔
    ∀ i < servers.length, Entry cookies around servers Starts i := by
  induction servers generalizing around with
  | nil => exact iff_of_true ⟨rfl, meets_nil⟩ fun i hi => absurd hi (Nat.not_lt_zero i)
  | cons server servers ih =>
    have hfirst : (∀ i < (server :: servers).length,
          Entry cookies around (server :: servers) Starts i) ↔
        (∃ a, readServer cookies (around 0) server = some a ∧ Starts a (around 0).calls) ∧
        ∀ i < servers.length, Entry cookies (fun i => around (i + 1)) servers Starts i := by
      rw [← entry_zero]
      constructor
      · intro h
        exact ⟨h 0 (Nat.succ_pos _), fun i hi => h (i + 1) (Nat.succ_lt_succ hi)⟩
      · rintro ⟨hzero, hrest⟩ i hi
        rcases i with _ | i
        · exact hzero
        · exact hrest i (Nat.lt_of_succ_lt_succ hi)
    rw [hfirst, ← ih]
    rcases hread : readServer cookies (around 0) server with _ | a
    · rw [processBootServers_invalid hread]
      constructor
      · rintro ⟨h, -⟩
        cases h
      · rintro ⟨⟨a, h, -⟩, -⟩
        cases h
    have hsome : (∃ a', some a = some a' ∧ Starts a' (around 0).calls) ↔
        Starts a (around 0).calls := by
      constructor
      · rintro ⟨a', h, hstarts⟩
        cases h
        exact hstarts
      · intro h
        exact ⟨a, rfl, h⟩
    rw [hsome]
    rcases @processBootServers_cons cookies around servers server a hread with
      ⟨hkind, hrun⟩ | ⟨hkind, created, hrun⟩ | ⟨hkind, created, hcreated, hrun⟩
    · rw [hrun]
      constructor
      · rintro ⟨h, -⟩
        cases h
      · rintro ⟨h, -⟩
        exact absurd hkind (GoesOn.not_faults (Or.inr h))
    · rw [hrun]
      constructor
      · rintro ⟨h, -⟩
        cases h
      · rintro ⟨h, -⟩
        exact absurd hkind (GoesOn.not_fails (Or.inr h))
    · rw [hrun]
      dsimp only
      rcases hkind with hrefused | hstarts
      · constructor
        · rintro ⟨-, h⟩
          exact absurd (meets_cons.mpr ⟨a, hread, Or.inl hrefused⟩) h
        · rintro ⟨h, -⟩
          exact absurd hrefused h.not_refused
      · rw [meets_past hread (Or.inr hstarts) hstarts.not_refused]
        exact (and_iff_right hstarts).symm

/-- Every entry that is started gets what it asks for just if its counts fit. -/
theorem calls_ask_iff (starts : ∀ i < servers.length, Entry cookies around servers Starts i) :
    List.Forall₂ (fun server call => Asks cookies server (received call.1) ∧ call.2 = true) servers
      (processBootServers cookies around servers).calls ↔ ∀ server ∈ servers, Narrow server := by
  induction servers generalizing around with
  | nil => exact iff_of_true List.Forall₂.nil fun server h => absurd h List.not_mem_nil
  | cons server servers ih =>
    obtain ⟨a, hread, hstarts⟩ := entry_zero.mp (starts 0 (Nat.succ_pos _))
    have hrest := @ih (fun i => around (i + 1)) fun i hi => starts (i + 1) (Nat.succ_lt_succ hi)
    rcases @processBootServers_cons cookies around servers server a hread with
      ⟨hkind, hrun⟩ | ⟨hkind, created, hrun⟩ | ⟨hkind, created, hcreated, hrun⟩
    · exact absurd hkind (GoesOn.not_faults (Or.inr hstarts))
    · exact absurd hkind (GoesOn.not_fails (Or.inr hstarts))
    · rw [hrun, List.forall₂_cons, hrest, asks_received_iff hread, List.forall_mem_cons]
      exact and_congr_left' (and_iff_left (hcreated.mpr hstarts))

end Runs

/-! ## What a run promises -/

/-- Success only if every entry, in order, was called for with all that it asks for and became a
process; and failure if a call created no process. -/
structure Accounted (cookies : Nat → BitVec 64) (servers : List Json) (run : Run) : Prop where
  success : run.result = some .ok →
    List.Forall₂ (fun server call => Asks cookies server (received call.1) ∧ call.2 = true) servers
      run.calls
  uncreated : ∀ call ∈ run.calls, call.2 = false → run.result = some .failure

/-- No stack is too large for its page; an entry that is refused is followed by one that fails; and
where all entries start, their counts fit in 16 bits. -/
structure Orderly (cookies : Nat → BitVec 64) (around : Nat → Surroundings) (servers : List Json) :
    Prop where
  fitting : ¬ Meets cookies around servers Faults
  refusals : Meets cookies around servers Arguments.Refused → Meets cookies around servers Fails
  counts : (∀ i < servers.length, Entry cookies around servers Starts i) →
    ∀ server ∈ servers, Narrow server

section Promises

variable {cookies : Nat → BitVec 64} {around : Nat → Surroundings} {servers : List Json}

theorem uncreated_iff : (∀ call ∈ (processBootServers cookies around servers).calls,
      call.2 = false → (processBootServers cookies around servers).result = some .failure) ↔
    ¬ Meets cookies around servers Faults ∧
      (Meets cookies around servers Arguments.Refused → Meets cookies around servers Fails) := by
  rw [result_failure_iff]
  constructor
  · intro h
    constructor
    · intro hfaults
      obtain ⟨call, hmem, hnot⟩ := uncreated_of_meets (Or.inl hfaults)
      have hfailure := result_failure_iff.mpr (h call hmem hnot)
      rw [result_of_fault hfaults] at hfailure
      cases hfailure
    · intro hrefused
      obtain ⟨call, hmem, hnot⟩ := uncreated_of_meets (Or.inr hrefused)
      exact h call hmem hnot
  · rintro ⟨hfaults, hrefused⟩ call hmem hnot
    rcases meets_of_uncreated ⟨call, hmem, hnot⟩ with h | h | h
    · exact absurd h hfaults
    · exact hrefused h
    · exact h

theorem accounted_iff :
    Accounted cookies servers (processBootServers cookies around servers) ↔
      Orderly cookies around servers := by
  constructor
  · rintro ⟨hsuccess, huncreated⟩
    obtain ⟨hfaults, hrefused⟩ := uncreated_iff.mp huncreated
    refine ⟨hfaults, hrefused, ?_⟩
    intro hstarts
    exact (calls_ask_iff hstarts).mp (hsuccess (all_start_iff.mpr hstarts).1)
  · rintro ⟨hfaults, hrefused, hcounts⟩
    refine ⟨?_, uncreated_iff.mpr ⟨hfaults, hrefused⟩⟩
    intro hok
    have hstarts := all_start_iff.mp ⟨hok, fun h => by
      have hfailure := result_failure_iff.mpr (hrefused h)
      rw [hok] at hfailure
      cases hfailure⟩
    exact (calls_ask_iff hstarts).mpr (hcounts hstarts)

theorem processConfig_bootServers (h : bootServers root = some servers) :
    processConfig cookies around root = processBootServers cookies around servers := by
  unfold processConfig
  split
  · rw [h]
  · next hother =>
    exfalso
    rcases root with _ | json
    · cases h
    cases json
    all_goals first | cases h | exact hother _ rfl

/-- The configuration keeps its promise on just those documents and surroundings. -/
theorem processConfig_accounted_iff {root : Option Json} (h : bootServers root = some servers) :
    Accounted cookies servers (processConfig cookies around root) ↔
      Orderly cookies around servers := by
  rw [processConfig_bootServers h]
  exact accounted_iff

/-- An entry with a number of empty arguments. -/
def serverWith (arguments : Nat) : Json :=
  .object [(nameKey, .string (text "a")), (pathKey, .string (text "b")),
    (classKey, .string (text "IDLE")), (stackSizeKey, .integer 0x100000),
    (capsKey, .array [.string (text "SYSCALL_SLEEP")]),
    (argsKey, .array (List.replicate arguments (.string [])))]

def configOf (servers : List Json) : Json := .object [(bootServersKey, .array servers)]

def blank : Page := ⟨List.replicate 4096 0, length_zeros⟩

/-- Surroundings in which nothing fails. -/
def plenty : Surroundings := ⟨true, true, some blank, some blank, .ok, 5⟩

theorem processConfig_accounted_iff_oneServer :
    bootServers (some (configOf [serverWith 1])) = some [serverWith 1] ∧
    (processConfig (fun _ => 7) (fun _ => plenty) (some (configOf [serverWith 1]))).result =
      some .ok ∧
    Orderly (fun _ => 7) (fun _ => plenty) [serverWith 1] := by
  have hservers : bootServers (some (configOf [serverWith 1])) = some [serverWith 1] := rfl
  have hread : readServer (fun _ => 7) plenty (serverWith 1) =
      some ⟨0x100000, 1, some [⟨5, 7⟩], 2, [text "b", []], .idle⟩ := rfl
  have hcreate := @createServerProcess_built _ plenty.calls (counted_of_readServer hread)
    (by
      rintro (h | h | h | h)
      · exact absurd h (by decide)
      · exact absurd h (by decide)
      · cases h
      · cases h)
    (by decide)
  have hrun : processConfig (fun _ => 7) (fun _ => plenty) (some (configOf [serverWith 1])) =
      ⟨some .ok, [(⟨0x100000, 1, some [⟨5, 7⟩], 2, [text "b", []], .idle⟩, true)]⟩ := by
    change processBootServers (fun _ => 7) (fun _ => plenty) [serverWith 1] = _
    rw [processBootServers, hread]
    dsimp only
    rw [hcreate]
    rfl
  refine ⟨hservers, by rw [hrun], (processConfig_accounted_iff hservers).mp ?_⟩
  rw [hrun]
  constructor
  · intro _
    exact List.Forall₂.cons ⟨⟨rfl, ⟨_, rfl, rfl⟩, rfl, ⟨_, [[]], rfl, rfl, rfl⟩⟩, rfl⟩
      List.Forall₂.nil
  · intro call hmem hnot
    rw [List.mem_singleton.mp hmem] at hnot
    cases hnot

/-- An entry with 512 arguments is reported as started, and no process is created for it. -/
theorem crowded_server_reported_started :
    bootServers (some (configOf [serverWith 512])) = some [serverWith 512] ∧
    (processConfig (fun _ => 7) (fun _ => plenty) (some (configOf [serverWith 512]))).result =
      some .ok ∧
    ¬ Accounted (fun _ => 7) [serverWith 512]
      (processConfig (fun _ => 7) (fun _ => plenty) (some (configOf [serverWith 512]))) := by
  have hsome : (readServer (fun _ => 7) plenty (serverWith 512)).isSome = true := by decide +kernel
  obtain ⟨a, hread⟩ := Option.isSome_iff_exists.mp hsome
  obtain ⟨-, -, hargc⟩ := readServer_asks hread
  have hrefused : a.Refused plenty.calls := by
    refine Or.inl ?_
    rw [hargc]
    decide +kernel
  have hcreate := createServerProcess_refused (counted_of_readServer hread).taskClass hrefused
  have hrun : processConfig (fun _ => 7) (fun _ => plenty) (some (configOf [serverWith 512])) =
      ⟨some .ok, [(a, false)]⟩ := by
    change processBootServers (fun _ => 7) (fun _ => plenty) [serverWith 512] = _
    rw [processBootServers, hread]
    dsimp only
    rw [hcreate]
    rfl
  rw [hrun]
  refine ⟨rfl, rfl, ?_⟩
  intro haccounted
  have hfailure := haccounted.uncreated (a, false) (List.mem_singleton_self _) rfl
  cases hfailure

end Promises

end BootConfig
