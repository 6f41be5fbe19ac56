import AnosKernel.SpawnRequest

/-!
# The stack of a new process

`build_new_process_init_values` and `create_server_process` of `system/process.c`. The values are
built from the top of their page downwards, and a store outside the page that was mapped for them is
a fault.
-/

namespace InitialStack

open Bytes CStrings MessagePage SpawnRequest

/-! ## Building the values -/

/-- The two pages, and the pointer into the first, as its distance from `new_stack`. -/
structure Buffers where
  newStack : Page
  argvPointers : Page
  ptr : Nat

/-- Bytes stored right below the pointer, which moves down to them. -/
def Buffers.push (b : Buffers) (bytes : List Byte) : Option Buffers :=
  if fits : bytes.length ≤ b.ptr ∧ b.ptr ≤ 4096 then
    some { b with
      newStack := b.newStack.write (b.ptr - bytes.length) bytes (by omega)
      ptr := b.ptr - bytes.length }
  else none

def Buffers.pushWord (b : Buffers) (word : Nat) : Option Buffers := b.push (toBytes 8 word)

/-- `argv_pointers[i] = pointer`. -/
def Buffers.point (b : Buffers) (i : Nat) (pointer : BitVec 64) : Option Buffers :=
  if fits : 8 * i + 8 ≤ 4096 then
    some { b with
      argvPointers := b.argvPointers.write (8 * i) (toBytes 8 pointer.toNat)
        (by rw [length_toBytes]; exact fits) }
  else none

def maxArgLength : Nat := 256

def maxArgCount : Nat := 512

def maxStackValueCount : Nat := 16384

def initStackStaticValueCount : Nat := 4

def stackTop : BitVec 64 := 0x44000000

/-- The part of an argument that is copied, without its terminator. -/
def argument (arg : List Byte) : List Byte := chars (maxArgLength - 1) arg

/-- The bytes of an argument; one that is null is not counted. -/
def argumentLen : Option (List Byte) → Nat
  | some arg => (argument arg).length + 1
  | none => 0

/-- The sum is far below the 32 bits of the result. -/
def roundUpToMachineWordSize (size : Nat) : Nat := (size + 7) / 8 * 8 % 2 ^ 32

def valueCount (capCount argc : Nat) (args : List (Option (List Byte))) : Nat :=
  roundUpToMachineWordSize (args.map argumentLen).sum / 8 + capCount * 2 + argc +
    initStackStaticValueCount

def copyString (stackBottom : BitVec 64) (i : Nat) (b : Buffers) : Option (List Byte) →
    Option Buffers
  | some arg =>
    (b.push [0]).bind fun b =>
      (b.push (argument arg)).bind fun b => b.point i (stackBottom + BitVec.ofNat 64 b.ptr)
  | none => b.push [0]

/-- The strings from index `i` on, the last one first. -/
def copyStrings (stackBottom : BitVec 64) : Nat → List (Option (List Byte)) → Buffers →
    Option Buffers
  | _, [], b => some b
  | i, arg :: args, b =>
    (copyStrings stackBottom (i + 1) args b).bind fun b => copyString stackBottom i b arg

/-- `string_padding`; the page of the values is aligned. -/
def pad (b : Buffers) : Option Buffers := b.push (List.replicate (b.ptr % 8) 0)

def copyCapabilities : List InitCapability → Buffers → Option Buffers
  | [], b => some b
  | capability :: capabilities, b =>
    (copyCapabilities capabilities b).bind fun b =>
      (b.pushWord capability.capabilityCookie.toNat).bind fun b =>
        b.pushWord capability.capabilityId.toNat

/-- The pointers below index `i`, the last one first. -/
def copyPointers : Nat → Buffers → Option Buffers
  | 0, b => some b
  | i + 1, b => (b.pushWord (b.argvPointers.number (8 * i) 8)).bind (copyPointers i)

/-- The four values at the bottom. -/
def copyStatics (argvPtr capPtr : BitVec 64) (argc capCount : Nat) (b : Buffers) : Option Buffers :=
  (b.pushWord argvPtr.toNat).bind fun b =>
    (b.pushWord argc).bind fun b =>
      (b.pushWord capPtr.toNat).bind fun b => b.pushWord capCount

/-- All that is stored; no capabilities are given as none. -/
def fill (stackBottom : BitVec 64) (args : List (Option (List Byte))) (argc capCount : Nat)
    (capabilities : Option (List InitCapability)) (b : Buffers) : Option Buffers :=
  (copyStrings stackBottom 0 args b).bind fun b =>
    (pad b).bind fun b =>
      (copyCapabilities (capabilities.getD []) b).bind fun b =>
        let capPtr := if capabilities.isSome then stackBottom + BitVec.ofNat 64 b.ptr else 0
        (copyPointers argc b).bind fun b =>
          copyStatics (stackBottom + BitVec.ofNat 64 b.ptr) capPtr argc capCount b

structure InitStackValues where
  valueCount : Nat
  data : Page
  allocatedSize : Nat

inductive Built where
  | refused
  | fault
  | done (values : InitStackValues)

/-- The two pages are what `anos_map_virtual` gives, if it gives any. -/
def buildNewProcessInitValues (stackTopAddr : BitVec 64) (capCount : BitVec 16)
    (capabilities : Option (List InitCapability)) (argc : BitVec 16)
    (argv : List (Option (List Byte))) (argvPage stackPage : Option Page) : Built :=
  if argc.toNat > maxArgCount then .refused
  else
    let args := argv.take argc.toNat
    let count := valueCount capCount.toNat argc.toNat args
    if count > maxStackValueCount then .refused
    else
      let alignedCount := count + count % 2
      match argvPage with
      | none => .refused
      | some argvPointers =>
        let stackBlocksNeeded := alignedCount / 512
        if stackBlocksNeeded > 1 then .refused
        else
          match stackPage with
          | none => .refused
          | some newStack =>
            let stackBottom := stackTopAddr - BitVec.ofNat 64 (8 * alignedCount)
            let given := if capCount = 0 then none else capabilities.map (·.take capCount.toNat)
            match fill stackBottom args argc.toNat capCount.toNat given
              ⟨newStack, argvPointers, count * 8⟩ with
            | none => .fault
            | some b => .done ⟨alignedCount, b.newStack, stackBlocksNeeded⟩

/-! ## Creating the process -/

inductive TaskClass where
  | idle
  | normal
  | high
  | realtime
  | invalid
  deriving DecidableEq

inductive SyscallResultType where
  | ok
  | failure
  | badNumber
  | notImpl
  | badArgs
  | badName
  | incapable
  deriving DecidableEq

def SyscallResultType.code : SyscallResultType → BitVec 64
  | ok => 0
  | failure => -1
  | badNumber => -2
  | notImpl => -3
  | badArgs => -4
  | badName => -5
  | incapable => -254

/-- What the system calls of one creation give. -/
structure SystemCalls where
  argvPage : Option Page
  stackPage : Option Page
  result : SyscallResultType
  value : BitVec 64

/-- What the callee is given. -/
structure Arguments where
  stackSize : BitVec 64
  capc : BitVec 16
  capv : Option (List InitCapability)
  argc : BitVec 16
  argv : List (List Byte)
  taskClass : TaskClass

inductive Creation where
  | fault
  | returned (pid : BitVec 64) (created : Bool)

/-- `create_server_process`, and whether it created a process. -/
def createServerProcess (a : Arguments) (calls : SystemCalls) : Creation :=
  if a.taskClass = .invalid then .returned 0 false
  else
    match buildNewProcessInitValues stackTop a.capc a.capv a.argc (a.argv.map some) calls.argvPage
      calls.stackPage with
    | .refused => .returned 0 false
    | .fault => .fault
    | .done _ =>
      if calls.result = .ok then .returned calls.value true
      else .returned calls.result.code false

/-! ## What the values take -/

/-- A step that takes a number of bytes below the pointer, whatever the page holds. -/
def Takes (n : Nat) (f : Buffers → Option Buffers) : Prop :=
  ∀ b, n ≤ b.ptr → b.ptr ≤ 4096 → ∃ b', f b = some b' ∧ b'.ptr + n = b.ptr

/-- A step that stores nothing while the pointer is outside the page. -/
def Stuck (f : Buffers → Option Buffers) : Prop :=
  ∀ b b', 4096 < b.ptr → f b = some b' → 4096 < b'.ptr

section Steps

variable {m n : Nat} {f g : Buffers → Option Buffers}

theorem Takes.bind (hf : Takes m f) (hg : Takes n g) : Takes (m + n) fun b => (f b).bind g := by
  intro b hroom hhigh
  obtain ⟨b', hb', hptr⟩ := hf b (by omega) hhigh
  obtain ⟨b'', hb'', hptr'⟩ := hg b' (by omega) (by omega)
  refine ⟨b'', ?_, by omega⟩
  dsimp only
  rw [hb', Option.bind_some, hb'']

theorem Stuck.bind (hf : Stuck f) (hg : Stuck g) : Stuck fun b => (f b).bind g := by
  intro b b'' hhigh h
  obtain ⟨b', hb', hb''⟩ := Option.bind_eq_some_iff.mp h
  exact hg b' b'' (hf b b' hhigh hb') hb''

theorem takes_some : Takes 0 some := fun b _ _ => ⟨b, rfl, rfl⟩

theorem stuck_some : Stuck some := by
  intro b b' hhigh h
  cases h
  exact hhigh

theorem push_high {b : Buffers} (high : 4096 < b.ptr) (bytes : List Byte) : b.push bytes = none := by
  rw [Buffers.push, dif_neg (by omega)]

theorem takes_push (bytes : List Byte) : Takes bytes.length (Buffers.push · bytes) := by
  intro b hroom hhigh
  refine ⟨_, dif_pos ⟨hroom, hhigh⟩, ?_⟩
  dsimp only
  omega

theorem stuck_push (bytes : Buffers → List Byte) : Stuck fun b => b.push (bytes b) := by
  intro b b' hhigh h
  dsimp only at h
  rw [push_high hhigh] at h
  cases h

theorem takes_pushWord (word : Buffers → Nat) : Takes 8 fun b => b.pushWord (word b) := by
  intro b hroom hhigh
  have hpush := takes_push (toBytes 8 (word b)) b
  rw [length_toBytes] at hpush
  exact hpush hroom hhigh

theorem takes_point {i : Nat} (low : i < 512) (pointer : Buffers → BitVec 64) :
    Takes 0 fun b => b.point i (pointer b) := by
  intro b _ _
  refine ⟨_, dif_pos (by omega), rfl⟩

theorem stuck_point (i : Nat) (pointer : Buffers → BitVec 64) :
    Stuck fun b => b.point i (pointer b) := by
  intro b b' hhigh h
  dsimp only [Buffers.point] at h
  split at h
  · cases h
    exact hhigh
  · cases h

end Steps

section Values

variable {stackBottom : BitVec 64} {args : List (Option (List Byte))} {argc capCount i : Nat}
  {capabilities : List InitCapability}

/-- An argument that is there takes what was counted for it. -/
theorem takes_copyString (low : i < 512) (arg : List Byte) :
    Takes (argumentLen (some arg)) fun b => copyString stackBottom i b (some arg) := by
  have hpoint := takes_point low fun b => stackBottom + BitVec.ofNat 64 b.ptr
  have htakes := (takes_push [0]).bind ((takes_push (argument arg)).bind hpoint)
  rw [List.length_singleton, Nat.add_zero, Nat.add_comm] at htakes
  exact htakes

theorem stuck_copyString (arg : Option (List Byte)) :
    Stuck fun b => copyString stackBottom i b arg := by
  rcases arg with _ | arg
  · exact stuck_push fun _ => [0]
  · exact (stuck_push fun _ => [0]).bind
      ((stuck_push fun _ => argument arg).bind (stuck_point i _))

theorem takes_copyStrings {args : List (List Byte)} (few : i + args.length ≤ 512) :
    Takes ((args.map some).map argumentLen).sum (copyStrings stackBottom i (args.map some)) := by
  induction args generalizing i with
  | nil => exact takes_some
  | cons arg args ih =>
    rw [List.length_cons] at few
    have htakes := (@ih (i + 1) (by omega)).bind (@takes_copyString stackBottom i (by omega) arg)
    rw [Nat.add_comm] at htakes
    exact htakes

theorem stuck_copyStrings : Stuck (copyStrings stackBottom i args) := by
  induction args generalizing i with
  | nil => exact stuck_some
  | cons arg args ih => exact ih.bind (stuck_copyString arg)

theorem takes_copyCapabilities :
    Takes (capabilities.length * 16) (copyCapabilities capabilities) := by
  induction capabilities with
  | nil => exact takes_some
  | cons capability capabilities ih =>
    have htakes := ih.bind ((takes_pushWord fun _ => capability.capabilityCookie.toNat).bind
      (takes_pushWord fun _ => capability.capabilityId.toNat))
    rw [List.length_cons, Nat.succ_mul]
    exact htakes

theorem stuck_copyCapabilities : Stuck (copyCapabilities capabilities) := by
  induction capabilities with
  | nil => exact stuck_some
  | cons capability capabilities ih =>
    exact ih.bind ((stuck_push fun _ => _).bind (stuck_push fun _ => _))

theorem takes_copyPointers : Takes (i * 8) (copyPointers i) := by
  induction i with
  | zero =>
    rw [Nat.zero_mul]
    exact takes_some
  | succ i ih =>
    have htakes := (takes_pushWord fun b => b.argvPointers.number (8 * i) 8).bind ih
    rw [Nat.add_comm, ← Nat.succ_mul] at htakes
    exact htakes

theorem stuck_copyPointers : Stuck (copyPointers i) := by
  induction i with
  | zero => exact stuck_some
  | succ i ih => exact (stuck_push fun _ => _).bind ih

theorem takes_copyStatics {argvPtr capPtr : BitVec 64} :
    Takes 32 (copyStatics argvPtr capPtr argc capCount) :=
  (takes_pushWord fun _ => argvPtr.toNat).bind ((takes_pushWord fun _ => argc).bind
    ((takes_pushWord fun _ => capPtr.toNat).bind (takes_pushWord fun _ => capCount)))

theorem copyStatics_high {argvPtr capPtr : BitVec 64} {b : Buffers} (high : 4096 < b.ptr) :
    copyStatics argvPtr capPtr argc capCount b = none := by
  rw [copyStatics, Buffers.pushWord, push_high high, Option.bind_none]

theorem sum_argumentLen_le (args : List (Option (List Byte))) :
    (args.map argumentLen).sum ≤ args.length * 256 := by
  induction args with
  | nil => exact Nat.le_refl _
  | cons arg args ih =>
    have hone : argumentLen arg ≤ 256 := by
      rcases arg with _ | arg
      · exact Nat.zero_le _
      · exact Nat.succ_le_succ length_chars_le
    rw [List.map_cons, List.sum_cons, List.length_cons, Nat.succ_mul]
    omega

/-- Whole words for the strings and their padding. -/
theorem valueCount_eq (few : args.length ≤ 512) :
    valueCount capCount argc args =
      ((args.map argumentLen).sum + 7) / 8 + capCount * 2 + argc + 4 := by
  have hsum := sum_argumentLen_le args
  rw [valueCount, roundUpToMachineWordSize, initStackStaticValueCount, Nat.mod_eq_of_lt (by omega)]
  omega

/-- Values that fit in the page are stored in it. -/
theorem fill_some {args : List (List Byte)} (few : args.length ≤ 512)
    {given : Option (List InitCapability)} {b : Buffers} (high : b.ptr ≤ 4096)
    (room : b.ptr = valueCount (given.getD []).length argc (args.map some) * 8) :
    ∃ b', fill stackBottom (args.map some) argc capCount given b = some b' := by
  rw [valueCount_eq (by rw [List.length_map]; exact few)] at room
  obtain ⟨total, htotal⟩ : ∃ total, total = ((args.map some).map argumentLen).sum := ⟨_, rfl⟩
  have hstrings := @takes_copyStrings stackBottom 0 args (by omega)
  rw [← htotal] at room hstrings
  obtain ⟨b₁, h₁, hptr₁⟩ := hstrings b (by omega) high
  obtain ⟨b₂, h₂, hptr₂⟩ := takes_push (List.replicate (b₁.ptr % 8) 0) b₁
    (by rw [List.length_replicate]; omega) (by omega)
  rw [List.length_replicate] at hptr₂
  dsimp only at h₂
  obtain ⟨b₃, h₃, hptr₃⟩ := @takes_copyCapabilities (given.getD []) b₂ (by omega) (by omega)
  obtain ⟨b₄, h₄, hptr₄⟩ := @takes_copyPointers argc b₃ (by omega) (by omega)
  obtain ⟨b₅, h₅, -⟩ := @takes_copyStatics argc capCount (stackBottom + BitVec.ofNat 64 b₄.ptr)
    (if given.isSome then stackBottom + BitVec.ofNat 64 b₃.ptr else 0) b₄ (by omega) (by omega)
  refine ⟨b₅, ?_⟩
  rw [fill, h₁, Option.bind_some, pad, h₂, Option.bind_some, h₃, Option.bind_some]
  dsimp only
  rw [h₄, Option.bind_some, h₅]

theorem fill_high {given : Option (List InitCapability)} {b : Buffers} (high : 4096 < b.ptr) :
    fill stackBottom args argc capCount given b = none := by
  rcases hfill : fill stackBottom args argc capCount given b with _ | last
  · rfl
  obtain ⟨b₁, h₁, hfill⟩ := Option.bind_eq_some_iff.mp hfill
  obtain ⟨b₂, h₂, hfill⟩ := Option.bind_eq_some_iff.mp hfill
  obtain ⟨b₃, h₃, hfill⟩ := Option.bind_eq_some_iff.mp hfill
  obtain ⟨b₄, h₄, hfill⟩ := Option.bind_eq_some_iff.mp hfill
  have hhigh₁ := stuck_copyStrings b b₁ high h₁
  have hhigh₂ := stuck_push (fun b => List.replicate (b.ptr % 8) 0) b₁ b₂ hhigh₁ h₂
  have hhigh₃ := stuck_copyCapabilities b₂ b₃ hhigh₂ h₃
  have hhigh₄ := stuck_copyPointers b₃ b₄ hhigh₃ h₄
  rw [copyStatics_high hhigh₄] at hfill
  cases hfill

end Values

/-! ## When a process is created -/

/-- The values on the stack of the new process. -/
def Arguments.stackValues (a : Arguments) : Nat :=
  valueCount a.capc.toNat a.argc.toNat ((a.argv.take a.argc.toNat).map some)

/-- The values are not built: too many, or no memory. -/
def Arguments.Refused (a : Arguments) (calls : SystemCalls) : Prop :=
  maxArgCount < a.argc.toNat ∨ 1023 ≤ a.stackValues ∨ calls.argvPage = none ∨
    calls.stackPage = none

/-- The lists are at least as long as their counts say. -/
structure Arguments.Counted (a : Arguments) : Prop where
  capabilities : a.capc.toNat ≤ (a.capv.getD []).length
  arguments : a.argc.toNat ≤ a.argv.length
  taskClass : a.taskClass ≠ .invalid

section Creating

variable {a : Arguments} {calls : SystemCalls}

theorem createServerProcess_refused (valid : a.taskClass ≠ .invalid) (refused : a.Refused calls) :
    createServerProcess a calls = .returned 0 false := by
  have hbuilt : buildNewProcessInitValues stackTop a.capc a.capv a.argc (a.argv.map some)
      calls.argvPage calls.stackPage = .refused := by
    rw [buildNewProcessInitValues]
    split
    · rfl
    dsimp only
    rw [← List.map_take]
    change (if a.stackValues > maxStackValueCount then _ else _) = _
    split
    · rfl
    next hargs _ =>
      rcases hargvPage : calls.argvPage with _ | argvPage
      · rfl
      dsimp only
      split
      · rfl
      next hblocks =>
        rcases hstackPage : calls.stackPage with _ | stackPage
        · rfl
        · exfalso
          rcases refused with h | h | h | h
          · exact hargs h
          · change ¬ (a.stackValues + a.stackValues % 2) / 512 > 1 at hblocks
            omega
          · rw [h] at hargvPage
            cases hargvPage
          · rw [h] at hstackPage
            cases hstackPage
  rw [createServerProcess, if_neg valid, hbuilt]

/-- The checks come before the stores. -/
theorem build_eq (refused : ¬ a.Refused calls) :
    ∃ (stackBottom : BitVec 64) (b : Buffers) (values : Buffers → InitStackValues),
      b.ptr = a.stackValues * 8 ∧
      buildNewProcessInitValues stackTop a.capc a.capv a.argc (a.argv.map some) calls.argvPage
        calls.stackPage =
      (fill stackBottom ((a.argv.take a.argc.toNat).map some) a.argc.toNat a.capc.toNat
        (if a.capc = 0 then none else a.capv.map (·.take a.capc.toNat)) b).elim .fault
        fun b' => .done (values b') := by
  rw [Arguments.Refused, not_or, not_or, not_or] at refused
  obtain ⟨hargs, hcount, hargvPage, hstackPage⟩ := refused
  obtain ⟨argvPointers, hargvPage⟩ := Option.ne_none_iff_exists'.mp hargvPage
  obtain ⟨newStack, hstackPage⟩ := Option.ne_none_iff_exists'.mp hstackPage
  obtain ⟨aligned, haligned⟩ : ∃ aligned, aligned = a.stackValues + a.stackValues % 2 := ⟨_, rfl⟩
  refine ⟨stackTop - BitVec.ofNat 64 (8 * aligned), ⟨newStack, argvPointers, a.stackValues * 8⟩,
    fun b' => ⟨aligned, b'.newStack, aligned / 512⟩, rfl, ?_⟩
  rw [buildNewProcessInitValues, if_neg hargs, ← List.map_take]
  dsimp only
  rw [← Arguments.stackValues, ← haligned, if_neg (by rw [maxStackValueCount]; omega), hargvPage,
    hstackPage]
  dsimp only
  rw [if_neg (by omega)]
  split <;> rename_i h <;> rw [h] <;> rfl

theorem createServerProcess_fault (valid : a.taskClass ≠ .invalid) (refused : ¬ a.Refused calls)
    (large : 512 < a.stackValues) : createServerProcess a calls = .fault := by
  obtain ⟨stackBottom, b, values, hptr, hbuild⟩ := build_eq refused
  rw [fill_high (by omega)] at hbuild
  rw [createServerProcess, if_neg valid, hbuild]
  rfl

/-- Values that fit in their page are built, and the kernel decides. -/
theorem createServerProcess_built (counted : a.Counted) (refused : ¬ a.Refused calls)
    (small : a.stackValues ≤ 512) :
    createServerProcess a calls =
      if calls.result = .ok then .returned calls.value true
      else .returned calls.result.code false := by
  obtain ⟨stackBottom, b, values, hptr, hbuild⟩ := build_eq refused
  have hargc : a.argc.toNat ≤ 512 := by
    apply Nat.le_of_not_lt
    exact fun h => refused (Or.inl h)
  have hgiven : ((if a.capc = 0 then none else a.capv.map (·.take a.capc.toNat)).getD []).length =
      a.capc.toNat := by
    by_cases hnone : a.capc = 0
    · rw [if_pos hnone, hnone]
      rfl
    · have hcapabilities := counted.capabilities
      have hpos : a.capc.toNat ≠ 0 := fun h => hnone (BitVec.eq_of_toNat_eq h)
      rcases hcapv : a.capv with _ | capv
      · rw [hcapv] at hcapabilities
        exact absurd (Nat.le_zero.mp hcapabilities) hpos
      · rw [hcapv] at hcapabilities
        rw [if_neg hnone, Option.map_some, Option.getD_some, List.length_take]
        exact Nat.min_eq_left hcapabilities
  obtain ⟨b', hfill⟩ := @fill_some stackBottom a.argc.toNat a.capc.toNat (a.argv.take a.argc.toNat)
    (by rw [List.length_take]; omega) (if a.capc = 0 then none else a.capv.map (·.take a.capc.toNat))
    b (by omega) (by rw [hgiven, hptr, Arguments.stackValues])
  rw [hfill] at hbuild
  rw [createServerProcess, if_neg counted.taskClass, hbuild]
  rfl

end Creating

end InitialStack
