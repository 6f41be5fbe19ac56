import AnosKernel.InitialStack

/-!
# The bounds of the initial values

When the stores of `build_new_process_init_values` in `system/process.c` stay inside the two pages
that it maps, whatever the arguments and the capabilities are.
-/

namespace InitialBounds

open Bytes CStrings MessagePage SpawnRequest InitialStack

/-- The bytes that are stored for an argument: one for an argument that is null. -/
def storedLen : Option (List Byte) → Nat
  | some arg => (argument arg).length + 1
  | none => 1

/-- Refused, or every store inside its page and the values no longer than the page. -/
def InPage : Built → Prop
  | .refused => True
  | .fault => False
  | .done values => values.valueCount * 8 ≤ 4096

/-- The capabilities that are counted and not stored, since there are none. -/
def unstored (capCount : BitVec 16) (capabilities : Option (List InitCapability)) : Nat :=
  if capabilities.isSome then 0 else capCount.toNat

/-- The values fit in the page, and the bytes stored for null arguments in the padding of the
strings and in the room of capabilities that are not stored. -/
def Roomy (capCount : BitVec 16) (capabilities : Option (List InitCapability)) (argc : BitVec 16)
    (args : List (Option (List Byte))) : Prop :=
  valueCount capCount.toNat argc.toNat args ≤ 512 ∧
    (args.map storedLen).sum ≤
      8 * (((args.map argumentLen).sum + 7) / 8 + 2 * unstored capCount capabilities)

/-- The call fails before the stores: there is no memory, or there are values for two pages. -/
def Fails (capCount argc : BitVec 16) (args : List (Option (List Byte)))
    (argvPage stackPage : Option Page) : Prop :=
  argvPage = none ∨ stackPage = none ∨ 1023 ≤ valueCount capCount.toNat argc.toNat args

/-- A step that fails when there is less room than that below the pointer. -/
def Short (n : Nat) (f : Buffers → Option Buffers) : Prop :=
  ∀ b, b.ptr < n → b.ptr ≤ 4096 → f b = none

section Steps

variable {m n : Nat} {f g : Buffers → Option Buffers}

theorem Short.bind (hf : Short m f) (takes : Takes m f) (hg : Short n g) :
    Short (m + n) fun b => (f b).bind g := by
  intro b hshort hhigh
  dsimp only
  by_cases hroom : b.ptr < m
  · rw [hf b hroom hhigh, Option.bind_none]
  · obtain ⟨b', hb', hptr⟩ := takes b (Nat.not_lt.mp hroom) hhigh
    rw [hb', Option.bind_some]
    exact hg b' (by omega) (by omega)

theorem short_zero (f : Buffers → Option Buffers) : Short 0 f :=
  fun _ hshort _ => absurd hshort (Nat.not_lt_zero _)

theorem short_push (bytes : Buffers → List Byte) {n : Nat} (sized : ∀ b, (bytes b).length = n) :
    Short n fun b => b.push (bytes b) := by
  intro b hshort _
  dsimp only
  rw [Buffers.push, dif_neg]
  rw [sized b]
  omega

theorem short_pushWord (word : Buffers → Nat) : Short 8 fun b => b.pushWord (word b) :=
  short_push (fun b => toBytes 8 (word b)) fun _ => length_toBytes

end Steps

section Values

variable {stackBottom : BitVec 64} {args : List (Option (List Byte))} {argc capCount i : Nat}
  {capabilities : List InitCapability}

theorem takes_copyString_any (low : i < 512) (arg : Option (List Byte)) :
    Takes (storedLen arg) fun b => copyString stackBottom i b arg := by
  rcases arg with _ | arg
  · exact takes_push [0]
  · exact takes_copyString low arg

theorem short_copyString (arg : Option (List Byte)) :
    Short (storedLen arg) fun b => copyString stackBottom i b arg := by
  rcases arg with _ | arg
  · exact short_push (fun _ => [0]) fun _ => rfl
  · have hrest := (short_push (fun _ => argument arg) fun _ => rfl).bind (takes_push (argument arg))
      (short_zero fun b => b.point i (stackBottom + BitVec.ofNat 64 b.ptr))
    have hshort := (short_push (fun _ => [0]) fun _ => rfl).bind (takes_push [0]) hrest
    rw [Nat.add_zero, Nat.add_comm] at hshort
    exact hshort

/-- The strings take what is stored for them, null or not. -/
theorem takes_copyStrings_any (few : i + args.length ≤ 512) :
    Takes (args.map storedLen).sum (copyStrings stackBottom i args) ∧
      Short (args.map storedLen).sum (copyStrings stackBottom i args) := by
  induction args generalizing i with
  | nil => exact ⟨takes_some, short_zero some⟩
  | cons arg args ih =>
    rw [List.length_cons] at few
    obtain ⟨htakes, hshort⟩ := @ih (i + 1) (by omega)
    have hone := @takes_copyString_any stackBottom i (by omega) arg
    rw [List.map_cons, List.sum_cons, Nat.add_comm]
    exact ⟨htakes.bind hone, hshort.bind htakes (short_copyString arg)⟩

theorem short_copyCapabilities :
    Short (capabilities.length * 16) (copyCapabilities capabilities) := by
  induction capabilities with
  | nil => exact short_zero some
  | cons capability capabilities ih =>
    have hwords := (short_pushWord fun _ => capability.capabilityCookie.toNat).bind
      (takes_pushWord fun _ => capability.capabilityCookie.toNat)
      (short_pushWord fun _ => capability.capabilityId.toNat)
    have hshort := ih.bind takes_copyCapabilities hwords
    rw [List.length_cons, Nat.succ_mul]
    exact hshort

theorem short_copyPointers : Short (i * 8) (copyPointers i) := by
  induction i with
  | zero =>
    rw [Nat.zero_mul]
    exact short_zero some
  | succ i ih =>
    have hshort := (short_pushWord fun b => b.argvPointers.number (8 * i) 8).bind
      (takes_pushWord fun b => b.argvPointers.number (8 * i) 8) ih
    rw [Nat.add_comm, ← Nat.succ_mul] at hshort
    exact hshort

theorem short_copyStatics {argvPtr capPtr : BitVec 64} :
    Short 32 (copyStatics argvPtr capPtr argc capCount) :=
  (short_pushWord fun _ => argvPtr.toNat).bind (takes_pushWord fun _ => argvPtr.toNat)
    ((short_pushWord fun _ => argc).bind (takes_pushWord fun _ => argc)
      ((short_pushWord fun _ => capPtr.toNat).bind (takes_pushWord fun _ => capPtr.toNat)
        (short_pushWord fun _ => capCount)))

/-- What is stored below the strings starts at a word. -/
theorem fill_isSome_iff (few : args.length ≤ 512) {given : Option (List InitCapability)}
    {b : Buffers} (high : b.ptr ≤ 4096) :
    (∃ b', fill stackBottom args argc capCount given b = some b') ↔
      (args.map storedLen).sum ≤ b.ptr ∧
        (given.getD []).length * 16 + (argc * 8 + 32) ≤
          (b.ptr - (args.map storedLen).sum) / 8 * 8 := by
  obtain ⟨stored, hstored⟩ : ∃ stored, stored = (args.map storedLen).sum := ⟨_, rfl⟩
  obtain ⟨htakes, hshort⟩ := @takes_copyStrings_any stackBottom args 0 (by omega)
  have hnone : ¬ ∃ b', (none : Option Buffers) = some b' := by
    rintro ⟨b', h⟩
    cases h
  rw [← hstored] at htakes hshort ⊢
  by_cases hroom : stored ≤ b.ptr
  · obtain ⟨b₁, h₁, hptr₁⟩ := htakes b hroom high
    obtain ⟨b₂, h₂, hptr₂⟩ := takes_push (List.replicate (b₁.ptr % 8) 0) b₁
      (by rw [List.length_replicate]; omega) (by omega)
    rw [List.length_replicate] at hptr₂
    dsimp only at h₂
    have hfill : fill stackBottom args argc capCount given b =
        (copyCapabilities (given.getD []) b₂).bind fun b => (copyPointers argc b).bind fun b' =>
          copyStatics (stackBottom + BitVec.ofNat 64 b'.ptr)
            (if given.isSome then stackBottom + BitVec.ofNat 64 b.ptr else 0) argc capCount b' := by
      rw [fill, h₁, Option.bind_some, pad, h₂, Option.bind_some]
    have hlow : b₂.ptr = (b.ptr - stored) / 8 * 8 := by omega
    rw [hfill, ← hlow]
    by_cases hcaps : (given.getD []).length * 16 ≤ b₂.ptr
    · obtain ⟨b₃, h₃, hptr₃⟩ := @takes_copyCapabilities (given.getD []) b₂ hcaps (by omega)
      rw [h₃, Option.bind_some]
      by_cases hpointers : argc * 8 ≤ b₃.ptr
      · obtain ⟨b₄, h₄, hptr₄⟩ := @takes_copyPointers argc b₃ hpointers (by omega)
        rw [h₄, Option.bind_some]
        by_cases hstatics : 32 ≤ b₄.ptr
        · obtain ⟨b₅, h₅, -⟩ := @takes_copyStatics argc capCount
            (stackBottom + BitVec.ofNat 64 b₄.ptr)
            (if given.isSome then stackBottom + BitVec.ofNat 64 b₃.ptr else 0) b₄ hstatics (by omega)
          exact iff_of_true ⟨b₅, h₅⟩ ⟨hroom, by omega⟩
        · rw [short_copyStatics b₄ (Nat.not_le.mp hstatics) (by omega)]
          exact iff_of_false hnone (by omega)
      · rw [short_copyPointers b₃ (Nat.not_le.mp hpointers) (by omega), Option.bind_none]
        exact iff_of_false hnone (by omega)
    · rw [short_copyCapabilities b₂ (Nat.not_le.mp hcaps) (by omega), Option.bind_none]
      exact iff_of_false hnone (by omega)
  · rw [fill, hshort b (Nat.not_le.mp hroom) high, Option.bind_none]
    exact iff_of_false hnone (by omega)

end Values

section Calls

variable {stackTopAddr : BitVec 64} {capCount argc : BitVec 16}
  {capabilities : Option (List InitCapability)} {argv : List (Option (List Byte))}
  {argvPage stackPage : Option Page}

/-- The capabilities that are stored. -/
theorem length_given (counted : ∀ l, capabilities = some l → capCount.toNat ≤ l.length) :
    ((if capCount = 0 then none else capabilities.map (·.take capCount.toNat)).getD []).length +
      unstored capCount capabilities = capCount.toNat := by
  by_cases hnone : capCount = 0
  · rw [if_pos hnone, unstored, hnone]
    split_ifs
    · rfl
    · rfl
  · rw [if_neg hnone, unstored]
    rcases hcap : capabilities with _ | l
    · exact Nat.zero_add _
    · have hlength := counted l hcap
      have hsome : (some l).isSome = true := rfl
      rw [Option.map_some, Option.getD_some, List.length_take, if_pos hsome]
      omega

theorem build_refused (fails : Fails capCount argc (argv.take argc.toNat) argvPage stackPage) :
    buildNewProcessInitValues stackTopAddr capCount capabilities argc argv argvPage stackPage =
      .refused := by
  rw [buildNewProcessInitValues]
  split
  · rfl
  dsimp only
  split
  · rfl
  rcases hargvPage : argvPage with _ | argvPointers
  · rfl
  dsimp only
  split
  · rfl
  next hblocks =>
    rcases hstackPage : stackPage with _ | newStack
    · rfl
    · exfalso
      rcases fails with h | h | h
      · rw [h] at hargvPage
        cases hargvPage
      · rw [h] at hstackPage
        cases hstackPage
      · omega

/-- Past the checks the stores decide. -/
theorem build_stores (few : argc.toNat ≤ maxArgCount) {argvPointers newStack : Page} {count : Nat}
    (hcount : valueCount capCount.toNat argc.toNat (argv.take argc.toNat) = count)
    (small : count < 1023) :
    buildNewProcessInitValues stackTopAddr capCount capabilities argc argv (some argvPointers)
        (some newStack) =
      (fill (stackTopAddr - BitVec.ofNat 64 (8 * (count + count % 2))) (argv.take argc.toNat)
        argc.toNat capCount.toNat
        (if capCount = 0 then none else capabilities.map (·.take capCount.toNat))
        ⟨newStack, argvPointers, count * 8⟩).elim .fault
        fun b => .done ⟨count + count % 2, b.newStack, (count + count % 2) / 512⟩ := by
  rw [buildNewProcessInitValues, if_neg (Nat.not_lt.mpr few)]
  dsimp only
  rw [hcount, if_neg (by rw [maxStackValueCount]; omega), if_neg (by omega)]
  split <;> rename_i h <;> rw [h] <;> rfl

end Calls

/-- A call that is not refused stays in its pages exactly when there is room for all that it
stores. -/
theorem build_in_page_iff {stackTopAddr : BitVec 64} {capCount argc : BitVec 16}
    {capabilities : Option (List InitCapability)} {argv : List (Option (List Byte))}
    {argvPage stackPage : Option Page} (few : argc.toNat ≤ maxArgCount)
    (counted : ∀ l, capabilities = some l → capCount.toNat ≤ l.length) :
    InPage (buildNewProcessInitValues stackTopAddr capCount capabilities argc argv argvPage
        stackPage) ↔
      Fails capCount argc (argv.take argc.toNat) argvPage stackPage ∨
        Roomy capCount capabilities argc (argv.take argc.toNat) := by
  by_cases hfails : Fails capCount argc (argv.take argc.toNat) argvPage stackPage
  · rw [build_refused hfails]
    exact iff_of_true trivial (Or.inl hfails)
  · have hparts := hfails
    rw [Fails, not_or, not_or] at hparts
    obtain ⟨hargvPage, hstackPage, hsmall⟩ := hparts
    obtain ⟨argvPointers, rfl⟩ := Option.ne_none_iff_exists'.mp hargvPage
    obtain ⟨newStack, rfl⟩ := Option.ne_none_iff_exists'.mp hstackPage
    have hbuild := @build_stores stackTopAddr capCount argc capabilities argv few argvPointers
      newStack _ rfl (Nat.not_le.mp hsmall)
    have hlength : (argv.take argc.toNat).length ≤ 512 := by
      rw [List.length_take]
      exact Nat.le_trans (Nat.min_le_left _ _) few
    have hcaps := length_given counted
    have hcount := @valueCount_eq (argv.take argc.toNat) argc.toNat capCount.toNat hlength
    rw [hbuild, or_iff_right hfails, Roomy]
    generalize valueCount capCount.toNat argc.toNat (argv.take argc.toNat) = count at *
    generalize stackTopAddr - BitVec.ofNat 64 (8 * (count + count % 2)) = stackBottom
    by_cases hfits : count ≤ 512
    · have hiff := @fill_isSome_iff stackBottom (argv.take argc.toNat) argc.toNat capCount.toNat
        hlength (if capCount = 0 then none else capabilities.map (·.take capCount.toNat))
        ⟨newStack, argvPointers, count * 8⟩ (by dsimp only; omega)
      dsimp only at hiff
      generalize (((if capCount = 0 then none else
        capabilities.map (·.take capCount.toNat)) : Option (List InitCapability)).getD []).length =
        given at hcaps hiff
      rcases hfill : fill stackBottom (argv.take argc.toNat) argc.toNat capCount.toNat
        (if capCount = 0 then none else capabilities.map (·.take capCount.toNat))
        ⟨newStack, argvPointers, count * 8⟩ with _ | b
      · rw [hfill] at hiff
        have hno := hiff.not.mp (by simp)
        exact iff_of_false (fun h => h) (by omega)
      · rw [hfill] at hiff
        have hyes := hiff.mp ⟨b, rfl⟩
        refine iff_of_true ?_ (by omega)
        show (count + count % 2) * 8 ≤ 4096
        omega
    · rw [fill_high (by dsimp only; omega)]
      exact iff_of_false (fun h => h) (fun h => hfits h.1)

/-- A page as it is mapped. -/
def zeroPage : Page := ⟨List.replicate 4096 0, length_zeros⟩

theorem build_in_page_one_argument :
    InPage (buildNewProcessInitValues stackTop 0 none 1 [some [0x61]] (some zeroPage)
        (some zeroPage)) ↔
      Fails 0 1 [some [0x61]] (some zeroPage) (some zeroPage) ∨ Roomy 0 none 1 [some [0x61]] :=
  build_in_page_iff (by decide) (by simp)

/-- One argument that is null has 8 bytes too few, and so have 512 empty ones and 255 capabilities,
which have values for more than a page. -/
theorem stores_leave_the_page :
    buildNewProcessInitValues stackTop 0 none 1 [none] (some zeroPage) (some zeroPage) = .fault ∧
      buildNewProcessInitValues stackTop 0 none 512 (List.replicate 512 (some [])) (some zeroPage)
        (some zeroPage) = .fault ∧
      buildNewProcessInitValues stackTop 255 (some (List.replicate 255 ⟨1, 2⟩)) 0 [] (some zeroPage)
        (some zeroPage) = .fault := by
  have hlarge : ∀ (capCount argc : BitVec 16) (capabilities : Option (List InitCapability))
      (argv : List (Option (List Byte))), argc.toNat ≤ maxArgCount →
      valueCount capCount.toNat argc.toNat (argv.take argc.toNat) < 1023 →
      512 < valueCount capCount.toNat argc.toNat (argv.take argc.toNat) →
      buildNewProcessInitValues stackTop capCount capabilities argc argv (some zeroPage)
        (some zeroPage) = .fault := by
    intro capCount argc capabilities argv few small large
    rw [build_stores few rfl small, fill_high (by dsimp only; omega)]
    rfl
  refine ⟨rfl, hlarge _ _ _ _ ?_ ?_ ?_, hlarge _ _ _ _ ?_ ?_ ?_⟩
  · decide
  · decide +kernel
  · decide +kernel
  · decide
  · decide +kernel
  · decide +kernel

end InitialBounds
