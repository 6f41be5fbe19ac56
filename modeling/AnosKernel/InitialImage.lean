import AnosKernel.InitialBounds
import AnosKernel.Lib.Spans

/-!
# The image of the initial stack

What a new process reads from its stack, when the values that `build_new_process_init_values` of
`system/process.c` leaves in a page are put below the top of the stack.
-/

namespace InitialImage

open Bytes CStrings MessagePage SpawnRequest InitialStack InitialBounds Spans

/-- The words that are put on the stack, as bytes. -/
def imageOf (values : InitStackValues) : List Byte :=
  slice 0 (8 * values.valueCount) values.data.bytes

/-- The word at an address, with the image from `bottom` on. -/
def wordAt (image : List Byte) (bottom address : BitVec 64) : Option (BitVec 64) :=
  if (address - bottom).toNat + 8 ≤ image.length then
    some (BitVec.ofNat 64 (ofBytes (slice (address - bottom).toNat 8 image)))
  else none

/-- Two words for a capability. -/
def HasCapability (image : List Byte) (bottom address : BitVec 64) (c : InitCapability) : Prop :=
  wordAt image bottom address = some c.capabilityId ∧
    wordAt image bottom (addr address 8) = some c.capabilityCookie

/-- An argument, cut off behind 255 characters, and a zero. -/
def HasString (image : List Byte) (bottom address : BitVec 64) (arg : List Byte) : Prop :=
  slice (address - bottom).toNat ((argument arg).length + 1) image = argument arg ++ [0]

/-- The bytes from an address on. -/
def stretch (bottom address : BitVec 64) (size : Nat) : Span := ⟨(address - bottom).toNat, size⟩

/-- The four values, the capabilities if there are any, the pointers and the strings. -/
def parts (bottom capPtr argvPtr : BitVec 64) (pointers : List (BitVec 64)) (capCount : Nat)
    (args : List (List Byte)) : List Span :=
  ⟨0, 32⟩ :: stretch bottom argvPtr (8 * args.length) ::
    ((if capCount = 0 then [] else [stretch bottom capPtr (16 * capCount)]) ++
      List.zipWith (fun p arg => stretch bottom p ((argument arg).length + 1)) pointers args)

/-- What is read through the pointers of the image. -/
structure Reads (image : List Byte) (bottom : BitVec 64) (capabilities : List InitCapability)
    (args : List (List Byte)) (capPtr argvPtr : BitVec 64) (pointers : List (BitVec 64)) : Prop where
  capCountWord : wordAt image bottom bottom = some (BitVec.ofNat 64 capabilities.length)
  capPtrWord : wordAt image bottom (addr bottom 8) = some capPtr
  argcWord : wordAt image bottom (addr bottom 16) = some (BitVec.ofNat 64 args.length)
  argvPtrWord : wordAt image bottom (addr bottom 24) = some argvPtr
  noCapabilities : capabilities = [] → capPtr = 0
  eachCapability : ∀ i c, capabilities[i]? = some c →
    HasCapability image bottom (addr capPtr (16 * i)) c
  count : pointers.length = args.length
  eachPointer : ∀ i p, pointers[i]? = some p → wordAt image bottom (addr argvPtr (8 * i)) = some p
  eachString : ∀ (i : Nat) p arg, pointers[i]? = some p → args[i]? = some arg →
    HasString image bottom p arg
  inside : ∀ part ∈ parts bottom capPtr argvPtr pointers capabilities.length args,
    part.stop ≤ image.length
  apart : (parts bottom capPtr argvPtr pointers capabilities.length args).Pairwise
    fun s t => ∀ n, s.Has n → ¬ t.Has n

/-- The image for a stack with its top at `stackTopAddr`. -/
def RoundTrip (stackTopAddr : BitVec 64) (capabilities : List InitCapability)
    (args : List (List Byte)) (values : InitStackValues) : Prop :=
  values.valueCount % 2 = 0 ∧ ∃ capPtr argvPtr pointers,
    Reads (imageOf values)
      (stackTopAddr - BitVec.ofNat 64 (8 * values.valueCount)) capabilities args capPtr argvPtr
      pointers

/-! ## What is stored -/

/-- What was stored, from the pointer on, and what was in the page behind that. -/
def fromPtr (b : Buffers) : List Byte := b.newStack.bytes.drop b.ptr

/-- A string and its end, as it is stored. -/
def stored (arg : List Byte) : List Byte := argument arg ++ [0]

theorem length_stored (arg : List Byte) : (stored arg).length = argumentLen (some arg) := by
  rw [stored, List.length_append, List.length_singleton, argumentLen]

/-- The strings from a place on, one behind the other. -/
def stringSpans : Nat → List (List Byte) → List Span
  | _, [] => []
  | o, arg :: args => ⟨o, (stored arg).length⟩ :: stringSpans (o + (stored arg).length) args

section Storing

variable {b b' : Buffers} {bytes : List Byte} {stackBottom : BitVec 64} {i word : Nat}

/-- The bytes were put in front of what was stored before, and the pointers left alone. -/
structure Puts (b b' : Buffers) (bytes : List Byte) : Prop where
  front : fromPtr b' = bytes ++ fromPtr b
  ptr : b'.ptr + bytes.length = b.ptr
  argv : b'.argvPointers = b.argvPointers

theorem Puts.nil : Puts b b [] := ⟨rfl, rfl, rfl⟩

theorem Puts.trans {b'' : Buffers} {more : List Byte} (h : Puts b b' bytes) (h' : Puts b' b'' more) :
    Puts b b'' (more ++ bytes) := by
  constructor
  · rw [h'.front, h.front, List.append_assoc]
  · have hptr := h.ptr
    have hptr' := h'.ptr
    rw [List.length_append]
    omega
  · exact h'.argv.trans h.argv

theorem push_puts (h : b.push bytes = some b') : Puts b b' bytes := by
  rw [Buffers.push] at h
  split_ifs at h with hfits
  obtain rfl := Option.some.inj h
  obtain ⟨hroom, hhigh⟩ := hfits
  refine ⟨?_, ?_, rfl⟩
  · rw [fromPtr, Page.drop_write, Nat.sub_add_cancel hroom, fromPtr]
  · exact Nat.sub_add_cancel hroom

theorem pushWord_puts (h : b.pushWord word = some b') : Puts b b' (toBytes 8 word) := push_puts h

/-- A pointer is written, and the pointers behind it stay. -/
theorem point_writes {pointer : BitVec 64} (h : b.point i pointer = some b') :
    fromPtr b' = fromPtr b ∧ b'.ptr = b.ptr ∧
      b'.argvPointers.number (8 * i) 8 = pointer.toNat ∧
      ∀ j > i, b'.argvPointers.number (8 * j) 8 = b.argvPointers.number (8 * j) 8 := by
  rw [Buffers.point] at h
  split_ifs at h with hfits
  obtain rfl := Option.some.inj h
  refine ⟨rfl, rfl, ?_, ?_⟩
  · exact Page.number_write (by rw [length_toBytes]; exact hfits) pointer.isLt
  · intro j hj
    rw [Page.number, Page.write]
    dsimp only
    rw [slice_patch_after (by rw [length_toBytes]; omega) (by rw [b.argvPointers.full]; omega),
      Page.number]

/-- The strings are stored in their order, and the page of the pointers says where. -/
theorem copyStrings_puts {args : List (List Byte)}
    (h : copyStrings stackBottom i (args.map some) b = some b') :
    fromPtr b' = args.flatMap stored ++ fromPtr b ∧
      b'.ptr + (args.flatMap stored).length = b.ptr ∧
      ∀ j s, (stringSpans b'.ptr args)[j]? = some s →
        b'.argvPointers.number (8 * (i + j)) 8 = (addr stackBottom s.start).toNat := by
  induction args generalizing i b' with
  | nil =>
    cases h
    refine ⟨rfl, rfl, fun j s hs => ?_⟩
    cases hs
  | cons arg args ih =>
    obtain ⟨b₁, h₁, hone⟩ := Option.bind_eq_some_iff.mp h
    obtain ⟨hrest₁, hptr₁, hargv₁⟩ := ih h₁
    obtain ⟨b₂, h₂, hone⟩ := Option.bind_eq_some_iff.mp hone
    obtain ⟨b₃, h₃, hpoint⟩ := Option.bind_eq_some_iff.mp hone
    have hputs := (push_puts h₂).trans (push_puts h₃)
    obtain ⟨hrest, hptr, hwritten, hkept⟩ := point_writes hpoint
    have hput := hputs.ptr
    have hdown : b'.ptr + (stored arg).length = b₁.ptr := by
      rw [hptr]
      exact hput
    refine ⟨?_, ?_, ?_⟩
    · have hstored : argument arg ++ [0] = stored arg := rfl
      rw [hrest, hputs.front, hrest₁, hstored, List.flatMap_cons, List.append_assoc]
    · rw [List.flatMap_cons, List.length_append]
      omega
    · intro j s hs
      rw [stringSpans] at hs
      cases j with
      | zero =>
        obtain rfl := Option.some.inj hs
        rw [Nat.add_zero, hwritten, hptr]
        rfl
      | succ j =>
        rw [List.getElem?_cons_succ, hdown] at hs
        have hbehind : i + (j + 1) = i + 1 + j := by omega
        rw [hkept _ (by omega), hputs.argv, hbehind]
        exact hargv₁ j s hs

theorem copyCapabilities_puts {capabilities : List InitCapability}
    (h : copyCapabilities capabilities b = some b') :
    Puts b b' (capabilities.flatMap InitCapability.bytes) := by
  induction capabilities generalizing b' with
  | nil =>
    cases h
    exact .nil
  | cons capability capabilities ih =>
    obtain ⟨b₁, h₁, hwords⟩ := Option.bind_eq_some_iff.mp h
    obtain ⟨b₂, h₂, h₃⟩ := Option.bind_eq_some_iff.mp hwords
    have hputs := ((ih h₁).trans (pushWord_puts h₂)).trans (pushWord_puts h₃)
    rw [← List.append_assoc] at hputs
    rw [List.flatMap_cons]
    exact hputs

/-- The pointers are stored in the order of their indices. -/
theorem copyPointers_puts (h : copyPointers i b = some b') :
    Puts b b' ((List.range i).flatMap fun j => toBytes 8 (b.argvPointers.number (8 * j) 8)) := by
  induction i generalizing b with
  | zero =>
    cases h
    exact .nil
  | succ i ih =>
    obtain ⟨b₁, h₁, h₂⟩ := Option.bind_eq_some_iff.mp h
    have hword := pushWord_puts h₁
    have hputs := hword.trans (ih h₂)
    rw [List.range_succ, List.flatMap_append, List.flatMap_singleton]
    rw [hword.argv] at hputs
    exact hputs

theorem copyStatics_puts {argvPtr capPtr : BitVec 64} {argc capCount : Nat}
    (h : copyStatics argvPtr capPtr argc capCount b = some b') :
    Puts b b' (toBytes 8 capCount ++ (toBytes 8 capPtr.toNat ++ (toBytes 8 argc ++
      toBytes 8 argvPtr.toNat))) := by
  obtain ⟨b₁, h₁, h⟩ := Option.bind_eq_some_iff.mp h
  obtain ⟨b₂, h₂, h⟩ := Option.bind_eq_some_iff.mp h
  obtain ⟨b₃, h₃, h₄⟩ := Option.bind_eq_some_iff.mp h
  exact (((pushWord_puts h₁).trans (pushWord_puts h₂)).trans (pushWord_puts h₃)).trans
    (pushWord_puts h₄)

theorem length_stringSpans {o : Nat} {args : List (List Byte)} :
    (stringSpans o args).length = args.length := by
  induction args generalizing o with
  | nil => rfl
  | cons arg args ih => rw [stringSpans, List.length_cons, List.length_cons, ih]

/-- The words at the bottom of what is stored. -/
def statics (capPtr argvPtr : BitVec 64) (argc capCount : Nat) : List Byte :=
  toBytes 8 capCount ++ (toBytes 8 capPtr.toNat ++ (toBytes 8 argc ++ toBytes 8 argvPtr.toNat))

theorem length_statics {capPtr argvPtr : BitVec 64} {argc capCount : Nat} :
    (statics capPtr argvPtr argc capCount).length = 32 := by
  simp only [statics, List.length_append, length_toBytes]

/-- All that is stored, with the places that the pointers point to. -/
theorem fill_puts {args : List (List Byte)} {capCount : Nat} {given : Option (List InitCapability)}
    (h : fill stackBottom (args.map some) args.length capCount given b = some b') :
    ∃ (padding : List Byte) (o : Nat),
      b'.ptr + 32 + 8 * args.length + ((given.getD []).flatMap InitCapability.bytes).length +
        padding.length = o ∧
      o + (args.flatMap stored).length = b.ptr ∧ padding.length = o % 8 ∧
      fromPtr b' =
        statics (if given.isSome then addr stackBottom (b'.ptr + 32 + 8 * args.length) else 0)
          (addr stackBottom (b'.ptr + 32)) args.length capCount ++
        ((stringSpans o args).flatMap (fun s => toBytes 8 (addr stackBottom s.start).toNat) ++
          ((given.getD []).flatMap InitCapability.bytes ++
            (padding ++ (args.flatMap stored ++ fromPtr b)))) := by
  obtain ⟨b₁, h₁, h⟩ := Option.bind_eq_some_iff.mp h
  obtain ⟨b₂, h₂, h⟩ := Option.bind_eq_some_iff.mp h
  obtain ⟨b₃, h₃, h⟩ := Option.bind_eq_some_iff.mp h
  obtain ⟨b₄, h₄, h₅⟩ := Option.bind_eq_some_iff.mp h
  obtain ⟨hrest, hptr, hargv⟩ := copyStrings_puts h₁
  have hpad := push_puts h₂
  have hcaps := copyCapabilities_puts h₃
  have hpointers := copyPointers_puts h₄
  have hstatics := copyStatics_puts h₅
  have hwords : ((List.range args.length).flatMap fun j =>
      toBytes 8 (b₃.argvPointers.number (8 * j) 8)) =
        (stringSpans b₁.ptr args).flatMap fun s => toBytes 8 (addr stackBottom s.start).toNat := by
    apply flatMap_range length_stringSpans.symm
    intro j s hs
    have hnumber := hargv j s hs
    rw [Nat.zero_add, ← hpad.argv, ← hcaps.argv] at hnumber
    rw [hnumber]
  have hsize : ((stringSpans b₁.ptr args).flatMap fun s =>
      toBytes 8 (addr stackBottom s.start).toNat).length = 8 * args.length := by
    rw [length_records (fun _ => length_toBytes), length_stringSpans]
  rw [hwords] at hpointers
  have hptr₂ := hpad.ptr
  have hptr₃ := hcaps.ptr
  have hptr₄ := hpointers.ptr
  have hptr₅ : b'.ptr + 32 = b₄.ptr := by
    have hlast := hstatics.ptr
    simp only [List.length_append, length_toBytes] at hlast
    exact hlast
  rw [hsize] at hptr₄
  rw [List.length_replicate] at hptr₂
  refine ⟨List.replicate (b₁.ptr % 8) 0, b₁.ptr, ?_, hptr, List.length_replicate, ?_⟩
  · rw [List.length_replicate]
    omega
  · have hargvPtr : addr stackBottom (b'.ptr + 32) = stackBottom + BitVec.ofNat 64 b₄.ptr := by
      rw [hptr₅, addr]
    have hcapPtr : addr stackBottom (b'.ptr + 32 + 8 * args.length) =
        stackBottom + BitVec.ofNat 64 b₃.ptr := by
      rw [hptr₅, hptr₄, addr]
    rw [hstatics.front, hpointers.front, hcaps.front, hpad.front, hrest, hargvPtr, hcapPtr, statics]

end Storing

/-! ## What is read -/

section Reading

variable {image : List Byte} {bottom : BitVec 64} {o v : Nat}

theorem slice_of_drop {piece : List Byte} (h : ∃ more, image.drop o = piece ++ more) :
    slice o piece.length image = piece := by
  obtain ⟨more, hdrop⟩ := h
  rw [slice, hdrop, List.take_left]

theorem wordAt_of_drop (small : o < 2 ^ 64) (h : ∃ more, image.drop o = toBytes 8 v ++ more) :
    wordAt image bottom (addr bottom o) = some (BitVec.ofNat 64 v) := by
  have hslice := slice_of_drop h
  rw [length_toBytes] at hslice
  obtain ⟨more, hdrop⟩ := h
  have hlength : o + 8 ≤ image.length := by
    have hparts := congrArg List.length hdrop
    rw [List.length_drop, List.length_append, length_toBytes] at hparts
    omega
  have hword : BitVec.ofNat 64 (v % 256 ^ 8) = BitVec.ofNat 64 v := by
    apply BitVec.eq_of_toNat_eq
    rw [BitVec.toNat_ofNat, BitVec.toNat_ofNat]
    omega
  rw [wordAt, toNat_addr_sub small, if_pos hlength, hslice, ofBytes_toBytes_mod, hword]

theorem wordAt_of_drop_word {word : BitVec 64} (small : o < 2 ^ 64)
    (h : ∃ more, image.drop o = toBytes 8 word.toNat ++ more) :
    wordAt image bottom (addr bottom o) = some word := by
  rw [wordAt_of_drop small h, BitVec.ofNat_toNat, BitVec.setWidth_eq]

/-- Where a string was put, and that it is there. -/
theorem stringSpans_get {args : List (List Byte)} {i : Nat} {s : Span}
    (h : (stringSpans o args)[i]? = some s) :
    ∃ arg, args[i]? = some arg ∧ o ≤ s.start ∧ s.stop ≤ o + (args.flatMap stored).length ∧
      ∀ rest, ∃ more, (args.flatMap stored ++ rest).drop (s.start - o) = stored arg ++ more := by
  induction args generalizing o i with
  | nil => cases h
  | cons arg args ih =>
    rw [stringSpans] at h
    cases i with
    | zero =>
      obtain rfl := Option.some.inj h
      refine ⟨arg, rfl, Nat.le_refl o, ?_, fun rest => ?_⟩
      · rw [List.flatMap_cons, List.length_append]
        exact Nat.add_le_add_left (Nat.le_add_right _ _) o
      · rw [Nat.sub_self, List.drop_zero, List.flatMap_cons, List.append_assoc]
        exact ⟨_, rfl⟩
    | succ i =>
      rw [List.getElem?_cons_succ] at h
      obtain ⟨other, hother, hlow, hhigh, hdrop⟩ := ih h
      refine ⟨other, hother, by omega, ?_, fun rest => ?_⟩
      · rw [List.flatMap_cons, List.length_append]
        omega
      · obtain ⟨more, hmore⟩ := hdrop rest
        have hoffset :
            s.start - o = (stored arg).length + (s.start - (o + (stored arg).length)) := by
          omega
        rw [List.flatMap_cons, List.append_assoc, hoffset, ← List.drop_drop, List.drop_left]
        exact ⟨more, hmore⟩

theorem stringSpans_bounds {args : List (List Byte)} {s : Span} (h : s ∈ stringSpans o args) :
    o ≤ s.start ∧ s.stop ≤ o + (args.flatMap stored).length := by
  obtain ⟨i, hi⟩ := List.mem_iff_getElem?.mp h
  obtain ⟨-, -, hlow, hhigh, -⟩ := stringSpans_get hi
  exact ⟨hlow, hhigh⟩

theorem stringSpans_ordered {args : List (List Byte)} :
    (stringSpans o args).Pairwise fun s t => s.stop ≤ t.start := by
  induction args generalizing o with
  | nil => exact List.Pairwise.nil
  | cons arg args ih =>
    refine List.pairwise_cons.mpr ⟨fun t ht => ?_, ih⟩
    exact (stringSpans_bounds ht).1

/-- The pointers are read as the places. -/
theorem zipWith_stretch {args : List (List Byte)}
    (small : o + (args.flatMap stored).length < 2 ^ 64) :
    List.zipWith (fun p arg => stretch bottom p ((argument arg).length + 1))
      ((stringSpans o args).map fun s => addr bottom s.start) args = stringSpans o args := by
  induction args generalizing o with
  | nil => rfl
  | cons arg args ih =>
    rw [List.flatMap_cons, List.length_append] at small
    have hfirst : stretch bottom (addr bottom o) ((argument arg).length + 1) =
        ⟨o, (stored arg).length⟩ := by
      rw [stretch, toNat_addr_sub (by omega), length_stored, argumentLen]
    rw [stringSpans, List.map_cons, List.zipWith_cons_cons, hfirst, ih (by omega)]

/-- The parts by their places. -/
theorem parts_eq {capCount : Nat} {args : List (List Byte)} {capPtr : BitVec 64}
    (given : capCount ≠ 0 → capPtr = addr bottom (32 + 8 * args.length))
    (place : 32 + 8 * args.length ≤ o) (small : o + (args.flatMap stored).length < 2 ^ 64) :
    parts bottom capPtr (addr bottom 32) ((stringSpans o args).map fun s => addr bottom s.start)
        capCount args =
      ⟨0, 32⟩ :: ⟨32, 8 * args.length⟩ ::
        ((if capCount = 0 then [] else [⟨32 + 8 * args.length, 16 * capCount⟩]) ++
          stringSpans o args) := by
  have hargv : stretch bottom (addr bottom 32) (8 * args.length) = ⟨32, 8 * args.length⟩ := by
    rw [stretch, toNat_addr_sub (by omega)]
  rw [parts, zipWith_stretch small, hargv]
  by_cases hnone : capCount = 0
  · rw [if_pos hnone, if_pos hnone]
  · rw [if_neg hnone, if_neg hnone, given hnone, stretch, toNat_addr_sub (by omega)]

/-- In this order no part reaches into the next. -/
theorem parts_ordered {capCount : Nat} {args : List (List Byte)}
    (place : 32 + 8 * args.length + 16 * capCount ≤ o) :
    (⟨0, 32⟩ :: ⟨32, 8 * args.length⟩ ::
      ((if capCount = 0 then [] else [⟨32 + 8 * args.length, 16 * capCount⟩]) ++
        stringSpans o args)).Pairwise fun s t : Span => s.stop ≤ t.start := by
  have hafter : ∀ t ∈ (if capCount = 0 then [] else [⟨32 + 8 * args.length, 16 * capCount⟩]) ++
      stringSpans o args, 32 + 8 * args.length ≤ t.start := by
    intro t ht
    rcases List.mem_append.mp ht with ht | ht
    · split_ifs at ht
      · cases ht
      · obtain rfl := List.mem_singleton.mp ht
        exact Nat.le_refl _
    · have hlow := (stringSpans_bounds ht).1
      omega
  refine List.pairwise_cons.mpr ⟨fun t ht => ?_, List.pairwise_cons.mpr ⟨fun t ht => ?_, ?_⟩⟩
  · rcases List.mem_cons.mp ht with rfl | ht
    · exact Nat.le_refl 32
    · exact Nat.le_trans (Nat.le_add_right 32 _) (hafter t ht)
  · exact hafter t ht
  · refine List.pairwise_append.mpr ⟨?_, stringSpans_ordered, ?_⟩
    · split_ifs
      · exact List.Pairwise.nil
      · exact List.pairwise_singleton _ _
    · intro t ht t' ht'
      have hlow := (stringSpans_bounds ht').1
      split_ifs at ht
      · cases ht
      · obtain rfl := List.mem_singleton.mp ht
        exact Nat.le_trans place hlow

/-- The four words in front. -/
theorem statics_read {capPtr argvPtr : BitVec 64} {argc capc : Nat}
    (h : ∃ more, image = statics capPtr argvPtr argc capc ++ more) :
    wordAt image bottom bottom = some (BitVec.ofNat 64 capc) ∧
      wordAt image bottom (addr bottom 8) = some capPtr ∧
      wordAt image bottom (addr bottom 16) = some (BitVec.ofNat 64 argc) ∧
      wordAt image bottom (addr bottom 24) = some argvPtr := by
  obtain ⟨more, hwhole⟩ := h
  have hfirst : image = toBytes 8 capc ++ (toBytes 8 capPtr.toNat ++
      (toBytes 8 argc ++ (toBytes 8 argvPtr.toNat ++ more))) := by
    rw [hwhole, statics, List.append_assoc, List.append_assoc, List.append_assoc]
  have hsecond : image.drop 8 = toBytes 8 capPtr.toNat ++ (toBytes 8 argc ++
      (toBytes 8 argvPtr.toNat ++ more)) := by
    rw [hfirst]
    exact List.drop_left' length_toBytes
  have hthird : image.drop 16 = toBytes 8 argc ++ (toBytes 8 argvPtr.toNat ++ more) := by
    have htwice := congrArg (List.drop 8) hsecond
    rw [List.drop_drop, List.drop_left' length_toBytes] at htwice
    exact htwice
  have hfourth : image.drop 24 = toBytes 8 argvPtr.toNat ++ more := by
    have htwice := congrArg (List.drop 8) hthird
    rw [List.drop_drop, List.drop_left' length_toBytes] at htwice
    exact htwice
  refine ⟨?_, ?_, ?_, ?_⟩
  · have hzero := @wordAt_of_drop image bottom 0 capc (by omega) ⟨_, hfirst⟩
    rwa [addr_zero] at hzero
  · exact wordAt_of_drop_word (by omega) ⟨_, hsecond⟩
  · exact wordAt_of_drop (by omega) ⟨_, hthird⟩
  · exact wordAt_of_drop_word (by omega) ⟨_, hfourth⟩

/-- Words one behind the other. -/
theorem words_read {words : List (BitVec 64)} {i : Nat} {p : BitVec 64}
    (small : o + 8 * words.length < 2 ^ 64)
    (h : ∃ more, image.drop o = (words.flatMap fun w => toBytes 8 w.toNat) ++ more)
    (hp : words[i]? = some p) : wordAt image bottom (addr (addr bottom o) (8 * i)) = some p := by
  obtain ⟨hi, -⟩ := List.getElem?_eq_some_iff.mp hp
  obtain ⟨more, hdrop⟩ := h
  obtain ⟨behind, hrecord⟩ := drop_flatMap (f := fun w : BitVec 64 => toBytes 8 w.toNat)
    (fun _ => length_toBytes) hp more
  have hword : image.drop (o + 8 * i) = toBytes 8 p.toNat ++ behind := by
    rw [← List.drop_drop, hdrop, Nat.mul_comm 8 i, hrecord]
  rw [addr_add]
  exact wordAt_of_drop_word (by omega) ⟨_, hword⟩

/-- Capabilities one behind the other. -/
theorem capabilities_read {capabilities : List InitCapability} {i : Nat} {c : InitCapability}
    (small : o + 16 * capabilities.length < 2 ^ 64)
    (h : ∃ more, image.drop o = capabilities.flatMap InitCapability.bytes ++ more)
    (hc : capabilities[i]? = some c) :
    HasCapability image bottom (addr (addr bottom o) (16 * i)) c := by
  obtain ⟨hi, -⟩ := List.getElem?_eq_some_iff.mp hc
  obtain ⟨more, hdrop⟩ := h
  obtain ⟨behind, hrecord⟩ := drop_flatMap InitCapability.length_bytes hc more
  have hid : image.drop (o + 16 * i) =
      toBytes 8 c.capabilityId.toNat ++ (toBytes 8 c.capabilityCookie.toNat ++ behind) := by
    rw [← List.drop_drop, hdrop, Nat.mul_comm 16 i, hrecord, InitCapability.bytes,
      List.append_assoc]
  have hcookie : image.drop (o + 16 * i + 8) =
      toBytes 8 c.capabilityCookie.toNat ++ behind := by
    rw [← List.drop_drop, hid]
    exact List.drop_left' length_toBytes
  rw [HasCapability, addr_add, addr_add]
  exact ⟨wordAt_of_drop_word (by omega) ⟨_, hid⟩, wordAt_of_drop_word (by omega) ⟨_, hcookie⟩⟩

/-- Strings one behind the other. -/
theorem strings_read {args : List (List Byte)} {i : Nat} {s : Span} {arg : List Byte}
    (small : o + (args.flatMap stored).length < 2 ^ 64)
    (h : ∃ more, image.drop o = args.flatMap stored ++ more)
    (hs : (stringSpans o args)[i]? = some s) (harg : args[i]? = some arg) :
    HasString image bottom (addr bottom s.start) arg := by
  obtain ⟨more, hdrop⟩ := h
  obtain ⟨arg', harg', hlow, hhigh, hget⟩ := stringSpans_get hs
  obtain rfl := Option.some.inj (harg.symm.trans harg')
  obtain ⟨behind, hstring⟩ := hget more
  have hstart : s.start < 2 ^ 64 := by
    have hstop : s.stop = s.start + s.size := rfl
    omega
  have hhere : image.drop s.start = stored arg ++ behind := by
    rw [← hstring, ← hdrop, List.drop_drop]
    congr 1
    omega
  have hslice := slice_of_drop ⟨_, hhere⟩
  rw [length_stored] at hslice
  rw [HasString, toNat_addr_sub hstart]
  exact hslice

/-- In this order no part reaches beyond the strings. -/
theorem parts_inside {capCount : Nat} {args : List (List Byte)} {part : Span}
    (place : 32 + 8 * args.length + 16 * capCount ≤ o)
    (h : part ∈ ⟨0, 32⟩ :: ⟨32, 8 * args.length⟩ ::
      ((if capCount = 0 then [] else [⟨32 + 8 * args.length, 16 * capCount⟩]) ++
        stringSpans o args)) :
    part.stop ≤ o + (args.flatMap stored).length := by
  rcases List.mem_cons.mp h with rfl | h
  · show 0 + 32 ≤ _
    omega
  rcases List.mem_cons.mp h with rfl | h
  · show 32 + 8 * args.length ≤ _
    omega
  rcases List.mem_append.mp h with h | h
  · split_ifs at h
    · cases h
    · obtain rfl := List.mem_singleton.mp h
      show 32 + 8 * args.length + 16 * capCount ≤ _
      omega
  · exact (stringSpans_bounds h).2

/-- Bytes that lie in this order are read through the pointers among them. -/
theorem reads_of_layout {capabilities : List InitCapability} {args : List (List Byte)}
    {padding rest : List Byte} {capPtr : BitVec 64}
    (place : 32 + 8 * args.length + 16 * capabilities.length + padding.length = o)
    (given : capPtr = if capabilities = [] then 0 else addr bottom (32 + 8 * args.length))
    (small : o + (args.flatMap stored).length < 2 ^ 64)
    (layout : image = statics capPtr (addr bottom 32) args.length capabilities.length ++
      ((stringSpans o args).flatMap (fun s => toBytes 8 (addr bottom s.start).toNat) ++
        (capabilities.flatMap InitCapability.bytes ++
          (padding ++ (args.flatMap stored ++ rest))))) :
    Reads image bottom capabilities args capPtr (addr bottom 32)
      ((stringSpans o args).map fun s => addr bottom s.start) := by
  have hpointers : ((stringSpans o args).flatMap fun s =>
      toBytes 8 (addr bottom s.start).toNat).length = 8 * args.length := by
    rw [length_records (fun _ => length_toBytes), length_stringSpans]
  have hcaps : (capabilities.flatMap InitCapability.bytes).length = 16 * capabilities.length :=
    length_records InitCapability.length_bytes
  have hlength : o + (args.flatMap stored).length ≤ image.length := by
    rw [layout]
    simp only [List.length_append, length_statics, hpointers, hcaps]
    omega
  -- where the parts begin
  have hdrop : image.drop 32 = (stringSpans o args).flatMap (fun s =>
      toBytes 8 (addr bottom s.start).toNat) ++ (capabilities.flatMap InitCapability.bytes ++
        (padding ++ (args.flatMap stored ++ rest))) := by
    rw [layout]
    exact List.drop_left' length_statics
  have hdrop' : image.drop (32 + 8 * args.length) = capabilities.flatMap InitCapability.bytes ++
      (padding ++ (args.flatMap stored ++ rest)) := by
    rw [← List.drop_drop, hdrop]
    exact List.drop_left' hpointers
  have hstrings : image.drop o = args.flatMap stored ++ rest := by
    rw [← place, Nat.add_assoc (32 + 8 * args.length), ← List.drop_drop, hdrop',
      ← List.append_assoc]
    apply List.drop_left'
    rw [List.length_append, hcaps]
  have hparts := @parts_eq bottom o capabilities.length args capPtr
    (fun hsome => by
      rw [given, if_neg]
      rintro rfl
      exact hsome rfl)
    (by omega) small
  obtain ⟨hcapCount, hcapPtr, hargc, hargv⟩ := @statics_read image bottom _ _ _ _ ⟨_, layout⟩
  refine ⟨hcapCount, hcapPtr, hargc, hargv, ?_, ?_, ?_, ?_, ?_, ?_, ?_⟩
  · intro hnone
    rw [given, if_pos hnone]
  · intro i c hc
    have hsome : capabilities ≠ [] := by
      rintro rfl
      cases hc
    rw [given, if_neg hsome]
    exact capabilities_read (by omega) ⟨_, hdrop'⟩ hc
  · rw [List.length_map, length_stringSpans]
  · intro i p hp
    rw [← List.flatMap_map (fun s : Span => addr bottom s.start) fun w => toBytes 8 w.toNat]
      at hdrop
    refine words_read ?_ ⟨_, hdrop⟩ hp
    rw [List.length_map, length_stringSpans]
    omega
  · intro i p arg hp harg
    rw [List.getElem?_map] at hp
    obtain ⟨s, hs, rfl⟩ := Option.map_eq_some_iff.mp hp
    exact strings_read small ⟨_, hstrings⟩ hs harg
  · intro part hpart
    rw [hparts] at hpart
    exact Nat.le_trans (parts_inside (by omega) hpart) hlength
  · rw [hparts]
    refine (parts_ordered (by omega)).imp ?_
    intro s t hbefore n hs ht
    exact absurd hs.2 (Nat.not_lt.mpr (Nat.le_trans hbefore ht.1))

end Reading

theorem length_flatMap_stored (args : List (List Byte)) :
    (args.flatMap stored).length = ((args.map some).map argumentLen).sum := by
  rw [List.length_flatMap, List.map_map]
  congr 1
  apply List.map_congr_left
  intro arg _
  exact length_stored arg

/-- The capabilities that are stored are those given, and only these have an address. -/
theorem stores_given {capabilities : List InitCapability} {capv : Option (List InitCapability)}
    (given : capv.getD [] = capabilities)
    (few : (BitVec.ofNat 16 capabilities.length).toNat = capabilities.length) :
    ∃ stores, (if BitVec.ofNat 16 capabilities.length = 0 then none
        else capv.map (·.take (BitVec.ofNat 16 capabilities.length).toNat)) = stores ∧
      stores.getD [] = capabilities ∧ (stores.isSome ↔ capabilities ≠ []) := by
  by_cases hempty : capabilities = []
  · refine ⟨none, ?_, hempty.symm, by simp [hempty]⟩
    rw [hempty]
    rfl
  · have hpos : BitVec.ofNat 16 capabilities.length ≠ 0 := by
      intro hzero
      rw [hzero] at few
      exact hempty (List.length_eq_zero_iff.mp few.symm)
    obtain ⟨l, rfl⟩ : ∃ l, capv = some l := by
      rcases capv with _ | l
      · exact absurd given.symm hempty
      · exact ⟨l, rfl⟩
    rw [Option.getD_some] at given
    refine ⟨some capabilities, ?_, rfl, by simp [hempty]⟩
    rw [if_neg hpos, Option.map_some, few, given, List.take_length]

/-- An odd number of values is filled up with bytes of the page. -/
theorem imageOf_eq {values : InitStackValues} {count : Nat} {front behind : List Byte}
    (even : values.valueCount = count + count % 2) (size : front.length = 8 * count)
    (whole : values.data.bytes = front ++ behind) :
    imageOf values = front ++ behind.take (8 * (count % 2)) := by
  have hlength : 8 * (count + count % 2) = front.length + 8 * (count % 2) := by
    rw [size, Nat.mul_add]
  rw [imageOf, even, slice, List.drop_zero, whole, hlength, List.take_length_add_append]

/-- The image is read as the arguments and the capabilities that it was built from, whenever its
values fit in a page. -/
theorem image_round_trip {stackTopAddr : BitVec 64} {capabilities : List InitCapability}
    {capv : Option (List InitCapability)} {args : List (List Byte)} {argvPage stackPage : Page}
    (given : capv.getD [] = capabilities)
    (onePage : valueCount capabilities.length args.length (args.map some) ≤ 512) :
    ∃ values, buildNewProcessInitValues stackTopAddr (BitVec.ofNat 16 capabilities.length) capv
        (BitVec.ofNat 16 args.length) (args.map some) (some argvPage) (some stackPage) =
          .done values ∧
      RoundTrip stackTopAddr capabilities args values := by
  have hfew : args.length ≤ 512 := by
    rw [valueCount, initStackStaticValueCount] at onePage
    omega
  have hcount := @valueCount_eq (args.map some) args.length capabilities.length
    (by rw [List.length_map]; exact hfew)
  rw [← length_flatMap_stored] at hcount
  have hargc : (BitVec.ofNat 16 args.length).toNat = args.length := by
    rw [BitVec.toNat_ofNat]
    omega
  have hcapc : (BitVec.ofNat 16 capabilities.length).toNat = capabilities.length := by
    rw [BitVec.toNat_ofNat]
    omega
  have htake : (args.map some).take args.length = args.map some := by
    apply List.take_of_length_le
    rw [List.length_map]
  generalize hpages : valueCount capabilities.length args.length (args.map some) = count at *
  obtain ⟨stores, hstores, hsome, hsome'⟩ := stores_given given hcapc
  have hbuild := @build_stores stackTopAddr (BitVec.ofNat 16 capabilities.length)
    (BitVec.ofNat 16 args.length) capv (args.map some) (by rw [hargc]; exact hfew) argvPage stackPage
    count (by rw [hargc, hcapc, htake, hpages]) (by omega)
  rw [hargc, htake, hstores, hcapc] at hbuild
  generalize hbottom : stackTopAddr - BitVec.ofNat 64 (8 * (count + count % 2)) = bottom at hbuild
  obtain ⟨b, hfill⟩ := @fill_some bottom args.length capabilities.length args hfew stores
    ⟨stackPage, argvPage, count * 8⟩ (by dsimp only; omega) (by dsimp only; rw [hsome, hpages])
  rw [hfill] at hbuild
  obtain ⟨padding, o, hplace, hend, hpadding, hrest⟩ := fill_puts hfill
  dsimp only at hend
  rw [hsome, length_records InitCapability.length_bytes] at hplace
  -- the bytes of the values are used up exactly
  have hzero : b.ptr = 0 := by omega
  rw [hzero, Nat.zero_add] at hplace
  refine ⟨⟨count + count % 2, b.newStack, (count + count % 2) / 512⟩, hbuild, ?_, ?_⟩
  · show (count + count % 2) % 2 = 0
    omega
  · have hbytes : b.newStack.bytes = fromPtr b := by
      rw [fromPtr, hzero, List.drop_zero]
    rw [hsome, hzero, Nat.zero_add] at hrest
    refine ⟨if stores.isSome then addr bottom (32 + 8 * args.length) else 0, addr bottom 32,
      (stringSpans o args).map fun s => addr bottom s.start, ?_⟩
    dsimp only
    rw [hbottom]
    refine @reads_of_layout _ bottom o capabilities args padding
      ((fromPtr ⟨stackPage, argvPage, count * 8⟩).take (8 * (count % 2))) _ hplace ?_ (by omega) ?_
    · by_cases hempty : capabilities = []
      · rw [if_pos hempty, if_neg (fun h => (hsome'.mp h) hempty)]
      · rw [if_neg hempty, if_pos (hsome'.mpr hempty)]
    · generalize hfront : statics (if stores.isSome then addr bottom (32 + 8 * args.length) else 0)
        (addr bottom 32) args.length capabilities.length = front at hrest ⊢
      generalize hwords :
        (stringSpans o args).flatMap (fun s => toBytes 8 (addr bottom s.start).toNat) = words
        at hrest ⊢
      have hsize : (front ++ (words ++ (capabilities.flatMap InitCapability.bytes ++
          (padding ++ args.flatMap stored)))).length = 8 * count := by
        rw [← hfront, ← hwords]
        simp only [List.length_append, length_statics, length_records (fun _ => length_toBytes),
          length_stringSpans, length_records InitCapability.length_bytes]
        omega
      have hwhole : b.newStack.bytes =
          (front ++ (words ++ (capabilities.flatMap InitCapability.bytes ++
            (padding ++ args.flatMap stored)))) ++ fromPtr ⟨stackPage, argvPage, count * 8⟩ := by
        rw [hbytes, hrest]
        simp only [List.append_assoc]
      rw [imageOf_eq rfl hsize hwhole]
      simp only [List.append_assoc]

/-- A server with one capability and the argument "a". -/
theorem image_round_trip_one : ∃ values, buildNewProcessInitValues stackTop 1 (some [⟨7, 9⟩]) 1
    [some [0x61]] (some zeroPage) (some zeroPage) = .done values ∧
      RoundTrip stackTop [⟨7, 9⟩] [[0x61]] values :=
  @image_round_trip stackTop [⟨7, 9⟩] (some [⟨7, 9⟩]) [[0x61]] zeroPage zeroPage rfl (by decide)

end InitialImage
