import AnosKernel.Lib.Chains
import AnosKernel.Lib.Masks
import AnosKernel.Lib.Spans
import Mathlib.Data.BitVec

/-!
# The allocator of virtual addresses

`kernel/vmm/vmalloc_linkedlist.c` keeps the free ranges in a list that is sorted by address. The
nodes come from a pool in a region of metadata. An allocation takes the smallest range that is
large enough, or the start of it, and a free range is joined with its neighbours.
-/

namespace Vmalloc

open Chains Spans

def vmPageSize : BitVec 64 := 0x1000

def vmmSuccess : Int := 0
def vmmErrorNoSpace : Int := -1
def vmmErrorInvalidParams : Int := -2
def vmmErrorNotInitialized : Int := -3

structure Range where
  start : BitVec 64
  size : BitVec 64
  next : Option (BitVec 64)
  deriving DecidableEq, Repr

/-- `sizeof(Range)`. -/
def rangeBytes : BitVec 64 := 24

/-- The variables of the file, and the ranges by their addresses. -/
structure State where
  range : BitVec 64 → Range
  freeRanges : Option (BitVec 64)
  rangePool : Option (BitVec 64)
  rangePoolEnd : BitVec 64
  isInitialized : Bool
  vmmLock : Bool

def State.start (s : State) (r : BitVec 64) : BitVec 64 := (s.range r).start

def State.size (s : State) (r : BitVec 64) : BitVec 64 := (s.range r).size

def State.next (s : State) (r : BitVec 64) : Option (BitVec 64) := (s.range r).next

def State.write (s : State) (r : BitVec 64) (range : Range) : State :=
  { s with range := Function.update s.range r range }

def State.setNext (s : State) (r : BitVec 64) (next : Option (BitVec 64)) : State :=
  s.write r { s.range r with next := next }

/-- `spinlock_lock_irqsave`, which spins forever on a lock that is held. -/
def spinlockLock (s : State) : Option State :=
  if s.vmmLock then none else some { s with vmmLock := true }

def spinlockUnlock (s : State) : State := { s with vmmLock := false }

def initRange (s : State) (r start size : BitVec 64) : State := s.write r ⟨start, size, none⟩

def allocRange (s : State) : Option (BitVec 64) × State :=
  match s.rangePool with
  | none => (none, s)
  | some r => (some r, { s with rangePool := s.next r })

def freeRange (s : State) (r : BitVec 64) : State :=
  { s.setNext r s.rangePool with rangePool := some r }

def alignUp (addr : BitVec 64) : BitVec 64 := (addr + vmPageSize - 1) &&& ~~~(vmPageSize - 1)

def alignDown (addr : BitVec 64) : BitVec 64 := addr &&& ~~~(vmPageSize - 1)

/-- The loop that links the ranges of the pool; `none` when the fuel does not suffice. -/
def linkLoop : Nat → State → BitVec 64 → Option (State × BitVec 64)
  | 0, _, _ => none
  | fuel + 1, s, curr =>
    if curr + rangeBytes ≤ s.rangePoolEnd then
      linkLoop fuel (s.setNext curr (some (curr + rangeBytes))) (curr + rangeBytes)
    else some (s, curr)

def vmmInit (fuel : Nat) (s : State) (metadataStart : Option (BitVec 64))
    (metadataSize managedStart managedSize : BitVec 64) : Option (Int × State) :=
  match metadataStart with
  | none => some (vmmErrorInvalidParams, s)
  | some start =>
    if metadataSize = 0 ∨ managedSize = 0 then some (vmmErrorInvalidParams, s)
    else
      let alignedStart := alignUp managedStart
      let alignedEnd := alignDown (managedStart + managedSize)
      if alignedEnd ≤ alignedStart then some (vmmErrorInvalidParams, s)
      else
        let s := { s with
          vmmLock := false, rangePool := some start, rangePoolEnd := start + metadataSize }
        (linkLoop fuel s start).map fun (s, curr) =>
          match allocRange (s.setNext (curr - rangeBytes) none) with
          | (none, s) => (vmmErrorNoSpace, { s with freeRanges := none })
          | (some r, s) =>
            let s := initRange { s with freeRanges := some r } r alignedStart
              (alignedEnd - alignedStart)
            (vmmSuccess, { s with isInitialized := true })

/-- `best_fit`, `best_fit_prev` and `smallest_viable_size`. -/
structure Best where
  bestFit : Option (BitVec 64)
  bestFitPrev : Option (BitVec 64)
  smallestViableSize : BitVec 64
  deriving DecidableEq, Repr

/-- The search of `vmm_alloc_block`, with `prev` and `curr`. -/
def findFit (s : State) (size : BitVec 64) : Nat → Option (BitVec 64) → Option (BitVec 64) → Best →
    Option Best
  | 0, _, _, _ => none
  | _ + 1, _, none, best => some best
  | fuel + 1, prev, some curr, best =>
    if size ≤ s.size curr ∧ s.size curr < best.smallestViableSize then
      if s.size curr = size then some ⟨some curr, prev, s.size curr⟩
      else findFit s size fuel (some curr) (s.next curr) ⟨some curr, prev, s.size curr⟩
    else findFit s size fuel (some curr) (s.next curr) best

/-- A range of the exact size is unlinked and goes back to the pool; the start of a larger one is
cut off. -/
def takeFit (s : State) (size fit : BitVec 64) (prev : Option (BitVec 64)) : State :=
  if s.size fit = size then
    match prev with
    | some prev => freeRange (s.setNext prev (s.next fit)) fit
    | none => freeRange { s with freeRanges := s.next fit } fit
  else s.write fit { s.range fit with start := s.start fit + size, size := s.size fit - size }

def vmmAllocBlock (fuel : Nat) (s : State) (numPages : BitVec 64) :
    Option (BitVec 64 × State) :=
  if s.isInitialized = false ∨ numPages = 0 then some (0, s)
  else
    (spinlockLock s).bind fun s =>
      let size := numPages * vmPageSize
      (findFit s size fuel none s.freeRanges ⟨none, none, -1⟩).map fun best =>
        match best.bestFit with
        | some fit => (s.start fit, spinlockUnlock (takeFit s size fit best.bestFitPrev))
        | none => (0, spinlockUnlock s)

/-- The search of `vmm_free_block` for the range to insert behind. -/
def findInsertion (s : State) (address : BitVec 64) : Nat → Option (BitVec 64) →
    Option (BitVec 64) → Option (Option (BitVec 64))
  | 0, _, _ => none
  | _ + 1, prev, none => some prev
  | fuel + 1, prev, some curr =>
    if s.start curr < address then findInsertion s address fuel (some curr) (s.next curr)
    else some prev

def insertRange (s : State) (newRange : BitVec 64) (prev : Option (BitVec 64)) : State :=
  match prev with
  | some prev => (s.setNext newRange (s.next prev)).setNext prev (some newRange)
  | none => { s.setNext newRange s.freeRanges with freeRanges := some newRange }

/-- The range `r` takes up the one behind it, whose node goes back to the pool. -/
def absorb (s : State) (r behind : BitVec 64) : State :=
  freeRange (s.write r { s.range r with
    size := s.size r + s.size behind, next := s.next behind }) behind

/-- Coalesce with the previous range; the range to go on with is the second part. -/
def coalescePrev (s : State) (prev : Option (BitVec 64)) (newRange : BitVec 64) :
    State × BitVec 64 :=
  match prev with
  | none => (s, newRange)
  | some prev =>
    if s.start prev + s.size prev = s.start newRange then (absorb s prev newRange, prev)
    else (s, newRange)

def coalesceNext (s : State) (newRange : BitVec 64) : State :=
  match s.next newRange with
  | none => s
  | some next =>
    if s.start newRange + s.size newRange = s.start next then absorb s newRange next else s

/-- The new range is put in its place and coalesced with the ranges beside it. -/
def putRange (fuel : Nat) (s : State) (newRange address size : BitVec 64) : Option State :=
  let s := initRange s newRange address size
  (findInsertion s address fuel none s.freeRanges).map fun prev =>
    let joined := coalescePrev (insertRange s newRange prev) prev newRange
    coalesceNext joined.1 joined.2

/-- `vmm_free_block`. Without a range in the pool it returns with the lock held. -/
def vmmFreeBlock (fuel : Nat) (s : State) (address numPages : BitVec 64) : Option (Int × State) :=
  if s.isInitialized = false then some (vmmErrorNotInitialized, s)
  else if numPages = 0 ∨ address &&& (vmPageSize - 1) ≠ 0 then some (vmmErrorInvalidParams, s)
  else
    (spinlockLock s).bind fun s =>
      match allocRange s with
      | (none, s) => some (vmmErrorNoSpace, s)
      | (some newRange, s) =>
        (putRange fuel s newRange address (numPages * vmPageSize)).map fun s =>
          (vmmSuccess, spinlockUnlock s)

/-! ## The two lists -/

/-- The numbers that a range stands for. -/
def State.span (s : State) (r : BitVec 64) : Span := ⟨(s.start r).toNat, (s.size r).toNat⟩

/-- The free ranges, and the ranges of the pool. -/
structure Layout (s : State) (list pool : List (BitVec 64)) : Prop where
  free : Chain s.next s.freeRanges list
  unused : Chain s.next s.rangePool pool
  apart : (list ++ pool).Nodup

section Links

variable {s s' : State} {list pool before after : List (BitVec 64)} {r p c : BitVec 64}
  {range : Range} {next : Option (BitVec 64)}

theorem next_write (s : State) (r : BitVec 64) (range : Range) :
    (s.write r range).next = Function.update s.next r range.next := by
  funext x
  by_cases hx : x = r
  · simp [State.next, State.write, hx]
  · simp [State.next, State.write, hx]

theorem span_write_self : (s.write r range).span r = ⟨range.start.toNat, range.size.toNat⟩ := by
  simp [State.span, State.start, State.size, State.write]

theorem span_write_of_ne {x : BitVec 64} (hx : x ≠ r) : (s.write r range).span x = s.span x := by
  simp [State.span, State.start, State.size, State.write, hx]

theorem next_setNext : (s.setNext r next).next = Function.update s.next r next :=
  next_write s r _

theorem span_setNext : (s.setNext r next).span = s.span := by
  funext x
  by_cases hx : x = r
  · rw [hx, State.setNext, span_write_self]
    rfl
  · exact span_write_of_ne hx

theorem next_freeRange : (freeRange s r).next = Function.update s.next r s.rangePool :=
  next_write s r _

theorem span_freeRange : (freeRange s r).span = s.span := span_setNext

theorem Layout.nodup_list (h : Layout s list pool) : list.Nodup := (List.nodup_append.mp h.apart).1

theorem Layout.off_pool (h : Layout s list pool) (hr : r ∈ list) : r ∉ pool := fun hp =>
  (List.nodup_append.mp h.apart).2.2 r hr r hp rfl

/-- Only the links count. -/
theorem Layout.congr (h : Layout s list pool) (next : s'.next = s.next)
    (free : s'.freeRanges = s.freeRanges) (hpool : s'.rangePool = s.rangePool) :
    Layout s' list pool := by
  refine ⟨?_, ?_, h.apart⟩
  · rw [next, free]
    exact h.free
  · rw [next, hpool]
    exact h.unused

theorem perm_release : ((before ++ after) ++ c :: pool).Perm ((before ++ c :: after) ++ pool) :=
  calc List.Perm ((before ++ after) ++ c :: pool) (c :: ((before ++ after) ++ pool)) :=
        List.perm_middle
    List.Perm _ ((before ++ c :: after) ++ pool) :=
        (List.perm_middle.symm : List.Perm (c :: (before ++ after)) _).append_right pool

/-- The first range goes back to the pool. -/
theorem Layout.unlinkFirst (h : Layout s (c :: after) pool) :
    Layout (freeRange { s with freeRanges := s.next c } c) after (c :: pool) := by
  have hnext : (freeRange { s with freeRanges := s.next c } c).next =
      Function.update s.next c s.rangePool := next_freeRange
  have hperm : (after ++ c :: pool).Perm ((c :: after) ++ pool) := List.perm_middle
  refine ⟨?_, ?_, hperm.nodup_iff.mpr h.apart⟩
  · rw [hnext]
    exact Seg.update h.free.2 (List.nodup_cons.mp h.nodup_list).1
  · rw [hnext]
    exact h.unused.push (h.off_pool List.mem_cons_self)

/-- The range behind `p` goes back to the pool. -/
theorem Layout.unlinkBehind (h : Layout s (before ++ p :: c :: after) pool)
    (next : s'.next = Function.update s.next p (s.next c))
    (free : s'.freeRanges = s.freeRanges) (hpool : s'.rangePool = s.rangePool) :
    Layout (freeRange s' c) (before ++ p :: after) (c :: pool) := by
  have hlist : before ++ p :: c :: after = (before ++ [p]) ++ c :: after := by simp
  have hrest : before ++ p :: after = (before ++ [p]) ++ after := by simp
  have hnodup := h.nodup_list
  rw [hlist] at hnodup
  have hparts := List.nodup_append.mp hnodup
  have hc : c ∉ before ++ p :: after := by
    rw [hrest]
    intro hc
    rcases List.mem_append.mp hc with hb | ha
    · exact hparts.2.2 c hb c List.mem_cons_self rfl
    · exact (List.nodup_cons.mp hparts.2.1).1 ha
  refine ⟨?_, ?_, ?_⟩
  · rw [next_freeRange, next]
    show Chain _ s'.freeRanges _
    rw [free]
    exact Seg.update (Chain.unlinkAfter h.free) hc
  · rw [next_freeRange, next]
    refine Chain.push ?_ (h.off_pool (by simp))
    rw [hpool]
    exact Seg.update h.unused (h.off_pool (by simp))
  · rw [hrest]
    refine perm_release.nodup_iff.mpr ?_
    rw [← hlist]
    exact h.apart

/-- The first range of the pool is on neither list afterwards. -/
theorem Layout.takeFirst (h : Layout s list (r :: pool)) :
    allocRange s = (some r, { s with rangePool := s.next r }) ∧
      Layout { s with rangePool := s.next r } list pool ∧ r ∉ list ++ pool := by
  have hperm : (list ++ r :: pool).Perm (r :: (list ++ pool)) := List.perm_middle
  have hnodup := List.nodup_cons.mp (hperm.nodup_iff.mp h.apart)
  refine ⟨?_, ⟨h.free, h.unused.2, hnodup.2⟩, hnodup.1⟩
  rw [allocRange, h.unused.1]

theorem Layout.writeOff (h : Layout s list pool) (off : r ∉ list ++ pool) :
    Layout (s.write r range) list pool := by
  rw [List.mem_append, not_or] at off
  refine ⟨?_, ?_, h.apart⟩
  · rw [next_write]
    exact Seg.update h.free off.1
  · rw [next_write]
    exact Seg.update h.unused off.2

/-- A range is linked behind the last one of the front part. -/
theorem Layout.insert (h : Layout s (before ++ after) pool) (off : r ∉ (before ++ after) ++ pool) :
    Layout (insertRange s r before.getLast?) (before ++ r :: after) pool := by
  have hnodup : ((before ++ r :: after) ++ pool).Nodup := by
    have hperm : ((before ++ r :: after) ++ pool).Perm (r :: ((before ++ after) ++ pool)) :=
      (List.perm_middle : List.Perm (before ++ r :: after) _).append_right pool
    exact hperm.nodup_iff.mpr (List.nodup_cons.mpr ⟨off, h.apart⟩)
  rw [List.mem_append, not_or] at off
  rcases List.eq_nil_or_concat' before with rfl | ⟨others, p, rfl⟩
  · have hnext : (insertRange s r none).next = Function.update s.next r s.freeRanges :=
      next_setNext
    refine ⟨?_, ?_, hnodup⟩
    · show Chain (insertRange s r none).next (some r) (r :: after)
      rw [hnext]
      exact h.free.push off.1
    · show Chain (insertRange s r none).next s.rangePool pool
      rw [hnext]
      exact Seg.update h.unused off.2
  · rw [List.getLast?_append, List.getLast?_singleton, Option.some_or]
    have hnext : (insertRange s r (some p)).next =
        Function.update (Function.update s.next r (s.next p)) p (some r) := by
      rw [insertRange, next_setNext, next_setNext]
    refine ⟨?_, ?_, hnodup⟩
    · show Chain (insertRange s r (some p)).next s.freeRanges _
      rw [hnext, List.append_assoc, List.singleton_append]
      have hchain := h.free
      rw [List.append_assoc, List.singleton_append] at hchain
      have hoff := off.1
      rw [List.append_assoc, List.singleton_append] at hoff
      exact hchain.insertAfter hoff
    · show Chain (insertRange s r (some p)).next s.rangePool pool
      rw [hnext]
      exact Seg.update (Seg.update h.unused off.2) (h.off_pool (by simp))

theorem span_insertRange (prev : Option (BitVec 64)) : (insertRange s r prev).span = s.span := by
  cases prev with
  | none =>
    have hspan : (insertRange s r none).span = (s.setNext r s.freeRanges).span := rfl
    rw [hspan, span_setNext]
  | some p => rw [insertRange, span_setNext, span_setNext]

theorem Layout.absorb (h : Layout s (before ++ p :: c :: after) pool) :
    Layout (absorb s p c) (before ++ p :: after) (c :: pool) :=
  h.unlinkBehind (next_write s p _) rfl rfl

end Links

/-- Whole pages between `lo` and `hi`. -/
structure PageRun (lo hi : Nat) (x : Span) : Prop where
  aligned : x.start % 4096 = 0
  whole : x.size % 4096 = 0
  lower : lo ≤ x.start
  upper : x.stop ≤ hi

/-- The free ranges are runs of pages between `lo` and `hi`, in order and with gaps. -/
structure Kept (s : State) (list pool : List (BitVec 64)) (lo hi : Nat) : Prop where
  layout : Layout s list pool
  spaced : Spaced (list.map s.span)
  pages : ∀ x ∈ list.map s.span, PageRun lo hi x

/-- What holds between the calls. -/
structure Sound (s : State) (list pool : List (BitVec 64)) (lo hi : Nat) : Prop where
  kept : Kept s list pool lo hi
  ready : s.isInitialized = true
  unlocked : s.vmmLock = false

/-! ## Allocating -/

/-- The best fit among the ranges that the search has seen. -/
inductive Seen (s : State) (size : BitVec 64) (before : List (BitVec 64)) : Best → Prop
  | none (small : ∀ x ∈ before, s.size x < size) : Seen s size before ⟨none, none, -1⟩
  | some {front back : List (BitVec 64)} {fit : BitVec 64} (split : before = front ++ fit :: back)
      (fits : size ≤ s.size fit) (below : ∀ x ∈ front, size ≤ s.size x → s.size fit < s.size x)
      (above : ∀ x ∈ back, size ≤ s.size x → s.size fit ≤ s.size x) :
      Seen s size before ⟨some fit, front.getLast?, s.size fit⟩

section Allocating

variable {s : State} {list pool before rest front back : List (BitVec 64)} {lo hi : Nat}
  {size fit c numPages : BitVec 64} {best : Best}

/-- A range that fits is at least as large as the best one seen. -/
theorem Seen.smallest_le (h : Seen s size before best) {x : BitVec 64} (hx : x ∈ before)
    (hfits : size ≤ s.size x) : best.smallestViableSize ≤ s.size x := by
  cases h with
  | none small => exact absurd hfits (BitVec.not_le.mpr (small x hx))
  | @some front back fit split fits below above =>
    rw [split] at hx
    rcases List.mem_append.mp hx with hf | hx
    · exact BitVec.le_of_lt (below x hf hfits)
    · rcases List.mem_cons.mp hx with rfl | hb
      · exact BitVec.le_refl _
      · exact above x hb hfits

theorem Seen.better (h : Seen s size before best) (fits : size ≤ s.size c)
    (smaller : s.size c < best.smallestViableSize)
    (above : ∀ x ∈ rest, size ≤ s.size x → s.size c ≤ s.size x) :
    Seen s size (before ++ c :: rest) ⟨Option.some c, before.getLast?, s.size c⟩ := by
  refine .some rfl fits ?_ above
  intro x hx hfits
  exact Nat.lt_of_lt_of_le smaller (h.smallest_le hx hfits)

theorem Seen.pass (h : Seen s size before best) (finite : s.size c < -1)
    (worse : ¬ (size ≤ s.size c ∧ s.size c < best.smallestViableSize)) :
    Seen s size (before ++ [c]) best := by
  cases h with
  | none small =>
    refine .none ?_
    intro x hx
    rcases List.mem_append.mp hx with hb | hc
    · exact small x hb
    · rw [List.mem_singleton.mp hc]
      exact BitVec.not_le.mp fun hle => worse ⟨hle, finite⟩
  | @some front back fit split fits below above =>
    refine .some (by rw [split, List.append_assoc, List.cons_append]) fits below ?_
    intro x hx hfits
    rcases List.mem_append.mp hx with hb | hc
    · exact above x hb hfits
    · rw [List.mem_singleton.mp hc] at hfits ⊢
      exact BitVec.not_lt.mp fun hlt => worse ⟨hfits, hlt⟩

theorem findFit_spec {prev curr : Option (BitVec 64)} (chain : Chain s.next curr rest)
    (seen : Seen s size before best) (hprev : prev = before.getLast?)
    (finite : ∀ x ∈ rest, s.size x < -1) :
    ∃ result, (∀ fuel > rest.length, findFit s size fuel prev curr best = some result) ∧
      Seen s size (before ++ rest) result := by
  induction rest generalizing before prev curr best with
  | nil =>
    have hcurr : curr = none := chain
    rw [hcurr, List.append_nil]
    refine ⟨best, fun fuel enough => ?_, seen⟩
    obtain ⟨fuel, rfl⟩ := Nat.exists_eq_add_one_of_ne_zero (Nat.ne_of_gt enough)
    rfl
  | cons c rest ih =>
    obtain ⟨hcurr, htail⟩ := chain
    have hassoc : before ++ c :: rest = (before ++ [c]) ++ rest := by simp
    have hlast : some c = (before ++ [c]).getLast? := by simp
    have hrest := fun x hx => finite x (List.mem_cons_of_mem c hx)
    have hnothing : ∀ x ∈ ([] : List (BitVec 64)), size ≤ s.size x → s.size c ≤ s.size x :=
      fun x hx => absurd hx List.not_mem_nil
    rw [hcurr]
    by_cases hbetter : size ≤ s.size c ∧ s.size c < best.smallestViableSize
    · by_cases hexact : s.size c = size
      · refine ⟨⟨some c, prev, s.size c⟩, fun fuel enough => ?_, ?_⟩
        · obtain ⟨fuel, rfl⟩ := Nat.exists_eq_add_one_of_ne_zero (Nat.ne_zero_of_lt enough)
          rw [findFit, if_pos hbetter, if_pos hexact]
        · rw [hprev]
          refine seen.better hbetter.1 hbetter.2 ?_
          intro x _ hx
          rw [hexact]
          exact hx
      · obtain ⟨result, hfind, hseen⟩ :=
          ih htail (seen.better hbetter.1 hbetter.2 hnothing) hlast hrest
        rw [hassoc, hprev]
        refine ⟨result, fun fuel enough => ?_, hseen⟩
        obtain ⟨fuel, rfl⟩ := Nat.exists_eq_add_one_of_ne_zero (Nat.ne_zero_of_lt enough)
        rw [findFit, if_pos hbetter, if_neg hexact]
        exact hfind fuel (Nat.lt_of_succ_lt_succ enough)
    · obtain ⟨result, hfind, hseen⟩ :=
        ih htail (seen.pass (finite c List.mem_cons_self) hbetter) hlast hrest
      rw [hassoc]
      refine ⟨result, fun fuel enough => ?_, hseen⟩
      obtain ⟨fuel, rfl⟩ := Nat.exists_eq_add_one_of_ne_zero (Nat.ne_zero_of_lt enough)
      rw [findFit, if_neg hbetter]
      exact hfind fuel (Nat.lt_of_succ_lt_succ enough)

theorem Kept.setLock (h : Kept s list pool lo hi) (locked : Bool) :
    Kept { s with vmmLock := locked } list pool lo hi :=
  ⟨h.layout.congr rfl rfl rfl, h.spaced, h.pages⟩

/-- The range that fits exactly is unlinked, whether it is the first one or not. -/
theorem takeFit_exact (h : Layout s (front ++ fit :: back) pool) (exact : s.size fit = size) :
    Layout (takeFit s size fit front.getLast?) (front ++ back) (fit :: pool) ∧
      (takeFit s size fit front.getLast?).span = s.span := by
  rw [takeFit.eq_def, if_pos exact]
  rcases List.eq_nil_or_concat' front with rfl | ⟨others, p, rfl⟩
  · exact ⟨h.unlinkFirst, span_freeRange⟩
  · rw [List.getLast?_append, List.getLast?_singleton, Option.some_or]
    rw [List.append_assoc, List.singleton_append] at h ⊢
    refine ⟨h.unlinkBehind next_setNext rfl rfl, ?_⟩
    exact span_freeRange.trans span_setNext

/-- A larger range stays where it is, without its start. -/
theorem takeFit_cut (h : Layout s (front ++ fit :: back) pool) (larger : s.size fit ≠ size) :
    Layout (takeFit s size fit front.getLast?) (front ++ fit :: back) pool := by
  rw [takeFit.eq_def, if_neg larger]
  refine h.congr ?_ rfl rfl
  rw [next_write]
  exact Function.update_eq_self fit s.next

theorem map_span_write {range : Range} (nodup : (front ++ fit :: back).Nodup) :
    (front ++ fit :: back).map (s.write fit range).span =
      front.map s.span ++ ⟨range.start.toNat, range.size.toNat⟩ :: back.map s.span := by
  have hparts := List.nodup_append.mp nodup
  have hfront : front.map (s.write fit range).span = front.map s.span := by
    apply List.map_congr_left
    intro x hx
    refine span_write_of_ne ?_
    exact fun hxf => hparts.2.2 x hx fit List.mem_cons_self hxf
  have hback : back.map (s.write fit range).span = back.map s.span := by
    apply List.map_congr_left
    intro x hx
    refine span_write_of_ne ?_
    rintro rfl
    exact (List.nodup_cons.mp hparts.2.1).1 hx
  rw [List.map_append, List.map_cons, hfront, hback, span_write_self]

theorem toNat_cut (fits : size ≤ s.size fit)
    (ends : (s.start fit).toNat + (s.size fit).toNat ≤ 2 ^ 64 - 1) :
    (s.start fit + size).toNat = (s.start fit).toNat + size.toNat ∧
      (s.size fit - size).toNat = (s.size fit).toNat - size.toNat := by
  have hle : size.toNat ≤ (s.size fit).toNat := fits
  refine ⟨BitVec.toNat_add_of_lt (by omega), BitVec.toNat_sub_of_le fits⟩

theorem PageRun.cut {x : Span} {k : Nat} (h : PageRun lo hi x) (inside : k ≤ x.size)
    (page : k % 4096 = 0) : PageRun lo hi ⟨x.start + k, x.size - k⟩ := by
  obtain ⟨haligned, hwhole, hlower, hupper⟩ := h
  have hstop : x.stop = x.start + x.size := rfl
  refine ⟨?_, ?_, ?_, ?_⟩
  · dsimp only
    omega
  · dsimp only
    omega
  · dsimp only
    omega
  · simp only [Span.stop]
    omega

/-- Taking the range that fits leaves everything but the pages that are given out. -/
theorem Kept.take (h : Kept s (front ++ fit :: back) pool lo hi) (top : hi < 2 ^ 64)
    (fits : size ≤ s.size fit) (page : size.toNat % 4096 = 0) :
    ∃ list' pool', Kept (takeFit s size fit front.getLast?) list' pool' lo hi ∧
      list'.length + pool'.length = (front ++ fit :: back).length + pool.length ∧
      ∀ n, Covers (list'.map (takeFit s size fit front.getLast?).span) n ↔
        Covers ((front ++ fit :: back).map s.span) n ∧
          ¬ Span.Has ⟨(s.start fit).toNat, size.toNat⟩ n := by
  have hspaced := h.spaced
  have hpages := h.pages
  rw [List.map_append, List.map_cons] at hspaced hpages
  have hfit := hpages (s.span fit) (by simp)
  by_cases hexact : s.size fit = size
  · obtain ⟨hlayout, hspan⟩ := takeFit_exact h.layout hexact
    refine ⟨front ++ back, fit :: pool, ⟨hlayout, ?_, ?_⟩, ?_, ?_⟩
    · rw [hspan, List.map_append]
      exact hspaced.remove
    · rw [hspan, List.map_append]
      intro x hx
      exact hpages x (((List.sublist_cons_self _ _).append_left _).subset hx)
    · simp only [List.length_append, List.length_cons]
      omega
    · intro n
      rw [hspan, List.map_append, List.map_append, List.map_cons, ← hexact]
      exact hspaced.covers_remove
  · have hlt : size.toNat < (s.size fit).toNat :=
      Nat.lt_of_le_of_ne fits fun heq => hexact (BitVec.eq_of_toNat_eq heq.symm)
    have hends : (s.start fit).toNat + (s.size fit).toNat ≤ 2 ^ 64 - 1 := by
      have hupper : (s.start fit).toNat + (s.size fit).toNat ≤ hi := hfit.upper
      omega
    obtain ⟨hstart, hsize⟩ := toNat_cut fits hends
    have hmap : (front ++ fit :: back).map (takeFit s size fit front.getLast?).span =
        front.map s.span ++ ⟨(s.span fit).start + size.toNat, (s.span fit).size - size.toNat⟩ ::
          back.map s.span := by
      rw [takeFit.eq_def, if_neg hexact, map_span_write h.layout.nodup_list, hstart, hsize]
      rfl
    refine ⟨front ++ fit :: back, pool, ⟨takeFit_cut h.layout hexact, ?_, ?_⟩, rfl, ?_⟩
    · rw [hmap]
      exact hspaced.cut hlt
    · rw [hmap]
      intro x hx
      rcases List.mem_append.mp hx with hf | hx
      · exact hpages x (List.mem_append_left _ hf)
      · rcases List.mem_cons.mp hx with rfl | hb
        · exact hfit.cut (Nat.le_of_lt hlt) page
        · exact hpages x (List.mem_append_right _ (List.mem_cons_of_mem _ hb))
    · intro n
      rw [hmap, List.map_append, List.map_cons]
      exact hspaced.covers_cut (Nat.le_of_lt hlt)

theorem toNat_pages (small : numPages.toNat < 2 ^ 52) :
    (numPages * vmPageSize).toNat = 4096 * numPages.toNat := by
  have hpage : vmPageSize.toNat = 4096 := rfl
  rw [BitVec.toNat_mul, hpage, Nat.mod_eq_of_lt (by omega), Nat.mul_comm]

theorem Kept.finite (h : Kept s list pool lo hi) {x : BitVec 64} (hx : x ∈ list) :
    s.size x < -1 := by
  have hwhole : (s.size x).toNat % 4096 = 0 := (h.pages _ (List.mem_map_of_mem hx)).whole
  have htop : (-1 : BitVec 64).toNat = 2 ^ 64 - 1 := rfl
  show (s.size x).toNat < (-1 : BitVec 64).toNat
  omega

theorem Sound.lock (h : Sound s list pool lo hi) :
    spinlockLock s = some { s with vmmLock := true } := by
  rw [spinlockLock, h.unlocked]
  rfl

theorem isInitialized_takeFit (prev : Option (BitVec 64)) :
    (takeFit s size fit prev).isInitialized = s.isInitialized := by
  rw [takeFit.eq_def]
  split_ifs
  · cases prev with
    | none => rfl
    | some p => rfl
  · rfl

/-- The call answers 0 and leaves everything, or takes the start of the first range among the
smallest that fit. -/
theorem vmmAllocBlock_outcome (free : Chain s.next s.freeRanges list)
    (finite : ∀ x ∈ list, s.size x < -1) (unlocked : s.vmmLock = false)
    (ready : s.isInitialized = true) (some_pages : numPages ≠ 0) :
    ((∀ fuel > list.length, vmmAllocBlock fuel s numPages = some (0, s)) ∧
      ∀ x ∈ list, s.size x < numPages * vmPageSize) ∨
    ∃ front fit back, list = front ++ fit :: back ∧ numPages * vmPageSize ≤ s.size fit ∧
      (∀ x ∈ front, numPages * vmPageSize ≤ s.size x → s.size fit < s.size x) ∧
      (∀ x ∈ back, numPages * vmPageSize ≤ s.size x → s.size fit ≤ s.size x) ∧
      ∀ fuel > list.length, vmmAllocBlock fuel s numPages = some (s.start fit,
        spinlockUnlock (takeFit { s with vmmLock := true } (numPages * vmPageSize) fit
          front.getLast?)) := by
  have hlock : spinlockLock s = some { s with vmmLock := true } := by
    rw [spinlockLock, unlocked]
    rfl
  have hguard : ¬ (s.isInitialized = false ∨ numPages = 0) := by
    rintro (hno | hzero)
    · exact absurd (ready.symm.trans hno) Bool.false_ne_true.symm
    · exact some_pages hzero
  have hnone : Seen { s with vmmLock := true } (numPages * vmPageSize) [] ⟨none, none, -1⟩ :=
    .none fun x hx => absurd hx List.not_mem_nil
  obtain ⟨best, hfind, hseen⟩ :=
    @findFit_spec { s with vmmLock := true } [] list _ _ none s.freeRanges free hnone rfl finite
  have hcall : ∀ fuel > list.length, vmmAllocBlock fuel s numPages =
      some (match best.bestFit with
        | some fit => (s.start fit, spinlockUnlock (takeFit { s with vmmLock := true }
            (numPages * vmPageSize) fit best.bestFitPrev))
        | none => (0, spinlockUnlock { s with vmmLock := true })) := by
    intro fuel enough
    rw [vmmAllocBlock, if_neg hguard, hlock, Option.bind_some]
    exact (congrArg (Option.map _) (hfind fuel enough)).trans rfl
  rw [List.nil_append] at hseen
  cases hseen with
  | none smaller =>
    refine Or.inl ⟨?_, smaller⟩
    have hsame : spinlockUnlock { s with vmmLock := true } = s := by
      rw [spinlockUnlock, ← unlocked]
    dsimp only at hcall
    rw [hsame] at hcall
    exact hcall
  | @some front back fit split fits below above =>
    exact Or.inr ⟨front, fit, back, split, fits, below, above, hcall⟩

/-- The state when the pages from `start` on have been taken out of it. -/
structure Taken (s : State) (list pool : List (BitVec 64)) (lo hi start size : Nat) (s' : State)
    (list' pool' : List (BitVec 64)) : Prop where
  sound : Sound s' list' pool' lo hi
  count : list'.length + pool'.length = list.length + pool.length
  covers : ∀ n, Covers (list'.map s'.span) n ↔
    Covers (list.map s.span) n ∧ ¬ Span.Has ⟨start, size⟩ n

/-- `vmm_alloc_block` takes the start of the best fit, and fails only where nothing fits. -/
theorem Sound.alloc (h : Sound s list pool lo hi) (top : hi < 2 ^ 64)
    (some_pages : numPages ≠ 0) (small : numPages.toNat < 2 ^ 52) :
    ((∀ fuel > list.length, vmmAllocBlock fuel s numPages = some (0, s)) ∧
      ∀ x ∈ list.map s.span, x.size < 4096 * numPages.toNat) ∨
    ∃ fit ∈ list, ∃ s' list' pool',
      (∀ fuel > list.length, vmmAllocBlock fuel s numPages = some (s.start fit, s')) ∧
      BestFit (list.map s.span) (4096 * numPages.toNat) (s.span fit) ∧
      Taken s list pool lo hi (s.start fit).toNat (4096 * numPages.toNat) s' list' pool' := by
  have hsize := toNat_pages small
  rcases vmmAllocBlock_outcome h.kept.layout.free (fun x hx => h.kept.finite hx) h.unlocked h.ready
      some_pages with ⟨hcall, smaller⟩ | ⟨front, fit, back, split, fits, below, above, hcall⟩
  · refine Or.inl ⟨hcall, ?_⟩
    intro x hx
    obtain ⟨r, hr, rfl⟩ := List.mem_map.mp hx
    rw [← hsize]
    exact smaller r hr
  · rw [split] at h hcall ⊢
    obtain ⟨list', pool', hkept, hcount, hcovers⟩ := (h.kept.setLock true).take top fits (by omega)
    refine Or.inr ⟨fit, by simp, _, list', pool', hcall, ?_,
      ⟨⟨hkept.setLock false, ?_, rfl⟩, hcount, ?_⟩⟩
    · have hspaced := h.kept.spaced
      rw [List.map_append, List.map_cons] at hspaced ⊢
      rw [← hsize]
      refine hspaced.bestFit fits ?_ ?_
      · intro t ht hfits
        obtain ⟨r, hr, rfl⟩ := List.mem_map.mp ht
        exact below r hr hfits
      · intro t ht hfits
        obtain ⟨r, hr, rfl⟩ := List.mem_map.mp ht
        exact above r hr hfits
    · exact (isInitialized_takeFit _).trans h.ready
    · rw [← hsize]
      exact hcovers

end Allocating

/-! ## Freeing -/

/-- The new range `m` is linked in its place, and may still touch the ranges beside it. -/
structure Pending (s : State) (front : List (BitVec 64)) (m : BitVec 64)
    (back pool : List (BitVec 64)) (lo hi : Nat) : Prop where
  layout : Layout s (front ++ m :: back) pool
  placed : Placed (front.map s.span) (s.span m) (back.map s.span)
  pages : ∀ x ∈ (front ++ m :: back).map s.span, PageRun lo hi x

section Freeing

variable {s : State} {list pool before rest front back : List (BitVec 64)} {lo hi : Nat}
  {size p m c address numPages : BitVec 64}

theorem findInsertion_spec {prev curr : Option (BitVec 64)} (chain : Chain s.next curr rest)
    (below : ∀ x ∈ before, s.start x < address) (hprev : prev = before.getLast?) :
    ∃ front back, before ++ rest = front ++ back ∧
      (∀ fuel > rest.length, findInsertion s address fuel prev curr = some front.getLast?) ∧
      (∀ x ∈ front, s.start x < address) ∧ ∀ x ∈ back.head?, address ≤ s.start x := by
  induction rest generalizing before prev curr with
  | nil =>
    have hcurr : curr = none := chain
    rw [hcurr, hprev]
    refine ⟨before, [], rfl, fun fuel enough => ?_, below, by simp⟩
    obtain ⟨fuel, rfl⟩ := Nat.exists_eq_add_one_of_ne_zero (Nat.ne_zero_of_lt enough)
    rfl
  | cons c rest ih =>
    obtain ⟨hcurr, htail⟩ := chain
    rw [hcurr]
    by_cases hlower : s.start c < address
    · have hbefore : ∀ x ∈ before ++ [c], s.start x < address := by
        intro x hx
        rcases List.mem_append.mp hx with hb | hc
        · exact below x hb
        · rw [List.mem_singleton.mp hc]
          exact hlower
      have hlast : some c = (before ++ [c]).getLast? := by simp
      obtain ⟨front, back, hsplit, hfind, hfound⟩ := ih htail hbefore hlast
      refine ⟨front, back, ?_, fun fuel enough => ?_, hfound⟩
      · rw [← hsplit, List.append_assoc, List.singleton_append]
      · obtain ⟨fuel, rfl⟩ := Nat.exists_eq_add_one_of_ne_zero (Nat.ne_zero_of_lt enough)
        rw [findInsertion, if_pos hlower]
        exact hfind fuel (Nat.lt_of_succ_lt_succ enough)
    · refine ⟨before, c :: rest, rfl, fun fuel enough => ?_, below, ?_⟩
      · obtain ⟨fuel, rfl⟩ := Nat.exists_eq_add_one_of_ne_zero (Nat.ne_zero_of_lt enough)
        rw [findInsertion, if_neg hlower, hprev]
      · intro x hx
        obtain rfl := Option.some.inj hx
        exact BitVec.not_lt.mp hlower

theorem span_absorb_of_ne {x : BitVec 64} (hx : x ≠ p) : (absorb s p c).span x = s.span x := by
  rw [absorb, span_freeRange]
  exact span_write_of_ne hx

/-- The range that takes up another one is as long as both. -/
theorem span_absorb (short : (s.size p).toNat + (s.size c).toNat < 2 ^ 64) :
    (absorb s p c).span p = ⟨(s.span p).start, (s.span p).size + (s.span c).size⟩ := by
  rw [absorb, span_freeRange, span_write_self]
  dsimp only
  rw [BitVec.toNat_add_of_lt short]
  rfl

theorem map_span_absorb {part : List (BitVec 64)} (off : p ∉ part) :
    part.map (absorb s p c).span = part.map s.span := by
  apply List.map_congr_left
  intro x hx
  exact span_absorb_of_ne (ne_of_mem_of_not_mem hx off)

theorem PageRun.join {x y : Span} (hx : PageRun lo hi x) (hy : PageRun lo hi y)
    (touch : x.stop = y.start) : PageRun lo hi ⟨x.start, x.size + y.size⟩ := by
  obtain ⟨haligned, hwhole, hlower, hupper⟩ := hx
  obtain ⟨haligned', hwhole', hlower', hupper'⟩ := hy
  refine ⟨haligned, ?_, hlower, ?_⟩
  · dsimp only
    omega
  · simp only [Span.stop] at touch hupper' ⊢
    omega

/-- What the code compares is where one range ends and the other one starts. -/
theorem touches_iff (inside : (s.span p).stop ≤ hi) (top : hi < 2 ^ 64) :
    s.start p + s.size p = s.start c ↔ (s.span p).stop = (s.span c).start := by
  have hstop : (s.start p).toNat + (s.size p).toNat ≤ hi := inside
  rw [← BitVec.toNat_inj, BitVec.toNat_add_of_lt (by omega)]
  rfl

/-- The range before is joined with the new one if they touch. -/
theorem Pending.coalescePrev (h : Pending s front m back pool lo hi) (top : hi < 2 ^ 64) :
    ∃ s' front' m' pool', coalescePrev s front.getLast? m = (s', m') ∧
      Pending s' front' m' back pool' lo hi ∧
      (∀ x ∈ (front'.map s'.span).getLast?, x.stop ≠ (s'.span m').start) ∧
      (front' ++ m' :: back).length + pool'.length =
        (front ++ m :: back).length + pool.length ∧
      ∀ n, Covers ((front' ++ m' :: back).map s'.span) n ↔
        Covers ((front ++ m :: back).map s.span) n := by
  rcases List.eq_nil_or_concat' front with rfl | ⟨others, p, rfl⟩
  · exact ⟨s, [], m, pool, rfl, h, by simp, rfl, fun n => Iff.rfl⟩
  · have hlast : (others ++ [p]).getLast? = some p := by simp
    have hp := h.pages (s.span p) (by simp)
    have hm := h.pages (s.span m) (by simp)
    have htouches := touches_iff (c := m) hp.upper top
    rw [hlast, Vmalloc.coalescePrev]
    by_cases htouch : s.start p + s.size p = s.start m
    · have hjoint := htouches.mp htouch
      have hlayout := h.layout
      rw [List.append_assoc, List.singleton_append] at hlayout
      have hparts := List.nodup_append.mp hlayout.nodup_list
      have hothers : p ∉ others := fun hx => hparts.2.2 p hx p List.mem_cons_self rfl
      have htail := (List.nodup_cons.mp hparts.2.1).1
      have hback : p ∉ back := fun hx => htail (List.mem_cons_of_mem _ hx)
      have hspan : (absorb s p m).span p =
          ⟨(s.span p).start, (s.span p).size + (s.span m).size⟩ := by
        apply span_absorb
        have hupper := hm.upper
        simp only [State.span, Span.stop] at hjoint hupper
        omega
      obtain ⟨hplaced, hgap⟩ : Placed (others.map s.span)
          ⟨(s.span p).start, (s.span p).size + (s.span m).size⟩ (back.map s.span) ∧
          ∀ x ∈ (others.map s.span).getLast?, x.stop ≠ (s.span p).start := by
        apply Placed.joinBefore _ hjoint
        have hplaced := h.placed
        rwa [List.map_append, List.map_singleton] at hplaced
      have hmap : (others ++ p :: back).map (absorb s p m).span = others.map s.span ++
          ⟨(s.span p).start, (s.span p).size + (s.span m).size⟩ :: back.map s.span := by
        rw [List.map_append, List.map_cons, map_span_absorb hothers, map_span_absorb hback, hspan]
      rw [if_pos htouch]
      refine ⟨_, others, p, m :: pool, rfl, ⟨hlayout.absorb, ?_, ?_⟩, ?_, ?_, ?_⟩
      · rw [map_span_absorb hothers, map_span_absorb hback, hspan]
        exact hplaced
      · rw [hmap]
        intro x hx
        rcases List.mem_append.mp hx with ho | hx
        · obtain ⟨r, hr, rfl⟩ := List.mem_map.mp ho
          exact h.pages _ (List.mem_map_of_mem (by simp [hr]))
        · rcases List.mem_cons.mp hx with rfl | hb
          · exact hp.join hm hjoint
          · obtain ⟨r, hr, rfl⟩ := List.mem_map.mp hb
            exact h.pages _ (List.mem_map_of_mem (by simp [hr]))
      · rw [map_span_absorb hothers, hspan]
        exact hgap
      · simp only [List.length_append, List.length_cons, List.length_nil]
        omega
      · intro n
        rw [hmap, List.append_assoc, List.singleton_append, List.map_append, List.map_cons,
          List.map_cons]
        exact covers_join hjoint
    · rw [if_neg htouch]
      refine ⟨s, others ++ [p], m, pool, rfl, h, ?_, rfl, fun n => Iff.rfl⟩
      intro x hx hstop
      rw [List.map_append, List.map_singleton, List.getLast?_append, List.getLast?_singleton,
        Option.some_or] at hx
      obtain rfl := Option.some.inj hx
      exact htouch (htouches.mpr hstop)

/-- The new range is joined with the one behind it if they touch, and the list is in order again. -/
theorem Pending.coalesceNext (h : Pending s front m back pool lo hi) (top : hi < 2 ^ 64)
    (gap : ∀ x ∈ (front.map s.span).getLast?, x.stop ≠ (s.span m).start) :
    ∃ list' pool', Kept (coalesceNext s m) list' pool' lo hi ∧
      list'.length + pool'.length = (front ++ m :: back).length + pool.length ∧
      ∀ n, Covers (list'.map (coalesceNext s m).span) n ↔
        Covers ((front ++ m :: back).map s.span) n := by
  have hparts := List.nodup_append.mp h.layout.nodup_list
  have hm := h.pages (s.span m) (by simp)
  obtain ⟨arrived, -, -, hnext⟩ := seg_append.mp h.layout.free
  cases back with
  | nil =>
    have hend : s.next m = none := hnext
    have hstate : Vmalloc.coalesceNext s m = s := by
      rw [Vmalloc.coalesceNext, hend]
    rw [hstate]
    refine ⟨front ++ [m], pool, ⟨h.layout, ?_, h.pages⟩, rfl, fun n => Iff.rfl⟩
    rw [List.map_append]
    exact h.placed.insert gap (by simp)
  | cons c others =>
    have hlink : s.next m = some c := hnext.1
    have hc := h.pages (s.span c) (by simp)
    have htouches := touches_iff (c := c) hm.upper top
    rw [Vmalloc.coalesceNext, hlink]
    dsimp only
    by_cases htouch : s.start m + s.size m = s.start c
    · have hjoint := htouches.mp htouch
      have hfront : m ∉ front := fun hx => hparts.2.2 m hx m List.mem_cons_self rfl
      have htail := (List.nodup_cons.mp hparts.2.1).1
      have hothers : m ∉ others := fun hx => htail (List.mem_cons_of_mem _ hx)
      have hspan : (absorb s m c).span m =
          ⟨(s.span m).start, (s.span m).size + (s.span c).size⟩ := by
        apply span_absorb
        have hupper := hc.upper
        simp only [State.span, Span.stop] at hjoint hupper
        omega
      have hmap : (front ++ m :: others).map (absorb s m c).span = front.map s.span ++
          ⟨(s.span m).start, (s.span m).size + (s.span c).size⟩ :: others.map s.span := by
        rw [List.map_append, List.map_cons, map_span_absorb hfront, map_span_absorb hothers, hspan]
      obtain ⟨hplaced, hgap⟩ := Placed.joinAfter h.placed hjoint
      rw [if_pos htouch]
      refine ⟨front ++ m :: others, c :: pool, ⟨h.layout.absorb, ?_, ?_⟩, ?_, ?_⟩
      · rw [hmap]
        exact hplaced.insert gap hgap
      · rw [hmap]
        intro x hx
        rcases List.mem_append.mp hx with hf | hx
        · obtain ⟨r, hr, rfl⟩ := List.mem_map.mp hf
          exact h.pages _ (List.mem_map_of_mem (by simp [hr]))
        · rcases List.mem_cons.mp hx with rfl | ho
          · exact hm.join hc hjoint
          · obtain ⟨r, hr, rfl⟩ := List.mem_map.mp ho
            exact h.pages _ (List.mem_map_of_mem (by simp [hr]))
      · simp only [List.length_append, List.length_cons]
        omega
      · intro n
        rw [hmap, List.map_append, List.map_cons, List.map_cons]
        exact covers_join hjoint
    · rw [if_neg htouch]
      refine ⟨front ++ m :: c :: others, pool, ⟨h.layout, ?_, h.pages⟩, rfl, fun n => Iff.rfl⟩
      rw [List.map_append]
      refine h.placed.insert gap ?_
      intro x hx
      obtain rfl := Option.some.inj hx
      exact fun hstop => htouch (htouches.mpr hstop)

/-- The first range of the pool becomes the new range. -/
theorem Kept.newRange (h : Kept s list (m :: pool) lo hi) (start size : BitVec 64) :
    allocRange s = (some m, { s with rangePool := s.next m }) ∧
      Kept (initRange { s with rangePool := s.next m } m start size) list pool lo hi ∧
      m ∉ list ++ pool ∧
      list.map (initRange { s with rangePool := s.next m } m start size).span =
        list.map s.span := by
  obtain ⟨halloc, hlayout, hoff⟩ := h.layout.takeFirst
  have hmap : list.map (initRange { s with rangePool := s.next m } m start size).span =
      list.map s.span := by
    apply List.map_congr_left
    intro x hx
    refine span_write_of_ne ?_
    rintro rfl
    exact hoff (List.mem_append_left _ hx)
  refine ⟨halloc, ⟨hlayout.writeOff hoff, ?_, ?_⟩, hoff, hmap⟩
  · rw [hmap]
    exact h.spaced
  · rw [hmap]
    exact h.pages

/-- The search finds the place of a run that shares nothing with the free ranges. -/
theorem Kept.pending (h : Kept s (front ++ back) pool lo hi) (off : m ∉ (front ++ back) ++ pool)
    (run : PageRun lo hi (s.span m)) (nonempty : 0 < (s.span m).size)
    (below : ∀ x ∈ front, s.start x < s.start m)
    (above : ∀ x ∈ back.head?, s.start m ≤ s.start x)
    (unshared : ∀ x ∈ (front ++ back).map s.span,
      ¬ (x.start < (s.span m).stop ∧ (s.span m).start < x.stop)) :
    Pending (insertRange s m front.getLast?) front m back pool lo hi := by
  have hspaced := h.spaced
  rw [List.map_append] at hspaced
  have hupper : ∀ t ∈ back.map s.span, (s.span m).start ≤ t.start := by
    cases back with
    | nil => exact fun t ht => absurd ht List.not_mem_nil
    | cons c others =>
      have hc : (s.span m).start ≤ (s.span c).start := above c rfl
      intro t ht
      rcases List.mem_cons.mp ht with rfl | ht
      · exact hc
      · rw [List.map_cons] at hspaced
        have hgap := hspaced.stop_lt_of_after ht
        have hstop : (s.span c).stop = (s.span c).start + (s.span c).size := rfl
        omega
  refine ⟨h.layout.insert off, ?_, ?_⟩
  · rw [span_insertRange]
    refine hspaced.placed nonempty ?_ hupper ?_
    · intro t ht
      obtain ⟨r, hr, rfl⟩ := List.mem_map.mp ht
      exact below r hr
    · rw [← List.map_append]
      exact unshared
  · rw [span_insertRange]
    intro x hx
    obtain ⟨r, hr, rfl⟩ := List.mem_map.mp hx
    rcases List.mem_append.mp hr with hf | hr
    · exact h.pages _ (List.mem_map_of_mem (List.mem_append_left _ hf))
    · rcases List.mem_cons.mp hr with rfl | hb
      · exact run
      · exact h.pages _ (List.mem_map_of_mem (List.mem_append_right _ hb))

theorem isInitialized_insertRange (prev : Option (BitVec 64)) :
    (insertRange s m prev).isInitialized = s.isInitialized := by
  cases prev with
  | none => rfl
  | some p => rfl

theorem isInitialized_coalescePrev (prev : Option (BitVec 64)) :
    (coalescePrev s prev m).1.isInitialized = s.isInitialized := by
  cases prev with
  | none => rfl
  | some p =>
    rw [coalescePrev]
    split_ifs
    · rfl
    · rfl

theorem isInitialized_coalesceNext :
    (coalesceNext s m).isInitialized = s.isInitialized := by
  rw [coalesceNext]
  cases s.next m with
  | none => rfl
  | some c =>
    dsimp only
    split_ifs
    · rfl
    · rfl

/-- The state when the pages from `start` on have been given back to it. -/
structure Given (s : State) (list pool : List (BitVec 64)) (lo hi start size : Nat) (s' : State)
    (list' pool' : List (BitVec 64)) : Prop where
  sound : Sound s' list' pool' lo hi
  count : list'.length + pool'.length = list.length + pool.length
  covers : ∀ n, Covers (list'.map s'.span) n ↔
    Span.Has ⟨start, size⟩ n ∨ Covers (list.map s.span) n

/-- A run that shares nothing with the free ranges is put between them. -/
theorem Kept.putRange (h : Kept s list (m :: pool) lo hi) (top : hi < 2 ^ 64)
    (run : PageRun lo hi ⟨address.toNat, size.toNat⟩) (nonempty : 0 < size.toNat)
    (unshared : ∀ x ∈ list.map s.span,
      ¬ (x.start < address.toNat + size.toNat ∧ address.toNat < x.stop)) :
    ∃ s' list' pool', (∀ fuel > list.length,
        putRange fuel { s with rangePool := s.next m } m address size = some s') ∧
      s'.isInitialized = s.isInitialized ∧ Kept s' list' pool' lo hi ∧
      list'.length + pool'.length = list.length + (m :: pool).length ∧
      ∀ n, Covers (list'.map s'.span) n ↔
        Span.Has ⟨address.toNat, size.toNat⟩ n ∨ Covers (list.map s.span) n := by
  obtain ⟨-, hkept, hoff, hmap⟩ := h.newRange address size
  obtain ⟨fresh, hfresh⟩ :
    ∃ fresh, fresh = initRange { s with rangePool := s.next m } m address size := ⟨_, rfl⟩
  have hspan : fresh.span m = ⟨address.toNat, size.toNat⟩ := by
    rw [hfresh]
    exact span_write_self
  have hready : fresh.isInitialized = s.isInitialized := by
    rw [hfresh]
    rfl
  rw [← hfresh] at hkept hmap
  have hstart : fresh.start m = address := BitVec.eq_of_toNat_eq (congrArg Span.start hspan)
  have hnone : ∀ x ∈ ([] : List (BitVec 64)), fresh.start x < address :=
    fun x hx => absurd hx List.not_mem_nil
  obtain ⟨front, back, hsplit, hfind, hbelow, habove⟩ :=
    findInsertion_spec hkept.layout.free hnone rfl
  rw [List.nil_append] at hsplit
  rw [hsplit] at hkept hoff
  have hpending : Pending (insertRange fresh m front.getLast?) front m back pool lo hi := by
    refine hkept.pending hoff ?_ ?_ ?_ ?_ ?_
    · rw [hspan]
      exact run
    · rw [hspan]
      exact nonempty
    · rw [hstart]
      exact hbelow
    · rw [hstart]
      exact habove
    · rw [hspan, ← hsplit, hmap]
      exact unshared
  obtain ⟨s₁, front', m', pool₁, hprev, hpending', hgap, hcount, hcovers⟩ :=
    hpending.coalescePrev top
  obtain ⟨list', pool', hdone, hcount', hcovers'⟩ := hpending'.coalesceNext top hgap
  refine ⟨coalesceNext s₁ m', list', pool', ?_, ?_, hdone, ?_, ?_⟩
  · intro fuel enough
    rw [Vmalloc.putRange, ← hfresh]
    refine (congrArg (Option.map _) (hfind fuel enough)).trans ?_
    rw [Option.map_some]
    dsimp only
    rw [hprev]
  · have hstate : s₁ = (coalescePrev (insertRange fresh m front.getLast?) front.getLast? m).1 := by
      rw [hprev]
    rw [isInitialized_coalesceNext, hstate, isInitialized_coalescePrev, isInitialized_insertRange]
    exact hready
  · rw [hcount', hcount, hsplit]
    simp only [List.length_append, List.length_cons]
    omega
  · intro n
    have hlist : (front ++ back).map fresh.span = list.map s.span := by
      rw [← hsplit]
      exact hmap
    rw [hcovers' n, hcovers n, span_insertRange, List.map_append, List.map_cons, covers_insert,
      hspan, ← List.map_append, hlist]

/-- `vmm_free_block` on pages that are not free. -/
theorem Sound.free (h : Sound s list (m :: pool) lo hi) (top : hi < 2 ^ 64)
    (some_pages : numPages ≠ 0) (small : numPages.toNat < 2 ^ 52)
    (run : PageRun lo hi ⟨address.toNat, 4096 * numPages.toNat⟩)
    (unshared : ∀ x ∈ list.map s.span,
      ¬ (x.start < address.toNat + 4096 * numPages.toNat ∧ address.toNat < x.stop)) :
    ∃ s' list' pool',
      (∀ fuel > list.length, vmmFreeBlock fuel s address numPages = some (vmmSuccess, s')) ∧
      Given s list (m :: pool) lo hi address.toNat (4096 * numPages.toNat) s' list' pool' := by
  have hsize := toNat_pages small
  have hpositive : 0 < numPages.toNat :=
    Nat.pos_of_ne_zero fun hzero => some_pages (BitVec.eq_of_toNat_eq hzero)
  have hrun : PageRun lo hi ⟨address.toNat, (numPages * vmPageSize).toNat⟩ := by
    rw [hsize]
    exact run
  have hunshared : ∀ x ∈ list.map s.span, ¬ (x.start < address.toNat +
      (numPages * vmPageSize).toNat ∧ address.toNat < x.stop) := by
    rw [hsize]
    exact unshared
  have hlocked := h.kept.setLock true
  obtain ⟨halloc, -⟩ := hlocked.layout.takeFirst
  obtain ⟨s', list', pool', hput, hready, hkept, hcount, hcovers⟩ :=
    hlocked.putRange top hrun (by omega) hunshared
  rw [hsize] at hcovers
  refine ⟨spinlockUnlock s', list', pool', ?_,
    ⟨⟨hkept.setLock false, hready.trans h.ready, rfl⟩, hcount, hcovers⟩⟩
  have hinit : ¬ s.isInitialized = false := by
    rw [h.ready]
    exact Bool.false_ne_true.symm
  have hparams : ¬ (numPages = 0 ∨ address &&& (vmPageSize - 1) ≠ 0) := by
    rintro (hzero | hlow)
    · exact some_pages hzero
    · have hmask : (vmPageSize - 1).toNat = 2 ^ 12 - 1 := rfl
      exact hlow ((Masks.and_low_eq_zero_iff hmask).mpr run.aligned)
  intro fuel enough
  rw [vmmFreeBlock, if_neg hinit, if_neg hparams, h.lock, Option.bind_some, halloc]
  dsimp only
  exact (congrArg (Option.map _) (hput fuel enough)).trans rfl

end Freeing

end Vmalloc
