import AnosKernel.Lib.Runs
import AnosKernel.Vmalloc

/-!
# Runs of the allocator of virtual addresses

From `vmm_init` on, whatever blocks are allocated and freed, the free list is sorted and fully
coalesced, the ranges of the pool are not lost, and the pages of the managed range are free or
handed out.
-/

namespace VmallocRuns

open Chains Spans Vmalloc Runs

/-- The addresses of `n` ranges in a row. -/
def nodesFrom (start : BitVec 64) : Nat → List (BitVec 64)
  | 0 => []
  | n + 1 => start :: nodesFrom (start + rangeBytes) n

/-- A region with room for a range at least. The end of the region is compared with pointers up to
one range behind it, which are still in the address space. -/
def Metadata (start size : BitVec 64) : Prop :=
  24 ≤ size.toNat ∧ start.toNat + size.toNat + 24 < 2 ^ 64

/-- The allocator, with the pages that were handed out and not given back. -/
structure History where
  state : State
  allocated : Nat → Prop
  managedStart : BitVec 64
  managedEnd : BitVec 64
  nodes : Nat

inductive Call
  | alloc (numPages : BitVec 64)
  | free (address numPages : BitVec 64)

/-- The page `p` is one of `numPages` from `address` on. -/
def InRun (address numPages : BitVec 64) (p : Nat) : Prop :=
  Span.Has ⟨address.toNat, 4096 * numPages.toNat⟩ (4096 * p)

/-- The answer 0 hands nothing out. -/
def exec (fuel : Nat) (h : History) : Call → Option History
  | .alloc numPages => (vmmAllocBlock fuel h.state numPages).map fun (address, state) =>
      { h with
        state := state
        allocated := fun p => h.allocated p ∨ (address ≠ 0 ∧ InRun address numPages p) }
  | .free address numPages => (vmmFreeBlock fuel h.state address numPages).map
      fun (result, state) =>
        { h with
          state := state
          allocated := fun p =>
            h.allocated p ∧ ¬ (result = vmmSuccess ∧ InRun address numPages p) }

def Returns (h : History) (call : Call) (h' : History) : Prop :=
  ∃ enough, ∀ fuel ≥ enough, exec fuel h call = some h'

/-- What is freed was handed out, and there is a range in the pool for it. A call that is rejected
for its arguments may be made at any time. -/
def Permitted (h : History) : Call → Prop
  | .alloc numPages => numPages.toNat < 2 ^ 52
  | .free address numPages => numPages.toNat < 2 ^ 52 ∧
      (numPages ≠ 0 → address &&& (vmPageSize - 1) = 0 →
        h.state.rangePool ≠ none ∧ ∀ p, InRun address numPages p → h.allocated p)

/-- `vmm_init` accepted the managed range. -/
def Started (h : History) : Prop :=
  ∃ s metadataStart metadataSize managedStart managedSize,
    Metadata metadataStart metadataSize ∧
    (∃ enough, ∀ fuel ≥ enough, vmmInit fuel s (some metadataStart) metadataSize managedStart
      managedSize = some (vmmSuccess, h.state)) ∧
    h.managedStart = alignUp managedStart ∧
    h.managedEnd = alignDown (managedStart + managedSize) ∧
    h.nodes = metadataSize.toNat / 24 ∧ h.allocated = fun _ => False

def allocator : System History Call where
  init := Started
  step := fun h call h' => Permitted h call ∧ Returns h call h'

def Managed (h : History) (p : Nat) : Prop :=
  h.managedStart.toNat ≤ 4096 * p ∧ 4096 * p < h.managedEnd.toNat

def Free (h : History) (list : List (BitVec 64)) (p : Nat) : Prop :=
  Covers (list.map h.state.span) (4096 * p)

/-- The answer for `numPages` pages: nothing for no pages, otherwise the start of the best fit, or 0
where nothing fits. Only a managed range that starts at 0 can have a block at 0. -/
structure Answer (h : History) (list : List (BitVec 64)) (numPages address : BitVec 64) :
    Prop where
  nothing : numPages = 0 → address = 0
  fit : numPages ≠ 0 →
    (∃ r ∈ list, BestFit (list.map h.state.span) (4096 * numPages.toNat) (h.state.span r) ∧
      address = h.state.start r) ∨
    ((∀ r ∈ list, (h.state.size r).toNat < 4096 * numPages.toNat) ∧ address = 0)
  failure : numPages ≠ 0 → h.managedStart ≠ 0 → address = 0 →
    ∀ r ∈ list, (h.state.size r).toNat < 4096 * numPages.toNat

/-- The lists and the pages of a state. -/
structure Proper (h : History) (list pool : List (BitVec 64)) : Prop where
  free : Chain h.state.next h.state.freeRanges list
  unused : Chain h.state.next h.state.rangePool pool
  nodes : list.length + pool.length = h.nodes
  sorted : list.Pairwise fun a b => h.state.start a < h.state.start b
  apart : list.Pairwise fun a b =>
    (h.state.start a).toNat + (h.state.size a).toNat < (h.state.start b).toNat
  pages : ∀ r ∈ list, (h.state.start r).toNat % 4096 = 0 ∧ (h.state.size r).toNat % 4096 = 0 ∧
    h.state.size r ≠ 0
  managed : ∀ p, Free h list p ∨ h.allocated p → Managed h p
  disjoint : ∀ p, Free h list p → ¬ h.allocated p
  covered : h.managedStart ≠ 0 → ∀ p, Managed h p → Free h list p ∨ h.allocated p
  answer : ∀ numPages : BitVec 64, numPages.toNat < 2 ^ 52 → ∃ enough, ∀ fuel ≥ enough,
    ∃ address s', vmmAllocBlock fuel h.state numPages = some (address, s') ∧
      Answer h list numPages address
  returns : ∀ call, Permitted h call → ∃ h', Returns h call h'

/-! ## The start -/

section Start

variable {s s' : State} {curr start size : BitVec 64} {n fuel : Nat} {x : BitVec 64}

theorem length_nodesFrom : (nodesFrom start n).length = n := by
  induction n generalizing start with
  | zero => rfl
  | succ n ih => rw [nodesFrom, List.length_cons, ih]

theorem toNat_nextNode (room : start.toNat + 24 < 2 ^ 64) :
    (start + rangeBytes).toNat = start.toNat + 24 := by
  have hbytes : rangeBytes.toNat = 24 := rfl
  rw [BitVec.toNat_add_of_lt (by omega), hbytes]

theorem le_of_mem_nodesFrom (room : start.toNat + 24 * n < 2 ^ 64) (hx : x ∈ nodesFrom start n) :
    start.toNat ≤ x.toNat := by
  induction n generalizing start with
  | zero => exact absurd hx List.not_mem_nil
  | succ n ih =>
    rcases List.mem_cons.mp hx with rfl | hx
    · exact Nat.le_refl _
    · have hnext := @toNat_nextNode start (by omega)
      have hle := ih (by omega) hx
      omega

theorem nodup_nodesFrom (room : start.toNat + 24 * n < 2 ^ 64) : (nodesFrom start n).Nodup := by
  induction n generalizing start with
  | zero => exact List.nodup_nil
  | succ n ih =>
    have hnext := @toNat_nextNode start (by omega)
    refine List.nodup_cons.mpr ⟨fun hmem => ?_, ih (by omega)⟩
    have hle := le_of_mem_nodesFrom (by omega) hmem
    omega

/-- What the loop leaves alone. -/
structure Relinked (s s' : State) : Prop where
  rangePool : s'.rangePool = s.rangePool
  vmmLock : s'.vmmLock = s.vmmLock

/-- The loop links as many ranges as there is room for. -/
theorem linkLoop_spec (room : curr.toNat + 24 * n ≤ s.rangePoolEnd.toNat)
    (full : s.rangePoolEnd.toNat < curr.toNat + 24 * (n + 1))
    (top : s.rangePoolEnd.toNat + 24 < 2 ^ 64) (enough : n < fuel) :
    ∃ s' last, linkLoop fuel s curr = some (s', last) ∧ last.toNat = curr.toNat + 24 * n ∧
      Seg s'.next (some curr) (nodesFrom curr n) (some last) ∧
      (∀ x ∉ nodesFrom curr n, s'.next x = s.next x) ∧ Relinked s s' := by
  induction n generalizing s curr fuel with
  | zero =>
    obtain ⟨fuel, rfl⟩ : ∃ k, fuel = k + 1 := ⟨fuel - 1, by omega⟩
    have hnext := @toNat_nextNode curr (by omega)
    have hend : ¬ curr + rangeBytes ≤ s.rangePoolEnd := by
      intro hle
      have hle' : (curr + rangeBytes).toNat ≤ s.rangePoolEnd.toNat := hle
      omega
    refine ⟨s, curr, ?_, rfl, rfl, fun x _ => rfl, rfl, rfl⟩
    rw [linkLoop, if_neg hend]
  | succ n ih =>
    obtain ⟨fuel, rfl⟩ : ∃ k, fuel = k + 1 := ⟨fuel - 1, by omega⟩
    have hnext := @toNat_nextNode curr (by omega)
    have hmore : curr + rangeBytes ≤ s.rangePoolEnd := by
      show (curr + rangeBytes).toNat ≤ s.rangePoolEnd.toNat
      omega
    have hoff : curr ∉ nodesFrom (curr + rangeBytes) n := by
      intro hmem
      have hle := le_of_mem_nodesFrom (by omega) hmem
      omega
    obtain ⟨s', last, hloop, hlast, hseg, hkept, hpool, hlock⟩ :=
      @ih (s.setNext curr (some (curr + rangeBytes))) (curr + rangeBytes) fuel
        (by rw [hnext]; show _ ≤ s.rangePoolEnd.toNat; omega)
        (by rw [hnext]; show s.rangePoolEnd.toNat < _; omega) top (by omega)
    have hcurr : s'.next curr = some (curr + rangeBytes) := by
      rw [hkept curr hoff, next_setNext, Function.update_self]
    refine ⟨s', last, ?_, by omega, ⟨rfl, ?_⟩, ?_, hpool, hlock⟩
    · rw [linkLoop, if_pos hmore]
      exact hloop
    · rw [hcurr]
      exact hseg
    · intro x hx
      have hxs := not_or.mp fun hmem => hx (List.mem_cons.mpr hmem)
      rw [hkept x hxs.2, next_setNext, Function.update_of_ne hxs.1]

/-- The last one of the ranges in a row. -/
theorem nodesFrom_succ (room : start.toNat + 24 * n < 2 ^ 64) :
    ∃ tail : BitVec 64, nodesFrom start (n + 1) = nodesFrom start n ++ [tail] ∧
      tail.toNat = start.toNat + 24 * n := by
  induction n generalizing start with
  | zero => exact ⟨start, rfl, rfl⟩
  | succ n ih =>
    have hnext := @toNat_nextNode start (by omega)
    obtain ⟨tail, hnodes, htail⟩ := @ih (start + rangeBytes) (by omega)
    refine ⟨tail, ?_, by omega⟩
    rw [nodesFrom, hnodes]
    rfl

/-- The loop and the write behind it make the region a chain of ranges. -/
theorem linkPool (room : Metadata start size) (n_eq : size.toNat / 24 = n + 1)
    (enough : n + 1 < fuel) :
    ∃ s' last, linkLoop fuel { s with
        vmmLock := false, rangePool := some start, rangePoolEnd := start + size } start =
          some (s', last) ∧
      Chain (s'.setNext (last - rangeBytes) none).next (some start) (nodesFrom start (n + 1)) ∧
      s'.rangePool = some start ∧ s'.vmmLock = false := by
  obtain ⟨hsome, htop⟩ := room
  have hend : (start + size).toNat = start.toNat + size.toNat :=
    BitVec.toNat_add_of_lt (by omega)
  have hroom : start.toNat + 24 * (n + 1) ≤ (start + size).toNat := by omega
  have hfull : (start + size).toNat < start.toNat + 24 * (n + 1 + 1) := by omega
  obtain ⟨s', last, hloop, hlast, hseg, -, hpool, hlock⟩ := @linkLoop_spec { s with
    vmmLock := false, rangePool := some start, rangePoolEnd := start + size } start (n + 1) fuel
      hroom hfull (by rw [hend]; omega) enough
  obtain ⟨tail, hnodes, htail⟩ := @nodesFrom_succ start n (by omega)
  have htail' : last - rangeBytes = tail := by
    apply BitVec.eq_of_toNat_eq
    have hbytes : rangeBytes.toNat = 24 := rfl
    have hle : rangeBytes ≤ last := by
      show rangeBytes.toNat ≤ last.toNat
      omega
    rw [BitVec.toNat_sub_of_le hle]
    omega
  refine ⟨s', last, hloop, ?_, hpool, hlock⟩
  have hnodup := @nodup_nodesFrom start (n + 1) (by omega)
  rw [hnodes] at hseg hnodup ⊢
  obtain ⟨m, hfront, hm, -⟩ := seg_append.mp hseg
  have hoff : tail ∉ nodesFrom start n := fun hmem =>
    (List.nodup_append.mp hnodup).2.2 tail hmem tail List.mem_cons_self rfl
  rw [next_setNext, htail']
  exact seg_append.mpr ⟨m, hfront.update hoff, hm, Function.update_self _ _ _⟩

theorem aligned_alignUp (addr : BitVec 64) : (alignUp addr).toNat % 4096 = 0 := by
  have hmask : (~~~(vmPageSize - 1)).toNat = 2 ^ 64 - 2 ^ 12 := by decide
  rw [alignUp, Masks.toNat_and_high _ _ 12 (by decide) hmask]
  exact Nat.mul_mod_left _ _

theorem aligned_alignDown (addr : BitVec 64) : (alignDown addr).toNat % 4096 = 0 := by
  have hmask : (~~~(vmPageSize - 1)).toNat = 2 ^ 64 - 2 ^ 12 := by decide
  rw [alignDown, Masks.toNat_and_high _ _ 12 (by decide) hmask]
  exact Nat.mul_mod_left _ _

/-- The first range of the pool as the only free range. -/
theorem sound_firstRange {pool : List (BitVec 64)} {lo hi : BitVec 64}
    (chain : Chain s.next (some start) (start :: pool)) (unlocked : s.vmmLock = false)
    (some_pages : lo < hi) (lo_aligned : lo.toNat % 4096 = 0) (hi_aligned : hi.toNat % 4096 = 0)
    (hs' : s' = { initRange { s with freeRanges := some start, rangePool := s.next start } start lo
      (hi - lo) with isInitialized := true }) :
    Sound s' [start] pool lo.toNat hi.toNat ∧
      s'.span start = ⟨lo.toNat, hi.toNat - lo.toNat⟩ := by
  have hlt : lo.toNat < hi.toNat := some_pages
  have hsize : (hi - lo).toNat = hi.toNat - lo.toNat :=
    BitVec.toNat_sub_of_le (Nat.le_of_lt hlt)
  have hspan : s'.span start = ⟨lo.toNat, hi.toNat - lo.toNat⟩ := by
    rw [← hsize, hs']
    exact span_write_self
  have hnext : s'.next = Function.update s.next start none := by
    rw [hs']
    exact next_write _ start _
  have hnodup := List.nodup_cons.mp (chain_nodup chain)
  refine ⟨⟨⟨⟨?_, ?_, ?_⟩, ?_, ?_⟩, ?_, ?_⟩, hspan⟩
  · rw [hnext, hs']
    exact ⟨rfl, Function.update_self _ _ _⟩
  · rw [hnext, hs']
    exact Seg.update chain.2 hnodup.1
  · exact chain_nodup chain
  · rw [List.map_singleton, hspan]
    exact spaced_singleton (Nat.sub_pos_of_lt hlt)
  · intro x hx
    rw [List.map_singleton, hspan] at hx
    rw [List.mem_singleton.mp hx]
    refine ⟨lo_aligned, ?_, Nat.le_refl _, ?_⟩
    · dsimp only
      omega
    · simp only [Span.stop]
      omega
  · rw [hs']
  · rw [hs']
    exact unlocked

/-- After `vmm_init` the whole managed range is free. -/
theorem vmmInit_sound {managedStart managedSize : BitVec 64} (room : Metadata start size)
    (accepted : ∃ enough, ∀ fuel ≥ enough,
      vmmInit fuel s (some start) size managedStart managedSize = some (vmmSuccess, s')) :
    ∃ pool, Sound s' [start] pool (alignUp managedStart).toNat
        (alignDown (managedStart + managedSize)).toNat ∧
      1 + pool.length = size.toNat / 24 ∧
      s'.span start = ⟨(alignUp managedStart).toNat,
        (alignDown (managedStart + managedSize)).toNat - (alignUp managedStart).toNat⟩ := by
  obtain ⟨enough, hcall⟩ := accepted
  obtain ⟨n, hn⟩ : ∃ n, size.toNat / 24 = n + 1 := ⟨size.toNat / 24 - 1, by
    have := room.1
    omega⟩
  obtain ⟨s₁, last, hloop, hchain, hpool, hlock⟩ :=
    @linkPool s start size n (enough + (n + 2)) room hn (by omega)
  have h := hcall (enough + (n + 2)) (by omega)
  have herror : ∀ t, (some (vmmErrorInvalidParams, t) : Option (Int × State)) ≠
      some (vmmSuccess, s') := by
    intro t hsame
    have hcode : vmmErrorInvalidParams = vmmSuccess :=
      congrArg Prod.fst (Option.some.inj hsame)
    exact absurd hcode (by decide)
  rw [vmmInit] at h
  dsimp only at h
  by_cases hparams : size = 0 ∨ managedSize = 0
  · rw [if_pos hparams] at h
    exact absurd h (herror s)
  · rw [if_neg hparams] at h
    by_cases hempty : alignDown (managedStart + managedSize) ≤ alignUp managedStart
    · rw [if_pos hempty] at h
      exact absurd h (herror s)
    · rw [if_neg hempty, hloop, Option.map_some, allocRange] at h
      have hfirst : (s₁.setNext (last - rangeBytes) none).rangePool = some start := hpool
      rw [hfirst] at h
      dsimp only at h
      have hresult := congrArg Prod.snd (Option.some.inj h)
      obtain ⟨hsound, hspan⟩ := sound_firstRange hchain hlock (BitVec.not_le.mp hempty)
        (aligned_alignUp managedStart) (aligned_alignDown _) hresult.symm
      refine ⟨_, hsound, ?_, hspan⟩
      rw [length_nodesFrom, hn, Nat.add_comm]

end Start

/-! ## The pages between the calls -/

/-- What holds between the calls. -/
structure Accounts (h : History) (list pool : List (BitVec 64)) : Prop where
  sound : Sound h.state list pool h.managedStart.toNat h.managedEnd.toNat
  nodes : list.length + pool.length = h.nodes
  whole : h.managedEnd.toNat % 4096 = 0
  managed : ∀ p, h.allocated p → Managed h p
  disjoint : ∀ p, Free h list p → ¬ h.allocated p
  covered : h.managedStart ≠ 0 → ∀ p, Managed h p → Free h list p ∨ h.allocated p

section Steps

variable {h h' : History} {list pool : List (BitVec 64)} {address numPages r : BitVec 64} {p : Nat}

theorem Accounts.started (start : Started h) : ∃ list pool, Accounts h list pool := by
  obtain ⟨s, metadataStart, metadataSize, managedStart, managedSize, hroom, haccepted, hstart,
    hend, hnodes, hallocated⟩ := start
  obtain ⟨pool, hsound, hcount, hspan⟩ := vmmInit_sound hroom haccepted
  refine ⟨[metadataStart], pool, ?_, ?_, ?_, ?_, ?_, ?_⟩
  · rw [hstart, hend]
    exact hsound
  · rw [hnodes]
    exact hcount
  · rw [hend]
    exact aligned_alignDown _
  · intro p hp
    rw [hallocated] at hp
    exact hp.elim
  · intro p _ hp
    rw [hallocated] at hp
    exact hp
  · intro _ p hp
    refine Or.inl ⟨_, List.mem_singleton.mpr rfl, ?_⟩
    obtain ⟨hlower, hupper⟩ := hp
    rw [hstart] at hlower
    rw [hend] at hupper
    rw [hspan]
    simp only [Span.Has, Span.stop]
    omega

theorem Accounts.free_managed (a : Accounts h list pool) (free : Free h list p) : Managed h p := by
  obtain ⟨x, hx, hstart, hstop⟩ := free
  obtain ⟨-, -, hlower, hupper⟩ := a.sound.kept.pages x hx
  constructor
  · omega
  · omega

/-- The pages of a block that is handed out leave the free ones. -/
theorem Accounts.taken {s' : State} {list' pool' : List (BitVec 64)} (a : Accounts h list pool)
    (hr : r ∈ list)
    (fit : BestFit (list.map h.state.span) (4096 * numPages.toNat) (h.state.span r))
    (taken : Taken h.state list pool h.managedStart.toNat h.managedEnd.toNat
      (h.state.start r).toNat (4096 * numPages.toNat) s' list' pool') :
    Accounts { h with
      state := s'
      allocated := fun p => h.allocated p ∨
        (h.state.start r ≠ 0 ∧ InRun (h.state.start r) numPages p) } list' pool' := by
  have hinside : ∀ p, InRun (h.state.start r) numPages p → Free h list p := by
    rintro p ⟨hstart, hstop⟩
    refine ⟨h.state.span r, List.mem_map_of_mem hr, hstart, Nat.lt_of_lt_of_le hstop ?_⟩
    exact Nat.add_le_add_left fit.fits _
  refine ⟨taken.sound, taken.count.trans a.nodes, a.whole, ?_, ?_, ?_⟩
  · rintro p (hp | ⟨-, hp⟩)
    · exact a.managed p hp
    · exact a.free_managed (hinside p hp)
  · intro p hfree hp
    obtain ⟨hbefore, hout⟩ := (taken.covers _).mp hfree
    rcases hp with hp | ⟨-, hp⟩
    · exact a.disjoint p hbefore hp
    · exact hout hp
  · intro hstart p hp
    have hnonnull : h.state.start r ≠ 0 := by
      intro hzero
      have hlower := (a.sound.kept.pages _ (List.mem_map_of_mem hr)).lower
      have hzero' : (h.state.start r).toNat = 0 := congrArg BitVec.toNat hzero
      refine hstart (BitVec.eq_of_toNat_eq ?_)
      exact Nat.le_zero.mp (Nat.le_trans hlower (Nat.le_of_eq hzero'))
    rcases a.covered hstart p hp with hfree | hallocated
    · by_cases hrun : InRun (h.state.start r) numPages p
      · exact Or.inr (Or.inr ⟨hnonnull, hrun⟩)
      · exact Or.inl ((taken.covers _).mpr ⟨hfree, hrun⟩)
    · exact Or.inr (Or.inl hallocated)

/-- The answers of `vmm_alloc_block`, and the state after it. -/
theorem Accounts.alloc (a : Accounts h list pool) (small : numPages.toNat < 2 ^ 52) :
    ∃ address s', (∀ fuel > list.length,
        vmmAllocBlock fuel h.state numPages = some (address, s')) ∧
      Answer h list numPages address ∧
      ∃ list' pool', Accounts { h with
        state := s'
        allocated := fun p => h.allocated p ∨ (address ≠ 0 ∧ InRun address numPages p) }
          list' pool' := by
  have hsame : Accounts { h with
      state := h.state
      allocated := fun p => h.allocated p ∨ ((0 : BitVec 64) ≠ 0 ∧ InRun 0 numPages p) }
        list pool := by
    have hallocated : (fun p => h.allocated p ∨ ((0 : BitVec 64) ≠ 0 ∧ InRun 0 numPages p)) =
        h.allocated := by
      funext p
      exact propext ⟨fun hp => hp.resolve_right fun hzero => hzero.1 rfl, Or.inl⟩
    rw [hallocated]
    exact a
  by_cases hzero : numPages = 0
  · refine ⟨0, h.state, ?_, ⟨fun _ => rfl, ?_, ?_⟩, list, pool, hsame⟩
    · intro fuel _
      rw [vmmAllocBlock, if_pos (Or.inr hzero)]
    · exact fun hsome => absurd hzero hsome
    · exact fun hsome => absurd hzero hsome
  · rcases a.sound.alloc h.managedEnd.isLt hzero small with ⟨hcall, hsmall⟩ |
      ⟨r, hr, s', list', pool', hcall, hfit, htaken⟩
    · have hnone : ∀ r ∈ list, (h.state.size r).toNat < 4096 * numPages.toNat :=
        fun r hr => hsmall _ (List.mem_map_of_mem hr)
      refine ⟨0, h.state, hcall, ⟨fun _ => rfl, ?_, ?_⟩, list, pool, hsame⟩
      · exact fun _ => Or.inr ⟨hnone, rfl⟩
      · exact fun _ _ _ => hnone
    · refine ⟨h.state.start r, s', hcall, ⟨?_, ?_, ?_⟩, list', pool', a.taken hr hfit htaken⟩
      · exact fun hno => absurd hno hzero
      · exact fun _ => Or.inl ⟨r, hr, hfit, rfl⟩
      · intro _ hstart hnull
        have hlower := (a.sound.kept.pages _ (List.mem_map_of_mem hr)).lower
        have hnull' : (h.state.start r).toNat = 0 := congrArg BitVec.toNat hnull
        refine absurd (BitVec.eq_of_toNat_eq ?_) hstart
        exact Nat.le_zero.mp (Nat.le_trans hlower (Nat.le_of_eq hnull'))

/-- Pages that were handed out are a run of pages inside the managed range. -/
theorem Accounts.pageRun (a : Accounts h list pool) (some_pages : numPages ≠ 0)
    (aligned : address.toNat % 4096 = 0)
    (owned : ∀ p, InRun address numPages p → h.allocated p) :
    PageRun h.managedStart.toNat h.managedEnd.toNat ⟨address.toNat, 4096 * numPages.toNat⟩ := by
  have hpositive : 0 < numPages.toNat :=
    Nat.pos_of_ne_zero fun hzero => some_pages (BitVec.eq_of_toNat_eq hzero)
  have hwhole := a.whole
  have hfirst : InRun address numPages (address.toNat / 4096) := by
    simp only [InRun, Span.Has, Span.stop]
    omega
  have hlast : InRun address numPages (address.toNat / 4096 + (numPages.toNat - 1)) := by
    simp only [InRun, Span.Has, Span.stop]
    omega
  have hlower := (a.managed _ (owned _ hfirst)).1
  have hupper := (a.managed _ (owned _ hlast)).2
  refine ⟨aligned, Nat.mul_mod_right _ _, ?_, ?_⟩
  · dsimp only
    omega
  · simp only [Span.stop]
    omega

/-- Pages that were handed out are in no free range. -/
theorem Accounts.unshared (a : Accounts h list pool) (some_pages : numPages ≠ 0)
    (aligned : address.toNat % 4096 = 0)
    (owned : ∀ p, InRun address numPages p → h.allocated p) :
    ∀ x ∈ list.map h.state.span,
      ¬ (x.start < address.toNat + 4096 * numPages.toNat ∧ address.toNat < x.stop) := by
  rintro x hx ⟨hbelow, habove⟩
  obtain ⟨haligned, -, -, -⟩ := a.sound.kept.pages x hx
  have hsize := a.sound.kept.spaced.nonempty x hx
  have hstop : x.stop = x.start + x.size := rfl
  have hpositive : 0 < numPages.toNat :=
    Nat.pos_of_ne_zero fun hzero => some_pages (BitVec.eq_of_toNat_eq hzero)
  -- the first page of the two that starts later is in both
  by_cases horder : x.start ≤ address.toNat
  · refine a.disjoint (address.toNat / 4096) ⟨x, hx, ?_, ?_⟩ (owned _ ?_)
    · omega
    · omega
    · simp only [InRun, Span.Has, Span.stop]
      omega
  · refine a.disjoint (x.start / 4096) ⟨x, hx, ?_, ?_⟩ (owned _ ?_)
    · omega
    · omega
    · simp only [InRun, Span.Has, Span.stop]
      omega

/-- A call that `vmm_free_block` rejects changes nothing. -/
theorem vmmFreeBlock_rejected (s : State) (ready : s.isInitialized = true)
    (bad : numPages = 0 ∨ address &&& (vmPageSize - 1) ≠ 0) (fuel : Nat) :
    vmmFreeBlock fuel s address numPages = some (vmmErrorInvalidParams, s) := by
  have hinit : ¬ s.isInitialized = false := by
    rw [ready]
    exact Bool.false_ne_true.symm
  rw [vmmFreeBlock, if_neg hinit, if_pos bad]

theorem Accounts.free (a : Accounts h list pool) (permitted : Permitted h (.free address numPages)) :
    ∃ h', (∀ fuel > list.length, exec fuel h (.free address numPages) = some h') ∧
      ∃ list' pool', Accounts h' list' pool' := by
  obtain ⟨hsmall, howned⟩ := permitted
  by_cases hbad : numPages = 0 ∨ address &&& (vmPageSize - 1) ≠ 0
  · refine ⟨{ h with
      allocated := fun p => h.allocated p ∧
        ¬ (vmmErrorInvalidParams = vmmSuccess ∧ InRun address numPages p) }, ?_, list, pool, ?_⟩
    · intro fuel _
      rw [exec, vmmFreeBlock_rejected h.state a.sound.ready hbad, Option.map_some]
    · have hallocated : (fun p => h.allocated p ∧
          ¬ (vmmErrorInvalidParams = vmmSuccess ∧ InRun address numPages p)) = h.allocated := by
        funext p
        refine propext ⟨fun hp => hp.1, fun hp => ⟨hp, fun hsuccess => ?_⟩⟩
        exact absurd hsuccess.1 (by decide)
      rw [hallocated]
      exact a
  · have hzero : numPages ≠ 0 := fun hzero => hbad (Or.inl hzero)
    have hlow : address &&& (vmPageSize - 1) = 0 :=
      Classical.byContradiction fun hlow => hbad (Or.inr hlow)
    have hmask : (vmPageSize - 1).toNat = 2 ^ 12 - 1 := rfl
    have haligned : address.toNat % 4096 = 0 := (Masks.and_low_eq_zero_iff hmask).mp hlow
    obtain ⟨hpool, hrun⟩ := howned hzero hlow
    obtain ⟨m, pool, rfl⟩ : ∃ m rest, pool = m :: rest := by
      cases pool with
      | nil => exact absurd a.sound.kept.layout.unused hpool
      | cons m rest => exact ⟨m, rest, rfl⟩
    obtain ⟨s', list', pool', hcall, hgiven⟩ := a.sound.free h.managedEnd.isLt hzero hsmall
      (a.pageRun hzero haligned hrun) (a.unshared hzero haligned hrun)
    refine ⟨{ h with
      state := s'
      allocated := fun p => h.allocated p ∧ ¬ (vmmSuccess = vmmSuccess ∧ InRun address numPages p) },
      ?_, list', pool', ⟨hgiven.sound, hgiven.count.trans a.nodes, a.whole, ?_, ?_, ?_⟩⟩
    · intro fuel enough
      rw [exec, hcall fuel enough, Option.map_some]
    · exact fun p hp => a.managed p hp.1
    · rintro p hfree ⟨hp, hout⟩
      rcases (hgiven.covers _).mp hfree with hin | hbefore
      · exact hout ⟨rfl, hin⟩
      · exact a.disjoint p hbefore hp
    · intro hstart p hp
      by_cases hin : InRun address numPages p
      · exact Or.inl ((hgiven.covers _).mpr (Or.inl hin))
      · rcases a.covered hstart p hp with hfree | hallocated
        · exact Or.inl ((hgiven.covers _).mpr (Or.inr hfree))
        · exact Or.inr ⟨hallocated, fun hsuccess => hin hsuccess.2⟩

/-- Every permitted call returns and keeps the accounts. -/
theorem Accounts.call (a : Accounts h list pool) {call : Call} (permitted : Permitted h call) :
    ∃ h', Returns h call h' ∧ ∃ list' pool', Accounts h' list' pool' := by
  cases call with
  | alloc numPages =>
    obtain ⟨address, s', hcall, -, list', pool', hafter⟩ := a.alloc permitted
    refine ⟨_, ⟨list.length + 1, ?_⟩, list', pool', hafter⟩
    intro fuel enough
    rw [exec, hcall fuel enough, Option.map_some]
  | free address numPages =>
    obtain ⟨h', hcall, hafter⟩ := a.free permitted
    exact ⟨h', ⟨list.length + 1, hcall⟩, hafter⟩

theorem Returns.unique {call : Call} {h₁ h₂ : History} (first : Returns h call h₁)
    (second : Returns h call h₂) : h₁ = h₂ := by
  obtain ⟨enough, hfirst⟩ := first
  obtain ⟨enough', hsecond⟩ := second
  have hsame := (hfirst (max enough enough') (le_max_left _ _)).symm.trans
    (hsecond (max enough enough') (le_max_right _ _))
  exact Option.some.inj hsame

theorem reachable_accounts (run : Reachable allocator h) : ∃ list pool, Accounts h list pool := by
  refine run.invariant (fun h => ∃ list pool, Accounts h list pool) (fun _ => Accounts.started) ?_
  rintro h call h' ⟨list, pool, a⟩ ⟨hpermitted, hreturns⟩
  obtain ⟨h'', hreturns', hafter⟩ := a.call hpermitted
  rw [hreturns.unique hreturns']
  exact hafter

theorem Accounts.proper (a : Accounts h list pool) : Proper h list pool := by
  have hapart := List.pairwise_map.mp a.sound.kept.spaced.apart
  refine ⟨a.sound.kept.layout.free, a.sound.kept.layout.unused, a.nodes, ?_, hapart, ?_, ?_,
    a.disjoint, a.covered, ?_, ?_⟩
  · refine hapart.imp ?_
    intro x y hxy
    exact Nat.lt_of_le_of_lt (Nat.le_add_right _ _) hxy
  · intro r hr
    have hr' : h.state.span r ∈ list.map h.state.span := List.mem_map_of_mem hr
    obtain ⟨haligned, hwhole, -, -⟩ := a.sound.kept.pages _ hr'
    have hsize : 0 < (h.state.size r).toNat := a.sound.kept.spaced.nonempty _ hr'
    refine ⟨haligned, hwhole, fun hzero => ?_⟩
    rw [hzero] at hsize
    exact absurd hsize (Nat.lt_irrefl 0)
  · rintro p (hp | hp)
    · exact a.free_managed hp
    · exact a.managed p hp
  · intro numPages small
    obtain ⟨address, s', hcall, hanswer, -⟩ := a.alloc small
    exact ⟨list.length + 1, fun fuel enough => ⟨address, s', hcall fuel enough, hanswer⟩⟩
  · intro call hpermitted
    obtain ⟨h', hreturns, -⟩ := a.call hpermitted
    exact ⟨h', hreturns⟩

end Steps

/-- In every run the free list is in order and coalesced, the free and the allocated pages are the
managed range, no range is lost, and an allocation answers with the best fit. -/
theorem free_list_in_order {h : History} (run : Reachable allocator h) :
    ∃ list pool, Proper h list pool := by
  obtain ⟨list, pool, a⟩ := reachable_accounts run
  exact ⟨list, pool, a.proper⟩

def blank : State := ⟨fun _ => ⟨0, 0, none⟩, none, none, 0, false, false⟩

/-- Three ranges at 0x1000 for the memory from `managedStart` on. -/
def fresh (managedStart managedSize : BitVec 64) : State :=
  ((vmmInit 5 blank (some 0x1000) 72 managedStart managedSize).map Prod.snd).getD blank

/-- The first of four pages at 4 GiB was handed out. -/
def onePage : History where
  state := ((vmmAllocBlock 2 (fresh 0x100000000 0x4000) 1).map Prod.snd).getD blank
  allocated := fun p => False ∨ ((0x100000000 : BitVec 64) ≠ 0 ∧ InRun 0x100000000 1 p)
  managedStart := 0x100000000
  managedEnd := 0x100004000
  nodes := 3

theorem fresh_started : Started ⟨fresh 0x100000000 0x4000, fun _ => False, 0x100000000, 0x100004000,
    3⟩ := by
  refine ⟨blank, 0x1000, 72, 0x100000000, 0x4000, by unfold Metadata; decide, ⟨4, ?_⟩, rfl, rfl,
    rfl, rfl⟩
  intro fuel enough
  obtain ⟨k, rfl⟩ := Nat.exists_eq_add_of_le' enough
  rfl

theorem free_list_in_order_one_page : ∃ list pool, Proper onePage list pool := by
  have hsmall : (1 : BitVec 64).toNat < 2 ^ 52 := by decide
  refine free_list_in_order (.next (.start fresh_started) (a := .alloc 1) ⟨hsmall, 2, ?_⟩)
  intro fuel enough
  obtain ⟨k, rfl⟩ := Nat.exists_eq_add_of_le' enough
  rfl

/-- For no pages the answer is 0 although a range is large enough, and so it is for a block at the
start of a managed range from 0 on. -/
theorem alloc_answers_zero_where_ranges_fit :
    (vmmInit 5 blank (some 0x1000) 72 0x100000000 0x4000 =
        some (vmmSuccess, fresh 0x100000000 0x4000) ∧
      (fresh 0x100000000 0x4000).freeRanges = some 0x1000 ∧
      (fresh 0x100000000 0x4000).range 0x1000 = ⟨0x100000000, 0x4000, none⟩ ∧
      0 * vmPageSize ≤ (0x4000 : BitVec 64) ∧
      (vmmAllocBlock 2 (fresh 0x100000000 0x4000) 0).map Prod.fst = some 0) ∧
    vmmInit 5 blank (some 0x1000) 72 0 0x4000 = some (vmmSuccess, fresh 0 0x4000) ∧
      (fresh 0 0x4000).freeRanges = some 0x1000 ∧
      (fresh 0 0x4000).range 0x1000 = ⟨0, 0x4000, none⟩ ∧
      1 * vmPageSize ≤ (0x4000 : BitVec 64) ∧
      (vmmAllocBlock 2 (fresh 0 0x4000) 1).map Prod.fst = some 0 ∧
      ((vmmAllocBlock 2 (fresh 0 0x4000) 1).map fun (_, s) => s.start 0x1000) = some 0x1000 := by
  refine ⟨⟨rfl, rfl, rfl, by decide, rfl⟩, rfl, rfl, rfl, by decide, rfl, rfl⟩

end VmallocRuns
