import AnosKernel.VmallocRuns

/-!
# Blocks of any size

`vmm_alloc_block` of `kernel/vmm/vmalloc_linkedlist.c` for page counts whose bytes do not fit 64
bits. The free ranges are any that share no byte: in order or not, touching or not.
-/

namespace VmallocBlocks

open Chains Spans Vmalloc

/-- Free ranges of whole pages that end inside the address space and share no byte. -/
structure FreeList (s : State) (list pool : List (BitVec 64)) : Prop where
  layout : Layout s list pool
  whole : ∀ r ∈ list, (s.span r).size % 4096 = 0
  inside : ∀ r ∈ list, (s.span r).stop ≤ 2 ^ 64
  apart : list.Pairwise fun x y => ∀ n, (s.span x).Has n → ¬ (s.span y).Has n

/-- An address that is not 0 is the start of a block that was free and is free nowhere now. -/
def GivesBlock (s : State) (list : List (BitVec 64)) (s' : State) (list' : List (BitVec 64))
    (address numPages : BitVec 64) : Prop :=
  address ≠ 0 → ∀ n, Span.Has ⟨address.toNat, 4096 * numPages.toNat⟩ n →
    Covers (list.map s.span) n ∧ ¬ Covers (list'.map s'.span) n

/-- The range that the search settles on: the first of the smallest that are large enough. -/
structure Settles (s : State) (list : List (BitVec 64)) (size : BitVec 64)
    (front : List (BitVec 64)) (fit : BitVec 64) (back : List (BitVec 64)) : Prop where
  split : list = front ++ fit :: back
  fits : size ≤ s.size fit
  below : ∀ x ∈ front, size ≤ s.size x → s.size fit < s.size x
  above : ∀ x ∈ back, size ≤ s.size x → s.size fit ≤ s.size x

/-- The bytes fit 64 bits, or the search settles on no range but one that starts at 0. -/
def Sized (s : State) (list : List (BitVec 64)) (numPages : BitVec 64) : Prop :=
  s.isInitialized = false ∨ numPages.toNat < 2 ^ 52 ∨
    ∀ front fit back, Settles s list (numPages * vmPageSize) front fit back → s.start fit = 0

section Lists

variable {s : State} {list pool front back : List (BitVec 64)} {lo hi : Nat}
  {size fit numPages address : BitVec 64}

/-- What the calls keep is a free list of this kind. -/
theorem FreeList.of_sound (h : Sound s list pool lo hi) (top : hi ≤ 2 ^ 64) :
    FreeList s list pool := by
  refine ⟨h.kept.layout, ?_, ?_, ?_⟩
  · intro r hr
    exact (h.kept.pages _ (List.mem_map_of_mem hr)).whole
  · intro r hr
    exact Nat.le_trans (h.kept.pages _ (List.mem_map_of_mem hr)).upper top
  · refine (List.pairwise_map.mp h.kept.spaced.apart).imp ?_
    intro x y hgap n hx hy
    have hbefore : n < (s.span y).start := Nat.lt_trans hx.2 hgap
    exact absurd hy.1 (Nat.not_le.mpr hbefore)

theorem FreeList.finite (h : FreeList s list pool) {x : BitVec 64} (hx : x ∈ list) :
    s.size x < -1 := by
  have hwhole : (s.size x).toNat % 4096 = 0 := h.whole x hx
  have htop : (-1 : BitVec 64).toNat = 2 ^ 64 - 1 := rfl
  show (s.size x).toNat < (-1 : BitVec 64).toNat
  omega

theorem FreeList.setLock (h : FreeList s list pool) (locked : Bool) :
    FreeList { s with vmmLock := locked } list pool :=
  ⟨h.layout.congr rfl rfl rfl, h.whole, h.inside, h.apart⟩

/-- A byte of a range is in no other range. -/
theorem FreeList.alone (h : FreeList s (front ++ fit :: back) pool) {n : Nat}
    (hn : (s.span fit).Has n) : ¬ Covers ((front ++ back).map s.span) n := by
  obtain ⟨hfront, hback, hcross⟩ := List.pairwise_append.mp h.apart
  rintro ⟨x, hx, hxn⟩
  obtain ⟨r, hr, rfl⟩ := List.mem_map.mp hx
  rcases List.mem_append.mp hr with hf | hb
  · exact hcross r hf fit List.mem_cons_self n hxn hn
  · exact (List.pairwise_cons.mp hback).1 r hb n hn hxn

theorem FreeList.covers_inside (h : FreeList s list pool) {n : Nat}
    (hn : Covers (list.map s.span) n) : n < 2 ^ 64 := by
  obtain ⟨x, hx, hxn⟩ := hn
  obtain ⟨r, hr, rfl⟩ := List.mem_map.mp hx
  exact Nat.lt_of_lt_of_le hxn.2 (h.inside r hr)

/-- Only one range can be settled on. -/
theorem Settles.unique {front' back' : List (BitVec 64)} {fit' : BitVec 64}
    (h : Settles s list size front fit back) (h' : Settles s list size front' fit' back') :
    fit = fit' := by
  have hsplit := h.split.symm.trans h'.split
  rcases List.append_eq_append_iff.mp hsplit with
    ⟨between, hfront, hrest⟩ | ⟨between, hfront, hrest⟩
  · cases between with
    | nil =>
      rw [List.nil_append] at hrest
      exact (List.cons.inj hrest).1
    | cons x between =>
      rw [List.cons_append] at hrest
      obtain ⟨rfl, hback⟩ := List.cons.inj hrest
      have hlater : fit' ∈ back := by rw [hback]; simp
      have hsooner : fit ∈ front' := by rw [hfront]; simp
      have hlt : s.size fit' < s.size fit := h'.below fit hsooner h.fits
      exact absurd (h.above fit' hlater h'.fits) (BitVec.not_le.mpr hlt)
  · cases between with
    | nil =>
      rw [List.nil_append] at hrest
      exact (List.cons.inj hrest).1.symm
    | cons x between =>
      rw [List.cons_append] at hrest
      obtain ⟨rfl, hback⟩ := List.cons.inj hrest
      have hlater : fit ∈ back' := by rw [hback]; simp
      have hsooner : fit' ∈ front := by rw [hfront]; simp
      have hlt : s.size fit < s.size fit' := h.below fit' hsooner h'.fits
      exact absurd (h'.above fit hlater h.fits) (BitVec.not_le.mpr hlt)

/-! ## Taking the start of a range -/

theorem toNat_rest (inside : (s.span fit).stop ≤ 2 ^ 64) (fits : size ≤ s.size fit)
    (larger : s.size fit ≠ size) :
    (s.start fit + size).toNat = (s.start fit).toNat + size.toNat ∧
      (s.size fit - size).toNat = (s.size fit).toNat - size.toNat := by
  have hstop : (s.start fit).toNat + (s.size fit).toNat ≤ 2 ^ 64 := inside
  have hlt : size.toNat < (s.size fit).toNat :=
    Nat.lt_of_le_of_ne fits fun heq => larger (BitVec.eq_of_toNat_eq heq.symm)
  exact ⟨BitVec.toNat_add_of_lt (by omega), BitVec.toNat_sub_of_le fits⟩

theorem block_within (fits : size ≤ s.size fit) {n : Nat}
    (hn : Span.Has ⟨(s.start fit).toNat, size.toNat⟩ n) : (s.span fit).Has n := by
  have hle : size.toNat ≤ (s.size fit).toNat := fits
  obtain ⟨hlower, hupper⟩ := hn
  simp only [Span.stop] at hlower hupper
  exact ⟨hlower, Nat.lt_of_lt_of_le hupper (Nat.add_le_add_left hle _)⟩

/-- A range that is taken as a whole leaves the others as they are. -/
theorem FreeList.take_exact (h : FreeList s (front ++ fit :: back) pool)
    (exact : s.size fit = size) :
    FreeList (takeFit s size fit front.getLast?) (front ++ back) (fit :: pool) ∧
      ∀ n, (s.span fit).Has n →
        ¬ Covers ((front ++ back).map (takeFit s size fit front.getLast?).span) n := by
  obtain ⟨hlayout, hspan⟩ := takeFit_exact h.layout exact
  have hsub : (front ++ back).Sublist (front ++ fit :: back) :=
    (List.sublist_cons_self fit back).append_left front
  refine ⟨⟨hlayout, ?_, ?_, ?_⟩, ?_⟩
  · rw [hspan]
    exact fun r hr => h.whole r (hsub.subset hr)
  · rw [hspan]
    exact fun r hr => h.inside r (hsub.subset hr)
  · rw [hspan]
    exact h.apart.sublist hsub
  · rw [hspan]
    exact fun n hn => h.alone hn

/-- The range that is cut keeps its end, and the others are as they were. -/
theorem takeFit_spans {prev : Option (BitVec 64)} (inside : (s.span fit).stop ≤ 2 ^ 64)
    (fits : size ≤ s.size fit) (larger : s.size fit ≠ size) :
    (takeFit s size fit prev).span fit =
        ⟨(s.start fit).toNat + size.toNat, (s.size fit).toNat - size.toNat⟩ ∧
      ∀ x, x ≠ fit → (takeFit s size fit prev).span x = s.span x := by
  obtain ⟨hstart, hsize⟩ := toNat_rest inside fits larger
  have hcut : takeFit s size fit prev = s.write fit { s.range fit with
      start := s.start fit + size, size := s.size fit - size } := by
    rw [takeFit.eq_def, if_neg larger]
  rw [hcut]
  refine ⟨?_, fun x hx => span_write_of_ne hx⟩
  rw [span_write_self, ← hstart, ← hsize]

/-- A range of which the start is taken leaves the others as they are. -/
theorem FreeList.take_cut (h : FreeList s (front ++ fit :: back) pool) (fits : size ≤ s.size fit)
    (page : size.toNat % 4096 = 0) (larger : s.size fit ≠ size) :
    FreeList (takeFit s size fit front.getLast?) (front ++ fit :: back) pool ∧
      ∀ n, Span.Has ⟨(s.start fit).toNat, size.toNat⟩ n →
        ¬ Covers ((front ++ fit :: back).map (takeFit s size fit front.getLast?).span) n := by
  have hfit : fit ∈ front ++ fit :: back := by simp
  have hinside : (s.start fit).toNat + (s.size fit).toNat ≤ 2 ^ 64 := h.inside fit hfit
  have hle : size.toNat ≤ (s.size fit).toNat := fits
  obtain ⟨hself, hother⟩ := @takeFit_spans s size fit front.getLast? (h.inside fit hfit) fits larger
  have hwithin : ∀ x n, ((takeFit s size fit front.getLast?).span x).Has n → (s.span x).Has n := by
    intro x n hn
    by_cases hx : x = fit
    · subst hx
      rw [hself] at hn
      obtain ⟨hlower, hupper⟩ := hn
      simp only [Span.stop] at hlower hupper
      refine ⟨Nat.le_trans (Nat.le_add_right _ _) hlower, ?_⟩
      have hstop : (s.span x).stop = (s.start x).toNat + (s.size x).toNat := rfl
      omega
    · rwa [hother x hx] at hn
  refine ⟨⟨takeFit_cut h.layout larger, ?_, ?_, ?_⟩, ?_⟩
  · intro r hr
    by_cases hrf : r = fit
    · have hwhole : (s.size fit).toNat % 4096 = 0 := h.whole fit hfit
      rw [hrf, hself]
      dsimp only
      omega
    · rw [hother r hrf]
      exact h.whole r hr
  · intro r hr
    by_cases hrf : r = fit
    · rw [hrf, hself]
      simp only [Span.stop]
      omega
    · rw [hother r hrf]
      exact h.inside r hr
  · refine h.apart.imp ?_
    intro x y hxy n hx hy
    exact hxy n (hwithin x n hx) (hwithin y n hy)
  · rintro n hn ⟨x, hx, hxn⟩
    obtain ⟨r, hr, rfl⟩ := List.mem_map.mp hx
    by_cases hrf : r = fit
    · rw [hrf, hself] at hxn
      exact absurd hn.2 (Nat.not_lt.mpr hxn.1)
    · refine h.alone (block_within fits hn) ⟨s.span r, List.mem_map_of_mem ?_, hwithin r n hxn⟩
      rcases List.mem_append.mp hr with hf | hb
      · exact List.mem_append_left _ hf
      · exact List.mem_append_right _ ((List.mem_cons.mp hb).resolve_left hrf)

/-- What is left of the other ranges is in them, and so is what is left of the one that was cut. -/
theorem FreeList.take (h : FreeList s (front ++ fit :: back) pool) (fits : size ≤ s.size fit)
    (page : size.toNat % 4096 = 0) :
    ∃ list' pool', FreeList (takeFit s size fit front.getLast?) list' pool' ∧
      ∀ n, Span.Has ⟨(s.start fit).toNat, size.toNat⟩ n →
        ¬ Covers (list'.map (takeFit s size fit front.getLast?).span) n := by
  by_cases hexact : s.size fit = size
  · obtain ⟨hkept, hgone⟩ := h.take_exact hexact
    exact ⟨_, _, hkept, fun n hn => hgone n (block_within fits hn)⟩
  · obtain ⟨hkept, hgone⟩ := h.take_cut fits page hexact
    exact ⟨_, _, hkept, hgone⟩

/-! ## What the call answers -/

/-- The call answers 0 and leaves everything, or takes the start of the range that it settles on. -/
theorem FreeList.alloc (h : FreeList s list pool) (unlocked : s.vmmLock = false)
    (ready : s.isInitialized = true) (some_pages : numPages ≠ 0) :
    ((∀ fuel > list.length, vmmAllocBlock fuel s numPages = some (0, s)) ∧
      ∀ x ∈ list, s.size x < numPages * vmPageSize) ∨
    ∃ front fit back, Settles s list (numPages * vmPageSize) front fit back ∧
      ∀ fuel > list.length, vmmAllocBlock fuel s numPages = some (s.start fit,
        spinlockUnlock (takeFit { s with vmmLock := true } (numPages * vmPageSize) fit
          front.getLast?)) := by
  rcases vmmAllocBlock_outcome h.layout.free (fun x hx => h.finite hx) unlocked ready some_pages with
    hrefused | ⟨front, fit, back, split, fits, below, above, hcall⟩
  · exact Or.inl hrefused
  · exact Or.inr ⟨front, fit, back, ⟨split, fits, below, above⟩, hcall⟩

/-- A block whose bytes do not fit 64 bits is free nowhere. -/
theorem FreeList.too_long (h : FreeList s list pool) (long : 2 ^ 52 ≤ numPages.toNat)
    {s' : State} {list' : List (BitVec 64)} :
    GivesBlock s list s' list' address numPages ↔ address = 0 := by
  constructor
  · intro hgives
    by_contra hanswer
    have hpos : address.toNat ≠ 0 := fun hzero => hanswer (BitVec.eq_of_toNat_eq hzero)
    have hlast : Span.Has ⟨address.toNat, 4096 * numPages.toNat⟩
        (address.toNat + 4096 * numPages.toNat - 1) := by
      simp only [Span.Has, Span.stop]
      omega
    have hlt := h.covers_inside (hgives hanswer _ hlast).1
    omega
  · exact fun hzero hne => absurd hzero hne

end Lists

/-- For every free list and every count the call returns, and it gives what it promises exactly
when the bytes fit 64 bits or it answers 0 by chance. -/
theorem gives_block_iff {s : State} {list pool : List (BitVec 64)} (h : FreeList s list pool)
    (unlocked : s.vmmLock = false) (numPages : BitVec 64) : ∃ address s' list' pool',
      (∀ fuel > list.length, vmmAllocBlock fuel s numPages = some (address, s')) ∧
      FreeList s' list' pool' ∧
      (GivesBlock s list s' list' address numPages ↔ Sized s list numPages) := by
  by_cases hguard : s.isInitialized = false ∨ numPages = 0
  · refine ⟨0, s, list, pool, fun fuel _ => by rw [vmmAllocBlock, if_pos hguard], h, ?_⟩
    refine iff_of_true (fun hne => absurd rfl hne) ?_
    rcases hguard with hno | hzero
    · exact Or.inl hno
    · refine Or.inr (Or.inl ?_)
      rw [hzero]
      decide
  · obtain ⟨hinitialized, hpages⟩ := not_or.mp hguard
    have hready : s.isInitialized = true := Bool.not_eq_false _ ▸ hinitialized
    rcases h.alloc unlocked hready hpages with ⟨hcall, hsmall⟩ | ⟨front, fit, back, hsettles, hcall⟩
    · refine ⟨0, s, list, pool, hcall, h, iff_of_true (fun hne => absurd rfl hne) ?_⟩
      refine Or.inr (Or.inr fun front fit back hsettles => ?_)
      have hfit : fit ∈ list := by rw [hsettles.split]; simp
      exact absurd hsettles.fits (BitVec.not_le.mpr (hsmall fit hfit))
    · have hwhole : (numPages * vmPageSize).toNat % 4096 = 0 := by
        have hpage : vmPageSize.toNat = 4096 := rfl
        rw [BitVec.toNat_mul, hpage]
        omega
      have hlocked := h.setLock true
      rw [hsettles.split] at hlocked
      obtain ⟨list', pool', hlist, hgone⟩ := hlocked.take hsettles.fits hwhole
      refine ⟨_, _, list', pool', hcall, hlist.setLock false, ?_⟩
      by_cases hsmall : numPages.toNat < 2 ^ 52
      · refine iff_of_true ?_ (Or.inr (Or.inl hsmall))
        intro _ n hn
        have hbytes := toNat_pages hsmall
        rw [← hbytes] at hn
        refine ⟨⟨s.span fit, List.mem_map_of_mem (by rw [hsettles.split]; simp), ?_⟩, hgone n hn⟩
        have hfits : (numPages * vmPageSize).toNat ≤ (s.size fit).toNat := hsettles.fits
        exact ⟨hn.1, Nat.lt_of_lt_of_le hn.2 (Nat.add_le_add_left hfits _)⟩
      · rw [h.too_long (Nat.not_lt.mp hsmall)]
        constructor
        · intro hzero
          refine Or.inr (Or.inr fun front' fit' back' hsettles' => ?_)
          rw [← hsettles.unique hsettles']
          exact hzero
        · rintro (hno | hlt | hchance)
          · exact absurd hno hinitialized
          · exact absurd hlt hsmall
          · exact hchance front fit back hsettles

theorem fresh_freeList :
    FreeList (VmallocRuns.fresh 0x100000000 0x4000) [0x1000] [0x1018, 0x1030] := by
  refine ⟨⟨⟨rfl, rfl⟩, ⟨rfl, rfl, rfl⟩, by decide⟩, ?_, ?_, List.pairwise_singleton _ _⟩
  · intro r hr
    obtain rfl := List.mem_singleton.mp hr
    rfl
  · intro r hr
    obtain rfl := List.mem_singleton.mp hr
    decide +kernel

theorem gives_block_one_page : ∃ address s' list' pool',
    (∀ fuel > 1, vmmAllocBlock fuel (VmallocRuns.fresh 0x100000000 0x4000) 1 =
      some (address, s')) ∧ FreeList s' list' pool' ∧
      (GivesBlock (VmallocRuns.fresh 0x100000000 0x4000) [0x1000] s' list' address 1 ↔
        Sized (VmallocRuns.fresh 0x100000000 0x4000) [0x1000] 1) :=
  gives_block_iff fresh_freeList rfl 1

/-- `2 ^ 52 + 1` pages are answered with the only free range, of four pages, which loses one. -/
theorem one_page_for_all : ∃ s' : State,
    vmmAllocBlock 2 (VmallocRuns.fresh 0x100000000 0x4000) 0x10000000000001 =
        some (0x100000000, s') ∧
      (VmallocRuns.fresh 0x100000000 0x4000).freeRanges = some 0x1000 ∧
      (VmallocRuns.fresh 0x100000000 0x4000).range 0x1000 = ⟨0x100000000, 0x4000, none⟩ ∧
      s'.freeRanges = some 0x1000 ∧ s'.range 0x1000 = ⟨0x100001000, 0x3000, none⟩ ∧
      ¬ GivesBlock (VmallocRuns.fresh 0x100000000 0x4000) [0x1000] s' [0x1000] 0x100000000
        0x10000000000001 := by
  refine ⟨_, rfl, rfl, rfl, rfl, rfl, ?_⟩
  rw [fresh_freeList.too_long (by decide)]
  decide

end VmallocBlocks
