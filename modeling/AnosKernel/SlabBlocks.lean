import AnosKernel.FbaAlloc
import AnosKernel.SlabAlloc

/-!
# The blocks of the slabs

`kernel/slab/alloc.c` on top of `kernel/fba/alloc.c`. Which list a slab hangs on may go wrong, but
every slab a list leads to is one that was obtained, and the bitmap of a slab has the bits of its
live blocks and of its header set. That is enough to keep the blocks apart.
-/

namespace SlabBlocks

open Runs SlabAlloc

/-! ## The lists lead to slabs -/

/-- The list heads and the links of the slabs lead to slabs. -/
structure Within (s : SlabState) (slabs : List (BitVec 64)) : Prop where
  partialHead : ∀ slab, s.partialHead = some slab → slab ∈ slabs
  fullHead : ∀ slab, s.fullHead = some slab → slab ∈ slabs
  next : ∀ slab ∈ slabs, ∀ next, s.next slab = some next → next ∈ slabs

/-- The bitmaps of the slabs are the same. -/
def SameBits (s s' : SlabState) : Prop :=
  ∀ slab n, bitmapCheck (s'.mem slab) n = bitmapCheck (s.mem slab) n

section Lists

variable {s s' : SlabState} {slabs : List (BitVec 64)} {slab block test : BitVec 64} {fuel : Nat}

/-- Writing a header whose link leads to a slab. -/
theorem Within.write (h : Within s slabs) {header : Slab}
    (link : ∀ next, header.next = some next → next ∈ slabs) :
    Within (s.write slab header) slabs := by
  refine ⟨h.partialHead, h.fullHead, fun a ha next hnext => ?_⟩
  rw [write_next] at hnext
  by_cases hsame : a = slab
  · rw [hsame, Function.update_self] at hnext
    exact link next hnext
  · rw [Function.update_of_ne hsame] at hnext
    exact h.next a ha next hnext

/-- A header written with another link only. -/
theorem sameBits_link (s : SlabState) (slab : BitVec 64) (next : Option (BitVec 64)) :
    SameBits s (s.write slab { s.mem slab with next := next }) := by
  intro a n
  by_cases hsame : a = slab
  · rw [hsame, write_mem_self]
    rfl
  · rw [write_mem_ne _ _ hsame]

theorem findPrev_mem (h : Within s slabs) {first : Option (BitVec 64)}
    (start : ∀ a, first = some a → a ∈ slabs)
    (run : findPrev s slab fuel first = some (some test)) : test ∈ slabs := by
  induction fuel generalizing first with
  | zero => exact absurd run (by simp [findPrev])
  | succ fuel ih =>
    cases first with
    | none => exact absurd run (by simp [findPrev])
    | some a =>
      have ha := start a rfl
      rw [findPrev] at run
      split_ifs at run with hnext
      · obtain rfl := Option.some.inj (Option.some.inj run)
        exact ha
      · exact ih (h.next a ha) run

/-- Whatever slab `slab_free` moves, the lists lead to slabs and no bit changes. -/
theorem unfull_within (h : Within s slabs) (mem : slab ∈ slabs)
    (run : unfull s slab fuel = some s') : Within s' slabs ∧ SameBits s s' := by
  have hmoved : ∀ a ∈ slabs, ∀ full, (∀ b, full = some b → b ∈ slabs) →
      Within { (s.write a { s.mem a with next := s.partialHead }) with
        partialHead := some a, fullHead := full } slabs := by
    intro a ha full hfull
    have hwritten := @Within.write s slabs a h { s.mem a with next := s.partialHead }
      h.partialHead
    refine ⟨fun b hb => ?_, hfull, hwritten.next⟩
    obtain rfl := Option.some.inj hb
    exact ha
  rw [unfull] at run
  split_ifs at run with hhead
  · obtain rfl := Option.some.inj run
    exact ⟨hmoved slab mem _ (h.next slab mem), sameBits_link s slab s.partialHead⟩
  · cases hprev : findPrev s slab fuel s.fullHead with
    | none => simp [hprev] at run
    | some found =>
      cases found with
      | none =>
        simp only [hprev, Option.some.injEq] at run
        subst run
        exact ⟨h, fun _ _ => rfl⟩
      | some test =>
        simp only [hprev, Option.some.injEq] at run
        subst run
        have htest := findPrev_mem h h.fullHead hprev
        exact ⟨hmoved test htest _ h.fullHead, sameBits_link s test s.partialHead⟩

/-- The block is not one that `slab_free` ignores. -/
def Freeable (block : BitVec 64) : Prop := slabBase block ≠ 0 ∧ blockNum block ≠ 0

instance (block : BitVec 64) : Decidable (Freeable block) :=
  inferInstanceAs (Decidable (_ ∧ _))

/-- What `slab_free` of a block does: its own bit is cleared. -/
theorem slabFree_within (h : Within s slabs) (mem : slabBase block ∈ slabs)
    (run : slabFree s block fuel = some s') :
    Within s' slabs ∧ ∀ slab, ∀ n < 256, bitmapCheck (s'.mem slab) n =
      (!decide (Freeable block ∧ slab = slabBase block ∧ n = blockNum block) &&
        bitmapCheck (s.mem slab) n) := by
  have hcleared : ∀ s1, Within s1 slabs → SameBits s s1 → Freeable block →
      Within (s1.write (slabBase block) (bitmapClear (s1.mem (slabBase block)) (blockNum block)))
        slabs ∧ ∀ slab, ∀ n < 256,
          bitmapCheck ((s1.write (slabBase block)
            (bitmapClear (s1.mem (slabBase block)) (blockNum block))).mem slab) n =
          (!decide (Freeable block ∧ slab = slabBase block ∧ n = blockNum block) &&
            bitmapCheck (s.mem slab) n) := by
    intro s1 hwithin hsame hfreeable
    constructor
    · apply hwithin.write
      rw [bitmapClear_next]
      exact hwithin.next _ mem
    · intro slab n hn
      by_cases hslab : slab = slabBase block
      · rw [hslab, write_mem_self, bitmapCheck_clear (blockNum_lt block) hn, hsame]
        simp [hfreeable]
      · rw [write_mem_ne _ _ hslab, hsame]
        simp [hslab]
  unfold slabFree at run
  dsimp only at run
  split_ifs at run with hskip hfull
  · obtain rfl := Option.some.inj run
    refine ⟨h, fun slab n _ => ?_⟩
    have hignored : ¬ Freeable block := by
      rintro ⟨hbase, hnum⟩
      rcases hskip with rfl | hzero | hheader
      · exact hbase (by decide)
      · exact hbase hzero
      · exact hnum hheader
    simp [hignored]
  · obtain ⟨s1, hs1, rfl⟩ := Option.map_eq_some_iff.mp run
    obtain ⟨hwithin, hsame⟩ := unfull_within h mem hs1
    exact hcleared s1 hwithin hsame ⟨fun hbase => hskip (Or.inr (Or.inl hbase)),
      fun hnum => hskip (Or.inr (Or.inr hnum))⟩
  · obtain rfl := Option.some.inj run
    exact hcleared s h (fun _ _ => rfl) ⟨fun hbase => hskip (Or.inr (Or.inl hbase)),
      fun hnum => hskip (Or.inr (Or.inr hnum))⟩

/-- Taking a block sets the bit of a free one. -/
theorem takeBlock_within (h : Within s slabs) (mem : slab ∈ slabs)
    (notFull : ¬ (s.mem slab).isFull) :
    ∃ n < 256, bitmapCheck (s.mem slab) n = false ∧
      (takeBlock s slab).1 = some (slab + 64 * BitVec.ofNat 64 n) ∧
      Within (takeBlock s slab).2 slabs ∧
      ∀ a, ∀ m < 256, bitmapCheck ((takeBlock s slab).2.mem a) m =
        (decide (a = slab ∧ m = n) || bitmapCheck (s.mem a) m) := by
  obtain ⟨n, hn, hclear, hblock, hstate⟩ := takeBlock_cases notFull
  refine ⟨n, hn, hclear, hblock, ?_⟩
  have hbits : ∀ next, ∀ a, ∀ m < 256,
      bitmapCheck ((s.write slab { bitmapSet (s.mem slab) n with next := next }).mem a) m =
        (decide (a = slab ∧ m = n) || bitmapCheck (s.mem a) m) := by
    intro next a m hm
    by_cases hsame : a = slab
    · have hlink : bitmapCheck { bitmapSet (s.mem slab) n with next := next } m =
          bitmapCheck (bitmapSet (s.mem slab) n) m := rfl
      rw [hsame, write_mem_self, hlink, bitmapCheck_set hn hm]
      simp
    · rw [write_mem_ne _ _ hsame]
      simp [hsame]
  rcases hstate with ⟨-, hstate⟩ | ⟨-, hstate⟩
  · rw [hstate]
    constructor
    · apply h.write
      rw [bitmapSet_next]
      exact h.next slab mem
    · exact hbits (bitmapSet (s.mem slab) n).next
  · rw [hstate]
    have hwritten := @Within.write s slabs slab h
      { bitmapSet (s.mem slab) n with next := s.fullHead } h.fullHead
    refine ⟨⟨h.next slab mem, fun a ha => ?_, hwritten.next⟩, hbits s.fullHead⟩
    obtain rfl := Option.some.inj ha
    exact mem

end Lists

/-! ## How far a list is searched -/

section Search

variable {s state : SlabState} {slabs xs : List (BitVec 64)} {slab block : BitVec 64}
  {first stop : Option (BitVec 64)} {fuel : Nat} {found : Option (BitVec 64)}

theorem findPrev_mono (run : findPrev s slab fuel first = some found) (more : Nat) :
    findPrev s slab (fuel + more) first = some found := by
  induction fuel generalizing first with
  | zero => exact absurd run (by simp [findPrev])
  | succ fuel ih =>
    rw [Nat.add_right_comm]
    cases first with
    | none => exact run
    | some a =>
      rw [findPrev] at run ⊢
      split_ifs at run ⊢ with hnext
      · exact run
      · exact ih run

/-- The search goes on behind slabs that are not the predecessor. -/
theorem findPrev_skip (seg : Chains.Seg s.next first xs stop)
    (others : ∀ a ∈ xs, s.next a ≠ some slab) (rest : Nat) :
    findPrev s slab (xs.length + rest) first = findPrev s slab rest stop := by
  induction xs generalizing first with
  | nil => rw [List.length_nil, Nat.zero_add, show first = stop from seg]
  | cons a xs ih =>
    obtain ⟨rfl, htail⟩ := seg
    rw [List.length_cons, Nat.add_right_comm, findPrev, if_neg (others a List.mem_cons_self)]
    exact ih htail fun b hb => others b (List.mem_cons_of_mem _ hb)

/-- With the least fuel that suffices, no slab is looked at twice. -/
theorem findPrev_path (h : Within s slabs) (start : ∀ a, first = some a → a ∈ slabs)
    (run : findPrev s slab fuel first = some found)
    (least : ∀ less < fuel, findPrev s slab less first = none) :
    ∃ xs stop, Chains.Seg s.next first xs stop ∧ xs.Nodup ∧ xs.length + 1 = fuel ∧
      (∀ a ∈ xs, a ∈ slabs) ∧ ∀ a ∈ xs, s.next a ≠ some slab := by
  induction fuel generalizing first with
  | zero => exact absurd run (by simp [findPrev])
  | succ fuel ih =>
    -- a search that ends here ends with any fuel
    have hends : (∀ more, findPrev s slab (more + 1) first = some found) → fuel = 0 := by
      intro hdone
      by_contra hpos
      have hnone := least 1 (by omega)
      rw [hdone 0] at hnone
      exact absurd hnone (by simp)
    cases first with
    | none =>
      obtain rfl := hends fun _ => run
      exact ⟨[], none, rfl, List.nodup_nil, rfl, by simp, by simp⟩
    | some a =>
      rw [findPrev] at run
      split_ifs at run with hnext
      · obtain rfl := hends fun _ => by rw [findPrev, if_pos hnext, run]
        exact ⟨[], some a, rfl, List.nodup_nil, rfl, by simp, by simp⟩
      · have ha := start a rfl
        have hleast : ∀ less < fuel, findPrev s slab less (s.next a) = none := by
          intro less hless
          have hnone := least (less + 1) (by omega)
          rwa [findPrev, if_neg hnext] at hnone
        obtain ⟨xs, stop, hseg, hnodup, hlength, hslabs, hothers⟩ := ih (h.next a ha) run hleast
        have hfresh : a ∉ xs := by
          intro hmem
          obtain ⟨front, back, rfl⟩ := List.append_of_mem hmem
          obtain ⟨mid, hfront, hback⟩ := Chains.seg_append.mp hseg
          obtain ⟨rfl, -⟩ := hback
          rw [List.length_append, List.length_cons] at hlength
          have hskip := @findPrev_skip s front slab (s.next a) (some a) hfront
            (fun b hb => hothers b (List.mem_append_left _ hb)) (back.length + 2)
          rw [show front.length + (back.length + 2) = fuel by omega, run,
            least (back.length + 2) (by omega)] at hskip
          exact absurd hskip (by simp)
        refine ⟨a :: xs, stop, ⟨rfl, hseg⟩, List.nodup_cons.mpr ⟨hfresh, hnodup⟩, ?_, ?_, ?_⟩
        · rw [List.length_cons, hlength]
        · intro b hb
          rcases List.mem_cons.mp hb with rfl | hb
          · exact ha
          · exact hslabs b hb
        · intro b hb
          rcases List.mem_cons.mp hb with rfl | hb
          · exact hnext
          · exact hothers b hb

/-- A search that ends looks at each slab at most once. -/
theorem findPrev_enough (h : Within s slabs) (start : ∀ a, first = some a → a ∈ slabs)
    (run : findPrev s slab fuel first = some found) :
    findPrev s slab (slabs.length + 1) first = some found := by
  have hexists : ∃ fuel, findPrev s slab fuel first = some found := ⟨fuel, run⟩
  classical
  have hfind := Nat.find_spec hexists
  have hleast : ∀ less < Nat.find hexists, findPrev s slab less first = none := by
    intro less hless
    by_contra hsome
    obtain ⟨other, hother⟩ := Option.ne_none_iff_exists'.mp hsome
    have hmono := findPrev_mono hother (Nat.find hexists - less)
    rw [Nat.add_sub_cancel' hless.le, hfind] at hmono
    obtain rfl := Option.some.inj hmono
    exact Nat.find_min hexists hless hother
  obtain ⟨xs, -, -, hnodup, hlength, hslabs, -⟩ := findPrev_path h start hfind hleast
  have hle : xs.length ≤ slabs.length := (hnodup.subperm hslabs).length_le
  have hmono := findPrev_mono hfind (slabs.length + 1 - Nat.find hexists)
  rwa [Nat.add_sub_cancel' (by omega)] at hmono

/-- So `slab_free` returns with as much fuel as there are slabs, or never. -/
theorem slabFree_enough (h : Within s slabs) (run : slabFree s block fuel = some state) :
    slabFree s block (slabs.length + 1) = some state := by
  unfold slabFree at run ⊢
  dsimp only at run ⊢
  split_ifs at run ⊢ with hskip hfull
  · exact run
  · obtain ⟨s1, hs1, rfl⟩ := Option.map_eq_some_iff.mp run
    refine Option.map_eq_some_iff.mpr ⟨s1, ?_, rfl⟩
    rw [unfull] at hs1 ⊢
    split_ifs at hs1 ⊢ with hhead
    · exact hs1
    · cases hprev : findPrev s (slabBase block) fuel s.fullHead with
      | none => simp [hprev] at hs1
      | some found =>
        rw [hprev] at hs1
        rw [findPrev_enough h h.fullHead hprev]
        exact hs1
  · exact run

end Search

/-! ## Every run of the allocator -/

/-- The block is one of its slab, behind the header, with its bit set. -/
structure InUse (w : World) (block : BitVec 64) : Prop where
  slab : slabBase block ∈ w.obtained
  address : block = slabBase block + 64 * BitVec.ofNat 64 (blockNum block)
  behind : blockNum block ≠ 0
  marked : bitmapCheck (w.state.mem (slabBase block)) (blockNum block) = true

/-- The live blocks are those that the bitmaps of the slabs say are in use. -/
structure Inv (w : World) : Prop where
  within : Within w.state w.obtained
  aligned : ∀ slab ∈ w.obtained, slab &&& 0x3fff = 0
  nonnull : 0 ∉ w.obtained
  header : ∀ slab ∈ w.obtained, bitmapCheck (w.state.mem slab) 0 = true
  live : ∀ block, block ∈ w.live ↔ InUse w block
  nodup : w.live.Nodup

/-- The slab a block is taken of: the first partial one, or else a new one. -/
def slabFor (s : SlabState) (fba : Option (BitVec 64)) : Option (BitVec 64) :=
  s.partialHead.or fba

section Blocks

variable {w w' : World} {block target : BitVec 64}

theorem freeBlock_full {slab : Slab} (h : slab.isFull) : freeBlock slab = none := by
  simp only [Slab.isFull, Bool.and_eq_true, beq_iff_eq] at h
  obtain ⟨⟨⟨h0, h1⟩, h2⟩, h3⟩ := h
  simp [freeBlock, h0, h1, h2, h3]

/-- Only the header of a new slab is marked. -/
theorem newSlab_clear {n : Nat} (hn : n < 256) (behind : n ≠ 0) :
    bitmapCheck newSlab n = false := by
  have hclear : bitmapClear newSlab 0 = ⟨none, 0, 0, 0, 0⟩ := by decide
  have hzero : bitmapCheck ⟨none, 0, 0, 0, 0⟩ n = false := by
    rw [bitmapCheck_eq]
    generalize n / 64 = word
    have hword : Slab.word ⟨none, 0, 0, 0, 0⟩ word = 0 := by
      rcases word with _ | _ | _ | _ <;> rfl
    rw [hword]
    exact BitVec.getLsbD_zero
  have hbit := @bitmapCheck_clear newSlab 0 n (by decide) hn
  rw [hclear, hzero] at hbit
  simpa [behind] using hbit.symm

/-- A block is told by its slab and its number. -/
theorem InUse.eq_of_num {b : BitVec 64} (h : InUse w block) (h' : InUse w b)
    (slab : slabBase b = slabBase block) (num : blockNum b = blockNum block) : b = block := by
  rw [h'.address, slab, num]
  exact h.address.symm

/-- What taking a block of a slab does: nothing, or a block that was free is in use. -/
theorem Inv.took (inv : Inv w) (mem : target ∈ w.obtained) :
    (takeBlock w.state target).1 = none ∧ SlabAlloc.took w target = w ∨
    ∃ n < 256, n ≠ 0 ∧ (takeBlock w.state target).1 = some (target + 64 * BitVec.ofNat 64 n) ∧
      target + 64 * BitVec.ofNat 64 n ∉ w.live ∧ Inv (SlabAlloc.took w target) := by
  by_cases hfull : (w.state.mem target).isFull
  · left
    have hnone : takeBlock w.state target = (none, w.state) := by
      rw [takeBlock, freeBlock_full hfull]
    exact ⟨by rw [hnone], by simp [SlabAlloc.took, hnone]⟩
  · right
    obtain ⟨n, hn, hclear, hblock, hwithin, hbits⟩ := takeBlock_within inv.within mem hfull
    have haligned := inv.aligned target mem
    have hbase := slabBase_block haligned hn
    have hnum := blockNum_block haligned hn
    have hnonzero : n ≠ 0 := by
      rintro rfl
      rw [inv.header target mem] at hclear
      exact absurd hclear (by decide)
    have hfresh : target + 64 * BitVec.ofNat 64 n ∉ w.live := by
      intro hlive
      have hmarked := ((inv.live _).mp hlive).marked
      rw [hbase, hnum, hclear] at hmarked
      exact absurd hmarked (by decide)
    have hlive : (SlabAlloc.took w target).live = (target + 64 * BitVec.ofNat 64 n) :: w.live := by
      rw [SlabAlloc.took, hblock]
      rfl
    refine ⟨n, hn, hnonzero, hblock, hfresh, hwithin, inv.aligned, inv.nonnull, ?_, ?_, ?_⟩
    · intro slab hslab
      exact (hbits slab 0 (by decide)).trans (by rw [inv.header slab hslab, Bool.or_true])
    · intro b
      have hbit := hbits (slabBase b) (blockNum b) (blockNum_lt b)
      rw [hlive, List.mem_cons, inv.live b]
      constructor
      · rintro (rfl | ⟨hslab, haddress, hbehind, hmarked⟩)
        · refine ⟨hbase.symm ▸ mem, by rw [hbase, hnum], hnum.symm ▸ hnonzero, ?_⟩
          rw [hbase, hnum]
          exact (hbits target n hn).trans (by simp)
        · exact ⟨hslab, haddress, hbehind, hbit.trans (by rw [hmarked, Bool.or_true])⟩
      · rintro ⟨hslab, haddress, hbehind, hmarked⟩
        rcases Bool.or_eq_true_iff.mp (hbit.symm.trans hmarked) with hnew | hold
        · obtain ⟨hsame, hsame'⟩ := of_decide_eq_true hnew
          rw [hsame, hsame'] at haddress
          exact Or.inl haddress
        · exact Or.inr ⟨hslab, haddress, hbehind, hold⟩
    · rw [hlive]
      exact List.nodup_cons.mpr ⟨hfresh, inv.nodup⟩

/-- A new slab has its header in use only. -/
theorem Inv.grown (inv : Inv w) (aligned : target &&& 0x3fff = 0) (nonnull : target ≠ 0)
    (fresh : target ∉ w.obtained) : Inv (SlabAlloc.grown w target) := by
  have hmem : ∀ slab ∈ w.obtained, (SlabAlloc.grown w target).state.mem slab = w.state.mem slab :=
    fun slab hslab => write_mem_ne _ _ (ne_of_mem_of_not_mem hslab fresh)
  have hnew : (SlabAlloc.grown w target).state.mem target = newSlab := write_mem_self _ _ _
  refine ⟨⟨?_, ?_, ?_⟩, ?_, ?_, ?_, ?_, inv.nodup⟩
  · intro slab hslab
    obtain rfl := Option.some.inj hslab
    exact List.mem_cons_self
  · exact fun slab hslab => List.mem_cons_of_mem _ (inv.within.fullHead slab hslab)
  · intro slab hslab next hnext
    rw [SlabState.next] at hnext
    rcases List.mem_cons.mp hslab with rfl | hold
    · rw [hnew] at hnext
      exact absurd hnext (by simp [newSlab])
    · rw [hmem slab hold] at hnext
      exact List.mem_cons_of_mem _ (inv.within.next slab hold next hnext)
  · intro slab hslab
    rcases List.mem_cons.mp hslab with rfl | hold
    · exact aligned
    · exact inv.aligned slab hold
  · intro hzero
    rcases List.mem_cons.mp hzero with hsame | hold
    · exact nonnull hsame.symm
    · exact inv.nonnull hold
  · intro slab hslab
    rcases List.mem_cons.mp hslab with rfl | hold
    · rw [hnew]
      decide
    · rw [hmem slab hold]
      exact inv.header slab hold
  · intro b
    have hold : ∀ hslab : slabBase b ∈ w.obtained,
        (SlabAlloc.grown w target).state.mem (slabBase b) = w.state.mem (slabBase b) := hmem _
    have hlive : (SlabAlloc.grown w target).live = w.live := rfl
    rw [hlive, inv.live b]
    constructor
    · rintro ⟨hslab, haddress, hbehind, hmarked⟩
      exact ⟨List.mem_cons_of_mem _ hslab, haddress, hbehind, by rw [hold hslab]; exact hmarked⟩
    · rintro ⟨hslab, haddress, hbehind, hmarked⟩
      rcases List.mem_cons.mp hslab with hsame | hslab
      · rw [hsame, hnew] at hmarked
        exact absurd (newSlab_clear (blockNum_lt b) hbehind) (by rw [hmarked]; decide)
      · rw [hold hslab] at hmarked
        exact ⟨hslab, haddress, hbehind, hmarked⟩

/-- Freeing a block takes back its own bit only. -/
theorem Inv.freed (inv : Inv w) {fuel : Nat} {state : SlabState} (live : block ∈ w.live)
    (run : slabFree w.state block fuel = some state) :
    Inv { w with state := state, live := w.live.erase block } := by
  have hblock := (inv.live block).mp live
  have hfreeable : Freeable block :=
    ⟨ne_of_mem_of_not_mem hblock.slab inv.nonnull, hblock.behind⟩
  obtain ⟨hwithin, hbits⟩ := slabFree_within inv.within hblock.slab run
  refine ⟨hwithin, inv.aligned, inv.nonnull, ?_, ?_, inv.nodup.erase block⟩
  · intro slab hslab
    have hother : ¬ (Freeable block ∧ slab = slabBase block ∧ 0 = blockNum block) :=
      fun h => hblock.behind h.2.2.symm
    exact (hbits slab 0 (by decide)).trans
      (by rw [inv.header slab hslab, decide_eq_false hother]; rfl)
  · intro b
    have hbit := hbits (slabBase b) (blockNum b) (blockNum_lt b)
    simp only [hfreeable, true_and] at hbit
    rw [inv.nodup.mem_erase_iff, inv.live b]
    constructor
    · rintro ⟨hne, hb⟩
      refine ⟨hb.slab, hb.address, hb.behind, ?_⟩
      have hother : ¬ (slabBase b = slabBase block ∧ blockNum b = blockNum block) :=
        fun h => hne (hblock.eq_of_num hb h.1 h.2)
      exact hbit.trans (by rw [hb.marked, decide_eq_false hother]; rfl)
    · rintro ⟨hslab, haddress, hbehind, hmarked⟩
      obtain ⟨hkept, hwas⟩ := Bool.and_eq_true_iff.mp (hbit.symm.trans hmarked)
      refine ⟨?_, hslab, haddress, hbehind, hwas⟩
      rintro rfl
      exact absurd hkept (by simp)

theorem Inv.init (h : system.init w) : Inv w := by
  obtain ⟨hfirst, hfull, hobtained, hlive⟩ := h
  refine ⟨⟨?_, ?_, ?_⟩, ?_, ?_, ?_, fun b => ⟨?_, ?_⟩, ?_⟩
  · intro slab hslab
    rw [hfirst] at hslab
    exact absurd hslab.symm (Option.some_ne_none slab)
  · intro slab hslab
    rw [hfull] at hslab
    exact absurd hslab.symm (Option.some_ne_none slab)
  · simp [hobtained]
  · simp [hobtained]
  · simp [hobtained]
  · simp [hobtained]
  · simp [hlive]
  · intro hb
    have hslab := hb.slab
    rw [hobtained] at hslab
    exact absurd hslab List.not_mem_nil
  · simp [hlive]

/-- What `slab_alloc_block` answers: nothing, or a block of the slab that was free. -/
theorem Inv.allocated (inv : Inv w) {fba : Option (BitVec 64)} (valid : Valid w (.alloc fba)) :
    Inv (SlabAlloc.allocated w fba) ∧
      ∀ b, (slabAllocBlock w.state fba).1 = some b → ∃ slab, slabFor w.state fba = some slab ∧
        slab &&& 0x3fff = 0 ∧ (∃ n < 256, n ≠ 0 ∧ b = slab + 64 * BitVec.ofNat 64 n) ∧
          b ∉ w.live := by
  have taken : ∀ {w' : World} {slab : BitVec 64}, Inv w' → slab ∈ w'.obtained →
      Inv (SlabAlloc.took w' slab) ∧ ∀ b, (takeBlock w'.state slab).1 = some b →
        slab &&& 0x3fff = 0 ∧ (∃ n < 256, n ≠ 0 ∧ b = slab + 64 * BitVec.ofNat 64 n) ∧
          b ∉ w'.live := by
    intro w' slab inv' mem
    rcases inv'.took mem with ⟨hnone, hsame⟩ | ⟨n, hn, hnum, hblock, hfresh, htook⟩
    · rw [hsame]
      exact ⟨inv', fun b hb => absurd (hnone.symm.trans hb).symm (Option.some_ne_none b)⟩
    · refine ⟨htook, fun b hb => ?_⟩
      obtain rfl := Option.some.inj (hblock.symm.trans hb)
      exact ⟨inv'.aligned slab mem, ⟨n, hn, hnum, rfl⟩, hfresh⟩
  cases hfirst : w.state.partialHead with
  | some slab =>
    obtain ⟨htook, hanswer⟩ := taken inv (inv.within.partialHead slab hfirst)
    rw [allocated_some hfirst]
    refine ⟨htook, fun b hb => ⟨slab, by simp [slabFor, hfirst], ?_⟩⟩
    simp only [slabAllocBlock, hfirst] at hb
    exact hanswer b hb
  | none =>
    cases fba with
    | none =>
      rw [allocated_none hfirst]
      refine ⟨inv, fun b hb => ?_⟩
      simp [slabAllocBlock, hfirst] at hb
    | some slab =>
      obtain ⟨haligned, hnonnull, hfresh⟩ := valid slab rfl
      obtain ⟨htook, hanswer⟩ := taken (inv.grown haligned hnonnull hfresh) List.mem_cons_self
      rw [allocated_grown hfirst]
      refine ⟨htook, fun b hb => ⟨slab, by simp [slabFor, hfirst], ?_⟩⟩
      simp only [slabAllocBlock, hfirst] at hb
      exact hanswer b hb

theorem Inv.step {op : Op} (inv : Inv w) (valid : Valid w op) (step : Step w op w') : Inv w' := by
  cases step with
  | alloc fba => exact (inv.allocated valid).1
  | free block fuel state hfree => exact inv.freed valid hfree

theorem reachable_inv (h : Reachable system w) : Inv w := by
  apply Reachable.invariant Inv _ _ h
  · intro w hinit
    exact Inv.init hinit
  · rintro w op w' inv ⟨hvalid, hstep⟩
    exact inv.step hvalid hstep

end Blocks

/-! ## On top of the block allocator -/

/-- Both allocators. -/
structure Kernel where
  slab : SlabAlloc.World
  fba : FbaAlloc.World
  /-- History: the slabs the live blocks were carved from. -/
  carved : BitVec 64 → BitVec 64

/-- The request for a new slab, with what `page_alloc` answers on the way. -/
def slabRequest (pages : Nat → BitVec 64) : FbaAlloc.Call := .allocBlocksAligned 4 4 pages

/-- The block allocator is asked when there is no partial slab. -/
def Kernel.askFba (k : Kernel) (pages : Nat → BitVec 64) : Option (BitVec 64) × FbaAlloc.World :=
  if k.slab.state.partialHead = none then k.fba.exec (slabRequest pages) else (none, k.fba)

/-- `slab_alloc_block`. -/
def Kernel.allocBlock (k : Kernel) (pages : Nat → BitVec 64) : Option (BitVec 64) × Kernel :=
  let (answer, fba) := k.askFba pages
  let block := (slabAllocBlock k.slab.state answer).1
  (block,
    { slab := SlabAlloc.allocated k.slab answer
      fba := fba
      carved :=
        match block, slabFor k.slab.state answer with
        | some block, some slab => Function.update k.carved block slab
        | _, _ => k.carved })

/-- `fba` is a call of another user of the block allocator. -/
inductive Call where
  | alloc (pages : Nat → BitVec 64)
  | free (block : BitVec 64)
  | fba (call : FbaAlloc.Call)

def exec (fuel : Nat) (k : Kernel) : Call → Option Kernel
  | .alloc pages => some (k.allocBlock pages).2
  | .free block => (slabFree k.slab.state block fuel).map fun state =>
      { k with slab := { k.slab with state := state, live := k.slab.live.erase block } }
  | .fba call => some { k with fba := (k.fba.exec call).2 }

/-- Live blocks are freed, and the other users leave the slabs alone. -/
def Valid (k : Kernel) : Call → Prop
  | .alloc _ => True
  | .free block => block ∈ k.slab.live
  | .fba call =>
    FbaAlloc.Valid k.fba call ∧ ∀ slab ∈ k.slab.obtained, k.fba.Spares call slab 4

/-- Right after `fba_init` with a base that is aligned to the size of a slab. -/
def slabOverFba : System Kernel Call where
  init := fun k => system.init k.slab ∧ FbaAlloc.Started k.fba ∧
    k.fba.fba.fbaBegin &&& 0x3fff = 0
  step := fun k call k' => Valid k call ∧ ∃ fuel, exec fuel k call = some k'

/-- What ties the two allocators together. -/
structure Linked (k : Kernel) : Prop where
  slab : Reachable system k.slab
  fba : Reachable FbaAlloc.fbaCalls k.fba
  base : k.fba.fba.fbaBegin &&& 0x3fff = 0
  owned : ∀ slab ∈ k.slab.obtained, k.fba.Owned slab 4
  carved : ∀ block ∈ k.slab.live, slabBase block = k.carved block

section Kernel

variable {k k' : Kernel} {pages : Nat → BitVec 64} {target : BitVec 64}

/-- The block allocator answers what the slab allocator relies on. -/
theorem Linked.answer (h : Linked k) (answer : (k.fba.exec (slabRequest pages)).1 = some target) :
    target &&& 0x3fff = 0 ∧ target ≠ 0 ∧ target ∉ k.slab.obtained ∧
      (k.fba.exec (slabRequest pages)).2.Owned target 4 := by
  have hinv := FbaAlloc.reachable_inv h.fba
  obtain ⟨first, haddress, halign, hend, hapart, hlive⟩ :=
    FbaAlloc.allocations_are_apart h.fba (slabRequest pages) target answer
  have hfour : (slabRequest pages).count = 4 := rfl
  have hbase := (Masks.and_low_eq_zero_iff (k := 14) rfl).mp h.base
  have hblocks := hinv.sized.blocks
  rw [hfour] at hend hapart hlive
  have hdvd : 4 ∣ first := halign
  have hbehind := (hapart 0 (by decide)).1
  refine ⟨?_, ?_, ?_, ?_⟩
  · apply (Masks.and_low_eq_zero_iff (k := 14) rfl).mpr
    rw [haddress]
    omega
  · rintro rfl
    simp only [BitVec.toNat_ofNat, BitVec.ofNat_eq_ofNat, Nat.zero_mod] at haddress
    omega
  · intro hmem
    obtain ⟨first', heq, howned⟩ := h.owned target hmem
    have hin := (hinv.within _ (howned 0 (by decide))).2
    have hsame := hinv.sized.toNat_address (show first' < _ from hin)
    rw [← heq, haddress] at hsame
    obtain rfl : first' = first := by omega
    have hfree := (hapart 0 (by decide)).2
    rw [howned 0 (by decide)] at hfree
    exact absurd hfree (by decide)
  · refine ⟨first, ?_, fun i hi => ?_⟩
    · apply BitVec.eq_of_toNat_eq
      rw [FbaAlloc.exec_fbaBegin hinv, haddress]
      exact (hinv.sized.toNat_address (by omega)).symm
    · rw [hlive, decide_eq_true (by omega), Bool.or_true]

/-- The slab allocator's calls are those of the allocator that gets its slabs from outside. -/
theorem Linked.asked (h : Linked k) :
    SlabAlloc.Valid k.slab (.alloc (k.askFba pages).1) ∧
      Reachable FbaAlloc.fbaCalls (k.askFba pages).2 ∧
      (k.askFba pages).2.fba.fbaBegin = k.fba.fba.fbaBegin ∧
      ∀ slab ∈ (SlabAlloc.allocated k.slab (k.askFba pages).1).obtained,
        (k.askFba pages).2.Owned slab 4 := by
  by_cases hempty : k.slab.state.partialHead = none
  · have hinv := FbaAlloc.reachable_inv h.fba
    have hkept : ∀ slab ∈ k.slab.obtained, (k.fba.exec (slabRequest pages)).2.Owned slab 4 := by
      intro slab hslab
      apply hinv.owned_kept (h.owned slab hslab)
      exact fun i _ hreleased => absurd rfl hreleased
    rw [Kernel.askFba, if_pos hempty]
    refine ⟨fun target hanswer => ?_, h.fba.next (a := slabRequest pages) ⟨trivial, rfl⟩,
      FbaAlloc.exec_fbaBegin hinv, ?_⟩
    · obtain ⟨haligned, hnonnull, hfresh, -⟩ := h.answer hanswer
      exact ⟨haligned, hnonnull, hfresh⟩
    · intro slab hslab
      simp only [SlabAlloc.allocated, if_pos hempty, List.mem_append, Option.mem_toList] at hslab
      rcases hslab with hnew | hold
      · exact (h.answer hnew).2.2.2
      · exact hkept slab hold
  · rw [Kernel.askFba, if_neg hempty]
    refine ⟨fun target hanswer => absurd hanswer (by simp), h.fba, rfl, ?_⟩
    intro slab hslab
    simp only [SlabAlloc.allocated, if_neg hempty] at hslab
    exact h.owned slab hslab

/-- The block that a call answers, and what is recorded of it. -/
theorem Linked.answered (h : Linked k) {block : BitVec 64}
    (answer : (k.allocBlock pages).1 = some block) :
    block &&& 0x3f = 0 ∧ block ≠ slabBase block ∧ block ∉ k.slab.live ∧
      (k.allocBlock pages).2.slab.live = block :: k.slab.live ∧
      (k.allocBlock pages).2.carved = Function.update k.carved block (slabBase block) := by
  have hanswer : (slabAllocBlock k.slab.state (k.askFba pages).1).1 = some block := answer
  obtain ⟨slab, hslab, haligned, ⟨n, hn, hnum, hblock⟩, hfresh⟩ :=
    ((reachable_inv h.slab).allocated h.asked.1).2 block hanswer
  have hbase : slabBase block = slab := by
    rw [hblock]
    exact slabBase_block haligned hn
  refine ⟨?_, ?_, hfresh, ?_, ?_⟩
  · have hslabs := (Masks.and_low_eq_zero_iff (k := 14) rfl).mp haligned
    apply (Masks.and_low_eq_zero_iff (k := 6) rfl).mpr
    rw [hblock, BitVec.toNat_add, toNat_blockOffset hn]
    omega
  · intro hheader
    apply hnum
    have hzero := blockNum_block haligned hn
    rw [← hblock, blockNum, ← hheader, BitVec.sub_self] at hzero
    exact hzero.symm
  · have hlive : (k.allocBlock pages).2.slab.live =
        (slabAllocBlock k.slab.state (k.askFba pages).1).1.toList ++ k.slab.live := rfl
    rw [hlive, hanswer]
    rfl
  · simp only [Kernel.allocBlock, hanswer, hslab, hbase]

theorem Linked.alloc (h : Linked k) : Linked (k.allocBlock pages).2 := by
  obtain ⟨hvalid, hfba, hbegin, howned⟩ := @Linked.asked k pages h
  refine ⟨h.slab.next ⟨hvalid, Step.alloc _ _⟩, hfba, hbegin ▸ h.base, howned, ?_⟩
  cases hanswer : (k.allocBlock pages).1 with
  | none =>
    have hnone : (slabAllocBlock k.slab.state (k.askFba pages).1).1 = none := hanswer
    intro block hblock
    simp only [Kernel.allocBlock, SlabAlloc.allocated, hnone] at hblock ⊢
    exact h.carved block hblock
  | some block =>
    obtain ⟨-, -, hfresh, hlive, hcarved⟩ := h.answered hanswer
    intro b hb
    rw [hlive] at hb
    rw [hcarved]
    rcases List.mem_cons.mp hb with rfl | hold
    · rw [Function.update_self]
    · rw [Function.update_of_ne (ne_of_mem_of_not_mem hold hfresh)]
      exact h.carved b hold

theorem Linked.step {call : Call} {fuel : Nat} (h : Linked k) (valid : Valid k call)
    (run : exec fuel k call = some k') : Linked k' := by
  cases call with
  | alloc pages =>
    obtain rfl := Option.some.inj run
    exact h.alloc
  | free block =>
    obtain ⟨state, hfree, rfl⟩ := Option.map_eq_some_iff.mp run
    refine ⟨h.slab.next (a := .free block) ⟨valid, Step.free _ block fuel state hfree⟩, h.fba,
      h.base, h.owned, ?_⟩
    intro b hb
    exact h.carved b (List.mem_of_mem_erase hb)
  | fba call =>
    obtain rfl := Option.some.inj run
    obtain ⟨hvalid, hspares⟩ := valid
    have hinv := FbaAlloc.reachable_inv h.fba
    refine ⟨h.slab, h.fba.next ⟨hvalid, rfl⟩, ?_, ?_, h.carved⟩
    · rw [FbaAlloc.exec_fbaBegin hinv]
      exact h.base
    · intro slab hslab
      exact hinv.owned_kept (h.owned slab hslab) (hspares slab hslab)

theorem reachable_linked (h : Reachable slabOverFba k) : Linked k := by
  apply Reachable.invariant Linked _ _ h
  · rintro k ⟨hslab, hfba, hbase⟩
    obtain ⟨-, -, hobtained, hlive⟩ := id hslab
    refine ⟨Reachable.start hslab, Reachable.start hfba, hbase, ?_, ?_⟩
    · simp [hobtained]
    · simp [hlive]
  · rintro k call k' hlinked ⟨hvalid, fuel, hrun⟩
    exact hlinked.step hvalid hrun

/-- In every run the live blocks lie in the slabs they were carved from, and a block answered is
aligned, is not the header of its slab and is not live. -/
theorem blocks_are_apart (h : Reachable slabOverFba k) :
    (∀ block ∈ k.slab.live, slabBase block = k.carved block ∧ k.carved block ∈ k.slab.obtained) ∧
    ∀ pages block, (k.allocBlock pages).1 = some block →
      block &&& 0x3f = 0 ∧ block ≠ slabBase block ∧ ∀ b ∈ k.slab.live, b ≠ block := by
  have hlinked := reachable_linked h
  constructor
  · intro block hblock
    have hcarved := hlinked.carved block hblock
    refine ⟨hcarved, ?_⟩
    rw [← hcarved]
    exact (((reachable_inv hlinked.slab).live block).mp hblock).slab
  · intro pages block hanswer
    obtain ⟨haligned, hheader, hfresh, -, -⟩ := hlinked.answered hanswer
    exact ⟨haligned, hheader, fun b hb => ne_of_mem_of_not_mem hb hfresh⟩

end Kernel

/-- Both allocators at their start, with a base of `0x4000`. -/
def booted : Kernel where
  slab := boot
  fba :=
    { fba := (FbaAlloc.fbaInit FbaAlloc.uninitialised 0x4000 0x8000 (fun _ => 0) fun _ => 0).2
      live := fun _ => false }
  carved := fun _ => 0

theorem booted_reachable : Reachable slabOverFba booted := by
  apply Reachable.start
  refine ⟨⟨rfl, rfl, rfl, rfl⟩, ⟨⟨0x4000, 0x8000, fun _ => 0, fun _ => 0, by decide, ?_⟩, ?_⟩, rfl⟩
  · exact Prod.ext (by decide) rfl
  · exact fun _ => rfl

/-- The second block of the first slab. -/
theorem blocks_are_apart_second :
    (booted.allocBlock fun _ => 0).2.slab.live = [0x8040] ∧
      slabBase 0x8040 = (booted.allocBlock fun _ => 0).2.carved 0x8040 ∧
      ((booted.allocBlock fun _ => 0).2.allocBlock fun _ => 0).1 = some 0x8080 ∧
      (0x8080 : BitVec 64) &&& 0x3f = 0 ∧ (0x8080 : BitVec 64) ≠ slabBase 0x8080 := by
  have hlive : (booted.allocBlock fun _ => 0).2.slab.live = [0x8040] := by decide +kernel
  have hanswer : ((booted.allocBlock fun _ => 0).2.allocBlock fun _ => 0).1 = some 0x8080 := by
    decide +kernel
  have hreach : Reachable slabOverFba (booted.allocBlock fun _ => 0).2 :=
    booted_reachable.next (a := .alloc fun _ => 0) ⟨trivial, 0, rfl⟩
  obtain ⟨hcarved, happart⟩ := blocks_are_apart hreach
  obtain ⟨haligned, hheader, -⟩ := happart (fun _ => 0) 0x8080 hanswer
  exact ⟨hlive, (hcarved 0x8040 (by rw [hlive]; exact List.mem_cons_self)).1, hanswer, haligned,
    hheader⟩

end SlabBlocks
