import AnosKernel.Lib.Runs
import AnosKernel.PageAlloc

/-!
# No page is handed out twice

Runs of the page allocator from the state built out of the boot memory map. Beside the
region the world records every live allocation as the list of the pages handed out for
it. Everything rests on one conservation law: the free pages and the live pages together
are always the same pages, each of them once.

Splitting a block for more than one page breaks the law, since the remainder then starts
inside the pages just handed out. So does an entry of the memory map that rounds to an
end below its start. The safety result is about the runs that do neither.
-/

namespace PageOwnership

open PageAlloc Runs

structure World where
  region : MemoryRegion
  live : List (List (BitVec 64))

inductive Op
  | alloc
  | allocM (count : BitVec 64)
  | free (page : BitVec 64)
  deriving DecidableEq, Repr

/-- Callers ask for at least one page and free only pages that are live. -/
def Valid (w : World) : Op → Prop
  | .alloc => True
  | .allocM count => 1 ≤ count
  | .free page => page ∈ w.live.flatten

/-- The pages a call hands out: none when it fails, which it reports by `0xFF`. -/
def handed (w : World) : Op → List (BitVec 64)
  | .alloc => if (pageAlloc w.region).1 = 0xFF then [] else [(pageAlloc w.region).1]
  | .allocM count =>
    if (pageAllocM w.region count).1 = 0xFF then []
    else pageRun (pageAllocM w.region count).1 count.toNat
  | .free _ => []

def exec (w : World) (op : Op) : World :=
  match op with
  | .alloc => { region := (pageAlloc w.region).2, live := handed w op :: w.live }
  | .allocM count => { region := (pageAllocM w.region count).2, live := handed w op :: w.live }
  | .free page => { region := pageFree w.region page, live := w.live.map (·.erase page) }

/-- Every page handed out was free, is free no longer, and is in no other live allocation. -/
def HandsOutFresh (w : World) (op : Op) : Prop :=
  (handed w op).Nodup ∧ ∀ page ∈ handed w op,
    page ∈ freePages w.region ∧ page ∉ freePages (exec w op).region ∧
      ∀ allocation ∈ w.live, page ∉ allocation

/-- Two entries share no address. -/
def Apart (e f : MemMapEntry) : Prop :=
  e.base.toNat + e.length.toNat ≤ f.base.toNat ∨ f.base.toNat + f.length.toNat ≤ e.base.toNat

def boot (memmap : List MemMapEntry) (managedBase : BitVec 64) (reclaimExecMods : Bool) : World where
  region := pageAllocInitLimine memmap managedBase reclaimExecMods
  live := []

def system (start : World) : System World Op := System.ofExec (· = start) Valid exec

/-! ## Conservation -/

structure Inv (w : World) : Prop where
  sized : WellSized w.region
  nodup : (freePages w.region ++ w.live.flatten).Nodup
  aligned : ∀ page ∈ freePages w.region ++ w.live.flatten, page &&& 0xFFF = 0

theorem Inv.free_nodup {w : World} (inv : Inv w) : (freePages w.region).Nodup :=
  (List.nodup_append.mp inv.nodup).1

/-- Moving pages from the free side to a new live allocation. -/
theorem Inv.handOut {w w' : World} (inv : Inv w) {pages : List (BitVec 64)}
    (sized : WellSized w'.region) (hlive : w'.live = pages :: w.live)
    (hperm : (freePages w.region).Perm (pages ++ freePages w'.region)) : Inv w' := by
  have htotal : (freePages w.region ++ w.live.flatten).Perm
      (freePages w'.region ++ w'.live.flatten) := by
    rw [hlive, List.flatten_cons]
    refine (hperm.append_right _).trans ?_
    rw [List.append_assoc]
    exact List.perm_append_comm_assoc _ _ _
  exact ⟨sized, htotal.nodup_iff.mp inv.nodup,
    fun page hp => inv.aligned page (htotal.mem_iff.mpr hp)⟩

/-- Pages taken off the free side are free no longer and were never live. -/
theorem Inv.fresh_of_perm {w : World} (inv : Inv w) {pages rest : List (BitVec 64)}
    (hperm : (freePages w.region).Perm (pages ++ rest)) :
    pages.Nodup ∧ ∀ page ∈ pages, page ∈ freePages w.region ∧ page ∉ rest ∧
      ∀ allocation ∈ w.live, page ∉ allocation := by
  obtain ⟨hpages, _, happart⟩ := List.nodup_append.mp (hperm.nodup_iff.mp inv.free_nodup)
  refine ⟨hpages, fun page hp => ?_⟩
  have hfree : page ∈ freePages w.region := hperm.mem_iff.mpr (List.mem_append_left _ hp)
  refine ⟨hfree, fun hrest => happart page hp page hrest rfl, ?_⟩
  intro allocation halloc hpage
  exact (List.nodup_append.mp inv.nodup).2.2 page hfree page
    (List.mem_flatten.mpr ⟨allocation, halloc, hpage⟩) rfl

/-- A page of the pool is never the failure code. -/
theorem Inv.ne_failure {w : World} (inv : Inv w) {page : BitVec 64}
    (h : page ∈ freePages w.region) : page ≠ 0xFF := by
  rintro rfl
  exact absurd (inv.aligned 0xFF (List.mem_append_left _ h)) (by decide)

theorem alloc_perm {w : World} (inv : Inv w) :
    (freePages w.region).Perm (handed w .alloc ++ freePages (exec w .alloc).region) := by
  by_cases hs : w.region.stack = []
  · simp [handed, exec, pageAlloc_empty hs]
  · have hperm := pageAlloc_perm inv.sized hs
    have hne := inv.ne_failure (hperm.mem_iff.mpr List.mem_cons_self)
    simpa only [handed, if_neg hne, exec, List.singleton_append] using hperm

theorem allocM_perm {w : World} (inv : Inv w) {count : BitVec 64} (pos : 1 ≤ count)
    (only : SplitsOnlySingles w.region count) :
    (freePages w.region).Perm
      (handed w (.allocM count) ++ freePages (exec w (.allocM count)).region) := by
  cases hfit : firstFit count w.region.stack with
  | none => simp [handed, exec, pageAllocM_none hfit]
  | some i =>
    have hperm := pageAllocM_perm inv.sized only hfit
    have hpos : 0 < count.toNat := by bv_omega
    have hfirst : (pageAllocM w.region count).1 ∈
        pageRun (pageAllocM w.region count).1 count.toNat := mem_pageRun.mpr ⟨0, hpos, by simp⟩
    have hne := inv.ne_failure (hperm.mem_iff.mpr (List.mem_append_left _ hfirst))
    simpa only [handed, if_neg hne, exec] using hperm

/-- Erasing a page everywhere erases it once where the pages are all different. -/
theorem flatten_erase_perm {live : List (List (BitVec 64))} {page : BitVec 64}
    (nodup : live.flatten.Nodup) (h : page ∈ live.flatten) :
    live.flatten.Perm (page :: (live.map (·.erase page)).flatten) := by
  have herase : (live.map (·.erase page)).flatten = live.flatten.erase page := by
    clear h
    induction live with
    | nil => rfl
    | cons first rest ih =>
      simp only [List.map_cons, List.flatten_cons] at nodup ⊢
      obtain ⟨_, hrest, happart⟩ := List.nodup_append.mp nodup
      rw [ih hrest]
      by_cases hmem : page ∈ first
      · have hout : page ∉ rest.flatten := fun hp => happart page hmem page hp rfl
        rw [List.erase_append_left _ hmem, List.erase_of_not_mem hout]
      · rw [List.erase_append_right _ hmem, List.erase_of_not_mem hmem]
  rw [herase]
  exact List.perm_cons_erase h

theorem Inv.free {w : World} (inv : Inv w) {page : BitVec 64} (h : page ∈ w.live.flatten) :
    Inv (exec w (.free page)) := by
  obtain ⟨hfree, hlive, happart⟩ := List.nodup_append.mp inv.nodup
  have haligned := inv.aligned page (List.mem_append_right _ h)
  have hout : page ∉ freePages w.region := fun hp => happart page hp page h rfl
  have hperm := pageFree_perm inv.sized haligned hfree hout
  have htotal : (freePages w.region ++ w.live.flatten).Perm
      (freePages (exec w (.free page)).region ++ (exec w (.free page)).live.flatten) := by
    refine ((flatten_erase_perm hlive h).append_left _).trans ?_
    refine List.perm_middle.trans ?_
    exact (hperm.symm.append_right _)
  exact ⟨pageFree_sized inv.sized haligned hfree, htotal.nodup_iff.mp inv.nodup,
    fun p hp => inv.aligned p (htotal.mem_iff.mpr hp)⟩

/-! ## Runs -/

/-- The step that goes wrong: splitting a block for more than one page. -/
def Guard (w : World) : Op → Prop
  | .alloc => True
  | .allocM count => SplitsOnlySingles w.region count
  | .free _ => True

theorem Inv.exec {w : World} {op : Op} (inv : Inv w) (valid : Valid w op) (guard : Guard w op) :
    Inv (exec w op) := by
  cases op with
  | alloc => exact inv.handOut (pageAlloc_sized inv.sized) rfl (alloc_perm inv)
  | allocM count =>
    exact inv.handOut (pageAllocM_sized inv.sized) rfl (allocM_perm inv valid guard)
  | free page => exact inv.free valid

theorem Inv.handsOutFresh {w : World} {op : Op} (inv : Inv w) (valid : Valid w op)
    (guard : Guard w op) : HandsOutFresh w op := by
  cases op with
  | alloc => exact inv.fresh_of_perm (alloc_perm inv)
  | allocM count => exact inv.fresh_of_perm (allocM_perm inv valid guard)
  | free page => exact ⟨List.nodup_nil, fun p hp => absurd hp List.not_mem_nil⟩

/-- One turn of the initialisation loop keeps the pages apart: those stacked so far come from
earlier entries, and accepted entries share no address. -/
theorem addEntry_inv {managedBase : BitVec 64} {reclaimExecMods : Bool}
    (managed : managedBase &&& 0xFFF = 0) {region : MemoryRegion} {entry : MemMapEntry}
    (inward : accepted reclaimExecMods entry → RoundsInward managedBase entry)
    (inv : Inv ⟨region, []⟩)
    (earlier : accepted reclaimExecMods entry → ∀ page ∈ freePages region,
      page.toNat < entry.base.toNat ∨ entry.base.toNat + entry.length.toNat ≤ page.toNat) :
    Inv ⟨addEntry managedBase reclaimExecMods region entry, []⟩ ∧
      ∀ page ∈ freePages (addEntry managedBase reclaimExecMods region entry),
        page ∈ freePages region ∨ (accepted reclaimExecMods entry ∧
          entry.base.toNat ≤ page.toNat ∧ page.toNat < entry.base.toNat + entry.length.toNat) := by
  rcases addEntry_stack region managed inward with
    hsame | ⟨block, hstack, hacc, hsize, hnodup, hpages⟩
  · have hfree : freePages (addEntry managedBase reclaimExecMods region entry) =
        freePages region := by rw [freePages, hsame, freePages]
    refine ⟨⟨fun b hb => inv.sized b (hsame ▸ hb), ?_, ?_⟩, fun page hp => Or.inl (hfree ▸ hp)⟩
    · simpa only [hfree] using inv.nodup
    · simpa only [hfree] using inv.aligned
  · have hfree : freePages (addEntry managedBase reclaimExecMods region entry) =
        block.pages ++ freePages region := by
      rw [freePages, hstack, List.flatMap_cons, freePages]
    have hold := inv.nodup
    have haligned := inv.aligned
    simp only [List.flatten_nil, List.append_nil] at hold haligned
    refine ⟨⟨?_, ?_, ?_⟩, ?_⟩
    · intro b hb
      rcases List.mem_cons.mp (hstack ▸ hb) with rfl | hb
      · exact hsize
      · exact inv.sized b hb
    · simp only [hfree, List.flatten_nil, List.append_nil]
      refine List.nodup_append.mpr ⟨hnodup, hold, ?_⟩
      rintro p hp q hq rfl
      have hin := (hpages p hp).2
      rcases earlier hacc p hq with h | h <;> omega
    · simp only [hfree, List.flatten_nil, List.append_nil, List.mem_append]
      rintro p (hp | hp)
      · exact (hpages p hp).1
      · exact haligned p hp
    · intro page hp
      rw [hfree] at hp
      rcases List.mem_append.mp hp with hp | hp
      · exact Or.inr ⟨hacc, (hpages page hp).2⟩
      · exact Or.inl hp

theorem boot_inv {memmap : List MemMapEntry} {managedBase : BitVec 64} {reclaimExecMods : Bool}
    (apart : (memmap.filter (accepted reclaimExecMods)).Pairwise Apart)
    (managed : managedBase &&& 0xFFF = 0)
    (inward : ∀ entry ∈ memmap, accepted reclaimExecMods entry → RoundsInward managedBase entry) :
    Inv (boot memmap managedBase reclaimExecMods) := by
  -- the entries still to come are apart from every page stacked so far
  have main : ∀ (rest : List MemMapEntry) (region : MemoryRegion),
      (rest.filter (accepted reclaimExecMods)).Pairwise Apart →
      (∀ entry ∈ rest, accepted reclaimExecMods entry → RoundsInward managedBase entry) →
      Inv ⟨region, []⟩ →
      (∀ entry ∈ rest, accepted reclaimExecMods entry → ∀ page ∈ freePages region,
        page.toNat < entry.base.toNat ∨ entry.base.toNat + entry.length.toNat ≤ page.toNat) →
      Inv ⟨rest.foldl (addEntry managedBase reclaimExecMods) region, []⟩ := by
    intro rest
    induction rest with
    | nil => exact fun _ _ _ inv _ => inv
    | cons entry rest ih =>
      intro region happart hinward inv hout
      obtain ⟨inv', hnew⟩ := addEntry_inv managed (hinward entry List.mem_cons_self) inv
        (hout entry List.mem_cons_self)
      refine ih _ ?_ (fun e he => hinward e (List.mem_cons_of_mem _ he)) inv' ?_
      · by_cases hacc : accepted reclaimExecMods entry
        · rw [List.filter_cons_of_pos hacc] at happart
          exact happart.of_cons
        · rwa [List.filter_cons_of_neg hacc] at happart
      · intro e he hacc' page hp
        rcases hnew page hp with hold | ⟨hacc, hlow, hhigh⟩
        · exact hout e (List.mem_cons_of_mem _ he) hacc' page hold
        · rw [List.filter_cons_of_pos hacc] at happart
          have hsep := List.rel_of_pairwise_cons happart (List.mem_filter.mpr ⟨he, hacc'⟩)
          rcases hsep with h | h
          · exact Or.inl (by omega)
          · exact Or.inr (by omega)
  refine main memmap _ apart inward ⟨?_, ?_, ?_⟩ ?_
  · simp [WellSized]
  · simp [freePages]
  · simp [freePages]
  · simp [freePages]

/-- In every run in which no block is split for more than one page, from a map whose accepted
entries round to whole pages, every call hands out pages that were free and are nobody else's. -/
theorem guarded_runs_hand_out_fresh {memmap : List MemMapEntry} {managedBase : BitVec 64}
    {reclaimExecMods : Bool}
    (apart : (memmap.filter (accepted reclaimExecMods)).Pairwise Apart)
    (managed : managedBase &&& 0xFFF = 0)
    (inward : ∀ entry ∈ memmap, accepted reclaimExecMods entry → RoundsInward managedBase entry)
    {w : World}
    (run : Reachable ((system (boot memmap managedBase reclaimExecMods)).restrict Guard) w)
    {op : Op} (valid : Valid w op) (guard : Guard w op) : HandsOutFresh w op := by
  have inv : Inv w := by
    refine run.invariant Inv ?_ ?_
    · rintro s rfl
      exact boot_inv apart managed inward
    · rintro s a t hs ⟨hguard, hvalid, rfl⟩
      exact hs.exec hvalid hguard
  exact inv.handsOutFresh valid guard

/-- Three usable pages from `0x8000`. -/
def threePages : List MemMapEntry := [⟨0x8000, 0x3000, .usable, by decide⟩]

/-- The result applies to the three-page map: `page_alloc_m` of all three pages at once, where
no block is split, hands out `0x8000`, `0x9000` and `0xA000`. -/
theorem guarded_runs_hand_out_fresh_three_pages :
    handed (boot threePages 0 false) (.allocM 3) = [0x8000, 0x9000, 0xA000] ∧
      HandsOutFresh (boot threePages 0 false) (.allocM 3) := by
  refine ⟨by decide, @guarded_runs_hand_out_fresh threePages 0 false ?_ (by decide) ?_ _
    (.start rfl) (.allocM 3) (by decide : (1 : BitVec 64) ≤ 3) ?_⟩
  · simp [threePages, accepted]
  · intro entry he _
    obtain rfl : entry = ⟨0x8000, 0x3000, .usable, by decide⟩ := by simpa [threePages] using he
    exact Or.inl (by decide)
  · intro i ptr hfit hget hbig
    have hstack : (boot threePages 0 false).region.stack = [⟨0x8000, 3⟩] := by decide
    obtain rfl : 0 = i := by rw [hstack] at hfit; exact Option.some.inj hfit
    obtain rfl : ⟨0x8000, 3⟩ = ptr := by rw [hstack] at hget; exact Option.some.inj hget
    exact absurd hbig (by decide)

/-- Asking the three-page map for two pages hands out `0x8000` and `0x9000` and leaves
`0x9000` in the remainder. -/
theorem split_hands_out_a_free_page :
    ¬ ∀ (memmap : List MemMapEntry) (managedBase : BitVec 64) (reclaimExecMods : Bool),
      (memmap.filter (accepted reclaimExecMods)).Pairwise Apart → managedBase &&& 0xFFF = 0 →
        ∀ w, Reachable (system (boot memmap managedBase reclaimExecMods)) w →
          ∀ op, Valid w op → HandsOutFresh w op := by
  intro h
  have hfresh := h threePages 0 false (by simp [threePages, accepted]) (by decide)
    (boot threePages 0 false) (.start rfl) (.allocM 2) (by decide : (1 : BitVec 64) ≤ 2)
  have hmem : (0x9000 : BitVec 64) ∈ handed (boot threePages 0 false) (.allocM 2) := by decide
  exact (hfresh.2 0x9000 hmem).2.1 (by decide)

end PageOwnership
