import AnosKernel.ProcessMemory
import AnosKernel.Lib.Counting

/-!
# Pages are freed when nobody is left to use them

The first owner of a page is not counted and every other reference is, so the owners of a page
and the mappings that rest on a count are at most one more than its count. A page that is
given up at count zero has therefore no other holder. At count one it may have: the code frees
it there too, which is right only if the reference that is counted is the one given up. The
safety result is about the runs in which a page given up at count one has no other holder.
-/

namespace PageSharing

open Runs Counting ProcessMemory

section Holders

variable {P V : Type} [Fintype P] [Fintype V]

/-- The entries for a page in the lists of owned pages. -/
def owners (s : State P V) (page : BitVec 64) : Nat := total fun proc => (s.owned proc).count page

/-- A mapping by a live process that rests on a reference count: it is copy-on-write, or of a
page the process does not own. -/
def rests (s : State P V) (page : BitVec 64) (place : P × V) : Bool :=
  s.live place.1 && (s.mapping place.1 place.2).any fun pte =>
    pte.phys == page && (pte.copyOnWrite || !(s.owned place.1).contains page)

def sharers (s : State P V) (page : BitVec 64) : Nat := count (rests s page)

def counted (s : State P V) (page : BitVec 64) : Nat := ((s.refCount page).map BitVec.toNat).getD 0

/-- No process owns the page and no live process maps it. -/
def Unheld (s : State P V) (page : BitVec 64) : Prop :=
  (∀ proc, page ∉ s.owned proc) ∧ isMapped s page = false

structure Books (kernelZeroPage : BitVec 64) (s : State P V) : Prop where
  bound : ∀ page, s.allocated page → owners s page + sharers s page ≤ counted s page + 1
  clean : ∀ page, page ≠ kernelZeroPage → s.allocated page = false →
    owners s page = 0 ∧ sharers s page = 0 ∧ s.refCount page = none
  zeroPage : s.allocated kernelZeroPage = false ∧ owners s kernelZeroPage = 0
  positive : ∀ page, s.refCount page ≠ some 0
  frees : ∀ f ∈ s.frees, f.allocated ∧ ¬ f.mapped

omit [Fintype P] [Fintype V] in
theorem rests_iff {s : State P V} {page : BitVec 64} {proc : P} {v : V} :
    rests s page (proc, v) ↔ s.live proc ∧ ∃ pte, s.mapping proc v = some pte ∧
      pte.phys = page ∧ (pte.copyOnWrite ∨ page ∉ s.owned proc) := by
  simp [rests, Option.any_eq_true]

theorem isMapped_iff {s : State P V} {page : BitVec 64} :
    isMapped s page ↔ ∃ proc v pte, s.live proc ∧ s.mapping proc v = some pte ∧ pte.phys = page := by
  simp only [isMapped, decide_eq_true_eq, Option.map_eq_some_iff]
  constructor
  · rintro ⟨proc, v, hlive, pte, hpte, hpage⟩
    exact ⟨proc, v, pte, hlive, hpte, hpage⟩
  · rintro ⟨proc, v, pte, hlive, hpte, hpage⟩
    exact ⟨proc, v, hlive, pte, hpte, hpage⟩

omit [Fintype V] in
theorem owners_eq_zero_iff {s : State P V} {page : BitVec 64} :
    owners s page = 0 ↔ ∀ proc, page ∉ s.owned proc := by
  simp [owners, total_eq_zero_iff, List.count_eq_zero]

theorem sharers_eq_zero_iff {s : State P V} {page : BitVec 64} :
    sharers s page = 0 ↔ ∀ proc v, ¬ rests s page (proc, v) := by
  simp [sharers, count_eq_zero_iff]

/-- Without owners, every mapping rests on a count. -/
theorem unheld_iff {s : State P V} {page : BitVec 64} :
    Unheld s page ↔ owners s page = 0 ∧ sharers s page = 0 := by
  rw [Unheld, owners_eq_zero_iff, sharers_eq_zero_iff]
  refine and_congr_right fun howners => ?_
  constructor
  · intro hunmapped proc v hrests
    obtain ⟨hlive, pte, hpte, hpage, -⟩ := rests_iff.mp hrests
    have hmapped := isMapped_iff.mpr ⟨proc, v, pte, hlive, hpte, hpage⟩
    simp [hunmapped] at hmapped
  · intro hnone
    by_contra hmapped
    obtain ⟨proc, v, pte, hlive, hpte, hpage⟩ :=
      isMapped_iff.mp (Bool.eq_true_of_not_eq_false hmapped)
    exact hnone proc v (rests_iff.mpr ⟨hlive, pte, hpte, hpage, Or.inr (howners proc)⟩)

end Holders

/-! ## Changes of one place -/

section Changes

variable {P V : Type} [DecidableEq P] [DecidableEq V] [Fintype P] [Fintype V]
variable {s s' : State P V} {proc : P} {v : V} {page : BitVec 64} {kernelZeroPage : BitVec 64}

omit [Fintype P] [Fintype V] in
theorem rests_setMapping_of_ne {pte : Option Pte} {place : P × V} (h : place ≠ (proc, v)) :
    rests (s.setMapping proc v pte) page place = rests s page place := by
  obtain ⟨q, w⟩ := place
  rcases eq_or_ne q proc with rfl | hq
  · have hw : w ≠ v := by
      rintro rfl
      exact h rfl
    simp [rests, State.setMapping, hw]
  · simp [rests, State.setMapping, hq]

theorem sharers_setMapping (pte : Option Pte) :
    sharers (s.setMapping proc v pte) page + (rests s page (proc, v)).toNat =
      sharers s page + (rests (s.setMapping proc v pte) page (proc, v)).toNat :=
  count_change (proc, v) fun _ hplace => rests_setMapping_of_ne hplace

omit [DecidableEq V] [Fintype V] in
theorem owners_setOwned (pages : List (BitVec 64)) :
    owners (s.setOwned proc pages) page + (s.owned proc).count page =
      owners s page + pages.count page := by
  have hchange : owners (s.setOwned proc pages) page + (s.owned proc).count page =
      owners s page + ((s.setOwned proc pages).owned proc).count page :=
    @total_change P _ _ (fun q => (s.owned q).count page)
      (fun q => ((s.setOwned proc pages).owned q).count page) proc
      (fun q hq => by simp [State.setOwned, hq])
  simpa [State.setOwned] using hchange

omit [DecidableEq V] in
/-- Owning more makes no mapping rest on a count. -/
theorem sharers_setOwned_le {pages : List (BitVec 64)}
    (more : page ∈ s.owned proc → page ∈ pages) :
    sharers (s.setOwned proc pages) page ≤ sharers s page := by
  refine count_mono fun ⟨q, w⟩ hrests => ?_
  obtain ⟨hlive, pte, hpte, hpage, hcow⟩ := rests_iff.mp hrests
  refine rests_iff.mpr ⟨hlive, pte, hpte, hpage, hcow.imp_right fun hnot hmem => hnot ?_⟩
  rcases eq_or_ne q proc with rfl | hq
  · simpa [State.setOwned] using more hmem
  · simpa [State.setOwned, hq] using hmem

omit [DecidableEq V] in
/-- Nor does owning less, where the process does not map the page. -/
theorem sharers_setOwned_of_unmapped {pages : List (BitVec 64)}
    (unmapped : s.live proc → ∀ w pte, s.mapping proc w = some pte → pte.phys ≠ page) :
    sharers (s.setOwned proc pages) page = sharers s page := by
  refine congrArg count (funext fun ⟨q, w⟩ => Bool.eq_iff_iff.mpr ?_)
  rw [rests_iff, rests_iff]
  rcases eq_or_ne q proc with rfl | hq
  · constructor <;> rintro ⟨hlive, pte, hpte, hpage, -⟩ <;>
      exact absurd hpage (unmapped hlive w pte hpte)
  · simp [State.setOwned, hq]

omit [DecidableEq P] [DecidableEq V] in
/-- A step after which nothing is held more than before. -/
theorem Books.of_le (h : Books kernelZeroPage s) (owned : ∀ p, owners s' p ≤ owners s p)
    (shared : ∀ p, p ≠ kernelZeroPage → sharers s' p ≤ sharers s p)
    (refCount : s'.refCount = s.refCount)
    (allocated : s'.allocated = s.allocated) (frees : s'.frees = s.frees) :
    Books kernelZeroPage s' := by
  have hcounted : ∀ p, counted s' p = counted s p := fun p => by rw [counted, counted, refCount]
  constructor
  · intro p hp
    rw [allocated] at hp
    have hne : p ≠ kernelZeroPage := by
      rintro rfl
      simp [h.zeroPage.1] at hp
    have hbound := h.bound p hp
    have howned := owned p
    have hshared := shared p hne
    rw [hcounted]
    omega
  · intro p hne hp
    rw [allocated] at hp
    obtain ⟨hzero, hnone, hcount⟩ := h.clean p hne hp
    exact ⟨Nat.le_zero.mp (hzero ▸ owned p), Nat.le_zero.mp (hnone ▸ shared p hne),
      refCount ▸ hcount⟩
  · exact ⟨allocated ▸ h.zeroPage.1, Nat.le_zero.mp (h.zeroPage.2 ▸ owned kernelZeroPage)⟩
  · exact refCount ▸ h.positive
  · exact frees ▸ h.frees

/-- A mapping is replaced by one that rests on no count it did not rest on before. -/
theorem Books.setMapping (h : Books kernelZeroPage s) (pte : Option Pte)
    (rest : ∀ p, p ≠ kernelZeroPage → rests (s.setMapping proc v pte) p (proc, v) →
      rests s p (proc, v)) : Books kernelZeroPage (s.setMapping proc v pte) := by
  refine h.of_le (fun _ => le_rfl) (fun p hne => ?_) rfl rfl rfl
  have hchange : sharers (s.setMapping proc v pte) p + (rests s p (proc, v)).toNat =
      sharers s p + (rests (s.setMapping proc v pte) p (proc, v)).toNat := sharers_setMapping pte
  cases hrests : rests (s.setMapping proc v pte) p (proc, v) with
  | false =>
    rw [hrests, Bool.toNat_false] at hchange
    omega
  | true =>
    rw [hrests, rest p hne hrests] at hchange
    omega

/-- A process maps a page it owns. -/
theorem Books.map (h : Books kernelZeroPage s) (owns : page ∈ s.owned proc) :
    Books kernelZeroPage
      (vmmMapPage s proc v { phys := page, write := true, copyOnWrite := false }) := by
  refine h.setMapping _ fun p _ hrests => ?_
  obtain ⟨-, pte, hpte, hpage, hcow⟩ := rests_iff.mp hrests
  obtain rfl : _ = pte := by simpa [State.setMapping] using hpte
  obtain rfl : page = p := hpage
  rcases hcow with hcow | hnot
  · simp at hcow
  · exact absurd owns hnot

theorem Books.unmap (h : Books kernelZeroPage s) : Books kernelZeroPage (vmmUnmapPage s proc v) := by
  refine h.setMapping _ fun p _ hrests => ?_
  obtain ⟨-, pte, hpte, -⟩ := rests_iff.mp hrests
  simp [State.setMapping] at hpte

omit [DecidableEq P] [DecidableEq V] in
/-- A page that is not allocated and not the zero page is not held. -/
theorem Books.unheld (h : Books kernelZeroPage s) (fresh : Fresh kernelZeroPage s page) :
    Unheld s page ∧ s.refCount page = none := by
  obtain ⟨howners, hsharers, hcount⟩ := h.clean page fresh.2 fresh.1
  exact ⟨unheld_iff.mpr ⟨howners, hsharers⟩, hcount⟩

omit [DecidableEq P] [DecidableEq V] in
theorem Books.kernelAlloc (h : Books kernelZeroPage s) (fresh : Fresh kernelZeroPage s page) :
    Books kernelZeroPage { s with allocated := Function.update s.allocated page true } := by
  obtain ⟨howners, hsharers, -⟩ := h.clean page fresh.2 fresh.1
  have hother : ∀ p, p ≠ page →
      Function.update s.allocated page true p = s.allocated p := fun p hne =>
    Function.update_of_ne hne _ _
  constructor
  · intro p hp
    rcases eq_or_ne p page with rfl | hne
    · have howners' : owners { s with allocated := Function.update s.allocated p true } p = 0 :=
        howners
      have hsharers' : sharers { s with allocated := Function.update s.allocated p true } p = 0 :=
        hsharers
      omega
    · exact h.bound p ((hother p hne).symm.trans hp)
  · intro p hzero hp
    have hne : p ≠ page := by
      rintro rfl
      simp at hp
    exact h.clean p hzero ((hother p hne).symm.trans hp)
  · exact ⟨(hother _ fresh.2.symm).trans h.zeroPage.1, h.zeroPage.2⟩
  · exact h.positive
  · exact h.frees

/-! ## Counts -/

omit [DecidableEq P] [DecidableEq V] in
/-- A counted reference more, for at most one holder more. -/
theorem Books.count_up (h : Books kernelZeroPage s) {n : BitVec 32}
    (more : n.toNat = counted s page + 1) (known : s.allocated page ∨ page = kernelZeroPage)
    (held : ∀ p, p ≠ kernelZeroPage →
      owners s' p + sharers s' p ≤ owners s p + sharers s p + if p = page then 1 else 0)
    (zeroPage : owners s' kernelZeroPage = 0)
    (refCount : s'.refCount = Function.update s.refCount page (some n))
    (allocated : s'.allocated = s.allocated) (frees : s'.frees = s.frees) :
    Books kernelZeroPage s' := by
  constructor
  · intro p hp
    rw [allocated] at hp
    have hne : p ≠ kernelZeroPage := by
      rintro rfl
      simp [h.zeroPage.1] at hp
    have hbound := h.bound p hp
    have hheld := held p hne
    rcases eq_or_ne p page with rfl | hother
    · have hcounted : counted s' p = counted s p + 1 := by simp [counted, refCount, more]
      rw [if_pos rfl] at hheld
      omega
    · have hcounted : counted s' p = counted s p := by simp [counted, refCount, hother]
      rw [if_neg hother] at hheld
      omega
  · intro p hne hp
    rw [allocated] at hp
    obtain ⟨howners, hsharers, hnone⟩ := h.clean p hne hp
    have hother : p ≠ page := by
      rintro rfl
      rcases known with hknown | hknown
      · simp [hp] at hknown
      · exact hne hknown
    have hheld := held p hne
    rw [if_neg hother] at hheld
    exact ⟨by omega, by omega, by simpa [refCount, hother] using hnone⟩
  · exact ⟨allocated ▸ h.zeroPage.1, zeroPage⟩
  · intro p hzero
    rcases eq_or_ne p page with rfl | hother
    · have hn : n = 0 := by simpa [refCount] using hzero
      simp [hn] at more
    · exact h.positive p (by simpa [refCount, hother] using hzero)
  · exact frees ▸ h.frees

/-- An increment that is neither refused nor at the end of the range. -/
theorem refcountMapIncrement_eq {counts : BitVec 64 → Option (BitVec 32)} {addr : BitVec 64}
    {entry : Bool} (room : counts addr ≠ some 0xffffffff)
    (made : counts addr = none → entry = true) :
    ∃ n : BitVec 32, refcountMapIncrement counts addr entry =
      (n, Function.update counts addr (some n)) ∧
        n.toNat = ((counts addr).map BitVec.toNat).getD 0 + 1 := by
  unfold refcountMapIncrement
  cases hcount : counts addr with
  | none => exact ⟨1, by simp [made hcount], rfl⟩
  | some n =>
    refine ⟨n + 1, rfl, ?_⟩
    have hne : n ≠ 0xffffffff := by
      rintro rfl
      exact room hcount
    simp only [Option.map_some, Option.getD_some]
    bv_omega

theorem refcountMapDecrement_none {counts : BitVec 64 → Option (BitVec 32)} {addr : BitVec 64}
    (h : counts addr = none) : refcountMapDecrement counts addr = (0, counts) := by
  simp [refcountMapDecrement, h]

theorem refcountMapDecrement_some {counts : BitVec 64 → Option (BitVec 32)} {addr : BitVec 64}
    {n : BitVec 32} (h : counts addr = some n) :
    refcountMapDecrement counts addr =
      (n, Function.update counts addr (if n = 1 then none else some (n - 1))) := by
  have hone : n - 1 = 0 ↔ n = 1 := by bv_omega
  simp only [refcountMapDecrement, h, hone]
  split_ifs with hn
  · rw [hn]
  · rw [BitVec.sub_add_cancel]

omit [DecidableEq P] [DecidableEq V] [Fintype P] [Fintype V] in
theorem counted_decrement (positive : ∀ p, s.refCount p ≠ some 0) (p : BitVec 64) :
    counted { s with refCount := (refcountMapDecrement s.refCount page).2 } p =
      counted s p - if p = page then 1 else 0 := by
  cases hrefs : s.refCount page with
  | none =>
    rw [refcountMapDecrement_none hrefs]
    rcases eq_or_ne p page with rfl | hne
    · simp [counted, hrefs]
    · simp [counted, hne]
  | some n =>
    have hpos : n ≠ 0 := by
      rintro rfl
      exact positive page hrefs
    rw [refcountMapDecrement_some hrefs]
    rcases eq_or_ne p page with rfl | hne
    · simp only [counted, Function.update_self, hrefs, if_true]
      split_ifs with hone
      · simp [hone]
      · simp only [Option.map_some, Option.getD_some]
        bv_omega
    · simp [counted, hne]

omit [DecidableEq P] [DecidableEq V] in
/-- A counted reference less, where the holders fit the count without the uncounted one. -/
theorem Books.uncount (h : Books kernelZeroPage s) {n : BitVec 32} (some_n : s.refCount page = some n)
    (slack : owners s page + sharers s page ≤ counted s page) :
    Books kernelZeroPage { s with refCount := (refcountMapDecrement s.refCount page).2 } := by
  have hother : ∀ p, p ≠ page → (refcountMapDecrement s.refCount page).2 p = s.refCount p := by
    intro p hne
    rw [refcountMapDecrement_some some_n]
    exact Function.update_of_ne hne _ _
  constructor
  · intro p hp
    have hcounted := @counted_decrement P V s page h.positive p
    have hbound := h.bound p hp
    rcases eq_or_ne p page with rfl | hne
    · rw [if_pos rfl] at hcounted
      rw [hcounted]
      have hheld : owners s p + sharers s p ≤ counted s p - 1 + 1 := by omega
      exact hheld
    · rw [if_neg hne] at hcounted
      rw [hcounted]
      exact hbound
  · intro p hzero hp
    obtain ⟨howners, hsharers, hnone⟩ := h.clean p hzero hp
    have hne : p ≠ page := by
      rintro rfl
      rw [hnone] at some_n
      cases some_n
    exact ⟨howners, hsharers, (hother p hne).trans hnone⟩
  · exact h.zeroPage
  · intro p
    rcases eq_or_ne p page with rfl | hne
    · simp only [refcountMapDecrement_some some_n, Function.update_self]
      split_ifs with hone
      · simp
      · have hmore : n - 1 ≠ 0 := by bv_omega
        simpa using hmore
    · simp only [hother p hne]
      exact h.positive p
  · exact h.frees

omit [DecidableEq P] [DecidableEq V] in
/-- Freeing an allocated page that nobody holds or counts. -/
theorem Books.free (h : Books kernelZeroPage s) (unheld : Unheld s page)
    (uncounted : s.refCount page = none) (allocated : s.allocated page) :
    Books kernelZeroPage (pageFree s page) := by
  obtain ⟨howners, hsharers⟩ := unheld_iff.mp unheld
  have hother : ∀ p, p ≠ page → (pageFree s page).allocated p = s.allocated p := fun p hne =>
    Function.update_of_ne hne _ _
  constructor
  · intro p hp
    have hne : p ≠ page := by
      rintro rfl
      simp [pageFree] at hp
    exact h.bound p ((hother p hne).symm.trans hp)
  · intro p hzero hp
    rcases eq_or_ne p page with rfl | hne
    · exact ⟨howners, hsharers, uncounted⟩
    · exact h.clean p hzero ((hother p hne).symm.trans hp)
  · refine ⟨?_, h.zeroPage.2⟩
    rcases eq_or_ne kernelZeroPage page with rfl | hne
    · simp [pageFree]
    · exact (hother _ hne).trans h.zeroPage.1
  · exact h.positive
  · intro f hf
    rcases List.mem_append.mp hf with hf | hf
    · exact h.frees f hf
    · simp [List.mem_singleton.mp hf, allocated, unheld.2]

/-! ## Taking pages on -/

omit [DecidableEq V] [Fintype V] in
theorem owners_append (s : State P V) (proc : P) (page p : BitVec 64) :
    owners (s.setOwned proc (s.owned proc ++ [page])) p =
      owners s p + if p = page then 1 else 0 := by
  have hchange : owners (s.setOwned proc (s.owned proc ++ [page])) p + (s.owned proc).count p =
      owners s p + (s.owned proc ++ [page]).count p := owners_setOwned _
  rw [List.count_append] at hchange
  rcases eq_or_ne p page with rfl | hne
  · rw [if_pos rfl]
    rw [List.count_singleton_self] at hchange
    omega
  · rw [if_neg hne]
    rw [List.count_eq_zero.mpr (by simpa using hne : p ∉ [page])] at hchange
    omega

omit [DecidableEq V] in
theorem sharers_append_le (s : State P V) (proc : P) (page p : BitVec 64) :
    sharers (s.setOwned proc (s.owned proc ++ [page])) p ≤ sharers s p :=
  sharers_setOwned_le fun hmem => List.mem_append_left _ hmem

omit [DecidableEq V] in
/-- The first owner of a page, not counted. -/
theorem Books.own (h : Books kernelZeroPage s) (unheld : Unheld s page)
    (allocated : s.allocated page) :
    Books kernelZeroPage (s.setOwned proc (s.owned proc ++ [page])) := by
  obtain ⟨hnone, hunshared⟩ := unheld_iff.mp unheld
  have hzero : kernelZeroPage ≠ page := by
    rintro rfl
    simp [h.zeroPage.1] at allocated
  constructor
  · intro p hp
    have hbound := h.bound p hp
    have howners := owners_append s proc page p
    have hsharers := sharers_append_le s proc page p
    have hcounted : counted (s.setOwned proc (s.owned proc ++ [page])) p = counted s p := rfl
    rcases eq_or_ne p page with rfl | hne
    · rw [if_pos rfl] at howners
      omega
    · rw [if_neg hne] at howners
      omega
  · intro p hne hp
    obtain ⟨howners, hsharers, hcount⟩ := h.clean p hne hp
    have hother : p ≠ page := by
      rintro rfl
      exact absurd (hp.symm.trans allocated) (by decide)
    refine ⟨?_, Nat.le_zero.mp (hsharers ▸ sharers_append_le s proc page p), hcount⟩
    rw [owners_append, if_neg hother, howners]
  · refine ⟨h.zeroPage.1, ?_⟩
    rw [owners_append, if_neg hzero, h.zeroPage.2]
  · exact h.positive
  · exact h.frees

omit [DecidableEq V] [Fintype P] [Fintype V] in
theorem processAddOwnedPage_unshared (allocs : Allocs) :
    processAddOwnedPage s proc page false allocs =
      if allocs.head ∧ allocs.block then (true, s.setOwned proc (s.owned proc ++ [page]))
      else (false, s) := by
  cases hhead : allocs.head <;> cases hblock : allocs.block <;>
    simp [processAddOwnedPage, hhead, hblock]

omit [DecidableEq V] [Fintype P] [Fintype V] in
theorem processAddOwnedPage_shared {allocs : Allocs} {n : BitVec 32}
    {counts : BitVec 64 → Option (BitVec 32)}
    (increment : refcountMapIncrement s.refCount page allocs.entry = (n, counts)) :
    processAddOwnedPage s proc page true allocs =
      if allocs.head then
        if n ≠ 0 ∧ allocs.block then
          (true, { s with refCount := counts }.setOwned proc (s.owned proc ++ [page]))
        else (false, { s with refCount := counts })
      else (false, s) := by
  cases hhead : allocs.head <;> cases hblock : allocs.block <;> by_cases hn : n = 0 <;>
    simp [processAddOwnedPage, hhead, hblock, increment, hn]

omit [DecidableEq V] in
/-- A further owner, counted; the reference stays counted where the entry cannot be made. -/
theorem Books.addShared (h : Books kernelZeroPage s) (allocs : Allocs)
    (allocated : s.allocated page) (room : s.refCount page ≠ some 0xffffffff) :
    Books kernelZeroPage (processAddOwnedPage s proc page true allocs).2 := by
  by_cases hentry : s.refCount page = none ∧ allocs.entry = false
  · have hrefused : refcountMapIncrement s.refCount page allocs.entry = (0, s.refCount) := by
      simp [refcountMapIncrement, hentry]
    rw [processAddOwnedPage_shared hrefused]
    split_ifs with hhead hmade
    · exact absurd rfl hmade.1
    · exact h
    · exact h
  · have hmade : s.refCount page = none → allocs.entry = true := fun hnone => by
      simpa [hnone] using hentry
    obtain ⟨n, hincrement, hn⟩ := refcountMapIncrement_eq room hmade
    have hzero : kernelZeroPage ≠ page := by
      rintro rfl
      simp [h.zeroPage.1] at allocated
    rw [processAddOwnedPage_shared hincrement]
    split_ifs
    · refine h.count_up hn (Or.inl allocated) (fun p _ => ?_) ?_ rfl rfl rfl
      · have howners := owners_append s proc page p
        have hsharers := sharers_append_le s proc page p
        exact (Nat.add_le_add howners.le hsharers).trans (by omega)
      · have howners := owners_append s proc page kernelZeroPage
        rw [if_neg hzero, h.zeroPage.2] at howners
        exact howners
    · exact h.count_up hn (Or.inl allocated) (fun p _ => Nat.le_add_right _ _) h.zeroPage.2 rfl rfl
        rfl
    · exact h

omit [DecidableEq V] in
theorem Books.addUnshared (h : Books kernelZeroPage s) (allocs : Allocs)
    (allocated : s.allocated page) (unheld : Unheld s page) :
    Books kernelZeroPage (processAddOwnedPage s proc page false allocs).2 := by
  rw [processAddOwnedPage_unshared]
  split_ifs
  · exact h.own unheld allocated
  · exact h

omit [DecidableEq V] in
theorem processPageAlloc_eq (addr : BitVec 64) (allocs : Allocs) :
    processPageAlloc s proc (some addr) allocs =
      if allocs.head ∧ allocs.block then
        (some addr, { s with allocated := Function.update s.allocated addr true }.setOwned proc
          (s.owned proc ++ [addr]))
      else (none, pageFree { s with allocated := Function.update s.allocated addr true } addr) := by
  rw [processPageAlloc, processAddOwnedPage_unshared]
  split_ifs <;> rfl

omit [DecidableEq V] in
theorem Books.pageAlloc (h : Books kernelZeroPage s) (allocs : Allocs)
    {answer : Option (BitVec 64)} (fresh : ∀ addr ∈ answer, Fresh kernelZeroPage s addr) :
    Books kernelZeroPage (processPageAlloc s proc answer allocs).2 := by
  cases answer with
  | none => exact h
  | some addr =>
    have hfresh := fresh addr rfl
    obtain ⟨hunheld, huncounted⟩ := h.unheld hfresh
    have hallocated := h.kernelAlloc hfresh
    rw [processPageAlloc_eq]
    split_ifs
    · exact hallocated.own hunheld (Function.update_self ..)
    · exact hallocated.free hunheld huncounted (Function.update_self ..)

/-! ## Faults -/

theorem mapNewPage_eq (addr : BitVec 64) (allocs : Allocs) :
    mapNewPage s proc v (some addr) allocs =
      if allocs.head ∧ allocs.block then
        some (vmmMapPage ({ s with allocated := Function.update s.allocated addr true }.setOwned proc
          (s.owned proc ++ [addr])) proc v { phys := addr, write := true, copyOnWrite := false })
      else none := by
  rw [mapNewPage, processPageAlloc_eq]
  split_ifs <;> rfl

/-- The new page takes the place of whatever was mapped. -/
theorem mapNewPage_setMapping (pte : Option Pte) (answer : Option (BitVec 64)) (allocs : Allocs) :
    mapNewPage (s.setMapping proc v pte) proc v answer allocs = mapNewPage s proc v answer allocs := by
  cases answer with
  | none => rfl
  | some addr =>
    rw [mapNewPage_eq, mapNewPage_eq]
    simp [vmmMapPage, State.setMapping, State.setOwned]

theorem Books.mapNewPage (h : Books kernelZeroPage s) {answer : Option (BitVec 64)}
    {allocs : Allocs} (fresh : ∀ addr ∈ answer, Fresh kernelZeroPage s addr)
    (handled : mapNewPage s proc v answer allocs = some s') : Books kernelZeroPage s' := by
  have halloc : Books kernelZeroPage (processPageAlloc s proc answer allocs).2 :=
    h.pageAlloc allocs fresh
  cases answer with
  | none => simp [ProcessMemory.mapNewPage, processPageAlloc] at handled
  | some addr =>
    rw [mapNewPage_eq] at handled
    rw [processPageAlloc_eq] at halloc
    split_ifs at handled halloc
    obtain rfl := Option.some.inj handled
    exact halloc.map (by simp [State.setOwned])

/-- A write to a shared page with other references: it is counted once less and replaced. -/
theorem Books.copyPage (h : Books kernelZeroPage s) {pte : Pte} {n : BitVec 32}
    {answer : Option (BitVec 64)} {allocs : Allocs} (live : s.live proc)
    (mapped : s.mapping proc v = some pte) (cow : pte.copyOnWrite)
    (nonzero : pte.phys ≠ kernelZeroPage) (some_n : s.refCount pte.phys = some n)
    (fresh : ∀ addr ∈ answer, Fresh kernelZeroPage s addr)
    (handled : ProcessMemory.mapNewPage
      { s with refCount := (refcountMapDecrement s.refCount pte.phys).2 } proc v answer allocs =
        some s') : Books kernelZeroPage s' := by
  have hallocated : s.allocated pte.phys := by
    by_contra hnot
    have hcount := (h.clean _ nonzero (Bool.eq_false_of_not_eq_true hnot)).2.2
    rw [some_n] at hcount
    cases hcount
  have hrests : rests s pte.phys (proc, v) :=
    rests_iff.mpr ⟨live, pte, mapped, rfl, Or.inl cow⟩
  have hgone : rests (vmmUnmapPage s proc v) pte.phys (proc, v) = false := by
    simp [rests, vmmUnmapPage, State.setMapping]
  have hchange : sharers (vmmUnmapPage s proc v) pte.phys + (rests s pte.phys (proc, v)).toNat =
      sharers s pte.phys + (rests (vmmUnmapPage s proc v) pte.phys (proc, v)).toNat :=
    sharers_setMapping none
  rw [hrests, hgone] at hchange
  -- without the mapping that is replaced, the holders fit the count alone
  have hslack : owners (vmmUnmapPage s proc v) pte.phys + sharers (vmmUnmapPage s proc v) pte.phys ≤
      counted (vmmUnmapPage s proc v) pte.phys := by
    have hbound := h.bound pte.phys hallocated
    have howners : owners (vmmUnmapPage s proc v) pte.phys = owners s pte.phys := rfl
    have hcounted : counted (vmmUnmapPage s proc v) pte.phys = counted s pte.phys := rfl
    simp only [Bool.toNat_true, Bool.toNat_false] at hchange
    omega
  have huncount := h.unmap.uncount some_n hslack
  have hreplaced := @mapNewPage_setMapping P V _ _ _ _
    { s with refCount := (refcountMapDecrement s.refCount pte.phys).2 } proc v none answer allocs
  exact huncount.mapNewPage fresh (hreplaced.trans handled)

theorem Books.fault (h : Books kernelZeroPage s) {write automap : Bool}
    {answer : Option (BitVec 64)} {allocs : Allocs} (live : s.live proc)
    (fresh : ∀ addr ∈ answer, Fresh kernelZeroPage s addr)
    (handled : pageFaultHandler kernelZeroPage s proc v write automap answer allocs = some s') :
    Books kernelZeroPage s' := by
  unfold pageFaultHandler at handled
  cases hcow : (s.mapping proc v).filter fun pte => pte.copyOnWrite && write with
  | some pte =>
    obtain ⟨hmapped, hflags⟩ := Option.filter_eq_some_iff.mp hcow
    obtain ⟨hcopy, -⟩ := Bool.and_eq_true_iff.mp hflags
    simp only [hcow] at handled
    split_ifs at handled with hzero hcount
    · exact h.mapNewPage fresh handled
    · -- nobody else counts the page: it becomes writable where it is
      obtain rfl := Option.some.inj handled
      cases hrefs : s.refCount pte.phys with
      | none =>
        rw [refcountMapDecrement_none hrefs]
        refine h.setMapping _ fun p _ hrests => ?_
        obtain ⟨-, pte', hpte', hpage, -⟩ := rests_iff.mp hrests
        obtain rfl : _ = pte' := by simpa [State.setMapping] using hpte'
        exact rests_iff.mpr ⟨live, pte, hmapped, hpage, Or.inl hcopy⟩
      | some n =>
        rw [refcountMapDecrement_some hrefs] at hcount
        obtain rfl : n = 0 := hcount
        exact absurd hrefs (h.positive _)
    · cases hrefs : s.refCount pte.phys with
      | none =>
        rw [refcountMapDecrement_none hrefs] at hcount
        exact absurd rfl hcount
      | some n => exact h.copyPage live hmapped hcopy hzero hrefs fresh handled
  | none =>
    simp only [hcow] at handled
    split_ifs at handled
    · exact h.mapNewPage fresh handled
    · obtain rfl := Option.some.inj handled
      refine h.setMapping _ fun p hne hrests => ?_
      obtain ⟨-, pte, hpte, hpage, -⟩ := rests_iff.mp hrests
      obtain rfl : _ = pte := by simpa [State.setMapping] using hpte
      exact absurd hpage.symm hne

/-! ## Sharing -/

/-- The reference to a page that is shared can be counted. -/
def Countable (parent : P) (s : State P V) (page : V × Bool × Bool) : Prop :=
  ∀ pte, s.mapping parent page.1 = some pte → pte.phys ≠ 0 →
    s.refCount pte.phys ≠ some 0xffffffff ∧ (s.refCount pte.phys = none → page.2.2 = true)

theorem Books.sharePage (h : Books kernelZeroPage s) {parent child : P} {shared : V × Bool × Bool}
    (live : s.live parent) (countable : Countable parent s shared) :
    Books kernelZeroPage (sharePage parent child s shared) := by
  unfold ProcessMemory.sharePage
  cases hpte : s.mapping parent shared.1 with
  | none => exact h
  | some pte =>
    dsimp only
    split_ifs with hphys htable
    · exact h
    all_goals
      obtain ⟨hroom, hmade⟩ := countable pte hpte hphys
      obtain ⟨n, hincrement, hn⟩ := refcountMapIncrement_eq hroom hmade
      have hknown : s.allocated pte.phys ∨ pte.phys = kernelZeroPage := by
        by_contra hnot
        obtain ⟨hfree, hzero⟩ := not_or.mp hnot
        have hunheld := (h.unheld ⟨Bool.eq_false_of_not_eq_true hfree, hzero⟩).1
        have hmapped := isMapped_iff.mpr ⟨parent, shared.1, pte, live, hpte, rfl⟩
        simp [hunheld.2] at hmapped
      rw [hincrement]
    · refine h.count_up hn hknown (fun p _ => ?_) h.zeroPage.2 rfl rfl rfl
      have hchange : sharers (vmmMapPage s child shared.1
            { phys := pte.phys, write := false, copyOnWrite := true }) p +
          (rests s p (child, shared.1)).toNat = sharers s p +
          (rests (vmmMapPage s child shared.1
            { phys := pte.phys, write := false, copyOnWrite := true }) p
            (child, shared.1)).toNat := sharers_setMapping _
      have hone : (rests (vmmMapPage s child shared.1
          { phys := pte.phys, write := false, copyOnWrite := true }) p (child, shared.1)).toNat ≤
            if p = pte.phys then 1 else 0 := by
        split_ifs with hp
        · exact Bool.toNat_le _
        · simp [rests, vmmMapPage, State.setMapping, Ne.symm hp]
      have hheld : owners s p + sharers (vmmMapPage s child shared.1
          { phys := pte.phys, write := false, copyOnWrite := true }) p ≤
            owners s p + sharers s p + if p = pte.phys then 1 else 0 := by omega
      exact hheld
    · exact h.count_up hn hknown (fun p _ => Nat.le_add_right _ _) h.zeroPage.2 rfl rfl rfl

omit [Fintype P] [Fintype V] in
theorem sharePage_live (parent child : P) (shared : V × Bool × Bool) :
    (sharePage parent child s shared).live = s.live := by
  unfold ProcessMemory.sharePage
  split
  · rfl
  · split_ifs <;> rfl

omit [Fintype P] [Fintype V] in
theorem sharePage_mapping {parent child : P} (apart : parent ≠ child) (shared : V × Bool × Bool) :
    (sharePage parent child s shared).mapping parent = s.mapping parent := by
  unfold ProcessMemory.sharePage
  split
  · rfl
  · split_ifs
    · rfl
    · exact Function.update_of_ne apart _ _
    · rfl

/-- The page that a place of the parent shows. -/
def refersTo (s : State P V) (parent : P) (page : BitVec 64) (shared : V × Bool × Bool) : Bool :=
  (s.mapping parent shared.1).any fun pte => pte.phys == page

omit [DecidableEq P] [DecidableEq V] [Fintype P] [Fintype V] in
theorem refersTo_congr {parent : P} (mapping : s'.mapping parent = s.mapping parent) :
    refersTo s' parent = refersTo s parent := by
  funext p shared
  rw [refersTo, mapping, refersTo]

omit [Fintype P] [Fintype V] in
/-- Sharing a place counts one reference to the page that it shows. -/
theorem sharePage_counted {parent child : P} {shared : V × Bool × Bool}
    (countable : Countable parent s shared) (nonzero : page ≠ 0) :
    counted (sharePage parent child s shared) page =
        counted s page + (refersTo s parent page shared).toNat ∧
      ((sharePage parent child s shared).refCount page = none →
        s.refCount page = none ∧ refersTo s parent page shared = false) := by
  unfold ProcessMemory.sharePage
  cases hpte : s.mapping parent shared.1 with
  | none =>
    have hnot : refersTo s parent page shared = false := by simp [refersTo, hpte]
    exact ⟨by simp [hnot], fun hnone => ⟨hnone, hnot⟩⟩
  | some pte =>
    have hrefers : refersTo s parent page shared = (pte.phys == page) := by simp [refersTo, hpte]
    dsimp only
    by_cases hphys : pte.phys = 0
    · have hnot : refersTo s parent page shared = false := by
        rw [hrefers, hphys]
        exact beq_eq_false_iff_ne.mpr nonzero.symm
      rw [if_pos hphys]
      exact ⟨by simp [hnot], fun hnone => ⟨hnone, hnot⟩⟩
    · obtain ⟨n, hincrement, hn⟩ := refcountMapIncrement_eq (countable pte hpte hphys).1
        (countable pte hpte hphys).2
      rw [if_neg hphys, hincrement, hrefers]
      rcases eq_or_ne page pte.phys with rfl | hne
      · refine ⟨?_, fun hnone => by simp at hnone⟩
        simp [counted, hn]
      · have hother : (pte.phys == page) = false := by simp [Ne.symm hne]
        refine ⟨?_, fun hnone => ⟨by simpa [hne] using hnone, hother⟩⟩
        simp [counted, hne, hother]

/-- The references to all pages that are shared can be counted: earlier places of the list that
show the same page are counted before. -/
def AllCountable (s : State P V) (parent : P) (pages : List (V × Bool × Bool)) : Prop :=
  ∀ before shared after pte, pages = before ++ shared :: after →
    s.mapping parent shared.1 = some pte → pte.phys ≠ 0 →
      counted s pte.phys + before.countP (refersTo s parent pte.phys) < 2 ^ 32 - 1 ∧
        (s.refCount pte.phys = none → before.countP (refersTo s parent pte.phys) = 0 →
          shared.2.2 = true)

omit [DecidableEq P] [DecidableEq V] [Fintype P] [Fintype V] in
theorem AllCountable.head {parent : P} {shared : V × Bool × Bool} {rest : List (V × Bool × Bool)}
    (h : AllCountable s parent (shared :: rest)) : Countable parent s shared := by
  intro pte hpte hphys
  obtain ⟨hroom, hmade⟩ := h [] shared rest pte rfl hpte hphys
  refine ⟨fun hfull => ?_, fun hnone => hmade hnone rfl⟩
  simp [counted, hfull] at hroom

omit [Fintype P] [Fintype V] in
theorem AllCountable.tail {parent child : P} {shared : V × Bool × Bool}
    {rest : List (V × Bool × Bool)} (h : AllCountable s parent (shared :: rest))
    (apart : parent ≠ child) : AllCountable (sharePage parent child s shared) parent rest := by
  intro before shared' after pte heq hpte hphys
  have hmapping : (sharePage parent child s shared).mapping parent = s.mapping parent :=
    sharePage_mapping apart shared
  have hrefers : refersTo (sharePage parent child s shared) parent = refersTo s parent :=
    refersTo_congr hmapping
  rw [hmapping] at hpte
  obtain ⟨hroom, hmade⟩ := h (shared :: before) shared' after pte (by rw [heq]; rfl) hpte hphys
  obtain ⟨hcounted, hnone⟩ := @sharePage_counted P V _ _ s pte.phys parent child shared h.head hphys
  rw [List.countP_cons] at hroom hmade
  rw [hrefers, hcounted]
  constructor
  · cases hshared : refersTo s parent pte.phys shared <;> simp [hshared] at hroom ⊢ <;> omega
  · intro hafter hbefore
    obtain ⟨hs, hnot⟩ := hnone hafter
    exact hmade hs (by simp [hbefore, hnot])

omit [DecidableEq P] [DecidableEq V] [Fintype P] [Fintype V] in
theorem AllCountable.congr {parent : P} {pages : List (V × Bool × Bool)}
    (h : AllCountable s parent pages) (mapping : s'.mapping parent = s.mapping parent)
    (refCount : s'.refCount = s.refCount) : AllCountable s' parent pages := by
  intro before shared after pte heq hpte hphys
  rw [mapping] at hpte
  rw [refersTo_congr mapping, counted, refCount]
  exact h before shared after pte heq hpte hphys

theorem Books.sharePages {pages : List (V × Bool × Bool)} {parent child : P}
    (h : Books kernelZeroPage s) (live : s.live parent) (apart : parent ≠ child)
    (countable : AllCountable s parent pages) :
    Books kernelZeroPage (pages.foldl (ProcessMemory.sharePage parent child) s) := by
  induction pages generalizing s with
  | nil => exact h
  | cons shared rest ih =>
    refine ih (h.sharePage live countable.head) ?_ (countable.tail apart)
    rw [sharePage_live]
    exact live

omit [DecidableEq V] in
/-- A new process starts with an empty user space. -/
theorem Books.start (h : Books kernelZeroPage s) {child : P} (unused : s.live child = false) :
    Books kernelZeroPage { s with
      live := Function.update s.live child true
      mapping := Function.update s.mapping child fun _ => none } := by
  refine h.of_le (fun _ => le_rfl) (fun p _ => count_mono fun ⟨q, w⟩ hrests => ?_) rfl rfl rfl
  obtain ⟨hlive, pte, hpte, hpage, hcow⟩ := rests_iff.mp hrests
  rcases eq_or_ne q child with rfl | hne
  · simp at hpte
  · exact rests_iff.mpr ⟨by simpa [hne] using hlive, pte, by simpa [hne] using hpte, hpage, hcow⟩

/-! ## Giving pages up -/

/-- Where the one counted reference is given up, nobody is left to hold the page. -/
def Sole (s : State P V) (page : BitVec 64) : Prop := s.refCount page = some 1 → Unheld s page

omit [DecidableEq P] [DecidableEq V] in
theorem Books.drop (h : Books kernelZeroPage s) (allocated : s.allocated page)
    (slack : owners s page + sharers s page ≤ counted s page) (sole : Sole s page) :
    Books kernelZeroPage (dropReference s page) := by
  unfold dropReference
  cases hrefs : s.refCount page with
  | none =>
    have hnone : counted s page = 0 := by simp [counted, hrefs]
    have hunheld : Unheld s page := unheld_iff.mpr ⟨by omega, by omega⟩
    rw [refcountMapDecrement_none hrefs]
    exact h.free hunheld hrefs allocated
  | some n =>
    have huncount := h.uncount hrefs slack
    rw [refcountMapDecrement_some hrefs] at huncount ⊢
    by_cases hone : n = 1
    · subst hone
      exact huncount.free (sole hrefs) (Function.update_self ..) allocated
    · have hpos : n ≠ 0 := by
        rintro rfl
        exact h.positive _ hrefs
      have hmany : ¬ n ≤ 1 := by bv_omega
      simp only [if_neg hmany]
      exact huncount

omit [DecidableEq V] in
theorem dropReference_setOwned (pages : List (BitVec 64)) :
    (dropReference s page).setOwned proc pages = dropReference (s.setOwned proc pages) page := by
  have hrefs : (s.setOwned proc pages).refCount = s.refCount := rfl
  unfold dropReference
  rw [hrefs]
  dsimp only
  split_ifs <;> rfl

omit [DecidableEq V] in
/-- A process gives up one entry of its list, for a page it no longer maps. -/
theorem Books.giveUp (h : Books kernelZeroPage s) {rest : List (BitVec 64)}
    (entry : (s.owned proc).Perm (page :: rest))
    (unmapped : s.live proc → ∀ w pte, s.mapping proc w = some pte → pte.phys ≠ page)
    (sole : Sole (s.setOwned proc rest) page) :
    Books kernelZeroPage ((dropReference s page).setOwned proc rest) := by
  have howners : ∀ p, owners (s.setOwned proc rest) p + (page :: rest).count p =
      owners s p + rest.count p := by
    intro p
    rw [← entry.count_eq]
    exact owners_setOwned rest
  have hself : owners (s.setOwned proc rest) page + 1 = owners s page := by
    have hpage := howners page
    rw [List.count_cons_self] at hpage
    omega
  have hallocated : s.allocated page := by
    by_contra hnot
    by_cases hzero : page = kernelZeroPage
    · have hnone := h.zeroPage.2
      rw [← hzero] at hnone
      omega
    · have hnone := (h.clean page hzero (Bool.eq_false_of_not_eq_true hnot)).1
      omega
  have hsharers : sharers (s.setOwned proc rest) page = sharers s page :=
    sharers_setOwned_of_unmapped unmapped
  have hbooks : Books kernelZeroPage (s.setOwned proc rest) := by
    refine h.of_le (fun p => ?_) (fun p _ => ?_) rfl rfl rfl
    · have hchange := howners p
      rw [List.count_cons] at hchange
      omega
    · rcases eq_or_ne p page with rfl | hne
      · exact hsharers.le
      · refine sharers_setOwned_le fun hmem => ?_
        exact (List.mem_cons.mp (entry.mem_iff.mp hmem)).resolve_left hne
  rw [dropReference_setOwned]
  refine hbooks.drop hallocated ?_ sole
  have hbound := h.bound page hallocated
  have hcounted : counted (s.setOwned proc rest) page = counted s page := rfl
  omega

omit [DecidableEq V] in
theorem Books.pageFree (h : Books kernelZeroPage s)
    (guard : page ∈ s.owned proc →
      (∀ w pte, s.mapping proc w = some pte → pte.phys ≠ page) ∧
        Sole (s.setOwned proc ((s.owned proc).erase page)) page) :
    Books kernelZeroPage (processPageFree s proc page).2 := by
  unfold processPageFree processRemoveOwnedPage
  split_ifs with hmem
  · obtain ⟨hunmapped, hsole⟩ := guard hmem
    exact h.giveUp (List.perm_cons_erase hmem) (fun _ => hunmapped) hsole
  · exact h

omit [DecidableEq V] in
theorem foldl_dropReference_setOwned (entries pages : List (BitVec 64)) :
    entries.foldl dropReference (s.setOwned proc pages) =
      (entries.foldl dropReference s).setOwned proc pages := by
  induction entries generalizing s with
  | nil => rfl
  | cons page rest ih => rw [List.foldl_cons, List.foldl_cons, ← dropReference_setOwned, ih]

omit [DecidableEq P] [DecidableEq V] in
theorem dropReference_kept : (dropReference s page).live = s.live ∧
    (dropReference s page).owned = s.owned ∧ (dropReference s page).mapping = s.mapping := by
  unfold dropReference
  dsimp only
  split_ifs <;> exact ⟨rfl, rfl, rfl⟩

omit [DecidableEq P] [DecidableEq V] in
theorem dropReference_counted (h : Books kernelZeroPage s) (p : BitVec 64) :
    counted (dropReference s page) p = counted s p - if p = page then 1 else 0 := by
  have hcounts : (dropReference s page).refCount = (refcountMapDecrement s.refCount page).2 := by
    unfold dropReference
    dsimp only
    split_ifs <;> rfl
  rw [counted, hcounts]
  exact counted_decrement h.positive p

/-- Some other process owns the page, or lives and maps it. -/
def HeldByOthers (s : State P V) (proc : P) (page : BitVec 64) : Prop :=
  ∃ other, other ≠ proc ∧ (page ∈ s.owned other ∨
    s.live other ∧ ∃ v pte, s.mapping other v = some pte ∧ pte.phys = page)

/-- A page whose count is used up by the entries of a process alone is counted for these entries
alone, and held by no other process. -/
def Releasable (s : State P V) (proc : P) : Prop :=
  ∀ page, 0 < counted s page → counted s page ≤ (s.owned proc).count page →
    counted s page = (s.owned proc).count page ∧ ¬ HeldByOthers s proc page

omit [DecidableEq V] in
theorem Releasable.sole {rest : List (BitVec 64)} (h : Releasable s proc)
    (owned : s.owned proc = page :: rest) (dead : s.live proc = false) :
    Sole (s.setOwned proc rest) page := by
  intro hone
  have hcounted : counted s page = 1 := by
    rw [counted, show s.refCount page = some 1 from hone]
    rfl
  have hentries : (s.owned proc).count page = rest.count page + 1 := by
    rw [owned, List.count_cons_self]
  obtain ⟨hall, hothers⟩ := h page (by omega) (by omega)
  have hrest : page ∉ rest := List.count_eq_zero.mp (by omega)
  constructor
  · intro q hmem
    rcases eq_or_ne q proc with rfl | hne
    · exact hrest (by simpa [State.setOwned] using hmem)
    · exact hothers ⟨q, hne, Or.inl (by simpa [State.setOwned, hne] using hmem)⟩
  · by_contra hmapped
    obtain ⟨q, v, pte, hlive, hpte, hpage⟩ :=
      isMapped_iff.mp (Bool.eq_true_of_not_eq_false hmapped)
    have hne : q ≠ proc := by
      rintro rfl
      exact absurd (dead.symm.trans hlive) (by decide)
    exact hothers ⟨q, hne, Or.inr ⟨hlive, v, pte, hpte, hpage⟩⟩

omit [DecidableEq V] in
/-- What the next turn of the loop finds: one entry less, and one reference less. -/
theorem Releasable.tail {rest : List (BitVec 64)} (h : Releasable s proc)
    (books : Books kernelZeroPage s) (owned : s.owned proc = page :: rest) :
    Releasable ((dropReference s page).setOwned proc rest) proc := by
  obtain ⟨hlive, howned, hmapping⟩ := @dropReference_kept P V _ _ s page
  intro p hpos hle
  have hcounted : counted ((dropReference s page).setOwned proc rest) p =
      counted s p - if p = page then 1 else 0 := dropReference_counted books p
  have hentries : (s.owned proc).count p = rest.count p + if p = page then 1 else 0 := by
    rw [owned, List.count_cons]
    simp only [beq_iff_eq, @eq_comm _ page p]
  have hrest : ((dropReference s page).setOwned proc rest).owned proc = rest :=
    Function.update_self ..
  rw [hrest] at hle ⊢
  obtain ⟨hall, hothers⟩ := h p (by omega) (by omega)
  refine ⟨by omega, ?_⟩
  rintro ⟨q, hne, hheld⟩
  have hother : ((dropReference s page).setOwned proc rest).owned q = s.owned q := by
    simp [State.setOwned, hne, howned]
  rw [hother] at hheld
  simp only [State.setOwned, hlive, hmapping] at hheld
  exact hothers ⟨q, hne, hheld⟩

omit [DecidableEq V] in
/-- The loop of `process_release_owned_pages`, for a process that is not live. -/
theorem Books.releaseAll {entries : List (BitVec 64)} (h : Books kernelZeroPage s)
    (dead : s.live proc = false) (owned : s.owned proc = entries)
    (releasable : Releasable s proc) :
    Books kernelZeroPage ((entries.foldl dropReference s).setOwned proc []) := by
  induction entries generalizing s with
  | nil =>
    have hsame : s.setOwned proc [] = s := by
      simp [State.setOwned, ← owned]
    rw [List.foldl_nil, hsame]
    exact h
  | cons page rest ih =>
    have hone : Books kernelZeroPage ((dropReference s page).setOwned proc rest) :=
      h.giveUp (owned ▸ List.Perm.refl _) (fun hlive => absurd hlive (by simp [dead]))
        (releasable.sole owned dead)
    have hdead : ((dropReference s page).setOwned proc rest).live proc = false := by
      rw [dropReference_setOwned, dropReference_kept.1]
      exact dead
    have hrest : ((dropReference s page).setOwned proc rest).owned proc = rest :=
      Function.update_self ..
    have hloop := ih hone hdead hrest (releasable.tail h owned)
    rw [foldl_dropReference_setOwned] at hloop
    simpa [State.setOwned] using hloop

omit [DecidableEq V] [Fintype P] [Fintype V] in
theorem Releasable.die (h : Releasable s proc) :
    Releasable { s with live := Function.update s.live proc false } proc := by
  intro p hpos hle
  obtain ⟨hall, hothers⟩ := h p hpos hle
  refine ⟨hall, ?_⟩
  rintro ⟨q, hne, hheld⟩
  exact hothers ⟨q, hne, by simpa [hne] using hheld⟩

omit [DecidableEq V] in
/-- A process that has died maps nothing that counts. -/
theorem Books.die (h : Books kernelZeroPage s) :
    Books kernelZeroPage { s with live := Function.update s.live proc false } := by
  refine h.of_le (fun _ => le_rfl) (fun p _ => count_mono fun ⟨q, w⟩ hrests => ?_) rfl rfl rfl
  obtain ⟨hlive, hrest⟩ := rests_iff.mp hrests
  rcases eq_or_ne q proc with rfl | hne
  · simp at hlive
  · exact rests_iff.mpr ⟨by simpa [hne] using hlive, hrest⟩

/-! ## Runs -/

/-- The condition under which a step leaves the books in order. -/
def Orderly (s : State P V) : Act P V → Prop
  | .addOwned _ page shared _ =>
    if shared then s.refCount page ≠ some 0xffffffff else Unheld s page
  | .create parent _ pages => AllCountable s parent pages
  | .pageFree proc page =>
    page ∈ s.owned proc → (∀ v pte, s.mapping proc v = some pte → pte.phys ≠ page) ∧
      Sole (s.setOwned proc ((s.owned proc).erase page)) page
  | .destroy proc => Releasable s proc
  | _ => True

theorem Books.step (h : Books kernelZeroPage s) {a : Act P V} (orderly : Orderly s a)
    (step : Step kernelZeroPage s a s') : Books kernelZeroPage s' := by
  cases step with
  | kernelAlloc fresh => exact h.kernelAlloc fresh
  | pageAlloc allocs live fresh => exact h.pageAlloc allocs fresh
  | addOwned shared allocs live allocated =>
    cases shared with
    | false => exact h.addUnshared allocs allocated orderly
    | true => exact h.addShared allocs allocated orderly
  | map v live owns => exact h.map owns
  | unmap v live => exact h.unmap
  | @create parent child pages live unused none =>
    have hne : parent ≠ child := by
      rintro rfl
      simp [unused] at live
    have hcountable : AllCountable s parent pages := orderly
    exact (h.start unused).sharePages (by simpa [hne] using live) hne
      (hcountable.congr (Function.update_of_ne hne _ _) rfl)
  | fault live fresh handled => exact h.fault live fresh handled
  | pageFree page live => exact h.pageFree orderly
  | @destroy proc live =>
    have hreleasable : Releasable s proc := orderly
    exact h.die.releaseAll (Function.update_self ..) rfl hreleasable.die

omit [DecidableEq P] [DecidableEq V] in
theorem Books.initial (h : Initial s) : Books kernelZeroPage s := by
  have howners : ∀ p, owners s p = 0 := fun p => owners_eq_zero_iff.mpr (by simp [h.owned])
  have hsharers : ∀ p, sharers s p = 0 := fun p =>
    sharers_eq_zero_iff.mpr fun q w hrests => by
      obtain ⟨-, pte, hpte, -⟩ := rests_iff.mp hrests
      simp [h.mapping] at hpte
  constructor
  · simp [h.allocated]
  · exact fun p _ _ => ⟨howners p, hsharers p, by simp [h.refCount]⟩
  · exact ⟨by simp [h.allocated], howners _⟩
  · simp [h.refCount]
  · simp [h.frees]

end Changes

/-! ## A parent that exits first -/

/-- Two processes, of which the first runs, with one page of user space each. -/
def booted : State (Fin 2) (Fin 1) where
  live := fun proc => proc == 0
  owned := fun _ => []
  mapping := fun _ _ => none
  refCount := fun _ => none
  allocated := fun _ => false
  frees := []

def granted : Allocs := { head := true, entry := true, block := true }

/-- The first process has allocated a page. -/
def oneOwned : State (Fin 2) (Fin 1) := (processPageAlloc booted 0 (some 0x4000) granted).2

theorem reachable_oneOwned :
    Reachable ((memory (Fin 2) (Fin 1) 0xf000).restrict Orderly) oneOwned := by
  have hstart : Reachable ((memory (Fin 2) (Fin 1) 0xf000).restrict Orderly) booted :=
    .start ⟨rfl, rfl, rfl, rfl, rfl⟩
  refine hstart.next (a := Act.pageAlloc 0 (some 0x4000) granted) ⟨trivial, ?_⟩
  refine .pageAlloc granted rfl fun addr haddr => ?_
  obtain rfl := Option.some.inj haddr
  exact ⟨rfl, by decide⟩

end PageSharing
