import Mathlib.Data.List.Pairwise
import AnosKernel.DirectMap

/-!
# Mapping the regions of the memory map

The loops of `vmm_init_map_region` and `vmm_init_direct_mapping`. A region is cut into the largest
pages that fit where it goes on. riscv64 has a size more than x86_64, so the loop is over a list of
sizes, in the order in which they are tried.
-/

namespace DirectMap

open VmMapper PageAlloc Directories

/-- A page size, and the function that maps a page of this size. -/
structure Kind where
  size : BitVec 64
  map : Machine → BitVec 64 → BitVec 8 → Except Panic Machine
  pos : size ≠ 0

def nextKind (kinds : List Kind) (base length : BitVec 64) : Option Kind :=
  kinds.find? fun kind => length ≥ kind.size ∧ base % kind.size = 0

theorem nextKind_fits {kinds : List Kind} {base length : BitVec 64} {kind : Kind}
    (h : nextKind kinds base length = some kind) :
    length ≥ kind.size ∧ base % kind.size = 0 := by
  have hfound := List.find?_some h
  simpa using hfound

theorem Kind.smaller (kind : Kind) {length : BitVec 64} (h : length ≥ kind.size) :
    (length - kind.size).toNat < length.toNat := by
  have hpos : kind.size.toNat ≠ 0 := fun hzero => kind.pos (BitVec.eq_of_toNat_eq hzero)
  have hle : kind.size.toNat ≤ length.toNat := h
  rw [BitVec.toNat_sub_of_le h]
  omega

/-- The loop of `vmm_init_map_region`; what is less than a page is left. -/
def mapRegionLoop (kinds : List Kind) (flags : BitVec 8) (m : Machine) (base length : BitVec 64) :
    Except Panic Machine :=
  if length = 0 then .ok m
  else
    match _h : nextKind kinds base length with
    | some kind => do
      let m ← kind.map m base flags
      mapRegionLoop kinds flags m (base + kind.size) (length - kind.size)
    | none => .ok m
termination_by length.toNat
decreasing_by exact kind.smaller (nextKind_fits _h).1

def vmmInitMapRegion (fmt : Format) (kinds : List Kind) (m : Machine) (entry : MemMapEntry)
    (writeable : Bool) : Except Panic Machine :=
  mapRegionLoop kinds (regionFlags fmt writeable) m entry.base entry.length

/-- The loop of `vmm_init_direct_mapping`. -/
def mapEntries (fmt : Format) (kinds : List Kind) (m : Machine) (memmap : List MemMapEntry) :
    Except Panic Machine :=
  memmap.foldlM (fun m entry =>
    match mappedType entry.type with
    | some writeable => vmmInitMapRegion fmt kinds m entry writeable
    | none => .ok m) m

/-- The sizes that both architectures have. -/
def commonKinds (fmt : Format) (env : Env) : List Kind :=
  [{ size := gigaPageSize, map := vmmInitMapGigapage fmt env, pos := by decide },
    { size := megaPageSize, map := vmmInitMapMegapage fmt env, pos := by decide },
    { size := pageSize, map := vmmInitMapPage fmt env, pos := by decide }]

/-! ## What is mapped -/

/-- The leaves of the directory are for the pages of `cover`, and lead to the physical addresses
that these are for. -/
structure Covers (d : Dir) (cover : Nat → Bool → Prop) : Prop where
  sizes : ∀ l b a, d.leaf l b = some a → l ≤ 2
  bases : ∀ l b a, d.leaf l b = some a → a.1.toNat + 2 ^ 47 = b * 512 ^ l * 0x1000
  covered : ∀ l n a, d.leaf l (n / 512 ^ l) = some a → cover n a.2
  found : ∀ n w, cover n w → ∃ l a, d.leaf l (n / 512 ^ l) = some a ∧ a.2 = w

def Built (decode : Reader) (env : Env) (cover : Nat → Bool → Prop) (m : Machine) : Prop :=
  ∃ d, Good decode env m d ∧ d.Filled 512 ∧ Covers d cover

section Pieces

variable {fmt : Format} {decode : Reader} {env : Env} {m : Machine} {d : Dir} {l : Nat}
  {cover : Nat → Bool → Prop} {base : BitVec 64} {writeable : Bool}

theorem Covers.unmapped (covers : Covers d cover) {n : Nat}
    (free : ∀ n', n' / 512 ^ l = n / 512 ^ l → ∀ w, ¬ cover n' w) : d.Unmapped l n :=
  fun n' h k a hleaf => free n' h a.2 (covers.covered k n' a hleaf)

theorem pageOf_block (block : Block base l) (le : l ≤ 2) :
    base.toNat + 2 ^ 47 = pageOf base / 512 ^ l * 512 ^ l * 0x1000 := by
  have haligned := block.aligned
  rw [pageOf]
  obtain rfl | rfl | rfl : l = 0 ∨ l = 1 ∨ l = 2 := by omega
  all_goals omega

/-- The cover after a page was mapped. -/
theorem Mapped.built (covers : Covers d cover) (block : Block base l) (le : l ≤ 2)
    (free : ∀ n', n' / 512 ^ l = pageOf base / 512 ^ l → ∀ w, ¬ cover n' w)
    (mapped : Mapped decode env d l (pageOf base) (base, writeable) m) :
    Built decode env
      (fun n w => cover n w ∨ (n / 512 ^ l = pageOf base / 512 ^ l ∧ w = writeable)) m := by
  obtain ⟨d', hgood, hfilled, hleaf⟩ := mapped
  have cases : ∀ k b a, d'.leaf k b = some a →
      (k = l ∧ b = pageOf base / 512 ^ l ∧ a = (base, writeable)) ∨ d.leaf k b = some a := by
    intro k b a h
    simp only [hleaf, Directory.addLeaf] at h
    split_ifs at h with hnew
    · exact Or.inl ⟨hnew.1, hnew.2, (Option.some.inj h).symm⟩
    · exact Or.inr h
  refine ⟨d', hgood, hfilled, ?_, ?_, ?_, ?_⟩
  · intro k b a h
    rcases cases k b a h with ⟨rfl, _, _⟩ | hold
    · exact le
    · exact covers.sizes k b a hold
  · intro k b a h
    rcases cases k b a h with ⟨rfl, rfl, rfl⟩ | hold
    · exact pageOf_block block le
    · exact covers.bases k b a hold
  · intro k n a h
    rcases cases k _ a h with ⟨rfl, hblock, rfl⟩ | hold
    · exact Or.inr ⟨hblock, rfl⟩
    · exact Or.inl (covers.covered k n a hold)
  · rintro n w (hold | ⟨hblock, rfl⟩)
    · obtain ⟨k, a, ha, hw⟩ := covers.found n w hold
      refine ⟨k, a, ?_, hw⟩
      rw [hleaf]
      refine (if_neg ?_).trans ha
      rintro ⟨rfl, hblock⟩
      exact free n hblock w hold
    · refine ⟨l, (base, w), ?_, rfl⟩
      rw [hleaf]
      exact if_pos ⟨rfl, hblock⟩

/-- The function of a kind maps what it should, on level `l`; the one for terapages maps nothing
in the direct map. -/
structure Kind.Serves (decode : Reader) (env : Env) (flags : BitVec 8) (writeable : Bool) (l : Nat)
    (kind : Kind) : Prop where
  level : l ≤ 3
  sized : kind.size.toNat = 0x1000 * 512 ^ l
  maps : ∀ m cover base, Built decode env cover m → Block base l →
    (∀ n, n / 512 ^ l = pageOf base / 512 ^ l → ∀ w, ¬ cover n w) →
    Ends m 3 (kind.map m base flags) (Built decode env fun n w =>
      cover n w ∨ (l < 3 ∧ n / 512 ^ l = pageOf base / 512 ^ l ∧ w = writeable))

/-- The functions of the sizes that both architectures have. -/
theorem serves_of_ends {size : BitVec 64} {pos : size ≠ 0} {flags : BitVec 8}
    {map : Machine → BitVec 64 → BitVec 8 → Except Panic Machine} (le : l ≤ 2)
    (sized : size.toNat = 0x1000 * 512 ^ l)
    (ends : ∀ m d base, Good decode env m d → d.Filled 512 → Block base l →
      d.Unmapped l (pageOf base) →
      Ends m 3 (map m base flags) (Mapped decode env d l (pageOf base) (base, writeable))) :
    Kind.Serves decode env flags writeable l ⟨size, map, pos⟩ := by
  refine ⟨by omega, sized, ?_⟩
  rintro m cover base ⟨d, hgood, hfilled, hcovers⟩ block free
  apply (ends m d base hgood hfilled block (hcovers.unmapped free)).mono (Nat.le_refl 3)
  intro m' hmapped
  have hlt : l < 3 := by omega
  simp only [hlt, true_and]
  exact hmapped.built hcovers block le free

theorem gigapage_serves (reads : fmt.Reads decode) (pos : gigaPageSize ≠ 0) :
    Kind.Serves decode env (regionFlags fmt writeable) writeable 2
      { size := gigaPageSize, map := vmmInitMapGigapage fmt env, pos := pos } := by
  have hsize : gigaPageSize.toNat = 0x1000 * 512 ^ 2 := by decide
  apply serves_of_ends (by decide) hsize
  intro m d base good filled block unmapped
  exact vmmInitMapGigapage_ends reads good filled block unmapped writeable

theorem megapage_serves (reads : fmt.Reads decode) (pos : megaPageSize ≠ 0) :
    Kind.Serves decode env (regionFlags fmt writeable) writeable 1
      { size := megaPageSize, map := vmmInitMapMegapage fmt env, pos := pos } := by
  have hsize : megaPageSize.toNat = 0x1000 * 512 ^ 1 := by decide
  apply serves_of_ends (by decide) hsize
  intro m d base good filled block unmapped
  exact vmmInitMapMegapage_ends reads good filled block unmapped writeable

theorem page_serves (reads : fmt.Reads decode) (pos : pageSize ≠ 0) :
    Kind.Serves decode env (regionFlags fmt writeable) writeable 0
      { size := pageSize, map := vmmInitMapPage fmt env, pos := pos } := by
  have hsize : pageSize.toNat = 0x1000 * 512 ^ 0 := by decide
  apply serves_of_ends (by decide) hsize
  intro m d base good filled block unmapped
  exact vmmInitMapPage_ends reads good filled block unmapped writeable

/-- Where a page is left, one of the sizes fits. -/
theorem commonKinds_next (reads : fmt.Reads decode) {length : BitVec 64}
    (aligned : base.toNat % 0x1000 = 0) (more : 0x1000 ≤ length.toNat) :
    ∃ kind l, nextKind (commonKinds fmt env) base length = some kind ∧
      kind.Serves decode env (regionFlags fmt writeable) writeable l ∧ l ≤ 2 := by
  rw [nextKind, commonKinds]
  by_cases hgiga : length ≥ gigaPageSize ∧ base % gigaPageSize = 0
  · rw [List.find?_cons_of_pos (by simpa using hgiga)]
    exact ⟨_, 2, rfl, gigapage_serves reads _, by decide⟩
  rw [List.find?_cons_of_neg (by simpa using hgiga)]
  by_cases hmega : length ≥ megaPageSize ∧ base % megaPageSize = 0
  · rw [List.find?_cons_of_pos (by simpa using hmega)]
    exact ⟨_, 1, rfl, megapage_serves reads _, by decide⟩
  rw [List.find?_cons_of_neg (by simpa using hmega)]
  have hpage : length ≥ pageSize ∧ base % pageSize = 0 :=
    ⟨more, BitVec.eq_of_toNat_eq aligned⟩
  rw [List.find?_cons_of_pos (by simpa using hpage)]
  exact ⟨_, 0, rfl, page_serves reads _, by decide⟩

/-- The kind of the next page, where riscv64 takes terapages first. -/
structure Picks (decode : Reader) (env : Env) (flags : BitVec 8) (writeable : Bool)
    (terapages : Prop) (kinds : List Kind) : Prop where
  next : ∀ base length : BitVec 64, base.toNat % 0x1000 = 0 → 0x1000 ≤ length.toNat →
    ∃ kind l, nextKind kinds base length = some kind ∧ kind.Serves decode env flags writeable l ∧
      (l = 3 → terapages) ∧
      (l ≠ 3 → terapages → ¬ (base.toNat % 2 ^ 39 = 0 ∧ 2 ^ 39 ≤ length.toNat))

end Pieces

/-! ## The loop over a region -/

/-- The pages that are mapped of `count` pages from page `b` on: with terapages, none of those in
a whole terapage. -/
def InRegion (terapages : Prop) (b count n : Nat) : Prop :=
  b ≤ n ∧ n < b + count ∧ ¬ (terapages ∧ b ≤ n / 512 ^ 3 * 512 ^ 3 ∧
    n / 512 ^ 3 * 512 ^ 3 + 512 ^ 3 ≤ b + count)

theorem inRegion_step {terapages : Prop} {b count l n : Nat} (le : l ≤ 3)
    (aligned : b % 512 ^ l = 0) (fits : 512 ^ l ≤ count) (tera : l = 3 → terapages)
    (first : l ≠ 3 → terapages → ¬ (b % 512 ^ 3 = 0 ∧ 512 ^ 3 ≤ count)) :
    InRegion terapages b count n ↔
      (l < 3 ∧ n / 512 ^ l = b / 512 ^ l) ∨
        InRegion terapages (b + 512 ^ l) (count - 512 ^ l) n := by
  by_cases h : terapages
  all_goals
    simp only [InRegion, h, true_and, false_and, not_false_eq_true, and_true]
    simp only [h, forall_const, implies_true, false_imp_iff] at tera first
    obtain rfl | rfl | rfl | rfl : l = 0 ∨ l = 1 ∨ l = 2 ∨ l = 3 := by omega
    all_goals simp at tera first ⊢
    all_goals omega

section Regions

variable {fmt : Format} {decode : Reader} {env : Env} {m : Machine} {terapages : Prop}
  {cover : Nat → Bool → Prop} {kinds : List Kind} {flags : BitVec 8} {writeable : Bool}

/-- Where a region lies. -/
structure Fits (base length : BitVec 64) : Prop where
  start : base.toNat % 0x1000 = 0
  whole : length.toNat % 0x1000 = 0
  stop : base.toNat + length.toNat ≤ 127 * 2 ^ 40

def pages (length : BitVec 64) : Nat := length.toNat / 0x1000

theorem Built.congr {cover' : Nat → Bool → Prop} (same : ∀ n w, cover n w ↔ cover' n w)
    (h : Built decode env cover m) : Built decode env cover' m := by
  have heq : cover = cover' := funext fun n => funext fun w => propext (same n w)
  rwa [← heq]

/-- What is left of a region after a page of it. -/
theorem Fits.rest {base length : BitVec 64} (fits : Fits base length) {kind : Kind} {l : Nat}
    (sized : kind.size.toNat = 0x1000 * 512 ^ l) (le : kind.size ≤ length) :
    Fits (base + kind.size) (length - kind.size) ∧
      pageOf (base + kind.size) = pageOf base + 512 ^ l ∧
      pages (length - kind.size) = pages length - 512 ^ l ∧ 512 ^ l ≤ pages length := by
  obtain ⟨hbase, hlength, hstop⟩ := fits
  have hle : kind.size.toNat ≤ length.toNat := le
  have hsub := BitVec.toNat_sub_of_le le
  have hadd : (base + kind.size).toNat = base.toNat + kind.size.toNat := by
    rw [BitVec.toNat_add]
    omega
  rw [sized] at hle hsub hadd
  refine ⟨⟨?_, ?_, ?_⟩, ?_, ?_, ?_⟩
  · omega
  · omega
  · omega
  · rw [pageOf, pageOf]
    omega
  · rw [pages, pages]
    omega
  · rw [pages]
    omega

theorem Block.pageOf_mod {base : BitVec 64} {l : Nat} (block : Block base l) (le : l ≤ 3) :
    pageOf base % 512 ^ l = 0 := by
  have haligned := block.aligned
  rw [pageOf]
  obtain rfl | rfl | rfl | rfl : l = 0 ∨ l = 1 ∨ l = 2 ∨ l = 3 := by omega
  all_goals omega

/-- The pages of a block. -/
theorem Block.inside {base : BitVec 64} {l : Nat} (block : Block base l) (le : l ≤ 3) {n : Nat}
    (h : n / 512 ^ l = pageOf base / 512 ^ l) : pageOf base ≤ n ∧ n < pageOf base + 512 ^ l := by
  have hmod := block.pageOf_mod le
  have hbase := Nat.div_add_mod (pageOf base) (512 ^ l)
  have hn := Nat.div_add_mod n (512 ^ l)
  have hlt := Nat.mod_lt n (Nat.pow_pos (by decide) : 0 < 512 ^ l)
  rw [h] at hn
  omega

/-- One turn of the loop: the page at the start of the region, and what is left of it. -/
structure Turn (decode : Reader) (env : Env) (flags : BitVec 8) (writeable : Bool)
    (terapages : Prop) (base length : BitVec 64) (kind : Kind) (l : Nat) : Prop where
  serves : kind.Serves decode env flags writeable l
  block : Block base l
  rest : Fits (base + kind.size) (length - kind.size)
  pageOf : pageOf (base + kind.size) = pageOf base + 512 ^ l
  pages : pages (length - kind.size) = pages length - 512 ^ l
  count : 512 ^ l ≤ DirectMap.pages length
  split : ∀ n, InRegion terapages (DirectMap.pageOf base) (DirectMap.pages length) n ↔
    (l < 3 ∧ n / 512 ^ l = DirectMap.pageOf base / 512 ^ l) ∨
      InRegion terapages (DirectMap.pageOf base + 512 ^ l) (DirectMap.pages length - 512 ^ l) n

theorem Picks.turn (picks : Picks decode env flags writeable terapages kinds)
    {base length : BitVec 64} (fits : Fits base length) (more : length ≠ 0) :
    ∃ kind l, nextKind kinds base length = some kind ∧
      Turn decode env flags writeable terapages base length kind l := by
  have hpos : length.toNat ≠ 0 := fun h => more (BitVec.eq_of_toNat_eq h)
  have hwhole := fits.whole
  have hstart := fits.start
  obtain ⟨kind, l, hnext, hserves, htera, hfirst⟩ := picks.next base length hstart (by omega)
  obtain ⟨hle, hdvd⟩ := nextKind_fits hnext
  have hsized := hserves.sized
  obtain ⟨hrest, hpageOf, hpages, hcount⟩ := fits.rest hsized hle
  have hblock : Block base l := by
    constructor
    · rw [← hsized, ← BitVec.toNat_umod, hdvd]
      rfl
    · rw [← hsized]
      exact Nat.le_trans (Nat.add_le_add_left hle _) fits.stop
  have hfirst' : l ≠ 3 → terapages →
      ¬ (DirectMap.pageOf base % 512 ^ 3 = 0 ∧ 512 ^ 3 ≤ DirectMap.pages length) := by
    intro hl ht
    have hnot := hfirst hl ht
    rw [DirectMap.pageOf, DirectMap.pages]
    omega
  refine ⟨kind, l, hnext, hserves, hblock, hrest, hpageOf, hpages, hcount, ?_⟩
  intro n
  exact inRegion_step hserves.level (hblock.pageOf_mod hserves.level) hcount htera hfirst'

theorem mapRegionLoop_zero (base : BitVec 64) : mapRegionLoop kinds flags m base 0 = .ok m := by
  rw [mapRegionLoop, if_pos rfl]

theorem mapRegionLoop_next {base length : BitVec 64} {kind : Kind} (more : length ≠ 0)
    (next : nextKind kinds base length = some kind) :
    mapRegionLoop kinds flags m base length = kind.map m base flags >>= fun m' =>
      mapRegionLoop kinds flags m' (base + kind.size) (length - kind.size) := by
  rw [mapRegionLoop, if_neg more]
  split
  next kind' h =>
    obtain rfl : kind = kind' := Option.some.inj (next.symm.trans h)
    rfl
  next h =>
    rw [next] at h
    cases h

theorem mapRegionLoop_ends (picks : Picks decode env flags writeable terapages kinds)
    {base length : BitVec 64} (fits : Fits base length) (built : Built decode env cover m)
    (free : ∀ n, pageOf base ≤ n → n < pageOf base + pages length → ∀ w, ¬ cover n w) :
    Ends m (3 * pages length) (mapRegionLoop kinds flags m base length)
      (Built decode env fun n w =>
        cover n w ∨ (InRegion terapages (pageOf base) (pages length) n ∧ w = writeable)) := by
  induction hk : length.toNat using Nat.strong_induction_on generalizing m base length cover with
  | _ k ih =>
    subst hk
    by_cases hzero : length = 0
    · subst hzero
      rw [mapRegionLoop_zero]
      refine .ok (built.congr ?_) (Nat.le_add_right _ _)
      intro n w
      have hnone : ¬ InRegion terapages (pageOf base) (pages 0) n := by
        have hpages : pages 0 = 0 := rfl
        rw [InRegion, hpages]
        omega
      rw [iff_self_or]
      exact fun h => absurd h.1 hnone
    · obtain ⟨kind, l, hnext, turn⟩ := picks.turn fits hzero
      have hlevel := turn.serves.level
      have hcount := turn.count
      have hpow : 0 < 512 ^ l := Nat.pow_pos (by decide)
      have hneed : 3 + 3 * (pages length - 512 ^ l) ≤ 3 * pages length := by omega
      have hfree : ∀ n, n / 512 ^ l = pageOf base / 512 ^ l → ∀ w, ¬ cover n w := by
        intro n hn
        obtain ⟨hlow, hhigh⟩ := turn.block.inside hlevel hn
        exact free n hlow (by omega)
      rw [mapRegionLoop_next hzero hnext]
      apply Ends.mono _ hneed _
      · exact Built decode env fun n w =>
          (cover n w ∨ (l < 3 ∧ n / 512 ^ l = pageOf base / 512 ^ l ∧ w = writeable)) ∨
            (InRegion terapages (pageOf base + 512 ^ l) (pages length - 512 ^ l) n ∧ w = writeable)
      · apply (turn.serves.maps m cover base built turn.block hfree).bind
        intro m' hbuilt
        have hends := ih _ (kind.smaller (nextKind_fits hnext).1) turn.rest hbuilt ?_ rfl
        · rwa [turn.pageOf, turn.pages] at hends
        · rw [turn.pageOf, turn.pages]
          rintro n hlow hhigh w (hold | ⟨_, hn, _⟩)
          · exact free n (by omega) (by omega) w hold
          · have hinside := turn.block.inside hlevel hn
            omega
      · intro m'
        apply Built.congr
        intro n w
        rw [turn.split n]
        tauto

end Regions

/-! ## The loop over the memory map -/

/-- The physical address is in the entry. -/
def Contains (entry : MemMapEntry) (p : Nat) : Prop :=
  entry.base.toNat ≤ p ∧ p < entry.base.toNat + entry.length.toNat

/-- Entries are of whole pages, below `MAX_PHYS_ADDR` and disjoint. -/
structure Sound (memmap : List MemMapEntry) : Prop where
  fits : ∀ entry ∈ memmap, Fits entry.base entry.length
  apart : memmap.Pairwise fun entry other => ∀ p, ¬ (Contains entry p ∧ Contains other p)

/-- A page of memory, and one for the firmware. -/
def twoPages : List MemMapEntry :=
  [⟨0x5000, 0x1000, .usable, by decide⟩, ⟨0x7000, 0x1000, .acpiNvs, by decide⟩]

theorem twoPages_sound : Sound twoPages where
  fits := by
    intro entry h
    simp only [twoPages, List.mem_cons, List.not_mem_nil, or_false] at h
    rcases h with rfl | rfl
    · exact ⟨by decide, by decide, by decide⟩
    · exact ⟨by decide, by decide, by decide⟩
  apart := by
    simp only [twoPages, List.pairwise_cons, List.mem_singleton, forall_eq, List.not_mem_nil,
      false_imp_iff, implies_true, List.Pairwise.nil, and_true, Contains]
    intro p h
    have h1 : (0x5000 : BitVec 64).toNat = 0x5000 := rfl
    have h2 : (0x7000 : BitVec 64).toNat = 0x7000 := rfl
    have h3 : (0x1000 : BitVec 64).toNat = 0x1000 := rfl
    omega

/-- The pages that the entries of the map are mapped to. -/
def mapCover (terapages : Prop) (memmap : List MemMapEntry) (n : Nat) (w : Bool) : Prop :=
  ∃ entry ∈ memmap, mappedType entry.type = some w ∧
    InRegion terapages (pageOf entry.base) (pages entry.length) n

section Entries

variable {fmt : Format} {decode : Reader} {env : Env} {m : Machine} {terapages : Prop}
  {cover : Nat → Bool → Prop} {kinds : List Kind} {entry : MemMapEntry}
  {memmap : List MemMapEntry}

theorem contains_of_page (fits : Fits entry.base entry.length) {n : Nat}
    (low : pageOf entry.base ≤ n) (high : n < pageOf entry.base + pages entry.length) :
    Contains entry ((n - 2 ^ 35) * 0x1000) := by
  have hstart := fits.start
  rw [pageOf] at low high
  rw [pages] at high
  constructor
  · omega
  · omega

theorem mapEntries_cons : mapEntries fmt kinds m (entry :: memmap) =
    (match mappedType entry.type with
      | some writeable => vmmInitMapRegion fmt kinds m entry writeable
      | none => .ok m) >>= fun m' => mapEntries fmt kinds m' memmap := rfl

/-- One entry. -/
theorem mapEntry_ends
    (picks : ∀ writeable, Picks decode env (regionFlags fmt writeable) writeable terapages kinds)
    (fits : Fits entry.base entry.length) (built : Built decode env cover m)
    (free : ∀ n, pageOf entry.base ≤ n → n < pageOf entry.base + pages entry.length →
      ∀ w, ¬ cover n w) :
    Ends m (3 * pages entry.length)
      (match mappedType entry.type with
        | some writeable => vmmInitMapRegion fmt kinds m entry writeable
        | none => .ok m)
      (Built decode env fun n w => cover n w ∨ (mappedType entry.type = some w ∧
        InRegion terapages (pageOf entry.base) (pages entry.length) n)) := by
  cases mappedType entry.type with
  | none =>
    refine .ok (built.congr ?_) (Nat.le_add_right _ _)
    intro n w
    simp
  | some writeable =>
    apply (mapRegionLoop_ends (picks writeable) fits built free).mono (Nat.le_refl _)
    intro m'
    apply Built.congr
    intro n w
    rw [Option.some.injEq, eq_comm (a := w), and_comm]

theorem mapEntries_ends
    (picks : ∀ writeable, Picks decode env (regionFlags fmt writeable) writeable terapages kinds)
    (sound : Sound memmap) (built : Built decode env cover m)
    (free : ∀ entry ∈ memmap, ∀ n, pageOf entry.base ≤ n →
      n < pageOf entry.base + pages entry.length → ∀ w, ¬ cover n w) :
    Ends m (3 * (memmap.map fun entry => pages entry.length).sum) (mapEntries fmt kinds m memmap)
      (Built decode env fun n w => cover n w ∨ mapCover terapages memmap n w) := by
  induction memmap generalizing m cover with
  | nil =>
    refine .ok (built.congr ?_) (Nat.le_refl _)
    intro n w
    simp [mapCover]
  | cons entry memmap ih =>
    obtain ⟨hfits, hapart⟩ := sound
    obtain ⟨hfirst, hrest⟩ := List.pairwise_cons.mp hapart
    have hentry := hfits entry List.mem_cons_self
    have htail : ∀ other ∈ memmap, Fits other.base other.length :=
      fun other h => hfits other (List.mem_cons_of_mem entry h)
    rw [mapEntries_cons, List.map_cons, List.sum_cons, Nat.mul_add]
    have hends := mapEntry_ends picks hentry built (free entry List.mem_cons_self)
    have hall := hends.bind fun m' hbuilt => ih ⟨htail, hrest⟩ hbuilt ?_
    · apply hall.mono (Nat.le_refl _)
      intro m'
      apply Built.congr
      intro n w
      simp only [mapCover, List.exists_mem_cons_iff, or_assoc]
    · -- what was mapped for the entry is in no other one
      rintro other hother n hlow hhigh w (hold | ⟨_, hin⟩)
      · exact free other (List.mem_cons_of_mem entry hother) n hlow hhigh w hold
      · exact hfirst other hother _ ⟨contains_of_page hentry hin.1 hin.2.1,
          contains_of_page (htail other hother) hlow hhigh⟩

end Entries

/-! ## Before and after the loop -/

/-- The tables and the free pages when the loop starts. -/
structure Ready (env : Env) (m : Machine) : Prop where
  sized : WellSized m.region
  nodup : (freePages m.region).Nodup
  frames : ∀ page ∈ freePages m.region, IsFrame page
  free : ∀ page ∈ freePages m.region, page ≠ env.pml4 ∧ page ≠ env.tempMappingPt
  temp : env.tempMappingPt ≠ env.pml4

section Around

variable {decode : Reader} {env : Env} {m : Machine} {cover : Nat → Bool → Prop}
  {i : Fin 512} {e : BitVec 64}

theorem Ready.built (ready : Ready env m)
    (empty : ∀ i : Fin 512, part i.val → decode 3 (m.mem env.pml4 i) = .absent) :
    Built decode env (fun _ _ => False) m := by
  have hnone : ∀ {α : Type} {a : α} {P : Prop}, none = some a → P := fun h => nomatch h
  refine ⟨⟨fun _ _ => none, fun _ _ => none⟩, ?_, fun _ _ _ h => hnone h, ?_⟩
  · constructor
    · exact ⟨fun _ _ _ h => hnone h, fun _ _ _ h => hnone h, fun _ _ _ _ h => hnone h,
        fun _ _ _ _ h => hnone h, fun _ _ _ _ _ h _ => hnone h, fun _ _ _ h => hnone h,
        fun _ _ _ h => hnone h⟩
    · intro l b f le home inPart
      rw [Directory.home] at home
      split_ifs at home with htop
      · obtain rfl := Option.some.inj home
        subst htop
        have hpart := inPart rfl
        refine empty _ ?_
        rwa [Fin.val_ofNat, Nat.mod_eq_of_lt (part_small b hpart)]
    · exact ready.sized
    · exact ready.nodup
    · exact ready.frames
    · exact fun page h => ⟨(ready.free page h).2, (ready.free page h).1, fun _ _ => by simp⟩
    · exact ⟨ready.temp, fun _ _ => by simp⟩
    · exact fun _ _ _ h => hnone h
  · exact ⟨fun _ _ _ h => hnone h, fun _ _ _ h => hnone h, fun _ _ _ h => hnone h,
      fun _ _ h => h.elim⟩

/-- Entries of the top-level table that are not for the direct map. -/
theorem Built.writeRoot (built : Built decode env cover m) (outside : ¬ part i.val) :
    Built decode env cover (write m env.pml4 i e) := by
  obtain ⟨d, hgood, hrest⟩ := built
  refine ⟨d, { hgood with holds := hgood.holds.congr ?_ }, hrest⟩
  rintro g j ⟨l, b, _, hhome, hpart, rfl⟩
  rw [write_mem]
  by_cases hg : g = env.pml4
  · subst hg
    rw [Directory.home] at hhome
    split_ifs at hhome with htop
    · refine setEntry_index _ ?_
      rintro rfl
      apply outside
      have hb := hpart htop
      rwa [Fin.val_ofNat, Nat.mod_eq_of_lt (part_small b hb)]
    · exact absurd rfl (hgood.wf.below _ _ _ hhome)
  · exact congrFun (setEntry_table _ _ hg) _

end Around

/-! ## What is found -/

/-- The number of a page, in the 48 bits of a virtual address that are translated. -/
def pageNumber (vaddr : BitVec 64) : Nat := vaddr.toNat % 2 ^ 48 / 0x1000

/-- The physical address for a virtual one whose leaf was found, and if it can be written. -/
def translated (vaddr : BitVec 64) : Nat × (BitVec 64 × Bool) → Nat × Bool
  | (l, base, writeable) => (base.toNat + vaddr.toNat % (0x1000 * 512 ^ l), writeable)

/-- The direct map is that of the memory map: what is in an entry of the types for it is at its
place, and nothing else is there. -/
def Exact (memmap : List MemMapEntry) (translate : BitVec 64 → Option (Nat × Bool)) : Prop :=
  ∀ p : BitVec 64, p < maxPhysAddr →
    (∀ entry ∈ memmap, Contains entry p.toNat → ∀ writeable,
      mappedType entry.type = some writeable →
        translate (vmmPhysToVirt p) = some (p.toNat, writeable)) ∧
    ((∀ entry ∈ memmap, Contains entry p.toNat → mappedType entry.type = none) →
      translate (vmmPhysToVirt p) = none)

/-- There is a whole terapage in the entry. -/
def HasTerapage (entry : MemMapEntry) : Prop :=
  ∃ t, entry.base.toNat ≤ t * 2 ^ 39 ∧
    t * 2 ^ 39 + 2 ^ 39 ≤ entry.base.toNat + entry.length.toNat

section Found

variable {decode : Reader} {env : Env} {m : Machine} {cover : Nat → Bool → Prop} {p : BitVec 64}
  {terapages : Prop} {entry other : MemMapEntry} {memmap : List MemMapEntry} {w : Bool}

theorem lt_maxPhysAddr_iff : p < maxPhysAddr ↔ p.toNat < 127 * 2 ^ 40 := by
  have hmax : maxPhysAddr.toNat = 127 * 2 ^ 40 := by decide
  rw [BitVec.lt_def, hmax]

theorem pageNumber_virt (below : p.toNat < 127 * 2 ^ 40) :
    pageNumber (vmmPhysToVirt p) = pageOf p := by
  rw [pageNumber, toNat_vmmPhysToVirt below, pageOf]
  omega

theorem Good.walk_eq {d : Dir} (good : Good decode env m d) (below : p.toNat < 127 * 2 ^ 40) :
    walk 512 decode m.mem 3 env.pml4 (pageOf p) = d.lookup 512 3 (pageOf p) := by
  apply good.holds.walk_eq (Nat.le_refl 3) _ (if_pos rfl)
  rw [part, pageOf]
  omega

theorem Built.walk_covered (built : Built decode env cover m) (below : p.toNat < 127 * 2 ^ 40)
    (covered : cover (pageOf p) w) :
    (walk 512 decode m.mem 3 env.pml4 (pageOf p)).map (translated (vmmPhysToVirt p)) =
      some (p.toNat, w) := by
  obtain ⟨d, hgood, _, hcovers⟩ := built
  obtain ⟨l, ⟨base, w'⟩, hleaf, rfl⟩ := hcovers.found _ w covered
  have hbase := hcovers.bases _ _ _ hleaf
  have hsize := hcovers.sizes _ _ _ hleaf
  have hvirt := toNat_vmmPhysToVirt below
  rw [hgood.walk_eq below, hgood.wf.lookup_iff.mpr hleaf]
  simp only [Option.map_some, translated, hvirt, Option.some.injEq, Prod.mk.injEq, and_true]
  simp only [pageOf] at hbase
  obtain rfl | rfl | rfl : l = 0 ∨ l = 1 ∨ l = 2 := by omega
  all_goals omega

theorem Built.walk_uncovered (built : Built decode env cover m) (below : p.toNat < 127 * 2 ^ 40)
    (uncovered : ∀ w, ¬ cover (pageOf p) w) :
    walk 512 decode m.mem 3 env.pml4 (pageOf p) = none := by
  obtain ⟨d, hgood, _, hcovers⟩ := built
  rw [hgood.walk_eq below, Option.eq_none_iff_forall_ne_some]
  rintro ⟨l, a⟩ h
  exact uncovered a.2 (hcovers.covered l _ a (hgood.wf.lookup_iff.mp h))

theorem inRegion_iff (fits : Fits entry.base entry.length) :
    InRegion terapages (pageOf entry.base) (pages entry.length) (pageOf p) ↔
      Contains entry p.toNat ∧ ¬ (terapages ∧ entry.base.toNat ≤ p.toNat / 2 ^ 39 * 2 ^ 39 ∧
        p.toNat / 2 ^ 39 * 2 ^ 39 + 2 ^ 39 ≤ entry.base.toNat + entry.length.toNat) := by
  have hstart := fits.start
  have hwhole := fits.whole
  simp only [InRegion, Contains, pageOf, pages]
  by_cases h : terapages
  · simp only [h, true_and]
    omega
  · simp only [h, false_and, not_false_eq_true, and_true]
    omega

/-- An address is in one entry. -/
theorem Sound.entry_unique (sound : Sound memmap) (mem : entry ∈ memmap) (mem' : other ∈ memmap)
    {n : Nat} (inside : Contains entry n) (inside' : Contains other n) : entry = other := by
  by_contra hne
  have hsymm : Std.Symm fun e e' : MemMapEntry => ∀ n, ¬ (Contains e n ∧ Contains e' n) :=
    ⟨fun e e' h n hboth => h n hboth.symm⟩
  exact sound.apart.forall mem mem' hne n ⟨inside, inside'⟩

/-- The direct map is exact but for the terapages. -/
theorem Built.exact_iff (sound : Sound memmap)
    (built : Built decode env (mapCover terapages memmap) m)
    {translate : BitVec 64 → Option (Nat × Bool)}
    (walks : ∀ p : BitVec 64, p.toNat < 127 * 2 ^ 40 → translate (vmmPhysToVirt p) =
      (walk 512 decode m.mem 3 env.pml4 (pageOf p)).map (translated (vmmPhysToVirt p))) :
    Exact memmap translate ↔
      (terapages → ∀ entry ∈ memmap, mappedType entry.type ≠ none → ¬ HasTerapage entry) := by
  constructor
  · rintro exact ht entry hentry hmapped ⟨t, hlow, hhigh⟩
    obtain ⟨w, hw⟩ := Option.ne_none_iff_exists'.mp hmapped
    have hstop := (sound.fits entry hentry).stop
    generalize hp : BitVec.ofNat 64 (t * 2 ^ 39) = p
    have hval : p.toNat = t * 2 ^ 39 := by
      rw [← hp, BitVec.toNat_ofNat]
      omega
    have hbelow : p.toNat < 127 * 2 ^ 40 := by omega
    have hterapage : p.toNat / 2 ^ 39 * 2 ^ 39 = t * 2 ^ 39 := by omega
    have hinside : Contains entry p.toNat := ⟨by omega, by omega⟩
    have hfound := (exact p (lt_maxPhysAddr_iff.mpr hbelow)).1 entry hentry hinside w hw
    -- the walk finds nothing there
    have hnone : ∀ w, ¬ mapCover terapages memmap (pageOf p) w := by
      rintro w ⟨other, hother, _, hin⟩
      obtain ⟨hcontains, hnot⟩ := (inRegion_iff (sound.fits other hother)).mp hin
      obtain rfl := sound.entry_unique hentry hother hinside hcontains
      rw [hterapage] at hnot
      exact hnot ⟨ht, hlow, hhigh⟩
    rw [walks p hbelow, built.walk_uncovered hbelow hnone] at hfound
    cases hfound
  · intro condition p hp
    have hbelow := lt_maxPhysAddr_iff.mp hp
    rw [walks p hbelow]
    constructor
    · intro entry hentry hinside w hw
      apply built.walk_covered hbelow
      refine ⟨entry, hentry, hw, (inRegion_iff (sound.fits entry hentry)).mpr ⟨hinside, ?_⟩⟩
      rintro ⟨ht, hlow, hhigh⟩
      have hmapped : mappedType entry.type ≠ none := by simp [hw]
      exact condition ht entry hentry hmapped ⟨_, hlow, hhigh⟩
    · intro hother
      rw [built.walk_uncovered hbelow, Option.map_none]
      rintro w ⟨entry, hentry, hw, hin⟩
      obtain ⟨hinside, _⟩ := (inRegion_iff (sound.fits entry hentry)).mp hin
      rw [hother entry hentry hinside] at hw
      cases hw

end Found

end DirectMap
