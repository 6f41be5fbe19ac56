import AnosKernel.MapSyscalls

/-!
# Requests for a new process

The checks of `handle_create_process` in `kernel/syscalls.c`, and the loop of `address_space_create`
in `kernel/process/address_space.c` that maps the stack. Both compute with 64 bits that wrap. The
handler reads its parameters and the descriptors of the regions from the caller's memory.
-/

namespace ProcessCreate

open PageAlloc MapSyscalls

def vmKernelSpaceStart : BitVec 64 := 0xffff800000000000
def minProcessStackHeadroom : BitVec 64 := 1024
def stackValueSize : BitVec 64 := 8
def maxStackValueCount : BitVec 64 := 16384
def maxProcessRegions : BitVec 8 := 16

structure ProcessMemoryRegion where
  start : BitVec 64
  lenBytes : BitVec 64

structure ProcessCreateParams where
  stackBase : BitVec 64
  stackSize : BitVec 64
  regionCount : BitVec 8
  regions : BitVec 64
  stackValueCount : BitVec 16

/-- The records that the handler finds at an address. -/
structure UserMemory where
  params : BitVec 64 → ProcessCreateParams
  region : BitVec 64 → ProcessMemoryRegion

/-- The loop over the region descriptors, from the `i`-th on; none if one is rejected. -/
def copyRegions (memory : UserMemory) (regions : BitVec 64) :
    Nat → Nat → Option (List ProcessMemoryRegion)
  | 0, _ => some []
  | count + 1, i =>
    let srcPtr := regions + BitVec.ofNat 64 (16 * i)
    if srcPtr > vmKernelSpaceStart then none
    else if srcPtr + 16 > vmKernelSpaceStart then none
    else if (memory.region srcPtr).start &&& 0xfff ≠ 0 then none
    else if (memory.region srcPtr).lenBytes &&& 0xfff ≠ 0 then none
    else (copyRegions memory regions count (i + 1)).map (memory.region srcPtr :: ·)

/-- The checks of `handle_create_process`: none is `RESULT_BADARGS`, and otherwise the regions go
on to `address_space_create`. -/
def acceptProcess (memory : UserMemory) (arg0 : BitVec 64) : Option (List ProcessMemoryRegion) :=
  let params := memory.params arg0
  if ¬ isUserAddress arg0 ∨ ¬ isUserAddress (arg0 + 64) then none
  else if params.stackBase ≥ vmKernelSpaceStart ∨
      params.stackBase + params.stackSize ≥ vmKernelSpaceStart then none
  else if params.stackValueCount.zeroExtend 64 > maxStackValueCount then none
  else if params.stackValueCount.zeroExtend 64 * stackValueSize >
      params.stackSize - minProcessStackHeadroom then none
  else if params.regionCount > maxProcessRegions then none
  else copyRegions memory params.regions params.regionCount.toNat 0

/-! ## What an accepted request keeps to -/

/-- The stack ends below the kernel's space and has room for its values, and all pages of the
regions are below the kernel's space. -/
structure Confined (params : ProcessCreateParams) (regions : List ProcessMemoryRegion) : Prop where
  stack : params.stackBase.toNat + params.stackSize.toNat ≤ vmKernelSpaceStart.toNat
  values : params.stackValueCount.toNat * 8 + 1024 ≤ params.stackSize.toNat
  pages : ∀ region ∈ regions, ∀ j, j * 4096 < region.lenBytes.toNat →
    region.start.toNat + (j + 1) * 4096 ≤ vmKernelSpaceStart.toNat

theorem toNat_vmKernelSpaceStart : vmKernelSpaceStart.toNat = 2 ^ 64 - 2 ^ 47 := rfl

/-- Regions that were copied are page-aligned; nothing more is asked of them. -/
theorem copyRegions_aligned {memory : UserMemory} {regions : BitVec 64} {count i : Nat}
    {result : List ProcessMemoryRegion} (h : copyRegions memory regions count i = some result) :
    ∀ region ∈ result, region.start.toNat % 4096 = 0 ∧ region.lenBytes.toNat % 4096 = 0 := by
  induction count generalizing i result with
  | zero =>
    cases h
    exact fun region hr => absurd hr List.not_mem_nil
  | succ count ih =>
    simp only [copyRegions] at h
    split_ifs at h with h1 h2 h3 h4
    obtain ⟨rest, hrest, rfl⟩ := Option.map_eq_some_iff.mp h
    intro region hr
    rcases List.mem_cons.mp hr with rfl | hr
    · exact ⟨(Masks.and_low_eq_zero_iff (k := 12) rfl).mp (not_not.mp h3),
        (Masks.and_low_eq_zero_iff (k := 12) rfl).mp (not_not.mp h4)⟩
    · exact ih hrest region hr

/-- All pages of a region are below a page-aligned limit if it ends there. -/
theorem pages_below_iff {start len limit : Nat} (aligned : len % 4096 = 0) :
    (∀ j, j * 4096 < len → start + (j + 1) * 4096 ≤ limit) ↔ len = 0 ∨ start + len ≤ limit := by
  constructor
  · intro h
    by_cases hempty : len = 0
    · exact Or.inl hempty
    · have hlast := h (len / 4096 - 1) (by omega)
      exact Or.inr (by omega)
  · rintro (rfl | hend) j hj
    · omega
    · omega

/-- What the checks leave of the stack's arguments. -/
theorem acceptProcess_checks {memory : UserMemory} {arg0 : BitVec 64}
    {regions : List ProcessMemoryRegion} (h : acceptProcess memory arg0 = some regions) :
    (memory.params arg0).stackBase < vmKernelSpaceStart ∧
    (memory.params arg0).stackBase + (memory.params arg0).stackSize < vmKernelSpaceStart ∧
    (memory.params arg0).stackValueCount.zeroExtend 64 * stackValueSize ≤
      (memory.params arg0).stackSize - minProcessStackHeadroom ∧
    copyRegions memory (memory.params arg0).regions (memory.params arg0).regionCount.toNat 0 =
      some regions := by
  simp only [acceptProcess] at h
  split_ifs at h with h1 h2 h3 h4 h5
  obtain ⟨hbase, hend⟩ := not_or.mp h2
  exact ⟨BitVec.not_le.mp hbase, BitVec.not_le.mp hend, BitVec.not_lt.mp h4, h⟩

/-- A request that is accepted keeps to its bounds exactly if the stack does not wrap around the
address space, has the headroom, and every region ends below the kernel's space: none of this is
seen by the checks. -/
theorem acceptProcess_confined_iff {memory : UserMemory} {arg0 : BitVec 64}
    {regions : List ProcessMemoryRegion} (h : acceptProcess memory arg0 = some regions) :
    Confined (memory.params arg0) regions ↔
      (memory.params arg0).stackBase.toNat + (memory.params arg0).stackSize.toNat < 2 ^ 64 ∧
      1024 ≤ (memory.params arg0).stackSize.toNat ∧
      ∀ region ∈ regions, region.lenBytes.toNat = 0 ∨
        region.start.toNat + region.lenBytes.toNat ≤ 2 ^ 64 - 2 ^ 47 := by
  obtain ⟨hbase, hend, hvalues, hregions⟩ := acceptProcess_checks h
  have haligned := copyRegions_aligned hregions
  generalize memory.params arg0 = params at hbase hend hvalues
  have hend' : (params.stackBase.toNat + params.stackSize.toNat) % 2 ^ 64 < 2 ^ 64 - 2 ^ 47 := by
    rw [← BitVec.toNat_add]
    exact hend
  have hcount := params.stackValueCount.isLt
  have hsize := params.stackSize.isLt
  have hvalues' : params.stackValueCount.toNat * 8 ≤
      (2 ^ 64 - 1024 + params.stackSize.toNat) % 2 ^ 64 := by
    have hle : (params.stackValueCount.zeroExtend 64 * stackValueSize).toNat ≤
        (params.stackSize - minProcessStackHeadroom).toNat := hvalues
    rw [BitVec.toNat_sub, BitVec.toNat_mul, BitVec.toNat_setWidth] at hle
    have h8 : stackValueSize.toNat = 8 := rfl
    have h1024 : minProcessStackHeadroom.toNat = 1024 := rfl
    rw [h8, h1024] at hle
    omega
  constructor
  · rintro ⟨hstack, hroom, hpages⟩
    rw [toNat_vmKernelSpaceStart] at hstack
    refine ⟨by omega, by omega, fun region hr => ?_⟩
    exact (pages_below_iff (haligned region hr).2).mp (hpages region hr)
  · rintro ⟨hwrap, hroom, hpages⟩
    refine ⟨?_, by omega, fun region hr => ?_⟩
    · rw [toNat_vmKernelSpaceStart]
      omega
    · exact (pages_below_iff (haligned region hr).2).mpr (hpages region hr)

/-- A caller that asks for one region, with its descriptor at `0x5000`. -/
def asking (stackBase stackSize : BitVec 64) (stackValueCount : BitVec 16)
    (region : ProcessMemoryRegion) : UserMemory where
  params := fun _ =>
    { stackBase := stackBase, stackSize := stackSize, regionCount := 1, regions := 0x5000,
      stackValueCount := stackValueCount }
  region := fun _ => region

theorem acceptProcess_confined_iff_small :
    ∃ regions, acceptProcess (asking 0x400000 0x2000 4 ⟨0x600000, 0x3000⟩) 0x7000 = some regions ∧
      Confined ((asking 0x400000 0x2000 4 ⟨0x600000, 0x3000⟩).params 0x7000) regions := by
  refine ⟨[⟨0x600000, 0x3000⟩], rfl, (acceptProcess_confined_iff rfl).mpr ?_⟩
  refine ⟨by decide, by decide, ?_⟩
  intro region hr
  obtain rfl := List.mem_singleton.mp hr
  exact Or.inr (by decide)

/-- Three requests are accepted: a stack that wraps around the address space, one of half the
headroom, and a region in the kernel's space. -/
theorem unconfined_requests_accepted :
    (∃ regions, acceptProcess (asking 0x1000 0xfffffffffffff000 0 ⟨0, 0⟩) 0x7000 = some regions ∧
      ¬ Confined ((asking 0x1000 0xfffffffffffff000 0 ⟨0, 0⟩).params 0x7000) regions) ∧
    (∃ regions, acceptProcess (asking 0x400000 512 0 ⟨0, 0⟩) 0x7000 = some regions ∧
      ¬ Confined ((asking 0x400000 512 0 ⟨0, 0⟩).params 0x7000) regions) ∧
    ∃ regions, acceptProcess (asking 0x400000 0x2000 0 ⟨0xffff800000000000, 0x1000⟩) 0x7000 =
        some regions ∧
      ¬ Confined ((asking 0x400000 0x2000 0 ⟨0xffff800000000000, 0x1000⟩).params 0x7000)
        regions := by
  refine ⟨⟨[⟨0, 0⟩], rfl, ?_⟩, ⟨[⟨0, 0⟩], rfl, ?_⟩, ⟨[⟨0xffff800000000000, 0x1000⟩], rfl, ?_⟩⟩
  · intro h
    exact absurd h.stack (by decide)
  · intro h
    exact absurd h.values (by decide)
  · intro h
    exact absurd (h.pages _ List.mem_cons_self 0 (by decide)) (by decide)

/-! ## Mapping the stack -/

/-- The loop that maps the stack downwards. A step allocates a page for an address and maps it; none
is a failed allocation, with which `address_space_create` returns. -/
def mapStackLoop {σ : Type} (step : σ → BitVec 64 → Option σ) (initStackVaddr : BitVec 64) :
    Nat → BitVec 64 → σ → Option (Bool × σ)
  | 0, _, _ => none
  | fuel + 1, ptr, s =>
    if ptr ≥ initStackVaddr then
      match step s ptr with
      | none => some (false, s)
      | some s' => mapStackLoop step initStackVaddr fuel (ptr - vmPageSize) s'
    else some (true, s)

def mapStack {σ : Type} (step : σ → BitVec 64 → Option σ) (fuel : Nat)
    (initStackVaddr initStackLen : BitVec 64) (s : σ) : Option (Bool × σ) :=
  let initStackVaddr := initStackVaddr &&& 0xfffffffffffff000
  let initStackEnd := initStackVaddr + initStackLen
  if initStackLen ≠ 0 then mapStackLoop step initStackVaddr fuel (initStackEnd - vmPageSize) s
  else some (true, s)

/-- A step that also records the addresses it was taken for. -/
def recording {σ : Type} (step : σ → BitVec 64 → Option σ) (s : σ × List (BitVec 64))
    (ptr : BitVec 64) : Option (σ × List (BitVec 64)) :=
  (step s.1 ptr).map fun s' => (s', s.2 ++ [ptr])

/-- The addresses that were mapped, for a stack from `base` to `base + len`, numbers that do not
wrap. -/
structure Covered (base len : Nat) (done : Bool) (mapped : List (BitVec 64)) : Prop where
  /-- The pointer was never moved below zero. -/
  above : len ≠ 0 → 4096 ≤ (base + len) % 2 ^ 64 ∧ ∀ ptr ∈ mapped, 4096 ≤ ptr.toNat
  only : ∀ ptr ∈ mapped,
    ptr.toNat / 4096 * 4096 < base + len ∧ base < ptr.toNat / 4096 * 4096 + 4096
  every : done = true → ∀ page, page % 4096 = 0 → page < base + len → base < page + 4096 →
    ∃ ptr ∈ mapped, ptr.toNat / 4096 * 4096 = page

/-- Whatever allocations and mappings do, the loop ends, having mapped the pages of the stack and
no others; if an allocation fails, it may have mapped only some. -/
def MapsStack (stackBase stackSize : BitVec 64) : Prop :=
  ∀ (σ : Type) (step : σ → BitVec 64 → Option σ) (s : σ),
    ∃ fuel done s' mapped,
      mapStack (recording step) fuel stackBase stackSize (s, []) = some (done, s', mapped) ∧
      Covered (stackBase.toNat / 4096 * 4096) stackSize.toNat done mapped

section Loop

variable {σ : Type} {step : σ → BitVec 64 → Option σ} {initStackVaddr ptr : BitVec 64} {s s' : σ}
  {fuel : Nat} {done : Bool} {acc mapped : List (BitVec 64)}

/-- From the lowest page on there is no address below. -/
theorem mapStackLoop_zero : mapStackLoop step 0 fuel ptr s ≠ some (true, s') := by
  induction fuel generalizing ptr s with
  | zero =>
    intro h
    cases h
  | succ fuel ih =>
    have hge : ptr ≥ 0 := Nat.zero_le ptr.toNat
    rw [mapStackLoop, if_pos hge]
    cases step s ptr with
    | none =>
      intro h
      cases h
    | some s1 => exact ih

/-- Where no step fails, the loop ends by itself. -/
theorem mapStackLoop_done
    (h : mapStackLoop (recording fun (_ : Unit) _ => some ()) initStackVaddr fuel ptr ((), acc) =
      some (done, (), mapped)) : done = true := by
  induction fuel generalizing ptr acc with
  | zero => cases h
  | succ fuel ih =>
    by_cases hge : ptr ≥ initStackVaddr
    · rw [mapStackLoop, if_pos hge] at h
      exact ih h
    · rw [mapStackLoop, if_neg hge] at h
      simp only [Option.some.injEq, Prod.mk.injEq] at h
      exact h.1.symm

/-- What the loop maps is at or above the start of the stack and at or below where it began, as
long as the pointer does not wrap. -/
theorem mapStackLoop_bounds
    (h : mapStackLoop (recording step) initStackVaddr fuel ptr (s, acc) = some (done, s', mapped)) :
    (∀ p ∈ acc, p ∈ mapped) ∧ ∀ p ∈ mapped, p ∈ acc ∨ initStackVaddr.toNat ≤ p.toNat ∧
      ((∀ q ∈ mapped, 4096 ≤ q.toNat) → p.toNat ≤ ptr.toNat) := by
  induction fuel generalizing ptr s acc with
  | zero => cases h
  | succ fuel ih =>
    by_cases hge : ptr ≥ initStackVaddr
    · rw [mapStackLoop, if_pos hge, recording] at h
      cases hstep : step s ptr with
      | none =>
        simp only [hstep, Option.map_none, Option.some.injEq, Prod.mk.injEq] at h
        obtain ⟨-, -, rfl⟩ := h
        exact ⟨fun p hp => hp, fun p hp => Or.inl hp⟩
      | some s1 =>
        simp only [hstep, Option.map_some] at h
        obtain ⟨hkept, hbounds⟩ := ih h
        have hptr : ptr ∈ mapped := hkept ptr (List.mem_append_right _ List.mem_cons_self)
        refine ⟨fun p hp => hkept p (List.mem_append_left _ hp), fun p hp => ?_⟩
        rcases hbounds p hp with hp | ⟨hlow, hhigh⟩
        · rcases List.mem_append.mp hp with hp | hp
          · exact Or.inl hp
          · obtain rfl := List.mem_singleton.mp hp
            exact Or.inr ⟨hge, fun _ => le_rfl⟩
        · refine Or.inr ⟨hlow, fun habove => ?_⟩
          have hle := hhigh habove
          have hpage : vmPageSize.toNat = 4096 := rfl
          have hsub : (ptr - vmPageSize).toNat = ptr.toNat - 4096 := by
            rw [BitVec.toNat_sub_of_le (habove ptr hptr), hpage]
          omega
    · rw [mapStackLoop, if_neg hge] at h
      simp only [Option.some.injEq, Prod.mk.injEq] at h
      obtain ⟨-, -, rfl⟩ := h
      exact ⟨fun p hp => hp, fun p hp => Or.inl hp⟩

theorem next_page {a b : Nat} (ha : a % 4096 = 0) (hb : b % 4096 = 0) (h : a < b) :
    a + 4096 ≤ b := by
  omega

/-- `j` pages are left to map, from the start of the stack on. -/
structure Upper (start top : Nat) (j : Nat) (acc : List (BitVec 64)) : Prop where
  inside : ∀ p ∈ acc, p.toNat % 4096 = 0 ∧ start ≤ p.toNat ∧ p.toNat < top
  done : ∀ page, page % 4096 = 0 → start + 4096 * j ≤ page → page < top →
    ∃ p ∈ acc, p.toNat = page

theorem mapStackLoop_covers {start top j : Nat} (hstart : initStackVaddr.toNat = start)
    (aligned : start % 4096 = 0) (low : 4096 ≤ start) (high : start + 4096 * j ≤ top)
    (hptr : ptr.toNat + 4096 = start + 4096 * j) (upper : Upper start top j acc) :
    ∃ done s' mapped,
      mapStackLoop (recording step) initStackVaddr (j + 1) ptr (s, acc) = some (done, s', mapped) ∧
      (∀ p ∈ mapped, p.toNat % 4096 = 0 ∧ start ≤ p.toNat ∧ p.toNat < top) ∧
      (done = true → Upper start top 0 mapped) := by
  induction j generalizing ptr s acc with
  | zero =>
    have hlt : ¬ ptr ≥ initStackVaddr := by
      intro hge
      have hge' : initStackVaddr.toNat ≤ ptr.toNat := hge
      omega
    exact ⟨true, s, acc, if_neg hlt, upper.inside, fun _ => upper⟩
  | succ j ih =>
    have hge : ptr ≥ initStackVaddr := by
      show initStackVaddr.toNat ≤ ptr.toNat
      omega
    rw [mapStackLoop, if_pos hge, recording]
    cases step s ptr with
    | none => exact ⟨false, s, acc, rfl, upper.inside, fun h => absurd h (by decide)⟩
    | some s1 =>
      have hpage : vmPageSize.toNat = 4096 := rfl
      have hle : vmPageSize ≤ ptr := by
        show vmPageSize.toNat ≤ ptr.toNat
        omega
      have hsub : (ptr - vmPageSize).toNat = ptr.toNat - 4096 := by
        rw [BitVec.toNat_sub_of_le hle, hpage]
      refine ih (by omega) (by omega) ⟨fun p hp => ?_, fun page hmod hlow hhigh => ?_⟩
      · rcases List.mem_append.mp hp with hp | hp
        · exact upper.inside p hp
        · obtain rfl := List.mem_singleton.mp hp
          exact ⟨by omega, by omega, by omega⟩
      · by_cases hnew : page = ptr.toNat
        · exact ⟨ptr, List.mem_append_right _ List.mem_cons_self, hnew.symm⟩
        · have hnext : ptr.toNat + 4096 ≤ page := next_page (by omega) hmod (by omega)
          obtain ⟨p, hp, heq⟩ := upper.done page hmod (hptr ▸ hnext) hhigh
          exact ⟨p, List.mem_append_left _ hp, heq⟩

end Loop

theorem toNat_alignDown (a : BitVec 64) :
    (a &&& 0xfffffffffffff000).toNat = a.toNat / 4096 * 4096 :=
  Masks.toNat_and_high a _ 12 (by norm_num) rfl

/-- The bounds of what is mapped, for a stack from `start` on that is not empty. -/
theorem mapStack_eq {σ : Type} (step : σ → BitVec 64 → Option σ) (fuel : Nat)
    (stackBase : BitVec 64) {stackSize : BitVec 64} (hsize : stackSize.toNat ≠ 0) (s : σ) :
    mapStack step fuel stackBase stackSize s =
      mapStackLoop step (stackBase &&& 0xfffffffffffff000) fuel
        ((stackBase &&& 0xfffffffffffff000) + stackSize - vmPageSize) s := by
  have hne : stackSize ≠ 0 := by
    rintro rfl
    exact hsize rfl
  simp only [mapStack, if_pos hne]

/-- A stack that begins above the first page, is a whole number of pages and does not wrap is
mapped; so is an empty one. -/
theorem mapsStack_of {stackBase stackSize : BitVec 64}
    (h : stackSize.toNat = 0 ∨ 4096 ≤ stackBase.toNat ∧ stackSize.toNat % 4096 = 0 ∧
      stackBase.toNat + stackSize.toNat < 2 ^ 64) : MapsStack stackBase stackSize := by
  intro σ step s
  by_cases hsize : stackSize.toNat = 0
  · refine ⟨0, true, s, [], ?_, ?_⟩
    · have hzero : stackSize = 0 := BitVec.eq_of_toNat_eq hsize
      simp only [mapStack, hzero, ne_eq, not_true, if_false]
    · rw [hsize]
      refine ⟨fun hne => absurd rfl hne, fun ptr hp => absurd hp List.not_mem_nil, ?_⟩
      intro _ page hmod hlt hgt
      omega
  · obtain ⟨hlow, hmod, hwrap⟩ := h.resolve_left hsize
    have hstart := toNat_alignDown stackBase
    have hpage : vmPageSize.toNat = 4096 := rfl
    have hend : ((stackBase &&& 0xfffffffffffff000) + stackSize - vmPageSize).toNat + 4096 =
        stackBase.toNat / 4096 * 4096 + 4096 * (stackSize.toNat / 4096) := by
      have hsum : ((stackBase &&& 0xfffffffffffff000) + stackSize).toNat =
          stackBase.toNat / 4096 * 4096 + stackSize.toNat := by
        rw [BitVec.toNat_add, hstart]
        omega
      have hle : vmPageSize ≤ (stackBase &&& 0xfffffffffffff000) + stackSize := by
        show vmPageSize.toNat ≤ _
        omega
      rw [BitVec.toNat_sub_of_le hle, hsum, hpage]
      omega
    have hloop : ∃ done s' mapped, mapStackLoop (recording step)
        (stackBase &&& 0xfffffffffffff000) (stackSize.toNat / 4096 + 1)
        ((stackBase &&& 0xfffffffffffff000) + stackSize - vmPageSize) (s, []) =
          some (done, s', mapped) ∧
        (∀ p ∈ mapped, p.toNat % 4096 = 0 ∧ stackBase.toNat / 4096 * 4096 ≤ p.toNat ∧
          p.toNat < stackBase.toNat / 4096 * 4096 + stackSize.toNat) ∧
        (done = true → Upper (stackBase.toNat / 4096 * 4096)
          (stackBase.toNat / 4096 * 4096 + stackSize.toNat) 0 mapped) :=
      mapStackLoop_covers hstart (by omega) (by omega) (by omega) hend
        ⟨fun p hp => absurd hp List.not_mem_nil, fun page hm hl hh => by omega⟩
    obtain ⟨done, s', mapped, hrun, hinside, hdone⟩ := hloop
    refine ⟨stackSize.toNat / 4096 + 1, done, s', mapped, ?_, ?_⟩
    · rw [mapStack_eq _ _ _ hsize]
      exact hrun
    · refine ⟨fun _ => ⟨by omega, fun p hp => ?_⟩, fun p hp => ?_, fun hok page hm hlt hgt => ?_⟩
      · have hp' := hinside p hp
        omega
      · have hp' := hinside p hp
        omega
      · obtain ⟨p, hp, heq⟩ := (hdone hok).done page hm (by omega) hlt
        exact ⟨p, hp, by omega⟩

/-- An end inside a page: no address a page below it is in that page. -/
theorem top_page_short {start len : Nat} (aligned : start % 4096 = 0) (part : len % 4096 ≠ 0) :
    (start + len) / 4096 * 4096 < start + len ∧ start < (start + len) / 4096 * 4096 + 4096 ∧
      ∀ p, p + 4096 ≤ start + len → p / 4096 * 4096 ≠ (start + len) / 4096 * 4096 := by
  refine ⟨by omega, by omega, fun p hp => ?_⟩
  omega

/-- A stack is mapped only if it is empty, or begins above the first page, is a whole number of
pages and does not wrap. -/
theorem mapsStack_bounds {stackBase stackSize : BitVec 64} (h : MapsStack stackBase stackSize) :
    stackSize.toNat = 0 ∨ 4096 ≤ stackBase.toNat ∧ stackSize.toNat % 4096 = 0 ∧
      stackBase.toNat + stackSize.toNat < 2 ^ 64 := by
  by_cases hsize : stackSize.toNat = 0
  · exact Or.inl hsize
  refine Or.inr ?_
  -- allocations that never fail leave the loop no other end than its own
  obtain ⟨fuel, done, s', mapped, hrun, hcovered⟩ := h Unit (fun _ _ => some ()) ()
  rw [mapStack_eq _ _ _ hsize] at hrun
  have hstart := toNat_alignDown stackBase
  have hdone : done = true := mapStackLoop_done hrun
  obtain ⟨hfirst, habove⟩ := hcovered.above hsize
  obtain ⟨-, hbounds⟩ := mapStackLoop_bounds hrun
  have hpage : vmPageSize.toNat = 4096 := rfl
  have hend : ((stackBase &&& 0xfffffffffffff000) + stackSize - vmPageSize).toNat + 4096 =
      (stackBase.toNat / 4096 * 4096 + stackSize.toNat) % 2 ^ 64 := by
    have hsum : ((stackBase &&& 0xfffffffffffff000) + stackSize).toNat =
        (stackBase.toNat / 4096 * 4096 + stackSize.toNat) % 2 ^ 64 := by
      rw [BitVec.toNat_add, hstart]
    have hle : vmPageSize ≤ (stackBase &&& 0xfffffffffffff000) + stackSize := by
      show vmPageSize.toNat ≤ _
      omega
    rw [BitVec.toNat_sub_of_le hle, hsum, hpage]
    omega
  have hmapped : ∀ p ∈ mapped, stackBase.toNat / 4096 * 4096 ≤ p.toNat ∧
      p.toNat + 4096 ≤ (stackBase.toNat / 4096 * 4096 + stackSize.toNat) % 2 ^ 64 := by
    intro p hp
    obtain ⟨hlow, hhigh⟩ := (hbounds p hp).resolve_left List.not_mem_nil
    exact ⟨hstart ▸ hlow, hend ▸ Nat.add_le_add_right (hhigh habove) 4096⟩
  have hlow : stackBase.toNat / 4096 * 4096 ≠ 0 := by
    intro hzero
    have hvaddr : stackBase &&& 0xfffffffffffff000 = 0 :=
      BitVec.eq_of_toNat_eq (hstart.trans hzero)
    rw [hdone, hvaddr] at hrun
    exact mapStackLoop_zero hrun
  have hwrap : stackBase.toNat / 4096 * 4096 + stackSize.toNat < 2 ^ 64 := by
    obtain ⟨p, hp, -⟩ := hcovered.every hdone (stackBase.toNat / 4096 * 4096) (by omega) (by omega)
      (by omega)
    have hp' := hmapped p hp
    have hbase := stackBase.isLt
    have hlen := stackSize.isLt
    omega
  have hmod : stackSize.toNat % 4096 = 0 := by
    by_contra hpart
    obtain ⟨htop, hin, hshort⟩ := top_page_short (Nat.mul_mod_left _ 4096) hpart
    obtain ⟨p, hp, heq⟩ := hcovered.every hdone _ (Nat.mul_mod_left _ 4096) htop hin
    have hp' := (hmapped p hp).2
    rw [Nat.mod_eq_of_lt hwrap] at hp'
    exact hshort p.toNat hp' heq
  exact ⟨by omega, hmod, by omega⟩

/-- The stack is mapped as it should be exactly if it is empty, or begins above the first page, is a
whole number of pages and does not wrap around the address space. -/
theorem mapsStack_iff (stackBase stackSize : BitVec 64) :
    MapsStack stackBase stackSize ↔
      stackSize.toNat = 0 ∨ 4096 ≤ stackBase.toNat ∧ stackSize.toNat % 4096 = 0 ∧
        stackBase.toNat + stackSize.toNat < 2 ^ 64 :=
  ⟨mapsStack_bounds, mapsStack_of⟩

/-- A stack of two pages at the bottom of the address space, which never ends, and one of a page
and a half, whose upper half is not mapped, are both accepted. -/
theorem stack_requests_not_mapped :
    (∃ regions, acceptProcess (asking 0 0x2000 0 ⟨0, 0⟩) 0x7000 = some regions ∧
      ¬ MapsStack 0 0x2000) ∧
    ∃ regions, acceptProcess (asking 0x400000 0x1800 0 ⟨0, 0⟩) 0x7000 = some regions ∧
      ¬ MapsStack 0x400000 0x1800 := by
  refine ⟨⟨[⟨0, 0⟩], rfl, ?_⟩, ⟨[⟨0, 0⟩], rfl, ?_⟩⟩
  · intro h
    exact absurd (mapsStack_bounds h) (by decide)
  · intro h
    exact absurd (mapsStack_bounds h) (by decide)

end ProcessCreate
