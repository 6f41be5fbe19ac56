import AnosKernel.VmMapper

/-!
# The mapping system calls

`handle_map_virtual`, `handle_unmap_virtual` and `handle_map_physical` of
`kernel/syscalls.c`, as they are built by default and for x86_64. The handlers see the mapper
only through `vmm_map_page` and `vmm_unmap_page` on the current address space, so it is a
parameter: any state with any answers. Beside the mapper's state a run records the addresses
these two were called with. A loop takes fuel and answers `none` when it is used up.
-/

namespace MapSyscalls

open PageAlloc VmMapper

inductive SyscallResultType
  | ok
  | failure
  | badNumber
  | notImpl
  | badargs
  | badName
  | incapable
  deriving DecidableEq, Repr

structure SyscallResult where
  type : SyscallResultType
  value : BitVec 64
  deriving DecidableEq, Repr

def resultOk : SyscallResult := { type := .ok, value := 0 }
def resultFailure : SyscallResult := { type := .failure, value := 0 }
def resultBadargs : SyscallResult := { type := .badargs, value := 0 }

/-- What the handlers use of the mapper. -/
structure Vmm (σ : Type) where
  mapPage : σ → BitVec 64 → BitVec 64 → BitVec 16 → Bool × σ
  unmapPage : σ → BitVec 64 → BitVec 64 × σ

structure Run (σ : Type) where
  state : σ
  calls : List (BitVec 64)

section Handlers

variable {σ : Type} (vmm : Vmm σ)

def vmmMapPage (r : Run σ) (virtAddr page : BitVec 64) (flags : BitVec 16) : Bool × Run σ :=
  ((vmm.mapPage r.state virtAddr page flags).1,
    { state := (vmm.mapPage r.state virtAddr page flags).2, calls := r.calls ++ [virtAddr] })

def vmmUnmapPage (r : Run σ) (virtAddr : BitVec 64) : Run σ :=
  { state := (vmm.unmapPage r.state virtAddr).2, calls := r.calls ++ [virtAddr] }

/-- `IS_USER_ADDRESS`. -/
def isUserAddress (addr : BitVec 64) : Bool := addr &&& 0xffff800000000000 == 0

def pageAlign (addr : BitVec 64) : BitVec 64 :=
  if addr &&& 0xfff ≠ 0 then (addr + vmPageSize) &&& 0xfffffffffffff000 else addr

def pgCopyOnWrite : BitVec 64 := 0x40
def pgNocache : BitVec 64 := 0x10
def pgNoexec : BitVec 64 := 0x8000000000000000

/-- The loop that undoes a mapping: it unmaps `addr`, the page that failed, at every turn. -/
def undoMapVirtual (addr : BitVec 64) : Nat → BitVec 64 → Run σ → Option (Run σ)
  | 0, _, _ => none
  | fuel + 1, unmapAddr, r =>
    if unmapAddr < addr then
      undoMapVirtual addr fuel (unmapAddr + vmPageSize) (vmmUnmapPage vmm r addr)
    else some r

def mapVirtualLoop (kernelZeroPage virtualBase virtualEnd vmmFlags : BitVec 64) (turns : Nat) :
    Nat → BitVec 64 → Run σ → Option (SyscallResult × Run σ)
  | 0, _, _ => none
  | fuel + 1, addr, r =>
    if addr < virtualEnd then
      match vmmMapPage vmm r addr kernelZeroPage (vmmFlags.setWidth 16) with
      | (true, r) => mapVirtualLoop kernelZeroPage virtualBase virtualEnd vmmFlags turns fuel
          (addr + vmPageSize) r
      | (false, r) => (undoMapVirtual vmm addr turns virtualBase r).map fun r => (resultFailure, r)
    else some ({ type := .ok, value := virtualBase }, r)

def handleMapVirtual (kernelZeroPage : BitVec 64) (fuel : Nat) (s : σ)
    (arg0 arg1 arg2 : BitVec 64) : Option (SyscallResult × Run σ) :=
  let r : Run σ := { state := s, calls := [] }
  if arg0 = 0 then some (resultBadargs, r)
  else
    let virtualBase := pageAlign arg1
    let size := pageAlign arg0
    if ¬ isUserAddress virtualBase then some (resultBadargs, r)
    else if ¬ isUserAddress (virtualBase + size) then some (resultBadargs, r)
    else
      -- the read and execute bits are zero on this machine
      let vmmFlags := pgPresent ||| pgUser |||
        (if arg2 &&& 0x2 ≠ 0 then pgCopyOnWrite else 0)
      mapVirtualLoop vmm kernelZeroPage virtualBase (virtualBase + size) vmmFlags fuel fuel
        virtualBase r

def unmapVirtualLoop : Nat → BitVec 64 → BitVec 64 → Run σ → Option (Run σ)
  | 0, _, _, _ => none
  | fuel + 1, virtualBase, size, r =>
    if size > 0 then
      unmapVirtualLoop fuel (virtualBase + vmPageSize) (size - vmPageSize)
        (vmmUnmapPage vmm r virtualBase)
    else some r

def handleUnmapVirtual (fuel : Nat) (s : σ) (arg0 arg1 : BitVec 64) :
    Option (SyscallResult × Run σ) :=
  let r : Run σ := { state := s, calls := [] }
  let virtualBase := pageAlign arg1
  let size := pageAlign arg0
  if ¬ isUserAddress virtualBase then some (resultBadargs, r)
  else if ¬ isUserAddress (virtualBase + size) then some (resultBadargs, r)
  else (unmapVirtualLoop vmm fuel virtualBase size r).map fun r => (resultOk, r)

def undoMapPhysical (userVaddr offset : BitVec 64) : Nat → BitVec 64 → Run σ → Option (Run σ)
  | 0, _, _ => none
  | fuel + 1, unmapOffset, r =>
    if unmapOffset < offset then
      undoMapPhysical userVaddr offset fuel (unmapOffset + vmPageSize)
        (vmmUnmapPage vmm r (userVaddr + unmapOffset))
    else some r

def mapPhysicalLoop (physAddr userVaddr size pageFlags : BitVec 64) (turns : Nat) :
    Nat → BitVec 64 → Run σ → Option (SyscallResult × Run σ)
  | 0, _, _ => none
  | fuel + 1, offset, r =>
    if offset < size then
      match vmmMapPage vmm r (userVaddr + offset) (physAddr + offset) (pageFlags.setWidth 16) with
      | (true, r) => mapPhysicalLoop physAddr userVaddr size pageFlags turns fuel
          (offset + vmPageSize) r
      | (false, r) => (undoMapPhysical vmm userVaddr offset turns 0 r).map fun r =>
          (resultFailure, r)
    else some (resultOk, r)

def handleMapPhysical (fuel : Nat) (s : σ) (arg0 arg1 arg2 arg3 : BitVec 64) :
    Option (SyscallResult × Run σ) :=
  let r : Run σ := { state := s, calls := [] }
  if ¬ isUserAddress arg1 then some (resultBadargs, r)
  else if arg1 &&& 0xfff ≠ 0 ∨ arg0 &&& 0xfff ≠ 0 ∨ arg2 &&& 0xfff ≠ 0 then
    some (resultBadargs, r)
  else if ¬ isUserAddress (arg1 + arg2 - 1) then some (resultBadargs, r)
  else
    let pageFlags := pgPresent ||| pgUser |||
      (if arg3 = 0 then 0
      else (if arg3 &&& 0x2 ≠ 0 then pgWrite else 0) |||
        (if arg3 &&& 0x4 = 0 then pgNoexec else 0) |||
        (if arg3 &&& 0x8 ≠ 0 then pgNocache else 0))
    mapPhysicalLoop vmm arg0 arg1 arg2 pageFlags fuel fuel 0 r

end Handlers

/-! ## Addresses -/

theorem isUserAddress_iff {a : BitVec 64} : isUserAddress a ↔ a.toNat < 2 ^ 47 := by
  have hmask : (a &&& 0xffff800000000000).toNat = a.toNat / 2 ^ 47 * 2 ^ 47 :=
    Masks.toNat_and_high a _ 47 (by norm_num) rfl
  have hlt := a.isLt
  rw [isUserAddress, beq_iff_eq]
  constructor
  · intro h
    rw [h] at hmask
    have hzero : (0 : BitVec 64).toNat = 0 := rfl
    omega
  · intro h
    apply BitVec.eq_of_toNat_eq
    have hzero : (0 : BitVec 64).toNat = 0 := rfl
    omega

theorem pageAlign_mod (a : BitVec 64) : (pageAlign a).toNat % 4096 = 0 := by
  unfold pageAlign
  split_ifs with h
  · have hmask : ((a + vmPageSize) &&& 0xfffffffffffff000).toNat =
        (a + vmPageSize).toNat / 2 ^ 12 * 2 ^ 12 := Masks.toNat_and_high _ _ 12 (by norm_num) rfl
    rw [hmask]
    omega
  · exact (Masks.and_low_eq_zero_iff (k := 12) rfl).mp (not_not.mp h)

theorem toNat_add_page {a : BitVec 64} (h : a.toNat + 4096 < 2 ^ 64) :
    (a + vmPageSize).toNat = a.toNat + 4096 := by
  have hpage : vmPageSize.toNat = 4096 := rfl
  rw [BitVec.toNat_add, hpage, Nat.mod_eq_of_lt h]

theorem toNat_sub_page {size : BitVec 64} (pos : size > 0) (hmod : size.toNat % 4096 = 0) :
    4096 ≤ size.toNat ∧ (size - vmPageSize).toNat = size.toNat - 4096 := by
  have hpage : vmPageSize.toNat = 4096 := rfl
  have hsize : 4096 ≤ size.toNat := by bv_omega
  exact ⟨hsize, by bv_omega⟩

/-! ## Calls on user addresses -/

section Safe

variable {σ : Type} {vmm : Vmm σ}

/-- A relation between states that every call on a user address keeps. -/
structure UserCallsKeep (vmm : Vmm σ) (Keeps : σ → σ → Prop) : Prop where
  refl : ∀ s, Keeps s s
  trans : ∀ s t u, Keeps s t → Keeps t u → Keeps s u
  map : ∀ s addr page flags, isUserAddress addr → Keeps s (vmm.mapPage s addr page flags).2
  unmap : ∀ s addr, isUserAddress addr → Keeps s (vmm.unmapPage s addr).2

/-- All calls so far were on user addresses; what such calls keep is as it was at the start. -/
structure Safe (vmm : Vmm σ) (start : σ) (r : Run σ) : Prop where
  calls : ∀ a ∈ r.calls, isUserAddress a
  kept : ∀ Keeps : σ → σ → Prop, UserCallsKeep vmm Keeps → Keeps start r.state

theorem Safe.start (s : σ) : Safe vmm s { state := s, calls := [] } :=
  ⟨fun _ ha => absurd ha List.not_mem_nil, fun _ keep => keep.refl s⟩

theorem Safe.map {start : σ} {r : Run σ} (h : Safe vmm start r) {addr : BitVec 64}
    (user : isUserAddress addr) (page : BitVec 64) (flags : BitVec 16) :
    Safe vmm start (vmmMapPage vmm r addr page flags).2 := by
  refine ⟨fun a ha => ?_, fun Keeps keep => ?_⟩
  · rcases List.mem_append.mp ha with ha | ha
    · exact h.calls a ha
    · exact List.mem_singleton.mp ha ▸ user
  · exact keep.trans _ _ _ (h.kept Keeps keep) (keep.map _ _ _ _ user)

theorem Safe.unmap {start : σ} {r : Run σ} (h : Safe vmm start r) {addr : BitVec 64}
    (user : isUserAddress addr) : Safe vmm start (vmmUnmapPage vmm r addr) := by
  refine ⟨fun a ha => ?_, fun Keeps keep => ?_⟩
  · rcases List.mem_append.mp ha with ha | ha
    · exact h.calls a ha
    · exact List.mem_singleton.mp ha ▸ user
  · exact keep.trans _ _ _ (h.kept Keeps keep) (keep.unmap _ _ user)

/-- The outcome of a handler: it returns, its calls were all on user addresses, and if it
rejects its arguments it has made none. -/
def OnlyUser (vmm : Vmm σ) (s : σ) (handler : Nat → Option (SyscallResult × Run σ)) : Prop :=
  ∃ fuel result r, handler fuel = some (result, r) ∧ Safe vmm s r ∧
    (result.type = .badargs → r.calls = [] ∧ r.state = s)

theorem undoMapVirtual_safe {start : σ} {addr unmapAddr : BitVec 64} {r : Run σ} {fuel : Nat}
    (h : Safe vmm start r) (user : isUserAddress addr)
    (enough : addr.toNat ≤ unmapAddr.toNat + 4096 * fuel) :
    ∃ r', undoMapVirtual vmm addr (fuel + 1) unmapAddr r = some r' ∧ Safe vmm start r' := by
  induction fuel generalizing unmapAddr r with
  | zero =>
    have hdone : ¬ unmapAddr < addr := by bv_omega
    exact ⟨r, if_neg hdone, h⟩
  | succ fuel ih =>
    have haddr := isUserAddress_iff.mp user
    by_cases hlt : unmapAddr < addr
    · have hnext := toNat_add_page (a := unmapAddr) (by bv_omega)
      obtain ⟨r', hrun, hsafe⟩ := ih (h.unmap user) (by omega : addr.toNat ≤
        (unmapAddr + vmPageSize).toNat + 4096 * fuel)
      exact ⟨r', (if_pos hlt).trans hrun, hsafe⟩
    · exact ⟨r, if_neg hlt, h⟩

theorem mapVirtualLoop_safe {start : σ} {kernelZeroPage virtualBase virtualEnd vmmFlags addr : BitVec 64}
    {r : Run σ} {turns fuel : Nat} (h : Safe vmm start r) (user : isUserAddress virtualEnd)
    (turnsEnough : 2 ^ 47 ≤ 4096 * turns) (enough : virtualEnd.toNat ≤ addr.toNat + 4096 * fuel) :
    ∃ result r', mapVirtualLoop vmm kernelZeroPage virtualBase virtualEnd vmmFlags (turns + 1)
        (fuel + 1) addr r = some (result, r') ∧ Safe vmm start r' ∧ result.type ≠ .badargs := by
  have hend := isUserAddress_iff.mp user
  induction fuel generalizing addr r with
  | zero =>
    have hdone : ¬ addr < virtualEnd := by bv_omega
    exact ⟨_, r, if_neg hdone, h, by simp⟩
  | succ fuel ih =>
    by_cases hlt : addr < virtualEnd
    · have haddr : isUserAddress addr := isUserAddress_iff.mpr (by bv_omega)
      have hsafe := h.map haddr kernelZeroPage (vmmFlags.setWidth 16)
      have hstep : mapVirtualLoop vmm kernelZeroPage virtualBase virtualEnd vmmFlags (turns + 1)
          (fuel + 1 + 1) addr r = _ := if_pos hlt
      rw [hstep]
      cases hmap : vmmMapPage vmm r addr kernelZeroPage (vmmFlags.setWidth 16) with
      | mk ok r1 =>
        rw [hmap] at hsafe
        cases ok with
        | true =>
          have hnext := toNat_add_page (a := addr) (by bv_omega)
          exact ih hsafe (by omega)
        | false =>
          have hbound := isUserAddress_iff.mp haddr
          obtain ⟨r', hrun, hsafe'⟩ := undoMapVirtual_safe hsafe haddr
            (by omega : addr.toNat ≤ virtualBase.toNat + 4096 * turns)
          exact ⟨resultFailure, r', by simp [hrun], hsafe', by decide⟩
    · exact ⟨_, r, if_neg hlt, h, by simp⟩

/-- Rejecting the arguments is always safe. -/
theorem OnlyUser.rejected {s : σ} {handler : Nat → Option (SyscallResult × Run σ)}
    (h : ∀ fuel, handler fuel = some (resultBadargs, { state := s, calls := [] })) :
    OnlyUser vmm s handler :=
  ⟨0, _, _, h 0, Safe.start s, fun _ => ⟨rfl, rfl⟩⟩

/-- `map_virtual` compares addresses, so nothing from the end of the range on is touched,
wherever a wrapped end lies. -/
theorem handleMapVirtual_onlyUser (vmm : Vmm σ) (kernelZeroPage : BitVec 64) (s : σ)
    (arg0 arg1 arg2 : BitVec 64) :
    OnlyUser vmm s (fun fuel => handleMapVirtual vmm kernelZeroPage fuel s arg0 arg1 arg2) := by
  by_cases hsize : arg0 = 0
  · exact OnlyUser.rejected (fun _ => if_pos hsize)
  by_cases hbase : isUserAddress (pageAlign arg1)
  · by_cases hend : isUserAddress (pageAlign arg1 + pageAlign arg0)
    · have hbound := isUserAddress_iff.mp hend
      have hloop : ∀ vmmFlags, ∃ result r, mapVirtualLoop vmm kernelZeroPage (pageAlign arg1)
          (pageAlign arg1 + pageAlign arg0) vmmFlags (2 ^ 35 + 1) (2 ^ 35 + 1) (pageAlign arg1)
          { state := s, calls := [] } = some (result, r) ∧ Safe vmm s r ∧
            result.type ≠ .badargs :=
        fun vmmFlags => mapVirtualLoop_safe (Safe.start s) hend (by norm_num) (by omega)
      obtain ⟨result, r, hrun, hsafe, htype⟩ := hloop _
      refine ⟨2 ^ 35 + 1, result, r, ?_, hsafe, fun h => absurd h htype⟩
      simp only [handleMapVirtual, if_neg hsize, hbase, hend, not_true, if_false]
      exact hrun
    · refine OnlyUser.rejected (fun fuel => ?_)
      simp only [handleMapVirtual, if_neg hsize, hbase, hend, not_true, if_false,
        Bool.false_eq_true, not_false_eq_true, if_true]
  · refine OnlyUser.rejected (fun fuel => ?_)
    simp only [handleMapVirtual, if_neg hsize, hbase, Bool.false_eq_true, not_false_eq_true,
      if_true]

theorem unmapVirtualLoop_safe {start : σ} {virtualBase size : BitVec 64} {r : Run σ} {fuel : Nat}
    (h : Safe vmm start r) (fits : virtualBase.toNat + size.toNat < 2 ^ 47)
    (hmod : size.toNat % 4096 = 0) (enough : size.toNat ≤ 4096 * fuel) :
    ∃ r', unmapVirtualLoop vmm (fuel + 1) virtualBase size r = some r' ∧ Safe vmm start r' := by
  induction fuel generalizing virtualBase size r with
  | zero =>
    have hdone : ¬ size > 0 := by bv_omega
    exact ⟨r, if_neg hdone, h⟩
  | succ fuel ih =>
    by_cases hpos : size > 0
    · obtain ⟨hsize, hsub⟩ := toNat_sub_page hpos hmod
      have hnext := toNat_add_page (a := virtualBase) (by omega)
      have hsafe := h.unmap (isUserAddress_iff.mpr (by omega : virtualBase.toNat < 2 ^ 47))
      have hfits : (virtualBase + vmPageSize).toNat + (size - vmPageSize).toNat < 2 ^ 47 := by omega
      obtain ⟨r', hrun, hsafe'⟩ := ih hsafe hfits (by omega) (by omega)
      exact ⟨r', (if_pos hpos).trans hrun, hsafe'⟩
    · exact ⟨r, if_neg hpos, h⟩

/-- The loop unmaps every page of the range, wherever it leads. -/
theorem unmapVirtualLoop_calls {virtualBase size : BitVec 64} {r r' : Run σ} {fuel : Nat}
    (hmod : size.toNat % 4096 = 0) (h : unmapVirtualLoop vmm fuel virtualBase size r = some r') :
    r'.calls = r.calls ++ pageRun virtualBase (size.toNat / 4096) := by
  induction fuel generalizing virtualBase size r with
  | zero => simp [unmapVirtualLoop] at h
  | succ fuel ih =>
    by_cases hpos : size > 0
    · obtain ⟨hsize, hsub⟩ := toNat_sub_page hpos hmod
      have hcount : size.toNat / 4096 = (size.toNat - 4096) / 4096 + 1 := by omega
      simp only [unmapVirtualLoop, if_pos hpos] at h
      rw [ih (by omega) h, hsub, hcount, pageRun]
      simp [vmmUnmapPage]
    · have hzero : size.toNat / 4096 = 0 := by bv_omega
      simp only [unmapVirtualLoop, if_neg hpos, Option.some.injEq] at h
      rw [hzero, ← h]
      simp [pageRun]

/-- The first page above user space is in every run of pages that starts in user space and
reaches the end of the address space. -/
theorem mem_pageRun_above {base : BitVec 64} {n : Nat} (aligned : base.toNat % 4096 = 0)
    (user : base.toNat < 2 ^ 47) (long : 2 ^ 48 ≤ base.toNat + 4096 * n) :
    ∃ a ∈ pageRun base n, ¬ isUserAddress a := by
  refine ⟨_, mem_pageRun.mpr ⟨(2 ^ 47 - base.toNat) / 4096, by omega, rfl⟩, ?_⟩
  rw [isUserAddress_iff, toNat_page (by omega)]
  omega

/-- The range that `unmap_virtual` goes through wraps around the address space, with both ends
it checks in user space. -/
def UnmapWraps (arg0 arg1 : BitVec 64) : Prop :=
  isUserAddress (pageAlign arg1) ∧ isUserAddress (pageAlign arg1 + pageAlign arg0) ∧
    2 ^ 64 ≤ (pageAlign arg1).toNat + (pageAlign arg0).toNat

theorem handleUnmapVirtual_onlyUser_iff (vmm : Vmm σ) (s : σ) (arg0 arg1 : BitVec 64) :
    OnlyUser vmm s (fun fuel => handleUnmapVirtual vmm fuel s arg0 arg1) ↔
      ¬ UnmapWraps arg0 arg1 := by
  by_cases hbase : isUserAddress (pageAlign arg1)
  · by_cases hend : isUserAddress (pageAlign arg1 + pageAlign arg0)
    · have hbase' := isUserAddress_iff.mp hbase
      have hend' := isUserAddress_iff.mp hend
      have hsum : (pageAlign arg1 + pageAlign arg0).toNat =
          ((pageAlign arg1).toNat + (pageAlign arg0).toNat) % 2 ^ 64 := BitVec.toNat_add _ _
      have hsize := (pageAlign arg0).isLt
      have hrun : ∀ fuel, handleUnmapVirtual vmm fuel s arg0 arg1 =
          (unmapVirtualLoop vmm fuel (pageAlign arg1) (pageAlign arg0)
            { state := s, calls := [] }).map fun r => (resultOk, r) := by
        intro fuel
        simp only [handleUnmapVirtual, hbase, hend, not_true, if_false]
      constructor
      · rintro ⟨fuel, result, r, hrun', hsafe, -⟩ ⟨-, -, hwrap⟩
        obtain ⟨r', hloop, heq⟩ := Option.map_eq_some_iff.mp ((hrun fuel).symm.trans hrun')
        obtain ⟨-, rfl⟩ := Prod.mk.injEq .. ▸ heq
        have hcalls := unmapVirtualLoop_calls (pageAlign_mod arg0) hloop
        have hmod := pageAlign_mod arg0
        obtain ⟨a, ha, hnot⟩ := mem_pageRun_above (pageAlign_mod arg1) hbase'
          (by omega : 2 ^ 48 ≤ (pageAlign arg1).toNat + 4096 * ((pageAlign arg0).toNat / 4096))
        exact hnot (hsafe.calls a (by rw [hcalls]; exact List.mem_append_right _ ha))
      · intro hfits
        have hfits' : (pageAlign arg1).toNat + (pageAlign arg0).toNat < 2 ^ 64 := by
          by_contra hwrap
          exact hfits ⟨hbase, hend, by omega⟩
        have hreturns : ∃ r, unmapVirtualLoop vmm (2 ^ 52 + 1) (pageAlign arg1) (pageAlign arg0)
            { state := s, calls := [] } = some r ∧ Safe vmm s r :=
          unmapVirtualLoop_safe (Safe.start s) (by omega) (pageAlign_mod arg0) (by omega)
        obtain ⟨r, hloop, hsafe⟩ := hreturns
        exact ⟨2 ^ 52 + 1, resultOk, r, by simp only [hrun, hloop, Option.map_some], hsafe,
          fun h => absurd h (by decide)⟩
    · refine iff_of_true (OnlyUser.rejected (fun fuel => ?_)) (fun h => hend h.2.1)
      simp only [handleUnmapVirtual, hbase, hend, not_true, if_false, Bool.false_eq_true,
        not_false_eq_true, if_true]
  · refine iff_of_true (OnlyUser.rejected (fun fuel => ?_)) (fun h => hbase h.1)
    simp only [handleUnmapVirtual, hbase, Bool.false_eq_true, not_false_eq_true, if_true]

theorem undoMapPhysical_safe {start : σ} {userVaddr offset unmapOffset : BitVec 64} {r : Run σ}
    {fuel : Nat} (h : Safe vmm start r) (fits : userVaddr.toNat + offset.toNat ≤ 2 ^ 47)
    (enough : offset.toNat ≤ unmapOffset.toNat + 4096 * fuel) :
    ∃ r', undoMapPhysical vmm userVaddr offset (fuel + 1) unmapOffset r = some r' ∧
      Safe vmm start r' := by
  induction fuel generalizing unmapOffset r with
  | zero =>
    have hdone : ¬ unmapOffset < offset := by bv_omega
    exact ⟨r, if_neg hdone, h⟩
  | succ fuel ih =>
    by_cases hlt : unmapOffset < offset
    · have hlt' : unmapOffset.toNat < offset.toNat := hlt
      have hnext := toNat_add_page (a := unmapOffset) (by omega)
      have huser : isUserAddress (userVaddr + unmapOffset) := by
        rw [isUserAddress_iff, BitVec.toNat_add, Nat.mod_eq_of_lt (by omega)]
        omega
      have henough : offset.toNat ≤ (unmapOffset + vmPageSize).toNat + 4096 * fuel := by omega
      obtain ⟨r', hrun, hsafe⟩ := ih (h.unmap huser) henough
      exact ⟨r', (if_pos hlt).trans hrun, hsafe⟩
    · exact ⟨r, if_neg hlt, h⟩

theorem mapPhysicalLoop_safe {start : σ} {physAddr userVaddr size pageFlags offset : BitVec 64}
    {r : Run σ} {turns fuel : Nat} (h : Safe vmm start r)
    (fits : userVaddr.toNat + size.toNat ≤ 2 ^ 47) (turnsEnough : 2 ^ 47 ≤ 4096 * turns)
    (enough : size.toNat ≤ offset.toNat + 4096 * fuel) :
    ∃ result r', mapPhysicalLoop vmm physAddr userVaddr size pageFlags (turns + 1) (fuel + 1)
        offset r = some (result, r') ∧ Safe vmm start r' ∧ result.type ≠ .badargs := by
  induction fuel generalizing offset r with
  | zero =>
    have hdone : ¬ offset < size := by bv_omega
    exact ⟨_, r, if_neg hdone, h, by decide⟩
  | succ fuel ih =>
    by_cases hlt : offset < size
    · have hlt' : offset.toNat < size.toNat := hlt
      have huser : isUserAddress (userVaddr + offset) := by
        rw [isUserAddress_iff, BitVec.toNat_add, Nat.mod_eq_of_lt (by omega)]
        omega
      have hsafe := h.map huser (physAddr + offset) (pageFlags.setWidth 16)
      have hstep : mapPhysicalLoop vmm physAddr userVaddr size pageFlags (turns + 1)
          (fuel + 1 + 1) offset r = _ := if_pos hlt
      rw [hstep]
      cases hmap : vmmMapPage vmm r (userVaddr + offset) (physAddr + offset)
          (pageFlags.setWidth 16) with
      | mk ok r1 =>
        rw [hmap] at hsafe
        cases ok with
        | true =>
          have hnext := toNat_add_page (a := offset) (by omega)
          exact ih hsafe (by omega)
        | false =>
          have hzero : (0 : BitVec 64).toNat = 0 := rfl
          obtain ⟨r', hrun, hsafe'⟩ := undoMapPhysical_safe hsafe
            (by omega : userVaddr.toNat + offset.toNat ≤ 2 ^ 47)
            (by omega : offset.toNat ≤ (0 : BitVec 64).toNat + 4096 * turns)
          exact ⟨resultFailure, r', by simp only [hrun, Option.map_some], hsafe', by decide⟩
    · exact ⟨_, r, if_neg hlt, h, by decide⟩

/-- A mapper on which every call succeeds. -/
def willing : Vmm Unit where
  mapPage := fun _ _ _ _ => (true, ())
  unmapPage := fun _ _ => (0, ())

/-- Where no call fails, every page of the range is mapped, wherever it leads. -/
theorem mapPhysicalLoop_calls {physAddr userVaddr size pageFlags offset : BitVec 64}
    {result : SyscallResult} {r r' : Run Unit} {turns fuel : Nat} (hsize : size.toNat % 4096 = 0)
    (hoffset : offset.toNat % 4096 = 0)
    (h : mapPhysicalLoop willing physAddr userVaddr size pageFlags turns fuel offset r =
      some (result, r')) :
    r'.calls = r.calls ++ pageRun (userVaddr + offset) ((size.toNat - offset.toNat) / 4096) := by
  induction fuel generalizing offset r with
  | zero => simp [mapPhysicalLoop] at h
  | succ fuel ih =>
    have hbound := size.isLt
    by_cases hlt : offset < size
    · have hlt' : offset.toNat < size.toNat := hlt
      have hnext := toNat_add_page (a := offset) (by omega)
      have hcount : (size.toNat - offset.toNat) / 4096 =
          (size.toNat - (offset.toNat + 4096)) / 4096 + 1 := by omega
      have hstep : mapPhysicalLoop willing physAddr userVaddr size pageFlags turns fuel
          (offset + vmPageSize) ⟨(), r.calls ++ [userVaddr + offset]⟩ = some (result, r') :=
        (if_pos hlt).symm.trans h
      rw [ih (by omega) hstep, hnext, hcount, pageRun, ← BitVec.add_assoc]
      simp
    · have hge : size.toNat ≤ offset.toNat := Nat.not_lt.mp hlt
      have hzero : (size.toNat - offset.toNat) / 4096 = 0 := by omega
      have hdone : some (resultOk, r) = some (result, r') := (if_neg hlt).symm.trans h
      obtain ⟨-, rfl⟩ := Prod.mk.injEq .. ▸ Option.some.inj hdone
      rw [hzero]
      simp [pageRun]

end Safe

/-- The range that `map_physical` goes through wraps around the address space, with both ends
it checks in user space. -/
def MapPhysicalWraps (arg0 arg1 arg2 : BitVec 64) : Prop :=
  isUserAddress arg1 ∧ arg1 &&& 0xfff = 0 ∧ arg0 &&& 0xfff = 0 ∧ arg2 &&& 0xfff = 0 ∧
    isUserAddress (arg1 + arg2 - 1) ∧ 2 ^ 64 < arg1.toNat + arg2.toNat

theorem handleMapPhysical_onlyUser_iff (arg0 arg1 arg2 arg3 : BitVec 64) :
    (∀ (σ : Type) (vmm : Vmm σ) (s : σ),
      OnlyUser vmm s (fun fuel => handleMapPhysical vmm fuel s arg0 arg1 arg2 arg3)) ↔
      ¬ MapPhysicalWraps arg0 arg1 arg2 := by
  by_cases hbase : isUserAddress arg1
  · by_cases haligned : arg1 &&& 0xfff ≠ 0 ∨ arg0 &&& 0xfff ≠ 0 ∨ arg2 &&& 0xfff ≠ 0
    · refine iff_of_true (fun σ vmm s => OnlyUser.rejected (fun fuel => ?_)) ?_
      · simp only [handleMapPhysical, hbase, not_true, if_false, if_pos haligned]
      · rintro ⟨-, h1, h0, h2, -⟩
        rcases haligned with h | h | h
        · exact h h1
        · exact h h0
        · exact h h2
    · by_cases hend : isUserAddress (arg1 + arg2 - 1)
      · obtain ⟨h1, h0, h2⟩ : arg1 &&& 0xfff = 0 ∧ arg0 &&& 0xfff = 0 ∧ arg2 &&& 0xfff = 0 := by
          simpa only [not_or, not_not, ne_eq] using haligned
        have hsize : arg2.toNat % 4096 = 0 := (Masks.and_low_eq_zero_iff (k := 12) rfl).mp h2
        have hstart : arg1.toNat % 4096 = 0 := (Masks.and_low_eq_zero_iff (k := 12) rfl).mp h1
        have hbase' := isUserAddress_iff.mp hbase
        have hend' := isUserAddress_iff.mp hend
        have hlast : (arg1 + arg2 - 1).toNat =
            (2 ^ 64 - 1 + (arg1.toNat + arg2.toNat) % 2 ^ 64) % 2 ^ 64 := by
          rw [BitVec.toNat_sub, BitVec.toNat_add]
          rfl
        have hbound := arg2.isLt
        have hrun : ∀ {σ : Type} (vmm : Vmm σ) (fuel : Nat) (s : σ), ∃ pageFlags,
            handleMapPhysical vmm fuel s arg0 arg1 arg2 arg3 =
              mapPhysicalLoop vmm arg0 arg1 arg2 pageFlags fuel fuel 0 { state := s, calls := [] } := by
          intro σ vmm fuel s
          simp only [handleMapPhysical, hbase, hend, not_true, if_false, if_neg haligned]
          exact ⟨_, rfl⟩
        have hzero : (0 : BitVec 64).toNat = 0 := rfl
        constructor
        · rintro h ⟨-, -, -, -, -, hwrap⟩
          obtain ⟨fuel, result, r, hcall, hsafe, -⟩ := h Unit willing ()
          obtain ⟨pageFlags, hloop⟩ := hrun willing fuel ()
          have hcalls := mapPhysicalLoop_calls hsize (by rw [hzero]) (hloop.symm.trans hcall)
          obtain ⟨a, ha, hnot⟩ := mem_pageRun_above hstart hbase'
            (by omega : 2 ^ 48 ≤ arg1.toNat + 4096 * (arg2.toNat / 4096))
          have hadd : arg1 + (0 : BitVec 64) = arg1 := BitVec.add_zero arg1
          rw [hadd, hzero, Nat.sub_zero] at hcalls
          exact hnot (hsafe.calls a (hcalls ▸ List.mem_append_right _ ha))
        · intro hfits σ vmm s
          have hfits' : arg1.toNat + arg2.toNat ≤ 2 ^ 64 := by
            by_contra hwrap
            exact hfits ⟨hbase, h1, h0, h2, hend, by omega⟩
          obtain ⟨pageFlags, hloop⟩ := hrun vmm (2 ^ 52 + 1) s
          obtain ⟨result, r, hcall, hsafe, htype⟩ := mapPhysicalLoop_safe (Safe.start s)
            (by omega : arg1.toNat + arg2.toNat ≤ 2 ^ 47) (by norm_num : 2 ^ 47 ≤ 4096 * 2 ^ 52)
            (by omega : arg2.toNat ≤ (0 : BitVec 64).toNat + 4096 * 2 ^ 52)
          exact ⟨2 ^ 52 + 1, result, r, hloop.trans hcall, hsafe, fun h => absurd h htype⟩
      · refine iff_of_true (fun σ vmm s => OnlyUser.rejected (fun fuel => ?_))
          (fun h => hend h.2.2.2.2.1)
        simp only [handleMapPhysical, hbase, hend, not_true, if_false, if_neg haligned,
          Bool.false_eq_true, not_false_eq_true, if_true]
  · refine iff_of_true (fun σ vmm s => OnlyUser.rejected (fun fuel => ?_)) (fun h => hbase h.1)
    simp only [handleMapPhysical, hbase, Bool.false_eq_true, not_false_eq_true, if_true]

/-! ## On the tables of an address space -/

/-- The mapper on the address space under a given top-level table. -/
def onAddressSpace (pml4 : BitVec 64) : Vmm Machine where
  mapPage := fun m virtAddr page flags => vmmMapPageIn m pml4 virtAddr page flags
  unmapPage := fun m virtAddr => vmmUnmapPageIn m pml4 virtAddr

/-- A tree of tables without large pages in user space. -/
structure UserPaged (pml4 : BitVec 64) (m : Machine) : Prop where
  wellFormed : WellFormed m pml4
  straight : ∀ v, isUserAddress v → Straight m.mem v 3 pml4

/-- The virtual pages of the upper half, which belong to the kernel. -/
def IsKernelPage (v : BitVec 64) : Prop := 2 ^ 35 ≤ (pageNumber v).toNat

/-- From a sound address space to a sound one, with every walk in the kernel's half as it was. -/
def KernelKept (pml4 : BitVec 64) (m m' : Machine) : Prop :=
  UserPaged pml4 m → UserPaged pml4 m' ∧ ∀ v, Straight m.mem v 3 pml4 →
    Straight m'.mem v 3 pml4 ∧
      (IsKernelPage v → vmmVirtToPtEntry m' pml4 v = vmmVirtToPtEntry m pml4 v)

theorem pageNumber_ne_of_user {addr v : BitVec 64} (user : isUserAddress addr)
    (kernel : IsKernelPage v) : pageNumber v ≠ pageNumber addr := by
  have haddr := isUserAddress_iff.mp user
  intro h
  rw [IsKernelPage, h, toNat_pageNumber] at kernel
  omega

theorem KernelKept.of_keepsOthers {pml4 addr : BitVec 64} {m m' : Machine}
    (user : isUserAddress addr) (others : KeepsOthers addr pml4 m m')
    (wf : WellFormed m' pml4) : KernelKept pml4 m m' := by
  intro hm
  constructor
  · exact ⟨wf, fun v hv => (others v (hm.straight v hv)).1⟩
  · intro v hv
    obtain ⟨hstraight, hkept⟩ := others v hv
    exact ⟨hstraight, fun kernel => hkept (pageNumber_ne_of_user user kernel)⟩

/-- Mapping and unmapping user addresses leaves the kernel's half of the tables alone. -/
theorem userCallsKeep_kernelKept (pml4 : BitVec 64) :
    UserCallsKeep (onAddressSpace pml4) (KernelKept pml4) := by
  constructor
  · exact fun m hm => ⟨hm, fun v hv => ⟨hv, fun _ => rfl⟩⟩
  · intro m1 m2 m3 h12 h23 hm
    obtain ⟨hm2, hwalks2⟩ := h12 hm
    obtain ⟨hm3, hwalks3⟩ := h23 hm2
    refine ⟨hm3, fun v hv => ?_⟩
    obtain ⟨hs2, hkept2⟩ := hwalks2 v hv
    obtain ⟨hs3, hkept3⟩ := hwalks3 v hs2
    exact ⟨hs3, fun kernel => (hkept3 kernel).trans (hkept2 kernel)⟩
  · intro m addr page flags user hm
    obtain ⟨others, wf⟩ := map_keeps_others hm.wellFormed (hm.straight addr user)
      (Prod.mk.eta (p := vmmMapPageIn m pml4 addr page flags)).symm
    exact KernelKept.of_keepsOthers user others wf hm
  · intro m addr user hm
    obtain ⟨-, -, others, wf⟩ := unmap_clears_one_page hm.wellFormed (hm.straight addr user)
      (Prod.mk.eta (p := vmmUnmapPageIn m pml4 addr)).symm
    exact KernelKept.of_keepsOthers user others wf hm

/-- A call that touches user addresses only leaves every translation of the kernel's half. -/
theorem OnlyUser.kernel_kept {pml4 : BitVec 64} {m : Machine}
    {handler : Nat → Option (SyscallResult × Run Machine)}
    (h : OnlyUser (onAddressSpace pml4) m handler) (paged : UserPaged pml4 m) :
    ∃ fuel result r, handler fuel = some (result, r) ∧ UserPaged pml4 r.state ∧
      ∀ v, Straight m.mem v 3 pml4 → IsKernelPage v →
        vmmVirtToPtEntry r.state pml4 v = vmmVirtToPtEntry m pml4 v := by
  obtain ⟨fuel, result, r, hrun, hsafe, -⟩ := h
  obtain ⟨hpaged, hwalks⟩ := hsafe.kept _ (userCallsKeep_kernelKept pml4) paged
  exact ⟨fuel, result, r, hrun, hpaged, fun v hv => (hwalks v hv).2⟩

/-! ## The three handlers -/

/-- Whatever the mapper answers, `map_virtual` returns and touches user addresses only. -/
def MapVirtualStays (arg0 arg1 arg2 : BitVec 64) : Prop :=
  ∀ (σ : Type) (vmm : Vmm σ) (s : σ) (kernelZeroPage : BitVec 64),
    OnlyUser vmm s (fun fuel => handleMapVirtual vmm kernelZeroPage fuel s arg0 arg1 arg2)

def UnmapVirtualStays (arg0 arg1 : BitVec 64) : Prop :=
  ∀ (σ : Type) (vmm : Vmm σ) (s : σ),
    OnlyUser vmm s (fun fuel => handleUnmapVirtual vmm fuel s arg0 arg1)

def MapPhysicalStays (arg0 arg1 arg2 arg3 : BitVec 64) : Prop :=
  ∀ (σ : Type) (vmm : Vmm σ) (s : σ),
    OnlyUser vmm s (fun fuel => handleMapPhysical vmm fuel s arg0 arg1 arg2 arg3)

/-- `map_virtual` stays in user space on all arguments; the two handlers that count a size down
or an offset up stay there on exactly the arguments that do not lead them around the end of the
address space. -/
theorem handlers_stay_in_user_space_iff (arg0 arg1 arg2 arg3 : BitVec 64) :
    MapVirtualStays arg0 arg1 arg2 ∧
    (UnmapVirtualStays arg0 arg1 ↔ ¬ UnmapWraps arg0 arg1) ∧
    (MapPhysicalStays arg0 arg1 arg2 arg3 ↔ ¬ MapPhysicalWraps arg0 arg1 arg2) := by
  refine ⟨?_, ?_, handleMapPhysical_onlyUser_iff arg0 arg1 arg2 arg3⟩
  · intro σ vmm s kernelZeroPage
    exact handleMapVirtual_onlyUser vmm kernelZeroPage s arg0 arg1 arg2
  · constructor
    · intro h
      exact (handleUnmapVirtual_onlyUser_iff willing () arg0 arg1).mp (h _ _ _)
    · intro fits σ vmm s
      exact (handleUnmapVirtual_onlyUser_iff vmm s arg0 arg1).mpr fits

/-- A range one page short of the whole address space, from the second page on, ends at zero. -/
theorem unmap_leaves_user_space :
    ¬ ∀ arg0 arg1 arg2 arg3, MapVirtualStays arg0 arg1 arg2 ∧ UnmapVirtualStays arg0 arg1 ∧
      MapPhysicalStays arg0 arg1 arg2 arg3 := by
  intro h
  have hunmap := (h 0xfffffffffffff000 0x1000 0 0).2.1
  have hwraps : UnmapWraps 0xfffffffffffff000 0x1000 := by
    refine ⟨?_, ?_, ?_⟩ <;> decide
  exact (handleUnmapVirtual_onlyUser_iff willing () _ _).mp (hunmap _ _ _) hwraps

end MapSyscalls
