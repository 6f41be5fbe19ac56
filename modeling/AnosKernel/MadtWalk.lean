import Mathlib.Data.Nat.Find
import AnosKernel.Lib.Bytes
import AnosKernel.Lib.Traces

/-!
# Starting the other processors

The walk over the entries of the MADT in `smp_bsp_start_aps` of
`kernel/arch/x86_64/smp/startup.c`. A run leaves the bytes that it reads and the processors that it
starts, and need not come to an end.
-/

namespace MadtWalk

open Bytes Traces

inductive Event where
  | read (offset : Nat)
  | start (lapicId : BitVec 8)
  deriving DecidableEq

structure Startup where
  /-- The bytes from the start of the table on, with those behind its end. -/
  madt : Nat → BitVec 8
  bspLocalApicId : BitVec 8
  maxCpuCount : Nat

def Startup.length (s : Startup) : BitVec 32 :=
  BitVec.ofNat 32 (ofBytes [s.madt 4, s.madt 5, s.madt 6, s.madt 7])

def flagsAt (s : Startup) (ptr : Nat) : BitVec 32 :=
  BitVec.ofNat 32 (ofBytes [s.madt ptr, s.madt (ptr + 1), s.madt (ptr + 2), s.madt (ptr + 3)])

/-- Exactly one of the flags is set, and it is not the boot processor. -/
def CanEnable (s : Startup) (lapicId : BitVec 8) (flags : BitVec 32) : Prop :=
  lapicId ≠ s.bspLocalApicId ∧ (flags &&& 1) ^^^ ((flags >>> 1) &&& 1) ≠ 0

instance (s : Startup) (lapicId : BitVec 8) (flags : BitVec 32) :
    Decidable (CanEnable s lapicId flags) :=
  inferInstanceAs (Decidable (_ ∧ _))

/-- The loop, with as much fuel as entries. `ptr` is an offset in the table. -/
def walk (s : Startup) : Nat → BitVec 16 → Nat → Trace Event Unit Unit
  | 0, remain, _ => if remain = 0 then done () else fail ()
  | fuel + 1, remain, ptr =>
    if remain = 0 then done ()
    else
      let type := s.madt ptr
      let len := s.madt (ptr + 1)
      log (.read ptr) (log (.read (ptr + 1))
        (if type = 0 then
          let cpuId := s.madt (ptr + 2)
          let lapicId := s.madt (ptr + 3)
          let flags := flagsAt s (ptr + 4)
          log (.read (ptr + 2)) (log (.read (ptr + 3)) (log (.read (ptr + 4)) (log (.read (ptr + 5))
            (log (.read (ptr + 6)) (log (.read (ptr + 7))
              (if CanEnable s lapicId flags ∧ cpuId.toNat < s.maxCpuCount then
                log (.start lapicId) (walk s fuel (remain - len.setWidth 16) (ptr + 4 + 4))
              else walk s fuel (remain - len.setWidth 16) (ptr + 4 + 4)))))))
        else walk s fuel (remain - len.setWidth 16) (ptr + 2 + len.toNat - 2)))

/-- The size of the rest of the table, in sixteen bits. -/
def remainAtStart (s : Startup) : BitVec 16 := (s.length.setWidth 64 - 44).setWidth 16

def smpBspStartAps (s : Startup) (fuel : Nat) : Trace Event Unit Unit :=
  walk s fuel (remainAtStart s) 44

def started (events : List Event) : List (BitVec 8) :=
  events.filterMap fun
    | .start lapicId => some lapicId
    | .read _ => none

/-! ## Entries -/

def lengthByte (s : Startup) (ptr : Nat) : Nat := (s.madt (ptr + 1)).toNat

/-- How far the next entry is looked for. -/
def advance (s : Startup) (ptr : Nat) : Nat := if s.madt ptr = 0 then 8 else lengthByte s ptr

/-- How many bytes of an entry are read. -/
def extent (s : Startup) (ptr : Nat) : Nat := if s.madt ptr = 0 then 8 else 2

/-- The entry is that of a processor which is to be started. -/
def ToStart (s : Startup) (ptr : Nat) : Prop :=
  s.madt ptr = 0 ∧ CanEnable s (s.madt (ptr + 3)) (flagsAt s (ptr + 4)) ∧
    (s.madt (ptr + 2)).toNat < s.maxCpuCount

instance (s : Startup) : DecidablePred (ToStart s) :=
  fun _ => inferInstanceAs (Decidable (_ ∧ _ ∧ _))

def entryEvents (s : Startup) (ptr : Nat) : List Event :=
  (List.range (extent s ptr)).map (fun k => .read (ptr + k)) ++
    if ToStart s ptr then [.start (s.madt (ptr + 3))] else []

/-- Where the entry with number `k` is looked for. -/
def position (s : Startup) : Nat → Nat
  | 0 => 44
  | k + 1 => position s k + advance s (position s k)

/-- The sum of the length bytes of the first `k` entries. -/
def spent (s : Startup) : Nat → Nat
  | 0 => 0
  | k + 1 => spent s k + lengthByte s (position s k)

def remainAfter (s : Startup) (k : Nat) : BitVec 16 := remainAtStart s - BitVec.ofNat 16 (spent s k)

section Walk

variable {s : Startup} {fuel ptr k n : Nat} {remain : BitVec 16}

theorem walk_done (h : remain = 0) : walk s fuel remain ptr = done () := by
  cases fuel
  all_goals
    rw [walk, if_pos h]

/-- One turn of the loop. -/
theorem walk_step (h : remain ≠ 0) :
    let next := walk s fuel (remain - (s.madt (ptr + 1)).setWidth 16) (ptr + advance s ptr)
    walk s (fuel + 1) remain ptr = ⟨entryEvents s ptr ++ next.events, next.result⟩ := by
  intro next
  rw [walk, if_neg h]
  dsimp only
  by_cases hprocessor : s.madt ptr = 0
  · have hnext : next = walk s fuel (remain - (s.madt (ptr + 1)).setWidth 16) (ptr + 4 + 4) := by
      show walk s fuel _ (ptr + advance s ptr) = _
      rw [advance, if_pos hprocessor]
    have hreads : (List.range (extent s ptr)).map (fun k => Event.read (ptr + k)) =
        [.read ptr, .read (ptr + 1), .read (ptr + 2), .read (ptr + 3), .read (ptr + 4),
          .read (ptr + 5), .read (ptr + 6), .read (ptr + 7)] := by
      rw [extent, if_pos hprocessor]
      rfl
    rw [if_pos hprocessor, ← hnext, entryEvents, hreads]
    by_cases hstart : CanEnable s (s.madt (ptr + 3)) (flagsAt s (ptr + 4)) ∧
        (s.madt (ptr + 2)).toNat < s.maxCpuCount
    · rw [if_pos hstart, if_pos ⟨hprocessor, hstart⟩]
      rfl
    · rw [if_neg hstart, if_neg fun hcontra => hstart hcontra.2]
      rfl
  · have hnext : next =
        walk s fuel (remain - (s.madt (ptr + 1)).setWidth 16) (ptr + 2 + (s.madt (ptr + 1)).toNat - 2) := by
      show walk s fuel _ (ptr + advance s ptr) = _
      rw [advance, if_neg hprocessor, lengthByte]
      congr 1
      omega
    have hreads : (List.range (extent s ptr)).map (fun k => Event.read (ptr + k)) =
        [.read ptr, .read (ptr + 1)] := by
      rw [extent, if_neg hprocessor]
      rfl
    rw [if_neg hprocessor, ← hnext, entryEvents, hreads,
      if_neg fun hcontra : ToStart s ptr => hprocessor hcontra.1]
    rfl

theorem remainAfter_succ : remainAfter s (k + 1) =
    remainAfter s k - (s.madt (position s k + 1)).setWidth 16 := by
  apply BitVec.eq_of_toNat_eq
  rw [remainAfter, remainAfter, spent, lengthByte]
  simp only [BitVec.toNat_sub, BitVec.toNat_ofNat, BitVec.toNat_setWidth]
  omega

/-- The loop goes through the entries up to the first one before which nothing remains, or as many
as there is fuel for. -/
theorem walk_spec (s : Startup) (fuel k : Nat) : ∃ t ≤ fuel,
    (∀ j < t, remainAfter s (k + j) ≠ 0) ∧
    (walk s fuel (remainAfter s k) (position s k)).events =
      (List.range t).flatMap (fun j => entryEvents s (position s (k + j))) ∧
    ((walk s fuel (remainAfter s k) (position s k)).result = .ok () ∧ remainAfter s (k + t) = 0 ∨
      (walk s fuel (remainAfter s k) (position s k)).result = .error () ∧
        remainAfter s (k + t) ≠ 0 ∧ t = fuel) := by
  induction fuel generalizing k with
  | zero =>
    refine ⟨0, Nat.le_refl 0, fun j hj => absurd hj (Nat.not_lt_zero j), ?_, ?_⟩
    · rw [walk]
      split_ifs
      all_goals rfl
    · rw [walk]
      split_ifs with hzero
      · exact Or.inl ⟨rfl, hzero⟩
      · exact Or.inr ⟨rfl, hzero, rfl⟩
  | succ fuel ih =>
    by_cases hzero : remainAfter s k = 0
    · refine ⟨0, Nat.zero_le _, fun j hj => absurd hj (Nat.not_lt_zero j), ?_, Or.inl ?_⟩
      · rw [walk_done hzero]
        rfl
      · rw [walk_done hzero]
        exact ⟨rfl, hzero⟩
    · obtain ⟨t, ht, hbefore, hevents, hresult⟩ := ih (k + 1)
      rw [remainAfter_succ, position] at hevents hresult
      have hshift : ∀ j, k + 1 + j = k + (j + 1) := fun j => by omega
      refine ⟨t + 1, Nat.succ_le_succ ht, ?_, ?_, ?_⟩
      · intro j hj
        cases j with
        | zero => exact hzero
        | succ j =>
          rw [← hshift]
          exact hbefore j (Nat.lt_of_succ_lt_succ hj)
      · rw [walk_step hzero, List.range_succ_eq_map, List.flatMap_cons, List.flatMap_map, hevents]
        simp only [hshift, Nat.add_zero]
      · rw [walk_step hzero, ← hshift]
        refine hresult.imp_right ?_
        rintro ⟨hfail, hremain, hlast⟩
        exact ⟨hfail, hremain, congrArg (· + 1) hlast⟩

end Walk

/-! ## What is read and who is started -/

section Effects

variable {s : Startup} {ptr n : Nat} {ptrs : List Nat}

theorem mem_entryEvents {o : Nat} : Event.read o ∈ entryEvents s ptr ↔
    ∃ k < extent s ptr, o = ptr + k := by
  rw [entryEvents, List.mem_append, List.mem_map, or_iff_left]
  · constructor
    · rintro ⟨k, hk, hread⟩
      exact ⟨k, List.mem_range.mp hk, (Event.read.inj hread).symm⟩
    · rintro ⟨k, hk, rfl⟩
      exact ⟨k, List.mem_range.mpr hk, rfl⟩
  · intro hcontra
    split_ifs at hcontra
    · cases List.mem_singleton.mp hcontra
    · exact List.not_mem_nil hcontra

theorem extent_pos : 0 < extent s ptr := by
  unfold extent
  split_ifs
  all_goals decide

/-- The bytes of an entry are read up to its last one. -/
theorem entry_inside_iff {length : Nat} :
    (∀ o, Event.read o ∈ entryEvents s ptr → o < length) ↔ ptr + extent s ptr ≤ length := by
  have hpos : 0 < extent s ptr := extent_pos
  constructor
  · intro h
    have hlast := h (ptr + (extent s ptr - 1)) (mem_entryEvents.mpr ⟨_, by omega, rfl⟩)
    omega
  · intro h o ho
    obtain ⟨k, hk, rfl⟩ := mem_entryEvents.mp ho
    omega

theorem started_append (events events' : List Event) :
    started (events ++ events') = started events ++ started events' :=
  List.filterMap_append

theorem started_entry : started (entryEvents s ptr) =
    ([ptr].filter (ToStart s)).map fun ptr => s.madt (ptr + 3) := by
  have hreads : started ((List.range (extent s ptr)).map fun k => Event.read (ptr + k)) = [] := by
    rw [started, List.filterMap_map]
    exact List.filterMap_eq_nil_iff.mpr fun _ _ => rfl
  rw [entryEvents, started_append, hreads, List.nil_append]
  by_cases hstart : ToStart s ptr
  · rw [if_pos hstart, List.filter_singleton, decide_eq_true hstart]
    rfl
  · rw [if_neg hstart, List.filter_singleton, decide_eq_false hstart]
    rfl

/-- The processors to be started are started in the order of their entries. -/
theorem started_entries : started (ptrs.flatMap (entryEvents s)) =
    (ptrs.filter (ToStart s)).map fun ptr => s.madt (ptr + 3) := by
  induction ptrs with
  | nil => rfl
  | cons ptr ptrs ih =>
    rw [List.flatMap_cons, started_append, ih, started_entry, ← List.map_append,
      ← List.filter_append]
    rfl

end Effects

/-! ## Tables of well-formed entries -/

/-- From `ptr` to its end the table is made of entries that start at `ptrs`, those of processors
eight bytes long. -/
inductive Tiles (s : Startup) : Nat → List Nat → Prop
  | done : Tiles s s.length.toNat []
  | entry {ptr : Nat} {ptrs : List Nat} : 2 ≤ lengthByte s ptr →
      (s.madt ptr = 0 → lengthByte s ptr = 8) → Tiles s (ptr + lengthByte s ptr) ptrs →
      Tiles s ptr (ptr :: ptrs)

/-- The walk comes to an end, reads no byte behind the table, and starts the processors of a table
of well-formed entries, each one once. -/
def WalkRight (s : Startup) : Prop :=
  (∃ fuel, (smpBspStartAps s fuel).result = .ok ()) ∧
  (∀ fuel o, Event.read o ∈ (smpBspStartAps s fuel).events → o < s.length.toNat) ∧
  ∀ ptrs, Tiles s 44 ptrs → ∀ fuel, (smpBspStartAps s fuel).result = .ok () →
    started (smpBspStartAps s fuel).events =
      (ptrs.filter (ToStart s)).map fun ptr => s.madt (ptr + 3)

/-- The length bytes of the first `n` entries, and of no fewer, are the size of the rest of the table
up to multiples of 64 KiB. -/
def Exhausts (s : Startup) (n : Nat) : Prop :=
  spent s n % 2 ^ 16 = (s.length.toNat - 44) % 2 ^ 16 ∧
    ∀ k < n, spent s k % 2 ^ 16 ≠ (s.length.toNat - 44) % 2 ^ 16

/-- The entries exhaust the table at some point, lie in the table up to there, and no processor that
is to be started comes after it. -/
def InStep (s : Startup) : Prop :=
  ∃ n, Exhausts s n ∧
    (∀ k < n, position s k + extent s (position s k) ≤ s.length.toNat) ∧
    ∀ ptrs, Tiles s 44 ptrs → ∀ ptr ∈ ptrs.drop n, ¬ ToStart s ptr

section Right

variable {s : Startup} {fuel k n : Nat} {ptrs : List Nat}

theorem remainAfter_eq_zero (long : 44 ≤ s.length.toNat) : remainAfter s k = 0 ↔
    spent s k % 2 ^ 16 = (s.length.toNat - 44) % 2 ^ 16 := by
  have hlt := s.length.isLt
  have hrest : (s.length.setWidth 64 - 44).toNat = s.length.toNat - 44 := by
    rw [BitVec.toNat_sub, BitVec.toNat_setWidth]
    show (2 ^ 64 - 44 + s.length.toNat % 2 ^ 64) % 2 ^ 64 = _
    omega
  have hstart : (remainAtStart s).toNat = (s.length.toNat - 44) % 2 ^ 16 := by
    rw [remainAtStart, BitVec.toNat_setWidth, hrest]
  rw [← BitVec.toNat_inj, remainAfter, BitVec.toNat_sub, BitVec.toNat_ofNat, hstart]
  show _ = 0 ↔ _
  omega

theorem exhausts_iff (long : 44 ≤ s.length.toNat) : Exhausts s n ↔
    remainAfter s n = 0 ∧ ∀ k < n, remainAfter s k ≠ 0 := by
  rw [Exhausts, remainAfter_eq_zero long]
  exact and_congr_right fun _ => forall₂_congr fun k _ => not_congr (remainAfter_eq_zero long).symm

/-- A run, which ends just if the entries are exhausted. -/
theorem smpBspStartAps_spec (long : 44 ≤ s.length.toNat) (fuel : Nat) : ∃ t ≤ fuel,
    (smpBspStartAps s fuel).events =
      ((List.range t).map (position s)).flatMap (entryEvents s) ∧
    (∀ n, Exhausts s n → t ≤ n) ∧
    ((smpBspStartAps s fuel).result = .ok () ∧ Exhausts s t ∨
      (smpBspStartAps s fuel).result = .error () ∧ (∀ n, Exhausts s n → fuel < n) ∧ t = fuel) := by
  obtain ⟨t, ht, hbefore, hevents, hresult⟩ := walk_spec s fuel 0
  have hstart : remainAfter s 0 = remainAtStart s := BitVec.sub_zero _
  simp only [Nat.zero_add] at hbefore hevents hresult
  rw [hstart] at hevents hresult
  have hle : ∀ n, Exhausts s n → t ≤ n := by
    intro n hn
    by_contra hlt
    exact hbefore n (by omega) ((exhausts_iff long).mp hn).1
  refine ⟨t, ht, ?_, hle, ?_⟩
  · rw [List.flatMap_map]
    exact hevents
  · rcases hresult with ⟨hok, hremain⟩ | ⟨hfail, hremain, rfl⟩
    · exact Or.inl ⟨hok, (exhausts_iff long).mpr ⟨hremain, hbefore⟩⟩
    · refine Or.inr ⟨hfail, fun n hn => Nat.lt_of_le_of_ne (hle n hn) ?_, rfl⟩
      rintro rfl
      exact hremain ((exhausts_iff long).mp hn).1

theorem Exhausts.unique {m : Nat} (h : Exhausts s n) (h' : Exhausts s m) : n = m := by
  rcases Nat.lt_trichotomy n m with hlt | heq | hlt
  · exact absurd h.1 (h'.2 n hlt)
  · exact heq
  · exact absurd h'.1 (h.2 m hlt)

theorem ends_iff (long : 44 ≤ s.length.toNat) :
    (∃ fuel, (smpBspStartAps s fuel).result = .ok ()) ↔ ∃ n, Exhausts s n := by
  constructor
  · rintro ⟨fuel, hok⟩
    obtain ⟨t, -, -, -, ⟨-, hend⟩ | ⟨hfail, -⟩⟩ := smpBspStartAps_spec long fuel
    · exact ⟨t, hend⟩
    · rw [hok] at hfail
      cases hfail
  · rintro ⟨n, hn⟩
    obtain ⟨t, -, -, -, ⟨hok, -⟩ | ⟨-, hlate, -⟩⟩ := smpBspStartAps_spec long n
    · exact ⟨n, hok⟩
    · exact absurd (hlate n hn) (Nat.lt_irrefl n)

theorem reads_inside_iff (long : 44 ≤ s.length.toNat) (hn : Exhausts s n) :
    (∀ fuel o, Event.read o ∈ (smpBspStartAps s fuel).events → o < s.length.toNat) ↔
      ∀ k < n, position s k + extent s (position s k) ≤ s.length.toNat := by
  constructor
  · intro h k hk
    obtain ⟨t, -, hevents, -, ⟨-, hend⟩ | ⟨-, hlate, -⟩⟩ := smpBspStartAps_spec long n
    · obtain rfl := hend.unique hn
      rw [← entry_inside_iff]
      intro o ho
      refine h t o ?_
      rw [hevents]
      exact List.mem_flatMap.mpr ⟨_, List.mem_map.mpr ⟨k, List.mem_range.mpr hk, rfl⟩, ho⟩
    · exact absurd (hlate n hn) (Nat.lt_irrefl n)
  · intro h fuel o ho
    obtain ⟨t, -, hevents, hle, -⟩ := smpBspStartAps_spec long fuel
    rw [hevents] at ho
    obtain ⟨ptr, hptr, ho⟩ := List.mem_flatMap.mp ho
    obtain ⟨k, hk, rfl⟩ := List.mem_map.mp hptr
    have hk := List.mem_range.mp hk
    exact entry_inside_iff.mpr (h k (Nat.lt_of_lt_of_le hk (hle n hn))) o ho

/-- Well-formed entries are found one after the other, up to the end of the table. -/
theorem Tiles.positions {ptr : Nat} (h : Tiles s ptr ptrs) (hk : position s k = ptr) :
    ptrs = (List.range ptrs.length).map (fun j => position s (k + j)) ∧
      spent s (k + ptrs.length) + ptr = spent s k + s.length.toNat := by
  induction h generalizing k with
  | done => exact ⟨rfl, rfl⟩
  | @entry ptr ptrs hsize hprocessor _ ih =>
    have hadvance : advance s ptr = lengthByte s ptr := by
      rw [advance]
      split_ifs with htype
      · exact (hprocessor htype).symm
      · rfl
    have hnext : position s (k + 1) = ptr + lengthByte s ptr := by
      rw [position, hk, hadvance]
    obtain ⟨hptrs, hspent⟩ := ih hnext
    have hshift : ∀ j, k + 1 + j = k + (j + 1) := fun j => by omega
    constructor
    · rw [List.length_cons, List.range_succ_eq_map, List.map_cons, List.map_map, Nat.add_zero, hk]
      congr 1
      rw [hptrs, List.length_map, List.length_range]
      simp only [hshift, Function.comp_def]
    · rw [spent, hk, hshift] at hspent
      rw [List.length_cons]
      omega

theorem Tiles.spent_length (h : Tiles s 44 ptrs) : spent s ptrs.length = s.length.toNat - 44 := by
  have hspent := (h.positions (k := 0) rfl).2
  rw [Nat.zero_add, spent] at hspent
  omega

/-- A table of well-formed entries is exhausted, at its end if not before. -/
theorem Tiles.exhausts (h : Tiles s 44 ptrs) : ∃ n ≤ ptrs.length, Exhausts s n := by
  have hend : spent s ptrs.length % 2 ^ 16 = (s.length.toNat - 44) % 2 ^ 16 := by
    rw [h.spent_length]
  have hsome : ∃ n, spent s n % 2 ^ 16 = (s.length.toNat - 44) % 2 ^ 16 := ⟨_, hend⟩
  exact ⟨Nat.find hsome, Nat.find_min' hsome hend, Nat.find_spec hsome,
    fun k hk => Nat.find_min hsome hk⟩

theorem started_iff (long : 44 ≤ s.length.toNat) (hn : Exhausts s n) (tiles : Tiles s 44 ptrs)
    (hok : (smpBspStartAps s fuel).result = .ok ()) :
    (started (smpBspStartAps s fuel).events =
      (ptrs.filter (ToStart s)).map fun ptr => s.madt (ptr + 3)) ↔
      ∀ ptr ∈ ptrs.drop n, ¬ ToStart s ptr := by
  obtain ⟨t, -, hevents, -, ⟨-, hend⟩ | ⟨hfail, -⟩⟩ := smpBspStartAps_spec long fuel
  · obtain rfl := hend.unique hn
    obtain ⟨m, hm, hm'⟩ := tiles.exhausts
    obtain rfl := hend.unique hm'
    have htake : (List.range t).map (position s) = ptrs.take t := by
      have hptrs := (tiles.positions (k := 0) rfl).1
      simp only [Nat.zero_add] at hptrs
      rw [hptrs, ← List.map_take, List.take_range, Nat.min_eq_left hm]
    have hsplit : ptrs.filter (ToStart s) =
        (ptrs.take t).filter (ToStart s) ++ (ptrs.drop t).filter (ToStart s) := by
      rw [← List.filter_append, List.take_append_drop]
    rw [hevents, htake, started_entries, hsplit, List.map_append, List.self_eq_append_right,
      List.map_eq_nil_iff, List.filter_eq_nil_iff]
    simp only [decide_eq_true_eq]
  · rw [hok] at hfail
    cases hfail

/-- For every table the walk is right just if it is in step with the table. -/
theorem walk_right_iff (long : 44 ≤ s.length.toNat) : WalkRight s ↔ InStep s := by
  rw [WalkRight, ends_iff long]
  constructor
  · rintro ⟨⟨n, hn⟩, hreads, hstarts⟩
    obtain ⟨fuel, hok⟩ := (ends_iff long).mpr ⟨n, hn⟩
    refine ⟨n, hn, (reads_inside_iff long hn).mp hreads, fun ptrs tiles => ?_⟩
    exact (started_iff long hn tiles hok).mp (hstarts ptrs tiles fuel hok)
  · rintro ⟨n, hn, hinside, hrest⟩
    refine ⟨⟨n, hn⟩, (reads_inside_iff long hn).mpr hinside, fun ptrs tiles fuel hok => ?_⟩
    exact (started_iff long hn tiles hok).mpr (hrest ptrs tiles)

theorem Tiles.le {ptr : Nat} (h : Tiles s ptr ptrs) : ptr ≤ s.length.toNat := by
  induction h with
  | done => exact Nat.le_refl _
  | entry _ _ _ ih => omega

/-- Well-formed entries are not empty, and what is read of them is in the table. -/
theorem Tiles.inside {ptr : Nat} (h : Tiles s ptr ptrs) (hk : position s k = ptr) :
    ∀ j < ptrs.length, 2 ≤ lengthByte s (position s (k + j)) ∧
      position s (k + j) + extent s (position s (k + j)) ≤ s.length.toNat := by
  induction h generalizing k with
  | done => exact fun j hj => absurd hj (Nat.not_lt_zero j)
  | @entry ptr ptrs hsize hprocessor rest ih =>
    have hle := rest.le
    have hboth : advance s ptr = lengthByte s ptr ∧ extent s ptr ≤ lengthByte s ptr := by
      rw [advance, extent]
      split_ifs with htype
      · rw [hprocessor htype]
        exact ⟨rfl, Nat.le_refl 8⟩
      · exact ⟨rfl, hsize⟩
    intro j hj
    cases j with
    | zero =>
      rw [Nat.add_zero, hk]
      exact ⟨hsize, by omega⟩
    | succ j =>
      have hshift : k + (j + 1) = k + 1 + j := by omega
      rw [hshift]
      refine ih ?_ j (Nat.lt_of_succ_lt_succ hj)
      rw [position, hk, hboth.1]

theorem spent_mono : Monotone (spent s) :=
  monotone_nat_of_le_succ fun _ => Nat.le_add_right _ _

/-- With less than 64 KiB of well-formed entries, the walk ends at the end of the table. -/
theorem Tiles.length_of_short (tiles : Tiles s 44 ptrs) (short : s.length.toNat - 44 < 2 ^ 16)
    (hend : Exhausts s n) : n = ptrs.length := by
  obtain ⟨m, hm, hend'⟩ := tiles.exhausts
  obtain rfl := hend.unique hend'
  have hinside := tiles.inside (k := 0) rfl
  simp only [Nat.zero_add] at hinside
  have hlast := tiles.spent_length
  have hle : spent s n ≤ spent s ptrs.length := spent_mono hm
  by_contra hne
  have hlt : n < ptrs.length := by omega
  have hnext : spent s (n + 1) ≤ spent s ptrs.length := spent_mono hlt
  have hsize := (hinside n hlt).1
  have hspent := hend.1
  rw [spent] at hnext
  omega

theorem inStep_of_tiles (tiles : Tiles s 44 ptrs) (short : s.length.toNat - 44 < 2 ^ 16) :
    InStep s := by
  obtain ⟨n, -, hend⟩ := tiles.exhausts
  have hinside := tiles.inside (k := 0) rfl
  simp only [Nat.zero_add] at hinside
  refine ⟨n, hend, fun k hk => ?_, fun ptrs' tiles' => ?_⟩
  · rw [tiles.length_of_short short hend] at hk
    exact (hinside k hk).2
  · rw [tiles'.length_of_short short hend, List.drop_length]
    exact fun ptr hptr => absurd hptr List.not_mem_nil

end Right

/-- A table of `length` bytes, of which those of the first entry are given. -/
def tableOf (length : BitVec 8) (entry : List (BitVec 8)) : Startup where
  madt := fun o => if o = 4 then length else if o < 44 then 0 else entry.getD (o - 44) 0
  bspLocalApicId := 0
  maxCpuCount := 16

theorem walk_right_iff_processor : WalkRight (tableOf 52 [0, 8, 1, 1, 1, 0, 0, 0]) ↔
    InStep (tableOf 52 [0, 8, 1, 1, 1, 0, 0, 0]) :=
  walk_right_iff (by decide)

/-- An entry of length zero is gone through without end. -/
theorem zero_length_stuck : ¬ WalkRight (tableOf 46 [1, 0]) := by
  have hplace : ∀ k, position (tableOf 46 [1, 0]) k = 44 ∧ spent (tableOf 46 [1, 0]) k = 0 := by
    intro k
    induction k with
    | zero => exact ⟨rfl, rfl⟩
    | succ k ih =>
      rw [position, spent, ih.1, ih.2]
      exact ⟨rfl, rfl⟩
  rintro ⟨hends, -⟩
  obtain ⟨n, hend, -⟩ := (ends_iff (by decide)).mp hends
  rw [(hplace n).2] at hend
  exact absurd hend (by decide)

end MadtWalk
