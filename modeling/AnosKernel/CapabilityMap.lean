import AnosKernel.FixedBlocks
import AnosKernel.Lib.Probing
import AnosKernel.Lib.Runs

/-!
# The capability map

`kernel/capabilities/map.c`: open addressing with linear probing over a power of two of
entries. A deletion leaves a tombstone, and every search goes on until it meets its key or an
entry that was never occupied. The map doubles when one more entry would pass three quarters of
its capacity; only live entries are counted for that. The searches have no bound of their own,
so each call is given the number of turns its loops may take, and `none` says that one of them
has not ended. The lock serialises the calls and is not represented.
-/

namespace CapabilityMaps

open FixedBlocks Probing Runs

structure CapabilityMapEntry where
  key : BitVec 64
  value : BitVec 64
  occupied : Bool
  tombstone : Bool
  deriving DecidableEq, Repr

structure CapabilityMap where
  entries : Nat → CapabilityMapEntry
  capacity : Nat
  size : Nat
  blockCount : Nat

def initialCapacity : Nat := 64

def clearedEntry : CapabilityMapEntry := ⟨0, 0, false, false⟩

/-- The MurmurHash3 finalizer. -/
def hashU64 (x : BitVec 64) : BitVec 64 :=
  let x := x ^^^ (x >>> 33)
  let x := x * 0xff51afd7ed558ccd
  let x := x ^^^ (x >>> 33)
  let x := x * 0xc4ceb9fe1a85ec53
  x ^^^ (x >>> 33)

/-- Blocks of 4096 bytes for entries of 24. -/
def blocksFor (capacity : Nat) : Nat := (capacity * 24 + 4095) / 4096

/-- `while (new_entries[j].occupied)` -/
def findUnoccupied (entries : Nat → CapabilityMapEntry) (capacity : Nat) : Nat → Nat → Option Nat
  | 0, _ => none
  | turns + 1, j =>
    if (entries j).occupied then
      findUnoccupied entries capacity turns ((j + 1) &&& (capacity - 1))
    else some j

/-- The new entries after the first `i` of the old ones. -/
def replaceEntries (turns : Nat) (old : Nat → CapabilityMapEntry) (newCapacity : Nat) :
    Nat → Option (Nat → CapabilityMapEntry)
  | 0 => some fun _ => clearedEntry
  | i + 1 => do
    let newEntries ← replaceEntries turns old newCapacity i
    if (old i).occupied && !(old i).tombstone then
      let h := hashU64 (old i).key
      let j ← findUnoccupied newEntries newCapacity turns (h.toNat &&& (newCapacity - 1))
      return Function.update newEntries j (old i)
    else return newEntries

def resize (turns : Nat) (granted : Bool) (map : CapabilityMap) (newCapacity : Nat) :
    Option (Bool × CapabilityMap) :=
  let blocks := blocksFor newCapacity
  if fbaAllocBlocks granted (BitVec.ofNat 32 blocks) then do
    let newEntries ← replaceEntries turns map.entries newCapacity map.capacity
    return (true, { map with
      entries := newEntries
      capacity := newCapacity
      blockCount := blocks })
  else some (false, map)

/-- A map whose lock and entries could be allocated; otherwise there is no map to call. -/
def capabilityMapInit (lockSlab granted : Bool) : Option CapabilityMap :=
  let blocks := blocksFor initialCapacity
  if lockSlab && fbaAllocBlocks granted (BitVec.ofNat 32 blocks) then
    some { entries := fun _ => clearedEntry, capacity := initialCapacity, size := 0,
           blockCount := blocks }
  else none

/-- `(double)(map->size + 1) / map->capacity > MAX_LOAD_FACTOR`; the quotient by a power of two
is exact. -/
def resizeNeeded (map : CapabilityMap) : Bool := decide ((map.size + 1) * 4 > map.capacity * 3)

/-- Where the search of `capability_map_insert` ends: at the live entry of the key, or with the
entry to take. -/
inductive InsertAt
  | update (i : Nat)
  | take (i : Nat)
  deriving DecidableEq

def findInsert (entries : Nat → CapabilityMapEntry) (capacity : Nat) (key : BitVec 64) :
    Nat → Nat → Option Nat → Option InsertAt
  | 0, _, _ => none
  | turns + 1, i, firstTombstone =>
    if (entries i).occupied then
      if !(entries i).tombstone && (entries i).key == key then some (.update i)
      else findInsert entries capacity key turns ((i + 1) &&& (capacity - 1))
        (if (entries i).tombstone && firstTombstone.isNone then some i else firstTombstone)
    else some (.take (firstTombstone.getD i))

def insertEntry (turns : Nat) (map : CapabilityMap) (key value : BitVec 64) :
    Option (Bool × CapabilityMap) := do
  let h := hashU64 key
  match ← findInsert map.entries map.capacity key turns (h.toNat &&& (map.capacity - 1)) none with
  | .update i =>
    return (true, { map with
      entries := Function.update map.entries i { map.entries i with value := value } })
  | .take i =>
    return (true, { map with
      entries := Function.update map.entries i ⟨key, value, true, false⟩
      size := map.size + 1 })

def capabilityMapInsert (turns : Nat) (granted : Bool) (map : CapabilityMap)
    (key value : BitVec 64) : Option (Bool × CapabilityMap) :=
  if resizeNeeded map then do
    let (ok, resized) ← resize turns granted map (map.capacity * 2)
    if ok then insertEntry turns resized key value else return (false, resized)
  else insertEntry turns map key value

/-- The search of `capability_map_lookup` and `capability_map_delete`: the live entry of the key
or, at an entry never occupied, none. -/
def findKey (entries : Nat → CapabilityMapEntry) (capacity : Nat) (key : BitVec 64) :
    Nat → Nat → Option (Option Nat)
  | 0, _ => none
  | turns + 1, i =>
    if (entries i).occupied then
      if !(entries i).tombstone && (entries i).key == key then some (some i)
      else findKey entries capacity key turns ((i + 1) &&& (capacity - 1))
    else some none

def capabilityMapLookup (turns : Nat) (map : CapabilityMap) (key : BitVec 64) :
    Option (BitVec 64) := do
  let h := hashU64 key
  match ← findKey map.entries map.capacity key turns (h.toNat &&& (map.capacity - 1)) with
  | some i => return (map.entries i).value
  | none => return 0

def capabilityMapDelete (turns : Nat) (map : CapabilityMap) (key : BitVec 64) :
    Option (Bool × CapabilityMap) := do
  let h := hashU64 key
  match ← findKey map.entries map.capacity key turns (h.toNat &&& (map.capacity - 1)) with
  | some i =>
    return (true, { map with
      entries := Function.update map.entries i { map.entries i with tombstone := true, value := 0 }
      size := map.size - 1 })
  | none => return (false, map)

def capabilityMapCleanup (turns : Nat) (granted : Bool) (map : CapabilityMap) :
    Option (Bool × CapabilityMap) :=
  resize turns granted map map.capacity

/-! ## The entries as a ring of slots -/

def slotOf (entry : CapabilityMapEntry) : Slot (BitVec 64) (BitVec 64) :=
  if entry.occupied then if entry.tombstone then .dead else .live entry.key entry.value
  else .free

def view (entries : Nat → CapabilityMapEntry) (i : Nat) : Slot (BitVec 64) (BitVec 64) :=
  slotOf (entries i)

def home (capacity : Nat) (key : BitVec 64) : Nat := (hashU64 key).toNat &&& (capacity - 1)

theorem view_update (entries : Nat → CapabilityMapEntry) (i : Nat) (entry : CapabilityMapEntry) :
    view (Function.update entries i entry) = Function.update (view entries) i (slotOf entry) :=
  Function.comp_update slotOf entries i entry

section Slots
variable {entries : Nat → CapabilityMapEntry} {i : Nat} {key value : BitVec 64}

theorem view_free : view entries i = .free ↔ (entries i).occupied = false := by
  unfold view slotOf
  cases (entries i).occupied <;> cases (entries i).tombstone <;> simp

theorem view_dead :
    view entries i = .dead ↔ (entries i).occupied = true ∧ (entries i).tombstone = true := by
  unfold view slotOf
  cases (entries i).occupied <;> cases (entries i).tombstone <;> simp

theorem view_live : view entries i = .live key value ↔
    (entries i).occupied = true ∧ (entries i).tombstone = false ∧ (entries i).key = key ∧
      (entries i).value = value := by
  unfold view slotOf
  cases (entries i).occupied <;> cases (entries i).tombstone <;> simp

theorem view_isLive :
    (view entries i).isLive = ((entries i).occupied && !(entries i).tombstone) := by
  unfold view slotOf
  cases (entries i).occupied <;> cases (entries i).tombstone <;> rfl

/-- Where the search of a key ends. -/
def stopsAt (entries : Nat → CapabilityMapEntry) (key : BitVec 64) (i : Nat) : Prop :=
  view entries i = .free ∨ ∃ value, view entries i = .live key value

theorem not_stopsAt (h : ¬ stopsAt entries key i) :
    (entries i).occupied = true ∧ (!(entries i).tombstone && (entries i).key == key) = false := by
  have hocc : (entries i).occupied = true := by
    by_contra hocc
    exact h (Or.inl (view_free.mpr (Bool.not_eq_true _ ▸ hocc)))
  refine ⟨hocc, ?_⟩
  by_contra hmatch
  simp only [Bool.not_eq_false, Bool.and_eq_true, Bool.not_eq_true', beq_iff_eq] at hmatch
  exact h (Or.inr ⟨(entries i).value, view_live.mpr ⟨hocc, hmatch.1, hmatch.2, rfl⟩⟩)

theorem live_matches (h : view entries i = .live key value) :
    (entries i).occupied = true ∧ (!(entries i).tombstone && (entries i).key == key) = true := by
  obtain ⟨hocc, htomb, hkey, -⟩ := view_live.mp h
  simp [hocc, htomb, hkey]

end Slots

/-! ## The search loops end at the first stop -/

section Searches
variable {entries : Nat → CapabilityMapEntry} {e capacity h p : Nat} {key : BitVec 64}

theorem mask_eq_mod (hcap : capacity = 2 ^ e) (i : Nat) : i &&& (capacity - 1) = i % capacity := by
  rw [hcap, Nat.and_two_pow_sub_one_eq_mod]

theorem home_lt (hcap : capacity = 2 ^ e) (key : BitVec 64) : home capacity key < capacity := by
  rw [home, mask_eq_mod hcap]
  exact Nat.mod_lt _ (by rw [hcap]; exact Nat.two_pow_pos e)

theorem mask_next (hcap : capacity = 2 ^ e) (i : Nat) :
    ((h + i) % capacity + 1) &&& (capacity - 1) = (h + (i + 1)) % capacity := by
  rw [mask_eq_mod hcap, succ_mod_ring]

theorem findUnoccupied_settles (hcap : capacity = 2 ^ e) (hh : h < capacity)
    (hf : First capacity (fun q => view entries q = .free) h p) :
    Settles (fun turns => findUnoccupied entries capacity turns h) p := by
  have hloop := loop_settles (f := fun turns i =>
    findUnoccupied entries capacity turns ((h + i) % capacity)) (d := dist capacity h p) (r := p)
    (fun _ => rfl) (fun i hi turns => ?_) (fun turns => ?_)
  · simpa only [Nat.add_zero, Nat.mod_eq_of_lt hh] using hloop
  · have hocc := mt view_free.mpr (hf.turn hh hi)
    rw [findUnoccupied, if_pos (by simpa using hocc), mask_next hcap]
  · rw [at_dist hh hf.inside, findUnoccupied, if_neg (by simp [view_free.mp hf.stops])]

theorem findKey_settles (hcap : capacity = 2 ^ e) (hh : h < capacity)
    (hf : First capacity (stopsAt entries key) h p) :
    Settles (fun turns => findKey entries capacity key turns h)
      (if (entries p).occupied then some p else none) := by
  have hloop := loop_settles (f := fun turns i =>
    findKey entries capacity key turns ((h + i) % capacity)) (d := dist capacity h p)
    (r := if (entries p).occupied then some p else none)
    (fun _ => rfl) (fun i hi turns => ?_) (fun turns => ?_)
  · simpa only [Nat.add_zero, Nat.mod_eq_of_lt hh] using hloop
  · obtain ⟨hocc, hother⟩ := not_stopsAt (hf.turn hh hi)
    rw [findKey, if_pos hocc, hother, if_neg (by simp), mask_next hcap]
  · rw [at_dist hh hf.inside, findKey]
    rcases hf.stops with hfree | ⟨value, hlive⟩
    · simp [view_free.mp hfree]
    · obtain ⟨hocc, hmatch⟩ := live_matches hlive
      rw [if_pos hocc, if_pos hmatch, if_pos hocc]

/-- The first tombstone among the first `i` entries of a search. -/
def tombstoneMet (entries : Nat → CapabilityMapEntry) (capacity h : Nat) : Nat → Option Nat
  | 0 => none
  | i + 1 =>
    if (entries ((h + i) % capacity)).tombstone && (tombstoneMet entries capacity h i).isNone
    then some ((h + i) % capacity) else tombstoneMet entries capacity h i

theorem findInsert_settles (hcap : capacity = 2 ^ e) (hh : h < capacity)
    (hf : First capacity (stopsAt entries key) h p) :
    Settles (fun turns => findInsert entries capacity key turns h none)
      (if (entries p).occupied then .update p
        else .take ((tombstoneMet entries capacity h (dist capacity h p)).getD p)) := by
  have hloop := loop_settles (f := fun turns i => findInsert entries capacity key turns
    ((h + i) % capacity) (tombstoneMet entries capacity h i)) (d := dist capacity h p)
    (r := if (entries p).occupied then .update p
        else .take ((tombstoneMet entries capacity h (dist capacity h p)).getD p))
    (fun _ => rfl) (fun i hi turns => ?_) (fun turns => ?_)
  · simpa only [Nat.add_zero, Nat.mod_eq_of_lt hh, tombstoneMet] using hloop
  · obtain ⟨hocc, hother⟩ := not_stopsAt (hf.turn hh hi)
    rw [findInsert, if_pos hocc, hother, if_neg (by simp), mask_next hcap]
    rfl
  · rw [at_dist hh hf.inside, findInsert]
    rcases hf.stops with hfree | ⟨value, hlive⟩
    · simp [view_free.mp hfree]
    · obtain ⟨hocc, hmatch⟩ := live_matches hlive
      rw [if_pos hocc, if_pos hmatch, if_pos hocc]

/-- Before the first stop a tombstone flag is a tombstone. -/
theorem tombstoneMet_some {i t : Nat} (hh : h < capacity)
    (hf : First capacity (stopsAt entries key) h p) (hi : i ≤ dist capacity h p)
    (ht : tombstoneMet entries capacity h i = some t) :
    t < capacity ∧ dist capacity h t < i ∧ view entries t = .dead := by
  have hp := dist_lt hh hf.inside
  induction i with
  | zero => exact absurd ht (by simp [tombstoneMet])
  | succ i ih =>
    rw [tombstoneMet] at ht
    split at ht
    · rename_i hmet
      have heq : (h + i) % capacity = t := Option.some.inj ht
      rw [Bool.and_eq_true] at hmet
      obtain ⟨hocc, -⟩ := not_stopsAt (hf.turn hh (i := i) (by omega))
      rw [← heq, dist_at hh (by omega)]
      exact ⟨Nat.mod_lt _ (by omega), Nat.lt_succ_self i, view_dead.mpr ⟨hocc, hmet.1⟩⟩
    · obtain ⟨hlt, hdist, hdead⟩ := ih (by omega) ht
      exact ⟨hlt, by omega, hdead⟩

theorem tombstoneMet_none {i q : Nat} (hh : h < capacity) (hi : i ≤ capacity)
    (ht : tombstoneMet entries capacity h i = none) (hq : q < capacity)
    (hdist : dist capacity h q < i) : view entries q ≠ .dead := by
  induction i with
  | zero => omega
  | succ i ih =>
    rw [tombstoneMet] at ht
    split at ht
    · exact absurd ht (by simp)
    · rename_i hmet
      by_cases hlast : dist capacity h q = i
      · rw [ht, ← hlast, at_dist hh hq] at hmet
        intro hdead
        exact hmet (by simp [(view_dead.mp hdead).2])
      · exact ih (by omega) ht (by omega)

end Searches

/-! ## What the calls keep -/

/-- The map holds exactly `m`. -/
structure Inv (map : CapabilityMap) (m : BitVec 64 → Option (BitVec 64)) : Prop where
  power : ∃ e, map.capacity = 2 ^ e
  large : 64 ≤ map.capacity
  sound : Sound map.capacity (home map.capacity) (view map.entries)
  represents : Represents map.capacity (view map.entries) m
  size : map.size = liveCount map.capacity (view map.entries)
  load : map.size * 4 ≤ map.capacity * 3

def unoccupied (map : CapabilityMap) : Finset Nat :=
  (Finset.range map.capacity).filter fun i => (map.entries i).occupied = false

def HasUnoccupied (map : CapabilityMap) : Prop :=
  ∃ i < map.capacity, (map.entries i).occupied = false

/-- A tombstone the search of the key meets before an entry never occupied. -/
def MeetsTombstone (map : CapabilityMap) (key : BitVec 64) : Prop :=
  ∃ i < map.capacity, view map.entries i = .dead ∧
    NoFree map.capacity (view map.entries) (home map.capacity key) i

variable {map : CapabilityMap} {m : BitVec 64 → Option (BitVec 64)} {key value : BitVec 64}

theorem HasUnoccupied.free (h : HasUnoccupied map) :
    ∃ i < map.capacity, view map.entries i = .free := by
  obtain ⟨i, hi, hocc⟩ := h
  exact ⟨i, hi, view_free.mpr hocc⟩

/-- While an entry was never occupied, the search of a key ends at the key or at such an entry. -/
theorem Inv.search (h : Inv map m) (hfree : HasUnoccupied map) (key : BitVec 64) :
    ∃ p, First map.capacity (stopsAt map.entries key) (home map.capacity key) p ∧
      ((view map.entries p = .free ∧ m key = none) ∨
        ∃ value, view map.entries p = .live key value ∧ m key = some value) := by
  obtain ⟨e, hcap⟩ := h.power
  obtain ⟨q, hq, hq_free⟩ := hfree.free
  obtain ⟨p, hp⟩ := exists_first (stopsAt map.entries key) (home_lt hcap key)
    ⟨q, hq, Or.inl hq_free⟩
  exact ⟨p, hp, h.sound.search_represents h.represents (home_lt hcap key) hp⟩

theorem Inv.lookup_settles (h : Inv map m) (hfree : HasUnoccupied map) (key : BitVec 64) :
    Settles (fun turns => capabilityMapLookup turns map key) ((m key).getD 0) := by
  obtain ⟨e, hcap⟩ := h.power
  obtain ⟨p, hp, hcase⟩ := h.search hfree key
  refine (findKey_settles hcap (home_lt hcap key) hp).bind ?_
  rcases hcase with ⟨hp_free, hnone⟩ | ⟨value, hlive, hsome⟩
  · rw [if_neg (by simp [view_free.mp hp_free]), hnone]
    exact Settles.const 0
  · obtain ⟨hocc, -, -, hvalue⟩ := view_live.mp hlive
    rw [if_pos hocc, hsome]
    simp only [hvalue]
    exact Settles.const value

/-- What deleting a live key leaves. -/
theorem Inv.bury (h : Inv map m) {p : Nat} (hp : p < map.capacity)
    (hlive : view map.entries p = .live key value) :
    Inv { map with
      entries := Function.update map.entries p
        { map.entries p with tombstone := true, value := 0 }
      size := map.size - 1 } (Function.update m key none) := by
  have hocc := (view_live.mp hlive).1
  have hview : view (Function.update map.entries p
      { map.entries p with tombstone := true, value := 0 })
      = Function.update (view map.entries) p .dead := by
    rw [view_update]
    simp [slotOf, hocc]
  have hloss := liveCount_loss hp hlive (s := Slot.dead) rfl
  have hsize := h.size
  have hload := h.load
  refine ⟨h.power, h.large, ?_, ?_, ?_, ?_⟩
  · simp only [hview]
    exact h.sound.bury
  · simp only [hview]
    exact h.represents.erase h.sound.unique hp hlive rfl
  · simp only [hview]
    omega
  · simp only
    omega

theorem Inv.delete_settles (h : Inv map m) (hfree : HasUnoccupied map) (key : BitVec 64) :
    ∃ map', Settles (fun turns => capabilityMapDelete turns map key) ((m key).isSome, map') ∧
      Inv map' (Function.update m key none) ∧ (HasUnoccupied map') := by
  obtain ⟨e, hcap⟩ := h.power
  obtain ⟨p, hp, hcase⟩ := h.search hfree key
  have hfind := findKey_settles hcap (home_lt hcap key) hp
  rcases hcase with ⟨hp_free, hnone⟩ | ⟨value, hlive, hsome⟩
  · refine ⟨map, hfind.bind ?_, ?_, hfree⟩
    · rw [if_neg (by simp [view_free.mp hp_free]), hnone]
      exact Settles.const (false, map)
    · rwa [← hnone, Function.update_eq_self]
  · have hocc := (view_live.mp hlive).1
    refine ⟨_, hfind.bind ?_, h.bury hp.inside hlive, ?_⟩
    · rw [if_pos hocc, hsome]
      exact Settles.const _
    · obtain ⟨q, hq, hq_free⟩ := hfree
      have hqp : q ≠ p := by
        rintro rfl
        rw [hocc] at hq_free
        exact absurd hq_free (by simp)
      exact ⟨q, hq, by simpa only [Function.update_of_ne hqp] using hq_free⟩

theorem Inv.overwrite (h : Inv map m) {p : Nat} {old : BitVec 64} (value : BitVec 64)
    (hp : p < map.capacity) (hlive : view map.entries p = .live key old) :
    Inv { map with
      entries := Function.update map.entries p { map.entries p with value := value } }
      (Function.update m key (some value)) := by
  obtain ⟨hocc, htomb, hkey, -⟩ := view_live.mp hlive
  have hview : view (Function.update map.entries p { map.entries p with value := value })
      = Function.update (view map.entries) p (.live key value) := by
    rw [view_update]
    simp [slotOf, hocc, htomb, hkey]
  have only : ∀ q < map.capacity, q ≠ p → ∀ y, view map.entries q ≠ .live key y :=
    fun q hq hqp y hy => hqp (h.sound.unique q hq p hp key y old hy hlive)
  refine ⟨h.power, h.large, ?_, ?_, ?_, h.load⟩
  · simp only [hview]
    exact h.sound.write (h.sound.reach p hp key old hlive) only
  · simp only [hview]
    refine h.represents.write hp only fun k' y hy => ?_
    rw [hlive] at hy
    injection hy with hk _
    exact hk.symm
  · simp only [hview, liveCount_keep hp hlive]
    exact h.size

/-- What taking a slot that is not live, on the way of the key's search, leaves. -/
theorem Inv.take (h : Inv map m) {t : Nat} (value : BitVec 64) (hnone : m key = none)
    (room : (map.size + 1) * 4 ≤ map.capacity * 3) (ht : t < map.capacity)
    (path : NoFree map.capacity (view map.entries) (home map.capacity key) t)
    (hdead : (view map.entries t).isLive = false) :
    Inv { map with
      entries := Function.update map.entries t ⟨key, value, true, false⟩
      size := map.size + 1 } (Function.update m key (some value)) := by
  have hview : view (Function.update map.entries t ⟨key, value, true, false⟩)
      = Function.update (view map.entries) t (.live key value) := by
    rw [view_update]
    rfl
  have absent : ∀ q < map.capacity, q ≠ t → ∀ y, view map.entries q ≠ .live key y := by
    intro q hq _ y hy
    have hsome := (h.represents key y).mpr ⟨q, hq, hy⟩
    rw [hnone] at hsome
    exact absurd hsome (by simp)
  refine ⟨h.power, h.large, ?_, ?_, ?_, room⟩
  · simp only [hview]
    exact h.sound.write path absent
  · simp only [hview]
    refine h.represents.write ht absent fun k' y hy => ?_
    rw [hy] at hdead
    exact absurd hdead (by simp)
  · simp only [hview, liveCount_gain ht hdead]
    exact congrArg (· + 1) h.size

/-- Another unoccupied entry remains when one is written. -/
theorem HasUnoccupied.write {t size : Nat} {entry : CapabilityMapEntry} (hfree : HasUnoccupied map)
    (other : (map.entries t).occupied = true ∨ 2 ≤ (unoccupied map).card) :
    HasUnoccupied { map with entries := Function.update map.entries t entry, size := size } := by
  have hex : ∃ q ∈ unoccupied map, q ≠ t := by
    rcases other with hocc | htwo
    · obtain ⟨q, hq, hq_free⟩ := hfree
      refine ⟨q, by simp [unoccupied, hq, hq_free], ?_⟩
      rintro rfl
      rw [hocc] at hq_free
      exact absurd hq_free (by simp)
    · exact Finset.exists_mem_ne htwo t
  obtain ⟨q, hq_mem, hqt⟩ := hex
  obtain ⟨hq, hq_free⟩ := Finset.mem_filter.mp hq_mem
  exact ⟨q, Finset.mem_range.mp hq, by simpa only [Function.update_of_ne hqt] using hq_free⟩

/-- An insertion that does not resize. It leaves an entry unoccupied unless it takes the last
one. -/
theorem Inv.insertEntry_settles (h : Inv map m) (hfree : HasUnoccupied map) (key value : BitVec 64)
    (room : (map.size + 1) * 4 ≤ map.capacity * 3) :
    ∃ map', Settles (fun turns => insertEntry turns map key value) (true, map') ∧
      Inv map' (Function.update m key (some value)) ∧
      (m key ≠ none ∨ MeetsTombstone map key ∨ 2 ≤ (unoccupied map).card → HasUnoccupied map') := by
  obtain ⟨e, hcap⟩ := h.power
  obtain ⟨p, hp, hcase⟩ := h.search hfree key
  have hhome := home_lt hcap key
  have hfind := findInsert_settles hcap hhome hp
  rcases hcase with ⟨hp_free, hnone⟩ | ⟨old, hlive, hsome⟩
  · have hp_occ := view_free.mp hp_free
    rw [if_neg (by simp [hp_occ])] at hfind
    cases hmet : tombstoneMet map.entries map.capacity (home map.capacity key)
        (dist map.capacity (home map.capacity key) p) with
    | none =>
      -- no tombstone on the way: the entry that ended the search is taken
      rw [hmet, Option.getD_none] at hfind
      refine ⟨_, hfind.bind (Settles.const _), h.take value hnone room hp.inside
        (fun q hq hlt hq_free => hp.before q hq hlt (Or.inl hq_free)) (by rw [hp_free]; rfl),
        fun hor => hfree.write (Or.inr ?_)⟩
      refine (hor.resolve_left (fun hne => hne hnone)).resolve_left ?_
      rintro ⟨q, hq, hq_dead, hq_path⟩
      have hd := dist_lt hhome hp.inside
      by_cases hlt : dist map.capacity (home map.capacity key) q
          < dist map.capacity (home map.capacity key) p
      · exact tombstoneMet_none hhome (by omega) hmet hq hlt hq_dead
      · have hqp : dist map.capacity (home map.capacity key) p
            ≠ dist map.capacity (home map.capacity key) q := fun heq => by
          rw [dist_inj hhome hp.inside hq heq, hq_dead] at hp_free
          exact absurd hp_free (by simp)
        exact hq_path p hp.inside (by omega) hp_free
    | some t =>
      rw [hmet, Option.getD_some] at hfind
      obtain ⟨ht, ht_dist, ht_dead⟩ := tombstoneMet_some hhome hp (le_refl _) hmet
      refine ⟨_, hfind.bind (Settles.const _), h.take value hnone room ht
        (fun q hq hlt hq_free => hp.before q hq (by omega) (Or.inl hq_free))
        (by rw [ht_dead]; rfl), fun _ => hfree.write (Or.inl (view_dead.mp ht_dead).1)⟩
  · have hocc := (view_live.mp hlive).1
    rw [if_pos hocc] at hfind
    exact ⟨_, hfind.bind (Settles.const _), h.overwrite value hp.inside hlive,
      fun _ => hfree.write (Or.inl hocc)⟩

/-- The new entries hold what the part of the old ones seen so far held. -/
theorem replaceEntries_settles {old : Nat → CapabilityMapEntry} {oldCapacity newCapacity e : Nat}
    (hcap : newCapacity = 2 ^ e) (hu : Unique oldCapacity (view old))
    (fits : liveCount oldCapacity (view old) < newCapacity) {i : Nat} (hi : i ≤ oldCapacity) :
    ∃ newEntries, Settles (fun turns => replaceEntries turns old newCapacity i) newEntries ∧
      Moved i (view old) newCapacity (home newCapacity) (view newEntries) := by
  induction i with
  | zero => exact ⟨_, Settles.const _, Moved.start⟩
  | succ i ih =>
    obtain ⟨newEntries, hsettles, hmoved⟩ := ih (by omega)
    by_cases hlive : ((old i).occupied && !(old i).tombstone) = true
    · have hview : view old i = .live (old i).key (old i).value := by
        rw [Bool.and_eq_true, Bool.not_eq_true'] at hlive
        exact view_live.mpr ⟨hlive.1, hlive.2, rfl, rfl⟩
      obtain ⟨p, hp⟩ := exists_first _ (home_lt hcap (old i).key)
        (hmoved.room (i := i) (by omega) fits)
      refine ⟨Function.update newEntries p (old i), hsettles.bind ?_, ?_⟩
      · simp only [hlive, if_true]
        exact (findUnoccupied_settles hcap (home_lt hcap _) hp).bind (Settles.const _)
      · have hput : slotOf (old i) = .live (old i).key (old i).value := hview
        rw [view_update, hput]
        exact hmoved.place hu hi hview hp
    · refine ⟨newEntries, hsettles.bind ?_, hmoved.skip ?_⟩
      · simp only [hlive]
        exact Settles.const _
      · rw [view_isLive]
        exact Bool.not_eq_true _ ▸ hlive

theorem HasUnoccupied.of_card (h : 0 < (unoccupied map).card) : HasUnoccupied map := by
  obtain ⟨q, hq⟩ := Finset.card_pos.mp h
  obtain ⟨hq_range, hq_free⟩ := Finset.mem_filter.mp hq
  exact ⟨q, Finset.mem_range.mp hq_range, hq_free⟩

/-- Without tombstones every entry that is not live was never occupied. -/
theorem card_unoccupied (map : CapabilityMap)
    (no_dead : ∀ q < map.capacity, view map.entries q ≠ .dead) :
    (unoccupied map).card + liveCount map.capacity (view map.entries) = map.capacity := by
  have hcompl : unoccupied map
      = (Finset.range map.capacity).filter fun q => ¬ (view map.entries q).isLive = true := by
    refine Finset.filter_congr fun q hq => ?_
    have hq_dead := mt view_dead.mpr (no_dead q (Finset.mem_range.mp hq))
    rw [view_isLive]
    cases hocc : (map.entries q).occupied with
    | false => simp
    | true =>
      have htomb : (map.entries q).tombstone = false := by simpa [hocc] using hq_dead
      simp [htomb]
  have hsum := Finset.card_filter_add_card_filter_not
    (s := Finset.range map.capacity) fun q => (view map.entries q).isLive = true
  rw [Finset.card_range] at hsum
  rw [hcompl, liveCount]
  omega

/-- A resize to a larger or the same power of two keeps the map, and leaves no tombstone. -/
theorem Inv.resize_settles (h : Inv map m) (granted : Bool) (newCapacity : Nat) {e : Nat}
    (hcap : newCapacity = 2 ^ e) (hlarge : map.capacity ≤ newCapacity) :
    ∃ ok map', Settles (fun turns => resize turns granted map newCapacity) (ok, map') ∧
      Inv map' m ∧ (ok = false → map' = map) ∧
      (ok = true → 2 ≤ (unoccupied map').card ∧ map'.capacity = newCapacity ∧
        map'.size = map.size) := by
  have hsize := h.size
  have hload := h.load
  have hlarge' := h.large
  have hfits : liveCount map.capacity (view map.entries) < newCapacity := by omega
  obtain ⟨newEntries, hsettles, hmoved⟩ := replaceEntries_settles hcap h.sound.unique hfits
    (le_refl map.capacity)
  by_cases hgrant : fbaAllocBlocks granted (BitVec.ofNat 32 (blocksFor newCapacity)) = true
  · refine ⟨true, { map with
      entries := newEntries, capacity := newCapacity, blockCount := blocksFor newCapacity }, ?_, ?_,
      by simp, fun _ => ⟨?_, rfl, rfl⟩⟩
    · simp only [resize, hgrant, if_true]
      exact hsettles.bind (Settles.const _)
    · refine ⟨⟨e, hcap⟩, ?_, hmoved.sound, hmoved.represents h.represents, ?_, ?_⟩
      · show 64 ≤ newCapacity
        omega
      · exact h.size.trans hmoved.count.symm
      · show map.size * 4 ≤ newCapacity * 3
        omega
    · have hcount := hmoved.count
      have hcard : _ = newCapacity := card_unoccupied { map with
        entries := newEntries, capacity := newCapacity, blockCount := blocksFor newCapacity }
        hmoved.no_dead
      simp only at hcard
      omega
  · refine ⟨false, map, ?_, h, fun _ => rfl, by simp⟩
    simp only [resize, hgrant]
    exact Settles.const _

/-- The map after an insertion that returned `ok`. -/
def insertedInto (m : BitVec 64 → Option (BitVec 64)) (key value : BitVec 64) (ok : Bool) :
    BitVec 64 → Option (BitVec 64) :=
  if ok then Function.update m key (some value) else m

theorem Inv.insert_settles (h : Inv map m) (hfree : HasUnoccupied map) (key value : BitVec 64)
    (granted : Bool) :
    ∃ ok map', Settles (fun turns => capabilityMapInsert turns granted map key value) (ok, map') ∧
      Inv map' (insertedInto m key value ok) ∧
      (resizeNeeded map = true ∨ m key ≠ none ∨ MeetsTombstone map key ∨
        2 ≤ (unoccupied map).card → HasUnoccupied map') := by
  by_cases hneed : resizeNeeded map = true
  · obtain ⟨e, hcap⟩ := h.power
    obtain ⟨ok, map₁, hsettles, hinv₁, hrefused, hdone⟩ :=
      h.resize_settles granted (map.capacity * 2) (e := e + 1) (by rw [hcap, pow_succ]) (by omega)
    simp only [capabilityMapInsert, hneed, if_true]
    cases ok with
    | false =>
      refine ⟨false, map₁, hsettles.bind (Settles.const _), hinv₁, fun _ => ?_⟩
      rw [hrefused rfl]
      exact hfree
    | true =>
      obtain ⟨htwo, hcapacity₁, hsize₁⟩ := hdone rfl
      have hload := h.load
      have hlarge := h.large
      obtain ⟨map', hinsert, hinv', hfree'⟩ := hinv₁.insertEntry_settles
        (HasUnoccupied.of_card (by omega)) key value (by rw [hsize₁, hcapacity₁]; omega)
      exact ⟨true, map', hsettles.bind hinsert, hinv', fun _ => hfree' (Or.inr (Or.inr htwo))⟩
  · have room : (map.size + 1) * 4 ≤ map.capacity * 3 := by simpa [resizeNeeded] using hneed
    obtain ⟨map', hinsert, hinv', hfree'⟩ := h.insertEntry_settles hfree key value room
    refine ⟨true, map', ?_, hinv', fun hor => hfree' (hor.resolve_left hneed)⟩
    simp only [capabilityMapInsert, hneed]
    exact hinsert

theorem Inv.cleanup_settles (h : Inv map m) (hfree : HasUnoccupied map) (granted : Bool) :
    ∃ ok map', Settles (fun turns => capabilityMapCleanup turns granted map) (ok, map') ∧
      Inv map' m ∧ HasUnoccupied map' := by
  obtain ⟨e, hcap⟩ := h.power
  obtain ⟨ok, map', hsettles, hinv', hrefused, hdone⟩ := h.resize_settles granted _ hcap (le_refl _)
  refine ⟨ok, map', hsettles, hinv', ?_⟩
  cases ok with
  | false =>
    rw [hrefused rfl]
    exact hfree
  | true =>
    have htwo := (hdone rfl).1
    exact HasUnoccupied.of_card (by omega)

/-! ## Runs of calls -/

inductive Call
  | insert (key value : BitVec 64) (granted : Bool)
  | delete (key : BitVec 64)
  | lookup (key : BitVec 64)
  | cleanup (granted : Bool)

/-- A call that has returned, with what it returned. -/
inductive Event
  | inserted (key value : BitVec 64) (ok : Bool)
  | deleted (key : BitVec 64) (ok : Bool)
  | lookedUp (key result : BitVec 64)
  | cleanedUp (ok : Bool)

structure State where
  map : CapabilityMap
  history : List Event

/-- The value most recently inserted for the key, unless it was deleted since. The newest event
comes first. -/
def lastInserted : List Event → BitVec 64 → Option (BitVec 64)
  | [], _ => none
  | .inserted key value ok :: earlier, k =>
    if ok = true ∧ key = k then some value else lastInserted earlier k
  | .deleted key _ :: earlier, k => if key = k then none else lastInserted earlier k
  | .lookedUp _ _ :: earlier, k => lastInserted earlier k
  | .cleanedUp _ :: earlier, k => lastInserted earlier k

/-- A call that returns. A call whose search never ends takes no step. -/
inductive Step (s : State) : Call → State → Prop
  | insert {key value : BitVec 64} {granted ok : Bool} {map : CapabilityMap} (turns : Nat)
    (returns : capabilityMapInsert turns granted s.map key value = some (ok, map)) :
    Step s (.insert key value granted)
      { map := map, history := .inserted key value ok :: s.history }
  | delete {key : BitVec 64} {ok : Bool} {map : CapabilityMap} (turns : Nat)
    (returns : capabilityMapDelete turns s.map key = some (ok, map)) :
    Step s (.delete key) { map := map, history := .deleted key ok :: s.history }
  | lookup {key result : BitVec 64} (turns : Nat)
    (returns : capabilityMapLookup turns s.map key = some result) :
    Step s (.lookup key) { s with history := .lookedUp key result :: s.history }
  | cleanup {granted ok : Bool} {map : CapabilityMap} (turns : Nat)
    (returns : capabilityMapCleanup turns granted s.map = some (ok, map)) :
    Step s (.cleanup granted) { map := map, history := .cleanedUp ok :: s.history }

def system : System State Call where
  init := fun s => (∃ lockSlab granted, capabilityMapInit lockSlab granted = some s.map) ∧
    s.history = []
  step := Step

/-- A run during which an entry stays unoccupied. -/
def roomySystem : System State Call := system.within fun s => HasUnoccupied s.map

theorem lastInserted_inserted {history : List Event} {ok : Bool} :
    lastInserted (.inserted key value ok :: history)
      = insertedInto (lastInserted history) key value ok := by
  funext k
  cases ok with
  | false => simp [lastInserted, insertedInto]
  | true => simp [lastInserted, insertedInto, Function.update_apply, eq_comm]

theorem lastInserted_deleted {history : List Event} {ok : Bool} :
    lastInserted (.deleted key ok :: history)
      = Function.update (lastInserted history) key none := by
  funext k
  simp [lastInserted, Function.update_apply, eq_comm]

theorem init_inv {lockSlab granted : Bool} (h : capabilityMapInit lockSlab granted = some map) :
    Inv map (fun _ => none) ∧ HasUnoccupied map := by
  unfold capabilityMapInit at h
  simp only at h
  split at h
  · cases h
    have hmoved : Moved 0 (view fun _ => clearedEntry) initialCapacity (home initialCapacity)
        (view fun _ => clearedEntry) := Moved.start
    refine ⟨⟨⟨6, rfl⟩, by decide, hmoved.sound, ?_, hmoved.count.symm, by decide⟩,
      ⟨0, by decide, rfl⟩⟩
    exact hmoved.represents (m := fun _ => none) (fun k x => by simp [Holds])
  · exact absurd h (by simp)

theorem step_inv {s s' : State} {call : Call} (h : Inv s.map (lastInserted s.history))
    (hfree : HasUnoccupied s.map) (hstep : Step s call s') :
    Inv s'.map (lastInserted s'.history) := by
  cases hstep with
  | @insert key value granted ok map turns returns =>
    obtain ⟨ok', map', hsettles, hinv, -⟩ := h.insert_settles hfree key value granted
    cases hsettles.only turns _ returns
    rw [lastInserted_inserted]
    exact hinv
  | @delete key ok map turns returns =>
    obtain ⟨map', hsettles, hinv, -⟩ := h.delete_settles hfree key
    cases hsettles.only turns _ returns
    rw [lastInserted_deleted]
    exact hinv
  | lookup turns returns => exact h
  | @cleanup granted ok map turns returns =>
    obtain ⟨ok', map', hsettles, hinv, -⟩ := h.cleanup_settles hfree granted
    cases hsettles.only turns _ returns
    exact hinv

theorem roomy_inv {s : State} (h : Reachable roomySystem s) :
    Inv s.map (lastInserted s.history) ∧ HasUnoccupied s.map := by
  refine h.invariant (fun s => Inv s.map (lastInserted s.history) ∧ HasUnoccupied s.map) ?_ ?_
  · rintro s ⟨⟨⟨lockSlab, granted, hinit⟩, hhistory⟩, hfree⟩
    rw [hhistory]
    exact ⟨(init_inv hinit).1, hfree⟩
  · rintro s call s' ⟨hinv, hfree⟩ ⟨hstep, hfree'⟩
    exact ⟨step_inv hinv hfree hstep, hfree'⟩

theorem findInsert_unoccupied {entries : Nat → CapabilityMapEntry} {capacity turns i : Nat}
    (h : (entries i).occupied = false) :
    findInsert entries capacity key (turns + 1) i none = some (.take i) := by
  rw [findInsert, h]
  rfl

/-- An insertion whose search ends at once takes one turn. -/
theorem insert_at_home {granted : Bool} (hneed : resizeNeeded map = false)
    (hhome : (map.entries (home map.capacity key)).occupied = false) :
    capabilityMapInsert 1 granted map key value = some (true, { map with
      entries := Function.update map.entries (home map.capacity key) ⟨key, value, true, false⟩
      size := map.size + 1 }) := by
  have hfind : findInsert map.entries map.capacity key 1 (home map.capacity key) none
      = some (.take (home map.capacity key)) := findInsert_unoccupied hhome
  rw [capabilityMapInsert, hneed, if_neg (by simp), insertEntry]
  simp only
  rw [← home, hfind]
  rfl

theorem delete_at_home
    (hlive : view map.entries (home map.capacity key) = .live key value) :
    capabilityMapDelete 1 map key = some (true, { map with
      entries := Function.update map.entries (home map.capacity key)
        { map.entries (home map.capacity key) with tombstone := true, value := 0 }
      size := map.size - 1 }) := by
  obtain ⟨hocc, hmatch⟩ := live_matches hlive
  have hfind : findKey map.entries map.capacity key 1 (home map.capacity key)
      = some (some (home map.capacity key)) := by
    simp only [findKey, hocc, hmatch, if_true]
  rw [capabilityMapDelete]
  simp only
  rw [← home, hfind]
  rfl

def emptyMap : CapabilityMap :=
  { entries := fun _ => clearedEntry, capacity := initialCapacity, size := 0, blockCount := 1 }

theorem init_emptyMap : capabilityMapInit true true = some emptyMap := rfl

def isLive (map : CapabilityMap) (i : Nat) : Bool :=
  (map.entries i).occupied && !(map.entries i).tombstone

/-- While an entry stays unoccupied the map refines the finite map its history tells. -/
theorem capability_map_refines_map (s : State) (h : Reachable roomySystem s) (key : BitVec 64) :
    (∃ turns, capabilityMapLookup turns s.map key
      = some ((lastInserted s.history key).getD 0)) ∧
    (∀ turns result, capabilityMapLookup turns s.map key = some result →
      result = (lastInserted s.history key).getD 0) ∧
    (∀ i < s.map.capacity, ∀ j < s.map.capacity, isLive s.map i → isLive s.map j →
      (s.map.entries i).key = (s.map.entries j).key → i = j) ∧
    s.map.size = ((Finset.range s.map.capacity).filter fun i => isLive s.map i).card := by
  obtain ⟨hinv, hfree⟩ := roomy_inv h
  have hlookup := hinv.lookup_settles hfree key
  refine ⟨hlookup.returns, hlookup.only, ?_, ?_⟩
  · intro i hi j hj hlive_i hlive_j hkey
    simp only [isLive, Bool.and_eq_true, Bool.not_eq_true'] at hlive_i hlive_j
    exact hinv.sound.unique i hi j hj _ _ _ (view_live.mpr ⟨hlive_i.1, hlive_i.2, rfl, rfl⟩)
      (view_live.mpr ⟨hlive_j.1, hlive_j.2, hkey.symm, rfl⟩)
  · rw [hinv.size, liveCount]
    refine congrArg Finset.card (Finset.filter_congr fun i _ => ?_)
    rw [view_isLive, isLive]

/-- One key inserted into a new map. -/
theorem capability_map_refines_map_one_key :
    ∃ s turns, Reachable roomySystem s ∧ capabilityMapLookup turns s.map 0 = some 9 ∧
      s.map.size = 1 := by
  have hstart : Reachable roomySystem ⟨emptyMap, []⟩ :=
    .start ⟨⟨⟨true, true, init_emptyMap⟩, rfl⟩, ⟨0, by decide, rfl⟩⟩
  have hinsert : Step ⟨emptyMap, []⟩ (.insert 0 9 true) _ :=
    Step.insert 1 (insert_at_home (by decide) rfl)
  have hfree : HasUnoccupied emptyMap := ⟨0, by decide, rfl⟩
  have hone : Reachable roomySystem _ :=
    hstart.next ⟨hinsert, hfree.write (Or.inr (by decide +kernel))⟩
  obtain ⟨turns, hlookup⟩ := (capability_map_refines_map _ hone 0).1
  exact ⟨_, turns, hone, hlookup.trans (by decide), rfl⟩

/-! ## Every call returns while an unoccupied entry is left -/

/-- An insertion that neither resizes nor finds its key live nor meets a tombstone takes an entry
that was never occupied, and such an entry has to be left behind. -/
def leavesUnoccupied (s : State) : Call → Prop
  | .insert key _ _ =>
    resizeNeeded s.map = true ∨
    (∃ i < s.map.capacity, isLive s.map i ∧ (s.map.entries i).key = key) ∨
    MeetsTombstone s.map key ∨ 2 ≤ (unoccupied s.map).card
  | _ => True

theorem live_of_isLive {i : Nat} (h : Inv map m) (hi : i < map.capacity) (hlive : isLive map i)
    (hkey : (map.entries i).key = key) : m key ≠ none := by
  simp only [isLive, Bool.and_eq_true, Bool.not_eq_true'] at hlive
  have hview : view map.entries i = .live key (map.entries i).value :=
    view_live.mpr ⟨hlive.1, hlive.2, hkey, rfl⟩
  rw [(h.represents key _).mpr ⟨i, hi, hview⟩]
  simp

theorem step_unoccupied {s s' : State} {call : Call} (h : Reachable roomySystem s)
    (hguard : leavesUnoccupied s call) (hstep : Step s call s') : HasUnoccupied s'.map := by
  obtain ⟨hinv, hfree⟩ := roomy_inv h
  cases hstep with
  | @insert key value granted ok map turns returns =>
    obtain ⟨ok', map', hsettles, -, hfree'⟩ := hinv.insert_settles hfree key value granted
    cases hsettles.only turns _ returns
    refine hfree' (hguard.imp_right fun hor => hor.imp_left ?_)
    rintro ⟨i, hi, hlive, hkey⟩
    exact live_of_isLive hinv hi hlive hkey
  | @delete key ok map turns returns =>
    obtain ⟨map', hsettles, -, hfree'⟩ := hinv.delete_settles hfree key
    cases hsettles.only turns _ returns
    exact hfree'
  | lookup turns returns => exact hfree
  | @cleanup granted ok map turns returns =>
    obtain ⟨ok', map', hsettles, -, hfree'⟩ := hinv.cleanup_settles hfree granted
    cases hsettles.only turns _ returns
    exact hfree'

/-- In the runs whose insertions leave an unoccupied entry behind, every state has one, and every
call returns there. -/
theorem capability_map_calls_return (s : State)
    (h : Reachable (system.restrict leavesUnoccupied) s) :
    (∃ i < s.map.capacity, (s.map.entries i).occupied = false) ∧
    ∀ key value granted,
      (∃ turns r, capabilityMapInsert turns granted s.map key value = some r) ∧
      (∃ turns r, capabilityMapDelete turns s.map key = some r) ∧
      (∃ turns r, capabilityMapLookup turns s.map key = some r) ∧
      (∃ turns r, capabilityMapCleanup turns granted s.map = some r) := by
  have hroomy : Reachable roomySystem s := by
    refine Reachable.within_of_restrict ?_ ?_ h
    · rintro s ⟨⟨lockSlab, granted, hinit⟩, -⟩
      exact (init_inv hinit).2
    · intro s call s' hs hguard hstep
      exact step_unoccupied hs hguard hstep
  obtain ⟨hinv, hfree⟩ := roomy_inv hroomy
  refine ⟨hfree, fun key value granted => ⟨?_, ?_, ?_, ?_⟩⟩
  · obtain ⟨ok, map', hsettles, -⟩ := hinv.insert_settles hfree key value granted
    obtain ⟨turns, hreturns⟩ := hsettles.returns
    exact ⟨turns, _, hreturns⟩
  · obtain ⟨map', hsettles, -⟩ := hinv.delete_settles hfree key
    obtain ⟨turns, hreturns⟩ := hsettles.returns
    exact ⟨turns, _, hreturns⟩
  · obtain ⟨turns, hreturns⟩ := (hinv.lookup_settles hfree key).returns
    exact ⟨turns, _, hreturns⟩
  · obtain ⟨ok, map', hsettles, -⟩ := hinv.cleanup_settles hfree granted
    obtain ⟨turns, hreturns⟩ := hsettles.returns
    exact ⟨turns, _, hreturns⟩

theorem capability_map_calls_return_new : ∃ s, Reachable (system.restrict leavesUnoccupied) s ∧
    s.history.length = 1 ∧ ∃ i < s.map.capacity, (s.map.entries i).occupied = false := by
  have hstart : Reachable (system.restrict leavesUnoccupied) ⟨emptyMap, []⟩ :=
    .start ⟨⟨true, true, init_emptyMap⟩, rfl⟩
  have hinsert : Step ⟨emptyMap, []⟩ (.insert 0 9 true) _ :=
    Step.insert 1 (insert_at_home (by decide) rfl)
  have htwo : 2 ≤ (unoccupied emptyMap).card := by decide +kernel
  have hone : Reachable (system.restrict leavesUnoccupied) _ :=
    hstart.next (a := .insert 0 9 true) ⟨Or.inr (Or.inr (Or.inr htwo)), hinsert⟩
  exact ⟨_, hone, rfl, (capability_map_calls_return _ hone).1⟩

/-! ## A map full of tombstones -/

/-- Nothing live, and a tombstone at each of the homes in `done`. -/
structure Graveyard (map : CapabilityMap) (done : List Nat) : Prop where
  capacity : map.capacity = initialCapacity
  size : map.size = 0
  dead : ∀ i ∈ done, view map.entries i = .dead
  free : ∀ i, i ∉ done → (map.entries i).occupied = false

/-- A key inserted and deleted leaves one more tombstone. -/
theorem Graveyard.bury {s : State} {done : List Nat} (hs : Reachable system s)
    (h : Graveyard s.map done) (hnew : home initialCapacity key ∉ done) :
    ∃ s', Reachable system s' ∧ Graveyard s'.map (home initialCapacity key :: done) := by
  have hneed : resizeNeeded s.map = false := by
    rw [resizeNeeded, h.size, h.capacity]
    rfl
  have hhome : (s.map.entries (home s.map.capacity key)).occupied = false := by
    rw [h.capacity]
    exact h.free _ hnew
  have hinsert : Step s (.insert key 0 true) _ := Step.insert 1 (insert_at_home hneed hhome)
  obtain ⟨s₁, hs₁, hmap₁⟩ : ∃ s₁, Reachable system s₁ ∧ s₁.map = { s.map with
      entries := Function.update s.map.entries (home s.map.capacity key) ⟨key, 0, true, false⟩
      size := s.map.size + 1 } := ⟨_, hs.next hinsert, rfl⟩
  rw [h.capacity] at hmap₁
  have hcap₁ : s₁.map.capacity = initialCapacity := by rw [hmap₁, h.capacity]
  have hentries₁ : view s₁.map.entries
      = Function.update (view s.map.entries) (home initialCapacity key) (.live key 0) := by
    rw [hmap₁, view_update]
    rfl
  have hlive : view s₁.map.entries (home s₁.map.capacity key) = .live key 0 := by
    rw [hcap₁, hentries₁, Function.update_self]
  have hdelete : Step s₁ (.delete key) _ := Step.delete 1 (delete_at_home hlive)
  rw [hcap₁] at hdelete hlive
  refine ⟨_, hs₁.next hdelete, ⟨rfl, ?_, fun i hi => ?_, fun i hi => ?_⟩⟩
  · simp only [hmap₁, h.size]
  · by_cases hik : i = home initialCapacity key
    · rw [hik, view_update, Function.update_self]
      simp [slotOf, (view_live.mp hlive).1]
    · rw [view_update, Function.update_of_ne hik, hentries₁, Function.update_of_ne hik]
      exact h.dead i ((List.mem_cons.mp hi).resolve_left hik)
  · obtain ⟨hik, hi⟩ := not_or.mp (mt List.mem_cons.mpr hi)
    refine view_free.mp ?_
    rw [view_update, Function.update_of_ne hik, hentries₁, Function.update_of_ne hik]
    exact view_free.mpr (h.free i hi)

/-- Keys with different homes are buried one after another. -/
theorem graveyard_of_keys (keys : List (BitVec 64))
    (hdistinct : (keys.map (home initialCapacity)).Nodup) :
    ∃ s, Reachable system s ∧ Graveyard s.map (keys.map (home initialCapacity)) := by
  induction keys with
  | nil =>
    exact ⟨⟨emptyMap, []⟩, .start ⟨⟨true, true, init_emptyMap⟩, rfl⟩,
      ⟨rfl, rfl, by simp, fun _ _ => rfl⟩⟩
  | cons key keys ih =>
    obtain ⟨hnew, hrest⟩ := List.nodup_cons.mp hdistinct
    obtain ⟨s, hs, hgrave⟩ := ih hrest
    exact hgrave.bury hs hnew

/-- With every entry occupied and none live a search goes round forever. -/
theorem findKey_endless {entries : Nat → CapabilityMapEntry}
    (hdead : ∀ i < initialCapacity, view entries i = .dead) (turns i : Nat)
    (hi : i < initialCapacity) : findKey entries initialCapacity key turns i = none := by
  induction turns generalizing i with
  | zero => rfl
  | succ turns ih =>
    obtain ⟨hocc, htomb⟩ := view_dead.mp (hdead i hi)
    rw [findKey, if_pos hocc, htomb]
    refine ih _ ?_
    have hnext : (i + 1) &&& (initialCapacity - 1) = (i + 1) % initialCapacity :=
      mask_eq_mod (e := 6) rfl (i + 1)
    rw [hnext]
    exact Nat.mod_lt _ (by decide)

/-- One key for each of the 64 homes of a new map. -/
def coveringKeys : List (BitVec 64) :=
  [0, 45, 77, 152, 11, 13, 71, 8, 272, 96, 82, 73, 42, 10, 3, 33, 113, 70, 28, 41, 124, 9, 61, 72,
    209, 19, 59, 44, 14, 7, 199, 29, 85, 189, 81, 66, 56, 350, 20, 2, 123, 31, 89, 69, 1, 15, 26,
    294, 30, 49, 172, 6, 18, 4, 17, 22, 201, 40, 34, 166, 240, 32, 64, 165]

theorem coveringKeys_homes : coveringKeys.map (home initialCapacity) = List.range 64 := by
  decide +kernel

/-- Insert and delete one key for each home: every entry is occupied, the map is empty, and a
lookup never returns. -/
theorem capability_map_lookup_endless : ∃ s, Reachable system s ∧
    (∀ i < s.map.capacity, (s.map.entries i).occupied = true) ∧ s.map.size = 0 ∧
    ∀ key turns, capabilityMapLookup turns s.map key = none := by
  obtain ⟨s, hs, hgrave⟩ := graveyard_of_keys coveringKeys
    (by rw [coveringKeys_homes]; exact List.nodup_range)
  rw [coveringKeys_homes] at hgrave
  have hdead : ∀ i < initialCapacity, view s.map.entries i = .dead :=
    fun i hi => hgrave.dead i (List.mem_range.mpr hi)
  refine ⟨s, hs, fun i hi => ?_, hgrave.size, fun key turns => ?_⟩
  · rw [hgrave.capacity] at hi
    exact (view_dead.mp (hdead i hi)).1
  · have hendless : findKey s.map.entries initialCapacity key turns (home initialCapacity key)
        = none := findKey_endless hdead turns _ (home_lt (e := 6) rfl key)
    simp only [capabilityMapLookup, hgrave.capacity]
    rw [home] at hendless
    rw [hendless]
    rfl

end CapabilityMaps
