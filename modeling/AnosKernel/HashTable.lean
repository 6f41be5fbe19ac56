import AnosKernel.FixedBlocks
import AnosKernel.Lib.Probing
import AnosKernel.Lib.Runs

/-!
# The general hash table

`kernel/structs/hash.c`: open addressing with linear probing. An entry with key zero is empty.
A table doubles its pages when one more entry would pass three quarters of its capacity, and a
removal takes the entries of the cluster behind the freed slot out and puts them back one by
one. The entries are what the memory behind the `entries` pointer holds, indexed as the code
indexes it; the lock serialises the calls and is not represented.
-/

namespace HashTables

open FixedBlocks Probing Runs

structure HashEntry where
  key : BitVec 64
  data : BitVec 64
  deriving DecidableEq, Repr

structure HashTable where
  capacity : Nat
  size : Nat
  entries : Nat → HashEntry

def emptyEntry : HashEntry := ⟨0, 0⟩

/-- `VM_PAGE_SIZE / sizeof(HashEntry)` -/
def entriesPerPage : Nat := 4096 / 16

/-- The page count is cut to 32 bits for the allocator and not for the capacity. Where the
blocks are fewer than the capacity asks for, the loop that clears the entries runs off them,
and no table is returned. -/
def hashTableCreate (slab blocks lockSlab : Bool) (numPages : BitVec 64) : Option HashTable :=
  if slab && fbaAllocBlocks blocks (numPages.setWidth 32) && lockSlab then
    let capacity := (numPages * BitVec.ofNat 64 entriesPerPage).toNat
    if capacity ≤ (numPages.setWidth 32).toNat * entriesPerPage then
      some { capacity := capacity, size := 0, entries := fun _ => emptyEntry }
    else none
  else none

/-- The inner loop of `hash_table_resize` and of the cluster rehash: the first empty position. -/
def findEmpty (entries : Nat → HashEntry) (capacity index : Nat) : Nat → Nat → Option Nat
  | 0, _ => none
  | turns + 1, i =>
    let pos := (index + i) % capacity
    if (entries pos).key = 0 then some pos else findEmpty entries capacity index turns (i + 1)

/-- The new array after the first `i` entries of the old one. -/
def rehashEntries (old : Nat → HashEntry) (newCapacity : Nat) : Nat → Nat → HashEntry
  | 0 => fun _ => emptyEntry
  | i + 1 =>
    let newEntries := rehashEntries old newCapacity i
    if (old i).key ≠ 0 then
      match findEmpty newEntries newCapacity ((old i).key.toNat % newCapacity) newCapacity 0 with
      | some pos => Function.update newEntries pos (old i)
      | none => newEntries
    else newEntries

def hashTableResize (granted : Bool) (ht : HashTable) : Option HashTable :=
  let currentPages := ht.capacity / entriesPerPage
  let newPages := currentPages * 2
  let newCapacity := newPages * entriesPerPage
  if fbaAllocBlocks granted (BitVec.ofNat 32 newPages) then
    some { ht with
      entries := rehashEntries ht.entries newCapacity ht.capacity
      capacity := newCapacity }
  else none

/-- `(ht->size + 1) > (size_t)(ht->capacity * LOAD_FACTOR)`; the product is exact. -/
def resizeNeeded (ht : HashTable) : Bool := decide (ht.size + 1 > ht.capacity * 3 / 4)

/-- The probe of `hash_table_insert`: the first empty position, unless the key is met before. -/
def insertionPoint (entries : Nat → HashEntry) (capacity : Nat) (key : BitVec 64) (index : Nat) :
    Nat → Nat → Option Nat
  | 0, _ => none
  | turns + 1, i =>
    let pos := (index + i) % capacity
    if (entries pos).key = key then none
    else if (entries pos).key = 0 then some pos
    else insertionPoint entries capacity key index turns (i + 1)

def insertEntry (ht : HashTable) (key value : BitVec 64) : Bool × HashTable :=
  match insertionPoint ht.entries ht.capacity key (key.toNat % ht.capacity) ht.capacity 0 with
  | some pos =>
    (true, { ht with entries := Function.update ht.entries pos ⟨key, value⟩, size := ht.size + 1 })
  | none => (false, ht)

def hashTableInsert (granted : Bool) (ht : HashTable) (key value : BitVec 64) :
    Bool × HashTable :=
  if resizeNeeded ht then
    match hashTableResize granted ht with
    | some resized => insertEntry resized key value
    | none => (false, ht)
  else insertEntry ht key value

/-- The probe of `hash_table_lookup` and `hash_table_remove`. -/
def findKey (entries : Nat → HashEntry) (capacity : Nat) (key : BitVec 64) (index : Nat) :
    Nat → Nat → Option Nat
  | 0, _ => none
  | turns + 1, i =>
    let pos := (index + i) % capacity
    if (entries pos).key = 0 then none
    else if (entries pos).key = key then some pos
    else findKey entries capacity key index turns (i + 1)

def hashTableLookup (ht : HashTable) (key : BitVec 64) : BitVec 64 :=
  match findKey ht.entries ht.capacity key (key.toNat % ht.capacity) ht.capacity 0 with
  | some pos => (ht.entries pos).data
  | none => 0

/-- The body of the cluster rehash: the entry at `j` is taken out and put back. -/
def rehashEntry (ht : HashTable) (j : Nat) : HashTable :=
  let entry := ht.entries j
  let taken := Function.update ht.entries j emptyEntry
  match findEmpty taken ht.capacity (entry.key.toNat % ht.capacity) ht.capacity 0 with
  | some newPos => { ht with
      entries := Function.update taken newPos entry
      size := ht.size - 1 + 1 }
  | none => { ht with entries := taken, size := ht.size - 1 }

/-- The `while` loop of the cluster rehash. `none` when it has not ended after `turns` turns. -/
def rehashCluster : (turns : Nat) → HashTable → (j : Nat) → Option HashTable
  | 0, _, _ => none
  | turns + 1, ht, j =>
    if (ht.entries j).key ≠ 0 then
      rehashCluster turns (rehashEntry ht j) ((j + 1) % ht.capacity)
    else some ht

/-- `none` when the cluster rehash has not ended after as many turns as there are entries. -/
def hashTableRemove (ht : HashTable) (key : BitVec 64) : Option (BitVec 64 × HashTable) :=
  match findKey ht.entries ht.capacity key (key.toNat % ht.capacity) ht.capacity 0 with
  | some pos => do
    let freed := { ht with
      entries := Function.update ht.entries pos emptyEntry
      size := ht.size - 1 }
    let mended ← rehashCluster ht.capacity freed ((pos + 1) % ht.capacity)
    return ((ht.entries pos).data, mended)
  | none => some (0, ht)

/-! ## The entries as a ring of slots -/

def slotOf (entry : HashEntry) : Slot (BitVec 64) (BitVec 64) :=
  if entry.key = 0 then .free else .live entry.key entry.data

def view (entries : Nat → HashEntry) (pos : Nat) : Slot (BitVec 64) (BitVec 64) :=
  slotOf (entries pos)

def home (capacity : Nat) (key : BitVec 64) : Nat := key.toNat % capacity

theorem view_update (entries : Nat → HashEntry) (pos : Nat) (entry : HashEntry) :
    view (Function.update entries pos entry) = Function.update (view entries) pos (slotOf entry) :=
  Function.comp_update slotOf entries pos entry

theorem view_free {entries : Nat → HashEntry} {pos : Nat} :
    view entries pos = .free ↔ (entries pos).key = 0 := by
  unfold view slotOf
  split <;> simp_all

theorem view_live {entries : Nat → HashEntry} {pos : Nat} {key value : BitVec 64} :
    view entries pos = .live key value ↔ key ≠ 0 ∧ entries pos = ⟨key, value⟩ := by
  unfold view slotOf
  constructor
  · intro h
    split at h
    · exact absurd h (by simp)
    · rename_i hne
      injection h with hk hv
      exact ⟨hk ▸ hne, by rw [← hk, ← hv]⟩
  · rintro ⟨hne, heq⟩
    rw [heq, if_neg hne]

theorem view_not_dead {entries : Nat → HashEntry} {pos : Nat} : view entries pos ≠ .dead := by
  unfold view slotOf
  split <;> simp

theorem view_of_key {entries : Nat → HashEntry} {pos : Nat} (h : (entries pos).key ≠ 0) :
    view entries pos = .live (entries pos).key (entries pos).data := by
  rw [view, slotOf, if_neg h]

theorem slotOf_key {key value : BitVec 64} (h : key ≠ 0) :
    slotOf ⟨key, value⟩ = .live key value := if_neg h

theorem home_lt {capacity : Nat} (h : 0 < capacity) (key : BitVec 64) :
    home capacity key < capacity := Nat.mod_lt _ h

/-! ## The probe loops end at the first stop -/

section Probes
variable {entries : Nat → HashEntry} {capacity index p : Nat} {key : BitVec 64}

/-- A loop of at most `capacity` turns that goes on at every slot before the first stop returns
what its body returns there. -/
theorem probe_result {β : Type} {f : Nat → Nat → β} {stop : Nat → Prop} {r : β}
    (hindex : index < capacity) (hf : First capacity stop index p)
    (go : ∀ turns i, ¬ stop ((index + i) % capacity) → f (turns + 1) i = f turns (i + 1))
    (done : ∀ turns i, (index + i) % capacity = p → f (turns + 1) i = r) :
    f capacity 0 = r := by
  have hd := dist_lt hindex hf.inside
  have hadvance := loop_advance (f := f) (d := dist capacity index p)
    (fun i hi turns => go turns i (hf.turn hindex hi)) (capacity - dist capacity index p - 1 + 1)
  rw [show capacity - dist capacity index p - 1 + 1 + dist capacity index p = capacity by omega]
    at hadvance
  rw [hadvance]
  exact done _ _ (at_dist hindex hf.inside)

theorem findEmpty_first (hindex : index < capacity)
    (hf : First capacity (fun q => view entries q = .free) index p) :
    findEmpty entries capacity index capacity 0 = some p := by
  refine probe_result hindex hf (fun turns i hgo => ?_) (fun turns i hpos => ?_)
  · rw [findEmpty, if_neg (mt view_free.mpr hgo)]
  · rw [findEmpty, hpos, if_pos (view_free.mp hf.stops)]

/-- Where the search of a key ends. -/
def stopsAt (entries : Nat → HashEntry) (key : BitVec 64) (q : Nat) : Prop :=
  view entries q = .free ∨ ∃ value, view entries q = .live key value

theorem not_stopsAt (hkey : key ≠ 0) {q : Nat} (h : ¬ stopsAt entries key q) :
    (entries q).key ≠ 0 ∧ (entries q).key ≠ key := by
  refine ⟨fun h0 => h (Or.inl (view_free.mpr h0)), fun hk => h (Or.inr ⟨(entries q).data, ?_⟩)⟩
  exact view_live.mpr ⟨hkey, by rw [← hk]⟩

theorem findKey_first (hkey : key ≠ 0) (hindex : index < capacity)
    (hf : First capacity (stopsAt entries key) index p) :
    findKey entries capacity key index capacity 0
      = if (entries p).key = 0 then none else some p := by
  refine probe_result hindex hf (fun turns i hgo => ?_) (fun turns i hpos => ?_)
  · obtain ⟨hne, hother⟩ := not_stopsAt hkey hgo
    rw [findKey, if_neg hne, if_neg hother]
  · rw [findKey, hpos]
    by_cases h0 : (entries p).key = 0
    · rw [if_pos h0, if_pos h0]
    · obtain ⟨value, hlive⟩ := hf.stops.resolve_left (mt view_free.mp h0)
      rw [if_neg h0, if_neg h0, if_pos (by rw [(view_live.mp hlive).2])]

theorem insertionPoint_first (hkey : key ≠ 0) (hindex : index < capacity)
    (hf : First capacity (stopsAt entries key) index p) :
    insertionPoint entries capacity key index capacity 0
      = if (entries p).key = 0 then some p else none := by
  refine probe_result hindex hf (fun turns i hgo => ?_) (fun turns i hpos => ?_)
  · obtain ⟨hne, hother⟩ := not_stopsAt hkey hgo
    rw [insertionPoint, if_neg hother, if_neg hne]
  · rw [insertionPoint, hpos]
    by_cases h0 : (entries p).key = 0
    · rw [if_neg (by rw [h0]; exact hkey.symm), if_pos h0, if_pos h0]
    · obtain ⟨value, hlive⟩ := hf.stops.resolve_left (mt view_free.mp h0)
      rw [if_pos (by rw [(view_live.mp hlive).2]), if_neg h0]

end Probes

/-! ## What every table keeps -/

/-- The table holds exactly the map `m`, with room for one more entry left. -/
structure Inv (ht : HashTable) (m : BitVec 64 → Option (BitVec 64)) : Prop where
  pages : ∃ pages, 0 < pages ∧ pages ≤ 262144 ∧ ht.capacity = pages * entriesPerPage
  sound : Sound ht.capacity (home ht.capacity) (view ht.entries)
  represents : Represents ht.capacity (view ht.entries) m
  size : ht.size = liveCount ht.capacity (view ht.entries)
  load : ht.size ≤ ht.capacity * 3 / 4

variable {ht : HashTable} {m : BitVec 64 → Option (BitVec 64)} {key value : BitVec 64}

theorem Inv.capacity_pos (h : Inv ht m) : 0 < ht.capacity := by
  obtain ⟨pages, hpos, -, hcap⟩ := h.pages
  rw [hcap]
  exact Nat.mul_pos hpos (by decide)

theorem Inv.exists_empty (h : Inv ht m) : ∃ q < ht.capacity, view ht.entries q = .free := by
  refine exists_free (fun _ _ => view_not_dead) ?_
  have hpos := h.capacity_pos
  have hload := h.load
  rw [← h.size]
  omega

/-- The search of a key ends, at the entry of the key or at an empty one. -/
theorem Inv.search (h : Inv ht m) (key : BitVec 64) :
    ∃ p, First ht.capacity (stopsAt ht.entries key) (home ht.capacity key) p ∧
      ((view ht.entries p = .free ∧ m key = none) ∨
        ∃ value, view ht.entries p = .live key value ∧ m key = some value) := by
  have hhome := home_lt h.capacity_pos key
  obtain ⟨q, hq, hfree⟩ := h.exists_empty
  obtain ⟨p, hp⟩ := exists_first (stopsAt ht.entries key) hhome ⟨q, hq, Or.inl hfree⟩
  exact ⟨p, hp, h.sound.search_represents h.represents hhome hp⟩

theorem Inv.lookup (h : Inv ht m) (hkey : key ≠ 0) :
    hashTableLookup ht key = (m key).getD 0 := by
  obtain ⟨p, hp, hcase⟩ := h.search key
  have hfind := findKey_first hkey (home_lt h.capacity_pos key) hp
  rw [hashTableLookup, ← home, hfind]
  rcases hcase with ⟨hfree, hnone⟩ | ⟨value, hlive, hsome⟩
  · rw [if_pos (view_free.mp hfree), hnone]
    rfl
  · obtain ⟨-, hentry⟩ := view_live.mp hlive
    rw [hentry, if_neg hkey, hsome]
    exact congrArg HashEntry.data hentry

/-! ## Insertion -/

theorem insertEntry_present (h : Inv ht m) (hkey : key ≠ 0) (hthere : m key ≠ none) :
    insertEntry ht key value = (false, ht) := by
  obtain ⟨p, hp, ⟨-, hnone⟩ | ⟨old, hlive, -⟩⟩ := h.search key
  · exact absurd hnone hthere
  · have hpoint := insertionPoint_first hkey (home_lt h.capacity_pos key) hp
    rw [(view_live.mp hlive).2, if_neg hkey] at hpoint
    rw [insertEntry, ← home, hpoint]

theorem insertEntry_absent (value : BitVec 64) (h : Inv ht m) (hkey : key ≠ 0) (hnone : m key = none)
    (room : ht.size + 1 ≤ ht.capacity * 3 / 4) :
    ∃ ht', insertEntry ht key value = (true, ht') ∧
      Inv ht' (Function.update m key (some value)) := by
  obtain ⟨p, hp, ⟨hfree, -⟩ | ⟨old, -, hsome⟩⟩ := h.search key
  · have hpoint := insertionPoint_first hkey (home_lt h.capacity_pos key) hp
    rw [view_free.mp hfree, if_pos rfl] at hpoint
    have absent : ∀ q < ht.capacity, q ≠ p → ∀ y, view ht.entries q ≠ .live key y := by
      intro q hq _ y hy
      have hsome := (h.represents key y).mpr ⟨q, hq, hy⟩
      rw [hnone] at hsome
      exact absurd hsome (by simp)
    have path : NoFree ht.capacity (view ht.entries) (home ht.capacity key) p :=
      fun q hq hlt hq_free => hp.before q hq hlt (Or.inl hq_free)
    refine ⟨{ ht with
      entries := Function.update ht.entries p ⟨key, value⟩
      size := ht.size + 1 }, by rw [insertEntry, ← home, hpoint], ⟨h.pages, ?_, ?_, ?_, room⟩⟩
    · rw [view_update, slotOf_key hkey]
      exact h.sound.write path absent
    · rw [view_update, slotOf_key hkey]
      exact h.represents.write hp.inside absent
        (fun k' y hy => absurd (hfree.symm.trans hy) (by simp))
    · rw [view_update, slotOf_key hkey, liveCount_gain hp.inside (by rw [hfree]; rfl), ← h.size]
  · rw [hnone] at hsome
    exact absurd hsome (by simp)

/-- The rebuilt array holds what the part of the old one seen so far held. -/
theorem rehashEntries_moved {old : Nat → HashEntry} {oldCapacity : Nat} (newCapacity : Nat)
    (hu : Unique oldCapacity (view old)) (fits : liveCount oldCapacity (view old) < newCapacity)
    {i : Nat} (hi : i ≤ oldCapacity) :
    Moved i (view old) newCapacity (home newCapacity)
      (view (rehashEntries old newCapacity i)) := by
  induction i with
  | zero => exact Moved.start
  | succ i ih =>
    have hmoved := ih (by omega)
    by_cases h0 : (old i).key = 0
    · rw [rehashEntries, if_neg (by simpa using h0)]
      exact hmoved.skip (by rw [view_free.mpr h0]; rfl)
    · have hhome : home newCapacity (old i).key < newCapacity := home_lt (by omega) _
      obtain ⟨p, hp⟩ := exists_first _ hhome (hmoved.room (i := i) (by omega) fits)
      rw [rehashEntries, if_pos h0, ← home, findEmpty_first hhome hp]
      simp only
      rw [view_update, slotOf, if_neg h0]
      exact hmoved.place hu hi (view_of_key h0) hp

/-- A resize that is granted keeps the map and leaves room for the next entry. -/
theorem Inv.resize {granted : Bool} {ht' : HashTable} (h : Inv ht m)
    (hr : hashTableResize granted ht = some ht') :
    Inv ht' m ∧ ht'.size + 1 ≤ ht'.capacity * 3 / 4 := by
  unfold hashTableResize at hr
  simp only at hr
  split at hr
  · rename_i hgrant
    obtain ⟨pages, hpos, hle, hcap⟩ := h.pages
    have hcurrent : ht.capacity / entriesPerPage = pages := by
      rw [hcap]
      exact Nat.mul_div_cancel _ (by decide)
    rw [hcurrent] at hr hgrant
    have hcount := fbaAllocBlocks_count hgrant
    rw [BitVec.toNat_ofNat, Nat.mod_eq_of_lt (by omega)] at hcount
    have hdouble : pages * 2 * entriesPerPage = 2 * ht.capacity := by
      rw [hcap, Nat.mul_right_comm, Nat.mul_comm]
    have hcapacity := h.capacity_pos
    have hload := h.load
    have hsize := h.size
    have hmoved := rehashEntries_moved (pages * 2 * entriesPerPage)
      h.sound.unique (by omega) (le_refl ht.capacity)
    cases hr
    refine ⟨⟨⟨pages * 2, by omega, hcount.2, rfl⟩, hmoved.sound, hmoved.represents h.represents,
      ?_, ?_⟩, ?_⟩
    · exact hsize.trans hmoved.count.symm
    · show ht.size ≤ pages * 2 * entriesPerPage * 3 / 4
      omega
    · show ht.size + 1 ≤ pages * 2 * entriesPerPage * 3 / 4
      omega
  · exact absurd hr (by simp)

theorem insert_present (granted : Bool) (value : BitVec 64) (h : Inv ht m) (hkey : key ≠ 0)
    (hthere : m key ≠ none) :
    (hashTableInsert granted ht key value).1 = false ∧
      Inv (hashTableInsert granted ht key value).2 m := by
  unfold hashTableInsert
  split
  · split
    · rename_i ht' hr
      obtain ⟨h', -⟩ := h.resize hr
      rw [insertEntry_present h' hkey hthere]
      exact ⟨rfl, h'⟩
    · exact ⟨rfl, h⟩
  · rw [insertEntry_present h hkey hthere]
    exact ⟨rfl, h⟩

theorem insert_absent {granted : Bool} (value : BitVec 64) (h : Inv ht m) (hkey : key ≠ 0)
    (hnone : m key = none)
    (answered : resizeNeeded ht = true → hashTableResize granted ht ≠ none) :
    (hashTableInsert granted ht key value).1 = true ∧
      Inv (hashTableInsert granted ht key value).2 (Function.update m key (some value)) := by
  unfold hashTableInsert
  split
  · rename_i hneed
    split
    · rename_i ht' hr
      obtain ⟨h', hroom⟩ := h.resize hr
      obtain ⟨ht'', heq, hinv⟩ := insertEntry_absent value h' hkey hnone hroom
      rw [heq]
      exact ⟨rfl, hinv⟩
    · rename_i hr
      exact absurd hr (answered hneed)
  · rename_i hneed
    have hroom : ht.size + 1 ≤ ht.capacity * 3 / 4 := by
      simpa [resizeNeeded] using hneed
    obtain ⟨ht', heq, hinv⟩ := insertEntry_absent value h hkey hnone hroom
    rw [heq]
    exact ⟨rfl, hinv⟩

theorem insert_refused {granted : Bool} (hneed : resizeNeeded ht = true)
    (hr : hashTableResize granted ht = none) :
    hashTableInsert granted ht key value = (false, ht) := by
  rw [hashTableInsert, if_pos hneed, hr]

theorem insertEntry_capacity (ht : HashTable) (key value : BitVec 64) :
    (insertEntry ht key value).2.capacity = ht.capacity := by
  rw [insertEntry]
  split <;> rfl

theorem insertEntry_size {ht' : HashTable} (h : insertEntry ht key value = (true, ht')) :
    ht'.size = ht.size + 1 := by
  rw [insertEntry] at h
  split at h
  · rw [← (Prod.mk.inj h).2]
  · exact absurd (congrArg Prod.fst h) (by simp)

/-- Where the keys are numbers counted up from one, the next key goes in. -/
theorem insert_next (value : BitVec 64) (inv : Inv ht m)
    (absent : ∀ key : BitVec 64, ht.size < key.toNat → m key = none)
    (room : ht.size + 1 ≤ ht.capacity * 3 / 4) :
    (BitVec.ofNat 64 (ht.size + 1)).toNat = ht.size + 1 ∧
    ∃ ht', insertEntry ht (BitVec.ofNat 64 (ht.size + 1)) value = (true, ht') ∧
      ht'.size = ht.size + 1 ∧ ht'.capacity = ht.capacity ∧
      ∃ m', Inv ht' m' ∧ ∀ key : BitVec 64, ht'.size < key.toNat → m' key = none := by
  obtain ⟨pages, -, hpages, hcapacity⟩ := inv.pages
  have hperPage : entriesPerPage = 256 := rfl
  rw [hperPage] at hcapacity
  have hnat : (BitVec.ofNat 64 (ht.size + 1)).toNat = ht.size + 1 := by
    rw [BitVec.toNat_ofNat]
    omega
  have hkey : BitVec.ofNat 64 (ht.size + 1) ≠ 0 := by
    intro hzero
    rw [hzero] at hnat
    exact absurd hnat (by simp)
  obtain ⟨ht', hinsert, hinv⟩ := insertEntry_absent value inv hkey (absent _ (by omega)) room
  have hsize := insertEntry_size hinsert
  have hkept := insertEntry_capacity ht (BitVec.ofNat 64 (ht.size + 1)) value
  rw [hinsert] at hkept
  refine ⟨hnat, ht', hinsert, hsize, hkept, _, hinv, fun key hlt => ?_⟩
  rw [Function.update_of_ne]
  · exact absent key (by omega)
  · rintro rfl
    omega

/-! ## Removal -/

/-- A table of which only the cluster from distance `c` on is still to be mended. -/
structure Mended (ht : HashTable) (m : BitVec 64 → Option (BitVec 64)) (base c l : Nat) :
    Prop where
  mending : Mending ht.capacity (home ht.capacity) (view ht.entries) base c l
  represents : Represents ht.capacity (view ht.entries) m
  size : ht.size = liveCount ht.capacity (view ht.entries)

@[simp] theorem rehashEntry_capacity (ht : HashTable) (j : Nat) :
    (rehashEntry ht j).capacity = ht.capacity := by
  unfold rehashEntry
  dsimp only
  split <;> rfl

theorem Mended.rehashEntry {base c l : Nat} (h : Mended ht m base c l) (hc : c < l) :
    Mended (rehashEntry ht ((base + c) % ht.capacity)) m base (c + 1) l ∧
      (rehashEntry ht ((base + c) % ht.capacity)).size = ht.size := by
  have hshort := h.mending.short
  have hpos : 0 < ht.capacity := by omega
  have ha := Nat.mod_lt (base + c) hpos
  have ha_dist := dist_at h.mending.inside (i := c) (by omega)
  have hne : (ht.entries ((base + c) % ht.capacity)).key ≠ 0 := fun h0 =>
    h.mending.ahead _ ha (by omega) (by omega) (view_free.mpr h0)
  have hlive := view_of_key hne
  have hhome := home_lt hpos (ht.entries ((base + c) % ht.capacity)).key
  have hstep := fun p => h.mending.step (p := p) (home_lt hpos) hc hlive
  generalize (base + c) % ht.capacity = a at *
  have htaken : view (Function.update ht.entries a emptyEntry)
      = Function.update (view ht.entries) a .free := by
    rw [view_update]
    rfl
  obtain ⟨p, hp⟩ := exists_first (fun q =>
    Function.update (view ht.entries) a .free q = .free) hhome
    ⟨a, ha, Function.update_self a Slot.free (view ht.entries)⟩
  have hfind : findEmpty (Function.update ht.entries a emptyEntry) ht.capacity
      (home ht.capacity (ht.entries a).key) ht.capacity 0 = some p :=
    findEmpty_first hhome (htaken ▸ hp)
  have hput : view (Function.update (Function.update ht.entries a emptyEntry) p (ht.entries a))
      = Function.update (Function.update (view ht.entries) a .free) p
        (.live (ht.entries a).key (ht.entries a).data) := by
    rw [view_update, htaken, slotOf, if_neg hne]
  have hloss := liveCount_loss ha hlive (s := Slot.free) rfl
  have hgain := liveCount_gain (k := (ht.entries a).key) (x := (ht.entries a).data) hp.inside
    (show (Function.update (view ht.entries) a Slot.free p).isLive = false by rw [hp.stops]; rfl)
  have hsize := h.size
  have hkeep : ht.size - 1 + 1 = ht.size := by omega
  have heq : HashTables.rehashEntry ht a = { ht with
      entries := Function.update (Function.update ht.entries a emptyEntry) p (ht.entries a)
      size := ht.size } := by
    unfold HashTables.rehashEntry
    unfold home at hfind
    simp only [hfind, hkeep]
  rw [heq]
  refine ⟨⟨?_, ?_, ?_⟩, rfl⟩
  · simp only [hput]
    exact hstep p hp
  · simp only [hput]
    exact h.represents.move h.mending.unique ha hp.inside hlive hp.stops
  · simp only [hput]
    omega

/-- The rest of the cluster rehash, from the place the loop has reached. -/
theorem Mended.rehashCluster {base c l : Nat} (turns : Nat) (h : Mended ht m base c l)
    (hturns : l < turns + c) :
    ∃ ht', rehashCluster turns ht ((base + c) % ht.capacity) = some ht' ∧
      ht'.capacity = ht.capacity ∧ ht'.size = ht.size ∧ Mended ht' m base l l := by
  induction turns generalizing ht c with
  | zero =>
    have horder := h.mending.order
    omega
  | succ turns ih =>
    rw [HashTables.rehashCluster]
    by_cases hc : c = l
    · -- the end of the cluster
      subst hc
      refine ⟨ht, ?_, rfl, rfl, h⟩
      rw [if_neg (by simpa using view_free.mp h.mending.ends)]
    · have horder := h.mending.order
      have hshort := h.mending.short
      have ha_dist := dist_at h.mending.inside (i := c) (by omega)
      have hne : (ht.entries ((base + c) % ht.capacity)).key ≠ 0 := fun h0 =>
        h.mending.ahead _ (Nat.mod_lt _ (by omega)) (by omega) (by omega) (view_free.mpr h0)
      obtain ⟨hnext, hsize⟩ := h.rehashEntry (by omega)
      obtain ⟨ht', hres, hcap', hsize', hdone⟩ := ih hnext (by omega)
      rw [rehashEntry_capacity] at hres hcap'
      refine ⟨ht', ?_, hcap', hsize'.trans hsize, hdone⟩
      rw [if_pos hne, succ_mod_ring]
      exact hres

theorem remove_absent (h : Inv ht m) (hkey : key ≠ 0) (hnone : m key = none) :
    hashTableRemove ht key = some (0, ht) := by
  obtain ⟨p, hp, ⟨hfree, -⟩ | ⟨old, -, hsome⟩⟩ := h.search key
  · have hfind := findKey_first hkey (home_lt h.capacity_pos key) hp
    rw [view_free.mp hfree, if_pos rfl] at hfind
    rw [hashTableRemove, ← home, hfind]
  · rw [hnone] at hsome
    exact absurd hsome (by simp)

theorem remove_present (h : Inv ht m) (hkey : key ≠ 0) (hsome : m key = some value) :
    ∃ ht', hashTableRemove ht key = some (value, ht') ∧ Inv ht' (Function.update m key none) := by
  obtain ⟨p, hp, ⟨-, hnone⟩ | ⟨old, hlive, hold⟩⟩ := h.search key
  · rw [hsome] at hnone
    exact absurd hnone (by simp)
  · have hvalue : old = value := Option.some.inj (hold.symm.trans hsome)
    subst hvalue
    have hpos := h.capacity_pos
    have hentry := (view_live.mp hlive).2
    have hfind := findKey_first hkey (home_lt hpos key) hp
    rw [hentry, if_neg hkey] at hfind
    have hfreed : view (Function.update ht.entries p emptyEntry)
        = Function.update (view ht.entries) p .free := by
      rw [view_update]
      rfl
    obtain ⟨l, hmend⟩ := Mending.start h.sound (home_lt hpos) hp.inside hlive h.exists_empty
    have herase := h.represents.erase h.sound.unique hp.inside hlive (s := Slot.free) rfl
    have hloss := liveCount_loss hp.inside hlive (s := Slot.free) rfl
    rw [← hfreed] at hmend herase hloss
    have hsize : ht.size - 1
        = liveCount ht.capacity (view (Function.update ht.entries p emptyEntry)) := by
      rw [h.size]
      omega
    have hshort := hmend.short
    have hfreedTable : Mended { ht with
        entries := Function.update ht.entries p emptyEntry
        size := ht.size - 1 } (Function.update m key none) p 1 l := ⟨hmend, herase, hsize⟩
    obtain ⟨ht', hres, hcap', hsize', hdone⟩ :=
      hfreedTable.rehashCluster ht.capacity (Nat.lt_succ_of_lt hshort)
    refine ⟨ht', ?_, ⟨?_, hdone.mending.finish, hdone.represents, hdone.size, ?_⟩⟩
    · rw [hashTableRemove, ← home, hfind]
      simp only [hres, hentry]
      rfl
    · rw [hcap']
      exact h.pages
    · have hload := h.load
      rw [hcap', hsize']
      show ht.size - 1 ≤ ht.capacity * 3 / 4
      omega

/-! ## Any key

Zero is the key of an empty entry: it is never found, and no insertion of it succeeds. -/

theorem Inv.zero_absent (h : Inv ht m) : m 0 = none := by
  by_contra hne
  obtain ⟨value, hsome⟩ := Option.ne_none_iff_exists'.mp hne
  obtain ⟨p, -, hlive⟩ := (h.represents 0 value).mp hsome
  exact (view_live.mp hlive).1 rfl

theorem findKey_zero (entries : Nat → HashEntry) (capacity index turns i : Nat) :
    findKey entries capacity 0 index turns i = none := by
  induction turns generalizing i with
  | zero => rfl
  | succ turns ih =>
    simp only [findKey]
    split_ifs with hempty
    · rfl
    · exact ih (i + 1)

theorem insertionPoint_zero (entries : Nat → HashEntry) (capacity index turns i : Nat) :
    insertionPoint entries capacity 0 index turns i = none := by
  induction turns generalizing i with
  | zero => rfl
  | succ turns ih =>
    simp only [insertionPoint]
    split_ifs with hempty
    · rfl
    · exact ih (i + 1)

/-- What a lookup returns, whatever the key. -/
theorem Inv.lookup_any (h : Inv ht m) (key : BitVec 64) :
    hashTableLookup ht key = (m key).getD 0 := by
  by_cases hkey : key = 0
  · rw [hkey, hashTableLookup, findKey_zero, h.zero_absent]
    rfl
  · exact h.lookup hkey

/-- What an insertion does, whatever the key. -/
theorem Inv.insert_any (h : Inv ht m) (granted : Bool) (key value : BitVec 64) :
    ((hashTableInsert granted ht key value).1 = true ∧ key ≠ 0 ∧ m key = none ∧
      Inv (hashTableInsert granted ht key value).2 (Function.update m key (some value))) ∨
    ((hashTableInsert granted ht key value).1 = false ∧
      Inv (hashTableInsert granted ht key value).2 m) := by
  by_cases hkey : key = 0
  · right
    rw [hkey, hashTableInsert]
    split_ifs with hneed
    · cases hr : hashTableResize granted ht with
      | none => exact ⟨rfl, h⟩
      | some resized =>
        simp only [insertEntry, insertionPoint_zero]
        exact ⟨trivial, (h.resize hr).1⟩
    · simp only [insertEntry, insertionPoint_zero]
      exact ⟨trivial, h⟩
  · by_cases hthere : m key = none
    · by_cases hfail : resizeNeeded ht = true ∧ hashTableResize granted ht = none
      · right
        rw [insert_refused hfail.1 hfail.2]
        exact ⟨rfl, h⟩
      · left
        obtain ⟨hok, hinv⟩ := insert_absent value h hkey hthere
          (fun hneed hr => hfail ⟨hneed, hr⟩)
        exact ⟨hok, hkey, hthere, hinv⟩
    · exact Or.inr (insert_present granted value h hkey hthere)

/-- What a removal does, whatever the key. -/
theorem Inv.remove_any (h : Inv ht m) (key : BitVec 64) :
    ∃ ht', hashTableRemove ht key = some ((m key).getD 0, ht') ∧
      Inv ht' (Function.update m key none) := by
  cases hold : m key with
  | none =>
    refine ⟨ht, ?_, ?_⟩
    · by_cases hkey : key = 0
      · rw [hkey, hashTableRemove, findKey_zero]
        rfl
      · exact remove_absent h hkey hold
    · rw [← hold, Function.update_eq_self]
      exact h
  | some value =>
    have hkey : key ≠ 0 := by
      rintro rfl
      rw [h.zero_absent] at hold
      exact absurd hold (by simp)
    exact remove_present h hkey hold

/-! ## Runs of calls -/

inductive Call
  | insert (key value : BitVec 64) (granted : Bool)
  | remove (key : BitVec 64)
  | lookup (key : BitVec 64)

/-- A call that has returned, with what it returned. -/
inductive Event
  | inserted (key value : BitVec 64) (ok : Bool)
  | removed (key result : BitVec 64)
  | lookedUp (key result : BitVec 64)

structure State where
  table : HashTable
  history : List Event

/-- The value of the last successful insert of the key not followed by a remove of it. The
newest event comes first. -/
def lastInserted : List Event → BitVec 64 → Option (BitVec 64)
  | [], _ => none
  | .inserted key value ok :: earlier, k =>
    if ok = true ∧ key = k then some value else lastInserted earlier k
  | .removed key _ :: earlier, k => if key = k then none else lastInserted earlier k
  | .lookedUp _ _ :: earlier, k => lastInserted earlier k

inductive Step (s : State) : Call → State → Prop
  | insert {key value : BitVec 64} {granted : Bool} (nonzero : key ≠ 0) :
    Step s (.insert key value granted)
      { table := (hashTableInsert granted s.table key value).2
        history := .inserted key value (hashTableInsert granted s.table key value).1 :: s.history }
  | remove {key result : BitVec 64} {table : HashTable} (nonzero : key ≠ 0)
    (returns : hashTableRemove s.table key = some (result, table)) :
    Step s (.remove key) { table := table, history := .removed key result :: s.history }
  | lookup {key : BitVec 64} (nonzero : key ≠ 0) :
    Step s (.lookup key)
      { s with history := .lookedUp key (hashTableLookup s.table key) :: s.history }

/-- The runs that start at a table of `numPages` pages. -/
def system (numPages : BitVec 64) : System State Call where
  init := fun s => (∃ slab blocks lockSlab,
    hashTableCreate slab blocks lockSlab numPages = some s.table) ∧ s.history = []
  step := Step

theorem lastInserted_inserted {history : List Event} {ok : Bool} :
    lastInserted (.inserted key value ok :: history)
      = if ok then Function.update (lastInserted history) key (some value)
        else lastInserted history := by
  funext k
  cases ok with
  | false => simp [lastInserted]
  | true => simp [lastInserted, Function.update_apply, eq_comm]

theorem lastInserted_removed {history : List Event} {result : BitVec 64} :
    lastInserted (.removed key result :: history)
      = Function.update (lastInserted history) key none := by
  funext k
  simp [lastInserted, Function.update_apply, eq_comm]

/-- Where the blocks are enough for the capacity, nothing of the page count was cut off. -/
theorem toNat_capacity {numPages : BitVec 64}
    (fits : (numPages * BitVec.ofNat 64 entriesPerPage).toNat ≤
      (numPages.setWidth 32).toNat * entriesPerPage) :
    (numPages * BitVec.ofNat 64 entriesPerPage).toNat =
      (numPages.setWidth 32).toNat * entriesPerPage := by
  have hentries : entriesPerPage = 256 := rfl
  rw [hentries, BitVec.toNat_mul, BitVec.toNat_ofNat, BitVec.toNat_setWidth] at fits ⊢
  omega

theorem create_inv {slab blocks lockSlab : Bool} {numPages : BitVec 64}
    (h : hashTableCreate slab blocks lockSlab numPages = some ht) : Inv ht (fun _ => none) := by
  unfold hashTableCreate at h
  split at h
  · rename_i hgrant
    simp only at h
    split at h
    · rename_i hfits
      simp only [Bool.and_eq_true] at hgrant
      have hcount := fbaAllocBlocks_count hgrant.1.2
      cases h
      have hmoved : Moved 0 (view fun _ => emptyEntry)
          (numPages * BitVec.ofNat 64 entriesPerPage).toNat
          (home (numPages * BitVec.ofNat 64 entriesPerPage).toNat) (view fun _ => emptyEntry) :=
        Moved.start
      refine ⟨⟨_, hcount.1, hcount.2, toNat_capacity hfits⟩, hmoved.sound, ?_, ?_, Nat.zero_le _⟩
      · exact hmoved.represents (m := fun _ => none) (fun k x => by simp [Holds])
      · exact hmoved.count.symm
    · exact absurd h (by simp)
  · exact absurd h (by simp)

theorem step_inv {s s' : State} {call : Call} (h : Inv s.table (lastInserted s.history))
    (hstep : Step s call s') : Inv s'.table (lastInserted s'.history) := by
  cases hstep with
  | @insert key value granted hkey =>
    rw [lastInserted_inserted]
    obtain ⟨hok, -, -, hinv⟩ | ⟨hok, hinv⟩ := h.insert_any granted key value
    · rw [hok]
      exact hinv
    · rw [hok]
      exact hinv
  | @remove key result table hkey returns =>
    rw [lastInserted_removed]
    obtain ⟨table', heq, hinv⟩ := h.remove_any key
    rw [heq] at returns
    cases returns
    exact hinv
  | lookup hkey => exact h

/-- Every table a run reaches holds the map its history tells. -/
theorem reachable_inv {numPages : BitVec 64} {s : State} (h : Reachable (system numPages) s) :
    Inv s.table (lastInserted s.history) := by
  refine h.invariant (fun s => Inv s.table (lastInserted s.history)) ?_ ?_
  · rintro s ⟨⟨slab, blocks, lockSlab, hcreate⟩, hhistory⟩
    rw [hhistory]
    exact create_inv hcreate
  · intro s call s' hs hstep
    exact step_inv hs hstep

/-- The table refines the map its history tells, after any run of calls: what each further call
returns and how many keys there are. -/
theorem hash_table_refines_map (numPages : BitVec 64) (s : State)
    (h : Reachable (system numPages) s) (key value : BitVec 64) (hkey : key ≠ 0) (granted : Bool) :
    hashTableLookup s.table key = (lastInserted s.history key).getD 0 ∧
    ((hashTableInsert granted s.table key value).1 = false ↔
      lastInserted s.history key ≠ none ∨
        (resizeNeeded s.table = true ∧ hashTableResize granted s.table = none)) ∧
    (∃ table, hashTableRemove s.table key
      = some ((lastInserted s.history key).getD 0, table)) ∧
    s.table.size = Set.ncard {k | lastInserted s.history k ≠ none} := by
  have hinv := reachable_inv h
  refine ⟨hinv.lookup hkey, ⟨fun hfalse => ?_, fun hor => ?_⟩, ?_, ?_⟩
  · by_contra hnot
    obtain ⟨hnone, hfail⟩ := not_or.mp hnot
    have hok := (insert_absent value hinv hkey
      (not_not.mp hnone) (fun hneed hr => hfail ⟨hneed, hr⟩)).1
    rw [hok] at hfalse
    exact absurd hfalse (by simp)
  · rcases hor with hthere | ⟨hneed, hr⟩
    · exact (insert_present granted value hinv hkey hthere).1
    · rw [insert_refused hneed hr]
  · cases hold : lastInserted s.history key with
    | none => exact ⟨s.table, remove_absent hinv hkey hold⟩
    | some value =>
      obtain ⟨table, heq, -⟩ := remove_present hinv hkey hold
      exact ⟨table, heq⟩
  · rw [hinv.represents.ncard_keys hinv.sound.unique]
    exact hinv.size

/-- Two keys with one home slot, in a table of one page. -/
theorem hash_table_refines_map_shared_home :
    ∃ s, Reachable (system 1) s ∧ hashTableLookup s.table 257 = 8 ∧
      (hashTableInsert true s.table 257 9).1 = false ∧ home s.table.capacity 257 = 1 := by
  have hcreate : Reachable (system 1) ⟨⟨256, 0, fun _ => emptyEntry⟩, []⟩ :=
    .start ⟨⟨true, true, true, rfl⟩, rfl⟩
  have hone := hcreate.next (Step.insert (show (1 : BitVec 64) ≠ 0 by decide) :
    Step _ (.insert 1 7 true) _)
  have htwo := hone.next (Step.insert (show (257 : BitVec 64) ≠ 0 by decide) :
    Step _ (.insert 257 8 true) _)
  have hall := hash_table_refines_map 1 _ htwo 257 9 (by decide) true
  refine ⟨_, htwo, hall.1.trans (by decide +kernel), hall.2.1.mpr (Or.inl ?_), by decide +kernel⟩
  decide +kernel

end HashTables
