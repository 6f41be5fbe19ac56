import AnosKernel.HashTable
import AnosKernel.Lib.Runs

/-!
# Named channels

`kernel/ipc/named.c` on top of the hash tables of names and of channels. The table of names knows
a name only by its hash, and the destruction of a channel does not look at it. So names that share
a hash are one name, and a name outlives its channel.
-/

namespace NamedChannels

open HashTables Runs

/-- The bytes of a name before its terminator. -/
structure Name where
  bytes : List (BitVec 8)
  nonzero : ∀ c ∈ bytes, c ≠ 0
  deriving DecidableEq

/-- The loop of `str_hash_sdbm`; the end of the list is the terminator. -/
def sdbmLoop (maxLen : Nat) : List (BitVec 8) → Nat → BitVec 64 → BitVec 64
  | [], _, hash => hash
  | c :: str, pos, hash =>
    if c ≠ 0 ∧ pos < maxLen then
      sdbmLoop maxLen str (pos + 1) (c.setWidth 64 + (hash <<< 6) + (hash <<< 16) - hash)
    else hash

def strHashSdbm (str : Option (List (BitVec 8))) (maxLen : Nat) : BitVec 64 :=
  match str with
  | none => 0
  | some str => sdbmLoop maxLen str 0 0

def nameHash (name : Name) : BitVec 64 := strHashSdbm (some name.bytes) 255

/-- The two tables. `names` is history: the cookie of the last registration of a name that
succeeded, unless the name was deregistered or the channel destroyed since then. -/
structure World where
  channelHash : HashTable
  nameTable : HashTable
  names : Name → Option (BitVec 64)

def initialPageCount : BitVec 64 := 2

def initialChannelHashPageCount : BitVec 64 := 4

def ipcChannelExists (w : World) (cookie : BitVec 64) : Bool :=
  hashTableLookup w.channelHash cookie != 0

/-- What `ipc_channel_create` gets: the blocks for the channel and its locks, the cookie and, where
the table of channels must grow, the blocks for that. -/
structure CreateInput where
  channel : Option { block : BitVec 64 // block ≠ 0 }
  receiversLock : Bool
  queueLock : Bool
  cookie : BitVec 64
  granted : Bool

/-- The insertion may fail, and the cookie is returned all the same. -/
def ipcChannelCreate (w : World) (input : CreateInput) : BitVec 64 × World :=
  match input.channel with
  | none => (0, w)
  | some channel =>
    if input.receiversLock && input.queueLock then
      (input.cookie, { w with
        channelHash :=
          (hashTableInsert input.granted w.channelHash input.cookie channel.1).2 })
    else (0, w)

/-- `ipc_channel_destroy` as far as the tables know of it. -/
def ipcChannelDestroy (w : World) (cookie : BitVec 64) : Option World :=
  (hashTableRemove w.channelHash cookie).map fun (channel, table) =>
    { w with
      channelHash := table
      names := if channel ≠ 0 then
          fun name => if w.names name = some cookie then none else w.names name
        else w.names }

def namedChannelRegister (w : World) (cookie : BitVec 64) (name : Name) (granted : Bool) :
    Bool × World :=
  if ipcChannelExists w cookie then
    let (registered, table) := hashTableInsert granted w.nameTable (nameHash name) cookie
    (registered, { w with
      nameTable := table
      names := if registered then Function.update w.names name (some cookie) else w.names })
  else (false, w)

def namedChannelFind (w : World) (name : Name) : BitVec 64 :=
  hashTableLookup w.nameTable (nameHash name)

def namedChannelDeregister (w : World) (name : Name) : Option (BitVec 64 × World) :=
  (hashTableRemove w.nameTable (nameHash name)).map fun (cookie, table) =>
    (cookie, { w with nameTable := table, names := Function.update w.names name none })

/-! ## Runs -/

inductive Call where
  | create (input : CreateInput)
  | destroy (cookie : BitVec 64)
  | register (cookie : BitVec 64) (name : Name) (granted : Bool)
  | deregister (name : Name)
  | find (name : Name)

/-- The name a call is about. -/
def Call.name : Call → Option Name
  | .create _ => none
  | .destroy _ => none
  | .register _ name _ => some name
  | .deregister name => some name
  | .find name => some name

def World.exec (w : World) : Call → Option World
  | .create input => some (ipcChannelCreate w input).2
  | .destroy cookie => ipcChannelDestroy w cookie
  | .register cookie name granted => some (namedChannelRegister w cookie name granted).2
  | .deregister name => (namedChannelDeregister w name).map Prod.snd
  | .find _ => some w

/-- The tables as `ipc_channel_init` and `named_channel_init` leave them. -/
def World.Started (w : World) : Prop :=
  hashTableCreate true true true initialChannelHashPageCount = some w.channelHash ∧
    hashTableCreate true true true initialPageCount = some w.nameTable ∧
    ∀ name, w.names name = none

def channels : System World Call where
  init := World.Started
  step := fun w call w' => w.exec call = some w'

/-- No other name that is registered has the hash of this one. -/
def Alone (names : Name → Option (BitVec 64)) (name : Name) : Prop :=
  ∀ other, other ≠ name → names other ≠ none → nameHash other ≠ nameHash name

/-- A call is about a name that is alone with its hash, and destroys a channel without a name. -/
def Clear (w : World) : Call → Prop
  | .create _ => True
  | .destroy cookie => ∀ name, w.names name ≠ some cookie
  | .register _ name _ => Alone w.names name
  | .deregister name => Alone w.names name
  | .find name => Alone w.names name

/-! ## Names that share a hash -/

/-! ## What the tables hold -/

/-- The hashes lead to the cookies of the names, and every name has a channel. -/
structure Bound (names : Name → Option (BitVec 64))
    (byHash byCookie : BitVec 64 → Option (BitVec 64)) : Prop where
  holds : ∀ name cookie, names name = some cookie → byHash (nameHash name) = some cookie
  named : ∀ hash cookie, byHash hash = some cookie →
    ∃ name, nameHash name = hash ∧ names name = some cookie
  live : ∀ name cookie, names name = some cookie → byCookie cookie ≠ none

section Bound

variable {names : Name → Option (BitVec 64)} {byHash byCookie : BitVec 64 → Option (BitVec 64)}
  {name : Name} {cookie : BitVec 64}

/-- The entry of a name that is alone with its hash is its own. -/
theorem Bound.byHash_eq (h : Bound names byHash byCookie) (alone : Alone names name) :
    byHash (nameHash name) = names name := by
  cases hentry : byHash (nameHash name) with
  | none =>
    by_contra hne
    obtain ⟨cookie, hcookie⟩ := Option.ne_none_iff_exists'.mp (Ne.symm hne)
    rw [h.holds name cookie hcookie] at hentry
    exact absurd hentry (by simp)
  | some cookie =>
    obtain ⟨owner, hhash, hcookie⟩ := h.named _ _ hentry
    by_cases hsame : owner = name
    · rw [← hsame, hcookie]
    · exact absurd hhash (alone owner hsame (by simp [hcookie]))

theorem Bound.add (h : Bound names byHash byCookie) (alone : Alone names name)
    (there : byCookie cookie ≠ none) :
    Bound (Function.update names name (some cookie))
      (Function.update byHash (nameHash name) (some cookie)) byCookie := by
  constructor
  · intro other c hc
    by_cases hsame : other = name
    · rw [hsame, Function.update_self] at hc
      rw [hsame, Function.update_self, hc]
    · rw [Function.update_of_ne hsame] at hc
      rw [Function.update_of_ne (alone other hsame (by simp [hc]))]
      exact h.holds other c hc
  · intro hash c hc
    by_cases hhash : hash = nameHash name
    · rw [hhash, Function.update_self] at hc
      exact ⟨name, hhash.symm, by rw [Function.update_self, hc]⟩
    · rw [Function.update_of_ne hhash] at hc
      obtain ⟨other, hother, hcookie⟩ := h.named hash c hc
      refine ⟨other, hother, ?_⟩
      rw [Function.update_of_ne, hcookie]
      rintro rfl
      exact hhash hother.symm
  · intro other c hc
    by_cases hsame : other = name
    · rw [hsame, Function.update_self] at hc
      obtain rfl := Option.some.inj hc
      exact there
    · rw [Function.update_of_ne hsame] at hc
      exact h.live other c hc

theorem Bound.drop (h : Bound names byHash byCookie) (alone : Alone names name) :
    Bound (Function.update names name none) (Function.update byHash (nameHash name) none)
      byCookie := by
  have hother : ∀ other c, Function.update names name none other = some c →
      other ≠ name ∧ names other = some c := by
    intro other c hc
    by_cases hsame : other = name
    · rw [hsame, Function.update_self] at hc
      exact absurd hc (by simp)
    · rw [Function.update_of_ne hsame] at hc
      exact ⟨hsame, hc⟩
  constructor
  · intro other c hc
    obtain ⟨hne, hold⟩ := hother other c hc
    rw [Function.update_of_ne (alone other hne (by simp [hold]))]
    exact h.holds other c hold
  · intro hash c hc
    by_cases hhash : hash = nameHash name
    · rw [hhash, Function.update_self] at hc
      exact absurd hc (by simp)
    · rw [Function.update_of_ne hhash] at hc
      obtain ⟨owner, howner, hcookie⟩ := h.named hash c hc
      refine ⟨owner, howner, ?_⟩
      rw [Function.update_of_ne, hcookie]
      rintro rfl
      exact hhash howner.symm
  · exact fun other c hc => h.live other c (hother other c hc).2

/-- A change of an entry of the channels that no name leads to. -/
theorem Bound.rechannel (h : Bound names byHash byCookie)
    (unnamed : ∀ name, names name ≠ some cookie) (entry : Option (BitVec 64)) :
    Bound names byHash (Function.update byCookie cookie entry) := by
  refine ⟨h.holds, h.named, ?_⟩
  intro name c hc
  have hne : c ≠ cookie := by
    rintro rfl
    exact unnamed name hc
  rw [Function.update_of_ne hne]
  exact h.live name c hc

end Bound

/-- The tables of a state hold these entries; those of the channels are not null. -/
structure Tables (w : World) (byHash byCookie : BitVec 64 → Option (BitVec 64)) : Prop where
  nameTable : Inv w.nameTable byHash
  channelHash : Inv w.channelHash byCookie
  present : ∀ cookie block, byCookie cookie = some block → block ≠ 0
  bound : Bound w.names byHash byCookie

section Calls

variable {w w' : World} {byHash byCookie : BitVec 64 → Option (BitVec 64)} {name : Name}
  {cookie : BitVec 64}

theorem Tables.exists_iff (h : Tables w byHash byCookie) (cookie : BitVec 64) :
    ipcChannelExists w cookie = true ↔ byCookie cookie ≠ none := by
  rw [ipcChannelExists, h.channelHash.lookup_any, bne_iff_ne]
  cases hblock : byCookie cookie with
  | none => simp
  | some block => simpa using h.present cookie block hblock

theorem Tables.find_eq (h : Tables w byHash byCookie) (name : Name) :
    namedChannelFind w name = (byHash (nameHash name)).getD 0 :=
  h.nameTable.lookup_any _

theorem Tables.create (h : Tables w byHash byCookie) (input : CreateInput) :
    ∃ byCookie', Tables (ipcChannelCreate w input).2 byHash byCookie' := by
  rw [ipcChannelCreate]
  cases hchannel : input.channel with
  | none => exact ⟨byCookie, h⟩
  | some channel =>
    simp only
    split_ifs with hlocks
    · rcases h.channelHash.insert_any input.granted input.cookie channel.1 with
        ⟨-, -, hnew, hinv⟩ | ⟨-, hinv⟩
      · have hunnamed : ∀ name, w.names name ≠ some input.cookie :=
          fun name hname => h.bound.live name _ hname hnew
        refine ⟨_, h.nameTable, hinv, ?_, h.bound.rechannel hunnamed _⟩
        intro cookie block hblock
        by_cases heq : cookie = input.cookie
        · rw [heq, Function.update_self] at hblock
          obtain rfl := Option.some.inj hblock
          exact channel.2
        · rw [Function.update_of_ne heq] at hblock
          exact h.present cookie block hblock
      · exact ⟨byCookie, h.nameTable, hinv, h.present, h.bound⟩
    · exact ⟨byCookie, h⟩

theorem Tables.destroy (h : Tables w byHash byCookie)
    (unnamed : ∀ name, w.names name ≠ some cookie) :
    ∃ w' byCookie', ipcChannelDestroy w cookie = some w' ∧ Tables w' byHash byCookie' := by
  obtain ⟨table, hremove, hinv⟩ := h.channelHash.remove_any cookie
  have hnames : (fun name => if w.names name = some cookie then none else w.names name) =
      w.names := by
    funext name
    exact if_neg (unnamed name)
  simp only [ipcChannelDestroy, hremove, Option.map_some, hnames, ite_self]
  refine ⟨_, _, rfl, h.nameTable, hinv, ?_, h.bound.rechannel unnamed _⟩
  intro other block hblock
  have hne : other ≠ cookie := by
    rintro rfl
    simp at hblock
  rw [Function.update_of_ne hne] at hblock
  exact h.present other block hblock

theorem Tables.register (h : Tables w byHash byCookie) (alone : Alone w.names name)
    (cookie : BitVec 64) (granted : Bool) :
    ∃ byHash', Tables (namedChannelRegister w cookie name granted).2 byHash' byCookie ∧
      ∀ hash, hash ≠ nameHash name → byHash' hash = byHash hash := by
  rw [namedChannelRegister]
  split_ifs with hexists
  · rcases h.nameTable.insert_any granted (nameHash name) cookie with
      ⟨hok, -, -, hinv⟩ | ⟨hok, hinv⟩
    · simp only [hok, if_true]
      have hadd := h.bound.add alone ((h.exists_iff cookie).mp hexists)
      exact ⟨_, ⟨hinv, h.channelHash, h.present, hadd⟩,
        fun hash hne => Function.update_of_ne hne _ _⟩
    · simp only [hok, Bool.false_eq_true, if_false]
      exact ⟨byHash, ⟨hinv, h.channelHash, h.present, h.bound⟩, fun _ _ => rfl⟩
  · exact ⟨byHash, h, fun _ _ => rfl⟩

theorem Tables.deregister (h : Tables w byHash byCookie) (alone : Alone w.names name) :
    ∃ w' byHash', (namedChannelDeregister w name).map Prod.snd = some w' ∧
      Tables w' byHash' byCookie ∧ ∀ hash, hash ≠ nameHash name → byHash' hash = byHash hash := by
  obtain ⟨table, hremove, hinv⟩ := h.nameTable.remove_any (nameHash name)
  simp only [namedChannelDeregister, hremove, Option.map_some]
  exact ⟨_, _, rfl, ⟨hinv, h.channelHash, h.present, h.bound.drop alone⟩,
    fun hash hne => Function.update_of_ne hne _ _⟩

/-- A call that is clear ends and keeps the tables; the entries of other hashes stay. -/
theorem Tables.step (h : Tables w byHash byCookie) {call : Call} (clear : Clear w call) :
    ∃ w' byHash' byCookie', w.exec call = some w' ∧ Tables w' byHash' byCookie' ∧
      ∀ hash, (∀ name, call.name = some name → hash ≠ nameHash name) →
        byHash' hash = byHash hash := by
  cases call with
  | create input =>
    obtain ⟨byCookie', htables⟩ := h.create input
    exact ⟨_, byHash, byCookie', rfl, htables, fun _ _ => rfl⟩
  | destroy cookie =>
    obtain ⟨w', byCookie', hexec, htables⟩ := h.destroy clear
    exact ⟨w', byHash, byCookie', hexec, htables, fun _ _ => rfl⟩
  | register cookie name granted =>
    obtain ⟨byHash', htables, hother⟩ := h.register clear cookie granted
    exact ⟨_, byHash', byCookie, rfl, htables, fun hash hne => hother hash (hne name rfl)⟩
  | deregister name =>
    obtain ⟨w', byHash', hexec, htables, hother⟩ := h.deregister clear
    exact ⟨w', byHash', byCookie, hexec, htables, fun hash hne => hother hash (hne name rfl)⟩
  | find name => exact ⟨w, byHash, byCookie, rfl, h, fun _ _ => rfl⟩

theorem started_tables (h : w.Started) : Tables w (fun _ => none) (fun _ => none) := by
  obtain ⟨hchannels, hnames, hnone⟩ := h
  refine ⟨create_inv hnames, create_inv hchannels, ?_, ?_, ?_, ?_⟩
  · exact fun _ _ hblock => absurd hblock (by simp)
  · exact fun name cookie hname => absurd ((hnone name).symm.trans hname) (by simp)
  · exact fun _ _ hentry => absurd hentry (by simp)
  · exact fun name cookie hname => absurd ((hnone name).symm.trans hname) (by simp)

theorem reachable_tables (h : Reachable (channels.restrict Clear) w) :
    ∃ byHash byCookie, Tables w byHash byCookie := by
  refine Reachable.invariant (fun w => ∃ byHash byCookie, Tables w byHash byCookie) ?_ ?_ h
  · exact fun w hstarted => ⟨_, _, started_tables hstarted⟩
  · rintro w call w' ⟨byHash, byCookie, htables⟩ ⟨hclear, hexec⟩
    obtain ⟨w'', byHash', byCookie', hexec', htables', -⟩ := htables.step hclear
    obtain rfl := Option.some.inj (hexec'.symm.trans hexec)
    exact ⟨byHash', byCookie', htables'⟩

end Calls

/-- In every run in which the names of calls are alone with their hashes and no channel with a
name is destroyed, every call ends, a name is found exactly while it is registered, its channel is
there, and a call about one name does not change what is found for a name with another hash. -/
theorem named_channels_refine_map {w : World} (h : Reachable (channels.restrict Clear) w) :
    (∀ name, Clear w (.find name) → namedChannelFind w name = (w.names name).getD 0) ∧
    (∀ name cookie, w.names name = some cookie → ipcChannelExists w cookie = true) ∧
    ∀ call, Clear w call → ∃ w', w.exec call = some w' ∧
      ∀ other, (∀ name, call.name = some name → nameHash other ≠ nameHash name) →
        namedChannelFind w' other = namedChannelFind w other := by
  obtain ⟨byHash, byCookie, htables⟩ := reachable_tables h
  refine ⟨?_, ?_, ?_⟩
  · intro name halone
    rw [htables.find_eq, htables.bound.byHash_eq halone]
  · intro name cookie hname
    exact (htables.exists_iff cookie).mpr (htables.bound.live name cookie hname)
  · intro call hclear
    obtain ⟨w', byHash', byCookie', hexec, htables', hother⟩ := htables.step hclear
    refine ⟨w', hexec, ?_⟩
    intro other hne
    rw [htables'.find_eq, htables.find_eq, hother _ hne]

/-- The tables after the start of the kernel. -/
def startedWorld : World where
  channelHash := ⟨1024, 0, fun _ => emptyEntry⟩
  nameTable := ⟨512, 0, fun _ => emptyEntry⟩
  names := fun _ => none

/-- "vfs" -/
def vfs : Name := ⟨[0x76, 0x66, 0x73], by decide⟩

def createVfs : CreateInput := ⟨some ⟨0x1000, by decide⟩, true, true, 0x51, true⟩

/-- A channel is created and registered as "vfs". -/
def vfsWorld : World :=
  (namedChannelRegister (ipcChannelCreate startedWorld createVfs).2 0x51 vfs true).2

theorem vfsWorld_reachable : Reachable (channels.restrict Clear) vfsWorld := by
  have hstart : Reachable (channels.restrict Clear) startedWorld :=
    .start ⟨rfl, rfl, fun _ => rfl⟩
  have hcreate : Reachable (channels.restrict Clear) (ipcChannelCreate startedWorld createVfs).2 :=
    hstart.next (a := .create createVfs) ⟨trivial, rfl⟩
  exact hcreate.next (a := .register 0x51 vfs true)
    ⟨fun other _ hregistered => absurd rfl hregistered, rfl⟩

theorem vfsWorld_names : vfsWorld.names = Function.update (fun _ => none) vfs (some 0x51) := by
  have hexists : ipcChannelExists (ipcChannelCreate startedWorld createVfs).2 0x51 = true := by
    decide +kernel
  have hok : (hashTableInsert true startedWorld.nameTable (nameHash vfs) 0x51).1 = true := by
    decide +kernel
  have hnames : (ipcChannelCreate startedWorld createVfs).2.nameTable = startedWorld.nameTable :=
    rfl
  rw [vfsWorld, namedChannelRegister, if_pos hexists]
  simp only [hnames, hok, if_true]
  rfl

theorem named_channels_refine_map_vfs :
    vfsWorld.names vfs = some 0x51 ∧ namedChannelFind vfsWorld vfs = 0x51 := by
  have hname : vfsWorld.names vfs = some 0x51 := by
    rw [vfsWorld_names, Function.update_self]
  refine ⟨hname, ?_⟩
  have halone : Alone vfsWorld.names vfs := by
    intro other hne hregistered
    rw [vfsWorld_names, Function.update_of_ne hne] at hregistered
    exact absurd rfl hregistered
  rw [(named_channels_refine_map vfsWorld_reachable).1 vfs halone, hname]
  rfl

/-- The name of a channel that was destroyed still leads to its cookie. -/
theorem name_outlives_channel : ¬ ∀ w, Reachable channels w →
    ∀ name, namedChannelFind w name = (w.names name).getD 0 := by
  intro h
  obtain ⟨byHash, byCookie, htables⟩ := reachable_tables vfsWorld_reachable
  have hname : vfsWorld.names vfs = some 0x51 := by
    rw [vfsWorld_names, Function.update_self]
  obtain ⟨block, hblock⟩ := Option.ne_none_iff_exists'.mp (htables.bound.live vfs 0x51 hname)
  obtain ⟨table, hremove, -⟩ := htables.channelHash.remove_any 0x51
  have hdestroy : ipcChannelDestroy vfsWorld 0x51 = some { vfsWorld with
      channelHash := table
      names := fun name => if vfsWorld.names name = some 0x51 then none
        else vfsWorld.names name } := by
    rw [hblock, Option.getD_some] at hremove
    rw [ipcChannelDestroy, hremove, Option.map_some]
    simp only [ne_eq, htables.present 0x51 block hblock, not_false_eq_true, if_true]
  have hrun : Reachable channels _ :=
    vfsWorld_reachable.of_restrict.next (a := .destroy 0x51) hdestroy
  have hnone : (if vfsWorld.names vfs = some 0x51 then none else vfsWorld.names vfs) = none :=
    if_pos hname
  have hfind : namedChannelFind vfsWorld vfs = 0 :=
    (h _ hrun vfs).trans (congrArg (Option.getD · 0) hnone)
  have hstill : namedChannelFind vfsWorld vfs = 0x51 := by
    rw [htables.find_eq, htables.bound.holds vfs 0x51 hname]
    rfl
  exact absurd (hfind.symm.trans hstill) (by decide)

end NamedChannels
