import AnosKernel.ChannelDelivery
import AnosKernel.HashTable

/-!
# The table of messages in flight

`ipc_channel_recv` takes a message off the queue and then inserts it in `in_flight_message_hash`,
without a look at the result. The insertion fails when the table has to grow and the allocator
refuses, and the message is then neither in the queue nor in the table.

The sections here are those of the channel over the table itself, which the other channels share.
The `inFlight` of the channel is what the table would hold if no insertion had been refused; no
section reads it.
-/

namespace InFlightTable

open Runs IpcChannel ChannelDelivery
open HashTables (HashTable hashTableLookup hashTableRemove hashTableResize resizeNeeded)

/-- The channel and `in_flight_message_hash`; the last field only records the cookies of the
messages for which the table had to grow and was refused. -/
structure Ipc (T : Type) where
  channel : State T
  table : HashTable
  refused : List (BitVec 64)

/-- The table has to grow for one more entry and does not get the blocks. -/
def refuses (granted : Bool) (table : HashTable) : Bool :=
  resizeNeeded table && (hashTableResize granted table).isNone

section Sections

variable {T : Type} [DecidableEq T]

def deliver (k : Ipc T) (t : T) (args : RecvArgs) (slowPath : Bool) (msg : BitVec 64)
    (rest : List (BitVec 64)) (granted : Bool) : Ipc T where
  channel := IpcChannel.deliver k.channel t args slowPath msg rest
  table := (HashTables.hashTableInsert granted k.table (k.channel.message msg).cookie msg).2
  refused :=
    if refuses granted k.table then k.refused ++ [(k.channel.message msg).cookie] else k.refused

def recvCheck (k : Ipc T) (t : T) (args : RecvArgs) (granted : Bool) : Ipc T :=
  if ¬ pageAligned args.buffer then { k with channel := k.channel.return t (.recv args none) }
  else
    match k.channel.queue with
    | msg :: rest => deliver k t args false msg rest granted
    | [] => { k with
        channel := { k.channel.setPhase t (.checked args) with receiversLock := some t } }

def recvResume (k : Ipc T) (t : T) (args : RecvArgs) (granted : Bool) : Ipc T :=
  match k.channel.queue with
  | msg :: rest => deliver { k with channel := k.channel.resume t } t args true msg rest granted
  | [] => { k with channel := (k.channel.resume t).return t (.recv args none) }

def replyLookup (k : Ipc T) (t : T) (cookie result : BitVec 64) : Ipc T :=
  let msg := hashTableLookup k.table cookie
  if msg = 0 then { k with channel := k.channel.return t (.reply cookie 0) }
  else { k with channel := k.channel.setPhase t (.found msg cookie result) }

end Sections

/-! ## The system -/

/-- A section of a call on this channel, with the answer of the allocator, or a change of the
table by a call on another one. -/
inductive Act (T : Type)
  | own (a : IpcChannel.Act T) (granted : Bool)
  | insert (key value : BitVec 64) (granted : Bool)
  | remove (key : BitVec 64)

/-- A section that does not use the table. The block of a new message is not null and its cookie
is not one that is in the table. -/
def Outside {T : Type} (table : HashTable) : IpcChannel.Act T → Prop
  | .send _ _ _ _ block cookie _ => block ≠ some 0 ∧ hashTableLookup table cookie = 0
  | .wake _ | .sendReturn _ | .join _ | .unblock _ => True
  | .recv .. | .recvResume _ | .reply .. | .remove _ => False

variable {T : Type} [DecidableEq T]

/-- The calls on other channels insert and remove cookies that are none of this one's; a reply
to such a cookie is one of these calls. -/
inductive Step (k : Ipc T) : Act T → Ipc T → Prop
  | outside {a : IpcChannel.Act T} {channel : State T} (granted : Bool)
      (outside : Outside k.table a) (step : IpcChannel.Step k.channel a channel) :
      Step k (.own a granted) { k with channel := channel }
  | recv {t : T} (args : RecvArgs) (granted : Bool) (idle : k.channel.phase t = .idle)
      (unlocked : pageAligned args.buffer → k.channel.receiversLock = none) :
      Step k (.own (.recv t args) granted) (recvCheck k t args granted)
  | recvResume {t : T} {args : RecvArgs} (granted : Bool)
      (phase : k.channel.phase t = .recvWaiting args) (awake : k.channel.wakes t ≠ 0) :
      Step k (.own (.recvResume t) granted) (recvResume k t args granted)
  | reply {t : T} (cookie result : BitVec 64) (granted : Bool) (idle : k.channel.phase t = .idle)
      (own : cookie ∈ k.channel.sent.map Sent.cookie ∨ hashTableLookup k.table cookie = 0) :
      Step k (.own (.reply t cookie result) granted) (replyLookup k t cookie result)
  | remove {t : T} {msg cookie result value : BitVec 64} {table : HashTable} (granted : Bool)
      (phase : k.channel.phase t = .found msg cookie result)
      (removes : hashTableRemove k.table cookie = some (value, table)) :
      Step k (.own (.remove t) granted)
        { k with channel := replyRemove k.channel t msg cookie result, table := table }
  | otherInsert {key value : BitVec 64} (granted : Bool)
      (other : key ∉ k.channel.sent.map Sent.cookie) (block : value ≠ 0) :
      Step k (.insert key value granted)
        { k with table := (HashTables.hashTableInsert granted k.table key value).2 }
  | otherRemove {key value : BitVec 64} {table : HashTable}
      (other : key ∉ k.channel.sent.map Sent.cookie)
      (removes : hashTableRemove k.table key = some (value, table)) :
      Step k (.remove key) { k with table := table }

/-- A channel just created and the table as `ipc_channel_init` creates it. -/
structure Initial (k : Ipc T) : Prop where
  channel : IpcChannel.Initial k.channel
  table : HashTables.hashTableCreate true true true 1 = some k.table
  refused : k.refused = []

def calls (T : Type) [DecidableEq T] : System (Ipc T) (Act T) where
  init := Initial
  step := Step

/-- No other reply to the same cookie is between its lookup and its removal. -/
def Exclusive (k : Ipc T) : Act T → Prop
  | .own a _ => ChannelDelivery.Exclusive k.channel a
  | _ => True

/-! ## The table and the channel -/

section Table

variable {table : HashTable} {m : BitVec 64 → Option (BitVec 64)} {key : BitVec 64}

theorem refuses_iff (granted : Bool) :
    refuses granted table = true ↔
      resizeNeeded table = true ∧ hashTableResize granted table = none := by
  rw [refuses, Bool.and_eq_true, Option.isNone_iff_eq_none]

/-- A new key goes in unless the table is refused its growth. -/
theorem insert_new (inv : HashTables.Inv table m) (nonzero : key ≠ 0) (absent : m key = none)
    (granted : Bool) (value : BitVec 64) :
    HashTables.Inv (HashTables.hashTableInsert granted table key value).2
      (if refuses granted table then m else Function.update m key (some value)) := by
  split_ifs with hrefuses
  · obtain ⟨hneeded, hnone⟩ := (refuses_iff granted).mp hrefuses
    rw [HashTables.insert_refused hneeded hnone]
    exact inv
  · have hanswered : resizeNeeded table = true → hashTableResize granted table ≠ none :=
      fun hneeded hnone => hrefuses ((refuses_iff granted).mpr ⟨hneeded, hnone⟩)
    exact (HashTables.insert_absent value inv nonzero absent hanswered).2

/-- What a lookup finds of a value just inserted. -/
theorem lookup_insert_iff (inv : HashTables.Inv table m) (granted : Bool) {value : BitVec 64}
    (block : value ≠ 0) :
    hashTableLookup (HashTables.hashTableInsert granted table key value).2 key = value ↔
      m key = some value ∨ (key ≠ 0 ∧ m key = none ∧ refuses granted table = false) := by
  have hnull : ((none : Option (BitVec 64)).getD 0 = value) ↔ False :=
    iff_of_false (fun hzero => block hzero.symm) id
  by_cases hkey : key = 0
  · subst hkey
    have hkept : HashTables.Inv (HashTables.hashTableInsert granted table 0 value).2 m := by
      rcases inv.insert_any granted 0 value with ⟨-, hne, -⟩ | ⟨-, hinv⟩
      · exact absurd rfl hne
      · exact hinv
    rw [hkept.lookup_any, inv.zero_absent, hnull]
    simp
  · cases hm : m key with
    | some old =>
      have hthere : m key ≠ none := by simp [hm]
      have hkept := (HashTables.insert_present granted value inv hkey hthere).2
      rw [hkept.lookup_any, hm]
      simp
    | none =>
      have hinv := insert_new inv hkey hm granted value
      rw [hinv.lookup_any]
      cases hrefuses : refuses granted table with
      | true =>
        rw [if_pos rfl, hm, hnull]
        simp
      | false =>
        rw [if_neg (by simp), Function.update_self]
        exact ⟨fun _ => Or.inr ⟨hkey, rfl, rfl⟩, fun _ => rfl⟩

end Table

/-- The table holds `m`, which has of each message of this channel what the channel has in
flight, except for the messages that were refused. -/
structure Agrees (k : Ipc T) (m : BitVec 64 → Option (BitVec 64)) : Prop where
  inv : HashTables.Inv k.table m
  blocks : ∀ c value, m c = some value → value ≠ 0
  own : ∀ c ∈ k.channel.sent.map Sent.cookie,
    m c = if c ∈ k.refused then none else k.channel.inFlight c

/-- The books of the channel hold, its messages are blocks under non-zero cookies, and a message
that was refused stays where no reply finds it. -/
structure Books (k : Ipc T) : Prop where
  sound : Sound k.channel
  nonzero : ∀ c ∈ k.channel.sent.map Sent.cookie, c ≠ 0
  blocks : ∀ t msg, (k.channel.phase t).sending = some msg → msg ≠ 0
  table : ∃ m, Agrees k m
  refused : ∀ c ∈ k.refused, k.channel.inFlight c ≠ none
  looking : ∀ t msg c, (k.channel.phase t).looking = some (msg, c) → c ∉ k.refused

section Steps

variable {k : Ipc T} {t : T} {msg cookie : BitVec 64}

omit [DecidableEq T] in
theorem Agrees.lookup {m : BitVec 64 → Option (BitVec 64)} (h : Agrees k m) (c : BitVec 64) :
    hashTableLookup k.table c = (m c).getD 0 := h.inv.lookup_any c

omit [DecidableEq T] in
/-- A lookup returns null exactly where the map has nothing. -/
theorem Agrees.lookup_zero {m : BitVec 64 → Option (BitVec 64)} (h : Agrees k m) {c : BitVec 64} :
    hashTableLookup k.table c = 0 ↔ m c = none := by
  rw [h.lookup]
  cases hm : m c with
  | none => simp
  | some value =>
    have hblock := h.blocks c value hm
    constructor
    · exact fun hzero => absurd hzero hblock
    · exact fun hnone => absurd hnone (by simp)

omit [DecidableEq T] in
/-- A cookie in flight was sent. -/
theorem Books.sent_of_inFlight (h : Books k) (present : k.channel.inFlight cookie ≠ none) :
    cookie ∈ k.channel.sent.map Sent.cookie := by
  obtain ⟨msg, hmsg⟩ := Option.ne_none_iff_exists'.mp present
  rw [h.sound.log.order]
  exact List.mem_append_left _ (h.sound.messages.flight cookie msg hmsg).2.2

omit [DecidableEq T] in
/-- A step that leaves the messages in flight and those sent as they are. -/
theorem Books.still (h : Books k) {channel : State T} (sound : Sound channel)
    (sent : channel.sent = k.channel.sent) (inFlight : channel.inFlight = k.channel.inFlight)
    (sending : ∀ u x, (channel.phase u).sending = some x →
      (k.channel.phase u).sending = some x)
    (looking : ∀ u x c, (channel.phase u).looking = some (x, c) → c ∉ k.refused) :
    Books { k with channel := channel } := by
  obtain ⟨m, hm⟩ := h.table
  constructor
  · exact sound
  · exact sent ▸ h.nonzero
  · exact fun u x hu => h.blocks u x (sending u x hu)
  · refine ⟨m, hm.inv, hm.blocks, fun c hc => ?_⟩
    rw [inFlight]
    exact hm.own c (sent ▸ hc)
  · exact fun c hc => inFlight ▸ h.refused c hc
  · exact looking

/-- A step of one task to a phase in which it holds no message. -/
theorem Books.setPhase (h : Books k) {channel : State T} (sound : Sound channel) {phase : Phase}
    (phases : channel.phase = (k.channel.setPhase t phase).phase)
    (sent : channel.sent = k.channel.sent) (inFlight : channel.inFlight = k.channel.inFlight)
    (sending : phase.sending = none) (looking : phase.looking = none) :
    Books { k with channel := channel } := by
  refine h.still sound sent inFlight ?_ ?_
  · intro u x hu
    rw [phases] at hu
    exact (of_setPhase sending hu).2
  · intro u x c hu
    rw [phases] at hu
    exact h.looking u x c (of_setPhase looking hu).2

/-- A new message, whose cookie is new to the table as well. -/
theorem Books.publish (h : Books k) {channel : State T} (sound : Sound channel) {sent : Sent}
    (phases : channel.phase = (k.channel.setPhase t (.published msg)).phase)
    (sents : channel.sent = k.channel.sent ++ [sent])
    (inFlight : channel.inFlight = k.channel.inFlight) (block : msg ≠ 0)
    (nonzero : sent.cookie ≠ 0) (absent : hashTableLookup k.table sent.cookie = 0) :
    Books { k with channel := channel } := by
  obtain ⟨m, hm⟩ := h.table
  have hcookies : channel.sent.map Sent.cookie =
      k.channel.sent.map Sent.cookie ++ [sent.cookie] := by
    rw [sents, List.map_append, List.map_singleton]
  have hnew : sent.cookie ∉ k.channel.sent.map Sent.cookie := by
    intro hold
    have hnodup := sound.log.distinct
    rw [hcookies] at hnodup
    exact (List.nodup_append.mp hnodup).2.2 _ hold _ (List.mem_singleton_self _) rfl
  have hnone : k.channel.inFlight sent.cookie = none := by
    by_contra hpresent
    exact hnew (h.sent_of_inFlight hpresent)
  constructor
  · exact sound
  · intro c hc
    rw [hcookies] at hc
    rcases List.mem_append.mp hc with hc | hc
    · exact h.nonzero c hc
    · rw [List.mem_singleton.mp hc]
      exact nonzero
  · intro u x hu
    rw [phases] at hu
    rcases eq_or_ne u t with rfl | hne
    · obtain rfl : msg = x := by simpa [State.setPhase, Phase.sending] using hu
      exact block
    · exact h.blocks u x (by simpa [State.setPhase, hne] using hu)
  · refine ⟨m, hm.inv, hm.blocks, fun c hc => ?_⟩
    rw [hcookies] at hc
    rw [inFlight]
    rcases List.mem_append.mp hc with hc | hc
    · exact hm.own c hc
    · rw [List.mem_singleton.mp hc, hnone, ite_self]
      exact hm.lookup_zero.mp absent
  · exact fun c hc => inFlight ▸ h.refused c hc
  · intro u x c hu
    rw [phases] at hu
    exact h.looking u x c (of_setPhase rfl hu).2

omit [DecidableEq T] in
/-- A queued message: its block, its cookie and that nothing is in flight there. -/
theorem Books.queued (h : Books k) (queued : msg ∈ k.channel.queue) :
    msg ≠ 0 ∧ (k.channel.message msg).cookie ∈ k.channel.sent.map Sent.cookie ∧
      k.channel.inFlight (k.channel.message msg).cookie = none := by
  obtain ⟨hsending, -⟩ := h.sound.messages.queued msg queued
  refine ⟨h.blocks _ msg hsending, ?_, ?_⟩
  · exact List.mem_map_of_mem (h.sound.queued_sent queued)
  · by_contra hpresent
    obtain ⟨x, hx⟩ := Option.ne_none_iff_exists'.mp hpresent
    exact h.sound.log.not_moved queued (h.sound.messages.flight _ x hx).2.2

/-- The message goes into the table, or its insertion is refused and recorded. -/
theorem Books.deliver (h : Books k) {channel : State T} {rest : List (BitVec 64)}
    (queue : k.channel.queue = msg :: rest) (granted : Bool) (sound : Sound channel)
    (phases : channel.phase = (k.channel.setPhase t .idle).phase)
    (sent : channel.sent = k.channel.sent)
    (inFlight : channel.inFlight =
      IpcChannel.hashTableInsert k.channel.inFlight (k.channel.message msg).cookie msg) :
    Books { channel := channel
            table :=
              (HashTables.hashTableInsert granted k.table (k.channel.message msg).cookie msg).2
            refused :=
              if refuses granted k.table then k.refused ++ [(k.channel.message msg).cookie]
              else k.refused } := by
  obtain ⟨m, hm⟩ := h.table
  obtain ⟨hblock, hsent, hnone⟩ := h.queued (queue ▸ List.mem_cons_self)
  generalize (k.channel.message msg).cookie = cookie at hsent hnone inFlight ⊢
  have hnew : cookie ∉ k.refused := fun hrefused => h.refused cookie hrefused hnone
  have habsent : m cookie = none := by
    rw [hm.own cookie hsent, if_neg hnew, hnone]
  have hflight : channel.inFlight = Function.update k.channel.inFlight cookie (some msg) := by
    rw [inFlight, IpcChannel.hashTableInsert, hnone]
    rfl
  have hinv := insert_new hm.inv (h.nonzero cookie hsent) habsent granted msg
  constructor
  · exact sound
  · exact sent ▸ h.nonzero
  · intro u x hu
    rw [phases] at hu
    exact h.blocks u x (of_setPhase rfl hu).2
  · refine ⟨_, hinv, fun c value hc => ?_, fun c hc => ?_⟩
    · split_ifs at hc
      · exact hm.blocks c value hc
      · rcases eq_or_ne c cookie with rfl | hne
        · obtain rfl : msg = value := by simpa using hc
          exact hblock
        · exact hm.blocks c value (by rwa [Function.update_of_ne hne] at hc)
    · have hold := hm.own c (sent ▸ hc)
      simp only [hflight]
      rcases eq_or_ne c cookie with rfl | hne
      · by_cases hrefuses : refuses granted k.table = true
        · simp [hrefuses, habsent]
        · simp [hrefuses, hnew]
      · rw [Function.update_of_ne hne]
        by_cases hrefuses : refuses granted k.table = true
        · simp [hrefuses, hold, hne]
        · simp [hrefuses, hold, hne]
  · intro c hc
    simp only [hflight]
    rcases eq_or_ne c cookie with rfl | hne
    · simp
    · rw [Function.update_of_ne hne]
      apply h.refused
      split_ifs at hc
      · simpa [hne] using hc
      · exact hc
  · intro u x c hu
    rw [phases] at hu
    have hlooking := (of_setPhase rfl hu).2
    have hne : c ≠ cookie := by
      rintro rfl
      rw [h.sound.messages.found u x c hlooking] at hnone
      exact absurd hnone (by simp)
    have hout := h.looking u x c hlooking
    split_ifs
    · simp [hout, hne]
    · exact hout

theorem Books.reply (h : Books k) {result : BitVec 64} (idle : k.channel.phase t = .idle)
    (exclusive : ∀ u x, (k.channel.phase u).looking ≠ some (x, cookie))
    (own : cookie ∈ k.channel.sent.map Sent.cookie ∨ hashTableLookup k.table cookie = 0) :
    Books (replyLookup k t cookie result) := by
  obtain ⟨m, hm⟩ := h.table
  simp only [replyLookup]
  split_ifs with hzero
  · exact h.setPhase (h.sound.return idle rfl rfl) rfl rfl rfl rfl rfl
  · -- what the table has under a cookie of this channel is in flight
    have hsent := own.resolve_right hzero
    have hout : cookie ∉ k.refused := by
      intro hrefused
      apply hzero
      rw [hm.lookup_zero, hm.own cookie hsent, if_pos hrefused]
    have hflight := hm.own cookie hsent
    rw [if_neg hout] at hflight
    obtain ⟨msg, hmsg⟩ := Option.ne_none_iff_exists'.mp (mt hm.lookup_zero.mpr hzero)
    have hfound : hashTableLookup k.table cookie = msg := by
      rw [hm.lookup, hmsg]
      rfl
    have hsound : Sound (IpcChannel.replyLookup k.channel t cookie result) :=
      h.sound.reply idle exclusive
    rw [IpcChannel.replyLookup, ← hflight, hmsg] at hsound
    rw [hfound]
    refine h.still hsound rfl rfl ?_ ?_
    · exact fun u x hu => (of_setPhase rfl hu).2
    · intro u x c hu
      have hothers : ∀ u x, u ≠ t → (k.channel.phase u).looking ≠ some (x, cookie) :=
        fun u x _ => exclusive u x
      rcases of_setPhase_new (rfl : (Phase.found msg cookie result).looking = some (msg, cookie))
        hothers hu with ⟨-, -, rfl⟩ | ⟨-, hu'⟩
      · exact hout
      · exact h.looking u x c hu'

theorem Books.remove (h : Books k) {result value : BitVec 64} {table : HashTable}
    (phase : k.channel.phase t = .found msg cookie result)
    (removes : hashTableRemove k.table cookie = some (value, table)) :
    Books { k with channel := replyRemove k.channel t msg cookie result, table := table } := by
  obtain ⟨m, hm⟩ := h.table
  have hlooking : (k.channel.phase t).looking = some (msg, cookie) := by
    rw [phase]
    rfl
  have hout := h.looking t msg cookie hlooking
  obtain ⟨table', hremoved, hinv⟩ := hm.inv.remove_any cookie
  rw [hremoved] at removes
  obtain ⟨-, rfl⟩ := Prod.mk.inj (Option.some.inj removes)
  have hflight : (replyRemove k.channel t msg cookie result).inFlight =
      Function.update k.channel.inFlight cookie none := rfl
  constructor
  · exact h.sound.remove phase
  · exact h.nonzero
  · exact fun u x hu => h.blocks u x (of_setPhase rfl hu).2
  · refine ⟨_, hinv, fun c x hc => ?_, fun c hc => ?_⟩
    · have hne : c ≠ cookie := by
        rintro rfl
        simp at hc
      exact hm.blocks c x (by rwa [Function.update_of_ne hne] at hc)
    · simp only [hflight]
      rcases eq_or_ne c cookie with rfl | hne
      · simp
      · rw [Function.update_of_ne hne, Function.update_of_ne hne]
        exact hm.own c hc
  · intro c hc
    have hne : c ≠ cookie := ne_of_mem_of_not_mem hc hout
    simp only [hflight, Function.update_of_ne hne]
    exact h.refused c hc
  · exact fun u x c hu => h.looking u x c (of_setPhase rfl hu).2

omit [DecidableEq T] in
/-- A call on another channel changes the table at cookies that are none of this one's. -/
theorem Books.other (h : Books k) {m m' : BitVec 64 → Option (BitVec 64)} {key : BitVec 64}
    (agrees : Agrees k m) (other : key ∉ k.channel.sent.map Sent.cookie) {table : HashTable}
    (inv : HashTables.Inv table m') (blocks : ∀ value, m' key = some value → value ≠ 0)
    (others : ∀ c ≠ key, m' c = m c) : Books { k with table := table } := by
  refine ⟨h.sound, h.nonzero, h.blocks, ⟨m', inv, fun c value hc => ?_, fun c hc => ?_⟩,
    h.refused, h.looking⟩
  · rcases eq_or_ne c key with rfl | hne
    · exact blocks value hc
    · exact agrees.blocks c value ((others c hne).symm.trans hc)
  · rw [others c (ne_of_mem_of_not_mem hc other)]
    exact agrees.own c hc

omit [DecidableEq T] in
theorem Books.otherInsert (h : Books k) {key value : BitVec 64} (granted : Bool)
    (other : key ∉ k.channel.sent.map Sent.cookie) (block : value ≠ 0) :
    Books { k with table := (HashTables.hashTableInsert granted k.table key value).2 } := by
  obtain ⟨m, hm⟩ := h.table
  rcases hm.inv.insert_any granted key value with ⟨-, -, -, hinv⟩ | ⟨-, hinv⟩
  · refine h.other hm other hinv ?_ (fun c hne => Function.update_of_ne hne _ _)
    intro x hx
    obtain rfl : value = x := by simpa using hx
    exact block
  · exact h.other hm other hinv (hm.blocks key) (fun c hne => rfl)

omit [DecidableEq T] in
theorem Books.otherRemove (h : Books k) {key value : BitVec 64} {table : HashTable}
    (other : key ∉ k.channel.sent.map Sent.cookie)
    (removes : hashTableRemove k.table key = some (value, table)) :
    Books { k with table := table } := by
  obtain ⟨m, hm⟩ := h.table
  obtain ⟨table', hremoved, hinv⟩ := hm.inv.remove_any key
  rw [hremoved] at removes
  obtain ⟨-, rfl⟩ := Prod.mk.inj (Option.some.inj removes)
  exact h.other hm other hinv (fun x hx => absurd hx (by simp))
    (fun c hne => Function.update_of_ne hne _ _)

/-- The sections that leave the table alone. -/
theorem Books.outside (h : Books k) {a : IpcChannel.Act T} {channel : State T}
    (exclusive : ChannelDelivery.Exclusive k.channel a) (outside : Outside k.table a)
    (step : IpcChannel.Step k.channel a channel) : Books { k with channel := channel } := by
  have hsound : Sound channel := h.sound.step exclusive step
  cases step with
  | @send t tag size buffer block cookie phys idle fresh nonzero distinct =>
    obtain ⟨hblock, habsent⟩ := outside
    unfold sendPublish at hsound ⊢
    split_ifs at hsound ⊢ with haligned hsize
    · exact h.setPhase hsound rfl rfl rfl rfl rfl
    · cases block with
      | none => exact h.setPhase hsound rfl rfl rfl rfl rfl
      | some msg =>
        refine h.publish hsound rfl rfl rfl (fun hzero => hblock ?_) nonzero habsent
        rw [hzero]
    · exact h.setPhase hsound rfl rfl rfl rfl rfl
  | @wake t msg phase unlocked =>
    have hwaiting : (sendWake k.channel t msg).phase =
        (k.channel.setPhase t (.sendWaiting msg)).phase := by
      unfold sendWake
      cases k.channel.receivers <;> rfl
    have hsame : (Phase.sendWaiting msg).sending = (k.channel.phase t).sending := by
      rw [phase]
      rfl
    refine h.still hsound ?_ ?_ ?_ ?_
    · unfold sendWake
      cases k.channel.receivers <;> rfl
    · unfold sendWake
      cases k.channel.receivers <;> rfl
    · intro u x hu
      rw [hwaiting] at hu
      exact (setPhase_same hsame u).symm.trans hu
    · intro u x c hu
      rw [hwaiting] at hu
      exact h.looking u x c (of_setPhase rfl hu).2
  | sendReturn phase awake => exact h.setPhase hsound rfl rfl rfl rfl rfl
  | join phase => exact h.setPhase hsound rfl rfl rfl rfl rfl
  | unblock phase => exact h.setPhase hsound rfl rfl rfl rfl rfl
  | recv args idle unlocked => exact outside.elim
  | recvResume phase awake => exact outside.elim
  | reply cookie result idle => exact outside.elim
  | remove phase => exact outside.elim

end Steps

/-! ## Runs -/

section Runs

variable {k k' : Ipc T}

theorem recvCheck_channel (k : Ipc T) (t : T) (args : RecvArgs) (granted : Bool) :
    (recvCheck k t args granted).channel = IpcChannel.recvCheck k.channel t args := by
  unfold recvCheck IpcChannel.recvCheck
  split_ifs
  · cases k.channel.queue <;> rfl
  · rfl

theorem recvResume_channel (k : Ipc T) (t : T) (args : RecvArgs) (granted : Bool) :
    (recvResume k t args granted).channel = IpcChannel.recvResume k.channel t args := by
  unfold recvResume IpcChannel.recvResume
  cases k.channel.queue <;> rfl

theorem Books.recv (h : Books k) {t : T} (args : RecvArgs) (granted : Bool)
    (sound : Sound (IpcChannel.recvCheck k.channel t args)) :
    Books (recvCheck k t args granted) := by
  rw [← recvCheck_channel k t args granted] at sound
  unfold recvCheck at sound ⊢
  split_ifs at sound ⊢ with haligned
  · cases hq : k.channel.queue with
    | nil =>
      rw [hq] at sound
      exact h.setPhase sound rfl rfl rfl rfl rfl
    | cons msg rest =>
      rw [hq] at sound
      exact h.deliver hq granted sound rfl rfl rfl
  · exact h.setPhase sound rfl rfl rfl rfl rfl

theorem Books.recvResume (h : Books k) {t : T} (args : RecvArgs) (granted : Bool)
    (sound : Sound (IpcChannel.recvResume k.channel t args)) :
    Books (recvResume k t args granted) := by
  rw [← recvResume_channel k t args granted] at sound
  unfold InFlightTable.recvResume at sound ⊢
  cases hq : k.channel.queue with
  | nil =>
    rw [hq] at sound
    exact h.setPhase sound rfl rfl rfl rfl rfl
  | cons msg rest =>
    rw [hq] at sound
    exact h.deliver hq granted sound rfl rfl rfl

theorem Books.step (h : Books k) {a : Act T} (exclusive : Exclusive k a) (step : Step k a k') :
    Books k' := by
  cases step with
  | outside granted outside step => exact h.outside exclusive outside step
  | recv args granted idle unlocked => exact h.recv args granted (h.sound.recv args idle unlocked)
  | recvResume granted phase awake =>
    exact h.recvResume _ granted (h.sound.recvResume phase awake)
  | reply cookie result granted idle own => exact h.reply idle exclusive own
  | remove granted phase removes => exact h.remove phase removes
  | otherInsert granted other block => exact h.otherInsert granted other block
  | otherRemove other removes => exact h.otherRemove other removes

omit [DecidableEq T] in
theorem Books.initial (h : Initial k) : Books k := by
  constructor
  · exact Sound.initial h.channel
  · simp [h.channel.sent]
  · simp [h.channel.phase, Phase.sending]
  · refine ⟨fun _ => none, HashTables.create_inv h.table, ?_, ?_⟩
    · simp
    · simp [h.channel.sent]
  · simp [h.refused]
  · simp [h.refused]

/-- In every run without overlapping replies to one message, whatever the allocator answers. -/
theorem reachable_books (run : Reachable ((calls T).restrict Exclusive) k) : Books k := by
  refine run.invariant Books (fun _ hinit => Books.initial hinit) ?_
  rintro k a k' hbooks ⟨hexclusive, hstep⟩
  exact hbooks.step hexclusive hstep

end Runs

/-! ## Where the messages are -/

/-- The message is in the queue, or in the table under its cookie. -/
def Kept (k : Ipc T) (cookie msg : BitVec 64) : Prop :=
  msg ∈ k.channel.queue ∨ hashTableLookup k.table cookie = msg

/-- The two paths on which `ipc_channel_recv` takes the first message. -/
inductive Takes (k : Ipc T) (granted : Bool) : Ipc T → Prop
  | fastPath (t : T) {args : RecvArgs} (aligned : pageAligned args.buffer) :
      Takes k granted (recvCheck k t args granted)
  | slowPath (t : T) (args : RecvArgs) : Takes k granted (recvResume k t args granted)

/-- The last call that returned is a `recv`, with this cookie. -/
def Returned (k : Ipc T) (cookie : BitVec 64) : Prop :=
  ∃ args result, k.channel.returns.getLast? = some (.recv args (some result)) ∧
    result.cookie = cookie

section Results

variable {k k' : Ipc T} {m : BitVec 64 → Option (BitVec 64)} {granted : Bool} {msg : BitVec 64}
  {rest : List (BitVec 64)}

theorem Takes.delivers (takes : Takes k granted k') (queue : k.channel.queue = msg :: rest) :
    k'.channel.queue = rest ∧ Returned k' (k.channel.message msg).cookie ∧
      k'.table =
        (HashTables.hashTableInsert granted k.table (k.channel.message msg).cookie msg).2 := by
  cases takes with
  | fastPath t aligned =>
    simp only [recvCheck, aligned, not_true, if_false, queue]
    refine ⟨rfl, ⟨_, _, List.getLast?_concat, rfl⟩, rfl⟩
  | slowPath t args =>
    simp only [recvResume, queue]
    refine ⟨rfl, ⟨_, _, List.getLast?_concat, rfl⟩, rfl⟩

/-- Whatever the state of the channel, and whatever else is in the table. -/
theorem Takes.kept_iff (takes : Takes k granted k') (inv : HashTables.Inv k.table m)
    (queue : k.channel.queue = msg :: rest) (block : msg ≠ 0) :
    Kept k' (k.channel.message msg).cookie msg ↔
      msg ∈ rest ∨ m (k.channel.message msg).cookie = some msg ∨
        ((k.channel.message msg).cookie ≠ 0 ∧ m (k.channel.message msg).cookie = none ∧
          refuses granted k.table = false) := by
  obtain ⟨hqueue, -, htable⟩ := takes.delivers queue
  rw [Kept, hqueue, htable, lookup_insert_iff inv granted block]

omit [DecidableEq T] in
/-- In a run the cookie of a queued message is new to the table. -/
theorem Books.absent (h : Books k) (agrees : Agrees k m) (queued : msg ∈ k.channel.queue) :
    (k.channel.message msg).cookie ≠ 0 ∧ m (k.channel.message msg).cookie = none := by
  obtain ⟨-, hsent, hnone⟩ := h.queued queued
  refine ⟨h.nonzero _ hsent, ?_⟩
  rw [agrees.own _ hsent, hnone, ite_self]

theorem Books.kept_iff (h : Books k) (takes : Takes k granted k')
    (queue : k.channel.queue = msg :: rest) :
    Kept k' (k.channel.message msg).cookie msg ↔ refuses granted k.table = false := by
  obtain ⟨m, hm⟩ := h.table
  have hmem : msg ∈ k.channel.queue := queue ▸ List.mem_cons_self
  obtain ⟨hnonzero, hnone⟩ := h.absent hm hmem
  have honce : msg ∉ rest := by
    have hnodup := h.sound.log.distinct
    rw [h.sound.log.order, queue] at hnodup
    have hqueue := List.Nodup.of_map _ (List.nodup_append.mp hnodup).2.1
    exact (List.nodup_cons.mp hqueue).1
  rw [takes.kept_iff hm.inv queue (h.queued hmem).1]
  constructor
  · rintro (hrest | hthere | ⟨-, -, hroom⟩)
    · exact absurd hrest honce
    · rw [hnone] at hthere
      exact absurd hthere (by simp)
    · exact hroom
  · exact fun hroom => Or.inr (Or.inr ⟨hnonzero, hnone, hroom⟩)

omit [DecidableEq T] in
/-- A sender waits for a message that nobody can find exactly when one was refused. -/
theorem Books.found_iff (h : Books k) :
    (∀ t msg, Waits k.channel t msg →
      Kept k (k.channel.message msg).cookie msg ∨ IsAnswered k.channel msg) ↔
      k.refused = [] := by
  obtain ⟨m, hm⟩ := h.table
  constructor
  · intro hfound
    by_contra hne
    obtain ⟨c, hc⟩ := List.exists_mem_of_ne_nil _ hne
    obtain ⟨msg, hflight⟩ := Option.ne_none_iff_exists'.mp (h.refused c hc)
    obtain ⟨hlive, rfl, hmoved⟩ := h.sound.messages.flight c msg hflight
    have hlost : hashTableLookup k.table (k.channel.message msg).cookie = 0 := by
      rw [hm.lookup_zero, hm.own _ (h.sent_of_inFlight (h.refused _ hc)), if_pos hc]
    rcases hfound _ msg hlive with (hqueued | hlookup) | ⟨u, hu⟩
    · exact h.sound.log.not_moved hqueued hmoved
    · exact h.blocks _ msg hlive.1 (hlookup.symm.trans hlost)
    · have hgone := (h.sound.messages.removed u msg _ hu).2.2.2
      rw [hflight] at hgone
      exact absurd hgone (by simp)
  · intro hnone t msg hwaits
    rcases h.sound.messages.located t msg hwaits.1 hwaits.2 with hqueued | hflight | hanswered
    · exact Or.inl (Or.inl hqueued)
    · refine Or.inl (Or.inr ?_)
      have hsent : k.channel.inFlight (k.channel.message msg).cookie ≠ none := by simp [hflight]
      rw [hm.lookup, hm.own _ (h.sent_of_inFlight hsent), hnone, if_neg (by simp), hflight]
      rfl
    · exact Or.inr hanswered

/-- What becomes of a message that `recv` takes: in every state of the channel it is found under
its cookie if that is a new one and the table gets the room it needs. In a run without
overlapping replies the cookie always is, and every sender that waits has its message in the
queue, in the table or with a reply as long as the table was never refused its growth. -/
theorem received_message_kept_iff (T : Type) [DecidableEq T] :
    (∀ (k k' : Ipc T) (m : BitVec 64 → Option (BitVec 64)) (granted : Bool) (msg : BitVec 64)
      (rest : List (BitVec 64)), HashTables.Inv k.table m → k.channel.queue = msg :: rest →
      msg ≠ 0 → Takes k granted k' →
      k'.channel.queue = rest ∧ Returned k' (k.channel.message msg).cookie ∧
      (Kept k' (k.channel.message msg).cookie msg ↔
        msg ∈ rest ∨ m (k.channel.message msg).cookie = some msg ∨
          ((k.channel.message msg).cookie ≠ 0 ∧ m (k.channel.message msg).cookie = none ∧
            refuses granted k.table = false))) ∧
    (∀ k : Ipc T, Reachable ((calls T).restrict Exclusive) k →
      (∀ k' granted msg rest, k.channel.queue = msg :: rest → Takes k granted k' →
        (Kept k' (k.channel.message msg).cookie msg ↔ refuses granted k.table = false)) ∧
      ((∀ t msg, Waits k.channel t msg →
        Kept k (k.channel.message msg).cookie msg ∨ IsAnswered k.channel msg) ↔
        k.refused = [])) := by
  constructor
  · intro k k' m granted msg rest inv queue block takes
    obtain ⟨hqueue, hreturned, -⟩ := takes.delivers queue
    exact ⟨hqueue, hreturned, takes.kept_iff inv queue block⟩
  · intro k run
    have hbooks := reachable_books run
    constructor
    · exact fun k' granted msg rest queue takes => hbooks.kept_iff takes queue
    · exact hbooks.found_iff

end Results

/-! ## A table that is full -/

/-- A new table, and a message of the first task in the queue. -/
def waiting : Ipc (Fin 3) where
  channel := sendPublish created firstTask 5 16 0x2000 (some 0x1000) 0xffff 0x9000
  table := { capacity := 256, size := 0, entries := fun _ => HashTables.emptyEntry }
  refused := []

def secondReceives : RecvArgs := { tag := true, bufferSize := true, buffer := 0x3000 }

theorem reachable_waiting : Reachable ((calls (Fin 3)).restrict Exclusive) waiting := by
  have hstart : Reachable ((calls (Fin 3)).restrict Exclusive)
      { waiting with channel := created } :=
    .start ⟨⟨rfl, rfl, rfl, rfl, rfl, rfl, rfl, rfl, rfl, rfl⟩, rfl, rfl⟩
  have hsend : IpcChannel.Step created
      (.send firstTask 5 16 0x2000 (some 0x1000) 0xffff 0x9000) waiting.channel :=
    .send 5 16 0x2000 0x9000 rfl (by simp [created, Phase.sending]) (by decide)
      (by simp [created])
  have hstep : Step { waiting with channel := created }
      (.own (.send firstTask 5 16 0x2000 (some 0x1000) 0xffff 0x9000) true) waiting :=
    .outside true ⟨by decide, by decide⟩ hsend
  refine hstart.next ⟨?_, hstep⟩
  trivial

theorem received_message_kept_iff_waiting :
    Returned (recvCheck waiting secondTask secondReceives true) 0xffff ∧
      Kept (recvCheck waiting secondTask secondReceives true) 0xffff 0x1000 ∧
      Waits waiting.channel firstTask 0x1000 ∧ Kept waiting 0xffff 0x1000 := by
  have htakes : Takes waiting true (recvCheck waiting secondTask secondReceives true) :=
    .fastPath secondTask (by decide)
  obtain ⟨hany, hrun⟩ := received_message_kept_iff (Fin 3)
  have hempty : HashTables.Inv waiting.table fun _ => none :=
    @HashTables.create_inv _ true true true 1 rfl
  obtain ⟨-, hreturned, -⟩ := hany _ _ _ _ 0x1000 [] hempty rfl (by decide) htakes
  obtain ⟨hkept, hfound⟩ := hrun _ reachable_waiting
  have hnobody : ∀ t, (waiting.channel.phase t).removing ≠ some (0x1000, 0xffff) := by decide
  refine ⟨hreturned, (hkept _ _ _ _ rfl htakes).mpr (by decide), by decide, ?_⟩
  rcases hfound.mpr rfl firstTask 0x1000 (by decide) with hkept | ⟨t, ht⟩
  · exact hkept
  · exact absurd ht (hnobody t)

/-- The other channels fill the table. -/
theorem fill {k : Ipc T} (run : Reachable ((calls T).restrict Exclusive) k)
    {m : BitVec 64 → Option (BitVec 64)} (inv : HashTables.Inv k.table m)
    (absent : ∀ key : BitVec 64, k.table.size < key.toNat → m key = none) (turns : Nat)
    (room : k.table.size + turns = k.table.capacity * 3 / 4)
    (above : ∀ c ∈ k.channel.sent.map Sent.cookie, k.table.capacity * 3 / 4 < c.toNat) :
    ∃ k', Reachable ((calls T).restrict Exclusive) k' ∧ k'.channel = k.channel ∧
      resizeNeeded k'.table = true := by
  induction turns generalizing k m with
  | zero =>
    refine ⟨k, run, rfl, ?_⟩
    rw [resizeNeeded, decide_eq_true]
    omega
  | succ turns ih =>
    obtain ⟨hnat, ht, hinsert, hsize, hcap, m', hinv, habsent⟩ :=
      HashTables.insert_next 1 inv absent (by omega)
    have hroom : ¬ resizeNeeded k.table = true := by
      rw [resizeNeeded, decide_eq_true_iff]
      omega
    have hcall : (HashTables.hashTableInsert true k.table (BitVec.ofNat 64 (k.table.size + 1))
        1).2 = ht := by
      rw [HashTables.hashTableInsert, if_neg hroom, hinsert]
    have hother : BitVec.ofNat 64 (k.table.size + 1) ∉ k.channel.sent.map Sent.cookie := by
      intro hmem
      have hlarge := above _ hmem
      omega
    have hstep : Step k (.insert (BitVec.ofNat 64 (k.table.size + 1)) 1 true)
        { k with table := ht } := by
      rw [← hcall]
      exact .otherInsert true hother (by decide)
    have hnext : Reachable ((calls T).restrict Exclusive) { k with table := ht } := by
      refine run.next ⟨?_, hstep⟩
      trivial
    have hleft : ht.size + turns = ht.capacity * 3 / 4 := by
      rw [hsize, hcap]
      omega
    exact @ih { k with table := ht } hnext m' hinv habsent hleft (hcap ▸ above)

/-- A message is taken off the queue while the table is full and not given more room: its cookie
is returned, and nothing is found under it. -/
theorem received_message_is_lost :
    ¬ ∀ (k k' : Ipc (Fin 3)) (granted : Bool), Reachable ((calls (Fin 3)).restrict Exclusive) k →
      Step k (.own (.recv secondTask secondReceives) granted) k' →
      ∀ msg rest, k.channel.queue = msg :: rest →
        Kept k' (k.channel.message msg).cookie msg := by
  intro hkept
  have hempty : HashTables.Inv waiting.table fun _ => none :=
    @HashTables.create_inv _ true true true 1 rfl
  have hleft : waiting.table.size + 192 = waiting.table.capacity * 3 / 4 := by decide
  have habove : ∀ c ∈ waiting.channel.sent.map Sent.cookie,
      waiting.table.capacity * 3 / 4 < c.toNat := by
    intro c hc
    rw [List.mem_singleton.mp hc]
    decide
  obtain ⟨k, hrun, hchannel, hneeded⟩ :=
    fill reachable_waiting hempty (fun _ _ => rfl) 192 hleft habove
  have hqueue : k.channel.queue = [0x1000] := congrArg State.queue hchannel
  have hidle : k.channel.phase secondTask = .idle := congrArg (State.phase · secondTask) hchannel
  have hunlocked : k.channel.receiversLock = none := congrArg State.receiversLock hchannel
  have hstep := hkept k _ false hrun (.recv secondReceives false hidle (fun _ => hunlocked)) _ _
    hqueue
  have hrefuses : refuses false k.table = true := by
    rw [refuses, hneeded]
    rfl
  have htakes : Takes k false (recvCheck k secondTask secondReceives false) :=
    .fastPath secondTask (by decide)
  have hroom := ((reachable_books hrun).kept_iff htakes hqueue).mp hstep
  rw [hrefuses] at hroom
  exact absurd hroom (by decide)

end InFlightTable
