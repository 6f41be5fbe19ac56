import AnosKernel.Lib.Runs
import Mathlib.Logic.Function.Basic
import Mathlib.Data.List.Nodup
import Mathlib.Data.BitVec

/-!
# Sending, receiving and replying on a channel

`ipc_channel_send`, `ipc_channel_recv` and `ipc_channel_reply` of `kernel/ipc/channel.c` on
one channel that is not destroyed, by any number of tasks. A step of the system is one section
under locks of one call, with the code that follows it up to the next section, so the state
between two steps is what another task can find.

A task is in at most one call at a time and its phase says how far it got. Blocking is a wait
for an entry on a run queue: `sched_unblock` adds one and resuming uses one up, also when the
task was unblocked before it had blocked.
-/

namespace IpcChannel

open Runs

structure IpcMessage (T : Type) where
  cookie : BitVec 64
  tag : BitVec 64
  argBufSize : BitVec 64
  argBufPhys : BitVec 64
  waiter : T
  reply : BitVec 64
  handled : Bool

/-- The arguments of `ipc_channel_recv`; of the two pointers only whether they are null. -/
structure RecvArgs where
  tag : Bool
  bufferSize : Bool
  buffer : BitVec 64
  deriving DecidableEq, Repr

/-- A message cookie with what was written through the pointers, and the page that was mapped
at the buffer. -/
structure RecvResult where
  cookie : BitVec 64
  tag : Option (BitVec 64)
  bufferSize : Option (BitVec 64)
  mapped : Option (BitVec 64 × BitVec 64)
  deriving DecidableEq, Repr

inductive Phase
  | idle
  /-- In `send`: the message is queued, the receivers have not been looked at. -/
  | published (msg : BitVec 64)
  | sendWaiting (msg : BitVec 64)
  /-- In `recv`: the queue was empty and the lock on the receivers is held. -/
  | checked (args : RecvArgs)
  | recvWaiting (args : RecvArgs)
  /-- In `reply`: the message was looked up. -/
  | found (msg cookie result : BitVec 64)
  /-- In `reply`: the message is out of the table, its waiter not yet unblocked. -/
  | removed (msg cookie result : BitVec 64)
  deriving DecidableEq, Repr

/-- What calls have returned; a `recv` without a message returns zero. -/
inductive Return
  | send (reply : BitVec 64) (unmapped : Option (BitVec 64))
  | recv (args : RecvArgs) (result : Option RecvResult)
  | reply (cookie value : BitVec 64)
  deriving DecidableEq, Repr

def Return.received : Return → Option RecvResult
  | .recv _ result => result
  | _ => none

/-- The cookie, when a reply returned it and not zero. -/
def Return.replied : Return → Option (BitVec 64)
  | .reply cookie value => if value = 0#64 then none else some cookie
  | _ => none

@[simp] theorem received_recv (args : RecvArgs) (result : Option RecvResult) :
    (Return.recv args result).received = result := rfl

@[simp] theorem received_reply (cookie value : BitVec 64) :
    (Return.reply cookie value).received = none := rfl

@[simp] theorem replied_recv (args : RecvArgs) (result : Option RecvResult) :
    (Return.recv args result).replied = none := rfl

/-- A message as its sender gave it. -/
structure Sent where
  cookie : BitVec 64
  tag : BitVec 64
  size : BitVec 64
  deriving DecidableEq, Repr

/-- The channel, the message blocks, the table of messages in flight and the tasks; the last
four fields only record what has happened. -/
structure State (T : Type) where
  queue : List (BitVec 64)
  receivers : List T
  receiversLock : Option T
  message : BitVec 64 → IpcMessage T
  inFlight : BitVec 64 → Option (BitVec 64)
  phase : T → Phase
  wakes : T → Nat
  sent : List Sent
  moved : List (BitVec 64)
  unblocked : List (BitVec 64)
  returns : List Return

section Sections

variable {T : Type} [DecidableEq T]

def State.setPhase (s : State T) (t : T) (phase : Phase) : State T :=
  { s with phase := Function.update s.phase t phase }

def State.return (s : State T) (t : T) (r : Return) : State T :=
  { s.setPhase t .idle with returns := s.returns ++ [r] }

def schedUnblock (s : State T) (t : T) : State T :=
  { s with wakes := Function.update s.wakes t (s.wakes t + 1) }

/-- Being scheduled again: one entry of the run queues is used up. -/
def State.resume (s : State T) (t : T) : State T :=
  { s with wakes := Function.update s.wakes t (s.wakes t - 1) }

/-- A key that is present already is left as it is. -/
def hashTableInsert (table : BitVec 64 → Option (BitVec 64)) (key value : BitVec 64) :
    BitVec 64 → Option (BitVec 64) :=
  if (table key).isSome then table else Function.update table key (some value)

def hashTableRemove (table : BitVec 64 → Option (BitVec 64)) (key : BitVec 64) :
    BitVec 64 → Option (BitVec 64) :=
  Function.update table key none

def vmPageSize : BitVec 64 := 0x1000

def pageAligned (buffer : BitVec 64) : Bool := buffer &&& 0xfff == 0

def initMessage (tag size cookie phys : BitVec 64) (currentTask : T) : IpcMessage T where
  cookie := cookie
  tag := tag
  argBufSize := if size > vmPageSize then vmPageSize else size
  argBufPhys := phys
  waiter := currentTask
  reply := 0
  handled := false

/-- `ipc_channel_send` up to its queue section. `block` is the answer of `slab_alloc_block`,
`cookie` that of `capability_cookie_generate` and `phys` that of `vmm_virt_to_phys_page`. -/
def sendPublish (s : State T) (t : T) (tag size buffer : BitVec 64) (block : Option (BitVec 64))
    (cookie phys : BitVec 64) : State T :=
  if ¬ pageAligned buffer then s.return t (.send 0 none)
  else if size > vmPageSize then s.return t (.send 0 none)
  else
    match block with
    | none => s.return t (.send 0 none)
    | some msg =>
      { s.setPhase t (.published msg) with
        message := Function.update s.message msg (initMessage tag size cookie phys t)
        queue := s.queue ++ [msg]
        sent := s.sent ++ [{ cookie := cookie, tag := tag, size := size }] }

/-- The section of `send` that unblocks the first receiver and blocks the sender. -/
def sendWake (s : State T) (t : T) (msg : BitVec 64) : State T :=
  match s.receivers with
  | [] => s.setPhase t (.sendWaiting msg)
  | receiver :: rest =>
    { (schedUnblock s receiver).setPhase t (.sendWaiting msg) with receivers := rest }

/-- `send` once it is resumed; the block of the message is free from here on. -/
def sendReturn (s : State T) (t : T) (msg : BitVec 64) : State T :=
  let phys := (s.message msg).argBufPhys
  (s.resume t).return t (.send (s.message msg).reply (if phys ≠ 0 then some phys else none))

/-- Take the first message from the queue into the table, and return it. -/
def deliver (s : State T) (t : T) (args : RecvArgs) (slowPath : Bool) (msg : BitVec 64)
    (rest : List (BitVec 64)) : State T :=
  let m := s.message msg
  let maps := args.buffer ≠ 0 ∧ m.argBufPhys ≠ 0 ∧ m.argBufSize ≠ 0
  let result : RecvResult :=
    { cookie := m.cookie
      tag := if args.tag then some m.tag else none
      bufferSize := if args.bufferSize then some m.argBufSize else none
      mapped := if maps then some (args.buffer, m.argBufPhys) else none }
  { s.return t (.recv args (some result)) with
    queue := rest
    inFlight := hashTableInsert s.inFlight m.cookie msg
    moved := s.moved ++ [m.cookie]
    message := Function.update s.message msg
      { m with
        handled := slowPath || m.handled
        argBufPhys := if maps then m.argBufPhys else 0 } }

/-- `ipc_channel_recv` up to the check of the queue: the fast path ends here. -/
def recvCheck (s : State T) (t : T) (args : RecvArgs) : State T :=
  if ¬ pageAligned args.buffer then s.return t (.recv args none)
  else
    match s.queue with
    | msg :: rest => deliver s t args false msg rest
    | [] => { s.setPhase t (.checked args) with receiversLock := some t }

/-- Join the receivers, unlock them and block. -/
def recvJoin (s : State T) (t : T) (args : RecvArgs) : State T :=
  { s.setPhase t (.recvWaiting args) with
    receivers := s.receivers ++ [t]
    receiversLock := none }

/-- The slow path once it is resumed. -/
def recvResume (s : State T) (t : T) (args : RecvArgs) : State T :=
  match s.queue with
  | msg :: rest => deliver (s.resume t) t args true msg rest
  | [] => (s.resume t).return t (.recv args none)

def replyLookup (s : State T) (t : T) (cookie result : BitVec 64) : State T :=
  match s.inFlight cookie with
  | none => s.return t (.reply cookie 0)
  | some msg => s.setPhase t (.found msg cookie result)

def replyRemove (s : State T) (t : T) (msg cookie result : BitVec 64) : State T :=
  { s.setPhase t (.removed msg cookie result) with
    inFlight := hashTableRemove s.inFlight cookie
    message := Function.update s.message msg { s.message msg with reply := result } }

def replyUnblock (s : State T) (t : T) (msg cookie : BitVec 64) : State T :=
  { (schedUnblock s (s.message msg).waiter).return t (.reply cookie cookie) with
    unblocked := s.unblocked ++ [cookie] }

end Sections

/-! ## The system -/

/-- The label of a step: which task runs which section of its call. -/
inductive Act (T : Type)
  | send (t : T) (tag size buffer : BitVec 64) (block : Option (BitVec 64)) (cookie phys : BitVec 64)
  | wake (t : T)
  | sendReturn (t : T)
  | recv (t : T) (args : RecvArgs)
  | join (t : T)
  | recvResume (t : T)
  | reply (t : T) (cookie result : BitVec 64)
  | remove (t : T)
  | unblock (t : T)

/-- The message a `send` call is about. -/
def Phase.sending : Phase → Option (BitVec 64)
  | .published msg => some msg
  | .sendWaiting msg => some msg
  | _ => none

/-- The message and cookie of a `reply` call between lookup and removal. -/
def Phase.looking : Phase → Option (BitVec 64 × BitVec 64)
  | .found msg cookie _ => some (msg, cookie)
  | _ => none

/-- The message and cookie of a `reply` call between removal and unblocking. -/
def Phase.removing : Phase → Option (BitVec 64 × BitVec 64)
  | .removed msg cookie _ => some (msg, cookie)
  | _ => none

/-- Between the check of the queue and joining the receivers. -/
def Phase.joining : Phase → Bool
  | .checked _ => true
  | _ => false

/-- Blocked in `recv`, or unblocked and not yet resumed. -/
def Phase.receiving : Phase → Bool
  | .recvWaiting _ => true
  | _ => false

variable {T : Type} [DecidableEq T]

/-- One section of a call, where the task is at that section and the locks are free. A new
message gets a block that no other message occupies and a non-zero cookie of its own. -/
inductive Step (s : State T) : Act T → State T → Prop
  | send {t : T} (tag size buffer : BitVec 64) {block : Option (BitVec 64)} {cookie : BitVec 64}
      (phys : BitVec 64) (idle : s.phase t = .idle)
      (fresh : ∀ msg ∈ block, ∀ t', (s.phase t').sending ≠ some msg)
      (nonzero : cookie ≠ 0) (distinct : cookie ∉ s.sent.map Sent.cookie) :
      Step s (.send t tag size buffer block cookie phys)
        (sendPublish s t tag size buffer block cookie phys)
  | wake {t : T} {msg : BitVec 64} (phase : s.phase t = .published msg)
      (unlocked : s.receiversLock = none) : Step s (.wake t) (sendWake s t msg)
  | sendReturn {t : T} {msg : BitVec 64} (phase : s.phase t = .sendWaiting msg)
      (awake : s.wakes t ≠ 0) : Step s (.sendReturn t) (sendReturn s t msg)
  | recv {t : T} (args : RecvArgs) (idle : s.phase t = .idle)
      (unlocked : pageAligned args.buffer → s.receiversLock = none) :
      Step s (.recv t args) (recvCheck s t args)
  | join {t : T} {args : RecvArgs} (phase : s.phase t = .checked args) :
      Step s (.join t) (recvJoin s t args)
  | recvResume {t : T} {args : RecvArgs} (phase : s.phase t = .recvWaiting args)
      (awake : s.wakes t ≠ 0) : Step s (.recvResume t) (recvResume s t args)
  | reply {t : T} (cookie result : BitVec 64) (idle : s.phase t = .idle) :
      Step s (.reply t cookie result) (replyLookup s t cookie result)
  | remove {t : T} {msg cookie result : BitVec 64} (phase : s.phase t = .found msg cookie result) :
      Step s (.remove t) (replyRemove s t msg cookie result)
  | unblock {t : T} {msg cookie result : BitVec 64}
      (phase : s.phase t = .removed msg cookie result) :
      Step s (.unblock t) (replyUnblock s t msg cookie)

/-- A channel just created, with no call in progress. -/
structure Initial (s : State T) : Prop where
  queue : s.queue = []
  receivers : s.receivers = []
  receiversLock : s.receiversLock = none
  inFlight : s.inFlight = fun _ => none
  phase : s.phase = fun _ => .idle
  wakes : s.wakes = fun _ => 0
  sent : s.sent = []
  moved : s.moved = []
  unblocked : s.unblocked = []
  returns : s.returns = []

def channel (T : Type) [DecidableEq T] : System (State T) (Act T) where
  init := Initial
  step := Step

end IpcChannel
