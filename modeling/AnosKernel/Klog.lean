import AnosKernel.Lib.Rings
import AnosKernel.Lib.Runs
import AnosKernel.Scheduler

/-!
# The kernel log

`kernel/klog.c`: a ring buffer of bytes, written a character or a string at a time, and read by
tasks that block while it is empty. The blocked readers are a list threaded through the `next`
field of the tasks. Each call is one section under the lock of the buffer, but for `klog_read`,
which has a section for each turn of its loop; the states between the steps are those in which the
lock is free. The echo to the framebuffer, a build option, has no part in this.
-/

namespace Klog

open Runs Rings Scheduler

def klogBufferSize : Nat := 64 * 1024

structure KernelLogBuffer where
  buffer : Nat → BitVec 8
  size : Nat
  head : Nat
  tail : Nat
  count : Nat
  droppedMessages : Bool
  waitingReaders : Option (BitVec 64)

/-- Where a task is in `klog_read`: it has put itself on the list of readers, and goes on with
the next turn of the loop when it runs again. -/
inductive Phase
  | outside
  | waiting (maxBytes : Nat)
  deriving DecidableEq, Repr

/-- `returned` is what the calls of `klog_read` have returned so far. -/
structure World where
  klogInitialized : Bool
  klogBuffer : KernelLogBuffer
  sched : Sched
  phase : BitVec 64 → Phase
  returned : List (BitVec 64 × List (BitVec 8))

/-- The buffer after `klog_init`, which got `memory` for its bytes. -/
def initBuffer (memory : Nat → BitVec 8) : KernelLogBuffer where
  buffer := memory
  size := klogBufferSize
  head := 0
  tail := 0
  count := 0
  droppedMessages := false
  waitingReaders := none

/-- `klog_init`; `memory` is null when the blocks cannot be allocated. -/
def klogInit (w : World) (memory : Option (Nat → BitVec 8)) : World :=
  if w.klogInitialized then w
  else
    match memory with
    | none => w
    | some bytes => { w with klogInitialized := true, klogBuffer := initBuffer bytes }

/-- `klog_write_char_internal` on an initialised log. -/
def klogWriteCharInternal (b : KernelLogBuffer) (c : BitVec 8) : KernelLogBuffer :=
  let b :=
    if b.count ≥ b.size then { b with tail := (b.tail + 1) % b.size, droppedMessages := true }
    else { b with count := b.count + 1 }
  { b with buffer := Function.update b.buffer b.head c, head := (b.head + 1) % b.size }

/-- The loop of `klog_write_char` over the waiting readers, `turns` of them at most. -/
def wakeReaders (fuel cpu : Nat) : Nat → Sched → Option (BitVec 64) → Option Sched
  | _, s, none => some s
  | 0, _, some _ => none
  | turns + 1, s, some reader =>
    (schedUnblockOn fuel (s.setNext reader none) reader cpu).bind fun s' =>
      wakeReaders fuel cpu turns s' (s.next reader)

/-- `klog_write_char` on the CPU `cpu`; `none` when it does not return. -/
def klogWriteChar (fuel : Nat) (w : World) (cpu : Nat) (c : BitVec 8) : Option World :=
  if w.klogInitialized then
    let b := klogWriteCharInternal w.klogBuffer c
    (wakeReaders fuel cpu fuel w.sched b.waitingReaders).map fun sched =>
      { w with klogBuffer := { b with waitingReaders := none }, sched := sched }
  else some w

/-- The characters of a string, up to its terminator. -/
def characters (str : List (BitVec 8)) : List (BitVec 8) := str.takeWhile (· != 0)

/-- `klog_write_string`; `str` may be null. -/
def klogWriteString (w : World) (str : Option (List (BitVec 8))) : World :=
  match str with
  | none => w
  | some bytes =>
    if w.klogInitialized then
      { w with klogBuffer := (characters bytes).foldl klogWriteCharInternal w.klogBuffer }
    else w

/-- The inner loop of `klog_read` with `n` bytes to go: the bytes it copies. -/
def readBytes : Nat → KernelLogBuffer → List (BitVec 8) × KernelLogBuffer
  | 0, b => ([], b)
  | n + 1, b =>
    if b.count > 0 then
      let (bytes, rest) := readBytes n
        { b with tail := (b.tail + 1) % b.size, count := b.count - 1 }
      (b.buffer b.tail :: bytes, rest)
    else ([], b)

/-- One turn of the loop of `klog_read` by the task `t`: it returns with bytes, or it joins the
waiting readers. -/
def klogReadTurn (w : World) (t : BitVec 64) (maxBytes : Nat) : World :=
  if w.klogBuffer.count > 0 then
    let (bytes, b) := readBytes maxBytes w.klogBuffer
    { w with
      klogBuffer := b
      phase := Function.update w.phase t .outside
      returned := w.returned ++ [(t, bytes)] }
  else
    { w with
      klogBuffer := { w.klogBuffer with waitingReaders := some t }
      sched := w.sched.setNext t w.klogBuffer.waitingReaders
      phase := Function.update w.phase t (.waiting maxBytes) }

/-- The start of `klog_read`; `hasDest` says that the destination is not null. -/
def klogRead (w : World) (t : BitVec 64) (hasDest : Bool) (maxBytes : Nat) : World :=
  if w.klogInitialized && hasDest && maxBytes != 0 then klogReadTurn w t maxBytes
  else { w with returned := w.returned ++ [(t, [])] }

def klogHasDroppedMessages (w : World) : World :=
  if w.klogInitialized then
    { w with klogBuffer := { w.klogBuffer with droppedMessages := false } }
  else w

def klogClear (w : World) : World :=
  if w.klogInitialized then
    { w with
      klogBuffer := { w.klogBuffer with head := 0, tail := 0, count := 0, droppedMessages := false } }
  else w

/-! ## Runs -/

/-- `reschedule` is everything else that happens to the tasks: `sched_block` and `sched_schedule`
of a reader, and what other parts of the kernel do. -/
inductive Call
  | init (memory : Option (Nat → BitVec 8))
  | writeChar (cpu : Nat) (c : BitVec 8)
  | writeString (str : Option (List (BitVec 8)))
  | read (t : BitVec 64) (hasDest : Bool) (maxBytes : Nat)
  | resume (t : BitVec 64)
  | hasDroppedMessages
  | clear
  | reschedule (sched : Sched)

/-- A task starts `klog_read` outside of it, and goes on with the loop where it waits. -/
def World.exec (fuel : Nat) (w : World) : Call → Option World
  | .init memory => some (klogInit w memory)
  | .writeChar cpu c => klogWriteChar fuel w cpu c
  | .writeString str => some (klogWriteString w str)
  | .read t hasDest maxBytes =>
    match w.phase t with
    | .outside => some (klogRead w t hasDest maxBytes)
    | .waiting _ => none
  | .resume t =>
    match w.phase t with
    | .outside => none
    | .waiting maxBytes => some (klogReadTurn w t maxBytes)
  | .hasDroppedMessages => some (klogHasDroppedMessages w)
  | .clear => some (klogClear w)
  | .reschedule sched => some { w with sched := sched }

/-- The log as the kernel image has it. -/
def World.Fresh (w : World) : Prop :=
  w.klogInitialized = false ∧ w.klogBuffer.count = 0 ∧ w.klogBuffer.waitingReaders = none ∧
    ∀ t, w.phase t = .outside

def klog : System World Call where
  init := World.Fresh
  step := fun w call w' => ∃ fuel, w.exec fuel call = some w'

/-! ## Bytes in the buffer -/

structure KernelLogBuffer.WellFormed (b : KernelLogBuffer) : Prop where
  size_pos : 0 < b.size
  tail_lt : b.tail < b.size
  count_le : b.count ≤ b.size
  head_eq : b.head = slot b.size b.tail b.count

/-- The bytes to read, oldest first. -/
def KernelLogBuffer.contents (b : KernelLogBuffer) : List (BitVec 8) :=
  entries b.buffer b.size b.tail b.count

/-- The last `n` bytes. -/
def keepLast (n : Nat) (bytes : List (BitVec 8)) : List (BitVec 8) := bytes.drop (bytes.length - n)

theorem length_contents (b : KernelLogBuffer) : b.contents.length = b.count := by
  simp [KernelLogBuffer.contents, entries]

theorem initBuffer_wellFormed (memory : Nat → BitVec 8) : (initBuffer memory).WellFormed :=
  ⟨Nat.zero_lt_succ _, Nat.zero_lt_succ _, Nat.zero_le _, rfl⟩

/-- A write appends its byte; the oldest byte goes when there is no room. -/
theorem klogWriteCharInternal_spec {b : KernelLogBuffer} (wf : b.WellFormed) (c : BitVec 8) :
    (klogWriteCharInternal b c).WellFormed ∧
      (klogWriteCharInternal b c).contents = keepLast b.size (b.contents ++ [c]) := by
  obtain ⟨hpos, htail, hcount, hhead⟩ := wf
  have hlen := length_contents b
  by_cases hfull : b.count ≥ b.size
  · have heq : b.count = b.size := Nat.le_antisymm hcount hfull
    obtain ⟨n, hn⟩ : ∃ n, b.size = n + 1 := ⟨b.size - 1, by omega⟩
    have hall : b.count = n + 1 := heq.trans hn
    -- the slot to write is that of the oldest byte, the newest one once the tail has moved on
    have hslot : b.head = slot b.size ((b.tail + 1) % b.size) n := by
      rw [hhead, heq, slot, slot, Nat.mod_add_mod, Nat.add_assoc, Nat.add_comm 1 n, ← hn]
    have hold : b.contents =
        b.buffer b.tail :: entries b.buffer b.size ((b.tail + 1) % b.size) n := by
      rw [KernelLogBuffer.contents, hall, entries_pop, Nat.mod_eq_of_lt htail]
    rw [klogWriteCharInternal, if_pos hfull]
    refine ⟨⟨hpos, Nat.mod_lt _ hpos, hcount, ?_⟩, ?_⟩
    · change (b.head + 1) % b.size = slot b.size ((b.tail + 1) % b.size) b.count
      rw [hslot, heq, slot, slot, Nat.mod_add_mod, Nat.add_assoc, ← hn]
    · change entries (Function.update b.buffer b.head c) b.size ((b.tail + 1) % b.size) b.count = _
      have hlt : n < b.size := by omega
      rw [hall, hslot, entries_push hlt c, keepLast, List.length_append, hlen, heq, hold]
      simp
  · have hroom : b.count < b.size := Nat.lt_of_not_le hfull
    rw [klogWriteCharInternal, if_neg hfull]
    refine ⟨⟨hpos, htail, hroom, ?_⟩, ?_⟩
    · change (b.head + 1) % b.size = slot b.size b.tail (b.count + 1)
      rw [hhead, slot, slot, Nat.mod_add_mod, Nat.add_assoc]
    · change entries (Function.update b.buffer b.head c) b.size b.tail (b.count + 1) = _
      have hfits : b.count + 1 - b.size = 0 := by omega
      rw [hhead, entries_push hroom c, keepLast, List.length_append, hlen, List.length_singleton,
        hfits, List.drop_zero]
      rfl

/-- `klog_read` copies the oldest bytes and leaves the others. -/
theorem readBytes_spec {b : KernelLogBuffer} (wf : b.WellFormed) (n : Nat) :
    (readBytes n b).1 = b.contents.take n ∧ (readBytes n b).2.contents = b.contents.drop n ∧
      (readBytes n b).2.WellFormed := by
  induction n generalizing b with
  | zero => exact ⟨rfl, rfl, wf⟩
  | succ n ih =>
    obtain ⟨hpos, htail, hcount, hhead⟩ := wf
    by_cases hdata : b.count > 0
    · obtain ⟨k, hk⟩ : ∃ k, b.count = k + 1 := ⟨b.count - 1, by omega⟩
      have hless : k ≤ b.size := by omega
      have hpop : b.contents =
          b.buffer b.tail :: entries b.buffer b.size ((b.tail + 1) % b.size) k := by
        rw [KernelLogBuffer.contents, hk, entries_pop, Nat.mod_eq_of_lt htail]
      have hrest : ({ b with tail := (b.tail + 1) % b.size, count := k }
          : KernelLogBuffer).WellFormed := by
        refine ⟨hpos, Nat.mod_lt _ hpos, hless, ?_⟩
        change b.head = slot b.size ((b.tail + 1) % b.size) k
        rw [hhead, hk, slot, slot, Nat.mod_add_mod, Nat.add_assoc, Nat.add_comm 1 k]
      obtain ⟨hbytes, hleft, hwf⟩ := ih hrest
      have hstep : b.count - 1 = k := by omega
      rw [readBytes, if_pos hdata, hstep, hpop]
      exact ⟨congrArg _ hbytes, hleft, hwf⟩
    · have hempty : b.contents = [] := by
        have hlen := length_contents b
        exact List.eq_nil_of_length_eq_zero (by omega)
      rw [readBytes, if_neg hdata, hempty]
      exact ⟨rfl, rfl, hpos, htail, hcount, hhead⟩

/-! ## Readers and data -/

/-- Everything a call can do to `klog_initialized` and the buffer. -/
inductive Changed (w : World) : Call → Bool → KernelLogBuffer → Prop
  | same (call : Call) : Changed w call w.klogInitialized w.klogBuffer
  | started (call : Call) (memory : Nat → BitVec 8) : Changed w call true (initBuffer memory)
  | wrote (call : Call) (c : BitVec 8) : w.klogInitialized = true →
      Changed w call w.klogInitialized
        { klogWriteCharInternal w.klogBuffer c with waitingReaders := none }
  | wroteString (str : List (BitVec 8)) : w.klogInitialized = true →
      Changed w (.writeString (some str)) w.klogInitialized
        ((characters str).foldl klogWriteCharInternal w.klogBuffer)
  | took (call : Call) (n : Nat) : w.klogBuffer.count > 0 →
      Changed w call w.klogInitialized (readBytes n w.klogBuffer).2
  | waits (call : Call) (t : BitVec 64) : w.klogBuffer.count = 0 →
      Changed w call w.klogInitialized { w.klogBuffer with waitingReaders := some t }
  | forgot (call : Call) :
      Changed w call w.klogInitialized { w.klogBuffer with droppedMessages := false }
  | cleared (call : Call) :
      Changed w call w.klogInitialized
        { w.klogBuffer with head := 0, tail := 0, count := 0, droppedMessages := false }

theorem klogReadTurn_changed (w : World) (call : Call) (t : BitVec 64) (n : Nat) :
    Changed w call (klogReadTurn w t n).klogInitialized (klogReadTurn w t n).klogBuffer := by
  unfold klogReadTurn
  split_ifs with hdata
  · exact .took call n hdata
  · exact .waits call t (Nat.eq_zero_of_not_pos hdata)

theorem exec_changed {fuel : Nat} {w w' : World} {call : Call} (h : w.exec fuel call = some w') :
    Changed w call w'.klogInitialized w'.klogBuffer := by
  cases call with
  | init memory =>
    obtain rfl := Option.some.inj h
    unfold klogInit
    split_ifs with hinit
    · exact .same _
    · cases memory with
      | none => exact .same _
      | some memory => exact .started _ memory
  | writeChar cpu c =>
    simp only [World.exec, klogWriteChar] at h
    split_ifs at h with hinit
    · obtain ⟨sched, -, rfl⟩ := Option.map_eq_some_iff.mp h
      exact .wrote _ c hinit
    · obtain rfl := Option.some.inj h
      exact .same _
  | writeString str =>
    obtain rfl := Option.some.inj h
    cases str with
    | none => exact .same _
    | some str =>
      simp only [klogWriteString]
      split_ifs with hinit
      · exact .wroteString str hinit
      · exact .same _
  | read t hasDest maxBytes =>
    simp only [World.exec] at h
    split at h
    · obtain rfl := Option.some.inj h
      unfold klogRead
      split_ifs
      · exact klogReadTurn_changed _ _ _ _
      · exact .same _
    · cases h
  | resume t =>
    simp only [World.exec] at h
    split at h
    · cases h
    · obtain rfl := Option.some.inj h
      exact klogReadTurn_changed _ _ _ _
  | hasDroppedMessages =>
    obtain rfl := Option.some.inj h
    unfold klogHasDroppedMessages
    split_ifs
    · exact .forgot _
    · exact .same _
  | clear =>
    obtain rfl := Option.some.inj h
    unfold klogClear
    split_ifs
    · exact .cleared _
    · exact .same _
  | reschedule sched =>
    obtain rfl := Option.some.inj h
    exact .same _

/-- No reader waits while there is data. -/
def KernelLogBuffer.Served (b : KernelLogBuffer) : Prop := b.waitingReaders ≠ none → b.count = 0

/-- A string that is not empty is written to the log only while no reader waits: the writer does
not wake it. -/
def quiet (w : World) : Call → Prop
  | .writeString (some str) =>
    w.klogInitialized = true → characters str ≠ [] → w.klogBuffer.waitingReaders = none
  | _ => True

theorem klogWriteCharInternal_frame (b : KernelLogBuffer) (c : BitVec 8) :
    (klogWriteCharInternal b c).size = b.size ∧
      (klogWriteCharInternal b c).waitingReaders = b.waitingReaders := by
  unfold klogWriteCharInternal
  split_ifs <;> exact ⟨rfl, rfl⟩

theorem foldl_write_waitingReaders (str : List (BitVec 8)) (b : KernelLogBuffer) :
    (str.foldl klogWriteCharInternal b).waitingReaders = b.waitingReaders := by
  induction str generalizing b with
  | nil => rfl
  | cons c str ih =>
    rw [List.foldl_cons, ih, (klogWriteCharInternal_frame b c).2]

theorem readBytes_waitingReaders (n : Nat) (b : KernelLogBuffer) :
    (readBytes n b).2.waitingReaders = b.waitingReaders := by
  induction n generalizing b with
  | zero => rfl
  | succ n ih =>
    rw [readBytes]
    split_ifs
    · exact ih _
    · rfl

theorem Changed.served {w : World} {call : Call} {init : Bool} {b : KernelLogBuffer}
    (h : Changed w call init b) (guard : quiet w call) (served : w.klogBuffer.Served) :
    b.Served := by
  cases h with
  | same => exact served
  | started _ memory => exact fun hwaits => absurd rfl hwaits
  | wrote _ c hinit => exact fun hwaits => absurd rfl hwaits
  | wroteString str hinit =>
    intro hwaits
    rw [foldl_write_waitingReaders] at hwaits
    -- with a reader waiting the string has nothing to write
    have hempty : characters str = [] := by
      by_contra hne
      exact hwaits (guard hinit hne)
    rw [hempty]
    exact served hwaits
  | took _ n hdata =>
    intro hwaits
    rw [readBytes_waitingReaders] at hwaits
    exact absurd (served hwaits) (Nat.pos_iff_ne_zero.mp hdata)
  | waits _ t hempty => exact fun _ => hempty
  | forgot => exact served
  | cleared => exact fun _ => rfl

/-- The log of the kernel image, on one CPU without queued tasks. -/
def imageWorld : World where
  klogInitialized := false
  klogBuffer := { initBuffer (fun _ => 0) with size := 0 }
  sched :=
    { cpuCount := 1
      cpu := fun _ => ⟨none, none, none, none, 0⟩
      task := fun _ => ⟨none, .running, .normal, 0⟩ }
  phase := fun _ => .outside
  returned := []

/-- Task 1 waits for data. -/
def waitingWorld : World := klogRead (klogInit imageWorld (some fun _ => 0)) 1 true 16

theorem waitingWorld_reachable : Reachable (klog.restrict quiet) waitingWorld := by
  have himage : Reachable (klog.restrict quiet) imageWorld :=
    .start ⟨rfl, rfl, rfl, fun _ => rfl⟩
  have hinit : Reachable (klog.restrict quiet) (klogInit imageWorld (some fun _ => 0)) :=
    himage.next (a := .init (some fun _ => 0)) ⟨trivial, 0, rfl⟩
  exact hinit.next (a := .read 1 true 16) ⟨trivial, 0, rfl⟩

theorem keepLast_append (n : Nat) (xs ys : List (BitVec 8)) :
    keepLast n (keepLast n xs ++ ys) = keepLast n (xs ++ ys) := by
  have hk : xs.length - n ≤ xs.length := Nat.sub_le _ _
  have hmove : keepLast n xs ++ ys = (xs ++ ys).drop (xs.length - n) :=
    (List.drop_append_of_le_length hk).symm
  have hsum : (xs.length - n) + ((keepLast n xs).length + ys.length - n) =
      xs.length + ys.length - n := by
    rw [keepLast, List.length_drop]
    omega
  rw [keepLast, List.length_append, hmove, List.drop_drop, hsum, keepLast, List.length_append]

theorem foldl_write_spec {b : KernelLogBuffer} (wf : b.WellFormed) (str : List (BitVec 8)) :
    (str.foldl klogWriteCharInternal b).WellFormed ∧
      (str.foldl klogWriteCharInternal b).contents = keepLast b.size (b.contents ++ str) := by
  induction str generalizing b with
  | nil =>
    have hall : b.contents.length - b.size = 0 := by
      have hcount := wf.count_le
      rw [length_contents]
      omega
    rw [List.append_nil, keepLast, hall]
    exact ⟨wf, rfl⟩
  | cons c str ih =>
    obtain ⟨hwf, hcontents⟩ := klogWriteCharInternal_spec wf c
    obtain ⟨hwf', hcontents'⟩ := ih hwf
    rw [List.foldl_cons]
    refine ⟨hwf', ?_⟩
    rw [hcontents', hcontents, (klogWriteCharInternal_frame b c).1, keepLast_append,
      List.append_assoc, List.singleton_append]

theorem Changed.wellFormed {w : World} {call : Call} {init : Bool} {b : KernelLogBuffer}
    (h : Changed w call init b) (wf : w.klogInitialized = true → w.klogBuffer.WellFormed) :
    init = true → b.WellFormed := by
  intro hinit
  cases h with
  | same => exact wf hinit
  | started _ memory => exact initBuffer_wellFormed memory
  | wrote _ c =>
    obtain ⟨hpos, htail, hcount, hhead⟩ := (klogWriteCharInternal_spec (wf hinit) c).1
    exact ⟨hpos, htail, hcount, hhead⟩
  | wroteString str => exact (foldl_write_spec (wf hinit) _).1
  | took _ n => exact (readBytes_spec (wf hinit) n).2.2
  | waits =>
    obtain ⟨hpos, htail, hcount, hhead⟩ := wf hinit
    exact ⟨hpos, htail, hcount, hhead⟩
  | forgot =>
    obtain ⟨hpos, htail, hcount, hhead⟩ := wf hinit
    exact ⟨hpos, htail, hcount, hhead⟩
  | cleared => exact ⟨(wf hinit).size_pos, (wf hinit).size_pos, Nat.zero_le _, rfl⟩

/-! ## The log as a history -/

/-- What was written since the log was cleared, and how much of it is behind a reader: the last
byte that `klog_read` returned, and all before it. -/
structure History where
  written : List (BitVec 8)
  passed : Nat
  overwritten : Bool
  phase : BitVec 64 → Phase
  returned : List (BitVec 64 × List (BitVec 8))

def History.unread (h : History) : List (BitVec 8) := h.written.drop h.passed

/-- The unread bytes that a ring of this size has room for. -/
def History.retained (size : Nat) (h : History) : List (BitVec 8) := keepLast size h.unread

/-- A byte is written, over the oldest unread one when there is no room. -/
def History.write (size : Nat) (h : History) (c : BitVec 8) : History :=
  { h with
    written := h.written ++ [c]
    overwritten := h.overwritten || decide (size ≤ h.unread.length) }

/-- A reader gets the oldest bytes, or waits when there are none. -/
def History.answer (size : Nat) (h : History) (t : BitVec 64) (maxBytes : Nat) : History :=
  let bytes := (h.retained size).take maxBytes
  if h.retained size = [] then { h with phase := Function.update h.phase t (.waiting maxBytes) }
  else
    { h with
      passed := h.passed + (h.unread.length - size) + bytes.length
      phase := Function.update h.phase t .outside
      returned := h.returned ++ [(t, bytes)] }

def History.after (size : Nat) (h : History) : Call → History
  | .init _ => h
  | .writeChar _ c => h.write size c
  | .writeString none => h
  | .writeString (some str) => (characters str).foldl (History.write size) h
  | .read t hasDest maxBytes =>
    if hasDest && maxBytes != 0 then h.answer size t maxBytes
    else { h with returned := h.returned ++ [(t, [])] }
  | .resume t =>
    match h.phase t with
    | .outside => h
    | .waiting maxBytes => h.answer size t maxBytes
  | .hasDroppedMessages => { h with overwritten := false }
  | .clear => { h with written := [], passed := 0, overwritten := false }
  | .reschedule _ => h

/-- A ring of some size behind its initialisation. -/
def StartedWith (size : Nat) (w : World) : Prop :=
  0 < size ∧ w.klogInitialized = true ∧
    (∃ memory, w.klogBuffer = { initBuffer memory with size := size }) ∧
    w.phase = (fun _ => .outside) ∧ w.returned = []

/-- The log with its history, which is told from the calls alone. -/
def recorded (size : Nat) : System (World × History) Call where
  init := fun s => StartedWith size s.1 ∧ s.2 = ⟨[], 0, false, fun _ => .outside, []⟩
  step := fun s call s' =>
    (∃ fuel, s.1.exec fuel call = some s'.1) ∧ s'.2 = s.2.after size call

/-- The log is what its history says. -/
structure Tells (size : Nat) (w : World) (h : History) : Prop where
  head : w.klogBuffer.head = (w.klogBuffer.tail + w.klogBuffer.count) % size
  count : w.klogBuffer.count ≤ size
  contents : w.klogBuffer.contents = h.retained size
  dropped : w.klogBuffer.droppedMessages = h.overwritten
  returned : w.returned = h.returned

/-- The buffer agrees with the history. -/
structure Holds (size : Nat) (b : KernelLogBuffer) (h : History) : Prop where
  wellFormed : b.WellFormed
  size_eq : b.size = size
  contents : b.contents = h.retained size
  dropped : b.droppedMessages = h.overwritten
  passed_le : h.passed ≤ h.written.length

section Histories

variable {size : Nat} {b : KernelLogBuffer} {h : History} {w w' : World}

theorem length_keepLast (n : Nat) (bytes : List (BitVec 8)) :
    (keepLast n bytes).length = min n bytes.length := by
  rw [keepLast, List.length_drop]
  omega

theorem keepLast_eq_self {n : Nat} {bytes : List (BitVec 8)} (fits : bytes.length ≤ n) :
    keepLast n bytes = bytes := by
  rw [keepLast, Nat.sub_eq_zero_of_le fits, List.drop_zero]

theorem retained_nothing (size passed : Nat) (overwritten : Bool) (phase : BitVec 64 → Phase)
    (returned : List (BitVec 64 × List (BitVec 8))) :
    (⟨[], passed, overwritten, phase, returned⟩ : History).retained size = [] := by
  simp [History.retained, History.unread, keepLast]

theorem klogWriteCharInternal_dropped (b : KernelLogBuffer) (c : BitVec 8) :
    (klogWriteCharInternal b c).droppedMessages =
      (b.droppedMessages || decide (b.size ≤ b.count)) := by
  unfold klogWriteCharInternal
  split_ifs with hfull
  · simp [hfull]
  · simp [hfull]

theorem readBytes_frame (n : Nat) (b : KernelLogBuffer) : (readBytes n b).2.size = b.size ∧
    (readBytes n b).2.droppedMessages = b.droppedMessages := by
  induction n generalizing b with
  | zero => exact ⟨rfl, rfl⟩
  | succ n ih =>
    rw [readBytes]
    split_ifs
    · exact ih _
    · exact ⟨rfl, rfl⟩

theorem Holds.count_eq (holds : Holds size b h) : b.count = min size h.unread.length := by
  rw [← length_contents, holds.contents, History.retained, length_keepLast]

theorem Holds.write (holds : Holds size b h) (c : BitVec 8) :
    Holds size (klogWriteCharInternal b c) (h.write size c) := by
  obtain ⟨hwf, hcontents⟩ := klogWriteCharInternal_spec holds.wellFormed c
  have hsize := (klogWriteCharInternal_frame b c).1.trans holds.size_eq
  have hunread : (h.write size c).unread = h.unread ++ [c] :=
    List.drop_append_of_le_length holds.passed_le
  refine ⟨hwf, hsize, ?_, ?_, ?_⟩
  · rw [hcontents, holds.contents, holds.size_eq, History.retained, History.retained, hunread,
      keepLast_append]
  · have hfull : size ≤ b.count ↔ size ≤ h.unread.length := by
      rw [holds.count_eq]
      omega
    rw [klogWriteCharInternal_dropped, holds.dropped, holds.size_eq, History.write]
    simp only [hfull]
  · have hle := holds.passed_le
    simp only [History.write, List.length_append, List.length_singleton]
    omega

theorem Holds.writeAll (holds : Holds size b h) (str : List (BitVec 8)) :
    Holds size (str.foldl klogWriteCharInternal b) (str.foldl (History.write size) h) := by
  induction str generalizing b h with
  | nil => exact holds
  | cons c str ih =>
    rw [List.foldl_cons, List.foldl_cons]
    exact ih (holds.write c)

/-- What a writer does to the readers does not concern the bytes. -/
theorem Holds.readers (holds : Holds size b h) (readers : Option (BitVec 64)) :
    Holds size { b with waitingReaders := readers } h := by
  obtain ⟨⟨hpos, htail, hcount, hhead⟩, hsize, hcontents, hdropped, hpassed⟩ := holds
  exact ⟨⟨hpos, htail, hcount, hhead⟩, hsize, hcontents, hdropped, hpassed⟩

/-- A reader that finds data. -/
theorem Holds.read (holds : Holds size b h) (n : Nat) {h' : History}
    (written : h'.written = h.written) (overwritten : h'.overwritten = h.overwritten)
    (passed : h'.passed =
      h.passed + (h.unread.length - size) + ((h.retained size).take n).length) :
    (readBytes n b).1 = (h.retained size).take n ∧ Holds size (readBytes n b).2 h' := by
  obtain ⟨hbytes, hrest, hwf⟩ := readBytes_spec holds.wellFormed n
  obtain ⟨hsize, hdropped⟩ := readBytes_frame n b
  have hlength := length_keepLast size h.unread
  have htaken : ((h.retained size).take n).length = min n (h.retained size).length :=
    List.length_take
  have hretained : (h.retained size).length = min size h.unread.length := hlength
  -- the bytes behind those that were returned are the rest of the retained ones
  have hunread : h'.unread = (h.retained size).drop n := by
    have hdrop : h'.unread = (h.retained size).drop ((h.retained size).take n).length := by
      rw [History.unread, written, passed, History.retained, keepLast, History.unread,
        List.drop_drop, List.drop_drop, Nat.add_assoc]
    rw [hdrop, htaken]
    rcases Nat.le_total n (h.retained size).length with hn | hn
    · rw [Nat.min_eq_left hn]
    · rw [Nat.min_eq_right hn, List.drop_length, List.drop_eq_nil_of_le hn]
  have hfits : h'.unread.length ≤ size := by
    rw [hunread, List.length_drop]
    omega
  refine ⟨hbytes.trans (congrArg _ holds.contents), hwf, hsize.trans holds.size_eq, ?_, ?_, ?_⟩
  · have hall : h'.retained size = h'.unread := keepLast_eq_self hfits
    rw [hrest, holds.contents, hall, hunread]
  · rw [hdropped, holds.dropped, overwritten]
  · have hle := holds.passed_le
    have hall : h.unread.length = h.written.length - h.passed := List.length_drop
    rw [passed, written]
    omega

/-- The log with its history, where the lock is free. -/
structure Agrees (size : Nat) (w : World) (h : History) : Prop where
  initialized : w.klogInitialized = true
  holds : Holds size w.klogBuffer h
  phase : w.phase = h.phase
  returned : w.returned = h.returned

theorem Agrees.turn (agrees : Agrees size w h) (t : BitVec 64) (n : Nat) :
    Agrees size (klogReadTurn w t n) (h.answer size t n) := by
  obtain ⟨hinit, hholds, hphase, hreturned⟩ := agrees
  have hempty : h.retained size = [] ↔ w.klogBuffer.count = 0 := by
    rw [← hholds.contents, ← length_contents, List.length_eq_zero_iff]
  by_cases hdata : w.klogBuffer.count > 0
  · have hsome : h.retained size ≠ [] := mt hempty.mp (Nat.pos_iff_ne_zero.mp hdata)
    obtain ⟨hbytes, hrest⟩ := @Holds.read _ _ _ hholds n (h.answer size t n)
      (by simp only [History.answer, if_neg hsome])
      (by simp only [History.answer, if_neg hsome])
      (by simp only [History.answer, if_neg hsome])
    simp only [klogReadTurn, if_pos hdata]
    refine ⟨hinit, hrest, ?_, ?_⟩
    · simp only [History.answer, if_neg hsome, hphase]
    · simp only [History.answer, if_neg hsome, hreturned, hbytes]
  · have hnone : h.retained size = [] := hempty.mpr (Nat.eq_zero_of_not_pos hdata)
    simp only [klogReadTurn, if_neg hdata, History.answer, if_pos hnone]
    obtain ⟨hwf, hsize, hcontents, hdropped, hpassed⟩ := hholds.readers (some t)
    exact ⟨hinit, ⟨hwf, hsize, hcontents, hdropped, hpassed⟩, congrArg (Function.update · t _) hphase,
      hreturned⟩

/-- Every call does to the log what it does to the history. -/
theorem Agrees.exec (agrees : Agrees size w h) {fuel : Nat} {call : Call}
    (run : w.exec fuel call = some w') : Agrees size w' (h.after size call) := by
  obtain ⟨hinit, hholds, hphase, hreturned⟩ := agrees
  cases call with
  | init memory =>
    obtain rfl := Option.some.inj run
    have hsame : klogInit w memory = w := by
      unfold klogInit
      exact if_pos hinit
    rw [hsame]
    exact ⟨hinit, hholds, hphase, hreturned⟩
  | writeChar cpu c =>
    simp only [World.exec, klogWriteChar, if_pos hinit] at run
    obtain ⟨sched, -, rfl⟩ := Option.map_eq_some_iff.mp run
    exact ⟨hinit, (hholds.write c).readers none, hphase, hreturned⟩
  | writeString str =>
    obtain rfl := Option.some.inj run
    cases str with
    | none => exact ⟨hinit, hholds, hphase, hreturned⟩
    | some str =>
      have hkept : ∀ (cs : List (BitVec 8)) (h : History),
          (cs.foldl (History.write size) h).phase = h.phase ∧
          (cs.foldl (History.write size) h).returned = h.returned := by
        intro cs
        induction cs with
        | nil => exact fun h => ⟨rfl, rfl⟩
        | cons c cs ih => exact fun h => ih (h.write size c)
      obtain ⟨hphase', hreturned'⟩ := hkept (characters str) h
      simp only [klogWriteString, if_pos hinit]
      exact ⟨hinit, hholds.writeAll _, hphase.trans hphase'.symm, hreturned.trans hreturned'.symm⟩
  | read t hasDest maxBytes =>
    simp only [World.exec] at run
    split at run
    · obtain rfl := Option.some.inj run
      simp only [klogRead, hinit, Bool.true_and, History.after]
      split_ifs
      · exact Agrees.turn ⟨hinit, hholds, hphase, hreturned⟩ t maxBytes
      · obtain ⟨hwf, hsize, hcontents, hdropped, hpassed⟩ := hholds
        exact ⟨rfl, ⟨hwf, hsize, hcontents, hdropped, hpassed⟩, hphase,
          congrArg (· ++ [(t, [])]) hreturned⟩
    · cases run
  | resume t =>
    simp only [World.exec] at run
    cases hwaits : w.phase t with
    | outside => simp [hwaits] at run
    | waiting maxBytes =>
      simp only [hwaits] at run
      obtain rfl := Option.some.inj run
      rw [hphase] at hwaits
      simp only [History.after, hwaits]
      exact Agrees.turn ⟨hinit, hholds, hphase, hreturned⟩ t maxBytes
  | hasDroppedMessages =>
    obtain rfl := Option.some.inj run
    obtain ⟨⟨hpos, htail, hcount, hhead⟩, hsize, hcontents, -, hpassed⟩ := hholds
    rw [klogHasDroppedMessages, if_pos hinit]
    exact ⟨hinit, ⟨⟨hpos, htail, hcount, hhead⟩, hsize, hcontents, rfl, hpassed⟩, hphase,
      hreturned⟩
  | clear =>
    obtain rfl := Option.some.inj run
    rw [klogClear, if_pos hinit]
    refine ⟨hinit, ⟨⟨hholds.wellFormed.size_pos, hholds.wellFormed.size_pos, Nat.zero_le _, rfl⟩,
      hholds.size_eq, ?_, rfl, Nat.le_refl _⟩, hphase, hreturned⟩
    exact (retained_nothing size _ _ _ _).symm
  | reschedule sched =>
    obtain rfl := Option.some.inj run
    exact ⟨hinit, hholds, hphase, hreturned⟩

/-- In every run from a ring of any size, the log is what its history says: readers get the unread
bytes in order, from the oldest retained one on, and a byte overwritten unread is reported. -/
theorem klog_tells_history (run : Reachable (recorded size) (w, h)) : Tells size w h := by
  have hagrees : Agrees size w h := by
    refine Reachable.invariant (fun s => Agrees size s.1 s.2) ?_ ?_ run
    · rintro ⟨w, h⟩ ⟨⟨hpos, hinit, ⟨memory, hbuffer⟩, hphase, hreturned⟩, rfl⟩
      refine ⟨hinit, ?_, hphase, hreturned⟩
      rw [hbuffer]
      refine ⟨⟨hpos, hpos, Nat.zero_le _, rfl⟩, rfl, ?_, rfl, Nat.le_refl _⟩
      exact (retained_nothing size _ _ _ _).symm
    · rintro ⟨w, h⟩ call ⟨w', h'⟩ ih ⟨⟨fuel, hexec⟩, rfl⟩
      exact ih.exec hexec
  obtain ⟨-, hholds, -, hreturned⟩ := hagrees
  have hhead := hholds.wellFormed.head_eq
  have hcount := hholds.wellFormed.count_le
  rw [hholds.size_eq] at hhead hcount
  exact ⟨hhead, hcount, hholds.contents, hholds.dropped, hreturned⟩

end Histories

/-- A ring of two bytes. -/
def smallRing : World :=
  { imageWorld with
    klogInitialized := true
    klogBuffer := { initBuffer (fun _ => 0) with size := 2 } }

/-- Three bytes are written to a ring of two, and the last two are read. -/
theorem klog_tells_history_overwritten : ∃ w h, Reachable (recorded 2) (w, h) ∧
    Tells 2 w h ∧ w.returned = [(1, [0x62, 0x63])] ∧ w.klogBuffer.droppedMessages = true := by
  let nothing : History := ⟨[], 0, false, fun _ => .outside, []⟩
  let write : Call := .writeString (some [0x61, 0x62, 0x63, 0])
  let written : World := klogWriteString smallRing (some [0x61, 0x62, 0x63, 0])
  have hstart : Reachable (recorded 2) (smallRing, nothing) :=
    .start ⟨⟨by decide, rfl, ⟨fun _ => 0, rfl⟩, rfl, rfl⟩, rfl⟩
  have hwritten : Reachable (recorded 2) (written, nothing.after 2 write) :=
    hstart.next (a := write) ⟨⟨0, rfl⟩, rfl⟩
  have hread : Reachable (recorded 2)
      (klogRead written 1 true 16, (nothing.after 2 write).after 2 (.read 1 true 16)) :=
    hwritten.next (a := .read 1 true 16) ⟨⟨0, rfl⟩, rfl⟩
  exact ⟨_, _, hread, klog_tells_history hread, by decide, by decide⟩

end Klog
