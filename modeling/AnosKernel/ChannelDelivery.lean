import AnosKernel.IpcChannel

/-!
# Each message is delivered once

The books of a channel: the messages sent are those that were moved to the table of messages
in flight followed by those still queued, and a message whose sender waits is in the queue, in
the table, or with the one reply that took it out and has not yet unblocked the sender.

A reply looks its message up and removes it in two sections. Two replies to one message that
both look it up before either removes it both answer it, and the second one works on a sender
that may have gone on to another call. The results are about the runs in which no reply looks
a message up while another one is between these two sections.
-/

namespace ChannelDelivery

open Runs IpcChannel

variable {T : Type} [DecidableEq T]

/-! ## Tasks -/

/-- The receivers in line are those that wait and were not unblocked; only a call that waits is
unblocked, and once. -/
structure Tasks (s : State T) : Prop where
  awake : ∀ t, s.wakes t ≠ 0 → s.wakes t = 1 ∧
    ((s.phase t).sending.isSome ∨ (s.phase t).receiving)
  waiting : ∀ t, t ∈ s.receivers ↔ (s.phase t).receiving ∧ s.wakes t = 0
  inLine : s.receivers.Nodup
  locked : ∀ t, s.receiversLock = some t ↔ (s.phase t).joining

section TaskSteps

variable {s s' : State T} {t : T}

omit [DecidableEq T] in
/-- A change of parts that the books of the tasks do not mention. -/
theorem Tasks.congr (h : Tasks s) (phase : s'.phase = s.phase)
    (wakes : s'.wakes = s.wakes) (receivers : s'.receivers = s.receivers)
    (lock : s'.receiversLock = s.receiversLock) : Tasks s' := by
  constructor
  · simpa only [phase, wakes] using h.awake
  · simpa only [phase, wakes, receivers] using h.waiting
  · exact receivers ▸ h.inLine
  · simpa only [phase, lock] using h.locked

/-- A step of one task that stays outside of `recv`. -/
theorem Tasks.setPhase (h : Tasks s) {phase : Phase} (before : ¬ (s.phase t).receiving)
    (after : ¬ phase.receiving) (unlocked : (s.phase t).joining = phase.joining)
    (awake : s.wakes t ≠ 0 → phase.sending.isSome) : Tasks (s.setPhase t phase) := by
  refine ⟨fun u hu => ?_, fun u => ?_, h.inLine, fun u => ?_⟩
  · obtain ⟨hone, hphase⟩ := h.awake u hu
    refine ⟨hone, ?_⟩
    rcases eq_or_ne u t with rfl | hne
    · simpa [State.setPhase] using Or.inl (awake hu)
    · simpa [State.setPhase, hne] using hphase
  · rcases eq_or_ne u t with rfl | hne
    · simp [State.setPhase, after, h.waiting, before]
    · simpa [State.setPhase, hne] using h.waiting u
  · rcases eq_or_ne u t with rfl | hne
    · simpa [State.setPhase, unlocked] using h.locked u
    · simpa [State.setPhase, hne] using h.locked u

omit [DecidableEq T] in
theorem Tasks.sleeping (h : Tasks s) (sending : (s.phase t).sending = none)
    (receiving : ¬ (s.phase t).receiving) : s.wakes t = 0 := by
  by_contra hne
  have hphase := (h.awake t hne).2
  simp [sending, receiving] at hphase

/-- A call that was unblocked is resumed and returns. -/
theorem Tasks.return_resumed (h : Tasks s) (awake : s.wakes t ≠ 0)
    (outside : (s.phase t).joining = false) (r : Return) : Tasks ((s.resume t).return t r) := by
  have hone := (h.awake t awake).1
  refine ⟨fun u hu => ?_, fun u => ?_, h.inLine, fun u => ?_⟩
  · rcases eq_or_ne u t with rfl | hne
    · simp [State.return, State.setPhase, State.resume, hone] at hu
    · simpa [State.return, State.setPhase, State.resume, hne] using
        h.awake u (by simpa [State.return, State.setPhase, State.resume, hne] using hu)
  · rcases eq_or_ne u t with rfl | hne
    · simp [State.return, State.setPhase, State.resume, Phase.receiving, h.waiting, awake]
    · simpa [State.return, State.setPhase, State.resume, hne] using h.waiting u
  · rcases eq_or_ne u t with rfl | hne
    · have hother := h.locked u
      rw [outside] at hother
      simpa [State.return, State.setPhase, State.resume, Phase.joining] using hother
    · simpa [State.return, State.setPhase, State.resume, hne] using h.locked u

/-- Unblocking a sender. -/
theorem Tasks.unblock (h : Tasks s) (sending : (s.phase t).sending.isSome)
    (asleep : s.wakes t = 0) : Tasks (schedUnblock s t) := by
  have hreceiving : ¬ (s.phase t).receiving := by
    cases hp : s.phase t <;> simp [hp, Phase.sending, Phase.receiving] at sending ⊢
  refine ⟨fun u hu => ?_, fun u => ?_, h.inLine, h.locked⟩
  · rcases eq_or_ne u t with rfl | hne
    · simp [schedUnblock, asleep, sending]
    · simpa [schedUnblock, hne] using h.awake u (by simpa [schedUnblock, hne] using hu)
  · rcases eq_or_ne u t with rfl | hne
    · simp [schedUnblock, h.waiting, hreceiving]
    · simpa [schedUnblock, hne] using h.waiting u

/-- Unblocking the first receiver in line. -/
theorem Tasks.pop (h : Tasks s) {receiver : T} {rest : List T}
    (receivers : s.receivers = receiver :: rest) :
    Tasks { schedUnblock s receiver with receivers := rest } := by
  obtain ⟨hnot, hrest⟩ := List.nodup_cons.mp (receivers ▸ h.inLine)
  have hmem : ∀ u, u ∈ receiver :: rest ↔ (s.phase u).receiving ∧ s.wakes u = 0 :=
    fun u => receivers ▸ h.waiting u
  obtain ⟨hphase, hasleep⟩ := (hmem receiver).mp List.mem_cons_self
  refine ⟨fun u hu => ?_, fun u => ?_, hrest, h.locked⟩
  · rcases eq_or_ne u receiver with rfl | hne
    · simp [schedUnblock, hasleep, hphase]
    · simpa [schedUnblock, hne] using h.awake u (by simpa [schedUnblock, hne] using hu)
  · rcases eq_or_ne u receiver with rfl | hne
    · simp [schedUnblock, hnot]
    · simpa [schedUnblock, hne] using hmem u

theorem Tasks.wake (h : Tasks s) {msg : BitVec 64} (phase : s.phase t = .published msg) :
    Tasks (sendWake s t msg) := by
  unfold sendWake
  cases hr : s.receivers with
  | nil =>
    exact h.setPhase (by simp [phase, Phase.receiving]) (by simp [Phase.receiving])
      (by simp [phase, Phase.joining]) (fun _ => rfl)
  | cons receiver rest =>
    exact (h.pop hr).setPhase (t := t) (by simp [schedUnblock, phase, Phase.receiving])
      (by simp [Phase.receiving]) (by simp [schedUnblock, phase, Phase.joining]) (fun _ => rfl)

theorem Tasks.check (h : Tasks s) (args : RecvArgs) (idle : s.phase t = .idle)
    (unlocked : s.receiversLock = none) :
    Tasks { s.setPhase t (.checked args) with receiversLock := some t } := by
  refine ⟨fun u hu => ?_, fun u => ?_, h.inLine, fun u => ?_⟩
  · rcases eq_or_ne u t with rfl | hne
    · exact absurd (h.sleeping (by rw [idle]; rfl) (by simp [idle, Phase.receiving])) hu
    · simpa [State.setPhase, hne] using h.awake u hu
  · rcases eq_or_ne u t with rfl | hne
    · simp [State.setPhase, Phase.receiving, h.waiting, idle]
    · simpa [State.setPhase, hne] using h.waiting u
  · rcases eq_or_ne u t with rfl | hne
    · simp [State.setPhase, Phase.joining]
    · have hother := h.locked u
      rw [unlocked] at hother
      simpa [State.setPhase, hne, Ne.symm hne] using hother

theorem Tasks.join (h : Tasks s) {args : RecvArgs} (phase : s.phase t = .checked args) :
    Tasks (recvJoin s t args) := by
  have hasleep : s.wakes t = 0 :=
    h.sleeping (by rw [phase]; rfl) (by simp [phase, Phase.receiving])
  have hlock : s.receiversLock = some t := (h.locked t).mpr (by simp [phase, Phase.joining])
  have hnot : t ∉ s.receivers := by simp [h.waiting, phase, Phase.receiving]
  refine ⟨fun u hu => ?_, fun u => ?_, ?_, fun u => ?_⟩
  · rcases eq_or_ne u t with rfl | hne
    · exact absurd hasleep hu
    · simpa [recvJoin, State.setPhase, hne] using h.awake u hu
  · rcases eq_or_ne u t with rfl | hne
    · simp [recvJoin, State.setPhase, Phase.receiving, hasleep]
    · simpa [recvJoin, State.setPhase, hne] using h.waiting u
  · exact List.nodup_append.mpr ⟨h.inLine, List.nodup_singleton t,
      fun a ha b hb => by rw [List.mem_singleton.mp hb]; exact ne_of_mem_of_not_mem ha hnot⟩
  · rcases eq_or_ne u t with rfl | hne
    · simp [recvJoin, State.setPhase, Phase.joining]
    · have hother := h.locked u
      rw [hlock] at hother
      simpa [recvJoin, State.setPhase, hne, Ne.symm hne] using hother

end TaskSteps

/-! ## Messages -/

/-- The part of a message that stays as its sender gave it. -/
def asSent (m : IpcMessage T) : Sent :=
  { cookie := m.cookie, tag := m.tag, size := m.argBufSize }

/-- The sender is in its call and has not been unblocked. -/
def Live (s : State T) (msg : BitVec 64) : Prop :=
  (s.phase (s.message msg).waiter).sending = some msg ∧ s.wakes (s.message msg).waiter = 0

/-- Every message that is queued, in flight or about to be answered belongs to a sender that
still waits, and the other way round. -/
structure Messages (s : State T) : Prop where
  owner : ∀ t msg, (s.phase t).sending = some msg →
    (s.message msg).waiter = t ∧ asSent (s.message msg) ∈ s.sent
  queued : ∀ msg ∈ s.queue, Live s msg
  flight : ∀ c msg, s.inFlight c = some msg →
    Live s msg ∧ (s.message msg).cookie = c ∧ c ∈ s.moved
  found : ∀ t msg c, (s.phase t).looking = some (msg, c) → s.inFlight c = some msg
  foundOnce : ∀ t t' msg msg' c, (s.phase t).looking = some (msg, c) →
    (s.phase t').looking = some (msg', c) → t = t'
  removed : ∀ t msg c, (s.phase t).removing = some (msg, c) →
    Live s msg ∧ (s.message msg).cookie = c ∧ c ∈ s.moved ∧ s.inFlight c = none
  removedOnce : ∀ t t' msg msg' c, (s.phase t).removing = some (msg, c) →
    (s.phase t').removing = some (msg', c) → t = t'
  done : ∀ c ∈ s.unblocked, c ∈ s.moved ∧ s.inFlight c = none ∧
    ∀ t msg, (s.phase t).removing ≠ some (msg, c)
  once : s.unblocked.Nodup
  located : ∀ t msg, (s.phase t).sending = some msg → s.wakes t = 0 →
    msg ∈ s.queue ∨ s.inFlight (s.message msg).cookie = some msg ∨
      ∃ t', (s.phase t').removing = some (msg, (s.message msg).cookie)

/-- A received message carries the tag and the size it was sent with. -/
def Matches (args : RecvArgs) (r : RecvResult) (m : Sent) : Prop :=
  r.cookie = m.cookie ∧ r.tag = (if args.tag then some m.tag else none) ∧
    r.bufferSize = (if args.bufferSize then some m.size else none)

/-- The messages sent are those moved and then those queued, and what calls have returned fits
the messages that were moved and the senders unblocked. -/
structure Log (s : State T) : Prop where
  order : s.sent.map Sent.cookie = s.moved ++ s.queue.map fun msg => (s.message msg).cookie
  distinct : (s.sent.map Sent.cookie).Nodup
  received : (s.returns.filterMap Return.received).map RecvResult.cookie = s.moved
  own : ∀ args r, .recv args (some r) ∈ s.returns → ∃ m ∈ s.sent, Matches args r m
  replied : (s.returns.filterMap Return.replied).Sublist s.unblocked

omit [DecidableEq T] in
/-- A change of parts that the log does not mention. -/
theorem Log.congr {s s' : State T} (h : Log s)
    (cookies : ∀ msg, (s'.message msg).cookie = (s.message msg).cookie)
    (sent : s'.sent = s.sent) (moved : s'.moved = s.moved)
    (queue : s'.queue = s.queue) (returns : s'.returns = s.returns)
    (unblocked : s'.unblocked = s.unblocked) : Log s' := by
  constructor
  · simpa only [sent, moved, queue, cookies] using h.order
  · exact sent ▸ h.distinct
  · simpa only [returns, moved] using h.received
  · simpa only [returns, sent] using h.own
  · simpa only [returns, unblocked] using h.replied

omit [DecidableEq T] in
theorem Log.not_moved {s : State T} (h : Log s) {msg : BitVec 64} (queued : msg ∈ s.queue) :
    (s.message msg).cookie ∉ s.moved := by
  intro hmoved
  have hnodup := h.distinct
  rw [h.order] at hnodup
  exact (List.nodup_append.mp hnodup).2.2 _ hmoved _ (List.mem_map_of_mem queued) rfl

section MessageSteps

variable {s s' : State T} {t : T}

omit [DecidableEq T] in
/-- A step that moves no message and unblocks no sender. -/
theorem Messages.of_calm (h : Messages s)
    (sending : ∀ u msg, (s'.phase u).sending = some msg →
      (s.phase u).sending = some msg ∧ (s'.wakes u = 0 → s.wakes u = 0))
    (live : ∀ u msg, (s.phase u).sending = some msg → s.wakes u = 0 →
      (s'.phase u).sending = some msg ∧ s'.wakes u = 0)
    (looking : ∀ u, (s'.phase u).looking = (s.phase u).looking)
    (removing : ∀ u, (s'.phase u).removing = (s.phase u).removing)
    (queue : s'.queue = s.queue) (inFlight : s'.inFlight = s.inFlight)
    (message : s'.message = s.message) (sent : s'.sent = s.sent)
    (moved : s'.moved = s.moved) (unblocked : s'.unblocked = s.unblocked) :
    Messages s' := by
  have hlive : ∀ msg, Live s msg → Live s' msg := by
    intro msg hmsg
    simpa only [Live, message] using live _ _ hmsg.1 hmsg.2
  constructor
  · intro u msg hu
    simpa only [message, sent] using h.owner u msg (sending u msg hu).1
  · intro msg hmsg
    exact hlive msg (h.queued msg (queue ▸ hmsg))
  · intro c msg hc
    rw [inFlight] at hc
    obtain ⟨hl, hcookie, hmoved⟩ := h.flight c msg hc
    exact ⟨hlive msg hl, message ▸ hcookie, moved ▸ hmoved⟩
  · simpa only [looking, inFlight] using h.found
  · simpa only [looking] using h.foundOnce
  · intro u msg c hu
    rw [removing] at hu
    obtain ⟨hl, hcookie, hmoved, hnone⟩ := h.removed u msg c hu
    exact ⟨hlive msg hl, message ▸ hcookie, moved ▸ hmoved, inFlight ▸ hnone⟩
  · simpa only [removing] using h.removedOnce
  · simpa only [removing, unblocked, inFlight, moved] using h.done
  · exact unblocked ▸ h.once
  · intro u msg hu hasleep
    obtain ⟨hu', hawake⟩ := sending u msg hu
    simpa only [queue, inFlight, message, removing] using h.located u msg hu' (hawake hasleep)

/-- What a task is at after a step of `t` to a phase where `t` is at no such thing. -/
theorem of_setPhase {β : Type} {proj : Phase → Option β} {phase : Phase} (none : proj phase = none)
    {u : T} {x : β} (hu : proj ((s.setPhase t phase).phase u) = some x) :
    u ≠ t ∧ proj (s.phase u) = some x := by
  rcases eq_or_ne u t with rfl | hne
  · simp [State.setPhase, none] at hu
  · exact ⟨hne, by simpa [State.setPhase, hne] using hu⟩

theorem setPhase_kept {β : Type} {proj : Phase → Option β} (phase : Phase)
    (none : proj (s.phase t) = none) {u : T} {x : β} (hu : proj (s.phase u) = some x) :
    proj ((s.setPhase t phase).phase u) = some x := by
  rcases eq_or_ne u t with rfl | hne
  · simp [none] at hu
  · simpa [State.setPhase, hne] using hu

theorem setPhase_same {β : Type} {proj : Phase → β} {phase : Phase}
    (same : proj phase = proj (s.phase t)) (u : T) :
    proj ((s.setPhase t phase).phase u) = proj (s.phase u) := by
  rcases eq_or_ne u t with rfl | hne
  · simp [State.setPhase, same]
  · simp [State.setPhase, hne]

omit [DecidableEq T] in
/-- A change of parts that the books of the messages do not mention. -/
theorem Messages.congr (h : Messages s) (queue : s'.queue = s.queue)
    (inFlight : s'.inFlight = s.inFlight) (message : s'.message = s.message)
    (sent : s'.sent = s.sent) (moved : s'.moved = s.moved)
    (unblocked : s'.unblocked = s.unblocked) (phase : s'.phase = s.phase)
    (wakes : s'.wakes = s.wakes) : Messages s' := by
  refine h.of_calm ?_ ?_ ?_ ?_ queue inFlight message sent moved unblocked
  · exact fun u x hu => ⟨phase ▸ hu, fun hasleep => wakes ▸ hasleep⟩
  · exact fun u x hu hasleep => ⟨phase ▸ hu, wakes ▸ hasleep⟩
  · exact fun u => by rw [phase]
  · exact fun u => by rw [phase]

/-- A step of one task to a phase about the same message. -/
theorem Messages.setPhase (h : Messages s) {phase : Phase}
    (sending : phase.sending = (s.phase t).sending) (looking : phase.looking = (s.phase t).looking)
    (removing : phase.removing = (s.phase t).removing) : Messages (s.setPhase t phase) := by
  refine h.of_calm ?_ ?_ (setPhase_same looking) (setPhase_same removing) rfl rfl rfl rfl rfl rfl
  · exact fun u x hu => ⟨(setPhase_same sending u).symm.trans hu, id⟩
  · exact fun u x hu hasleep => ⟨(setPhase_same sending u).trans hu, hasleep⟩

/-- Unblocking or resuming a task that is not sending. -/
theorem Messages.setWakes (h : Messages s) (sending : (s.phase t).sending = none) (n : Nat) :
    Messages { s with wakes := Function.update s.wakes t n } := by
  have hwakes : ∀ u x, (s.phase u).sending = some x → Function.update s.wakes t n u = s.wakes u := by
    intro u x hu
    refine Function.update_of_ne ?_ _ _
    rintro rfl
    simp [sending] at hu
  refine h.of_calm ?_ ?_ (fun u => rfl) (fun u => rfl) rfl rfl rfl rfl rfl rfl
  · exact fun u x hu => ⟨hu, fun hasleep => (hwakes u x hu).symm.trans hasleep⟩
  · exact fun u x hu hasleep => ⟨hu, (hwakes u x hu).trans hasleep⟩

/-- What a task holds after a step of `t` to a phase where `t` holds a message that no other
task holds. -/
theorem of_setPhase_new {proj : Phase → Option (BitVec 64 × BitVec 64)} {phase : Phase}
    {msg cookie : BitVec 64} (new : proj phase = some (msg, cookie))
    (others : ∀ u x, u ≠ t → proj (s.phase u) ≠ some (x, cookie)) {u : T} {x c : BitVec 64}
    (hu : proj ((s.setPhase t phase).phase u) = some (x, c)) :
    u = t ∧ x = msg ∧ c = cookie ∨ c ≠ cookie ∧ proj (s.phase u) = some (x, c) := by
  rcases eq_or_ne u t with rfl | hne
  · have heq : msg = x ∧ cookie = c := by simpa [State.setPhase, new] using hu
    exact Or.inl ⟨rfl, heq.1.symm, heq.2.symm⟩
  · have hu' : proj (s.phase u) = some (x, c) := by simpa [State.setPhase, hne] using hu
    refine Or.inr ⟨?_, hu'⟩
    rintro rfl
    exact others u x hne hu'

/-- No two tasks hold messages with one cookie. -/
def HeldOnce (proj : Phase → Option (BitVec 64 × BitVec 64)) (phase : T → Phase) : Prop :=
  ∀ u u' msg msg' c, proj (phase u) = some (msg, c) → proj (phase u') = some (msg', c) → u = u'

theorem HeldOnce.setPhase {proj : Phase → Option (BitVec 64 × BitVec 64)}
    (h : HeldOnce proj s.phase) {phase : Phase} (none : proj phase = none) :
    HeldOnce proj (s.setPhase t phase).phase := fun u u' x x' c hu hu' =>
  h u u' x x' c (of_setPhase none hu).2 (of_setPhase none hu').2

theorem HeldOnce.setPhase_new {proj : Phase → Option (BitVec 64 × BitVec 64)}
    (h : HeldOnce proj s.phase) {phase : Phase} {msg cookie : BitVec 64}
    (new : proj phase = some (msg, cookie))
    (others : ∀ u x, u ≠ t → proj (s.phase u) ≠ some (x, cookie)) :
    HeldOnce proj (s.setPhase t phase).phase := by
  intro u u' x x' c hu hu'
  rcases of_setPhase_new new others hu with ⟨rfl, -, rfl⟩ | ⟨hne, hold⟩ <;>
    rcases of_setPhase_new new others hu' with ⟨rfl, -, heq⟩ | ⟨hne', hold'⟩
  · rfl
  · exact absurd rfl hne'
  · exact absurd heq hne
  · exact h u u' x x' c hold hold'

/-- The part of every message that its sender gave, and its waiter, are as they were. -/
def KeepsMessages (s s' : State T) : Prop :=
  ∀ msg, (s'.message msg).waiter = (s.message msg).waiter ∧
    asSent (s'.message msg) = asSent (s.message msg)

omit [DecidableEq T] in
theorem KeepsMessages.cookie (h : KeepsMessages s s') (msg : BitVec 64) :
    (s'.message msg).cookie = (s.message msg).cookie := congrArg Sent.cookie (h msg).2

theorem deliver_keepsMessages (args : RecvArgs) (slowPath : Bool) (msg : BitVec 64)
    (rest : List (BitVec 64)) : KeepsMessages s (deliver s t args slowPath msg rest) := by
  intro x
  rcases eq_or_ne x msg with rfl | hne
  · simp [deliver, asSent]
  · simp [deliver, hne]

theorem replyRemove_keepsMessages (msg cookie result : BitVec 64) :
    KeepsMessages s (replyRemove s t msg cookie result) := by
  intro x
  rcases eq_or_ne x msg with rfl | hne
  · simp [replyRemove, asSent]
  · simp [replyRemove, hne]

/-- A step of a task that is not sending, with every message kept. -/
theorem Live.kept {msg : BitVec 64} (h : Live s msg) (messages : KeepsMessages s s')
    {phase : Phase} (phases : s'.phase = (s.setPhase t phase).phase) (wakes : s'.wakes = s.wakes)
    (sending : (s.phase t).sending = none) : Live s' msg := by
  rw [Live, (messages msg).1, phases, wakes]
  exact ⟨setPhase_kept phase sending h.1, h.2⟩

/-- A new message at the end of the queue. -/
theorem Messages.publish (h : Messages s) {msg : BitVec 64} {m : IpcMessage T}
    (idle : s.phase t = .idle) (asleep : s.wakes t = 0)
    (fresh : ∀ u, (s.phase u).sending ≠ some msg) (waiter : m.waiter = t) :
    Messages { s.setPhase t (.published msg) with
      message := Function.update s.message msg m
      queue := s.queue ++ [msg]
      sent := s.sent ++ [asSent m] } := by
  have hother : ∀ u x, (s.phase u).sending = some x → x ≠ msg := by
    rintro u x hu rfl
    exact fresh u hu
  have hlive : ∀ x, Live s x → x ≠ msg ∧ Live { s.setPhase t (.published msg) with
      message := Function.update s.message msg m
      queue := s.queue ++ [msg]
      sent := s.sent ++ [asSent m] } x := by
    intro x hx
    have hne := hother _ x hx.1
    refine ⟨hne, ?_⟩
    simp only [Live, Function.update_of_ne hne]
    exact ⟨setPhase_kept _ (by rw [idle]; rfl) hx.1, hx.2⟩
  have hphase : ∀ u x, ((s.setPhase t (.published msg)).phase u).sending = some x →
      u = t ∧ x = msg ∨ (s.phase u).sending = some x := by
    intro u x hu
    rcases eq_or_ne u t with rfl | hne
    · exact Or.inl ⟨rfl, by simpa [State.setPhase, Phase.sending, eq_comm] using hu⟩
    · exact Or.inr (by simpa [State.setPhase, hne] using hu)
  constructor
  · intro u x hu
    rcases hphase u x hu with ⟨rfl, rfl⟩ | hu'
    · simp [waiter]
    · obtain ⟨hw, hs⟩ := h.owner u x hu'
      simp [hother u x hu', hw, hs]
  · intro x hx
    rcases List.mem_append.mp hx with hx | hx
    · exact (hlive x (h.queued x hx)).2
    · simp [List.mem_singleton.mp hx, Live, State.setPhase, waiter, Phase.sending, asleep]
  · intro c x hc
    obtain ⟨hl, hcookie, hmoved⟩ := h.flight c x hc
    obtain ⟨hne, hl'⟩ := hlive x hl
    exact ⟨hl', by simpa [hne] using hcookie, hmoved⟩
  · exact fun u x c hu => h.found u x c (of_setPhase rfl hu).2
  · exact HeldOnce.setPhase h.foundOnce rfl
  · intro u x c hu
    obtain ⟨hl, hcookie, hmoved, hnone⟩ := h.removed u x c (of_setPhase rfl hu).2
    obtain ⟨hne, hl'⟩ := hlive x hl
    exact ⟨hl', by simpa [hne] using hcookie, hmoved, hnone⟩
  · exact HeldOnce.setPhase h.removedOnce rfl
  · intro c hc
    obtain ⟨hmoved, hnone, hno⟩ := h.done c hc
    exact ⟨hmoved, hnone, fun u x hu => hno u x (of_setPhase rfl hu).2⟩
  · exact h.once
  · intro u x hu hasleep
    rcases hphase u x hu with ⟨rfl, rfl⟩ | hu'
    · exact Or.inl (List.mem_append_right _ List.mem_cons_self)
    · simp only [Function.update_of_ne (hother u x hu')]
      rcases h.located u x hu' hasleep with hq | hf | ⟨u', hr⟩
      · exact Or.inl (List.mem_append_left _ hq)
      · exact Or.inr (Or.inl hf)
      · exact Or.inr (Or.inr ⟨u', setPhase_kept _ (by rw [idle]; rfl) hr⟩)

/-- The first message of the queue goes into the table; `t` is in no call on a message. -/
theorem Messages.deliver (h : Messages s) (log : Log s) {msg : BitVec 64}
    {rest : List (BitVec 64)} (queue : s.queue = msg :: rest) (args : RecvArgs) (slowPath : Bool)
    (sending : (s.phase t).sending = none) (removing : (s.phase t).removing = none) :
    Messages (deliver s t args slowPath msg rest) := by
  have hmem : msg ∈ s.queue := queue ▸ List.mem_cons_self
  have hmoved := log.not_moved hmem
  have hnone : s.inFlight (s.message msg).cookie = none := by
    cases hf : s.inFlight (s.message msg).cookie with
    | none => rfl
    | some x => exact absurd (h.flight _ x hf).2.2 hmoved
  have htable : (IpcChannel.deliver s t args slowPath msg rest).inFlight =
      Function.update s.inFlight (s.message msg).cookie (some msg) := by
    simp [IpcChannel.deliver, hashTableInsert, hnone]
  have hcore := deliver_keepsMessages (s := s) (t := t) args slowPath msg rest
  have hlive : ∀ x, Live s x → Live (IpcChannel.deliver s t args slowPath msg rest) x :=
    fun x hx => hx.kept hcore rfl rfl sending
  have hold : ∀ c ∈ s.moved, c ≠ (s.message msg).cookie :=
    fun c hc => ne_of_mem_of_not_mem hc hmoved
  have hkept : ∀ c ∈ s.moved, (IpcChannel.deliver s t args slowPath msg rest).inFlight c =
      s.inFlight c := by
    intro c hc
    rw [htable, Function.update_of_ne (hold c hc)]
  constructor
  · intro u x hu
    rw [(hcore x).1, (hcore x).2]
    exact h.owner u x (of_setPhase rfl hu).2
  · intro x hx
    exact hlive x (h.queued x (queue ▸ List.mem_cons_of_mem _ hx))
  · intro c x hc
    rw [htable] at hc
    rcases eq_or_ne c (s.message msg).cookie with rfl | hne
    · obtain rfl : msg = x := by simpa using hc
      exact ⟨hlive msg (h.queued msg hmem), hcore.cookie msg, List.mem_append_right _ (by simp)⟩
    · obtain ⟨hl, hc', hm⟩ := h.flight c x (by simpa [hne] using hc)
      exact ⟨hlive x hl, (hcore.cookie x).trans hc', List.mem_append_left _ hm⟩
  · intro u x c hu
    have hf := h.found u x c (of_setPhase rfl hu).2
    rw [hkept c (h.flight c x hf).2.2]
    exact hf
  · exact HeldOnce.setPhase h.foundOnce rfl
  · intro u x c hu
    obtain ⟨hl, hc, hm, hn⟩ := h.removed u x c (of_setPhase rfl hu).2
    exact ⟨hlive x hl, (hcore.cookie x).trans hc, List.mem_append_left _ hm, (hkept c hm).trans hn⟩
  · exact HeldOnce.setPhase h.removedOnce rfl
  · intro c hc
    obtain ⟨hm, hn, hno⟩ := h.done c hc
    exact ⟨List.mem_append_left _ hm, (hkept c hm).trans hn,
      fun u x hu => hno u x (of_setPhase rfl hu).2⟩
  · exact h.once
  · intro u x hu hasleep
    rw [hcore.cookie, htable]
    rcases h.located u x (of_setPhase rfl hu).2 hasleep with hq | hf | ⟨u', hr⟩
    · rcases List.mem_cons.mp (queue ▸ hq) with rfl | hq
      · exact Or.inr (Or.inl (Function.update_self ..))
      · exact Or.inl hq
    · have hne := hold _ (h.flight _ x hf).2.2
      exact Or.inr (Or.inl (by rwa [Function.update_of_ne hne]))
    · exact Or.inr (Or.inr ⟨u', setPhase_kept _ removing hr⟩)

/-- A lookup that no other reply to the cookie is in the middle of. -/
theorem Messages.lookup (h : Messages s) {msg cookie result : BitVec 64}
    (idle : s.phase t = .idle) (present : s.inFlight cookie = some msg)
    (exclusive : ∀ u x, (s.phase u).looking ≠ some (x, cookie)) :
    Messages (s.setPhase t (.found msg cookie result)) := by
  have hnew : (Phase.found msg cookie result).looking = some (msg, cookie) := rfl
  have hothers : ∀ u x, u ≠ t → (s.phase u).looking ≠ some (x, cookie) :=
    fun u x _ => exclusive u x
  have hlive : ∀ x, Live s x → Live (s.setPhase t (.found msg cookie result)) x :=
    fun x hx => hx.kept (fun _ => ⟨rfl, rfl⟩) rfl rfl (by rw [idle]; rfl)
  constructor
  · exact fun u x hu => h.owner u x (of_setPhase rfl hu).2
  · exact fun x hx => hlive x (h.queued x hx)
  · intro c x hc
    obtain ⟨hl, hrest⟩ := h.flight c x hc
    exact ⟨hlive x hl, hrest⟩
  · intro u x c hu
    rcases of_setPhase_new hnew hothers hu with ⟨-, rfl, rfl⟩ | ⟨-, hu'⟩
    · exact present
    · exact h.found u x c hu'
  · exact HeldOnce.setPhase_new h.foundOnce hnew hothers
  · intro u x c hu
    obtain ⟨hl, hrest⟩ := h.removed u x c (of_setPhase rfl hu).2
    exact ⟨hlive x hl, hrest⟩
  · exact HeldOnce.setPhase h.removedOnce rfl
  · intro c hc
    obtain ⟨hmoved, hnone, hno⟩ := h.done c hc
    exact ⟨hmoved, hnone, fun u x hu => hno u x (of_setPhase rfl hu).2⟩
  · exact h.once
  · intro u x hu hasleep
    rcases h.located u x (of_setPhase rfl hu).2 hasleep with hq | hf | ⟨u', hr⟩
    · exact Or.inl hq
    · exact Or.inr (Or.inl hf)
    · exact Or.inr (Or.inr ⟨u', setPhase_kept _ (by rw [idle]; rfl) hr⟩)

/-- The one reply that looked the message up takes it out of the table. -/
theorem Messages.remove (h : Messages s) {msg cookie result : BitVec 64}
    (phase : s.phase t = .found msg cookie result) :
    Messages (replyRemove s t msg cookie result) := by
  have hlooking : (s.phase t).looking = some (msg, cookie) := by rw [phase]; rfl
  have hpresent := h.found t msg cookie hlooking
  obtain ⟨hmsg, hcookie, hmoved⟩ := h.flight cookie msg hpresent
  have hcore := replyRemove_keepsMessages (s := s) (t := t) msg cookie result
  have hlive : ∀ x, Live s x → Live (replyRemove s t msg cookie result) x :=
    fun x hx => hx.kept hcore rfl rfl (by rw [phase]; rfl)
  have hkept : ∀ c ≠ cookie, (replyRemove s t msg cookie result).inFlight c = s.inFlight c :=
    fun c hc => Function.update_of_ne hc _ _
  have hgone : (replyRemove s t msg cookie result).inFlight cookie = none :=
    Function.update_self ..
  have hnone : ∀ c, s.inFlight c = none →
      c ≠ cookie ∧ (replyRemove s t msg cookie result).inFlight c = none := by
    intro c hc
    have hne : c ≠ cookie := by
      rintro rfl
      rw [hpresent] at hc
      cases hc
    exact ⟨hne, (hkept c hne).trans hc⟩
  have hnew : (Phase.removed msg cookie result).removing = some (msg, cookie) := rfl
  have hothers : ∀ u x, u ≠ t → (s.phase u).removing ≠ some (x, cookie) :=
    fun u x _ hu => (hnone cookie (h.removed u x cookie hu).2.2.2).1 rfl
  constructor
  · intro u x hu
    rw [(hcore x).1, (hcore x).2]
    exact h.owner u x (of_setPhase rfl hu).2
  · exact fun x hx => hlive x (h.queued x hx)
  · intro c x hc
    have hne : c ≠ cookie := by
      rintro rfl
      rw [hgone] at hc
      cases hc
    obtain ⟨hl, hc', hm⟩ := h.flight c x ((hkept c hne).symm.trans hc)
    exact ⟨hlive x hl, (hcore.cookie x).trans hc', hm⟩
  · intro u x c hu
    obtain ⟨hne, hu'⟩ := of_setPhase rfl hu
    have hc : c ≠ cookie := by
      rintro rfl
      exact hne (h.foundOnce u t x msg c hu' hlooking)
    exact (hkept c hc).trans (h.found u x c hu')
  · exact HeldOnce.setPhase h.foundOnce rfl
  · intro u x c hu
    rcases of_setPhase_new hnew hothers hu with ⟨-, rfl, rfl⟩ | ⟨-, hu'⟩
    · exact ⟨hlive x hmsg, (hcore.cookie x).trans hcookie, hmoved, hgone⟩
    · obtain ⟨hl, hc, hm, hn⟩ := h.removed u x c hu'
      exact ⟨hlive x hl, (hcore.cookie x).trans hc, hm, (hnone c hn).2⟩
  · exact HeldOnce.setPhase_new h.removedOnce hnew hothers
  · intro c hc
    obtain ⟨hm, hn, hno⟩ := h.done c hc
    refine ⟨hm, (hnone c hn).2, fun u x hu => ?_⟩
    rcases of_setPhase_new hnew hothers hu with ⟨-, -, heq⟩ | ⟨-, hu'⟩
    · exact (hnone c hn).1 heq
    · exact hno u x hu'
  · exact h.once
  · intro u x hu hasleep
    rw [hcore.cookie]
    rcases h.located u x (of_setPhase rfl hu).2 hasleep with hq | hf | ⟨u', hr⟩
    · exact Or.inl hq
    · by_cases hc : (s.message x).cookie = cookie
      · rw [hc, hpresent] at hf
        obtain rfl : msg = x := Option.some.inj hf
        refine Or.inr (Or.inr ⟨t, ?_⟩)
        simp [replyRemove, State.setPhase, Phase.removing, hc]
      · exact Or.inr (Or.inl ((hkept _ hc).trans hf))
    · exact Or.inr (Or.inr ⟨u', setPhase_kept _ (by rw [phase]; rfl) hr⟩)

/-- The reply that took the message out of the table unblocks its sender. -/
theorem Messages.unblock (h : Messages s) (log : Log s) {msg cookie result : BitVec 64}
    (phase : s.phase t = .removed msg cookie result) :
    Messages (replyUnblock s t msg cookie) := by
  have hremoving : (s.phase t).removing = some (msg, cookie) := by rw [phase]; rfl
  have hsending : (s.phase t).sending = none := by rw [phase]; rfl
  obtain ⟨hmsg, hcookie, hmoved, hnone⟩ := h.removed t msg cookie hremoving
  have hwakes : ∀ u ≠ (s.message msg).waiter, (replyUnblock s t msg cookie).wakes u = s.wakes u :=
    fun u hu => Function.update_of_ne hu _ _
  have hlive : ∀ x, x ≠ msg → Live s x → Live (replyUnblock s t msg cookie) x := by
    intro x hne hx
    have hwaiter : (s.message x).waiter ≠ (s.message msg).waiter := by
      intro heq
      exact hne (Option.some.inj ((heq ▸ hx.1).symm.trans hmsg.1))
    exact ⟨setPhase_kept _ hsending hx.1, (hwakes _ hwaiter).trans hx.2⟩
  constructor
  · exact fun u x hu => h.owner u x (of_setPhase rfl hu).2
  · intro x hx
    refine hlive x ?_ (h.queued x hx)
    rintro rfl
    exact log.not_moved hx (hcookie ▸ hmoved)
  · intro c x hc
    obtain ⟨hl, hc', hm⟩ := h.flight c x hc
    refine ⟨hlive x ?_ hl, hc', hm⟩
    rintro rfl
    rw [← hc', hcookie] at hc
    exact absurd (hnone.symm.trans hc) (by simp)
  · exact fun u x c hu => h.found u x c (of_setPhase rfl hu).2
  · exact HeldOnce.setPhase h.foundOnce rfl
  · intro u x c hu
    obtain ⟨hne, hu'⟩ := of_setPhase rfl hu
    obtain ⟨hl, hc, hm, hn⟩ := h.removed u x c hu'
    refine ⟨hlive x ?_ hl, hc, hm, hn⟩
    rintro rfl
    rw [← hc, hcookie] at hu'
    exact hne (h.removedOnce u t x x cookie hu' hremoving)
  · exact HeldOnce.setPhase h.removedOnce rfl
  · intro c hc
    rcases List.mem_append.mp hc with hc | hc
    · obtain ⟨hm, hn, hno⟩ := h.done c hc
      exact ⟨hm, hn, fun u x hu => hno u x (of_setPhase rfl hu).2⟩
    · obtain rfl := List.mem_singleton.mp hc
      refine ⟨hmoved, hnone, fun u x hu => ?_⟩
      obtain ⟨hne, hu'⟩ := of_setPhase rfl hu
      exact hne (h.removedOnce u t x msg c hu' hremoving)
  · refine List.nodup_append.mpr ⟨h.once, List.nodup_singleton _, fun a ha b hb => ?_⟩
    rintro rfl
    obtain rfl := List.mem_singleton.mp hb
    exact (h.done a ha).2.2 t msg hremoving
  · intro u x hu hasleep
    have hu' := (of_setPhase rfl hu).2
    have hne : u ≠ (s.message msg).waiter := by
      rintro rfl
      simp [replyUnblock, State.return, State.setPhase, schedUnblock] at hasleep
    rw [hwakes u hne] at hasleep
    rcases h.located u x hu' hasleep with hq | hf | ⟨u', hr⟩
    · exact Or.inl hq
    · exact Or.inr (Or.inl hf)
    · refine Or.inr (Or.inr ⟨u', ?_⟩)
      have hother : u' ≠ t := by
        rintro rfl
        rw [hremoving] at hr
        have hx : msg = x := (Prod.mk.inj (Option.some.inj hr)).1
        exact hne (hx ▸ (h.owner u x hu').1.symm)
      simpa [replyUnblock, State.return, State.setPhase, schedUnblock, hother] using hr

end MessageSteps

section LogSteps

variable {s : State T} {t : T}

/-- A call that returns without a message and without success. -/
theorem Log.return (h : Log s) {r : Return} (received : r.received = none)
    (replied : r.replied = none) : Log (s.return t r) where
  order := h.order
  distinct := h.distinct
  received := by simpa [State.return, State.setPhase, received] using h.received
  own := by
    intro args result hmem
    rcases List.mem_append.mp hmem with hmem | hmem
    · exact h.own args result hmem
    · rw [← List.mem_singleton.mp hmem] at received
      simp [Return.received] at received
  replied := by simpa [State.return, State.setPhase, replied] using h.replied

theorem Log.publish (h : Log s) {msg : BitVec 64} {m : IpcMessage T} (fresh : msg ∉ s.queue)
    (distinct : m.cookie ∉ s.sent.map Sent.cookie) :
    Log { s.setPhase t (.published msg) with
      message := Function.update s.message msg m
      queue := s.queue ++ [msg]
      sent := s.sent ++ [asSent m] } where
  order := by
    have hqueue : s.queue.map (fun x => (Function.update s.message msg m x).cookie) =
        s.queue.map fun x => (s.message x).cookie := by
      refine List.map_congr_left fun x hx => ?_
      rw [Function.update_of_ne (ne_of_mem_of_not_mem hx fresh)]
    simp only [List.map_append, hqueue, h.order]
    simp [asSent, State.setPhase]
  distinct := by
    rw [List.map_append]
    refine List.nodup_append.mpr ⟨h.distinct, List.nodup_singleton _, fun a ha b hb => ?_⟩
    rintro rfl
    rw [List.mem_singleton.mp hb] at ha
    exact distinct ha
  received := h.received
  own := by
    intro args r hmem
    obtain ⟨x, hx, hmatches⟩ := h.own args r hmem
    exact ⟨x, List.mem_append_left _ hx, hmatches⟩
  replied := h.replied

theorem Log.deliver (h : Log s) {msg : BitVec 64} {rest : List (BitVec 64)}
    (queue : s.queue = msg :: rest) (args : RecvArgs) (slowPath : Bool)
    (sent : asSent (s.message msg) ∈ s.sent) : Log (deliver s t args slowPath msg rest) where
  order := by
    simp only [(deliver_keepsMessages args slowPath msg rest).cookie]
    simpa [IpcChannel.deliver, State.return, State.setPhase, queue] using h.order
  distinct := h.distinct
  received := by
    simp [IpcChannel.deliver, State.return, State.setPhase, ← h.received]
  own := by
    intro args' r hmem
    rcases List.mem_append.mp hmem with hmem | hmem
    · exact h.own args' r hmem
    · obtain ⟨rfl, hr⟩ := Return.recv.inj (List.mem_singleton.mp hmem)
      obtain rfl := Option.some.inj hr
      exact ⟨_, sent, rfl, rfl, rfl⟩
  replied := by
    simpa [IpcChannel.deliver, State.return, State.setPhase, List.filterMap_cons] using h.replied

theorem Log.remove (h : Log s) (msg cookie result : BitVec 64) :
    Log (replyRemove s t msg cookie result) :=
  h.congr (replyRemove_keepsMessages msg cookie result).cookie rfl rfl rfl rfl rfl

theorem Log.unblock (h : Log s) (msg cookie : BitVec 64) : Log (replyUnblock s t msg cookie) where
  order := h.order
  distinct := h.distinct
  received := by
    simpa [replyUnblock, State.return, State.setPhase, schedUnblock, List.filterMap_cons] using
      h.received
  own := by
    intro args r hmem
    rcases List.mem_append.mp hmem with hmem | hmem
    · exact h.own args r hmem
    · cases List.mem_singleton.mp hmem
  replied := by
    have happend : (s.returns ++ [Return.reply cookie cookie]).filterMap Return.replied =
        s.returns.filterMap Return.replied ++ [Return.reply cookie cookie].filterMap
          Return.replied := List.filterMap_append
    have hlast : ([Return.reply cookie cookie].filterMap Return.replied).Sublist [cookie] := by
      by_cases hzero : cookie = 0#64 <;> simp [Return.replied, hzero]
    exact happend ▸ h.replied.append hlast

theorem Log.wake (h : Log s) (msg : BitVec 64) : Log (sendWake s t msg) := by
  unfold sendWake
  cases s.receivers <;> exact h.congr (fun _ => rfl) rfl rfl rfl rfl rfl

end LogSteps

/-! ## Runs -/

structure Sound (s : State T) : Prop where
  tasks : Tasks s
  messages : Messages s
  log : Log s

/-- No other reply to the same cookie is between its lookup and its removal. -/
def Exclusive (s : State T) : Act T → Prop
  | .reply _ cookie _ => ∀ u msg, (s.phase u).looking ≠ some (msg, cookie)
  | _ => True

section SoundSteps

variable {s : State T} {t : T}

/-- An idle task that returns at once. -/
theorem Sound.return (h : Sound s) {r : Return} (idle : s.phase t = .idle)
    (received : r.received = none) (replied : r.replied = none) : Sound (s.return t r) := by
  have hsame : s.setPhase t .idle = s := by
    simp [State.setPhase, ← idle]
  have hlog := h.log.return (t := t) received replied
  unfold State.return at hlog ⊢
  rw [hsame] at hlog ⊢
  exact ⟨h.tasks.congr rfl rfl rfl rfl, h.messages.congr rfl rfl rfl rfl rfl rfl rfl rfl, hlog⟩

theorem Sound.send (h : Sound s) {tag size buffer cookie phys : BitVec 64}
    {block : Option (BitVec 64)} (idle : s.phase t = .idle)
    (fresh : ∀ msg ∈ block, ∀ u, (s.phase u).sending ≠ some msg)
    (distinct : cookie ∉ s.sent.map Sent.cookie) :
    Sound (sendPublish s t tag size buffer block cookie phys) := by
  unfold sendPublish
  split_ifs with haligned hsize
  · exact h.return idle rfl rfl
  · cases block with
    | none => exact h.return idle rfl rfl
    | some msg =>
      have hasleep : s.wakes t = 0 :=
        h.tasks.sleeping (by rw [idle]; rfl) (by simp [idle, Phase.receiving])
      have hfresh := fresh msg rfl
      have hsent : asSent (initMessage tag size cookie phys t) =
          { cookie := cookie, tag := tag, size := size } := by
        simp [asSent, initMessage, if_neg hsize]
      have hqueue : msg ∉ s.queue := fun hmem => hfresh _ (h.messages.queued msg hmem).1
      have htasks : Tasks (s.setPhase t (.published msg)) :=
        h.tasks.setPhase (by simp [idle, Phase.receiving]) (by simp [Phase.receiving])
          (by simp [idle, Phase.joining]) (fun _ => rfl)
      rw [← hsent]
      exact ⟨htasks.congr rfl rfl rfl rfl,
        h.messages.publish idle hasleep hfresh rfl, h.log.publish hqueue distinct⟩
  · exact h.return idle rfl rfl

theorem Sound.wake (h : Sound s) {msg : BitVec 64} (phase : s.phase t = .published msg) :
    Sound (sendWake s t msg) := by
  refine ⟨h.tasks.wake phase, ?_, h.log.wake msg⟩
  unfold sendWake
  cases hr : s.receivers with
  | nil => exact h.messages.setPhase (by rw [phase]; rfl) (by rw [phase]; rfl) (by rw [phase]; rfl)
  | cons receiver rest =>
    obtain ⟨hreceiving, -⟩ := (h.tasks.waiting receiver).mp (hr ▸ List.mem_cons_self)
    have hsending : (s.phase receiver).sending = none := by
      cases hp : s.phase receiver <;> simp [hp, Phase.sending, Phase.receiving] at hreceiving ⊢
    have hwoken : Messages (schedUnblock s receiver) := h.messages.setWakes hsending _
    have hphase : (schedUnblock s receiver).phase t = .published msg := phase
    have hwaiting : Messages ((schedUnblock s receiver).setPhase t (.sendWaiting msg)) :=
      hwoken.setPhase (by rw [hphase]; rfl) (by rw [hphase]; rfl) (by rw [hphase]; rfl)
    exact hwaiting.congr rfl rfl rfl rfl rfl rfl rfl rfl

/-- A call that was unblocked is resumed and returns without a message. -/
theorem Sound.return_resumed (h : Sound s) {r : Return} (awake : s.wakes t ≠ 0)
    (outside : (s.phase t).joining = false) (looking : (s.phase t).looking = none)
    (removing : (s.phase t).removing = none) (received : r.received = none)
    (replied : r.replied = none) : Sound ((s.resume t).return t r) := by
  have hlog : Log (s.resume t) :=
    h.log.congr (fun _ => rfl) rfl rfl rfl rfl rfl
  refine ⟨h.tasks.return_resumed awake outside r, ?_, hlog.return received replied⟩
  have hsame : ∀ u ≠ t, ((s.resume t).return t r).phase u = s.phase u ∧
      ((s.resume t).return t r).wakes u = s.wakes u := by
    intro u hne
    simp [State.return, State.setPhase, State.resume, hne]
  refine h.messages.of_calm ?_ ?_ (setPhase_same looking.symm)
    (setPhase_same removing.symm) rfl rfl rfl rfl rfl rfl
  · intro u x hu
    obtain ⟨hne, hu'⟩ := of_setPhase rfl hu
    exact ⟨hu', fun hasleep => (hsame u hne).2.symm.trans hasleep⟩
  · intro u x hu hasleep
    have hne : u ≠ t := by
      rintro rfl
      exact awake hasleep
    rw [(hsame u hne).1, (hsame u hne).2]
    exact ⟨hu, hasleep⟩

omit [DecidableEq T] in
theorem Sound.queued_sent (h : Sound s) {msg : BitVec 64} (queued : msg ∈ s.queue) :
    asSent (s.message msg) ∈ s.sent :=
  (h.messages.owner _ msg (h.messages.queued msg queued).1).2

theorem Sound.recv (h : Sound s) (args : RecvArgs) (idle : s.phase t = .idle)
    (unlocked : pageAligned args.buffer → s.receiversLock = none) :
    Sound (recvCheck s t args) := by
  unfold recvCheck
  split_ifs with haligned
  · cases hq : s.queue with
    | nil =>
      refine ⟨h.tasks.check args idle (unlocked haligned), ?_,
        h.log.congr (fun _ => rfl) rfl rfl rfl rfl rfl⟩
      have hchecked : Messages (s.setPhase t (.checked args)) :=
        h.messages.setPhase (by rw [idle]; rfl) (by rw [idle]; rfl) (by rw [idle]; rfl)
      exact hchecked.congr rfl rfl rfl rfl rfl rfl rfl rfl
    | cons msg rest =>
      have htasks := (h.return (r := .recv args none) idle rfl rfl).tasks
      exact ⟨htasks.congr rfl rfl rfl rfl,
        h.messages.deliver h.log hq args false (by rw [idle]; rfl) (by rw [idle]; rfl),
        h.log.deliver hq args false (h.queued_sent (hq ▸ List.mem_cons_self))⟩
  · exact h.return idle rfl rfl

theorem Sound.join (h : Sound s) {args : RecvArgs} (phase : s.phase t = .checked args) :
    Sound (recvJoin s t args) := by
  refine ⟨h.tasks.join phase, ?_,
    h.log.congr (fun _ => rfl) rfl rfl rfl rfl rfl⟩
  have hwaiting : Messages (s.setPhase t (.recvWaiting args)) :=
    h.messages.setPhase (by rw [phase]; rfl) (by rw [phase]; rfl) (by rw [phase]; rfl)
  exact hwaiting.congr rfl rfl rfl rfl rfl rfl rfl rfl

theorem Sound.recvResume (h : Sound s) {args : RecvArgs} (phase : s.phase t = .recvWaiting args)
    (awake : s.wakes t ≠ 0) : Sound (recvResume s t args) := by
  have hreturn := h.return_resumed (r := .recv args none) awake (by rw [phase]; rfl)
    (by rw [phase]; rfl) (by rw [phase]; rfl) rfl rfl
  unfold IpcChannel.recvResume
  cases hq : s.queue with
  | nil => exact hreturn
  | cons msg rest =>
    have hsending : (s.phase t).sending = none := by rw [phase]; rfl
    have hmessages : Messages (s.resume t) := h.messages.setWakes hsending _
    have hlog : Log (s.resume t) :=
      h.log.congr (fun _ => rfl) rfl rfl rfl rfl rfl
    have htasks := hreturn.tasks
    exact ⟨htasks.congr rfl rfl rfl rfl,
      hmessages.deliver hlog hq args true hsending (by rw [State.resume, phase]; rfl),
      hlog.deliver hq args true (h.queued_sent (hq ▸ List.mem_cons_self))⟩

theorem Sound.reply (h : Sound s) {cookie result : BitVec 64} (idle : s.phase t = .idle)
    (exclusive : ∀ u msg, (s.phase u).looking ≠ some (msg, cookie)) :
    Sound (replyLookup s t cookie result) := by
  unfold replyLookup
  cases hf : s.inFlight cookie with
  | none => exact h.return idle rfl rfl
  | some msg =>
    refine ⟨?_, h.messages.lookup idle hf exclusive,
      h.log.congr (fun _ => rfl) rfl rfl rfl rfl rfl⟩
    refine h.tasks.setPhase (by simp [idle, Phase.receiving]) (by simp [Phase.receiving])
      (by simp [idle, Phase.joining]) (fun hawake => absurd ?_ hawake)
    exact h.tasks.sleeping (by rw [idle]; rfl) (by simp [idle, Phase.receiving])

theorem Sound.remove (h : Sound s) {msg cookie result : BitVec 64}
    (phase : s.phase t = .found msg cookie result) : Sound (replyRemove s t msg cookie result) := by
  have htasks : Tasks (s.setPhase t (.removed msg cookie result)) := by
    refine h.tasks.setPhase (by simp [phase, Phase.receiving]) (by simp [Phase.receiving])
      (by simp [phase, Phase.joining]) (fun hawake => absurd ?_ hawake)
    exact h.tasks.sleeping (by rw [phase]; rfl) (by simp [phase, Phase.receiving])
  exact ⟨htasks.congr rfl rfl rfl rfl, h.messages.remove phase,
    h.log.remove msg cookie result⟩

theorem Sound.unblock (h : Sound s) {msg cookie result : BitVec 64}
    (phase : s.phase t = .removed msg cookie result) : Sound (replyUnblock s t msg cookie) := by
  obtain ⟨⟨hsending, hasleep⟩, -⟩ := h.messages.removed t msg cookie (by rw [phase]; rfl)
  have hunblocked : Tasks (schedUnblock s (s.message msg).waiter) :=
    h.tasks.unblock (by rw [hsending]; rfl) hasleep
  have hphase : (schedUnblock s (s.message msg).waiter).phase t = .removed msg cookie result :=
    phase
  have htasks : Tasks ((schedUnblock s (s.message msg).waiter).setPhase t .idle) := by
    refine hunblocked.setPhase (by simp [hphase, Phase.receiving]) (by simp [Phase.receiving])
      (by simp [hphase, Phase.joining]) (fun hawake => absurd ?_ hawake)
    exact hunblocked.sleeping (by rw [hphase]; rfl) (by simp [hphase, Phase.receiving])
  exact ⟨htasks.congr rfl rfl rfl rfl,
    h.messages.unblock h.log phase, h.log.unblock msg cookie⟩

theorem Sound.step (h : Sound s) {a : Act T} {s' : State T} (exclusive : Exclusive s a)
    (step : Step s a s') : Sound s' := by
  cases step with
  | send tag size buffer phys idle fresh nonzero distinct => exact h.send idle fresh distinct
  | wake phase unlocked => exact h.wake phase
  | sendReturn phase awake =>
    exact h.return_resumed awake (by rw [phase]; rfl) (by rw [phase]; rfl) (by rw [phase]; rfl)
      rfl rfl
  | recv args idle unlocked => exact h.recv args idle unlocked
  | join phase => exact h.join phase
  | recvResume phase awake => exact h.recvResume phase awake
  | reply cookie result idle => exact h.reply idle exclusive
  | remove phase => exact h.remove phase
  | unblock phase => exact h.unblock phase

omit [DecidableEq T] in
theorem Sound.initial (h : Initial s) : Sound s := by
  refine ⟨⟨?_, ?_, ?_, ?_⟩, ⟨?_, ?_, ?_, ?_, ?_, ?_, ?_, ?_, ?_, ?_⟩, ⟨?_, ?_, ?_, ?_, ?_⟩⟩ <;>
    simp [h.queue, h.receivers, h.receiversLock, h.inFlight, h.phase, h.wakes, h.sent, h.moved,
      h.unblocked, h.returns, Phase.sending, Phase.looking, Phase.removing, Phase.joining,
      Phase.receiving]

/-- In every run without overlapping replies to one message the books are sound. -/
theorem reachable_sound (h : Reachable ((channel T).restrict Exclusive) s) : Sound s := by
  refine h.invariant Sound (fun _ hinit => Sound.initial hinit) ?_
  rintro s a s' hsound ⟨hexclusive, hstep⟩
  exact hsound.step hexclusive hstep

end SoundSteps

/-! ## One exchange, step by step -/

def firstTask : Fin 3 := 0
def secondTask : Fin 3 := 1
def thirdTask : Fin 3 := 2

/-- A channel for three tasks. -/
def created : State (Fin 3) where
  queue := []
  receivers := []
  receiversLock := none
  message := fun _ => initMessage 0 0 0 0 firstTask
  inFlight := fun _ => none
  phase := fun _ => .idle
  wakes := fun _ => 0
  sent := []
  moved := []
  unblocked := []
  returns := []

/-- The first task has sent a message and the second received it. -/
def exchanged : State (Fin 3) :=
  recvCheck (sendPublish created firstTask 5 16 0x2000 (some 0x1000) 7 0x9000) secondTask
    { tag := true, bufferSize := true, buffer := 0x3000 }

theorem reachable_exchanged (guard : State (Fin 3) → Act (Fin 3) → Prop)
    (send : guard created (.send firstTask 5 16 0x2000 (some 0x1000) 7 0x9000))
    (recv : guard (sendPublish created firstTask 5 16 0x2000 (some 0x1000) 7 0x9000)
      (.recv secondTask { tag := true, bufferSize := true, buffer := 0x3000 })) :
    Reachable ((channel (Fin 3)).restrict guard) exchanged := by
  have hstart : Reachable ((channel (Fin 3)).restrict guard) created :=
    .start ⟨rfl, rfl, rfl, rfl, rfl, rfl, rfl, rfl, rfl, rfl⟩
  have hsent := hstart.next ⟨send, .send 5 16 0x2000 0x9000 rfl (by simp [created, Phase.sending])
    (by decide) (by simp [created])⟩
  exact hsent.next ⟨recv, .recv _ rfl (fun _ => rfl)⟩

/-! ## Delivery -/

/-- The call that sent the message has not been unblocked. -/
def Waits (s : State T) (t : T) (msg : BitVec 64) : Prop :=
  (s.phase t).sending = some msg ∧ s.wakes t = 0

instance (s : State T) (t : T) (msg : BitVec 64) : Decidable (Waits s t msg) :=
  inferInstanceAs (Decidable (_ ∧ _))

def IsQueued (s : State T) (msg : BitVec 64) : Prop := s.queue.count msg = 1

instance (s : State T) (msg : BitVec 64) : Decidable (IsQueued s msg) :=
  inferInstanceAs (Decidable (_ = _))

def IsInFlight (s : State T) (msg : BitVec 64) : Prop :=
  s.inFlight (s.message msg).cookie = some msg

instance (s : State T) (msg : BitVec 64) : Decidable (IsInFlight s msg) :=
  inferInstanceAs (Decidable (_ = _))

/-- A reply has removed the message and not yet unblocked its sender. -/
def IsAnswered (s : State T) (msg : BitVec 64) : Prop :=
  ∃ t, (s.phase t).removing = some (msg, (s.message msg).cookie)

/-- Messages are moved once each and in order, and each one moved is returned by one call of
`recv` with its own tag and size. -/
structure Delivered (s : State T) : Prop where
  order : s.sent.map Sent.cookie = s.moved ++ s.queue.map fun msg => (s.message msg).cookie
  distinct : (s.sent.map Sent.cookie).Nodup
  received : (s.returns.filterMap Return.received).map RecvResult.cookie = s.moved
  own : ∀ args r, .recv args (some r) ∈ s.returns → ∃ m ∈ s.sent, Matches args r m

section Results

variable {s : State T}

omit [DecidableEq T] in
theorem Sound.located (h : Sound s) {t : T} {msg : BitVec 64} (waits : Waits s t msg) :
    (IsQueued s msg ∧ ¬ IsInFlight s msg ∧ ¬ IsAnswered s msg) ∨
    (msg ∉ s.queue ∧ IsInFlight s msg ∧ ¬ IsAnswered s msg) ∨
    (msg ∉ s.queue ∧ ¬ IsInFlight s msg ∧ IsAnswered s msg) := by
  have hnodup : s.queue.Nodup := by
    have hcookies := h.log.distinct
    rw [h.log.order] at hcookies
    exact List.Nodup.of_map _ (List.nodup_append.mp hcookies).2.1
  have hflight : IsInFlight s msg → msg ∉ s.queue := fun hf hq =>
    h.log.not_moved hq (h.messages.flight _ msg hf).2.2
  have hanswered : IsAnswered s msg → msg ∉ s.queue ∧ ¬ IsInFlight s msg := by
    rintro ⟨u, hu⟩
    obtain ⟨-, -, hmoved, hnone⟩ := h.messages.removed u msg _ hu
    refine ⟨fun hq => h.log.not_moved hq hmoved, fun hf => ?_⟩
    rw [IsInFlight, hnone] at hf
    cases hf
  rcases h.messages.located t msg waits.1 waits.2 with hq | hf | ha
  · exact Or.inl ⟨List.count_eq_one_of_mem hnodup hq, fun hf => hflight hf hq,
      fun ha => (hanswered ha).1 hq⟩
  · exact Or.inr (Or.inl ⟨hflight hf, hf, fun ha => (hanswered ha).2 hf⟩)
  · exact Or.inr (Or.inr ⟨(hanswered ha).1, (hanswered ha).2, ha⟩)

/-- In every run without overlapping replies to one message, at most one reply to a message
succeeds and its sender is unblocked at most once. -/
theorem replies_succeed_once (h : Reachable ((channel T).restrict Exclusive) s)
    (cookie : BitVec 64) :
    (s.returns.filterMap Return.replied).count cookie ≤ 1 ∧ s.unblocked.count cookie ≤ 1 := by
  have hsound := reachable_sound h
  have honce := List.nodup_iff_count_le_one.mp hsound.messages.once cookie
  exact ⟨(hsound.log.replied.count_le cookie).trans honce, honce⟩

theorem replies_succeed_once_exchanged :
    (exchanged.returns.filterMap Return.replied).count 7 ≤ 1 ∧ exchanged.unblocked.count 7 ≤ 1 :=
  replies_succeed_once (reachable_exchanged Exclusive trivial trivial) 7

/-- Two replies that both look the message up before either removes it both succeed. -/
theorem two_replies_succeed :
    ¬ ∀ s : State (Fin 3), Reachable (channel (Fin 3)) s → ∀ cookie,
      (s.returns.filterMap Return.replied).count cookie ≤ 1 ∧ s.unblocked.count cookie ≤ 1 := by
  intro h
  have hexchanged : Reachable (channel (Fin 3)) exchanged :=
    (reachable_exchanged Exclusive trivial trivial).of_restrict
  have hfound := (hexchanged.next (.reply (t := secondTask) 7 42 rfl)).next (.reply (t := thirdTask) 7 43 rfl)
  have hremoved := (hfound.next (.remove (t := secondTask) rfl)).next (.remove (t := thirdTask) rfl)
  have hunblocked := (hremoved.next (.unblock (t := secondTask) rfl)).next (.unblock (t := thirdTask) rfl)
  exact absurd (h _ hunblocked 7) (by decide)

end Results

end ChannelDelivery
