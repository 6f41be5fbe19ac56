import AnosKernel.ChannelDelivery
import AnosKernel.Lib.Counting

/-!
# Receivers, wake-ups and queued messages

A sender queues its message in one section and wakes a receiver in another, and a receiver that
finds a message takes it at once, also while another receiver, woken for that message, is on
its way. So the numbers of queued messages, of receivers woken and not yet resumed, and of
senders that have yet to look at the receivers go out of step, but not in every direction: while
a receiver is in line no message is left without a wake-up under way. The other direction needs
that neither the fast path nor a wake-up spends a message that is already promised.
-/

namespace ChannelWakeups

open Runs Counting IpcChannel ChannelDelivery

/-- In `send`, between queueing the message and looking at the receivers. -/
def publishing : Phase → Bool
  | .published _ => true
  | _ => false

def isWoken {T : Type} (s : State T) (t : T) : Bool := (s.phase t).receiving && s.wakes t != 0

section Numbers

variable {T : Type} [Fintype T]

/-- The receivers that are unblocked and not yet resumed. -/
def wokenCount (s : State T) : Nat := count (isWoken s)

/-- The senders that have queued their message and not yet looked at the receivers. -/
def publishingCount (s : State T) : Nat := count fun t => publishing (s.phase t)

/-- How a step changes the numbers that matter here. -/
inductive Effect (s s' : State T) : Act T → Prop
  | calm {a : Act T} (queue : s'.queue.length = s.queue.length)
      (receivers : s'.receivers = s.receivers) (lock : s'.receiversLock = s.receiversLock)
      (woken : wokenCount s' = wokenCount s) (publishing : publishingCount s' = publishingCount s) :
      Effect s s' a
  | publish {a : Act T} (queue : s'.queue.length = s.queue.length + 1)
      (receivers : s'.receivers = s.receivers) (lock : s'.receiversLock = s.receiversLock)
      (woken : wokenCount s' = wokenCount s)
      (publishing : publishingCount s' = publishingCount s + 1) : Effect s s' a
  | noReceiver {a : Act T} (queue : s'.queue.length = s.queue.length)
      (receivers : s'.receivers = []) (lock : s'.receiversLock = none)
      (woken : wokenCount s' = wokenCount s)
      (publishing : publishingCount s' + 1 = publishingCount s) : Effect s s' a
  | wakeReceiver {t : T} (queue : s'.queue.length = s.queue.length) (waiting : s.receivers ≠ [])
      (lock : s'.receiversLock = none) (woken : wokenCount s' = wokenCount s + 1)
      (publishing : publishingCount s' + 1 = publishingCount s) : Effect s s' (.wake t)
  | fastPath {t : T} {args : RecvArgs} (aligned : pageAligned args.buffer)
      (queue : s'.queue.length + 1 = s.queue.length) (receivers : s'.receivers = s.receivers)
      (lock : s'.receiversLock = s.receiversLock) (woken : wokenCount s' = wokenCount s)
      (publishing : publishingCount s' = publishingCount s) : Effect s s' (.recv t args)
  | checked {a : Act T} (queue : s'.queue = []) (empty : s.queue = [])
      (woken : wokenCount s' = wokenCount s) : Effect s s' a
  | joined {a : Act T} (queue : s'.queue = s.queue) (lock : s.receiversLock ≠ none)
      (woken : wokenCount s' = wokenCount s) (publishing : publishingCount s' = publishingCount s) :
      Effect s s' a
  | resumed {a : Act T} (queue : s'.queue.length = s.queue.length - 1)
      (receivers : s'.receivers = s.receivers) (lock : s'.receiversLock = s.receiversLock)
      (woken : wokenCount s' + 1 = wokenCount s) (publishing : publishingCount s' = publishingCount s) :
      Effect s s' a

variable [DecidableEq T] {s s' : State T} {t : T}

omit [DecidableEq T] in
theorem wokenCount_same (same : ∀ u, isWoken s' u = isWoken s u) :
    wokenCount s' = wokenCount s := congrArg count (funext same)

omit [DecidableEq T] in
theorem publishingCount_same (same : ∀ u, publishing (s'.phase u) = publishing (s.phase u)) :
    publishingCount s' = publishingCount s := congrArg count (funext same)

omit [Fintype T] in
/-- Nobody but `t`, who is not waiting in `recv`, changes. -/
theorem isWoken_setPhase {phase : Phase} (before : (s.phase t).receiving = false)
    (after : phase.receiving = false) (u : T) : isWoken (s.setPhase t phase) u = isWoken s u := by
  have hsame : ((s.setPhase t phase).phase u).receiving = (s.phase u).receiving :=
    setPhase_same (after.trans before.symm) u
  rw [isWoken, hsame]
  rfl

theorem return_effect {a : Act T} {r : Return} (idle : s.phase t = .idle) :
    Effect s (s.return t r) a := by
  refine .calm rfl rfl rfl (wokenCount_same ?_) (publishingCount_same ?_)
  · exact isWoken_setPhase (by rw [idle]; rfl) rfl
  · exact setPhase_same (by rw [idle])

theorem sendPublish_effect {a : Act T} {tag size buffer cookie phys : BitVec 64}
    {block : Option (BitVec 64)} (idle : s.phase t = .idle) :
    Effect s (sendPublish s t tag size buffer block cookie phys) a := by
  unfold sendPublish
  split_ifs with haligned hsize
  · exact return_effect idle
  · cases block with
    | none => exact return_effect idle
    | some msg =>
      refine .publish (by simp) rfl rfl (wokenCount_same ?_) (count_gain (a := t) ?_ ?_ ?_)
      · exact isWoken_setPhase (by rw [idle]; rfl) rfl
      · intro u hne
        simp [State.setPhase, hne]
      · simp [idle, publishing]
      · simp [State.setPhase, publishing]
  · exact return_effect idle

theorem sendWake_effect (h : Sound s) {msg : BitVec 64} (phase : s.phase t = .published msg)
    (unlocked : s.receiversLock = none) : Effect s (sendWake s t msg) (.wake t) := by
  have hpublishing : ∀ s1 : State T, s1.phase = (s.setPhase t (.sendWaiting msg)).phase →
      publishingCount s1 + 1 = publishingCount s := by
    intro s1 hphase
    refine count_loss (a := t) ?_ (by simp [phase, publishing]) ?_
    · intro u hne
      simp [hphase, State.setPhase, hne]
    · simp [hphase, State.setPhase, publishing]
  unfold sendWake
  cases hr : s.receivers with
  | nil =>
    refine .noReceiver rfl hr unlocked (wokenCount_same ?_) (hpublishing _ rfl)
    exact isWoken_setPhase (by rw [phase]; rfl) rfl
  | cons receiver rest =>
    obtain ⟨hreceiving, hasleep⟩ := (h.tasks.waiting receiver).mp (hr ▸ List.mem_cons_self)
    have hne : receiver ≠ t := by
      rintro rfl
      simp [phase, Phase.receiving] at hreceiving
    refine .wakeReceiver rfl (by simp [hr]) unlocked (count_gain (a := receiver) ?_ ?_ ?_)
      (hpublishing _ rfl)
    · intro u hu
      have hsame : isWoken ((schedUnblock s receiver).setPhase t (.sendWaiting msg)) u =
          isWoken (schedUnblock s receiver) u :=
        isWoken_setPhase (by rw [schedUnblock, phase]; rfl) rfl u
      refine hsame.trans ?_
      simp [isWoken, schedUnblock, hu]
    · simp [isWoken, hasleep]
    · simp [isWoken, State.setPhase, schedUnblock, hne, hreceiving]

theorem recvCheck_effect (args : RecvArgs) (idle : s.phase t = .idle) :
    Effect s (recvCheck s t args) (.recv t args) := by
  unfold recvCheck
  split_ifs with haligned
  · cases hq : s.queue with
    | nil => exact .checked hq hq (wokenCount_same (isWoken_setPhase (by rw [idle]; rfl) rfl))
    | cons msg rest =>
      refine .fastPath haligned (by simp [hq, deliver]) rfl rfl (wokenCount_same ?_)
        (publishingCount_same ?_)
      · exact isWoken_setPhase (by rw [idle]; rfl) rfl
      · exact setPhase_same (by rw [idle])
  · exact return_effect idle

theorem recvJoin_effect {a : Act T} (h : Sound s) {args : RecvArgs}
    (phase : s.phase t = .checked args) : Effect s (recvJoin s t args) a := by
  have hlock : s.receiversLock = some t :=
    (h.tasks.locked t).mpr (by simp [phase, Phase.joining])
  have hasleep : s.wakes t = 0 :=
    h.tasks.sleeping (by rw [phase]; rfl) (by simp [phase, Phase.receiving])
  refine .joined rfl (by simp [hlock]) (wokenCount_same fun u => ?_)
    (publishingCount_same (setPhase_same (by rw [phase]; rfl)))
  rcases eq_or_ne u t with rfl | hne
  · simp [isWoken, recvJoin, State.setPhase, hasleep]
  · simp [isWoken, recvJoin, State.setPhase, hne]

/-- A call of `recv` that was woken uses its wake-up, whatever it finds. -/
theorem recvResume_effect {a : Act T} (h : Sound s) {args : RecvArgs}
    (phase : s.phase t = .recvWaiting args) (awake : s.wakes t ≠ 0) :
    Effect s (recvResume s t args) a := by
  have hone := (h.tasks.awake t awake).1
  have hwoken : ∀ s1 : State T, s1.phase = (s.setPhase t .idle).phase →
      s1.wakes = (s.resume t).wakes → wokenCount s1 + 1 = wokenCount s := by
    intro s1 hphase hwakes
    refine count_loss (a := t) ?_ (by simp [isWoken, phase, Phase.receiving, awake]) ?_
    · intro u hne
      simp [isWoken, hphase, hwakes, State.setPhase, State.resume, hne]
    · simp [isWoken, hphase, State.setPhase, Phase.receiving]
  have hpublishing : ∀ s1 : State T, s1.phase = (s.setPhase t .idle).phase →
      publishingCount s1 = publishingCount s := by
    intro s1 hphase
    refine publishingCount_same fun u => ?_
    rw [hphase]
    exact setPhase_same (by rw [phase]; rfl) u
  unfold IpcChannel.recvResume
  cases hq : s.queue with
  | nil =>
    have hqueue : ((s.resume t).return t (.recv args none)).queue.length = s.queue.length - 1 := by
      simp [State.return, State.setPhase, State.resume, hq]
    exact .resumed hqueue rfl rfl (hwoken _ rfl rfl) (hpublishing _ rfl)
  | cons msg rest =>
    exact .resumed (by simp [hq, deliver]) rfl rfl (hwoken _ rfl rfl) (hpublishing _ rfl)

theorem replyLookup_effect {a : Act T} {cookie result : BitVec 64} (idle : s.phase t = .idle) :
    Effect s (replyLookup s t cookie result) a := by
  unfold replyLookup
  cases s.inFlight cookie with
  | none => exact return_effect idle
  | some msg =>
    exact .calm rfl rfl rfl (wokenCount_same (isWoken_setPhase (by rw [idle]; rfl) rfl))
      (publishingCount_same (setPhase_same (by rw [idle]; rfl)))

theorem replyRemove_effect {a : Act T} {msg cookie result : BitVec 64}
    (phase : s.phase t = .found msg cookie result) :
    Effect s (replyRemove s t msg cookie result) a :=
  .calm rfl rfl rfl (wokenCount_same (isWoken_setPhase (by rw [phase]; rfl) rfl))
    (publishingCount_same (setPhase_same (by rw [phase]; rfl)))

/-- The waiter of a message is a sender, so no receiver is woken. -/
theorem replyUnblock_effect {a : Act T} (h : Sound s) {msg cookie result : BitVec 64}
    (phase : s.phase t = .removed msg cookie result) : Effect s (replyUnblock s t msg cookie) a := by
  obtain ⟨⟨hsending, -⟩, -⟩ := h.messages.removed t msg cookie (by rw [phase]; rfl)
  refine .calm rfl rfl rfl (wokenCount_same fun u => ?_)
    (publishingCount_same (setPhase_same (by rw [schedUnblock, phase]; rfl)))
  have hsame : isWoken ((schedUnblock s (s.message msg).waiter).setPhase t .idle) u =
      isWoken (schedUnblock s (s.message msg).waiter) u :=
    isWoken_setPhase (by rw [schedUnblock, phase]; rfl) rfl u
  refine hsame.trans ?_
  rcases eq_or_ne u (s.message msg).waiter with rfl | hne
  · cases hp : s.phase (s.message msg).waiter <;>
      simp [hp, Phase.sending, isWoken, schedUnblock, Phase.receiving] at hsending ⊢
  · simp [isWoken, schedUnblock, hne]

theorem sendReturn_effect {a : Act T} {msg : BitVec 64} (phase : s.phase t = .sendWaiting msg) :
    Effect s (sendReturn s t msg) a := by
  refine .calm rfl rfl rfl (wokenCount_same fun u => ?_)
    (publishingCount_same (setPhase_same (by rw [State.resume, phase]; rfl)))
  rcases eq_or_ne u t with rfl | hne
  · simp [isWoken, sendReturn, State.return, State.setPhase, phase, Phase.receiving]
  · simp [isWoken, sendReturn, State.return, State.setPhase, State.resume, hne]

theorem step_effect (h : Sound s) {a : Act T} (step : Step s a s') : Effect s s' a := by
  cases step with
  | send tag size buffer phys idle fresh nonzero distinct => exact sendPublish_effect idle
  | wake phase unlocked => exact sendWake_effect h phase unlocked
  | sendReturn phase awake => exact sendReturn_effect phase
  | recv args idle unlocked => exact recvCheck_effect args idle
  | join phase => exact recvJoin_effect h phase
  | recvResume phase awake => exact recvResume_effect h phase awake
  | reply cookie result idle => exact replyLookup_effect idle
  | remove phase => exact replyRemove_effect phase
  | unblock phase => exact replyUnblock_effect h phase

/-! ## Two receivers and one message -/

def buffered : RecvArgs := { tag := true, bufferSize := true, buffer := 0x3000 }

/-- The second task waits for a message and the first has queued one. -/
def promised : State (Fin 3) :=
  sendPublish (recvJoin (recvCheck created secondTask buffered) secondTask buffered) firstTask 5 16
    0x2000 (some 0x1000) 7 0x9000

theorem reachable_promised : Reachable ((channel (Fin 3)).restrict Exclusive) promised := by
  have hstart : Reachable ((channel (Fin 3)).restrict Exclusive) created :=
    .start ⟨rfl, rfl, rfl, rfl, rfl, rfl, rfl, rfl, rfl, rfl⟩
  have hchecked := hstart.next (a := Act.recv secondTask buffered)
    ⟨trivial, .recv buffered rfl fun _ => rfl⟩
  have hjoined := hchecked.next (a := Act.join secondTask) ⟨trivial, .join rfl⟩
  refine hjoined.next (a := Act.send firstTask 5 16 0x2000 (some 0x1000) 7 0x9000) ⟨trivial, ?_⟩
  refine .send 5 16 0x2000 0x9000 rfl (fun msg hmsg => ?_) (by decide) (by decide)
  obtain rfl := Option.some.inj hmsg
  decide

/-! ## No lost wake-up -/

/-- While a receiver is in line, or about to join, every queued message has a receiver woken
for it or a sender that will look at the receivers. -/
def Covered (s : State T) : Prop :=
  s.receivers ≠ [] ∨ s.receiversLock ≠ none → s.queue.length ≤ wokenCount s + publishingCount s

omit [DecidableEq T] in
theorem Covered.step {a : Act T} (h : Covered s) (effect : Effect s s' a) : Covered s' := by
  intro hwaiting
  cases effect with
  | calm queue receivers lock woken publishing =>
    have hcovered := h (by rwa [← receivers, ← lock])
    omega
  | publish queue receivers lock woken publishing =>
    have hcovered := h (by rwa [← receivers, ← lock])
    omega
  | noReceiver queue receivers lock woken publishing => simp [receivers, lock] at hwaiting
  | wakeReceiver queue waiting lock woken publishing =>
    have hcovered := h (Or.inl waiting)
    omega
  | fastPath aligned queue receivers lock woken publishing =>
    have hcovered := h (by rwa [← receivers, ← lock])
    omega
  | checked queue empty woken =>
    rw [queue]
    exact Nat.zero_le _
  | joined queue lock woken publishing =>
    have hcovered := h (Or.inr lock)
    rw [queue]
    omega
  | resumed queue receivers lock woken publishing =>
    have hcovered := h (by rwa [← receivers, ← lock])
    omega

theorem reachable_covered (h : Reachable ((channel T).restrict Exclusive) s) : Covered s := by
  have hboth : Sound s ∧ Covered s := by
    refine h.invariant (fun s => Sound s ∧ Covered s) ?_ ?_
    · intro s hinit
      refine ⟨Sound.initial hinit, fun hwaiting => ?_⟩
      simp [hinit.receivers, hinit.receiversLock] at hwaiting
    · rintro s a s' ⟨hsound, hcovered⟩ ⟨hexclusive, hstep⟩
      exact ⟨hsound.step hexclusive hstep, hcovered.step (step_effect hsound hstep)⟩
  exact hboth.2

/-- Neither the fast path nor a wake-up spends a queued message that a woken receiver is still
to take. -/
def Unpromised (s : State T) : Act T → Prop
  | .recv _ args => pageAligned args.buffer → s.queue ≠ [] → wokenCount s < s.queue.length
  | .wake _ => s.receivers ≠ [] → wokenCount s < s.queue.length
  | _ => True

omit [DecidableEq T] in
theorem promises_kept {a : Act T} (h : wokenCount s ≤ s.queue.length) (guard : Unpromised s a)
    (effect : Effect s s' a) : wokenCount s' ≤ s'.queue.length := by
  cases effect with
  | calm queue receivers lock woken publishing => omega
  | publish queue receivers lock woken publishing => omega
  | noReceiver queue receivers lock woken publishing => omega
  | wakeReceiver queue waiting lock woken publishing =>
    have hspare := guard waiting
    omega
  | fastPath aligned queue receivers lock woken publishing =>
    have hspare := guard aligned (List.ne_nil_of_length_pos (by omega))
    omega
  | checked queue empty woken =>
    rw [queue, woken]
    exact empty ▸ h
  | joined queue lock woken publishing =>
    rw [queue, woken]
    exact h
  | resumed queue receivers lock woken publishing => omega

/-- A return other than the latest one was made before. -/
theorem returned_before {returns : List Return} {r x : Return} (returned : x ∈ returns ++ [r])
    (other : x ≠ r) : x ∈ returns :=
  (List.mem_append.mp returned).resolve_right fun h => other (List.mem_singleton.mp h)

omit [Fintype T] in
/-- With an aligned buffer, only a woken receiver that finds the queue empty returns zero. -/
theorem step_returns {a : Act T} (step : Step s a s') {args : RecvArgs}
    (aligned : pageAligned args.buffer) (returned : .recv args none ∈ s'.returns) :
    .recv args none ∈ s.returns ∨ ∃ t, isWoken s t ∧ s.queue = [] := by
  cases step with
  | send tag size buffer phys idle fresh nonzero distinct =>
    unfold sendPublish at returned
    split_ifs at returned
    · exact Or.inl (returned_before returned (by simp))
    · split at returned
      · exact Or.inl (returned_before returned (by simp))
      · exact Or.inl returned
    · exact Or.inl (returned_before returned (by simp))
  | wake phase unlocked =>
    unfold sendWake at returned
    split at returned <;> exact Or.inl returned
  | sendReturn phase awake => exact Or.inl (returned_before returned (by simp))
  | recv args' idle unlocked =>
    unfold recvCheck at returned
    split_ifs at returned with haligned
    · split at returned
      · exact Or.inl (returned_before returned (by simp))
      · exact Or.inl returned
    · rcases List.mem_append.mp returned with hold | hnew
      · exact Or.inl hold
      · obtain ⟨rfl, -⟩ := Return.recv.inj (List.mem_singleton.mp hnew)
        exact absurd aligned haligned
  | join phase => exact Or.inl returned
  | @recvResume t args' phase awake =>
    unfold recvResume at returned
    split at returned
    · exact Or.inl (returned_before returned (by simp))
    · rename_i hempty
      exact Or.inr ⟨t, by simp [isWoken, phase, Phase.receiving, awake], hempty⟩
  | reply cookie result idle =>
    unfold replyLookup at returned
    split at returned
    · exact Or.inl (returned_before returned (by simp))
    · exact Or.inl returned
  | remove phase => exact Or.inl returned
  | unblock phase => exact Or.inl (returned_before returned (by simp))

end Numbers

end ChannelWakeups
