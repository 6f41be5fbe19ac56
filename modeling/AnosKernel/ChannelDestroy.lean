import AnosKernel.Scheduler
import Mathlib.Tactic.FinCases

/-!
# Destroying a channel

`ipc_channel_destroy` of `kernel/ipc/channel.c` wakes every sender whose message is still
queued and every receiver blocked on the channel. The receivers are linked through the same
`next` field of the tasks as the run queues, and the loop reads the link of a receiver after
it was pushed on a run queue. It is then the link of the run queue: null exactly when the
receiver went to the end of its queue.
-/

namespace ChannelDestroy

open Chains Scheduler

/-- The part of a queued message that is read here. -/
structure IpcMessage where
  waiter : Option (BitVec 64)
  deriving DecidableEq, Repr

structure IpcChannel where
  queue : List IpcMessage
  receivers : Option (BitVec 64)
  deriving DecidableEq, Repr

structure Kernel where
  sched : Sched
  channelHash : BitVec 64 → Option IpcChannel

/-- The body both loops share: unblock the task on the CPU found for it. -/
def wake (fuel : Nat) (s : Sched) (t : BitVec 64) : Option Sched :=
  match schedFindTargetCpu s with
  | none => none
  | some cpu => schedUnblockOn fuel s t cpu

def wakeWaiters : Nat → Sched → List IpcMessage → Option Sched
  | 0, _, _ => none
  | _ + 1, s, [] => some s
  | fuel + 1, s, message :: rest =>
    match message.waiter with
    -- `continue` does not move on to the next message
    | none => wakeWaiters fuel s (message :: rest)
    | some waiter => (wake fuel s waiter).bind fun s' => wakeWaiters fuel s' rest

def wakeReceivers : Nat → Sched → Option (BitVec 64) → Option Sched
  | 0, _, _ => none
  | _ + 1, s, none => some s
  | fuel + 1, s, some receiver =>
    (wake fuel s receiver).bind fun s' => wakeReceivers fuel s' (s'.next receiver)

/-- `ipc_channel_destroy`; `none` when the fuel does not suffice. -/
def ipcChannelDestroy (fuel : Nat) (k : Kernel) (cookie : BitVec 64) : Option Kernel :=
  match k.channelHash cookie with
  | none => some k
  | some channel =>
    (wakeWaiters fuel k.sched channel.queue).bind fun s =>
      (wakeReceivers fuel s channel.receivers).map fun s' =>
        { sched := s', channelHash := Function.update k.channelHash cookie none }

/-! ## What destroying a channel is for -/

def waiters (channel : IpcChannel) : List (BitVec 64) := channel.queue.filterMap (·.waiter)

/-- A channel and run queues as the scheduler leaves them: the run queues and the list of
receivers end, each task is at one place only and in a queue of its class, and the tasks to
wake have a class that thread creation accepts. -/
structure WellFormed (k : Kernel) (channel : IpcChannel)
    (queue : Nat × TaskClass → List (BitVec 64)) (receivers : List (BitVec 64)) : Prop where
  cpus : 0 < k.sched.cpuCount
  family : Family k.sched.next k.sched.headAt queue (indices k.sched.cpuCount)
  classes : ∀ i ∈ indices k.sched.cpuCount, ∀ t ∈ queue i, (k.sched.task t).taskClass = i.2
  blocked : Chain k.sched.next channel.receivers receivers
  valid : ∀ t ∈ waiters channel ++ receivers, (k.sched.task t).taskClass ≠ .invalid
  nodup : (queued k.sched queue ++ (waiters channel ++ receivers)).Nodup

/-- The call returns; every waiter and receiver is then ready and queued once, every task that
was queued is still queued once, and nothing else is queued. -/
def WakesAll (k : Kernel) (cookie : BitVec 64) (channel : IpcChannel)
    (queue : Nat × TaskClass → List (BitVec 64)) (receivers : List (BitVec 64)) : Prop :=
  ∃ fuel k', ipcChannelDestroy fuel k cookie = some k' ∧
    ∃ queue', Family k'.sched.next k'.sched.headAt queue' (indices k'.sched.cpuCount) ∧
      (∀ t ∈ waiters channel ++ receivers,
        (k'.sched.task t).state = .ready ∧ (queued k'.sched queue').count t = 1) ∧
      (∀ t ∈ queued k.sched queue, (queued k'.sched queue').count t = 1) ∧
      ∀ t ∈ queued k'.sched queue', t ∈ queued k.sched queue ∨ t ∈ waiters channel ++ receivers

/-- The CPU that the `k`-th of several tasks woken in a row goes to: each one adds a task to
the CPU it went to. -/
def placement (cpuCount : Nat) (total : Nat → BitVec 64) : Nat → Option Nat
  | 0 => findTarget total cpuCount 0 none
  | k + 1 =>
    (findTarget total cpuCount 0 none).bind fun c =>
      placement cpuCount (Function.update total c (total c + 1)) k

/-- On the CPU it goes to, after the waiters, no task of its class is less urgent than `r`:
neither one queued before nor a waiter that goes there. -/
def GoesLast (s : Sched) (queue : Nat × TaskClass → List (BitVec 64)) (ws : List (BitVec 64))
    (r : BitVec 64) : Prop :=
  ∀ c, placement s.cpuCount s.totals ws.length = some c →
    (∀ t ∈ queue (s.queueFor r c), s.prio t ≤ s.prio r) ∧
      ∀ (k : Nat) w, ws[k]? = some w → placement s.cpuCount s.totals k = some c →
        (s.task w).taskClass = (s.task r).taskClass → s.prio w ≤ s.prio r

/-! ## Waking tasks that are in no queue -/

/-- The effect of waking the tasks `ws` one after the other. -/
structure Woke (s : Sched) (queue : Nat × TaskClass → List (BitVec 64)) (ws : List (BitVec 64))
    (s' : Sched) (queue' : Nat × TaskClass → List (BitVec 64)) : Prop where
  cpuCount : s'.cpuCount = s.cpuCount
  prio : s'.prio = s.prio
  taskClass : ∀ u, (s'.task u).taskClass = (s.task u).taskClass
  ready : ∀ t ∈ ws, (s'.task t).state = .ready
  state : ∀ u ∉ ws, (s'.task u).state = (s.task u).state
  links : ∀ u ∉ ws ++ queued s queue, s'.next u = s.next u
  queues : Queues s' queue'
  perm : (queued s' queue').Perm (ws ++ queued s queue)
  target : schedFindTargetCpu s' = placement s.cpuCount s.totals ws.length
  mem : ∀ i t, t ∈ queue' i ↔ t ∈ queue i ∨ ∃ k : Nat, ws[k]? = some t ∧
    placement s.cpuCount s.totals k = some i.1 ∧ (s.task t).taskClass = i.2

theorem Woke.nil {s : Sched} {queue : Nat × TaskClass → List (BitVec 64)} (h : Queues s queue) :
    Woke s queue [] s queue where
  cpuCount := rfl
  prio := rfl
  taskClass := fun _ => rfl
  ready := by simp
  state := fun _ _ => rfl
  links := fun _ _ => rfl
  queues := h
  perm := List.Perm.refl _
  target := rfl
  mem := by simp

/-- One more task, woken first. -/
theorem Woke.cons {s s1 s' : Sched} {queue queue' : Nat × TaskClass → List (BitVec 64)}
    {t : BitVec 64} {ws : List (BitVec 64)} {c : Nat} {before after : List (BitVec 64)}
    (htarget : schedFindTargetCpu s = some c) (hu : Unblocked s t c s1)
    (hsplit : queue (s.queueFor t c) = before ++ after)
    (hperm : (queued s1 (Function.update queue (s.queueFor t c) (before ++ t :: after))).Perm
      (t :: queued s queue))
    (hlinks : ∀ u ∉ t :: queued s queue, s1.next u = s.next u) (hws : t ∉ ws)
    (h : Woke s1 (Function.update queue (s.queueFor t c) (before ++ t :: after)) ws s' queue') :
    Woke s queue (t :: ws) s' queue' := by
  have hplace : ∀ k, placement s.cpuCount s.totals (k + 1) = placement s1.cpuCount s1.totals k := by
    intro k
    rw [placement, hu.cpuCount, hu.totals]
    rw [schedFindTargetCpu] at htarget
    rw [htarget, Option.bind_some]
  have htotal : (ws ++ queued s1 (Function.update queue (s.queueFor t c) (before ++ t :: after))).Perm
      (t :: ws ++ queued s queue) := (hperm.append_left ws).trans List.perm_middle
  refine ⟨h.cpuCount.trans hu.cpuCount, h.prio.trans hu.prio,
    fun u => (h.taskClass u).trans (hu.taskClass u), ?_, ?_, ?_, h.queues, h.perm.trans htotal,
    h.target.trans (hplace _).symm, ?_⟩
  · intro u hmem
    rcases List.mem_cons.mp hmem with rfl | hmem
    · exact (h.state u hws).trans hu.ready
    · exact h.ready u hmem
  · intro u hout
    simp only [List.mem_cons, not_or] at hout
    exact (h.state u hout.2).trans (hu.others u hout.1)
  · intro u hout
    have hout1 : u ∉ t :: queued s queue := by
      simp only [List.cons_append, List.mem_cons, List.mem_append, not_or] at hout ⊢
      exact ⟨hout.1, hout.2.2⟩
    exact (h.links u (fun hmem => hout (htotal.mem_iff.mp hmem))).trans (hlinks u hout1)
  · intro i u
    have hfirst : u ∈ Function.update queue (s.queueFor t c) (before ++ t :: after) i ↔
        u ∈ queue i ∨ (u = t ∧ c = i.1 ∧ (s.task u).taskClass = i.2) := by
      by_cases hi : i = s.queueFor t c
      · subst hi
        rw [Function.update_self, hsplit]
        simp only [List.mem_append, List.mem_cons, Sched.queueFor, true_and]
        constructor
        · rintro (hb | rfl | ha)
          · exact Or.inl (Or.inl hb)
          · exact Or.inr ⟨rfl, rfl⟩
          · exact Or.inl (Or.inr ha)
        · rintro ((hb | ha) | ⟨rfl, -⟩)
          · exact Or.inl hb
          · exact Or.inr (Or.inr ha)
          · exact Or.inr (Or.inl rfl)
      · rw [Function.update_of_ne hi]
        constructor
        · exact Or.inl
        · rintro (hq | ⟨rfl, hc, hk⟩)
          · exact hq
          · exact absurd (Prod.ext hc.symm hk.symm) hi
    rw [h.mem i u, hfirst]
    constructor
    · rintro ((hq | ⟨rfl, rfl, hk⟩) | ⟨k, hk, hp, hc⟩)
      · exact Or.inl hq
      · exact Or.inr ⟨0, rfl, htarget, hk⟩
      · exact Or.inr ⟨k + 1, hk, (hplace k).trans hp, (hu.taskClass u).symm.trans hc⟩
    · rintro (hq | ⟨k, hk, hp, hc⟩)
      · exact Or.inl (Or.inl hq)
      · cases k with
        | zero =>
          have hci : some c = some i.1 := htarget.symm.trans hp
          exact Or.inl (Or.inr ⟨(Option.some.inj hk).symm, Option.some.inj hci, hc⟩)
        | succ k => exact Or.inr ⟨k, hk, (hplace k).symm.trans hp, (hu.taskClass u).trans hc⟩

theorem wake_unblocked {fuel : Nat} {s s' : Sched} {t : BitVec 64}
    (valid : (s.task t).taskClass ≠ .invalid) (h : wake fuel s t = some s') :
    ∃ c, schedFindTargetCpu s = some c ∧ Unblocked s t c s' := by
  cases htarget : schedFindTargetCpu s with
  | none => simp [wake, htarget] at h
  | some c =>
    simp only [wake, htarget] at h
    exact ⟨c, rfl, schedUnblockOn_unblocked valid h⟩

theorem queueFor_mem_indices {s : Sched} {t : BitVec 64} {c : Nat} (cpus : 0 < s.cpuCount)
    (htarget : schedFindTargetCpu s = some c) (valid : (s.task t).taskClass ≠ .invalid) :
    s.queueFor t c ∈ indices s.cpuCount := by
  obtain ⟨c', hc', hlt⟩ := schedFindTargetCpu_lt cpus
  obtain rfl := Option.some.inj (htarget.symm.trans hc')
  exact mem_indices.mpr ⟨hlt, valid⟩

/-- Waking a task that is in no queue returns as soon as the fuel covers all tasks queued. -/
theorem wake_isSome {fuel : Nat} {s : Sched} {queue : Nat × TaskClass → List (BitVec 64)}
    {t : BitVec 64} (cpus : 0 < s.cpuCount) (h : Queues s queue)
    (valid : (s.task t).taskClass ≠ .invalid) (enough : (queued s queue).length ≤ fuel) :
    (wake fuel s t).isSome := by
  obtain ⟨c, htarget, -⟩ := schedFindTargetCpu_lt cpus
  have hi := queueFor_mem_indices cpus htarget valid
  have hlen : (queue (s.queueFor t c)).length ≤ (queued s queue).length := by
    obtain ⟨pre, post, heq⟩ := List.append_of_mem hi
    simp only [queued, heq, List.flatMap_append, List.flatMap_cons, List.length_append]
    omega
  simp only [wake, htarget]
  exact schedUnblockOn_isSome (h.family _ hi) (Nat.le_trans hlen enough)

/-- Waking a task that is in no queue, with others still to come. -/
theorem wake_fresh {fuel : Nat} {s s1 : Sched} {queue : Nat × TaskClass → List (BitVec 64)}
    {t : BitVec 64} {ws : List (BitVec 64)} (cpus : 0 < s.cpuCount) (h : Queues s queue)
    (valid : (s.task t).taskClass ≠ .invalid) (nodup : (queued s queue ++ t :: ws).Nodup)
    (hwake : wake fuel s t = some s1) :
    ∃ c before after, schedFindTargetCpu s = some c ∧ Unblocked s t c s1 ∧
      queue (s.queueFor t c) = before ++ after ∧ (∀ u ∈ before, s.prio u ≤ s.prio t) ∧
      (∀ u, after.head? = some u → s.prio t < s.prio u) ∧
      Queues s1 (Function.update queue (s.queueFor t c) (before ++ t :: after)) ∧
      (queued s1 (Function.update queue (s.queueFor t c) (before ++ t :: after))).Perm
        (t :: queued s queue) ∧
      (queued s1 (Function.update queue (s.queueFor t c) (before ++ t :: after)) ++ ws).Nodup ∧
      s1.next t = after.head? ∧ ∀ u ∉ t :: queued s queue, s1.next u = s.next u := by
  obtain ⟨c, htarget, hu⟩ := wake_unblocked valid hwake
  have hfresh : t ∉ queued s queue := fun ht =>
    (List.nodup_append.mp nodup).2.2 t ht t List.mem_cons_self rfl
  obtain ⟨before, after, hsplit, hbefore, hafter, hqueues, hperm, hnext, hlinks⟩ :=
    h.unblock hu (queueFor_mem_indices cpus htarget valid) hfresh
  have hnodup := ((hperm.append_right ws).trans List.perm_middle.symm).nodup_iff.mpr nodup
  exact ⟨c, before, after, htarget, hu, hsplit, hbefore, hafter, hqueues, hperm, hnodup, hnext,
    hlinks⟩

/-- A run of the first loop that returns has met no message without a waiter, and has woken
the waiters in order. -/
theorem wakeWaiters_woke {fuel : Nat} {s s' : Sched}
    {queue : Nat × TaskClass → List (BitVec 64)} {messages : List IpcMessage}
    (cpus : 0 < s.cpuCount) (h : Queues s queue)
    (valid : ∀ t ∈ messages.filterMap (·.waiter), (s.task t).taskClass ≠ .invalid)
    (nodup : (queued s queue ++ messages.filterMap (·.waiter)).Nodup)
    (run : wakeWaiters fuel s messages = some s') :
    (∀ m ∈ messages, m.waiter ≠ none) ∧
      ∃ queue', Woke s queue (messages.filterMap (·.waiter)) s' queue' := by
  induction fuel generalizing s queue messages with
  | zero => simp [wakeWaiters] at run
  | succ fuel ih =>
    cases messages with
    | nil =>
      obtain rfl := Option.some.inj run
      exact ⟨by simp, queue, Woke.nil h⟩
    | cons message rest =>
      cases hw : message.waiter with
      | none =>
        simp only [wakeWaiters, hw] at run
        exact absurd hw ((ih cpus h valid nodup run).1 message List.mem_cons_self)
      | some t =>
        simp only [wakeWaiters, hw] at run
        obtain ⟨s1, hwake, run⟩ := Option.bind_eq_some_iff.mp run
        have hlist : (message :: rest).filterMap (·.waiter) = t :: rest.filterMap (·.waiter) :=
          List.filterMap_cons_some hw
        rw [hlist] at valid nodup ⊢
        have htvalid := valid t List.mem_cons_self
        have hws : t ∉ rest.filterMap (·.waiter) :=
          (List.nodup_cons.mp (List.nodup_append.mp nodup).2.1).1
        obtain ⟨c, before, after, htarget, hu, hsplit, -, -, hqueues, hperm, hnodup, -, hlinks⟩ :=
          wake_fresh cpus h htvalid nodup hwake
        obtain ⟨hsome, queue', hwoke⟩ := ih (hu.cpuCount ▸ cpus) hqueues
          (fun u hmem => (hu.taskClass u).symm ▸ valid u (List.mem_cons_of_mem _ hmem)) hnodup run
        refine ⟨?_, queue', hwoke.cons htarget hu hsplit hperm hlinks hws⟩
        intro m hm
        rcases List.mem_cons.mp hm with rfl | hm
        · simp [hw]
        · exact hsome m hm

theorem wakeWaiters_isSome {fuel : Nat} {s : Sched}
    {queue : Nat × TaskClass → List (BitVec 64)} {messages : List IpcMessage}
    (cpus : 0 < s.cpuCount) (h : Queues s queue)
    (valid : ∀ t ∈ messages.filterMap (·.waiter), (s.task t).taskClass ≠ .invalid)
    (nodup : (queued s queue ++ messages.filterMap (·.waiter)).Nodup)
    (hsome : ∀ m ∈ messages, m.waiter ≠ none)
    (enough : (queued s queue).length + 2 * messages.length < fuel) :
    (wakeWaiters fuel s messages).isSome := by
  induction messages generalizing s queue fuel with
  | nil =>
    obtain ⟨fuel, rfl⟩ := Nat.exists_eq_add_one_of_ne_zero (by omega : fuel ≠ 0)
    rfl
  | cons message rest ih =>
    obtain ⟨fuel, rfl⟩ := Nat.exists_eq_add_one_of_ne_zero (by omega : fuel ≠ 0)
    obtain ⟨t, hw⟩ := Option.ne_none_iff_exists'.mp (hsome message List.mem_cons_self)
    have hlist : (message :: rest).filterMap (·.waiter) = t :: rest.filterMap (·.waiter) :=
      List.filterMap_cons_some hw
    rw [hlist] at valid nodup
    have htvalid := valid t List.mem_cons_self
    have hlen : (message :: rest).length = rest.length + 1 := rfl
    have hreturns : (wake fuel s t).isSome := wake_isSome cpus h htvalid (by omega)
    obtain ⟨s1, hwake⟩ := Option.isSome_iff_exists.mp hreturns
    obtain ⟨c, before, after, -, hu, -, -, -, hqueues, hperm, hnodup, -, -⟩ :=
      wake_fresh cpus h htvalid nodup hwake
    have hgrown := hperm.length_eq
    rw [List.length_cons] at hgrown
    simp only [wakeWaiters, hw, hwake, Option.bind_some]
    exact ih (hu.cpuCount ▸ cpus) hqueues
      (fun u hmem => (hu.taskClass u).symm ▸ valid u (List.mem_cons_of_mem _ hmem)) hnodup
      (fun m hm => hsome m (List.mem_cons_of_mem _ hm)) (by omega)

/-! ## Following a run-queue link out of the list of receivers

If the loop over the receivers goes on with a task that already is in a run queue, that task
is pushed a second time. From then on two places point to it, and the pushes that may follow
are all of less urgent tasks, which leave both places alone. -/

/-- A set of tasks that the run queues do not leave. -/
structure Closed (s : Sched) (S : BitVec 64 → Prop) : Prop where
  heads : ∀ i ∈ indices s.cpuCount, ∀ x, s.headAt i = some x → S x
  links : ∀ x y, S x → s.next x = some y → S y
  valid : ∀ x, S x → (s.task x).taskClass ≠ .invalid

/-- The task `t` follows `r` and also starts a queue or follows another task. -/
structure Doubled (s : Sched) (S : BitVec 64 → Prop) (r t : BitVec 64) : Prop where
  member : S r
  link : s.next r = some t
  prio : s.prio r < s.prio t
  second : (∃ i ∈ indices s.cpuCount, s.headAt i = some t) ∨
    ∃ u, S u ∧ u ≠ r ∧ s.next u = some t ∧ s.prio u ≤ s.prio t

theorem Closed.walk {s : Sched} {S : BitVec 64 → Prop} (h : Closed s S) {i : Nat × TaskClass}
    (hi : i ∈ indices s.cpuCount) {walked : List (BitVec 64)} {current : BitVec 64}
    (walk : Seg s.next (s.headAt i) walked (some current)) : S current :=
  walk.closed S (h.heads i hi) h.links

theorem Closed.unblock {s s' : Sched} {S : BitVec 64 → Prop} {x : BitVec 64} {c : Nat}
    (h : Closed s S) (hx : S x) (hi : s.queueFor x c ∈ indices s.cpuCount)
    (hu : Unblocked s x c s') : Closed s' S := by
  obtain ⟨head, hhead, hpushed⟩ := hu.pushed
  have hnew : (∀ y, head = some y → S y) ∧ ∀ y z, S y → s'.next y = some z → S z := by
    generalize s'.next = next' at hpushed
    cases hpushed with
    | front hprio =>
      refine ⟨fun y hy => Option.some.inj hy ▸ hx, fun y z hy hz => ?_⟩
      by_cases hyx : y = x
      · rw [hyx, Function.update_self] at hz
        exact h.heads _ hi z hz
      · rw [Function.update_of_ne hyx] at hz
        exact h.links y z hy hz
    | @after walked current walk hprio hstop =>
      have hcurrent : S current := h.walk hi walk
      refine ⟨h.heads _ hi, fun y z hy hz => ?_⟩
      by_cases hyc : y = current
      · rw [hyc, Function.update_self] at hz
        exact Option.some.inj hz ▸ hx
      · rw [Function.update_of_ne hyc] at hz
        by_cases hyx : y = x
        · rw [hyx, Function.update_self] at hz
          exact h.links current z hcurrent hz
        · rw [Function.update_of_ne hyx] at hz
          exact h.links y z hy hz
  refine ⟨fun i hmem y hy => ?_, hnew.2, fun y hy => hu.taskClass y ▸ h.valid y hy⟩
  rw [hhead] at hy
  by_cases hq : i = s.queueFor x c
  · rw [hq, Function.update_self] at hy
    exact hnew.1 y hy
  · rw [Function.update_of_ne hq] at hy
    exact h.heads i (hu.cpuCount ▸ hmem) y hy

/-- A pushed task is followed by a less urgent one, if by any, or by itself. -/
theorem next_of_unblocked {s s' : Sched} {x y : BitVec 64} {c : Nat} (hu : Unblocked s x c s')
    (h : s'.next x = some y) : y = x ∨ s.prio x < s.prio y := by
  obtain ⟨head, -, hpushed⟩ := hu.pushed
  generalize s'.next = next' at hpushed h
  cases hpushed with
  | front hprio =>
    rw [Function.update_self] at h
    exact Or.inr (hprio y h)
  | @after walked current walk hprio hstop =>
    by_cases hxc : x = current
    · subst hxc
      rw [Function.update_self] at h
      exact Or.inl (Option.some.inj h).symm
    · rw [Function.update_of_ne hxc, Function.update_self] at h
      exact Or.inr (hstop y h)

/-- Links to a task `t` stay where they are while less urgent tasks are pushed. -/
theorem link_of_unblocked {s s' : Sched} {x y t : BitVec 64} {c : Nat} (hu : Unblocked s x c s')
    (hx : s.prio t < s.prio x) (hy : s.prio y ≤ s.prio t) (h : s.next y = some t) :
    s'.next y = some t := by
  have hne : y ≠ x := fun e => absurd hx (BitVec.not_lt.mpr (e ▸ hy))
  obtain ⟨head, -, hpushed⟩ := hu.pushed
  generalize s'.next = next' at hpushed
  cases hpushed with
  | front hprio => rwa [Function.update_of_ne hne]
  | @after walked current walk hprio hstop =>
    have hyc : y ≠ current := by
      rintro rfl
      exact absurd (hstop t h) (BitVec.not_lt.mpr (BitVec.le_of_lt hx))
    rwa [Function.update_of_ne hyc, Function.update_of_ne hne]

theorem Doubled.unblock {s s' : Sched} {S : BitVec 64 → Prop} {r t x : BitVec 64} {c : Nat}
    (h : Doubled s S r t) (hx : s.prio t < s.prio x) (hu : Unblocked s x c s') :
    Doubled s' S r t := by
  refine ⟨h.member, link_of_unblocked hu hx (BitVec.le_of_lt h.prio) h.link, ?_, ?_⟩
  · rw [hu.prio]
    exact h.prio
  · rcases h.second with ⟨i, hi, hhead⟩ | ⟨u, hS, hne, hlink, hprio⟩
    · refine Or.inl ⟨i, hu.cpuCount ▸ hi, ?_⟩
      obtain ⟨head, hheads, hpushed⟩ := hu.pushed
      rw [hheads]
      by_cases hq : i = s.queueFor x c
      · rw [← hq, hhead] at hpushed
        rw [← hq, Function.update_self]
        generalize s'.next = next' at hpushed
        cases hpushed with
        | front hprio => exact absurd (hprio t rfl) (BitVec.not_lt.mpr (BitVec.le_of_lt hx))
        | after => rfl
      · rwa [Function.update_of_ne hq]
    · refine Or.inr ⟨u, hS, hne, link_of_unblocked hu hx hprio hlink, ?_⟩
      rw [hu.prio]
      exact hprio

/-- Pushing the task that follows `r` doubles it, unless it is put behind itself; that happens
only to a task that was not behind itself before. -/
theorem doubled_or_looped {s s' : Sched} {S : BitVec 64 → Prop} {r t : BitVec 64} {c : Nat}
    (h : Closed s S) (hr : S r) (hrt : s.next r = some t) (hprio : s.prio r < s.prio t)
    (hi : s.queueFor t c ∈ indices s.cpuCount) (hu : Unblocked s t c s') :
    (Doubled s' S r t ∧ ∀ y, s'.next t = some y → s'.prio t < s'.prio y) ∨
      (s.next t ≠ some t ∧ s'.next t = some t ∧ s'.next r = some t) := by
  have hne : r ≠ t := by
    rintro rfl
    exact BitVec.lt_irrefl _ hprio
  have hirrefl : ¬ s.prio t < s.prio t := BitVec.lt_irrefl _
  rw [← hu.prio] at hprio
  obtain ⟨head, hhead, hpushed⟩ := hu.pushed
  generalize hnext' : s'.next = next' at hpushed
  cases hpushed with
  | front hfirst =>
    refine Or.inl ⟨⟨hr, ?_, hprio, Or.inl ⟨_, hu.cpuCount.symm ▸ hi, ?_⟩⟩, ?_⟩
    · rw [hnext', Function.update_of_ne hne]
      exact hrt
    · rw [hhead, Function.update_self]
    · intro y hy
      rw [Function.update_self] at hy
      rw [hu.prio]
      exact hfirst y hy
  | @after walked current walk hwalked hstop =>
    have hrc : r ≠ current := by
      rintro rfl
      exact hirrefl (hstop t hrt)
    by_cases htc : t = current
    · subst htc
      refine Or.inr ⟨fun hloop => hirrefl (hstop t hloop), Function.update_self _ _ _, ?_⟩
      rw [Function.update_of_ne hne, Function.update_of_ne hne]
      exact hrt
    · refine Or.inl ⟨⟨hr, ?_, hprio, Or.inr ⟨current, h.walk hi walk, hrc.symm, ?_, ?_⟩⟩, ?_⟩
      · rw [hnext', Function.update_of_ne hrc, Function.update_of_ne hne]
        exact hrt
      · rw [hnext', Function.update_self]
      · rw [hu.prio]
        exact hwalked current (by simp)
      · intro y hy
        rw [Function.update_of_ne htc, Function.update_self] at hy
        rw [hu.prio]
        exact hstop y hy

/-- One turn of the second loop. -/
theorem wakeReceivers_step {fuel : Nat} {s s' : Sched} {S : BitVec 64 → Prop} {x : BitVec 64}
    (cpus : 0 < s.cpuCount) (h : Closed s S) (hx : S x)
    (run : wakeReceivers fuel s (some x) = some s') :
    ∃ fuel' s1 c, fuel = fuel' + 1 ∧ Unblocked s x c s1 ∧
      s.queueFor x c ∈ indices s.cpuCount ∧ Closed s1 S ∧ 0 < s1.cpuCount ∧
      wakeReceivers fuel' s1 (s1.next x) = some s' := by
  cases fuel with
  | zero => simp [wakeReceivers] at run
  | succ fuel =>
    obtain ⟨s1, hwake, run⟩ := Option.bind_eq_some_iff.mp run
    obtain ⟨c, htarget, hu⟩ := wake_unblocked (h.valid x hx) hwake
    have hi := queueFor_mem_indices cpus htarget (h.valid x hx)
    exact ⟨fuel, s1, c, rfl, hu, hi, h.unblock hx hi hu, hu.cpuCount ▸ cpus, run⟩

/-- Once a task is doubled, it stays so to the end of the loop. -/
theorem wakeReceivers_doubled {fuel : Nat} {s s' : Sched} {S : BitVec 64 → Prop}
    {r t : BitVec 64} {start : Option (BitVec 64)} (cpus : 0 < s.cpuCount) (h : Closed s S)
    (hd : Doubled s S r t) (hstart : ∀ x, start = some x → S x ∧ s.prio t < s.prio x)
    (run : wakeReceivers fuel s start = some s') : Doubled s' S r t := by
  induction fuel generalizing s start with
  | zero => simp [wakeReceivers] at run
  | succ fuel ih =>
    cases start with
    | none => exact Option.some.inj run ▸ hd
    | some x =>
      obtain ⟨hx, hprio⟩ := hstart x rfl
      obtain ⟨fuel', s1, c, hfuel, hu, hi, hclosed, cpus1, run⟩ :=
        wakeReceivers_step cpus h hx run
      obtain rfl : fuel = fuel' := Nat.succ.inj hfuel
      refine ih cpus1 hclosed (hd.unblock hprio hu) (fun y hy => ⟨hclosed.links x y hx hy, ?_⟩) run
      rw [hu.prio]
      rcases next_of_unblocked hu hy with rfl | hlt
      · exact hprio
      · exact BitVec.lt_trans hprio hlt

/-- Going on with the task behind a receiver that was just queued ends, if at all, with that
task doubled. -/
theorem wakeReceivers_follow {fuel : Nat} {s s' : Sched} {S : BitVec 64 → Prop} {r t : BitVec 64}
    (cpus : 0 < s.cpuCount) (h : Closed s S) (hr : S r) (hrt : s.next r = some t)
    (hprio : s.prio r < s.prio t) (run : wakeReceivers fuel s (some t) = some s') :
    Doubled s' S r t := by
  have ht : S t := h.links r t hr hrt
  have finish : ∀ {f : Nat} {s1 : Sched}, 0 < s1.cpuCount → Closed s1 S → Doubled s1 S r t →
      (∀ y, s1.next t = some y → s1.prio t < s1.prio y) →
      wakeReceivers f s1 (s1.next t) = some s' → Doubled s' S r t := by
    intro f s1 cpus1 hclosed hd hnext run1
    exact wakeReceivers_doubled cpus1 hclosed hd
      (fun y hy => ⟨hclosed.links t y ht hy, hnext y hy⟩) run1
  obtain ⟨f1, s1, c1, -, hu1, hi1, hclosed1, cpus1, run1⟩ := wakeReceivers_step cpus h ht run
  rcases doubled_or_looped h hr hrt hprio hi1 hu1 with ⟨hd, hnext⟩ | ⟨-, hloop, hrt1⟩
  · exact finish cpus1 hclosed1 hd hnext run1
  · -- the task is behind itself, so the loop pushes it once more
    rw [hloop] at run1
    obtain ⟨f2, s2, c2, -, hu2, hi2, hclosed2, cpus2, run2⟩ :=
      wakeReceivers_step cpus1 hclosed1 ht run1
    rw [← hu1.prio] at hprio
    rcases doubled_or_looped hclosed1 hr hrt1 hprio hi2 hu2 with ⟨hd, hnext⟩ | ⟨hfree, -, -⟩
    · exact finish cpus2 hclosed2 hd hnext run2
    · exact absurd hloop hfree

/-- A doubled task cannot be queued once, if the tasks of the set all are. -/
theorem Doubled.not_queues {s : Sched} {S : BitVec 64 → Prop} {r t : BitVec 64}
    {queue : Nat × TaskClass → List (BitVec 64)} (hd : Doubled s S r t) (h : Queues s queue)
    (all : ∀ x, S x → x ∈ queued s queue) : False := by
  rcases hd.second with ⟨i, hi, hhead⟩ | ⟨u, hu, hne, hlink, -⟩
  · exact h.family.head_ne h.nodup hi (all r hd.member) hd.link hhead
  · exact hne (h.family.pred_unique h.nodup (all u hu) (all r hd.member) hlink hd.link)

theorem closed_of_queues {s : Sched} {queue : Nat × TaskClass → List (BitVec 64)}
    (h : Queues s queue) (valid : ∀ t ∈ queued s queue, (s.task t).taskClass ≠ .invalid) :
    Closed s (· ∈ queued s queue) where
  heads := by
    intro i hi x hx
    have hchain := h.family i hi
    rw [hx] at hchain
    obtain ⟨rest, hqueue, -⟩ := hchain.cons_of_some
    exact List.mem_flatMap.mpr ⟨i, hi, hqueue ▸ List.mem_cons_self⟩
  links := by
    intro x y hx hy
    obtain ⟨i, hi, hxi⟩ := List.mem_flatMap.mp hx
    exact List.mem_flatMap.mpr ⟨i, hi, (h.family i hi).next_mem hxi hy⟩
  valid := valid

/-- Once the loop follows the link of a run queue, to a less urgent task, no queues are left in
which all tasks are. -/
theorem wakeReceivers_follow_not_queues {fuel : Nat} {s s' : Sched} {r t : BitVec 64}
    {queue queue' : Nat × TaskClass → List (BitVec 64)} (cpus : 0 < s.cpuCount) (h : Queues s queue)
    (valid : ∀ x ∈ queued s queue, (s.task x).taskClass ≠ .invalid) (mem : r ∈ queued s queue)
    (link : s.next r = some t) (less : s.prio r < s.prio t)
    (run : wakeReceivers fuel s (some t) = some s')
    (all : ∀ x ∈ queued s queue, x ∈ queued s' queue') : ¬ Queues s' queue' := by
  intro hqueues
  have hdoubled := wakeReceivers_follow cpus (closed_of_queues h valid) mem link less run
  exact hdoubled.not_queues hqueues all

/-- The links and heads determine the queues. -/
theorem queued_unique {s : Sched} {queue queue' : Nat × TaskClass → List (BitVec 64)}
    (h : Family s.next s.headAt queue (indices s.cpuCount))
    (h' : Family s.next s.headAt queue' (indices s.cpuCount)) : queued s queue = queued s queue' :=
  List.flatMap_congr (fun i hi => chain_unique (h i hi) (h' i hi))

section Destroy

variable {k : Kernel} {channel : IpcChannel} {queue : Nat × TaskClass → List (BitVec 64)}
  {receivers : List (BitVec 64)}

theorem WellFormed.queues (wf : WellFormed k channel queue receivers) : Queues k.sched queue :=
  ⟨wf.family, (List.nodup_append.mp wf.nodup).1⟩

theorem WellFormed.nodup_waiters (wf : WellFormed k channel queue receivers) :
    (queued k.sched queue ++ waiters channel).Nodup := by
  have h := wf.nodup
  rw [← List.append_assoc] at h
  exact (List.nodup_append.mp h).1

theorem WellFormed.valid_queued (wf : WellFormed k channel queue receivers) :
    ∀ t ∈ queued k.sched queue, (k.sched.task t).taskClass ≠ .invalid := by
  intro t ht
  obtain ⟨i, hi, hti⟩ := List.mem_flatMap.mp ht
  rw [wf.classes i hi t hti]
  exact (mem_indices.mp hi).2

/-- After the waiters were woken, the receivers are still blocked and in no queue. -/
theorem Woke.nodup_receivers (wf : WellFormed k channel queue receivers) {s : Sched}
    {queue1 : Nat × TaskClass → List (BitVec 64)}
    (h : Woke k.sched queue (waiters channel) s queue1) :
    (queued s queue1 ++ receivers).Nodup := by
  have hperm : (queued s queue1 ++ receivers).Perm
      (queued k.sched queue ++ (waiters channel ++ receivers)) := by
    rw [← List.append_assoc]
    exact (h.perm.trans List.perm_append_comm).append_right _
  exact hperm.nodup_iff.mpr wf.nodup

/-- The receiver woken after the waiters goes to the end of its queue exactly when it goes
last. -/
theorem Woke.goesLast_iff {s : Sched} {queue1 : Nat × TaskClass → List (BitVec 64)}
    {r : BitVec 64} {c : Nat} {ws before after : List (BitVec 64)}
    (h : Woke k.sched queue ws s queue1) (htarget : schedFindTargetCpu s = some c)
    (hsplit : queue1 (s.queueFor r c) = before ++ after)
    (hbefore : ∀ u ∈ before, s.prio u ≤ s.prio r)
    (hafter : ∀ u, after.head? = some u → s.prio r < s.prio u) :
    GoesLast k.sched queue ws r ↔ after = [] := by
  have hqueue : s.queueFor r c = k.sched.queueFor r c := by
    rw [Sched.queueFor, Sched.queueFor, h.taskClass]
  have hplace := h.target.symm.trans htarget
  have hall : GoesLast k.sched queue ws r ↔
      ∀ t ∈ queue1 (k.sched.queueFor r c), k.sched.prio t ≤ k.sched.prio r := by
    constructor
    · intro hlast t ht
      obtain ⟨hq, hw⟩ := hlast c hplace
      rcases (h.mem _ t).mp ht with ht | ⟨j, hj, hp, hc⟩
      · exact hq t ht
      · exact hw j t hj hp hc
    · intro hlast c' hc'
      obtain rfl := Option.some.inj (hplace.symm.trans hc')
      constructor
      · exact fun t ht => hlast t ((h.mem _ t).mpr (Or.inl ht))
      · exact fun j w hj hp hc => hlast w ((h.mem _ w).mpr (Or.inr ⟨j, hj, hp, hc⟩))
  rw [hall, ← hqueue, hsplit, ← h.prio]
  constructor
  · intro hle
    cases after with
    | nil => rfl
    | cons u rest => exact absurd (hafter u rfl) (BitVec.not_lt.mpr (hle u (by simp)))
  · rintro rfl u hu
    exact hbefore u (by simpa using hu)

/-- Queues that hold what was queued and what was woken, each once. -/
theorem counts_of_perm {before after woken : List (BitVec 64)} (nodup : after.Nodup)
    (hperm : after.Perm (woken ++ before)) :
    (∀ t ∈ woken, after.count t = 1) ∧ (∀ t ∈ before, after.count t = 1) ∧
      ∀ t ∈ after, t ∈ before ∨ t ∈ woken := by
  have hone : ∀ t ∈ woken ++ before, after.count t = 1 := fun t ht =>
    List.count_eq_one_of_mem nodup (hperm.mem_iff.mpr ht)
  refine ⟨fun t ht => hone t (List.mem_append_left _ ht),
    fun t ht => hone t (List.mem_append_right _ ht), fun t ht => ?_⟩
  exact (List.mem_append.mp (hperm.mem_iff.mp ht)).symm

theorem wakesAll_of_goesLast {cookie : BitVec 64} (present : k.channelHash cookie = some channel)
    (wf : WellFormed k channel queue receivers) (hsome : ∀ m ∈ channel.queue, m.waiter ≠ none)
    (hlast : receivers = [] ∨ ∃ r, receivers = [r] ∧ GoesLast k.sched queue (waiters channel) r) :
    WakesAll k cookie channel queue receivers := by
  have hvalid : ∀ t ∈ waiters channel, (k.sched.task t).taskClass ≠ .invalid :=
    fun t ht => wf.valid t (List.mem_append_left _ ht)
  -- fuel for the walks over all queues and for both loops
  obtain ⟨fuel, hfuel⟩ : ∃ fuel, fuel = (queued k.sched queue).length + 2 * channel.queue.length + 1 :=
    ⟨_, rfl⟩
  have hreturns : (wakeWaiters (fuel + 2) k.sched channel.queue).isSome :=
    wakeWaiters_isSome wf.cpus wf.queues hvalid wf.nodup_waiters hsome (by omega)
  obtain ⟨s, hs⟩ := Option.isSome_iff_exists.mp hreturns
  obtain ⟨-, queue1, hwoke⟩ := wakeWaiters_woke wf.cpus wf.queues hvalid wf.nodup_waiters hs
  change Woke k.sched queue (waiters channel) s queue1 at hwoke
  rcases hlast with rfl | ⟨r, rfl, hlast⟩
  · have hnone : channel.receivers = none := wf.blocked
    obtain ⟨hnew, hold, honly⟩ := counts_of_perm hwoke.queues.nodup hwoke.perm
    refine ⟨fuel + 2, ⟨s, Function.update k.channelHash cookie none⟩, ?_, queue1,
      hwoke.queues.family, ?_⟩
    · simp [ipcChannelDestroy, present, hs, hnone, wakeReceivers]
    · rw [List.append_nil]
      exact ⟨fun t ht => ⟨hwoke.ready t ht, hnew t ht⟩, hold, honly⟩
  · have hfirst : channel.receivers = some r := wf.blocked.1
    have hrvalid : (s.task r).taskClass ≠ .invalid := by
      rw [hwoke.taskClass]
      exact wf.valid r (by simp)
    have cpus : 0 < s.cpuCount := hwoke.cpuCount ▸ wf.cpus
    have hlen : (queued s queue1).length ≤ fuel + 1 := by
      have hws : (waiters channel).length ≤ channel.queue.length := List.length_filterMap_le _ _
      rw [hwoke.perm.length_eq, List.length_append]
      omega
    obtain ⟨s2, hwake⟩ := Option.isSome_iff_exists.mp
      (wake_isSome cpus hwoke.queues hrvalid hlen)
    obtain ⟨c, before, after, htarget, hu, hsplit, hbefore, hafter, hqueues, hperm, -, hnext, -⟩ :=
      wake_fresh cpus hwoke.queues hrvalid (hwoke.nodup_receivers wf) hwake
    obtain rfl := (hwoke.goesLast_iff htarget hsplit hbefore hafter).mp hlast
    have htotal := (hperm.trans (hwoke.perm.cons r)).trans
      (List.perm_append_comm.append_right (queued k.sched queue) :
        ([r] ++ waiters channel ++ queued k.sched queue).Perm _)
    obtain ⟨hnew, hold, honly⟩ := counts_of_perm hqueues.nodup htotal
    refine ⟨fuel + 2, ⟨s2, Function.update k.channelHash cookie none⟩, ?_, _, hqueues.family, ?_,
      hold, honly⟩
    · simp [ipcChannelDestroy, present, hs, hfirst, wakeReceivers, hwake, hnext]
    · intro t ht
      refine ⟨?_, hnew t ht⟩
      by_cases htr : t = r
      · exact htr ▸ hu.ready
      · rcases List.mem_append.mp ht with ht | ht
        · exact (hu.others t htr).trans (hwoke.ready t ht)
        · exact absurd (List.mem_singleton.mp ht) htr

/-- Where every task of a list is counted once and there is nothing else, no task is twice. -/
theorem nodup_of_counts {before after woken : List (BitVec 64)}
    (hnew : ∀ t ∈ woken, after.count t = 1) (hold : ∀ t ∈ before, after.count t = 1)
    (honly : ∀ t ∈ after, t ∈ before ∨ t ∈ woken) : after.Nodup := by
  refine List.nodup_iff_count_le_one.mpr (fun t => ?_)
  by_cases ht : t ∈ after
  · rcases honly t ht with h | h
    · exact Nat.le_of_eq (hold t h)
    · exact Nat.le_of_eq (hnew t h)
  · rw [List.count_eq_zero_of_not_mem ht]
    exact Nat.zero_le _

theorem mem_of_count_one {t : BitVec 64} {xs : List (BitVec 64)} (h : xs.count t = 1) : t ∈ xs :=
  List.count_pos_iff.mp (by omega)

theorem goesLast_of_wakesAll {cookie : BitVec 64} (present : k.channelHash cookie = some channel)
    (wf : WellFormed k channel queue receivers)
    (h : WakesAll k cookie channel queue receivers) :
    (∀ m ∈ channel.queue, m.waiter ≠ none) ∧
      (receivers = [] ∨ ∃ r, receivers = [r] ∧ GoesLast k.sched queue (waiters channel) r) := by
  obtain ⟨fuel, k', hdestroy, queue', hfamily, hnew, hold, honly⟩ := h
  simp only [ipcChannelDestroy, present] at hdestroy
  obtain ⟨s, hs, hdestroy⟩ := Option.bind_eq_some_iff.mp hdestroy
  obtain ⟨s', hs', rfl⟩ := Option.map_eq_some_iff.mp hdestroy
  obtain ⟨hsome, queue1, hwoke⟩ := wakeWaiters_woke wf.cpus wf.queues
    (fun t ht => wf.valid t (List.mem_append_left _ ht)) wf.nodup_waiters hs
  change Woke k.sched queue (waiters channel) s queue1 at hwoke
  refine ⟨hsome, ?_⟩
  cases receivers with
  | nil => exact Or.inl rfl
  | cons r rest =>
    refine Or.inr ⟨r, ?_⟩
    have hnodup := hwoke.nodup_receivers wf
    have hrvalid : (s.task r).taskClass ≠ .invalid := by
      rw [hwoke.taskClass]
      exact wf.valid r (by simp)
    have cpus : 0 < s.cpuCount := hwoke.cpuCount ▸ wf.cpus
    rw [wf.blocked.1] at hs'
    cases fuel with
    | zero => simp [wakeReceivers] at hs'
    | succ fuel =>
    obtain ⟨s2, hwake, run⟩ := Option.bind_eq_some_iff.mp hs'
    obtain ⟨c, before, after, htarget, hu, hsplit, hbefore, hafter, hqueues, hperm, hrest, hnext, -⟩ :=
      wake_fresh cpus hwoke.queues hrvalid hnodup hwake
    have htotal : (queued s2 (Function.update queue1 (s.queueFor r c) (before ++ r :: after))).Perm
        (r :: (waiters channel ++ queued k.sched queue)) := hperm.trans (hwoke.perm.cons r)
    cases hcase : after with
    | nil =>
      rw [hnext, hcase] at run
      cases fuel with
      | zero => simp [wakeReceivers] at run
      | succ fuel =>
      obtain rfl : s2 = s' := Option.some.inj run
      refine ⟨?_, (hwoke.goesLast_iff htarget hsplit hbefore hafter).mpr hcase⟩
      -- a further receiver was not woken
      cases rest with
      | nil => rfl
      | cons r2 rest =>
        have hr2 := mem_of_count_one (hnew r2 (by simp)).2
        rw [queued_unique hfamily hqueues.family] at hr2
        exact absurd rfl ((List.nodup_append.mp hrest).2.2 r2 hr2 r2 List.mem_cons_self)
    | cons t tail =>
      -- the loop leaves the list of receivers
      exfalso
      have hlink : s2.next r = some t := by rw [hnext, hcase]; rfl
      rw [hlink] at run
      have hsecond : ∀ x ∈ r :: (waiters channel ++ queued k.sched queue),
          x ∈ queued s' queue' := by
        intro x hx
        simp only [List.mem_cons, List.mem_append] at hx
        rcases hx with rfl | hx | hx
        · exact mem_of_count_one (hnew x (by simp)).2
        · exact mem_of_count_one (hnew x (List.mem_append_left _ hx)).2
        · exact mem_of_count_one (hold x hx)
      have hvalid : ∀ x ∈ queued s2 (Function.update queue1 (s.queueFor r c)
          (before ++ r :: after)), (s2.task x).taskClass ≠ .invalid := by
        intro x hx
        rw [hu.taskClass, hwoke.taskClass]
        have hx := htotal.mem_iff.mp hx
        simp only [List.mem_cons, List.mem_append] at hx
        rcases hx with rfl | hx | hx
        · exact wf.valid x (by simp)
        · exact wf.valid x (List.mem_append_left _ hx)
        · exact wf.valid_queued x hx
      have hprio : s2.prio r < s2.prio t := by
        rw [hu.prio]
        exact hafter t (by rw [hcase]; rfl)
      exact wakeReceivers_follow_not_queues (hu.cpuCount ▸ cpus) hqueues hvalid
        (htotal.mem_iff.mpr List.mem_cons_self) hlink hprio run
        (fun x hx => hsecond x (htotal.mem_iff.mp hx))
        ⟨hfamily, nodup_of_counts (fun x hx => (hnew x hx).2) hold honly⟩

/-- Destroying a channel wakes everyone exactly when every queued message has a waiter and at
most one receiver is blocked, which goes to the end of its run queue. -/
theorem destroy_wakes_all_iff {cookie : BitVec 64} (present : k.channelHash cookie = some channel)
    (wf : WellFormed k channel queue receivers) :
    WakesAll k cookie channel queue receivers ↔
      (∀ m ∈ channel.queue, m.waiter ≠ none) ∧
        (receivers = [] ∨ ∃ r, receivers = [r] ∧ GoesLast k.sched queue (waiters channel) r) :=
  ⟨goesLast_of_wakesAll present wf, fun h => wakesAll_of_goesLast present wf h.1 h.2⟩

end Destroy

/-! ## One CPU with its idle thread -/

/-- The idle thread is the task `0x1000`; all other tasks are blocked and of the normal class. -/
def idleTask (next : BitVec 64 → Option (BitVec 64)) (t : BitVec 64) : Task :=
  if t = 0x1000 then { next := none, state := .ready, taskClass := .idle, prio := 0 }
  else { next := next t, state := .blocked, taskClass := .normal, prio := 0 }

/-- A machine on which only the idle thread is queued, with one channel. -/
def idleMachine (next : BitVec 64 → Option (BitVec 64)) (channel : IpcChannel) : Kernel where
  sched := {
    cpuCount := 1
    cpu := fun _ => {
      realtimeHead := none
      highHead := none
      normalHead := none
      idleHead := some 0x1000
      allQueueTotal := 1 }
    task := idleTask next }
  channelHash := fun cookie => if cookie = 1 then some channel else none

def idleQueue (i : Nat × TaskClass) : List (BitVec 64) := if i = (0, .idle) then [0x1000] else []

theorem idleMachine_wellFormed {next : BitVec 64 → Option (BitVec 64)} {channel : IpcChannel}
    {receivers : List (BitVec 64)} (blocked : Chain next channel.receivers receivers)
    (nodup : (0x1000 :: (waiters channel ++ receivers)).Nodup) :
    WellFormed (idleMachine next channel) channel idleQueue receivers := by
  have hout : ∀ t ∈ waiters channel ++ receivers, t ≠ 0x1000 :=
    fun t ht => ne_of_mem_of_not_mem ht (List.nodup_cons.mp nodup).1
  have htask : ∀ t, t ≠ 0x1000 → (idleMachine next channel).sched.task t =
      { next := next t, state := .blocked, taskClass := .normal, prio := 0 } :=
    fun t ht => if_neg ht
  refine ⟨Nat.one_pos, ?_, ?_, ?_, ?_, nodup⟩
  · intro i hi
    have hi : i ∈ [(0, .realtime), (0, .high), (0, .normal), (0, .idle)] := hi
    fin_cases hi
    · exact rfl
    · exact rfl
    · exact rfl
    · exact ⟨rfl, rfl⟩
  · intro i hi t ht
    by_cases hidle : i = (0, .idle)
    · subst hidle
      obtain rfl : t = 0x1000 := List.mem_singleton.mp ht
      rfl
    · simp [idleQueue, hidle] at ht
  · refine Seg.congr blocked (fun t ht => ?_)
    rw [Sched.next, htask t (hout t (List.mem_append_right _ ht))]
  · intro t ht
    rw [htask t (hout t ht)]
    exact fun h => TaskClass.noConfusion h

/-- One queued message and one receiver: both are woken. -/
theorem destroy_wakes_all_iff_idle :
    WakesAll (idleMachine (fun _ => none) ⟨[⟨some 0x2000⟩], some 0x3000⟩) 1
      ⟨[⟨some 0x2000⟩], some 0x3000⟩ idleQueue [0x3000] := by
  have hwf : WellFormed (idleMachine (fun _ => none) ⟨[⟨some 0x2000⟩], some 0x3000⟩)
      ⟨[⟨some 0x2000⟩], some 0x3000⟩ idleQueue [0x3000] :=
    idleMachine_wellFormed ⟨rfl, rfl⟩ (by decide)
  refine (destroy_wakes_all_iff rfl hwf).mpr ⟨by simp, Or.inr ⟨0x3000, rfl, ?_⟩⟩
  intro c hc
  constructor
  · intro t ht
    have hempty : idleQueue ((idleMachine (fun _ => none)
        ⟨[⟨some 0x2000⟩], some 0x3000⟩).sched.queueFor 0x3000 c) = [] := by
      simp [idleQueue, Sched.queueFor, idleMachine, idleTask]
    rw [hempty] at ht
    exact absurd ht List.not_mem_nil
  · intro j w hj _ _
    have hw : w ∈ waiters ⟨[⟨some 0x2000⟩], some 0x3000⟩ := List.mem_of_getElem? hj
    obtain rfl : w = 0x2000 := by simpa [waiters] using hw
    decide

/-- With two receivers the second one is never woken. -/
theorem destroy_forgets_a_receiver :
    ¬ ∀ (k : Kernel) (cookie : BitVec 64) (channel : IpcChannel)
      (queue : Nat × TaskClass → List (BitVec 64)) (receivers : List (BitVec 64)),
      k.channelHash cookie = some channel → WellFormed k channel queue receivers →
        WakesAll k cookie channel queue receivers := by
  intro h
  have hwf : WellFormed
      (idleMachine (fun t => if t = 0x3000 then some 0x4000 else none) ⟨[], some 0x3000⟩)
      ⟨[], some 0x3000⟩ idleQueue [0x3000, 0x4000] :=
    idleMachine_wellFormed ⟨rfl, rfl, rfl⟩ (by decide)
  obtain ⟨-, hreceivers⟩ := goesLast_of_wakesAll rfl hwf (h _ 1 _ _ _ rfl hwf)
  rcases hreceivers with hnil | ⟨r, hone, -⟩
  · simp at hnil
  · simp at hone

end ChannelDestroy
