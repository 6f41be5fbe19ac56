import AnosKernel.RunQueues

/-!
# Which task runs next

`sched_schedule` of `kernel/sched/prr.c` on any contents of the four run queues. The contents are
whatever the pushes and pops of `kernel/structs/pq.c` leave, in any order and for tasks of any
priority; beside them it is noted when each task was queued.
-/

namespace Preemption

open Chains Runs Scheduler RunQueues

/-- The run queues, and since when each task has been queued. -/
structure History where
  sched : Sched
  since : BitVec 64 → Nat
  clock : Nat

/-- `change` is any write to a task; of a task that is queued, the link, the priority and the class
stay. -/
inductive Event
  | unblock (t : BitVec 64)
  | dequeue (cls : TaskClass)
  | change (t : BitVec 64) (task : Task)

def Follows (h : History) : Event → History → Prop
  | .unblock t, h' => ¬ Queued h.sched t ∧
      ∃ fuel s, schedUnblockOn fuel h.sched t thisCpu = some s ∧
        h' = ⟨s, Function.update h.since t h.clock, h.clock + 1⟩
  | .dequeue cls, h' => ∃ next s, dequeue h.sched cls = some (next, s) ∧
      h' = { h with sched := s }
  | .change t task, h' =>
      (Queued h.sched t → task.next = (h.sched.task t).next ∧
        task.prio = (h.sched.task t).prio ∧ task.taskClass = (h.sched.task t).taskClass) ∧
      h' = { h with sched := { h.sched with task := Function.update h.sched.task t task } }

def queues : System History Event where
  init := fun h => h.sched.cpuCount = 1 ∧ ∀ cls, (h.sched.cpu thisCpu).head cls = none
  step := Follows

/-- What comes earlier in a queue: the lower value, and among equals the one queued first. -/
def Before (s : Sched) (since : BitVec 64 → Nat) (a b : BitVec 64) : Prop :=
  s.prio a < s.prio b ∨ s.prio a = s.prio b ∧ since a < since b

structure Ordered (h : History) (queue : Nat × TaskClass → List (BitVec 64)) : Prop where
  one : h.sched.cpuCount = 1
  queues : Queues h.sched queue
  placed : ∀ i ∈ indices 1, ∀ t ∈ queue i, (h.sched.task t).taskClass = i.2
  sorted : ∀ i ∈ indices 1, (queue i).Pairwise (Before h.sched h.since)
  known : ∀ t ∈ queued h.sched queue, h.since t < h.clock

section Steps

variable {h h' : History} {queue : Nat × TaskClass → List (BitVec 64)} {s : Sched}
  {t : BitVec 64} {cls : TaskClass} {fuel : Nat}

theorem Ordered.mem (o : Ordered h queue) :
    t ∈ queued h.sched queue ↔ ∃ i ∈ indices 1, t ∈ queue i := by
  rw [queued, o.one, List.mem_flatMap]

/-- A queued task is in the queue of its class. -/
theorem Ordered.place (o : Ordered h queue) (queued : Queued h.sched t) :
    (thisCpu, (h.sched.task t).taskClass) ∈ indices 1 ∧
      t ∈ queue (thisCpu, (h.sched.task t).taskClass) := by
  obtain ⟨⟨c, k⟩, hi, ht⟩ := o.mem.mp ((queued_iff o.queues o.one).mp queued)
  obtain rfl : c = thisCpu := Nat.lt_one_iff.mp (mem_indices.mp hi).1
  rw [o.placed _ hi t ht]
  exact ⟨hi, ht⟩

/-- The order of a queue depends on the priorities and arrivals of its own tasks. -/
theorem pairwise_before_congr {s s' : Sched} {since since' : BitVec 64 → Nat}
    {xs : List (BitVec 64)} (sorted : xs.Pairwise (Before s since))
    (prio : ∀ u ∈ xs, s'.prio u = s.prio u) (same : ∀ u ∈ xs, since' u = since u) :
    xs.Pairwise (Before s' since') := by
  apply sorted.imp_of_mem
  intro a b ha hb hbefore
  rw [Before, prio a ha, prio b hb, same a ha, same b hb]
  exact hbefore

/-- A task that is put behind all that are not less urgent, and came last, is in order. -/
theorem pairwise_insert {s : Sched} {since : BitVec 64 → Nat} {before after : List (BitVec 64)}
    (sorted : (before ++ after).Pairwise (Before s since))
    (urgent : ∀ u ∈ before, s.prio u ≤ s.prio t)
    (less : ∀ u, after.head? = some u → s.prio t < s.prio u)
    (last : ∀ u ∈ before ++ after, since u < since t) :
    (before ++ t :: after).Pairwise (Before s since) := by
  have hafter : ∀ u ∈ after, s.prio t < s.prio u := by
    cases after with
    | nil => simp
    | cons first after =>
      have hfirst := less first rfl
      have hrest := (List.pairwise_cons.mp (List.pairwise_append.mp sorted).2.1).1
      intro u hu
      rcases List.mem_cons.mp hu with rfl | hu
      · exact hfirst
      · rcases hrest u hu with hlt | ⟨heq, -⟩
        · exact BitVec.lt_trans hfirst hlt
        · exact heq ▸ hfirst
  obtain ⟨hbefore, hbehind, hacross⟩ := List.pairwise_append.mp sorted
  rw [List.pairwise_append, List.pairwise_cons]
  refine ⟨hbefore, ⟨fun u hu => Or.inl (hafter u hu), hbehind⟩, ?_⟩
  intro u hu w hw
  rcases List.mem_cons.mp hw with rfl | hw
  · rcases Nat.lt_or_eq_of_le (BitVec.le_def.mp (urgent u hu)) with hlt | heq
    · exact Or.inl (BitVec.lt_def.mpr hlt)
    · exact Or.inr ⟨BitVec.eq_of_toNat_eq heq, last u (List.mem_append_left _ hu)⟩
  · exact hacross u hu w hw

theorem Ordered.start (init : Preemption.queues.init h) : Ordered h (fun _ => []) := by
  obtain ⟨hone, hheads⟩ := init
  have hnone : queued h.sched (fun _ => []) = [] := List.flatMap_eq_nil_iff.mpr fun _ _ => rfl
  refine ⟨hone, ⟨?_, by rw [hnone]; exact List.nodup_nil⟩, by simp, by simp, by simp [hnone]⟩
  intro i hi
  have hcpu : i.1 = thisCpu := by
    have := (mem_indices.mp (hone ▸ hi)).1
    simp only [thisCpu]
    omega
  rw [Sched.headAt, hcpu, hheads]
  rfl

theorem Ordered.unblock (o : Ordered h queue) (out : ¬ Queued h.sched t)
    (run : schedUnblockOn fuel h.sched t thisCpu = some s) :
    ∃ queue', Ordered ⟨s, Function.update h.since t h.clock, h.clock + 1⟩ queue' := by
  have hfresh : t ∉ queued h.sched queue := mt (queued_iff o.queues o.one).mpr out
  have hknown : ∀ u ∈ queued h.sched queue,
      Function.update h.since t h.clock u = h.since u := by
    intro u hu
    exact Function.update_of_ne (ne_of_mem_of_not_mem hu hfresh) _ _
  by_cases hvalid : (h.sched.task t).taskClass = .invalid
  · -- a task of no class is not queued
    have hclass := (setState_task h.sched t t .ready).1.trans hvalid
    simp only [schedUnblockOn, schedEnqueueOn, hclass, if_pos, Option.map_some,
      Option.some.injEq] at run
    subst run
    refine ⟨queue, o.one, ⟨?_, o.queues.nodup⟩, ?_, ?_, ?_⟩
    · intro i hi
      rw [setState_next]
      exact o.queues.family i hi
    · intro i hi u hu
      exact (setState_task h.sched t u .ready).1.trans (o.placed i hi u hu)
    · intro i hi
      apply pairwise_before_congr (o.sorted i hi)
      · exact fun u _ => (setState_task h.sched t u .ready).2
      · exact fun u hu => hknown u (o.mem.mpr ⟨i, hi, hu⟩)
    · intro u hu
      have hold : u ∈ queued h.sched queue := hu
      show Function.update h.since t h.clock u < h.clock + 1
      rw [hknown u hold]
      exact Nat.lt_succ_of_lt (o.known u hold)
  · have hu := schedUnblockOn_unblocked hvalid run
    have hi : h.sched.queueFor t thisCpu ∈ indices 1 := mem_indices.mpr ⟨Nat.one_pos, hvalid⟩
    obtain ⟨before, after, hsplit, hbefore, hafter, hqueues, hperm, -, -⟩ :=
      o.queues.unblock hu (o.one ▸ hi) hfresh
    have hprio : ∀ u, s.prio u = h.sched.prio u := congrFun hu.prio
    refine ⟨_, hu.cpuCount.trans o.one, hqueues, ?_, ?_, ?_⟩
    · intro i hi' u hui
      rw [hu.taskClass u]
      by_cases hne : i = h.sched.queueFor t thisCpu
      · subst hne
        rw [Function.update_self, List.mem_append, List.mem_cons, or_left_comm,
          ← List.mem_append, ← hsplit] at hui
        rcases hui with rfl | hui
        · rfl
        · exact o.placed _ hi' u hui
      · rw [Function.update_of_ne hne] at hui
        exact o.placed i hi' u hui
    · intro i hi'
      by_cases hne : i = h.sched.queueFor t thisCpu
      · subst hne
        rw [Function.update_self]
        have hold : ∀ u ∈ before ++ after, u ∈ queued h.sched queue :=
          fun u hu => o.mem.mpr ⟨_, hi', hsplit ▸ hu⟩
        apply pairwise_insert
        · apply pairwise_before_congr (hsplit ▸ o.sorted _ hi')
          · exact fun u _ => hprio u
          · exact fun u hu => hknown u (hold u hu)
        · intro u hu
          rw [hprio, hprio]
          exact hbefore u hu
        · intro u hu
          rw [hprio, hprio]
          exact hafter u hu
        · intro u hu
          show Function.update h.since t h.clock u < Function.update h.since t h.clock t
          rw [hknown u (hold u hu), Function.update_self]
          exact o.known u (hold u hu)
      · rw [Function.update_of_ne hne]
        apply pairwise_before_congr (o.sorted i hi')
        · exact fun u _ => hprio u
        · exact fun u hu => hknown u (o.mem.mpr ⟨i, hi', hu⟩)
    · intro u hu
      show Function.update h.since t h.clock u < h.clock + 1
      rcases List.mem_cons.mp (hperm.mem_iff.mp hu) with rfl | hold
      · rw [Function.update_self]
        exact Nat.lt_succ_self _
      · rw [hknown u hold]
        exact Nat.lt_succ_of_lt (o.known u hold)

theorem dequeue_valid {next : BitVec 64} (run : dequeue h.sched cls = some (next, s)) :
    cls ≠ .invalid := by
  rintro rfl
  simp [dequeue, taskPqPop, PerCPUSchedState.head] at run

theorem Ordered.dequeue {next : BitVec 64} (o : Ordered h queue)
    (run : dequeue h.sched cls = some (next, s)) :
    ∃ queue', Ordered { h with sched := s } queue' := by
  obtain ⟨rest, hqueue, hqueues, hperm, hcount, -, htask⟩ :=
    Queues.dequeue o.queues o.one (dequeue_valid run) run
  have hsub : ∀ i, (Function.update queue (thisCpu, cls) rest i).Sublist (queue i) := by
    intro i
    by_cases hne : i = (thisCpu, cls)
    · subst hne
      rw [Function.update_self, hqueue]
      exact List.sublist_cons_self next rest
    · rw [Function.update_of_ne hne]
  refine ⟨_, hcount.trans o.one, hqueues, ?_, ?_, ?_⟩
  · intro i hi u hu
    exact (htask u).2.1.trans (o.placed i hi u ((hsub i).subset hu))
  · intro i hi
    apply pairwise_before_congr ((o.sorted i hi).sublist (hsub i))
    · exact fun u _ => (htask u).2.2
    · exact fun u _ => rfl
  · intro u hu
    exact o.known u (hperm.mem_iff.mpr (List.mem_cons_of_mem _ hu))

theorem Ordered.change {task : Task} (o : Ordered h queue)
    (keeps : Queued h.sched t → task.next = (h.sched.task t).next ∧
      task.prio = (h.sched.task t).prio ∧ task.taskClass = (h.sched.task t).taskClass) :
    Ordered { h with sched := { h.sched with task := Function.update h.sched.task t task } }
      queue := by
  have hsame : ∀ u ∈ queued h.sched queue,
      (Function.update h.sched.task t task u).next = (h.sched.task u).next ∧
        (Function.update h.sched.task t task u).prio = (h.sched.task u).prio ∧
        (Function.update h.sched.task t task u).taskClass = (h.sched.task u).taskClass := by
    intro u hu
    by_cases hne : u = t
    · subst hne
      rw [Function.update_self]
      exact keeps ((queued_iff o.queues o.one).mpr hu)
    · rw [Function.update_of_ne hne]
      exact ⟨rfl, rfl, rfl⟩
  have hqueued : ∀ i ∈ indices 1, ∀ u ∈ queue i, u ∈ queued h.sched queue :=
    fun i hi u hu => o.mem.mpr ⟨i, hi, hu⟩
  refine ⟨o.one, ⟨?_, o.queues.nodup⟩, ?_, ?_, o.known⟩
  · intro i hi
    apply Seg.congr (o.queues.family i hi)
    exact fun u hu => (hsame u (hqueued i (o.one ▸ hi) u hu)).1
  · intro i hi u hu
    exact (hsame u (hqueued i hi u hu)).2.2.trans (o.placed i hi u hu)
  · intro i hi
    apply pairwise_before_congr (o.sorted i hi)
    · exact fun u hu => (hsame u (hqueued i hi u hu)).2.1
    · exact fun u _ => rfl

/-- Whatever is done to them, the queues are in order. -/
theorem ordered_of_reachable (reached : Reachable queues h) : ∃ queue, Ordered h queue := by
  apply Reachable.invariant (fun h => ∃ queue, Ordered h queue) ?_ ?_ reached
  · exact fun h init => ⟨_, Ordered.start init⟩
  · rintro h event h' ⟨queue, o⟩ step
    cases event with
    | unblock t =>
      obtain ⟨hout, fuel, s, hrun, rfl⟩ := step
      exact o.unblock hout hrun
    | dequeue cls =>
      obtain ⟨next, s, hrun, rfl⟩ := step
      exact o.dequeue hrun
    | change t task =>
      obtain ⟨hkeeps, rfl⟩ := step
      exact ⟨queue, o.change hkeeps⟩

end Steps

/-! ## What the scheduler should do -/

/-- A higher class, or the same class and a strictly lower value. -/
def Preferred (s : Sched) (u t : BitVec 64) : Prop :=
  classValue (s.task t).taskClass < classValue (s.task u).taskClass ∨
    (s.task u).taskClass = (s.task t).taskClass ∧ s.prio u < s.prio t

/-- The task whose turn it is: in the highest class that has one, of the lowest value there, and
among those the one that was queued first. -/
structure First (s : Sched) (since : BitVec 64 → Nat) (u : BitVec 64) : Prop where
  queued : Queued s u
  highest : ∀ w, Queued s w →
    classValue (s.task w).taskClass ≤ classValue (s.task u).taskClass
  lowest : ∀ w, Queued s w → (s.task w).taskClass = (s.task u).taskClass → s.prio u ≤ s.prio w
  earliest : ∀ w, Queued s w → (s.task w).taskClass = (s.task u).taskClass →
    s.prio w = s.prio u → w ≠ u → since u < since w

/-- The current task `t` goes on exactly if none is preferred to it, and gives way to the task
whose turn it is. -/
structure Decided (s : Sched) (since : BitVec 64 → Nat) (t : BitVec 64) (cpu : Cpu) : Prop where
  keeps : cpu.current = some t ↔ ∀ u, Queued s u → ¬ Preferred s u t
  takes : cpu.current ≠ some t → ∃ u, cpu.current = some u ∧ First s since u

/-- `sched_schedule` returns, and has decided so. -/
def Decides (cpu : Cpu) (since : BitVec 64 → Nat) (t : BitVec 64) : Prop :=
  ∃ enough, ∀ fuel ≥ enough, ∃ cpu', schedSchedule fuel cpu = some cpu' ∧
    Decided cpu.sched since t cpu'

section Schedule

variable {cpu cpu' : Cpu} {since : BitVec 64 → Nat} {clock fuel : Nat} {t u : BitVec 64}
  {cls : TaskClass} {queue : Nat × TaskClass → List (BitVec 64)}

theorem candidateQueue_highest {state : PerCPUSchedState} {k : TaskClass}
    (candidate : candidateQueue state = some cls) (some_task : (state.head k).isSome) :
    classValue k ≤ classValue cls := by
  have hne : k ≠ .invalid := by
    rintro rfl
    exact absurd some_task (by simp [PerCPUSchedState.head])
  simp only [candidateQueue, List.find?_cons, List.find?_nil] at candidate
  split at candidate
  · obtain rfl := Option.some.inj candidate
    revert hne
    cases k <;> decide
  · split at candidate
    · obtain rfl := Option.some.inj candidate
      cases k <;> simp_all [classValue]
    · split at candidate
      · obtain rfl := Option.some.inj candidate
        cases k <;> simp_all [classValue]
      · split at candidate
        · obtain rfl := Option.some.inj candidate
          cases k <;> simp_all [classValue]
        · exact absurd candidate (by simp)

theorem candidateQueue_none {state : PerCPUSchedState} (none_left : candidateQueue state = none)
    (cls : TaskClass) : state.head cls = none := by
  rw [candidateQueue, List.find?_eq_none] at none_left
  cases cls with
  | invalid => rfl
  | realtime | high | normal | idle => simpa using none_left _ (by simp)

/-- The first task of the candidate queue is the one whose turn it is. -/
theorem candidate_first (o : Ordered ⟨cpu.sched, since, clock⟩ queue)
    (candidate : candidateQueue (cpu.sched.cpu thisCpu) = some cls) :
    ∃ u, (cpu.sched.cpu thisCpu).head cls = some u ∧ (cpu.sched.task u).taskClass = cls ∧
      First cpu.sched since u := by
  obtain ⟨u, hu⟩ := Option.isSome_iff_exists.mp (candidateQueue_isSome candidate)
  have hi : (thisCpu, cls) ∈ indices 1 :=
    mem_indices.mpr ⟨Nat.one_pos, candidateQueue_ne candidate⟩
  have hchain := o.queues.family _ (o.one ▸ hi)
  have hhead : cpu.sched.headAt (thisCpu, cls) = some u := hu
  obtain ⟨rest, hqueue, -⟩ := Chain.cons_of_some (hhead ▸ hchain)
  have hin : u ∈ queue (thisCpu, cls) := hqueue ▸ List.mem_cons_self
  have hclass : (cpu.sched.task u).taskClass = cls := o.placed _ hi u hin
  have hfirst : ∀ w, Queued cpu.sched w → (cpu.sched.task w).taskClass = cls → w ≠ u →
      Before cpu.sched since u w := by
    intro w hw hwclass hne
    have hwin := (o.place hw).2
    rw [hwclass, hqueue] at hwin
    have hsorted := o.sorted _ hi
    rw [hqueue] at hsorted
    exact (List.pairwise_cons.mp hsorted).1 w ((List.mem_cons.mp hwin).resolve_left hne)
  refine ⟨u, hu, hclass, (queued_iff o.queues o.one).mpr (o.mem.mpr ⟨_, hi, hin⟩), ?_, ?_, ?_⟩
  · intro w hw
    rw [hclass]
    apply candidateQueue_highest candidate
    obtain ⟨hj, hwin⟩ := o.place hw
    have hwchain := o.queues.family _ (o.one ▸ hj)
    obtain ⟨x, xs, hxs⟩ := List.exists_cons_of_ne_nil (List.ne_nil_of_mem hwin)
    rw [hxs] at hwchain
    have hhead : cpu.sched.headAt (thisCpu, (cpu.sched.task w).taskClass) = some x := hwchain.1
    exact Option.isSome_iff_exists.mpr ⟨x, hhead⟩
  · intro w hw hwclass
    by_cases hne : w = u
    · rw [hne]
      exact BitVec.le_refl _
    · rcases hfirst w hw (hwclass.trans hclass) hne with hlt | ⟨heq, -⟩
      · exact BitVec.le_of_lt hlt
      · exact heq ▸ BitVec.le_refl _
  · intro w hw hwclass hprio hne
    rcases hfirst w hw (hwclass.trans hclass) hne with hlt | ⟨-, hsince⟩
    · exact absurd (hprio ▸ hlt) (BitVec.lt_irrefl _)
    · exact hsince

theorem switchTask_current (run : switchTask fuel cpu cls = some cpu') :
    cpu'.current = (cpu.sched.cpu thisCpu).head cls := by
  obtain ⟨⟨next, s1⟩, hdequeue, run⟩ := Option.bind_eq_some_iff.mp run
  obtain ⟨s2, -, run⟩ := Option.bind_eq_some_iff.mp run
  obtain rfl := Option.some.inj run
  obtain ⟨⟨_, head, _⟩, hpop, hdequeue⟩ := Option.map_eq_some_iff.mp hdequeue
  obtain ⟨first, hfirst, hpop⟩ := Option.map_eq_some_iff.mp hpop
  simp only [Prod.mk.injEq] at hpop hdequeue
  rw [← hdequeue.1, ← hpop.1, hfirst]

/-- A switch ends, however long the queue is that the current task goes back to. -/
theorem switchTask_returns (o : Ordered ⟨cpu.sched, since, clock⟩ queue)
    (candidate : candidateQueue (cpu.sched.cpu thisCpu) = some cls) :
    ∃ enough, ∀ fuel ≥ enough, ∃ cpu', switchTask fuel cpu cls = some cpu' := by
  obtain ⟨first, hfirst⟩ := Option.isSome_iff_exists.mp (candidateQueue_isSome candidate)
  obtain ⟨next, s, hdequeue⟩ : ∃ next s, dequeue cpu.sched cls = some (next, s) := by
    rw [RunQueues.dequeue, hfirst]
    exact ⟨_, _, rfl⟩
  obtain ⟨queue', o'⟩ := o.dequeue hdequeue
  have hrequeue : ∃ enough, ∀ fuel ≥ enough, ∃ s', requeueCurrent fuel s cpu.current = some s' := by
    cases cpu.current with
    | none => exact ⟨0, fun _ _ => ⟨s, rfl⟩⟩
    | some t =>
      by_cases hrunning : (s.task t).state = .running
      · obtain ⟨xs, hchain⟩ := chain_queueFor o'.queues o'.one t
        refine ⟨xs.length, fun fuel enough => ?_⟩
        rw [requeueCurrent, if_pos hrunning]
        exact Option.isSome_iff_exists.mp (schedUnblockOn_isSome hchain enough)
      · refine ⟨0, fun fuel _ => ⟨s, ?_⟩⟩
        rw [requeueCurrent, if_neg hrunning]
  obtain ⟨enough, hrequeue⟩ := hrequeue
  refine ⟨enough, fun fuel hfuel => ?_⟩
  obtain ⟨s', hs'⟩ := hrequeue fuel hfuel
  simp only [switchTask, hdequeue, Option.bind_eq_bind, Option.bind_some, hs']
  exact ⟨_, rfl⟩

/-- Wherever the scheduler switches, it is to the task whose turn it is. -/
theorem schedSchedule_takes (o : Ordered ⟨cpu.sched, since, clock⟩ queue)
    (run : schedSchedule fuel cpu = some cpu') (switched : cpu'.current ≠ cpu.current) :
    ∃ u, cpu'.current = some u ∧ First cpu.sched since u := by
  rw [schedSchedule] at run
  split at run
  · obtain rfl := Option.some.inj run
    exact absurd rfl switched
  · rename_i cls candidate
    obtain ⟨u, hhead, -, hturn⟩ := candidate_first o candidate
    split at run
    · exact ⟨u, (switchTask_current run).trans hhead, hturn⟩
    · rename_i t ht
      obtain ⟨hsched, hcurrent, -⟩ := decrementTimeslice_keeps cpu t
      dsimp only at run
      split_ifs at run
      · obtain rfl := Option.some.inj run
        exact absurd hcurrent switched
      · refine ⟨u, (switchTask_current run).trans ?_, hturn⟩
        rw [hsched]
        exact hhead

/-- With time left in its slice, a task goes on unless the candidate is of a higher class: what the
priority clause adds was admitted by the class clause before it. -/
theorem timesliceContinues_eq (awake : (cpu.sched.task t).state ≠ .blocked)
    (left : 1 < (cpu.tsRemain t).toNat) :
    timesliceContinues (decrementTimeslice cpu t) t u =
      decide (classValue (cpu.sched.task u).taskClass ≤
        classValue (cpu.sched.task t).taskClass) := by
  have hleft : (decrementTimeslice cpu t).tsRemain t > 0 := by
    have hpos : cpu.tsRemain t > 0 := by
      rw [gt_iff_lt, BitVec.lt_def]
      exact Nat.lt_of_succ_lt left
    rw [decrementTimeslice, if_pos hpos]
    simp only [Function.update_self]
    bv_omega
  rw [timesliceContinues, (decrementTimeslice_keeps cpu t).1]
  simp only [hleft]
  by_cases hle : classValue (cpu.sched.task u).taskClass ≤ classValue (cpu.sched.task t).taskClass
  · simp [hle, awake]
  · have hne : classValue (cpu.sched.task u).taskClass ≠ classValue (cpu.sched.task t).taskClass :=
      fun heq => hle (Nat.le_of_eq heq)
    simp [hle, hne]

theorem schedSchedule_eq (running : cpu.current = some t) (alive : threadToBeKilled cpu t = false)
    (awake : (cpu.sched.task t).state ≠ .blocked) (left : 1 < (cpu.tsRemain t).toNat)
    (candidate : candidateQueue (cpu.sched.cpu thisCpu) = some cls)
    (head : (cpu.sched.cpu thisCpu).head cls = some u) :
    schedSchedule fuel cpu =
      if classValue (cpu.sched.task u).taskClass ≤ classValue (cpu.sched.task t).taskClass then
        some (decrementTimeslice cpu t)
      else switchTask fuel (decrementTimeslice cpu t) cls := by
  obtain ⟨hsched, -, hflags⟩ := decrementTimeslice_keeps cpu t
  have halive : threadToBeKilled (decrementTimeslice cpu t) t = false := by
    rw [threadToBeKilled, hflags]
    exact alive
  have hgoes := @timesliceContinues_eq cpu t u awake left
  simp only [schedSchedule, candidate, running, halive, hsched, head, Option.any_some, hgoes,
    Bool.false_eq_true, if_false, decide_eq_true_eq]

/-- The candidate is of the class of the current task and more urgent. -/
def Overlooked (s : Sched) (t : BitVec 64) : Prop :=
  ∃ u, Queued s u ∧ (s.task u).taskClass = (s.task t).taskClass ∧ s.prio u < s.prio t ∧
    ∀ w, Queued s w → classValue (s.task w).taskClass ≤ classValue (s.task t).taskClass

theorem decides_of_not_overlooked (o : Ordered ⟨cpu.sched, since, clock⟩ queue)
    (running : cpu.current = some t) (out : ¬ Queued cpu.sched t)
    (awake : (cpu.sched.task t).state ≠ .blocked) (alive : threadToBeKilled cpu t = false)
    (left : 1 < (cpu.tsRemain t).toNat) (seen : ¬ Overlooked cpu.sched t) :
    Decides cpu since t := by
  cases candidate : candidateQueue (cpu.sched.cpu thisCpu) with
  | none =>
    -- nothing is queued
    have hnone : ∀ u, ¬ Queued cpu.sched u := by
      rintro u ⟨cls, walked, hwalk⟩
      rw [candidateQueue_none candidate cls] at hwalk
      cases walked with
      | nil => exact absurd hwalk (by simp)
      | cons x walked => exact absurd hwalk.1 (by simp)
    refine ⟨0, fun fuel _ => ⟨cpu, by rw [schedSchedule, candidate], ?_, ?_⟩⟩
    · simp only [running, true_iff]
      exact fun u hu => absurd hu (hnone u)
    · exact fun hne => absurd running hne
  | some cls =>
    obtain ⟨u, hhead, hclass, hturn⟩ := candidate_first o candidate
    obtain ⟨hsched, hcurrent, -⟩ := decrementTimeslice_keeps cpu t
    by_cases hle : classValue (cpu.sched.task u).taskClass ≤ classValue (cpu.sched.task t).taskClass
    · refine ⟨0, fun fuel _ => ⟨decrementTimeslice cpu t, ?_, ?_, ?_⟩⟩
      · rw [schedSchedule_eq running alive awake left candidate hhead, if_pos hle]
      · simp only [hcurrent, running, true_iff]
        intro w hw hpreferred
        have hhighest := Nat.le_trans (hturn.highest w hw) hle
        rcases hpreferred with hhigher | ⟨hsame, hlower⟩
        · exact absurd hhigher (Nat.not_lt.mpr hhighest)
        · exact seen ⟨w, hw, hsame, hlower, fun x hx => Nat.le_trans (hturn.highest x hx) hle⟩
      · exact fun hne => absurd (hcurrent.trans running) hne
    · have o' : Ordered ⟨(decrementTimeslice cpu t).sched, since, clock⟩ queue := by
        rw [hsched]
        exact o
      obtain ⟨enough, hreturns⟩ := switchTask_returns o' (by rw [hsched]; exact candidate)
      refine ⟨enough, fun fuel hfuel => ?_⟩
      obtain ⟨cpu', hswitch⟩ := hreturns fuel hfuel
      have hnext := switchTask_current hswitch
      rw [hsched, hhead] at hnext
      refine ⟨cpu', ?_, ?_, fun _ => ⟨u, hnext, hturn⟩⟩
      · rw [schedSchedule_eq running alive awake left candidate hhead, if_neg hle]
        exact hswitch
      · constructor
        · intro hkept
          obtain rfl := Option.some.inj (hnext.symm.trans hkept)
          exact absurd hturn.queued out
        · intro hnone
          exact absurd (Or.inl (Nat.not_le.mp hle)) (hnone u hturn.queued)

/-- A more urgent task of the same class is left waiting. -/
theorem not_decides_of_overlooked (o : Ordered ⟨cpu.sched, since, clock⟩ queue)
    (running : cpu.current = some t) (awake : (cpu.sched.task t).state ≠ .blocked)
    (alive : threadToBeKilled cpu t = false) (left : 1 < (cpu.tsRemain t).toNat)
    (overlooked : Overlooked cpu.sched t) : ¬ Decides cpu since t := by
  obtain ⟨w, hw, hsame, hlower, hhighest⟩ := overlooked
  rintro ⟨enough, hdecides⟩
  obtain ⟨cpu', hrun, hdecided⟩ := hdecides enough (Nat.le_refl enough)
  cases candidate : candidateQueue (cpu.sched.cpu thisCpu) with
  | none =>
    rw [schedSchedule, candidate] at hrun
    obtain rfl := Option.some.inj hrun
    exact hdecided.keeps.mp running w hw (Or.inr ⟨hsame, hlower⟩)
  | some cls =>
    obtain ⟨u, hhead, hclass, hturn⟩ := candidate_first o candidate
    have hle := hhighest u hturn.queued
    rw [schedSchedule_eq running alive awake left candidate hhead, if_pos hle] at hrun
    obtain rfl := Option.some.inj hrun
    have hkept := (decrementTimeslice_keeps cpu t).2.1.trans running
    exact hdecided.keeps.mp hkept w hw (Or.inr ⟨hsame, hlower⟩)

/-- The current task has time left if its slice is not used up by the tick that this call counts.
Priorities within a class are not looked at; the choice of the next task is right whenever there is
one. -/
theorem schedSchedule_decides_iff (reached : Reachable queues ⟨cpu.sched, since, clock⟩)
    (running : cpu.current = some t) (out : ¬ Queued cpu.sched t)
    (awake : (cpu.sched.task t).state ≠ .blocked) (alive : threadToBeKilled cpu t = false)
    (left : 1 < (cpu.tsRemain t).toNat) :
    (Decides cpu since t ↔
      ¬ ∃ u, Queued cpu.sched u ∧ (cpu.sched.task u).taskClass = (cpu.sched.task t).taskClass ∧
        cpu.sched.prio u < cpu.sched.prio t ∧
        ∀ w, Queued cpu.sched w →
          classValue (cpu.sched.task w).taskClass ≤ classValue (cpu.sched.task t).taskClass) ∧
    ∀ fuel cpu', schedSchedule fuel cpu = some cpu' → cpu'.current ≠ cpu.current →
      ∃ u, cpu'.current = some u ∧ First cpu.sched since u := by
  obtain ⟨queue, o⟩ := ordered_of_reachable reached
  refine ⟨⟨?_, ?_⟩, ?_⟩
  · intro hdecides hoverlooked
    exact not_decides_of_overlooked o running awake alive left hoverlooked hdecides
  · exact decides_of_not_overlooked o running out awake alive left
  · intro fuel cpu' hrun hswitched
    exact schedSchedule_takes o hrun hswitched

end Schedule

/-! ## Two tasks of one class -/

/-- The task at 0x1000 runs with the value 5; all others have `prio`. -/
def twoTasks (prio : BitVec 8) : Sched where
  cpuCount := 1
  cpu := fun _ => ⟨none, none, none, none, 0⟩
  task := fun t =>
    { next := none
      state := if t = 0x1000 then .running else .blocked
      taskClass := .normal
      prio := if t = 0x1000 then 5 else prio }

/-- The task at 0x2000 is unblocked while the other one runs, with a full slice. -/
def twoTasksCpu (prio : BitVec 8) : Cpu where
  sched := (schedUnblockOn 0 (twoTasks prio) 0x2000 thisCpu).getD (twoTasks prio)
  tsRemain := fun _ => defaultTimeslice
  statusFlags := fun _ => 0
  current := some 0x1000

def twoTasksSince : BitVec 64 → Nat := Function.update (fun _ => 0) 0x2000 0

section TwoTasks

variable {prio : BitVec 8}

theorem twoTasks_unblock :
    schedUnblockOn 0 (twoTasks prio) 0x2000 thisCpu = some (twoTasksCpu prio).sched := rfl

theorem twoTasks_reached : Reachable queues ⟨(twoTasksCpu prio).sched, twoTasksSince, 1⟩ := by
  have hstart : Reachable queues ⟨twoTasks prio, fun _ => 0, 0⟩ := by
    apply Reachable.start
    exact ⟨rfl, fun cls => by cases cls <;> rfl⟩
  apply hstart.next (a := .unblock 0x2000)
  refine ⟨?_, 0, _, twoTasks_unblock, rfl⟩
  rintro ⟨cls, walked, hwalk⟩
  have hhead : ((twoTasks prio).cpu thisCpu).head cls = none := by cases cls <;> rfl
  rw [hhead] at hwalk
  cases walked with
  | nil => exact absurd hwalk (by simp)
  | cons x walked => exact absurd hwalk.1 (by simp)

theorem twoTasks_unblocked : Unblocked (twoTasks prio) 0x2000 thisCpu (twoTasksCpu prio).sched :=
  schedUnblockOn_unblocked TaskClass.noConfusion twoTasks_unblock

theorem twoTasks_class (u : BitVec 64) : ((twoTasksCpu prio).sched.task u).taskClass = .normal :=
  twoTasks_unblocked.taskClass u

theorem twoTasks_prio (u : BitVec 64) :
    (twoTasksCpu prio).sched.prio u = if u = 0x1000 then 5 else prio :=
  congrFun twoTasks_unblocked.prio u

theorem twoTasks_awake : ((twoTasksCpu prio).sched.task 0x1000).state ≠ .blocked := by
  rw [twoTasks_unblocked.others 0x1000 (by decide)]
  simp [twoTasks]

theorem twoTasks_queued : Queued (twoTasksCpu prio).sched 0x2000 := ⟨.normal, [], rfl⟩

/-- Only the other task is queued. -/
theorem twoTasks_out : ¬ Queued (twoTasksCpu prio).sched 0x1000 := by
  rintro ⟨cls, walked, hwalk⟩
  have hnext : (twoTasksCpu prio).sched.next 0x2000 = none := rfl
  have hhead : ((twoTasksCpu prio).sched.cpu thisCpu).head cls = none ∨
      ((twoTasksCpu prio).sched.cpu thisCpu).head cls = some 0x2000 := by
    cases cls with
    | normal => exact Or.inr rfl
    | idle | high | realtime | invalid => exact Or.inl rfl
  have hempty : ∀ walked, ¬ Seg (twoTasksCpu prio).sched.next none walked (some 0x1000) := by
    intro walked hwalk
    cases walked with
    | nil => exact absurd hwalk (by simp)
    | cons x walked => exact absurd hwalk.1 (by simp)
  rcases hhead with hhead | hhead
  · rw [hhead] at hwalk
    exact hempty _ hwalk
  · rw [hhead] at hwalk
    cases walked with
    | nil => exact absurd (Option.some.inj hwalk) (by decide)
    | cons x walked =>
      obtain ⟨hx, hrest⟩ := hwalk
      obtain rfl := Option.some.inj hx
      rw [hnext] at hrest
      exact hempty _ hrest

end TwoTasks

/-- A task of a higher value waits for the slice to end. -/
theorem schedSchedule_decides_iff_waits :
    Reachable queues ⟨(twoTasksCpu 7).sched, twoTasksSince, 1⟩ ∧
      Decides (twoTasksCpu 7) twoTasksSince 0x1000 := by
  have h := (schedSchedule_decides_iff (@twoTasks_reached 7) rfl twoTasks_out twoTasks_awake
    (by decide) (by decide)).1
  refine ⟨twoTasks_reached, h.mpr ?_⟩
  rintro ⟨u, -, -, hlower, -⟩
  rw [twoTasks_prio, twoTasks_prio, if_pos rfl] at hlower
  split_ifs at hlower
  · exact absurd hlower (by decide)
  · exact absurd hlower (by decide)

/-- The value 0 is more urgent than 5, but the task that has it waits too. -/
theorem urgent_task_waits :
    Reachable queues ⟨(twoTasksCpu 0).sched, twoTasksSince, 1⟩ ∧
      (twoTasksCpu 0).current = some 0x1000 ∧ ¬ Queued (twoTasksCpu 0).sched 0x1000 ∧
      ((twoTasksCpu 0).sched.task 0x1000).state ≠ .blocked ∧
      threadToBeKilled (twoTasksCpu 0) 0x1000 = false ∧
      1 < ((twoTasksCpu 0).tsRemain 0x1000).toNat ∧
      ¬ Decides (twoTasksCpu 0) twoTasksSince 0x1000 := by
  obtain ⟨queue, o⟩ := ordered_of_reachable (@twoTasks_reached 0)
  have hoverlooked : Overlooked (twoTasksCpu 0).sched 0x1000 := by
    refine ⟨0x2000, twoTasks_queued, ?_, ?_, ?_⟩
    · rw [twoTasks_class, twoTasks_class]
    · rw [twoTasks_prio, twoTasks_prio]
      decide
    · intro w _
      rw [twoTasks_class, twoTasks_class]
  refine ⟨twoTasks_reached, rfl, twoTasks_out, twoTasks_awake, by decide, by decide, ?_⟩
  exact not_decides_of_overlooked o rfl twoTasks_awake (by decide) (by decide) hoverlooked

end Preemption
