import AnosKernel.Lib.Chains
import AnosKernel.Lib.Runs
import Mathlib.Data.BitVec
import Mathlib.Data.Fintype.Card
import Mathlib.Data.List.Sort

/-!
# The queue of sleeping tasks

`kernel/sleep_queue.c` keeps the sleepers of a CPU in the order of their deadlines, linked
through slab blocks. The header of the queue has its first pointer where a sleeper has its link,
so that a search can start at the header itself. Tasks that wake are linked through their own
`this.next`.
-/

namespace SleepQueues

open Chains Runs

structure Sleeper where
  next : Option (BitVec 64)
  wakeAt : BitVec 64
  task : BitVec 64
  deriving DecidableEq, Repr

structure SleepQueue where
  head : Option (BitVec 64)
  tail : Option (BitVec 64)
  count : BitVec 64
  deriving DecidableEq, Repr

/-- The queue, the sleepers by their addresses, and the links of the tasks. -/
structure State where
  queue : SleepQueue
  sleeper : BitVec 64 → Sleeper
  taskNext : BitVec 64 → Option (BitVec 64)

/-- What a `Sleeper *` of the search points to: the header or a sleeper. -/
inductive Node where
  | queue
  | sleeper (addr : BitVec 64)
  deriving DecidableEq, Repr

def State.next (s : State) (block : BitVec 64) : Option (BitVec 64) := (s.sleeper block).next

def State.wakeAt (s : State) (block : BitVec 64) : BitVec 64 := (s.sleeper block).wakeAt

def State.task (s : State) (block : BitVec 64) : BitVec 64 := (s.sleeper block).task

def State.nextOf (s : State) : Node → Option (BitVec 64)
  | .queue => s.queue.head
  | .sleeper addr => s.next addr

def State.setNextOf (s : State) (next : Option (BitVec 64)) : Node → State
  | .queue => { s with queue := { s.queue with head := next } }
  | .sleeper addr =>
    { s with sleeper := Function.update s.sleeper addr { s.sleeper addr with next := next } }

def sleepQueueInit (s : State) : State :=
  { s with queue := { s.queue with head := none, tail := none } }

/-- The search for the node to insert behind; `none` when the fuel does not suffice. -/
def findPlace (s : State) (wakeAt : BitVec 64) : Nat → Node → Option Node
  | 0, _ => none
  | fuel + 1, current =>
    match s.nextOf current with
    | none => some current
    | some next =>
      if wakeAt > s.wakeAt next then findPlace s wakeAt fuel (.sleeper next) else some current

/-- The sleeper goes behind `current`. -/
def insertBehind (s : State) (sleeper : BitVec 64) (current : Node) : State :=
  let next := s.nextOf current
  let s := (s.setNextOf next (.sleeper sleeper)).setNextOf (some sleeper) current
  { s with queue := { s.queue with
      tail := if next = none then some sleeper else s.queue.tail
      count := s.queue.count + 1 } }

/-- `sleep_queue_enqueue`, where `slab` is the answer of `slab_alloc_block`. -/
def sleepQueueEnqueue (fuel : Nat) (s : State) (task : Option (BitVec 64)) (deadline : BitVec 64)
    (slab : Option (BitVec 64)) : Option (Bool × State) :=
  match task with
  | none => some (false, s)
  | some task =>
    match slab with
    | none => some (false, s)
    | some sleeper =>
      let s := { s with
        sleeper := Function.update s.sleeper sleeper ⟨none, deadline, task⟩ }
      (findPlace s deadline fuel .queue).map fun current => (true, insertBehind s sleeper current)

/-- The first sleeper to keep. -/
def findKept (s : State) (deadline : BitVec 64) : Nat → Option (BitVec 64) →
    Option (Option (BitVec 64))
  | 0, _ => none
  | _ + 1, none => some none
  | fuel + 1, some curr =>
    if s.wakeAt curr ≤ deadline then findKept s deadline fuel (s.next curr) else some (some curr)

/-- The list of tasks as it is built: its first and its last task. -/
structure TaskList where
  first : Option (BitVec 64)
  last : Option (BitVec 64)

/-- One task more at the end of the list. -/
def linkTask (s : State) (tasks : TaskList) (task : BitVec 64) : State × TaskList :=
  match tasks.first, tasks.last with
  | none, _ => (s, ⟨some task, some task⟩)
  | some first, some last =>
    ({ s with taskNext := Function.update s.taskNext last (some task) }, ⟨some first, some task⟩)
  | some first, none => (s, ⟨some first, some task⟩)

/-- The loop that takes the sleepers before `newHead`. `slab_free` leaves the block as it is,
and its link was read before. -/
def takeLoop (newHead : Option (BitVec 64)) : Nat → Option (BitVec 64) → TaskList → State →
    Option (TaskList × State)
  | 0, _, _, _ => none
  | fuel + 1, curr, tasks, s =>
    if curr = newHead then some (tasks, s)
    else
      match curr with
      | none => none
      | some block =>
        let (s, tasks) := linkTask s tasks (s.task block)
        takeLoop newHead fuel (s.next block) tasks
          { s with queue := { s.queue with count := s.queue.count - 1 } }

/-- The end of `sleep_queue_dequeue`: the last task ends its list, and the queue starts at the
first sleeper kept. -/
def finishDequeue (newHead : Option (BitVec 64)) (tasks : TaskList) (s : State) : State :=
  { s with
    taskNext := match tasks.last with
      | some last => Function.update s.taskNext last none
      | none => s.taskNext
    queue := { s.queue with
      head := newHead
      tail := if newHead = none then none else s.queue.tail } }

def sleepQueueDequeue (fuel : Nat) (s : State) (deadline : BitVec 64) :
    Option (Option (BitVec 64) × State) :=
  if s.queue.head = none then some (none, s)
  else
    match findKept s deadline fuel s.queue.head with
    | none => none
    | some newHead =>
      if newHead = s.queue.head then some (none, s)
      else
        (takeLoop newHead fuel s.queue.head ⟨none, none⟩ s).map fun (tasks, s) =>
          (tasks.first, finishDequeue newHead tasks s)

/-! ## Enqueueing -/

/-- The blocks of the queue from its head on. -/
structure Holds (s : State) (blocks : List (BitVec 64)) : Prop where
  chain : Chain s.next s.queue.head blocks
  nonnull : 0 ∉ blocks
  sorted : blocks.Pairwise fun a b => s.wakeAt a ≤ s.wakeAt b
  count : s.queue.count = BitVec.ofNat 64 blocks.length
  tail : s.queue.tail = blocks.getLast?

/-- Only the header and the sleepers on the queue matter. -/
theorem Holds.congr {s s' : State} {blocks : List (BitVec 64)} (h : Holds s blocks)
    (queue : s'.queue = s.queue) (same : ∀ b ∈ blocks, s'.sleeper b = s.sleeper b) :
    Holds s' blocks := by
  constructor
  · rw [queue]
    exact Seg.congr h.chain fun b hb => congrArg Sleeper.next (same b hb)
  · exact h.nonnull
  · refine h.sorted.imp_of_mem ?_
    intro a b ha hb hle
    simpa only [State.wakeAt, same a ha, same b hb] using hle
  · rw [queue]
    exact h.count
  · rw [queue]
    exact h.tail

theorem Holds.count_toNat {s : State} {blocks : List (BitVec 64)} (h : Holds s blocks) :
    s.queue.count.toNat = blocks.length := by
  rw [h.count, BitVec.toNat_ofNat]
  exact Nat.mod_eq_of_lt (length_lt_of_nodup (chain_nodup h.chain) h.nonnull)

/-- The node a walk from `current` over the blocks has arrived at. -/
def lastNode (current : Node) : List (BitVec 64) → Node
  | [] => current
  | block :: blocks => lastNode (.sleeper block) blocks

theorem lastNode_append (current : Node) (blocks : List (BitVec 64)) (block : BitVec 64) :
    lastNode current (blocks ++ [block]) = .sleeper block := by
  induction blocks generalizing current with
  | nil => rfl
  | cons b blocks ih => exact ih (.sleeper b)

section Place

variable {s : State} {current place : Node} {blocks : List (BitVec 64)} {wakeAt : BitVec 64}
  {fuel : Nat}

/-- The search stops behind the last sleeper that wakes before. -/
theorem findPlace_spec (chain : Chain s.next (s.nextOf current) blocks)
    (h : findPlace s wakeAt fuel current = some place) :
    ∃ before after, blocks = before ++ after ∧ place = lastNode current before ∧
      (∀ b ∈ before, s.wakeAt b < wakeAt) ∧ ∀ a, after.head? = some a → wakeAt ≤ s.wakeAt a := by
  induction fuel generalizing current blocks with
  | zero => exact absurd h (by simp [findPlace])
  | succ fuel ih =>
    rw [findPlace] at h
    cases blocks with
    | nil =>
      have hend : s.nextOf current = none := chain
      rw [hend] at h
      obtain rfl := Option.some.inj h
      exact ⟨[], [], rfl, rfl, by simp, by simp⟩
    | cons block rest =>
      obtain ⟨hfirst, hrest⟩ := chain
      rw [hfirst] at h
      by_cases hlater : wakeAt > s.wakeAt block
      · simp only [if_pos hlater] at h
        have hbehind : Chain s.next (s.nextOf (.sleeper block)) rest := hrest
        obtain ⟨before, after, rfl, hplace, hbefore, hafter⟩ := ih hbehind h
        refine ⟨block :: before, after, rfl, hplace, ?_, hafter⟩
        intro b hb
        rcases List.mem_cons.mp hb with rfl | hb
        · exact hlater
        · exact hbefore b hb
      · simp only [if_neg hlater] at h
        obtain rfl := Option.some.inj h
        refine ⟨[], block :: rest, rfl, rfl, by simp, ?_⟩
        intro a ha
        obtain rfl := Option.some.inj ha
        exact BitVec.not_lt.mp hlater

end Place

/-- What `sleep_queue_enqueue` writes beside the queue: the new sleeper and one link. -/
structure Inserted (s : State) (sleeper task deadline : BitVec 64) (blocks : List (BitVec 64))
    (s' : State) : Prop where
  wakeAt : s'.wakeAt = Function.update s.wakeAt sleeper deadline
  task : s'.task = Function.update s.task sleeper task
  taskNext : s'.taskNext = s.taskNext
  others : ∀ b ∉ sleeper :: blocks, s'.sleeper b = s.sleeper b

section Insert

variable {s s' : State} {before after blocks : List (BitVec 64)}
  {sleeper task deadline : BitVec 64}

theorem insertBehind_chain (chain : Chain s.next s.queue.head (before ++ after))
    (off : sleeper ∉ before ++ after) :
    Chain (insertBehind s sleeper (lastNode .queue before)).next
      (insertBehind s sleeper (lastNode .queue before)).queue.head
      (before ++ sleeper :: after) := by
  rcases List.eq_nil_or_concat' before with rfl | ⟨front, last, rfl⟩
  · have hnext : (insertBehind s sleeper (lastNode .queue [])).next =
        Function.update s.next sleeper s.queue.head := by
      funext b
      by_cases hb : b = sleeper
      · simp [insertBehind, lastNode, State.next, State.setNextOf, State.nextOf, hb]
      · simp [insertBehind, lastNode, State.next, State.setNextOf, State.nextOf, hb]
    rw [hnext]
    exact Chain.push chain off
  · rw [lastNode_append]
    have hne : last ≠ sleeper := fun hsame => off (by simp [hsame])
    have hnext : (insertBehind s sleeper (.sleeper last)).next =
        Function.update (Function.update s.next sleeper (s.next last)) last (some sleeper) := by
      funext b
      by_cases hlast : b = last
      · simp [insertBehind, State.next, State.setNextOf, State.nextOf, hlast]
      · by_cases hb : b = sleeper
        · simp [insertBehind, State.next, State.setNextOf, State.nextOf, hb, hne.symm]
        · simp [insertBehind, State.next, State.setNextOf, State.nextOf, hlast, hb]
    have hhead : (insertBehind s sleeper (.sleeper last)).queue.head = s.queue.head := rfl
    rw [hnext, hhead, List.append_assoc, List.singleton_append]
    rw [List.append_assoc, List.singleton_append] at chain off
    exact chain.insertAfter off

/-- Nothing but links is written to the sleepers. -/
theorem insertBehind_fields (s : State) (sleeper : BitVec 64) (place : Node) (b : BitVec 64) :
    (insertBehind s sleeper place).wakeAt b = s.wakeAt b ∧
      (insertBehind s sleeper place).task b = s.task b := by
  have hlink : ∀ (s : State) (next : Option (BitVec 64)) (node : Node),
      (s.setNextOf next node).wakeAt b = s.wakeAt b ∧
        (s.setNextOf next node).task b = s.task b := by
    intro s next node
    cases node with
    | queue => exact ⟨rfl, rfl⟩
    | sleeper addr =>
      by_cases hb : b = addr
      · simp [State.setNextOf, State.wakeAt, State.task, hb]
      · simp [State.setNextOf, State.wakeAt, State.task, hb]
  have hfirst := hlink s (s.nextOf place) (.sleeper sleeper)
  have hsecond := hlink (s.setNextOf (s.nextOf place) (.sleeper sleeper)) (some sleeper) place
  exact ⟨hsecond.1.trans hfirst.1, hsecond.2.trans hfirst.2⟩

theorem insertBehind_others {place : Node} {b : BitVec 64} (hb : b ≠ sleeper)
    (hplace : place ≠ .sleeper b) : (insertBehind s sleeper place).sleeper b = s.sleeper b := by
  cases place with
  | queue => simp [insertBehind, State.setNextOf, hb]
  | sleeper addr =>
    have hne : b ≠ addr := fun hsame => hplace (hsame ▸ rfl)
    simp [insertBehind, State.setNextOf, hb, hne]

theorem insertBehind_taskNext (s : State) (sleeper : BitVec 64) (place : Node) :
    (insertBehind s sleeper place).taskNext = s.taskNext := by
  cases place <;> rfl

theorem insertBehind_count (s : State) (sleeper : BitVec 64) (place : Node) :
    (insertBehind s sleeper place).queue.count = s.queue.count + 1 := by
  cases place <;> rfl

theorem insertBehind_tail (s : State) (sleeper : BitVec 64) (place : Node) :
    (insertBehind s sleeper place).queue.tail =
      if s.nextOf place = none then some sleeper else s.queue.tail := by
  cases place <;> rfl

theorem mem_of_lastNode {b : BitVec 64} (h : lastNode .queue before = .sleeper b) :
    b ∈ before := by
  rcases List.eq_nil_or_concat' before with rfl | ⟨front, last, rfl⟩
  · exact absurd h (by simp [lastNode])
  · rw [lastNode_append] at h
    obtain rfl := Node.sleeper.inj h
    simp

theorem nextOf_lastNode {current : Node}
    (chain : Chain s.next (s.nextOf current) (before ++ after)) :
    s.nextOf (lastNode current before) = after.head? := by
  induction before generalizing current with
  | nil =>
    cases after with
    | nil => exact chain
    | cons a rest => exact chain.1
  | cons b before ih =>
    have hbehind : Chain s.next (s.nextOf (.sleeper b)) (before ++ after) := chain.2
    exact ih hbehind

theorem sorted_insert (sorted : (before ++ after).Pairwise fun a b => s.wakeAt a ≤ s.wakeAt b)
    (hbefore : ∀ b ∈ before, s.wakeAt b < deadline)
    (hafter : ∀ a, after.head? = some a → deadline ≤ s.wakeAt a)
    (hsleeper : s.wakeAt sleeper = deadline) :
    (before ++ sleeper :: after).Pairwise fun a b => s.wakeAt a ≤ s.wakeAt b := by
  obtain ⟨hfront, hback, hcross⟩ := List.pairwise_append.mp sorted
  have hlater : ∀ a ∈ after, deadline ≤ s.wakeAt a := by
    cases after with
    | nil => simp
    | cons first rest =>
      have hfirst := hafter first rfl
      intro a ha
      rcases List.mem_cons.mp ha with rfl | ha
      · exact hfirst
      · exact BitVec.le_trans hfirst ((List.pairwise_cons.mp hback).1 a ha)
  refine List.pairwise_append.mpr ⟨hfront, List.pairwise_cons.mpr ⟨?_, hback⟩, ?_⟩
  · rw [hsleeper]
    exact hlater
  · intro b hb a ha
    rcases List.mem_cons.mp ha with rfl | ha
    · rw [hsleeper]
      exact BitVec.le_of_lt (hbefore b hb)
    · exact hcross b hb a ha

end Insert

section Enqueue

variable {s s' : State} {blocks : List (BitVec 64)} {sleeper task deadline : BitVec 64}
  {fuel : Nat} {ok : Bool}

/-- Writing a block off the queue. -/
theorem Holds.write (h : Holds s blocks) (off : sleeper ∉ blocks) (new : Sleeper) :
    Holds { s with sleeper := Function.update s.sleeper sleeper new } blocks :=
  h.congr rfl fun _ hb => Function.update_of_ne (ne_of_mem_of_not_mem hb off) _ _

/-- Every sleeper is enqueued behind those that wake before it. -/
theorem sleepQueueEnqueue_spec (h : Holds s blocks) (off : sleeper ∉ blocks)
    (nonnull : sleeper ≠ 0)
    (run : sleepQueueEnqueue fuel s (some task) deadline (some sleeper) = some (ok, s')) :
    ok = true ∧ Inserted s sleeper task deadline blocks s' ∧
      ∃ before after, blocks = before ++ after ∧ Holds s' (before ++ sleeper :: after) := by
  obtain ⟨place, hplace, hrun⟩ := Option.map_eq_some_iff.mp run
  have hheld := h.write off ⟨none, deadline, task⟩
  have hwake : (State.wakeAt { s with
      sleeper := Function.update s.sleeper sleeper ⟨none, deadline, task⟩ }) =
      Function.update s.wakeAt sleeper deadline := by
    funext b
    by_cases hb : b = sleeper <;> simp [State.wakeAt, hb]
  have htask : (State.task { s with
      sleeper := Function.update s.sleeper sleeper ⟨none, deadline, task⟩ }) =
      Function.update s.task sleeper task := by
    funext b
    by_cases hb : b = sleeper <;> simp [State.task, hb]
  have hothers : ∀ b ≠ sleeper, (State.sleeper { s with
      sleeper := Function.update s.sleeper sleeper ⟨none, deadline, task⟩ }) b = s.sleeper b :=
    fun b hb => Function.update_of_ne hb _ _
  have hlinks : (State.taskNext { s with
      sleeper := Function.update s.sleeper sleeper ⟨none, deadline, task⟩ }) = s.taskNext := rfl
  generalize { s with sleeper := Function.update s.sleeper sleeper ⟨none, deadline, task⟩ } = s1
    at *
  obtain ⟨before, after, rfl, rfl, hbefore, hafter⟩ := findPlace_spec hheld.chain hplace
  obtain ⟨rfl, rfl⟩ := Prod.ext_iff.mp hrun
  have hfields := insertBehind_fields s1 sleeper (lastNode .queue before)
  have hwake' : (insertBehind s1 sleeper (lastNode .queue before)).wakeAt = s1.wakeAt :=
    funext fun b => (hfields b).1
  have hdeadline : s1.wakeAt sleeper = deadline := by
    rw [hwake, Function.update_self]
  refine ⟨rfl, ⟨hwake'.trans hwake, (funext fun b => (hfields b).2).trans htask, ?_, ?_⟩,
    before, after, rfl, ?_, ?_, ?_, ?_, ?_⟩
  · rw [insertBehind_taskNext, hlinks]
  · intro b hb
    have hne : b ≠ sleeper := fun hsame => hb (hsame ▸ List.mem_cons_self)
    have hplace' : lastNode .queue before ≠ .sleeper b := fun hlast =>
      hb (List.mem_cons_of_mem _ (List.mem_append_left _ (mem_of_lastNode hlast)))
    rw [insertBehind_others hne hplace', hothers b hne]
  · exact insertBehind_chain hheld.chain off
  · intro hzero
    rcases List.mem_append.mp hzero with hzero | hzero
    · exact h.nonnull (List.mem_append_left _ hzero)
    · rcases List.mem_cons.mp hzero with hzero | hzero
      · exact nonnull hzero.symm
      · exact h.nonnull (List.mem_append_right _ hzero)
  · simp only [hwake']
    exact sorted_insert hheld.sorted hbefore hafter hdeadline
  · have hlength : (before ++ sleeper :: after).length = (before ++ after).length + 1 := by
      simp only [List.length_append, List.length_cons]
      omega
    rw [insertBehind_count, hheld.count, hlength, BitVec.ofNat_add]
    rfl
  · have hchain : Chain s1.next (s1.nextOf .queue) (before ++ after) := hheld.chain
    rw [insertBehind_tail, nextOf_lastNode hchain, hheld.tail]
    cases after with
    | nil => simp
    | cons a rest => simp [List.getLast?_append, List.getLast?_cons_cons]

end Enqueue

/-! ## Dequeueing -/

/-- The sleepers that wake by then. -/
def State.due (s : State) (deadline : BitVec 64) (blocks : List (BitVec 64)) :
    List (BitVec 64) :=
  blocks.filter fun b => s.wakeAt b ≤ deadline

def State.later (s : State) (deadline : BitVec 64) (blocks : List (BitVec 64)) :
    List (BitVec 64) :=
  blocks.filter fun b => deadline < s.wakeAt b

section Due

variable {s : State} {blocks : List (BitVec 64)} {deadline : BitVec 64}

/-- On a sorted queue those are its first sleepers. -/
theorem due_append_later (sorted : blocks.Pairwise fun a b => s.wakeAt a ≤ s.wakeAt b) :
    s.due deadline blocks ++ s.later deadline blocks = blocks := by
  induction blocks with
  | nil => rfl
  | cons b rest ih =>
    obtain ⟨hfirst, hrest⟩ := List.pairwise_cons.mp sorted
    by_cases hb : s.wakeAt b ≤ deadline
    · have hnot : ¬ deadline < s.wakeAt b := BitVec.not_lt.mpr hb
      simp only [State.due, State.later, List.filter_cons, hb, hnot, decide_true, decide_false,
        if_true, List.cons_append] at ih ⊢
      exact congrArg (b :: ·) (ih hrest)
    · have hlt : deadline < s.wakeAt b := BitVec.not_le.mp hb
      have hdue : s.due deadline rest = [] := by
        apply List.filter_eq_nil_iff.mpr
        intro a ha
        have hle := hfirst a ha
        simp only [decide_eq_true_eq]
        bv_omega
      have hlater : s.later deadline rest = rest := by
        have hsplit := ih hrest
        rwa [hdue, List.nil_append] at hsplit
      simp only [State.due, State.later] at hdue hlater
      simp [State.due, State.later, hb, hlt, hdue, hlater]

theorem wakeAt_due {b : BitVec 64} (hb : b ∈ s.due deadline blocks) : s.wakeAt b ≤ deadline :=
  of_decide_eq_true (List.mem_filter.mp hb).2

theorem wakeAt_later {b : BitVec 64} (hb : b ∈ s.later deadline blocks) : deadline < s.wakeAt b :=
  of_decide_eq_true (List.mem_filter.mp hb).2

end Due

/-- The tasks linked so far; the link of the last one is still to be written. -/
structure Building (s : State) (tasks : TaskList) (done : List (BitVec 64)) : Prop where
  first : tasks.first = done.head?
  last : tasks.last = done.getLast?
  chain : done.Nodup → ∀ last, tasks.last = some last →
    Chain (Function.update s.taskNext last none) tasks.first done

section Take

variable {s s' : State} {tasks tasks' : TaskList} {done taken kept : List (BitVec 64)}
  {curr newHead : Option (BitVec 64)} {task deadline : BitVec 64} {fuel : Nat}

theorem linkTask_building (h : Building s tasks done) :
    Building (linkTask s tasks task).1 (linkTask s tasks task).2 (done ++ [task]) := by
  obtain ⟨hfirst, hlast, hchain⟩ := h
  obtain ⟨first, last⟩ := tasks
  rcases List.eq_nil_or_concat' done with rfl | ⟨front, l, rfl⟩
  · obtain rfl : first = none := hfirst
    constructor
    · rfl
    · rfl
    · intro _ last' hlast'
      obtain rfl : task = last' := Option.some.inj hlast'
      exact ⟨rfl, Function.update_self _ _ _⟩
  · obtain rfl : last = some l := by simpa using hlast
    obtain ⟨f, hf⟩ : ∃ f, (front ++ [l]).head? = some f := by
      cases front <;> exact ⟨_, rfl⟩
    obtain rfl : first = some f := hfirst.trans hf
    constructor
    · simp [linkTask, ← hf]
    · simp [linkTask]
    · intro hnodup last' hlast'
      obtain rfl : task = last' := Option.some.inj hlast'
      have hparts := List.nodup_append.mp hnodup
      have hoff : task ∉ front ++ [l] := fun hmem => hparts.2.2 task hmem task (by simp) rfl
      have hnew := (hchain hparts.1 l rfl).extend hoff
      rwa [List.append_assoc]

/-- Only the link of the last task is written. -/
theorem linkTask_others (h : Building s tasks done) :
    ∀ t ∉ done, (linkTask s tasks task).1.taskNext t = s.taskNext t := by
  intro t ht
  obtain ⟨first, last⟩ := tasks
  cases first with
  | none => rfl
  | some first =>
    cases last with
    | none => rfl
    | some last =>
      have hmem : last ∈ done := List.mem_of_getLast? h.last.symm
      exact Function.update_of_ne (ne_of_mem_of_not_mem hmem ht).symm _ _

/-- Counting one sleeper less. -/
def State.uncount (s : State) : State :=
  { s with queue := { s.queue with count := s.queue.count - 1 } }

theorem linkTask_uncount (s : State) (tasks : TaskList) (task : BitVec 64) :
    (linkTask s tasks task).1.uncount.sleeper = s.sleeper ∧
      (linkTask s tasks task).1.uncount.queue =
        { s.queue with count := s.queue.count - 1 } := by
  obtain ⟨first, last⟩ := tasks
  cases first with
  | none => exact ⟨rfl, rfl⟩
  | some first => cases last <;> exact ⟨rfl, rfl⟩

theorem findKept_spec (chain : Chain s.next curr (taken ++ kept))
    (early : ∀ b ∈ taken, s.wakeAt b ≤ deadline)
    (late : ∀ b, kept.head? = some b → deadline < s.wakeAt b)
    (h : findKept s deadline fuel curr = some newHead) : newHead = kept.head? := by
  induction taken generalizing fuel curr with
  | nil =>
    cases fuel with
    | zero => exact absurd h (by simp [findKept])
    | succ fuel =>
      cases kept with
      | nil =>
        obtain rfl : curr = none := chain
        exact (Option.some.inj h).symm
      | cons b rest =>
        obtain ⟨rfl, -⟩ := chain
        have hlate := BitVec.not_le.mpr (late b rfl)
        rw [findKept, if_neg hlate] at h
        exact (Option.some.inj h).symm
  | cons b taken ih =>
    obtain ⟨rfl, hrest⟩ := chain
    cases fuel with
    | zero => exact absurd h (by simp [findKept])
    | succ fuel =>
      rw [findKept, if_pos (early b List.mem_cons_self)] at h
      exact ih hrest (fun b hb => early b (List.mem_cons_of_mem _ hb)) h

theorem findKept_isSome (chain : Chain s.next curr taken) (enough : taken.length < fuel) :
    (findKept s deadline fuel curr).isSome := by
  induction taken generalizing fuel curr with
  | nil =>
    obtain rfl : curr = none := chain
    obtain ⟨fuel, rfl⟩ := Nat.exists_eq_add_one.mpr enough
    rfl
  | cons b taken ih =>
    obtain ⟨rfl, hrest⟩ := chain
    obtain ⟨fuel, rfl⟩ := Nat.exists_eq_add_one.mpr (Nat.zero_lt_of_lt enough)
    rw [findKept]
    split_ifs
    · exact ih hrest (Nat.lt_of_succ_lt_succ enough)
    · rfl

/-- What the loop over the sleepers that wake leaves. -/
structure Took (s : State) (done taken : List (BitVec 64)) (tasks' : TaskList) (s' : State) :
    Prop where
  building : Building s' tasks' (done ++ taken.map s.task)
  sleeper : s'.sleeper = s.sleeper
  queue : s'.queue = { s.queue with count := s.queue.count - BitVec.ofNat 64 taken.length }
  others : ∀ t ∉ done ++ taken.map s.task, s'.taskNext t = s.taskNext t

theorem takeLoop_stop : takeLoop curr (fuel + 1) curr tasks s = some (tasks, s) := by
  cases curr <;> simp [takeLoop]

theorem takeLoop_next {b : BitVec 64} (h : some b ≠ newHead) :
    takeLoop newHead (fuel + 1) (some b) tasks s =
      takeLoop newHead fuel (s.next b) (linkTask s tasks (s.task b)).2
        (linkTask s tasks (s.task b)).1.uncount := by
  have hnext : (linkTask s tasks (s.task b)).1.next b = s.next b := by
    obtain ⟨first, last⟩ := tasks
    cases first with
    | none => rfl
    | some first => cases last <;> rfl
  rw [takeLoop, if_neg h, ← hnext]
  rfl

theorem takeLoop_spec (chain : Chain s.next curr (taken ++ kept)) (stop : newHead = kept.head?)
    (building : Building s tasks done)
    (h : takeLoop newHead fuel curr tasks s = some (tasks', s')) :
    Took s done taken tasks' s' := by
  induction taken generalizing fuel curr tasks done s with
  | nil =>
    have hcurr : curr = newHead := chain.start_eq.trans stop.symm
    cases fuel with
    | zero => exact absurd h (by simp [takeLoop])
    | succ fuel =>
      rw [hcurr, takeLoop_stop] at h
      obtain ⟨rfl, rfl⟩ := Prod.ext_iff.mp (Option.some.inj h)
      exact ⟨by simpa using building, rfl, by simp, fun _ _ => rfl⟩
  | cons b rest ih =>
    have hgoes : some b ≠ newHead := stop ▸ chain.start_ne
    obtain ⟨rfl, hrest⟩ := chain
    cases fuel with
    | zero => exact absurd h (by simp [takeLoop])
    | succ fuel =>
      rw [takeLoop_next hgoes] at h
      have hbuilt := @linkTask_building s tasks done (s.task b) building
      have hothers := @linkTask_others s tasks done (s.task b) building
      obtain ⟨hsleeper, hqueue⟩ := linkTask_uncount s tasks (s.task b)
      generalize (linkTask s tasks (s.task b)).1 = s1 at *
      have hchain : Chain s1.uncount.next (s.next b) (rest ++ kept) := by
        have hnext : s1.uncount.next = s.next :=
          funext fun a => congrArg Sleeper.next (congrFun hsleeper a)
        rw [hnext]
        exact hrest
      have htask : s1.uncount.task = s.task :=
        funext fun a => congrArg Sleeper.task (congrFun hsleeper a)
      have hall : done ++ [s.task b] ++ rest.map s.task = done ++ (b :: rest).map s.task := by
        simp
      obtain ⟨htook, hsleeper', hqueue', hothers'⟩ := ih hchain
        ⟨hbuilt.first, hbuilt.last, hbuilt.chain⟩ h
      rw [htask, hall] at htook hothers'
      refine ⟨htook, hsleeper'.trans hsleeper, ?_, fun t ht => ?_⟩
      · have hcount : s.queue.count - 1 - BitVec.ofNat 64 rest.length =
            s.queue.count - BitVec.ofNat 64 (rest.length + 1) := by
          rw [BitVec.ofNat_add, sub_sub, add_comm]
          rfl
        rw [hqueue', hqueue, List.length_cons, ← hcount]
      · have hdone : t ∉ done := fun hmem => ht (List.mem_append_left _ hmem)
        exact (hothers' t ht).trans (hothers t hdone)

theorem takeLoop_isSome (chain : Chain s.next curr (taken ++ kept)) (stop : newHead = kept.head?)
    (enough : taken.length < fuel) : (takeLoop newHead fuel curr tasks s).isSome := by
  induction taken generalizing fuel curr tasks s with
  | nil =>
    have hcurr : curr = newHead := chain.start_eq.trans stop.symm
    obtain ⟨fuel, rfl⟩ := Nat.exists_eq_add_one.mpr enough
    rw [hcurr, takeLoop_stop]
    rfl
  | cons b rest ih =>
    have hgoes : some b ≠ newHead := stop ▸ chain.start_ne
    obtain ⟨rfl, hrest⟩ := chain
    obtain ⟨fuel, rfl⟩ := Nat.exists_eq_add_one.mpr (Nat.zero_lt_of_lt enough)
    rw [takeLoop_next hgoes]
    apply ih _ (Nat.lt_of_succ_lt_succ enough)
    have hnext : (linkTask s tasks (s.task b)).1.uncount.next = s.next :=
      funext fun a => congrArg Sleeper.next
        (congrFun (linkTask_uncount s tasks (s.task b)).1 a)
    rw [hnext]
    exact hrest

end Take

theorem Building.finish (h : Building s tasks done) (newHead : Option (BitVec 64))
    (nodup : done.Nodup) : Chain (finishDequeue newHead tasks s).taskNext tasks.first done := by
  cases hlast : tasks.last with
  | none =>
    obtain rfl : done = [] := List.getLast?_eq_none_iff.mp (h.last.symm.trans hlast)
    exact h.first
  | some last =>
    simp only [finishDequeue, hlast]
    exact h.chain nodup last hlast

theorem Building.finish_others (h : Building s tasks done) (newHead : Option (BitVec 64)) :
    ∀ t ∉ done, (finishDequeue newHead tasks s).taskNext t = s.taskNext t := by
  intro t ht
  cases hlast : tasks.last with
  | none => simp only [finishDequeue, hlast]
  | some last =>
    have hmem : last ∈ done := List.mem_of_getLast? (h.last.symm.trans hlast)
    simp only [finishDequeue, hlast]
    exact Function.update_of_ne (ne_of_mem_of_not_mem hmem ht).symm _ _

/-- What `sleep_queue_dequeue` takes out, keeps and answers. -/
structure Dequeued (s : State) (deadline : BitVec 64) (blocks : List (BitVec 64))
    (first : Option (BitVec 64)) (s' : State) : Prop where
  holds : Holds s' (s.later deadline blocks)
  sleeper : s'.sleeper = s.sleeper
  tasks : ((s.due deadline blocks).map s.task).Nodup →
    Chain s'.taskNext first ((s.due deadline blocks).map s.task)
  others : ∀ t ∉ (s.due deadline blocks).map s.task, s'.taskNext t = s.taskNext t

section Dequeue

variable {s s' : State} {blocks : List (BitVec 64)} {deadline : BitVec 64} {fuel : Nat}
  {first newHead : Option (BitVec 64)}

/-- Nothing to take out. -/
theorem Holds.dequeued_none (h : Holds s blocks) (none_due : s.due deadline blocks = []) :
    Dequeued s deadline blocks none s := by
  have hlater : s.later deadline blocks = blocks := by
    have hsplit := @due_append_later s blocks deadline h.sorted
    rwa [none_due, List.nil_append] at hsplit
  constructor
  · rw [hlater]
    exact h
  · rfl
  · rw [none_due]
    exact fun _ => rfl
  · exact fun _ _ => rfl

/-- The rest of the queue behind its first sleepers. -/
theorem Holds.rest {taken kept : List (BitVec 64)} (h : Holds s (taken ++ kept))
    (hsleeper : s'.sleeper = s.sleeper) (hqueue : s'.queue = {
      head := kept.head?
      tail := if kept.head? = none then none else s.queue.tail
      count := s.queue.count - BitVec.ofNat 64 taken.length }) : Holds s' kept := by
  have hnext : s'.next = s.next := funext fun a => congrArg Sleeper.next (congrFun hsleeper a)
  have hwake : s'.wakeAt = s.wakeAt :=
    funext fun a => congrArg Sleeper.wakeAt (congrFun hsleeper a)
  obtain ⟨m, -, hkept⟩ := seg_append.mp h.chain
  have hstart : m = kept.head? := Chain.start_eq hkept
  constructor
  · rw [hnext, hqueue]
    exact hstart ▸ hkept
  · exact fun hzero => h.nonnull (List.mem_append_right _ hzero)
  · rw [hwake]
    exact (List.pairwise_append.mp h.sorted).2.1
  · have hcount : BitVec.ofNat 64 (taken ++ kept).length - BitVec.ofNat 64 taken.length =
        BitVec.ofNat 64 kept.length := by
      rw [List.length_append, BitVec.ofNat_add, add_sub_cancel_left]
    rw [hqueue]
    exact h.count ▸ hcount
  · rw [hqueue]
    have htail := h.tail
    cases kept with
    | nil => rfl
    | cons b rest =>
      rw [List.getLast?_append_cons] at htail
      exact htail

/-- `sleep_queue_dequeue` answers the tasks that are due, in the order of the queue, and keeps
the other sleepers. -/
theorem sleepQueueDequeue_spec (h : Holds s blocks)
    (run : sleepQueueDequeue fuel s deadline = some (first, s')) :
    Dequeued s deadline blocks first s' := by
  have hsplit := @due_append_later s blocks deadline h.sorted
  have hchain : Chain s.next s.queue.head (s.due deadline blocks ++ s.later deadline blocks) := by
    rw [hsplit]
    exact h.chain
  rw [sleepQueueDequeue] at run
  by_cases hempty : s.queue.head = none
  · rw [if_pos hempty] at run
    obtain ⟨rfl, rfl⟩ := Prod.ext_iff.mp (Option.some.inj run)
    rw [hempty] at hchain
    exact h.dequeued_none (List.append_eq_nil_iff.mp (Chain.eq_nil hchain)).1
  · rw [if_neg hempty] at run
    cases hkept : findKept s deadline fuel s.queue.head with
    | none => simp [hkept] at run
    | some newHead =>
      have hnew : newHead = (s.later deadline blocks).head? :=
        findKept_spec hchain (fun b hb => wakeAt_due hb)
          (fun b hb => wakeAt_later (List.mem_of_mem_head? hb)) hkept
      simp only [hkept] at run
      by_cases hsame : newHead = s.queue.head
      · rw [if_pos hsame] at run
        obtain ⟨rfl, rfl⟩ := Prod.ext_iff.mp (Option.some.inj run)
        apply h.dequeued_none
        cases hdue : s.due deadline blocks with
        | nil => rfl
        | cons b rest =>
          rw [hdue] at hchain
          have hne := hchain.start_ne
          rw [← hnew, hsame, hchain.1] at hne
          exact absurd rfl hne
      · rw [if_neg hsame] at run
        obtain ⟨⟨tasks, s1⟩, htake, hrun⟩ := Option.map_eq_some_iff.mp run
        have hstart : Building s ⟨none, none⟩ [] :=
          ⟨rfl, rfl, fun _ _ hlast => absurd hlast (by simp)⟩
        have htook := takeLoop_spec hchain hnew hstart htake
        obtain ⟨rfl, rfl⟩ := Prod.ext_iff.mp hrun
        have hbuilt := htook.building
        rw [List.nil_append] at hbuilt
        rw [← hsplit] at h
        have hsleeper : (finishDequeue newHead tasks s1).sleeper = s.sleeper := htook.sleeper
        have hheld : Holds (finishDequeue newHead tasks s1) (s.later deadline blocks) := by
          apply h.rest hsleeper
          rw [finishDequeue, htook.queue, hnew]
        constructor
        · exact hheld
        · exact htook.sleeper
        · exact hbuilt.finish newHead
        · intro t ht
          rw [hbuilt.finish_others newHead t ht]
          exact htook.others t (by simpa using ht)

/-- With as many turns as there are sleepers the call returns. -/
theorem sleepQueueDequeue_isSome (h : Holds s blocks) (enough : blocks.length < fuel) :
    (sleepQueueDequeue fuel s deadline).isSome := by
  have hsplit := @due_append_later s blocks deadline h.sorted
  have hchain : Chain s.next s.queue.head (s.due deadline blocks ++ s.later deadline blocks) := by
    rw [hsplit]
    exact h.chain
  rw [sleepQueueDequeue]
  split_ifs
  · rfl
  · obtain ⟨newHead, hkept⟩ := Option.isSome_iff_exists.mp
      (@findKept_isSome s blocks s.queue.head deadline fuel h.chain enough)
    have hnew : newHead = (s.later deadline blocks).head? :=
      findKept_spec hchain (fun b hb => wakeAt_due hb)
        (fun b hb => wakeAt_later (List.mem_of_mem_head? hb)) hkept
    simp only [hkept]
    split_ifs
    · rfl
    · rw [Option.isSome_map]
      apply takeLoop_isSome hchain hnew
      have hlength := congrArg List.length hsplit
      rw [List.length_append] at hlength
      omega

end Dequeue

/-! ## Runs -/

/-- The calls on a queue; between them the scheduler may link tasks elsewhere. -/
inductive Call where
  | enqueue (task : Option (BitVec 64)) (deadline : BitVec 64) (slab : Option (BitVec 64))
  | dequeue (deadline : BitVec 64)
  | relink (taskNext : BitVec 64 → Option (BitVec 64))

/-- A walk along the queue arrives at the block. -/
def OnQueue (s : State) (block : BitVec 64) : Prop :=
  ∃ walked, Seg s.next s.queue.head walked (some block)

/-- The slab allocator never answers a block that is in use. -/
def Valid (s : State) : Call → Prop
  | .enqueue _ _ slab => ∀ block, slab = some block → block ≠ 0 ∧ ¬ OnQueue s block
  | _ => True

/-- The searches may not end, so the result is the one some fuel gives. -/
def Result (s : State) (s' : State) : Call → Prop
  | .enqueue task deadline slab =>
    ∃ fuel ok, sleepQueueEnqueue fuel s task deadline slab = some (ok, s')
  | .dequeue deadline => ∃ fuel first, sleepQueueDequeue fuel s deadline = some (first, s')
  | .relink taskNext => s' = { s with taskNext := taskNext }

/-- The header lies in memory that was cleared, and is initialised. -/
def sleepQueue : System State Call where
  init := fun s => ∃ cleared : State, cleared.queue = ⟨none, none, 0⟩ ∧ s = sleepQueueInit cleared
  step := fun s call s' => Valid s call ∧ Result s s' call

theorem onQueue_iff {s : State} {blocks : List (BitVec 64)} {b : BitVec 64}
    (chain : Chain s.next s.queue.head blocks) : OnQueue s b ↔ b ∈ blocks :=
  chain.mem_iff.symm

theorem Holds.step {s s' : State} {blocks : List (BitVec 64)} {call : Call} (h : Holds s blocks)
    (valid : Valid s call) (result : Result s s' call) : ∃ blocks', Holds s' blocks' := by
  cases call with
  | enqueue task deadline slab =>
    obtain ⟨fuel, ok, hrun⟩ := result
    cases task with
    | none =>
      obtain ⟨-, rfl⟩ := Prod.ext_iff.mp (Option.some.inj hrun)
      exact ⟨blocks, h⟩
    | some task =>
      cases slab with
      | none =>
        obtain ⟨-, rfl⟩ := Prod.ext_iff.mp (Option.some.inj hrun)
        exact ⟨blocks, h⟩
      | some sleeper =>
        obtain ⟨hnonnull, hoff⟩ := valid sleeper rfl
        have hnot : sleeper ∉ blocks := fun hb => hoff ((onQueue_iff h.chain).mpr hb)
        obtain ⟨-, -, before, after, -, hholds⟩ := sleepQueueEnqueue_spec h hnot hnonnull hrun
        exact ⟨_, hholds⟩
  | dequeue deadline =>
    obtain ⟨fuel, first, hrun⟩ := result
    exact ⟨_, (sleepQueueDequeue_spec h hrun).holds⟩
  | relink taskNext =>
    obtain rfl : s' = { s with taskNext := taskNext } := result
    exact ⟨blocks, h.congr rfl fun _ _ => rfl⟩

theorem reachable_holds {s : State} (h : Reachable sleepQueue s) : ∃ blocks, Holds s blocks := by
  refine h.invariant (fun s => ∃ blocks, Holds s blocks) ?_ ?_
  · rintro s ⟨cleared, hqueue, rfl⟩
    refine ⟨[], rfl, by simp, List.Pairwise.nil, ?_, rfl⟩
    exact congrArg SleepQueue.count hqueue
  · rintro s call s' ⟨blocks, hholds⟩ ⟨hvalid, hresult⟩
    exact hholds.step hvalid hresult

/-- The queue is sorted, its count and its tail are right, and dequeueing takes out the sleepers
that are due; their tasks are answered as a list in that order, if no task is among them twice. -/
theorem sleep_queue_is_ordered {s : State} (h : Reachable sleepQueue s) :
    ∃ blocks, Chain s.next s.queue.head blocks ∧
      blocks.Pairwise (fun a b => s.wakeAt a ≤ s.wakeAt b) ∧
      s.queue.count.toNat = blocks.length ∧ s.queue.tail = blocks.getLast? ∧
      ∀ deadline fuel, blocks.length < fuel →
        ∃ first s', sleepQueueDequeue fuel s deadline = some (first, s') ∧
          s'.sleeper = s.sleeper ∧ Chain s'.next s'.queue.head (s.later deadline blocks) ∧
          (((s.due deadline blocks).map s.task).Nodup →
            Chain s'.taskNext first ((s.due deadline blocks).map s.task)) := by
  obtain ⟨blocks, hholds⟩ := reachable_holds h
  refine ⟨blocks, hholds.chain, hholds.sorted, hholds.count_toNat, hholds.tail, ?_⟩
  intro deadline fuel henough
  obtain ⟨⟨first, s'⟩, hrun⟩ := Option.isSome_iff_exists.mp
    (@sleepQueueDequeue_isSome s blocks deadline fuel hholds henough)
  have hdequeued := sleepQueueDequeue_spec hholds hrun
  exact ⟨first, s', hrun, hdequeued.sleeper, hdequeued.holds.chain, hdequeued.tasks⟩

/-! ### Runs from an empty queue -/

def emptyQueue : State :=
  sleepQueueInit ⟨⟨none, none, 0⟩, fun _ => ⟨none, 0, 0⟩, fun _ => none⟩

def enqueued (s : State) (task deadline sleeper : BitVec 64) : State :=
  ((sleepQueueEnqueue 8 s (some task) deadline (some sleeper)).map (·.2)).getD s

theorem reachable_empty : Reachable sleepQueue emptyQueue := Reachable.start ⟨_, rfl, rfl⟩

theorem reachable_enqueued {s : State} (h : Reachable sleepQueue s)
    {task deadline sleeper : BitVec 64}
    (blocks : List (BitVec 64)) (chain : Chain s.next s.queue.head blocks)
    (off : sleeper ∉ blocks) (nonnull : sleeper ≠ 0)
    (run : sleepQueueEnqueue 8 s (some task) deadline (some sleeper) =
      some (true, enqueued s task deadline sleeper)) :
    Reachable sleepQueue (enqueued s task deadline sleeper) := by
  refine h.next (a := .enqueue (some task) deadline (some sleeper)) ⟨?_, 8, true, run⟩
  intro block hblock
  obtain rfl := Option.some.inj hblock
  exact ⟨nonnull, fun hon => off ((onQueue_iff chain).mp hon)⟩

/-- Two sleepers, the first of which wakes later. -/
def twoSleepers : State := enqueued (enqueued emptyQueue 0xa000 200 0x1040) 0xb000 100 0x1080

theorem sleep_queue_is_ordered_two : ∃ first s',
    sleepQueueDequeue 3 twoSleepers 150 = some (first, s') ∧ Chain s'.taskNext first [0xb000] := by
  have hone : Reachable sleepQueue (enqueued emptyQueue 0xa000 200 0x1040) :=
    reachable_enqueued reachable_empty [] rfl (by simp) (by decide) rfl
  have htwo : Reachable sleepQueue twoSleepers :=
    reachable_enqueued hone [0x1040] ⟨rfl, rfl⟩ (by decide) (by decide) rfl
  obtain ⟨blocks, hchain, -, -, -, hdequeue⟩ := sleep_queue_is_ordered htwo
  obtain rfl : blocks = [0x1080, 0x1040] := chain_unique hchain ⟨rfl, rfl, rfl⟩
  obtain ⟨first, s', hrun, -, -, htasks⟩ := hdequeue 150 3 (by decide)
  exact ⟨first, s', hrun, htasks (by decide)⟩

/-- The first task is enqueued once more, behind the second one. -/
def repeatedSleeper : State :=
  enqueued (enqueued (enqueued emptyQueue 0xa000 1 0x1040) 0xb000 2 0x1080) 0xa000 3 0x10c0

/-- Linking the first task again cuts off the second one. -/
theorem repeated_task_loses_another : ∃ s blocks first s', Reachable sleepQueue s ∧
    Chain s.next s.queue.head blocks ∧ sleepQueueDequeue 4 s 3 = some (first, s') ∧
      Chain s'.taskNext first [0xa000] ∧ 0xb000 ∈ (s.due 3 blocks).map s.task := by
  have hone : Reachable sleepQueue (enqueued emptyQueue 0xa000 1 0x1040) :=
    reachable_enqueued reachable_empty [] rfl (by simp) (by decide) rfl
  have htwo : Reachable sleepQueue
      (enqueued (enqueued emptyQueue 0xa000 1 0x1040) 0xb000 2 0x1080) :=
    reachable_enqueued hone [0x1040] ⟨rfl, rfl⟩ (by decide) (by decide) rfl
  have hthree : Reachable sleepQueue repeatedSleeper :=
    reachable_enqueued htwo [0x1040, 0x1080] ⟨rfl, rfl, rfl⟩ (by decide) (by decide) rfl
  exact ⟨repeatedSleeper, [0x1040, 0x1080, 0x10c0], some 0xa000, _, hthree, ⟨rfl, rfl, rfl, rfl⟩,
    rfl, ⟨rfl, rfl⟩, by decide⟩

end SleepQueues
