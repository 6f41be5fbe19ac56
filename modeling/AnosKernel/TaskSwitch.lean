import AnosKernel.Lib.Frames
import AnosKernel.Lib.VirtualCpus
import AnosKernel.ProcessTasks

/-!
# Task switches on x86_64

`task_do_switch` of `kernel/arch/x86_64/task_switch.asm`, between the `call` of it and its `ret`:
at both the word at `rsp` is the address that the task goes on from. `temp_rsi` is one word for all
CPUs, so another one may store to it before this one reads it back. Tasks begin with the stack
that `task_create_new` builds.
-/

namespace TaskSwitch

open Frames VirtualCpus Runs

universe u v

inductive Reg
  | rax | rbx | rcx | rdx | rbp | r8 | r9 | r10 | r11 | r12 | r13 | r14 | r15 | rsi | rdi
  deriving DecidableEq, Repr

open Reg

def pushOrder : List Reg :=
  [rax, rbx, rcx, rdx, rbp, r8, r9, r10, r11, r12, r13, r14, r15, rsi, rdi]

def popOrder : List Reg :=
  [rdi, rsi, r15, r14, r13, r12, r11, r10, r9, r8, rbp, rdx, rcx, rbx, rax]

/-- The fields of the tasks that do not change, and where their kernel stacks are. -/
structure Layout (T : Type u) where
  rsp0 : T → BitVec 64
  pml4 : T → BitVec 64
  data : T → BitVec 64
  stack : T → Set (BitVec 64)
  apart : ∀ t u a, a ∈ stack t → a ∈ stack u → t = u
  data_inj : Function.Injective data

/-- `F` is the state that `fxsave` stores; `fpAreas` are the places it stores to. -/
structure Machine (T : Type u) (F : Type v) where
  regs : Reg → BitVec 64
  rsp : BitVec 64
  fp : F
  cr3 : BitVec 64
  mem : Words
  fpAreas : BitVec 64 → F
  ssp : T → BitVec 64
  current : Option T
  tssRsp0 : BitVec 64
  tempRsi : BitVec 64
  known : T → Prop

variable {T : Type u} {F : Type v} [DecidableEq T] (L : Layout T)

/-- Up to `.next`, with a task to save. -/
def Machine.saveCurrent (m : Machine T F) (cur : T) : Machine T F :=
  let regs := Function.update m.regs rsi m.tempRsi
  let pushed := pushAll regs pushOrder (m.mem, m.rsp)
  { m with
    regs := regs
    mem := pushed.1
    rsp := pushed.2
    ssp := Function.update m.ssp cur pushed.2
    fpAreas := Function.update m.fpAreas (L.data cur) m.fp }

/-- From `.next` on. -/
def Machine.restoreNext (m : Machine T F) (next : T) : Machine T F :=
  let popped := popAll m.mem popOrder (m.regs, m.ssp next)
  { m with
    current := some next
    tssRsp0 := L.rsp0 next
    cr3 := if m.cr3 = L.pml4 next then m.cr3 else L.pml4 next
    fp := m.fpAreas (L.data next)
    regs := popped.1
    rsp := popped.2 }

/-- `other` is what another CPU has stored to `temp_rsi`, if it has. -/
def taskDoSwitch (m : Machine T F) (next : T) (other : Option (BitVec 64)) : Machine T F :=
  let m := { m with tempRsi := other.getD (m.regs rsi) }
  match m.current with
  | none => m.restoreNext L next
  | some cur => (m.saveCurrent L cur).restoreNext L next

/-- What `task_create_new` stores for the switch to a new task. -/
def Machine.taskCreateNew (m : Machine T F) (t : T) (sp bootstrap func : BitVec 64) :
    Machine T F :=
  let stack := ProcessTasks.buildStack .x8664 m.mem (L.rsp0 t) sp bootstrap func
  { m with
    mem := stack.words
    ssp := Function.update m.ssp t stack.ssp
    known := Function.update m.known t True }

inductive Move (T : Type u)
  | work
  | create (t : T) (sp bootstrap func : BitVec 64)
  | switch (next : T) (other : Option (BitVec 64))
  | exit

/-- The stacks of the tasks that wait, and what their tasks have of them, are left alone. -/
def Machine.Spares (m m' : Machine T F) : Prop :=
  ∀ t, m.known t → m.current ≠ some t →
    m'.ssp t = m.ssp t ∧ m'.fpAreas (L.data t) = m.fpAreas (L.data t) ∧
      ∀ a ∈ L.stack t, m'.mem a = m.mem a

def Step (m : Machine T F) (move : Move T) (m' : Machine T F) : Prop :=
  match move with
  | .work => m'.current = m.current ∧ (∀ t, m'.known t ↔ m.known t) ∧ m.Spares L m'
  | .create t sp bootstrap func =>
    ¬ m.known t ∧ (∀ k < 16, cell (L.rsp0 t - 128) k ∈ L.stack t) ∧
      m' = m.taskCreateNew L t sp bootstrap func
  | .switch next other =>
    m.known next ∧
      (∀ cur, m.current = some cur → ∀ k ≤ 15, cell (m.rsp - 120) k ∈ L.stack cur) ∧
      m' = taskDoSwitch L m next other
  | .exit =>
    m'.current = none ∧ (∀ t, m'.known t ↔ m.known t ∧ m.current ≠ some t) ∧ m.Spares L m'

/-- Before the first task runs. -/
def switching : System (Machine T F) (Move T) where
  init m := m.current = none ∧ ∀ t, ¬ m.known t
  step := Step L

structure Context (F : Type v) where
  regs : Reg → BitVec 64
  rsp : BitVec 64
  rip : BitVec 64
  fp : F

/-- What the switch does to the task that it takes the CPU from: nothing, or another CPU's word. -/
def worn (_ : T) (other : Option (BitVec 64)) (c : Context F) : Context F :=
  { c with regs := Function.update c.regs rsi (other.getD (c.regs rsi)) }

structure Machine.Saved (m : Machine T F) (t : T) (c : Context F) : Prop where
  regs : Holds m.mem (m.ssp t) (stacked popOrder) c.regs
  rsp : c.rsp = cell (m.ssp t) 15
  rip : m.mem (cell (m.ssp t) 15) = c.rip
  fp : m.fpAreas (L.data t) = c.fp
  stack : ∀ k ≤ 15, cell (m.ssp t) k ∈ L.stack t

def cpu : Multiplexer (Machine T F) T (Context F) (Option (BitVec 64)) where
  current := Machine.current
  known := Machine.known
  live m := { regs := m.regs, rsp := m.rsp, rip := m.mem m.rsp, fp := m.fp }
  saved m t c := m.Saved L t c

section Frame

variable {L} {m m' : Machine T F} {t u : T} {c : Context F} {other : Option (BitVec 64)}

theorem place_le {p : Reg × Nat} (hp : p ∈ stacked popOrder) : p.2 ≤ 14 := by
  have hlt := List.snd_lt_of_mem_zipIdx hp
  have hlen : popOrder.length = 15 := rfl
  omega

theorem mem_popOrder (r : Reg) : r ∈ (stacked popOrder).map Prod.fst := by
  cases r
  all_goals decide

omit [DecidableEq T] in
/-- What the switch needs of a task that waits is its stack, its stack pointer and its area. -/
theorem Machine.Saved.kept (h : m.Saved L t c) (hssp : m'.ssp t = m.ssp t)
    (hfp : m'.fpAreas (L.data t) = m.fpAreas (L.data t))
    (hmem : ∀ a ∈ L.stack t, m'.mem a = m.mem a) : m'.Saved L t c where
  regs := by
    rw [hssp]
    exact h.regs.kept fun p hp => hmem _ (h.stack _ (by have := place_le hp; omega))
  rsp := by
    rw [hssp]
    exact h.rsp
  rip := by
    rw [hssp, hmem _ (h.stack 15 (le_refl 15))]
    exact h.rip
  fp := hfp.trans h.fp
  stack := by
    rw [hssp]
    exact h.stack

omit [DecidableEq T] in
theorem Machine.Spares.keeps (h : m.Spares L m') : (cpu L).Keeps m m' fun _ => False := by
  intro t c hknown hcur _ hsaved
  obtain ⟨hssp, hfp, hmem⟩ := h t hknown hcur
  exact Machine.Saved.kept hsaved hssp hfp hmem

/-- The registers that `task_create_new` leaves room for. -/
theorem room_bytes : (8 : BitVec 64) * (BitVec.ofNat 64 15 - 2) = 104 := by decide

theorem buildStack_ssp (top sp bootstrap func : BitVec 64) (mem : Words) :
    (ProcessTasks.buildStack .x8664 mem top sp bootstrap func).ssp = top - 128 := by
  simp only [ProcessTasks.buildStack, ProcessTasks.Stack.push,
    ProcessTasks.taskSavedRegisterCount, room_bytes]
  ring

theorem buildStack_words (top sp bootstrap func : BitVec 64) (mem : Words) :
    (ProcessTasks.buildStack .x8664 mem top sp bootstrap func).words =
      Function.update (Function.update (Function.update mem (cell (top - 128) 15) bootstrap)
        (cell (top - 128) 1) sp) (cell (top - 128) 0) func := by
  have hbootstrap : cell (top - 128) 15 = top - 8 := cell_sub top 128 15
  have hsp : cell (top - 128) 1 = top - 8 - 104 - 8 := by
    rw [show cell (top - 128) 1 = top - 120 from cell_sub top 128 1]
    ring
  have hfunc : cell (top - 128) 0 = top - 8 - 104 - 8 - 8 := by
    rw [show cell (top - 128) 0 = top - 128 from cell_sub top 128 0]
    ring
  simp only [ProcessTasks.buildStack, ProcessTasks.Stack.push,
    ProcessTasks.taskSavedRegisterCount, room_bytes, hbootstrap, hsp, hfunc]

theorem place_ne {base : BitVec 64} {i j : Nat} (hi : i ≤ 15) (hj : j ≤ 15) (h : i ≠ j) :
    cell base i ≠ cell base j := by
  intro heq
  exact h (cell_inj (by omega) (by omega) heq)

/-- A new task waits to return to `bootstrap` with its two arguments. -/
theorem taskCreateNew_saved (sp bootstrap func : BitVec 64)
    (room : ∀ k < 16, cell (L.rsp0 t - 128) k ∈ L.stack t) :
    ∃ c, (m.taskCreateNew L t sp bootstrap func).Saved L t c ∧ c.rip = bootstrap ∧
      c.regs rdi = func ∧ c.regs rsi = sp ∧ c.rsp + 8 = L.rsp0 t := by
  let base := L.rsp0 t - 128
  have hssp : (m.taskCreateNew L t sp bootstrap func).ssp t = base := by
    simp only [Machine.taskCreateNew, buildStack_ssp, Function.update_self, base]
  have hmem : (m.taskCreateNew L t sp bootstrap func).mem =
      Function.update (Function.update (Function.update m.mem (cell base 15) bootstrap)
        (cell base 1) sp) (cell base 0) func := buildStack_words _ _ _ _ _
  let mem' := (m.taskCreateNew L t sp bootstrap func).mem
  let regs := fun r => mem' (cell base (popOrder.idxOf r))
  refine ⟨⟨regs, cell base 15, bootstrap, m.fpAreas (L.data t)⟩, ⟨?_, ?_, ?_, rfl, ?_⟩, rfl, ?_, ?_,
    ?_⟩
  · rw [hssp]
    intro p hp
    have hindex : popOrder.idxOf p.1 = p.2 := by
      revert p
      decide
    simp only [regs, hindex, mem']
  · rw [hssp]
  · rw [hssp, hmem, Function.update_of_ne (place_ne (le_refl 15) (by omega) (by omega)),
      Function.update_of_ne (place_ne (le_refl 15) (by omega) (by omega)), Function.update_self]
  · rw [hssp]
    exact fun k hk => room k (by omega)
  · show mem' (cell base 0) = func
    simp only [mem', hmem, Function.update_self]
  · show mem' (cell base 1) = sp
    simp only [mem', hmem]
    rw [Function.update_of_ne (place_ne (by omega) (by omega) (by omega)), Function.update_self]
  · show cell base 15 + 8 = L.rsp0 t
    rw [show cell base 15 = L.rsp0 t - 8 from cell_sub (L.rsp0 t) 128 15]
    exact BitVec.sub_add_cancel _ _

theorem taskCreateNew_other {a : BitVec 64} (sp bootstrap func : BitVec 64)
    (h : ∀ k < 16, a ≠ cell (L.rsp0 t - 128) k) :
    (m.taskCreateNew L t sp bootstrap func).mem a = m.mem a := by
  simp only [Machine.taskCreateNew, buildStack_words]
  rw [Function.update_of_ne (h 0 (by omega)), Function.update_of_ne (h 1 (by omega)),
    Function.update_of_ne (h 15 (by omega))]

omit [DecidableEq T] in
theorem rsp_sub (m : Machine T F) : cell (m.rsp - 120) 15 = m.rsp := by
  rw [show cell (m.rsp - 120) 15 = m.rsp - 0 from cell_sub m.rsp 120 15]
  exact BitVec.sub_zero _

theorem popOrder_eq : popOrder = pushOrder.reverse := rfl

theorem pushed_bytes : BitVec.ofNat 64 (8 * pushOrder.length) = 120 := rfl

omit [DecidableEq T] in
theorem pushed_other (m : Machine T F) (regs : Reg → BitVec 64) {a : BitVec 64}
    (h : ∀ k < 15, a ≠ cell (m.rsp - 120) k) :
    (pushAll regs pushOrder (m.mem, m.rsp)).1 a = m.mem a := by
  apply pushAll_other
  rw [pushed_bytes]
  exact h

theorem saveCurrent_saved (room : ∀ k ≤ 15, cell (m.rsp - 120) k ∈ L.stack u) :
    (m.saveCurrent L u).Saved L u
      ⟨Function.update m.regs rsi m.tempRsi, m.rsp, m.mem m.rsp, m.fp⟩ := by
  have hssp : (m.saveCurrent L u).ssp u = m.rsp - 120 := by
    simp only [Machine.saveCurrent, Function.update_self, pushAll_snd, pushed_bytes]
  have hplaces : ∀ k < 15, m.rsp ≠ cell (m.rsp - 120) k := by
    intro k hk heq
    have hne : 15 ≠ k := by omega
    exact place_ne (le_refl 15) (by omega) hne ((rsp_sub m).trans heq)
  refine ⟨?_, ?_, ?_, ?_, ?_⟩
  · rw [hssp, popOrder_eq, ← pushed_bytes]
    simp only [Machine.saveCurrent]
    exact holds_pushAll (by decide)
  · rw [hssp, rsp_sub]
  · rw [hssp, rsp_sub]
    simp only [Machine.saveCurrent]
    exact pushed_other m _ hplaces
  · exact Function.update_self _ _ _
  · rw [hssp]
    exact room

/-- The frame of the one task is in its own stack. -/
theorem Machine.Saved.saveCurrent (h : m.Saved L t c) (hne : t ≠ u)
    (room : ∀ k ≤ 15, cell (m.rsp - 120) k ∈ L.stack u) : (m.saveCurrent L u).Saved L t c := by
  apply h.kept
  · exact Function.update_of_ne hne _ _
  · exact Function.update_of_ne (fun heq => hne (L.data_inj heq)) _ _
  · intro a ha
    simp only [Machine.saveCurrent]
    apply pushed_other
    rintro k hk rfl
    exact hne (L.apart t u _ ha (room k (by omega)))

omit [DecidableEq T] in
theorem Machine.Saved.restoreNext (h : m.Saved L t c) (next : T) :
    (m.restoreNext L next).Saved L t c := h.kept rfl rfl fun _ _ => rfl

omit [DecidableEq T] in
/-- The task goes on from where it was saved. -/
theorem restoreNext_live (h : m.Saved L t c) : (cpu L).live (m.restoreNext L t) = c := by
  have hregs : (m.restoreNext L t).regs = c.regs := by
    funext r
    unfold Machine.restoreNext
    rw [popAll_base]
    exact loadAll_mem h.regs (mem_popOrder r)
  have hrsp : (m.restoreNext L t).rsp = c.rsp := by
    unfold Machine.restoreNext
    rw [popAll_base, h.rsp]
    rfl
  have hrip : m.mem (m.restoreNext L t).rsp = c.rip := by
    rw [hrsp, h.rsp]
    exact h.rip
  show Context.mk (m.restoreNext L t).regs (m.restoreNext L t).rsp
    (m.mem (m.restoreNext L t).rsp) (m.fpAreas (L.data t)) = c
  rw [hregs, hrip, hrsp, h.fp]

omit [DecidableEq T] in
theorem restores : (cpu (F := F) L).Restores (Machine.restoreNext L) where
  current _ _ := rfl
  known _ _ _ := Iff.rfl
  live _ _ _ h := restoreNext_live h
  keeps _ t _ _ h := Machine.Saved.restoreNext h t

theorem switches (known : m.known t)
    (room : ∀ cur, m.current = some cur → ∀ k ≤ 15, cell (m.rsp - 120) k ∈ L.stack cur) :
    (cpu L).Switches worn t other m (taskDoSwitch L m t other) := by
  let seen : Machine T F := { m with tempRsi := other.getD (m.regs rsi) }
  have hseen : ∀ u c, m.Saved L u c → seen.Saved L u c := fun u c hc =>
    hc.kept rfl rfl fun _ _ => rfl
  cases hcur : m.current with
  | none =>
    have hswitch : taskDoSwitch L m t other = seen.restoreNext L t := by
      simp only [taskDoSwitch, hcur, seen]
    rw [hswitch]
    apply restores.switches known
    refine ⟨fun u => Iff.rfl, fun u h => ?_, fun u c _ hc => hseen u c hc⟩
    cases hcur.symm.trans h
  | some cur =>
    have hswitch : taskDoSwitch L m t other = (seen.saveCurrent L cur).restoreNext L t := by
      simp only [taskDoSwitch, hcur, seen]
    rw [hswitch]
    apply restores.switches known
    refine ⟨fun u => Iff.rfl, fun u h => ?_, fun u c hne hc => ?_⟩
    · cases hcur.symm.trans h
      exact saveCurrent_saved (m := seen) (room cur hcur)
    · have huc : u ≠ cur := by
        rintro rfl
        exact hne hcur
      exact (hseen u c hc).saveCurrent huc (room cur hcur)

theorem creates {sp bootstrap func : BitVec 64} (fresh : ¬ m.known t)
    (room : ∀ k < 16, cell (L.rsp0 t - 128) k ∈ L.stack t) :
    ∃ c, (cpu L).Creates t c m (m.taskCreateNew L t sp bootstrap func) := by
  obtain ⟨c, hsaved, -⟩ := taskCreateNew_saved (m := m) sp bootstrap func room
  refine ⟨c, fresh, rfl, fun u => ?_, hsaved, fun u c' _ _ hne hc => ?_⟩
  · by_cases hu : u = t
    · subst hu
      simp [cpu, Machine.taskCreateNew]
    · simp [cpu, Machine.taskCreateNew, hu]
  · apply Machine.Saved.kept hc
    · exact Function.update_of_ne hne _ _
    · rfl
    · intro a ha
      apply taskCreateNew_other
      rintro k hk rfl
      exact hne (L.apart u t _ ha (room k hk))

end Frame

section Example

/-- Two tasks with the stacks from 0x1000 and from 0x2000 on. -/
def twoTasks : Layout Bool where
  rsp0 t := if t then 0x2000 else 0x3000
  pml4 t := if t then 0x8000 else 0x9000
  data t := if t then 0x100 else 0x300
  stack t := { a | a.toNat / 0x1000 = if t then 1 else 2 }
  apart := by
    intro t u a ht hu
    change a.toNat / 0x1000 = _ at ht hu
    cases t
    all_goals
      cases u
      all_goals simp_all
  data_inj t u := by revert t u; decide

def boot : Machine Bool Nat where
  regs _ := 0
  rsp := 0x800
  fp := 0
  cr3 := 0
  mem _ := 0
  fpAreas a := a.toNat
  ssp _ := 0
  current := none
  tssRsp0 := 0
  tempRsi := 0
  known _ := False

def created : Machine Bool Nat :=
  (boot.taskCreateNew twoTasks true 7 0x5000 0x6000).taskCreateNew twoTasks false 8 0x5000 0x7000

/-- The first task has had its turn, and the second has its own. -/
def turns : Machine Bool Nat :=
  taskDoSwitch twoTasks (taskDoSwitch twoTasks created true none) false (some 9)

theorem turns_reachable : Reachable (switching twoTasks) turns := by
  have hboot : Reachable (switching twoTasks) boot := .start ⟨rfl, fun _ => id⟩
  have hfirst : Reachable (switching twoTasks)
      (boot.taskCreateNew twoTasks true 7 0x5000 0x6000) := by
    refine .next (a := .create true 7 0x5000 0x6000) hboot ⟨id, ?_, rfl⟩
    show ∀ k < 16, (cell (0x2000 - 128) k).toNat / 0x1000 = 1
    decide
  have hcreated : Reachable (switching twoTasks) created := by
    refine .next (a := .create false 8 0x5000 0x7000) hfirst ⟨?_, ?_, rfl⟩
    · simp [Machine.taskCreateNew, boot]
    · show ∀ k < 16, (cell (0x3000 - 128) k).toNat / 0x1000 = 2
      decide
  have hknown : created.known = fun _ => True := by
    funext t
    cases t
    all_goals simp [created, Machine.taskCreateNew]
  have hturn : Reachable (switching twoTasks) (taskDoSwitch twoTasks created true none) := by
    refine .next (a := .switch true none) hcreated ⟨by rw [hknown]; trivial, ?_, rfl⟩
    intro cur h
    cases h
  refine .next (a := .switch false (some 9)) hturn ⟨?_, ?_, rfl⟩
  · show created.known false
    rw [hknown]
    trivial
  · rintro cur ⟨⟩
    show ∀ k ≤ 15, (cell (0x2000 - 8 - 120) k).toNat / 0x1000 = 1
    decide

end Example

end TaskSwitch
