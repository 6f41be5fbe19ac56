import AnosKernel.Lib.Frames
import AnosKernel.Lib.VirtualCpus
import AnosKernel.ProcessTasks

/-!
# Task switches on riscv64

`task_do_switch` of `kernel/arch/riscv64/task_switch.S`, from its first instruction to its `ret`.
It keeps the registers that a C function may expect to find again, and with them `a0` and `a1`,
which a new task takes its arguments from. The pointer to the task that gives up the CPU is loaded
to `t2` before `t2` is saved.

The test for the floating point state looks at bit 12 of `sstatus`. The field is in the bits 14
and 13, and bit 12 is one of those that read as zero, so neither branch for the floating point
registers is ever taken.
-/

namespace TaskSwitchRiscV

open Frames VirtualCpus Runs

universe u

inductive Reg
  | a0 | a1 | gp | t0 | t1 | t2 | t3 | t4 | t5 | t6
  | s0 | s1 | s2 | s3 | s4 | s5 | s6 | s7 | s8 | s9 | s10 | s11 | ra
  deriving DecidableEq, Repr

open Reg

/-- The stores and loads up to the floating point registers, with their places. -/
def intFrame : List (Reg × Nat) :=
  [(a0, 0), (a1, 1), (gp, 2), (t0, 3), (t1, 4), (t2, 5), (t3, 6), (t4, 7), (t5, 8), (t6, 9),
    (s0, 10), (s1, 11), (s2, 12), (s3, 13), (s4, 14), (s5, 15), (s6, 16), (s7, 17), (s8, 18),
    (s9, 19), (s10, 20), (s11, 21)]

def fpFrame : List (Fin 32 × Nat) := (List.finRange 32).map fun i => (i, 22 + i.val)

def raFrame : List (Reg × Nat) := [(ra, 54)]

structure Layout (T : Type u) where
  pml4 : T → BitVec 64
  pointer : T → BitVec 64
  stack : T → Set (BitVec 64)
  apart : ∀ t u a, a ∈ stack t → a ∈ stack u → t = u

structure Machine (T : Type u) where
  regs : Reg → BitVec 64
  sp : BitVec 64
  fp : Fin 32 → BitVec 64
  sepc : BitVec 64
  sscratch : BitVec 64
  satp : BitVec 64
  sstatus : BitVec 64
  mem : Words
  ssp : T → BitVec 64
  rsp0 : T → BitVec 64
  current : Option T
  known : T → Prop

variable {T : Type u} [DecidableEq T] (L : Layout T)

/-- `slli t1, t0, 51` and `srli t1, t1, 63`. -/
def fpEnabled (sstatus : BitVec 64) : Bool := (sstatus <<< 51) >>> 63 != 0

/-- Up to `.restore_next`, with a task to save. -/
def Machine.saveCurrent (m : Machine T) (cur : T) : Machine T :=
  let regs := Function.update m.regs t2 (L.pointer cur)
  let sp := m.sp - 448
  let mem := storeAll sp regs intFrame m.mem
  let mem := if fpEnabled m.sstatus then storeAll sp m.fp fpFrame mem else mem
  let mem := storeAll sp regs raFrame mem
  { m with
    regs := regs
    sp := sp
    mem := Function.update mem (cell sp 55) m.sepc
    rsp0 := Function.update m.rsp0 cur m.sscratch
    ssp := Function.update m.ssp cur sp }

/-- From `.restore_next` on. -/
def Machine.restoreNext (m : Machine T) (next : T) : Machine T :=
  let sp := m.ssp next
  { m with
    current := some next
    sscratch := m.rsp0 next
    satp := L.pml4 next
    sepc := m.mem (cell sp 55)
    fp := if fpEnabled m.sstatus then loadAll sp m.mem fpFrame m.fp else m.fp
    regs := loadAll sp m.mem raFrame (loadAll sp m.mem intFrame m.regs)
    sp := sp + 448 }

def taskDoSwitch (m : Machine T) (next : T) : Machine T :=
  match m.current with
  | none => m.restoreNext L next
  | some cur => (m.saveCurrent L cur).restoreNext L next

/-- What `task_create_new` stores for the switch to a new task whose kernel stack has this top. -/
def Machine.taskCreateNew (m : Machine T) (t : T) (top sp bootstrap func : BitVec 64) :
    Machine T :=
  let stack := ProcessTasks.buildStack .riscv64 m.mem top sp bootstrap func
  { m with
    mem := stack.words
    rsp0 := Function.update m.rsp0 t top
    ssp := Function.update m.ssp t stack.ssp
    known := Function.update m.known t True }

inductive Move (T : Type u)
  | work
  | create (t : T) (top sp bootstrap func : BitVec 64)
  | switch (next : T)
  | exit

/-- The stacks of the tasks that wait are left alone, and bit 12 of `sstatus` reads as zero. -/
structure Machine.Spares (m m' : Machine T) : Prop where
  tasks : ∀ t, m.known t → m.current ≠ some t →
    m'.ssp t = m.ssp t ∧ m'.rsp0 t = m.rsp0 t ∧ ∀ a ∈ L.stack t, m'.mem a = m.mem a
  sstatus : m'.sstatus.getLsbD 12 = false

def Step (m : Machine T) (move : Move T) (m' : Machine T) : Prop :=
  match move with
  | .work => m'.current = m.current ∧ (∀ t, m'.known t ↔ m.known t) ∧ m.Spares L m'
  | .create t top sp bootstrap func =>
    ¬ m.known t ∧ (∀ k < 56, cell (top - 448) k ∈ L.stack t) ∧
      m' = m.taskCreateNew t top sp bootstrap func
  | .switch next =>
    m.known next ∧
      (∀ cur, m.current = some cur → ∀ k < 56, cell (m.sp - 448) k ∈ L.stack cur) ∧
      m' = taskDoSwitch L m next
  | .exit =>
    m'.current = none ∧ (∀ t, m'.known t ↔ m.known t ∧ m.current ≠ some t) ∧ m.Spares L m'

def switching : System (Machine T) (Move T) where
  init m := m.current = none ∧ (∀ t, ¬ m.known t) ∧ m.sstatus.getLsbD 12 = false
  step := Step L

structure Context where
  regs : Reg → BitVec 64
  sp : BitVec 64
  sepc : BitVec 64
  sscratch : BitVec 64

/-- What the switch does to the task that it takes the CPU from. -/
def worn (t : T) (_ : Unit) (c : Context) : Context :=
  { c with regs := Function.update c.regs t2 (L.pointer t) }

structure Machine.Saved (m : Machine T) (t : T) (c : Context) : Prop where
  regs : Holds m.mem (m.ssp t) (intFrame ++ raFrame) c.regs
  sp : c.sp = m.ssp t + 448
  sepc : m.mem (cell (m.ssp t) 55) = c.sepc
  sscratch : m.rsp0 t = c.sscratch
  stack : ∀ k < 56, cell (m.ssp t) k ∈ L.stack t

def cpu : Multiplexer (Machine T) T Context Unit where
  current := Machine.current
  known := Machine.known
  live m := { regs := m.regs, sp := m.sp, sepc := m.sepc, sscratch := m.sscratch }
  saved m t c := m.Saved L t c

/-- Only bit 12 counts. -/
theorem fpEnabled_eq (sstatus : BitVec 64) : fpEnabled sstatus = sstatus.getLsbD 12 := by
  have hshift : ((sstatus <<< 51) >>> 63).toNat = sstatus.toNat / 4096 % 2 := by
    rw [BitVec.toNat_ushiftRight, BitVec.toNat_shiftLeft, Nat.shiftLeft_eq,
      Nat.shiftRight_eq_div_pow]
    have hlt := sstatus.isLt
    omega
  have hbit : sstatus.getLsbD 12 = decide (sstatus.toNat / 4096 % 2 = 1) := by
    rw [BitVec.getLsbD, Nat.testBit_eq_decide_div_mod_eq]
  unfold fpEnabled
  rw [hbit, Bool.eq_iff_iff, bne_iff_ne, decide_eq_true_iff, ne_eq, ← BitVec.toNat_inj, hshift]
  show ¬ sstatus.toNat / 4096 % 2 = 0 ↔ _
  omega

section Frame

variable {L} {m m' : Machine T} {t u : T} {c : Context}

theorem apart_frame : Apart (intFrame ++ raFrame) := by
  refine ⟨by decide, ?_⟩
  decide

theorem place_lt {p : Reg × Nat} (hp : p ∈ intFrame ++ raFrame) : p.2 < 55 := by
  revert p
  decide

theorem mem_frame (r : Reg) : r ∈ (intFrame ++ raFrame).map Prod.fst := by
  cases r
  all_goals decide

omit [DecidableEq T] in
theorem Machine.Saved.kept (h : m.Saved L t c) (hssp : m'.ssp t = m.ssp t)
    (hrsp0 : m'.rsp0 t = m.rsp0 t) (hmem : ∀ a ∈ L.stack t, m'.mem a = m.mem a) :
    m'.Saved L t c where
  regs := by
    rw [hssp]
    exact h.regs.kept fun p hp => hmem _ (h.stack _ (by have := place_lt hp; omega))
  sp := by
    rw [hssp]
    exact h.sp
  sepc := by
    rw [hssp, hmem _ (h.stack 55 (by omega))]
    exact h.sepc
  sscratch := hrsp0.trans h.sscratch
  stack := by
    rw [hssp]
    exact h.stack

omit [DecidableEq T] in
theorem Machine.Spares.keeps (h : m.Spares L m') : (cpu L).Keeps m m' fun _ => False := by
  intro t c hknown hcur _ hsaved
  obtain ⟨hssp, hrsp0, hmem⟩ := h.tasks t hknown hcur
  exact Machine.Saved.kept hsaved hssp hrsp0 hmem

/-- The memory after the stores of a switch that takes no floating point branch. -/
theorem saveCurrent_mem (hbit : m.sstatus.getLsbD 12 = false) :
    (m.saveCurrent L u).mem = Function.update
      (storeAll (m.sp - 448) (Function.update m.regs t2 (L.pointer u)) (intFrame ++ raFrame) m.mem)
      (cell (m.sp - 448) 55) m.sepc := by
  simp only [Machine.saveCurrent, fpEnabled_eq, hbit, storeAll_append]
  rfl

theorem saveCurrent_other (hbit : m.sstatus.getLsbD 12 = false) {a : BitVec 64}
    (h : ∀ k < 56, a ≠ cell (m.sp - 448) k) : (m.saveCurrent L u).mem a = m.mem a := by
  rw [saveCurrent_mem hbit, Function.update_of_ne (h 55 (by omega))]
  apply storeAll_other
  intro p hp
  apply h
  have hlt := place_lt hp
  omega

theorem saveCurrent_saved (hbit : m.sstatus.getLsbD 12 = false)
    (room : ∀ k < 56, cell (m.sp - 448) k ∈ L.stack u) :
    (m.saveCurrent L u).Saved L u
      ⟨Function.update m.regs t2 (L.pointer u), m.sp, m.sepc, m.sscratch⟩ := by
  have hssp : (m.saveCurrent L u).ssp u = m.sp - 448 := Function.update_self _ _ _
  refine ⟨?_, ?_, ?_, Function.update_self _ _ _, ?_⟩
  · rw [hssp, saveCurrent_mem hbit]
    intro p hp
    have hne : cell (m.sp - 448) p.2 ≠ cell (m.sp - 448) 55 := by
      intro heq
      have hlt := place_lt hp
      have hplace := cell_inj (by omega) (by omega) heq
      omega
    rw [Function.update_of_ne hne]
    exact holds_storeAll apart_frame p hp
  · rw [hssp, BitVec.sub_add_cancel]
  · rw [hssp, saveCurrent_mem hbit, Function.update_self]
  · rw [hssp]
    exact room

theorem Machine.Saved.saveCurrent (h : m.Saved L t c) (hbit : m.sstatus.getLsbD 12 = false)
    (hne : t ≠ u) (room : ∀ k < 56, cell (m.sp - 448) k ∈ L.stack u) :
    (m.saveCurrent L u).Saved L t c := by
  apply h.kept
  · exact Function.update_of_ne hne _ _
  · exact Function.update_of_ne hne _ _
  · intro a ha
    apply saveCurrent_other hbit
    rintro k hk rfl
    exact hne (L.apart t u _ ha (room k hk))

omit [DecidableEq T] in
theorem Machine.Saved.restoreNext (h : m.Saved L t c) (next : T) :
    (m.restoreNext L next).Saved L t c := h.kept rfl rfl fun _ _ => rfl

omit [DecidableEq T] in
/-- The task goes on from where it was saved. -/
theorem restoreNext_live (h : m.Saved L t c) : (cpu L).live (m.restoreNext L t) = c := by
  have hregs : (m.restoreNext L t).regs = c.regs := by
    funext r
    simp only [Machine.restoreNext]
    rw [← loadAll_append]
    exact loadAll_mem h.regs (mem_frame r)
  have hsp : (m.restoreNext L t).sp = c.sp := h.sp.symm
  show Context.mk (m.restoreNext L t).regs (m.restoreNext L t).sp
    (m.mem (cell (m.ssp t) 55)) (m.rsp0 t) = c
  rw [hregs, hsp, h.sepc, h.sscratch]

omit [DecidableEq T] in
theorem restores : (cpu L).Restores (Machine.restoreNext L) where
  current _ _ := rfl
  known _ _ _ := Iff.rfl
  live _ _ _ h := restoreNext_live h
  keeps _ t _ _ h := Machine.Saved.restoreNext h t

theorem switches (hbit : m.sstatus.getLsbD 12 = false) (known : m.known t)
    (room : ∀ cur, m.current = some cur → ∀ k < 56, cell (m.sp - 448) k ∈ L.stack cur) :
    (cpu L).Switches (worn L) t () m (taskDoSwitch L m t) := by
  cases hcur : m.current with
  | none =>
    have hswitch : taskDoSwitch L m t = m.restoreNext L t := by
      simp only [taskDoSwitch, hcur]
    rw [hswitch]
    apply restores.switches known
    refine ⟨fun u => Iff.rfl, fun u h => ?_, fun u c _ hc => hc⟩
    cases hcur.symm.trans h
  | some cur =>
    have hswitch : taskDoSwitch L m t = (m.saveCurrent L cur).restoreNext L t := by
      simp only [taskDoSwitch, hcur]
    rw [hswitch]
    apply restores.switches known
    refine ⟨fun u => Iff.rfl, fun u h => ?_, fun u c hne hc => ?_⟩
    · cases hcur.symm.trans h
      exact saveCurrent_saved hbit (room cur hcur)
    · have huc : u ≠ cur := by
        rintro rfl
        exact hne hcur
      exact Machine.Saved.saveCurrent hc hbit huc (room cur hcur)

/-- The registers that `task_create_new` leaves room for. -/
theorem room_bytes : (8 : BitVec 64) * (BitVec.ofNat 64 54 - 2) = 416 := by decide

theorem buildStack_ssp (top sp bootstrap func : BitVec 64) (mem : Words) :
    (ProcessTasks.buildStack .riscv64 mem top sp bootstrap func).ssp = top - 448 := by
  simp only [ProcessTasks.buildStack, ProcessTasks.Stack.push,
    ProcessTasks.taskSavedRegisterCount, room_bytes]
  ring

theorem buildStack_words (top sp bootstrap func : BitVec 64) (mem : Words) :
    (ProcessTasks.buildStack .riscv64 mem top sp bootstrap func).words =
      Function.update (Function.update (Function.update (Function.update mem
        (cell (top - 448) 55) 0) (cell (top - 448) 54) bootstrap) (cell (top - 448) 1) sp)
        (cell (top - 448) 0) func := by
  have hsepc : cell (top - 448) 55 = top - 8 := cell_sub top 448 55
  have hbootstrap : cell (top - 448) 54 = top - 8 - 8 := by
    rw [show cell (top - 448) 54 = top - 16 from cell_sub top 448 54]
    ring
  have hsp : cell (top - 448) 1 = top - 8 - 8 - 416 - 8 := by
    rw [show cell (top - 448) 1 = top - 440 from cell_sub top 448 1]
    ring
  have hfunc : cell (top - 448) 0 = top - 8 - 8 - 416 - 8 - 8 := by
    rw [show cell (top - 448) 0 = top - 448 from cell_sub top 448 0]
    ring
  simp only [ProcessTasks.buildStack, ProcessTasks.Stack.push,
    ProcessTasks.taskSavedRegisterCount, room_bytes, hsepc, hbootstrap, hsp, hfunc]

theorem taskCreateNew_other {a top : BitVec 64} (sp bootstrap func : BitVec 64)
    (h : ∀ k < 56, a ≠ cell (top - 448) k) :
    (m.taskCreateNew t top sp bootstrap func).mem a = m.mem a := by
  simp only [Machine.taskCreateNew, buildStack_words]
  rw [Function.update_of_ne (h 0 (by omega)), Function.update_of_ne (h 1 (by omega)),
    Function.update_of_ne (h 54 (by omega)), Function.update_of_ne (h 55 (by omega))]

/-- The place of a register in the frame. -/
def place (r : Reg) : Nat := ((intFrame ++ raFrame).lookup r).getD 0

/-- A new task waits to return to `bootstrap` with its two arguments. -/
theorem taskCreateNew_saved {top : BitVec 64} (sp bootstrap func : BitVec 64)
    (room : ∀ k < 56, cell (top - 448) k ∈ L.stack t) :
    ∃ c, (m.taskCreateNew t top sp bootstrap func).Saved L t c ∧ c.regs ra = bootstrap ∧
      c.regs a0 = func ∧ c.regs a1 = sp ∧ c.sp = top := by
  let base := top - 448
  have hssp : (m.taskCreateNew t top sp bootstrap func).ssp t = base := by
    simp only [Machine.taskCreateNew, buildStack_ssp, Function.update_self, base]
  have hmem : (m.taskCreateNew t top sp bootstrap func).mem =
      Function.update (Function.update (Function.update (Function.update m.mem
        (cell base 55) 0) (cell base 54) bootstrap) (cell base 1) sp) (cell base 0) func :=
    buildStack_words _ _ _ _ _
  have hne : ∀ i j, i < 56 → j < 56 → i ≠ j → cell base i ≠ cell base j := by
    intro i j hi hj hij heq
    exact hij (cell_inj (by omega) (by omega) heq)
  let mem' := (m.taskCreateNew t top sp bootstrap func).mem
  refine ⟨⟨fun r => mem' (cell base (place r)), top, 0, top⟩, ⟨?_, ?_, ?_, ?_, ?_⟩, ?_, ?_, ?_,
    rfl⟩
  · rw [hssp]
    intro p hp
    have hplace : place p.1 = p.2 := by
      revert p
      decide
    simp only [hplace, mem']
  · rw [hssp]
    exact (BitVec.sub_add_cancel _ _).symm
  · rw [hssp, hmem, Function.update_of_ne (hne 55 0 (by omega) (by omega) (by omega)),
      Function.update_of_ne (hne 55 1 (by omega) (by omega) (by omega)),
      Function.update_of_ne (hne 55 54 (by omega) (by omega) (by omega)), Function.update_self]
  · exact Function.update_self _ _ _
  · rw [hssp]
    exact room
  · show mem' (cell base 54) = bootstrap
    simp only [mem', hmem]
    rw [Function.update_of_ne (hne 54 0 (by omega) (by omega) (by omega)),
      Function.update_of_ne (hne 54 1 (by omega) (by omega) (by omega)), Function.update_self]
  · show mem' (cell base 0) = func
    simp only [mem', hmem, Function.update_self]
  · show mem' (cell base 1) = sp
    simp only [mem', hmem]
    rw [Function.update_of_ne (hne 1 0 (by omega) (by omega) (by omega)), Function.update_self]

theorem creates {top sp bootstrap func : BitVec 64} (fresh : ¬ m.known t)
    (room : ∀ k < 56, cell (top - 448) k ∈ L.stack t) :
    ∃ c, (cpu L).Creates t c m (m.taskCreateNew t top sp bootstrap func) := by
  obtain ⟨c, hsaved, -⟩ := taskCreateNew_saved (m := m) sp bootstrap func room
  refine ⟨c, fresh, rfl, fun u => ?_, hsaved, fun u c' _ _ hne hc => ?_⟩
  · by_cases hu : u = t
    · subst hu
      simp [cpu, Machine.taskCreateNew]
    · simp [cpu, Machine.taskCreateNew, hu]
  · apply Machine.Saved.kept hc
    · exact Function.update_of_ne hne _ _
    · exact Function.update_of_ne hne _ _
    · intro a ha
      apply taskCreateNew_other
      rintro k hk rfl
      exact hne (L.apart u t _ ha (room k hk))

theorem taskDoSwitch_sstatus : (taskDoSwitch L m t).sstatus = m.sstatus := by
  unfold taskDoSwitch
  cases m.current
  all_goals rfl

theorem taskDoSwitch_fp (hbit : m.sstatus.getLsbD 12 = false) :
    (taskDoSwitch L m t).fp = m.fp := by
  unfold taskDoSwitch
  cases m.current
  all_goals
    simp only [Machine.restoreNext, Machine.saveCurrent, fpEnabled_eq, hbit]
    rfl

end Frame

theorem bit_reachable {L : Layout T} {m : Machine T} (h : Reachable (switching L) m) :
    m.sstatus.getLsbD 12 = false := by
  apply h.invariant (fun m => m.sstatus.getLsbD 12 = false)
  · exact fun m hm => hm.2.2
  · rintro m move m' hbit hstep
    cases move with
    | work => exact hstep.2.2.sstatus
    | create t top sp bootstrap func =>
      obtain ⟨-, -, rfl⟩ := hstep
      exact hbit
    | switch next =>
      obtain ⟨-, -, rfl⟩ := hstep
      rw [taskDoSwitch_sstatus]
      exact hbit
    | exit => exact hstep.2.2.sstatus

section Example

theorem own_pages_apart (t u : Bool) (a : BitVec 64) (ht : a.toNat / 0x1000 = if t then 1 else 2)
    (hu : a.toNat / 0x1000 = if u then 1 else 2) : t = u := by
  cases t
  all_goals
    cases u
    all_goals simp_all

/-- Two tasks with the stacks from 0x1000 and from 0x2000 on. -/
def twoTasks : Layout Bool where
  pml4 t := if t then 0x8000 else 0x9000
  pointer t := if t then 0x100 else 0x300
  stack t := { a | a.toNat / 0x1000 = if t then 1 else 2 }
  apart := own_pages_apart

/-- The floating point state is dirty. -/
def boot : Machine Bool where
  regs _ := 0
  sp := 0x800
  fp i := BitVec.ofNat 64 i.val
  sepc := 0
  sscratch := 0
  satp := 0
  sstatus := 0x6000
  mem _ := 0
  ssp _ := 0
  rsp0 _ := 0
  current := none
  known _ := False

def created : Machine Bool :=
  (boot.taskCreateNew true 0x2000 7 0x5000 0x6000).taskCreateNew false 0x3000 8 0x5000 0x7000

/-- The first task has had its turn, and the second has its own. -/
def turns : Machine Bool :=
  taskDoSwitch twoTasks (taskDoSwitch twoTasks created true) false

theorem turns_reachable : Reachable (switching twoTasks) turns := by
  have hboot : Reachable (switching twoTasks) boot := .start ⟨rfl, fun _ => id, by decide⟩
  have hfirst : Reachable (switching twoTasks)
      (boot.taskCreateNew true 0x2000 7 0x5000 0x6000) := by
    refine .next (a := .create true 0x2000 7 0x5000 0x6000) hboot ⟨id, ?_, rfl⟩
    show ∀ k < 56, (cell (0x2000 - 448) k).toNat / 0x1000 = 1
    decide
  have hcreated : Reachable (switching twoTasks) created := by
    refine .next (a := .create false 0x3000 8 0x5000 0x7000) hfirst ⟨?_, ?_, rfl⟩
    · simp [Machine.taskCreateNew, boot]
    · show ∀ k < 56, (cell (0x3000 - 448) k).toNat / 0x1000 = 2
      decide
  have hknown : created.known = fun _ => True := by
    funext t
    cases t
    all_goals simp [created, Machine.taskCreateNew]
  have hturn : Reachable (switching twoTasks) (taskDoSwitch twoTasks created true) := by
    refine .next (a := .switch true) hcreated ⟨by rw [hknown]; trivial, ?_, rfl⟩
    intro cur h
    cases h
  refine .next (a := .switch false) hturn ⟨?_, ?_, rfl⟩
  · show created.known false
    rw [hknown]
    trivial
  · rintro cur ⟨⟩
    show ∀ k < 56, (cell (0x2000 - 448 + 448 - 448) k).toNat / 0x1000 = 1
    decide

end Example

end TaskSwitchRiscV
