import AnosKernel.Lib.Chains
import AnosKernel.Lib.Routines
import Mathlib.Data.BitVec

/-!
# The two implementations of lists

`kernel/arch/x86_64/structs/list.asm` and `kernel/arch/riscv64/structs/list.S`, instruction by
instruction, and the contracts of `structs/list.h` that both are for. A null pointer is zero, and
the `next` field is the first word of a node. Memory is a function from the addresses of words;
nodes, the stack and code are at different addresses.
-/

namespace Lists

open Chains Routines

abbrev Memory := BitVec 64 → BitVec 64

/-- The functions in memory that a predicate pointer may point to. They leave the nodes and the
stack of their caller as they are; `σ` is what else they may read and write. -/
abbrev Functions (σ : Type) := BitVec 64 → Option (σ → BitVec 64 → Bool × σ)

/-! ## The contracts -/

def ptr (p : BitVec 64) : Option (BitVec 64) := if p = 0 then none else some p

/-- The `next` field of a node. -/
def next (mem : Memory) (node : BitVec 64) : Option (BitVec 64) := ptr (mem node)

theorem ptr_eq_some {p x : BitVec 64} : ptr p = some x ↔ p = x ∧ x ≠ 0#64 := by
  unfold ptr
  split_ifs with h
  · constructor
    · exact fun hnone => absurd hnone (by simp)
    · rintro ⟨rfl, hne⟩
      exact absurd h hne
  · constructor
    · intro hsome
      obtain rfl := Option.some.inj hsome
      exact ⟨rfl, h⟩
    · rintro ⟨rfl, -⟩
      rfl

theorem ptr_eq_none {p : BitVec 64} : ptr p = none ↔ p = 0#64 := by
  simp [ptr]

inductive Call where
  | insertAfter (target subject : BitVec 64)
  | add (head subject : BitVec 64)
  | deleteAfter (target : BitVec 64)
  | find (head predicate : BitVec 64)

def Call.first : Call → BitVec 64
  | .insertAfter target _ => target
  | .add head _ => head
  | .deleteAfter target => target
  | .find head _ => head

def Call.subject : Call → Option (BitVec 64)
  | .insertAfter _ subject => some subject
  | .add _ subject => some subject
  | _ => none

def Call.predicate : Call → Option (BitVec 64)
  | .find _ predicate => some predicate
  | _ => none

def Call.second (call : Call) : Option (BitVec 64) := call.subject.or call.predicate

/-- The links after `list_insert_after`. -/
def insertAfter (mem : Memory) (target subject : BitVec 64) : Memory :=
  let linked := if target = 0 then mem else Function.update mem target subject
  if subject = 0 then linked
  else Function.update linked subject (if target = 0 then 0 else mem target)

section Contract

variable {σ : Type}

/-- The node a call returns, the links and what the predicate left behind. -/
structure Result (σ : Type) where
  node : BitVec 64
  mem : Memory
  env : σ

/-- The first node that is accepted, or null; the predicate sees the nodes in their order. -/
def findFirst (accepts : σ → BitVec 64 → Bool × σ) : σ → List (BitVec 64) → BitVec 64 × σ
  | env, [] => (0, env)
  | env, node :: nodes =>
    let (accepted, env') := accepts env node
    if accepted then (node, env') else findFirst accepts env' nodes

/-- What a call is for, where `nodes` is the list that starts at its first argument. -/
def contract (functions : Functions σ) (mem : Memory) (env : σ) (nodes : List (BitVec 64)) :
    Call → Result σ
  | .insertAfter target subject => ⟨subject, insertAfter mem target subject, env⟩
  | .add _ subject => ⟨subject, insertAfter mem (nodes.getLast?.getD 0) subject, env⟩
  | .deleteAfter target =>
    if target = 0 ∨ mem target = 0 then ⟨0, mem, env⟩
    else ⟨mem target,
      Function.update (Function.update mem target (mem (mem target))) (mem target) 0, env⟩
  | .find _ predicate =>
    match functions predicate with
    | none => ⟨0, mem, env⟩
    | some accepts => ⟨(findFirst accepts env nodes).1, mem, (findFirst accepts env nodes).2⟩

/-- The calls that `list.S` answers as the contract says: a deletion from a null target or behind
a target with a successor, and a search that ends at the first node. -/
def Call.Short (functions : Functions σ) (mem : Memory) (env : σ) : Call → Prop
  | .insertAfter _ _ => True
  | .add _ _ => True
  | .deleteAfter target => target = 0 ∨ mem target ≠ 0
  | .find head predicate => head = 0 ∨ predicate = 0 ∨ mem head = 0 ∨
      ∃ accepts, functions predicate = some accepts ∧ (accepts env head).1 = true

end Contract

/-! ## RISC-V -/

namespace Riscv

inductive Reg where
  | zero | ra | sp | t0 | t1 | a0 | a1
  deriving DecidableEq, Repr

inductive Label where
  | listInsertAfter | linkSubject | checkSubject | done
  | listAdd | loop | foundEnd
  | listDeleteAfter | nullTarget | deleteDone
  | listFind | findLoop | foundMatch | findDone | findNull
  deriving DecidableEq, Repr

inductive Instr where
  | beqz (rs : Reg) (target : Label)
  | bnez (rs : Reg) (target : Label)
  | j (target : Label)
  | ld (rd : Reg) (offset : BitVec 64) (base : Reg)
  | sd (rs : Reg) (offset : BitVec 64) (base : Reg)
  | li (rd : Reg) (imm : BitVec 64)
  | mv (rd rs : Reg)
  | addi (rd rs : Reg) (imm : BitVec 64)
  | jalr (rs : Reg)
  | ret

def nodeNext : BitVec 64 := 0

/-- The text of `list.S`. -/
def text : List (Label × List Instr) :=
  [(.listInsertAfter,
      [.beqz .a0 .linkSubject, .ld .t0 nodeNext .a0, .sd .a1 nodeNext .a0, .j .checkSubject]),
    (.linkSubject, [.li .t0 0]),
    (.checkSubject, [.beqz .a1 .done, .sd .t0 nodeNext .a1]),
    (.done, [.mv .a0 .a1, .ret]),
    (.listAdd, [.beqz .a0 .foundEnd]),
    (.loop, [.ld .t0 nodeNext .a0, .beqz .t0 .foundEnd, .mv .a0 .t0, .j .loop]),
    (.foundEnd, [.j .listInsertAfter]),
    (.listDeleteAfter,
      [.beqz .a0 .nullTarget, .ld .t0 nodeNext .a0, .beqz .t0 .deleteDone, .ld .t1 nodeNext .t0,
        .sd .t1 nodeNext .a0, .sd .zero nodeNext .t0, .mv .a0 .t0, .ret]),
    (.nullTarget, [.li .a0 0, .ret]),
    (.deleteDone, [.ret]),
    (.listFind,
      [.addi .sp .sp (-16), .sd .ra 8 .sp, .sd .a1 0 .sp, .beqz .a0 .findNull,
        .beqz .a1 .findNull]),
    (.findLoop,
      [.sd .a0 0 .sp, .jalr .a1, .ld .t0 0 .sp, .bnez .a0 .foundMatch, .ld .a0 nodeNext .t0,
        .beqz .a0 .findNull, .ld .a1 0 .sp, .j .findLoop]),
    (.foundMatch, [.mv .a0 .t0]),
    (.findDone, [.ld .ra 8 .sp, .addi .sp .sp 16, .ret]),
    (.findNull, [.li .a0 0, .j .findDone])]

/-- The code from a label on. -/
def code (label : Label) : List Instr := textFrom text label

/-- `pc` is where the routine has returned to. -/
structure State (σ : Type) where
  reg : Reg → BitVec 64
  mem : Memory
  env : σ
  pc : BitVec 64

section Machine

variable {σ : Type}

@[simp] def State.get (s : State σ) (r : Reg) : BitVec 64 := if r = .zero then 0 else s.reg r

@[simp] def State.set (s : State σ) (r : Reg) (v : BitVec 64) : State σ :=
  if r = .zero then s else { s with reg := Function.update s.reg r v }

@[simp] def State.store (s : State σ) (a v : BitVec 64) : State σ :=
  { s with mem := Function.update s.mem a v }

/-- What a function leaves behind: its answer as a whole register, the stack pointer as it was,
and `clobbered` in the registers it need not preserve. -/
def State.afterCall (s : State σ) (clobbered : Reg → BitVec 64) (answer : Bool) (env : σ) :
    State σ :=
  { s with
    reg := fun r =>
      match r with
      | .a0 => if answer then 1 else 0
      | .sp => s.reg .sp
      | _ => clobbered r
    env := env }

/-- `clobbered` is what functions leave in the registers they need not preserve. -/
def machine (functions : Functions σ) (clobbered : σ → Reg → BitVec 64) :
    Machine Instr (State σ)
  | .beqz rs target, rest, s => if s.get rs = 0 then .go (code target) s else .go rest s
  | .bnez rs target, rest, s => if s.get rs ≠ 0 then .go (code target) s else .go rest s
  | .j target, _, s => .go (code target) s
  | .ld rd offset base, rest, s => .go rest (s.set rd (s.mem (s.get base + offset)))
  | .sd rs offset base, rest, s => .go rest (s.store (s.get base + offset) (s.get rs))
  | .li rd imm, rest, s => .go rest (s.set rd imm)
  | .mv rd rs, rest, s => .go rest (s.set rd (s.get rs))
  | .addi rd rs imm, rest, s => .go rest (s.set rd (s.get rs + imm))
  | .jalr rs, rest, s =>
    match functions (s.get rs) with
    | none => .wild
    | some f =>
      let (answer, env) := f s.env (s.get .a0)
      .go rest (s.afterCall (clobbered s.env) answer env)
  | .ret, _, s => .leave { s with pc := s.get .ra }

end Machine

end Riscv

/-! ## x86-64 -/

namespace X86

inductive Reg where
  | rax | rdx | rbp | rsp | rsi | rdi
  deriving DecidableEq, Repr

inductive Label where
  | listInsertAfter | linkSubject | insertDone
  | listAdd | loop | foundEnd
  | listDeleteAfter | deleteNonnull | deleteDone
  | listFind | isnull | findNonnull | findDone
  deriving DecidableEq, Repr

/-- `testAl` is `test al,al`; a load and a store are a `mov` with one operand in memory. -/
inductive Instr where
  | xor (dst src : Reg)
  | test (a b : Reg)
  | testAl
  | jz (target : Label)
  | jnz (target : Label)
  | jmp (target : Label)
  | mov (dst src : Reg)
  | load (dst base : Reg) (offset : BitVec 64)
  | store (base : Reg) (offset : BitVec 64) (src : Reg)
  | storeImm (base : Reg) (offset : BitVec 64) (imm : BitVec 64)
  | push (r : Reg)
  | pop (r : Reg)
  | call (r : Reg)
  | leave
  | ret

def nodeNext : BitVec 64 := 0

/-- The text of `list.asm`. Labels that are local to a function have its name in front. -/
def text : List (Label × List Instr) :=
  [(.listInsertAfter,
      [.xor .rdx .rdx, .test .rdi .rdi, .jz .linkSubject, .load .rdx .rdi nodeNext,
        .store .rdi nodeNext .rsi]),
    (.linkSubject, [.test .rsi .rsi, .jz .insertDone, .store .rsi nodeNext .rdx]),
    (.insertDone, [.mov .rax .rsi, .ret]),
    (.listAdd, [.test .rdi .rdi, .jz .foundEnd]),
    (.loop,
      [.load .rax .rdi nodeNext, .test .rax .rax, .jz .foundEnd, .mov .rdi .rax, .jmp .loop]),
    (.foundEnd, [.jmp .listInsertAfter]),
    (.listDeleteAfter, [.test .rdi .rdi, .jnz .deleteNonnull, .xor .rax .rax, .ret]),
    (.deleteNonnull,
      [.load .rax .rdi nodeNext, .test .rax .rax, .jz .deleteDone, .load .rdx .rax nodeNext,
        .store .rdi nodeNext .rdx, .storeImm .rax nodeNext 0, .ret]),
    (.deleteDone, [.ret]),
    (.listFind,
      [.push .rbp, .mov .rbp .rsp, .test .rdi .rdi, .jz .isnull, .test .rsi .rsi,
        .jnz .findNonnull]),
    (.isnull, [.xor .rax .rax, .leave, .ret]),
    (.findNonnull,
      [.push .rdi, .push .rsi, .call .rsi, .pop .rsi, .pop .rdi, .testAl, .jnz .findDone,
        .load .rdi .rdi nodeNext, .test .rdi .rdi, .jnz .findNonnull]),
    (.findDone, [.mov .rax .rdi, .leave, .ret])]

/-- The code from a label on. -/
def code (label : Label) : List Instr := textFrom text label

/-- `rip` is where the routine has returned to. -/
structure State (σ : Type) where
  reg : Reg → BitVec 64
  zf : Bool
  mem : Memory
  env : σ
  rip : BitVec 64

section Machine

variable {σ : Type}

@[simp] def State.set (s : State σ) (r : Reg) (v : BitVec 64) : State σ :=
  { s with reg := Function.update s.reg r v }

@[simp] def State.store (s : State σ) (a v : BitVec 64) : State σ :=
  { s with mem := Function.update s.mem a v }

@[simp] def State.push (s : State σ) (v : BitVec 64) : State σ :=
  (s.store (s.reg .rsp - 8) v).set .rsp (s.reg .rsp - 8)

@[simp] def State.pop (s : State σ) (r : Reg) : State σ :=
  (s.set .rsp (s.reg .rsp + 8)).set r (s.mem (s.reg .rsp))

/-- What a function leaves behind: its answer in the low byte of `rax`, `rsp` and `rbp` as they
were, and `clobbered` in the registers it need not preserve. -/
def State.afterCall (s : State σ) (clobbered : Reg → BitVec 64) (answer : Bool) (env : σ) :
    State σ :=
  { s with
    reg := fun r =>
      match r with
      | .rax => (clobbered .rax &&& 0xffffffffffffff00) ||| (if answer then 1 else 0)
      | .rsp => s.reg .rsp
      | .rbp => s.reg .rbp
      | _ => clobbered r
    env := env }

/-- `link` is the address behind the call in `list_find`, which the call pushes. -/
def machine (functions : Functions σ) (clobbered : σ → Reg → BitVec 64) (link : BitVec 64) :
    Machine Instr (State σ)
  | .xor dst src, rest, s =>
    .go rest { s.set dst (s.reg dst ^^^ s.reg src) with zf := s.reg dst ^^^ s.reg src == 0 }
  | .test a b, rest, s => .go rest { s with zf := s.reg a &&& s.reg b == 0 }
  | .testAl, rest, s => .go rest { s with zf := (s.reg .rax).setWidth 8 == 0 }
  | .jz target, rest, s => if s.zf then .go (code target) s else .go rest s
  | .jnz target, rest, s => if s.zf then .go rest s else .go (code target) s
  | .jmp target, _, s => .go (code target) s
  | .mov dst src, rest, s => .go rest (s.set dst (s.reg src))
  | .load dst base offset, rest, s => .go rest (s.set dst (s.mem (s.reg base + offset)))
  | .store base offset src, rest, s => .go rest (s.store (s.reg base + offset) (s.reg src))
  | .storeImm base offset imm, rest, s => .go rest (s.store (s.reg base + offset) imm)
  | .push r, rest, s => .go rest (s.push (s.reg r))
  | .pop r, rest, s => .go rest (s.pop r)
  | .call r, rest, s =>
    match functions (s.reg r) with
    | none => .wild
    | some f =>
      let (answer, env) := f s.env (s.reg .rdi)
      .go rest ((s.store (s.reg .rsp - 8) link).afterCall (clobbered s.env) answer env)
  | .leave, rest, s => .go rest ((s.set .rsp (s.reg .rbp)).pop .rbp)
  | .ret, _, s => .leave { s.set .rsp (s.reg .rsp + 8) with rip := s.mem (s.reg .rsp) }

end Machine

end X86

/-! ## Executing RISC-V -/

namespace Riscv

section Rules

variable {σ : Type} {functions : Functions σ} {clobbered : σ → Reg → BitVec 64}
  {rest : List Instr} {s t : State σ} {rs rd base : Reg} {target : Label} {offset imm : BitVec 64}

@[simp] theorem returns_beqz :
    Returns (machine functions clobbered) (.beqz rs target :: rest) s t ↔
      Returns (machine functions clobbered) (if s.get rs = 0 then code target else rest) s t := by
  split_ifs with h
  · exact returns_go (if_pos h)
  · exact returns_go (if_neg h)

@[simp] theorem returns_bnez :
    Returns (machine functions clobbered) (.bnez rs target :: rest) s t ↔
      Returns (machine functions clobbered) (if s.get rs = 0 then rest else code target) s t := by
  split_ifs with h
  · exact returns_go (if_neg (not_not.mpr h))
  · exact returns_go (if_pos h)

@[simp] theorem returns_j : Returns (machine functions clobbered) (.j target :: rest) s t ↔
    Returns (machine functions clobbered) (code target) s t := returns_go rfl

@[simp] theorem returns_ld : Returns (machine functions clobbered) (.ld rd offset base :: rest) s t ↔
    Returns (machine functions clobbered) rest (s.set rd (s.mem (s.get base + offset))) t :=
  returns_go rfl

@[simp] theorem returns_sd : Returns (machine functions clobbered) (.sd rs offset base :: rest) s t ↔
    Returns (machine functions clobbered) rest (s.store (s.get base + offset) (s.get rs)) t :=
  returns_go rfl

@[simp] theorem returns_li : Returns (machine functions clobbered) (.li rd imm :: rest) s t ↔
    Returns (machine functions clobbered) rest (s.set rd imm) t := returns_go rfl

@[simp] theorem returns_mv : Returns (machine functions clobbered) (.mv rd rs :: rest) s t ↔
    Returns (machine functions clobbered) rest (s.set rd (s.get rs)) t := returns_go rfl

@[simp] theorem returns_addi : Returns (machine functions clobbered) (.addi rd rs imm :: rest) s t ↔
    Returns (machine functions clobbered) rest (s.set rd (s.get rs + imm)) t := returns_go rfl

theorem returns_jalr {f : σ → BitVec 64 → Bool × σ} (h : functions (s.get rs) = some f) :
    Returns (machine functions clobbered) (.jalr rs :: rest) s t ↔
      Returns (machine functions clobbered) rest
        (s.afterCall (clobbered s.env) (f s.env (s.get .a0)).1 (f s.env (s.get .a0)).2) t :=
  returns_go (by simp only [machine, h])

theorem not_returns_jalr (h : functions (s.get rs) = none) :
    ¬ Returns (machine functions clobbered) (.jalr rs :: rest) s t :=
  not_returns_wild (by simp only [machine, h])

@[simp] theorem returns_ret : Returns (machine functions clobbered) (.ret :: rest) s t ↔
    { s with pc := s.get .ra } = t := returns_leave rfl

end Rules

section Routines

variable {σ : Type} {functions : Functions σ} {clobbered : σ → Reg → BitVec 64} {s t : State σ}

/-- The words of the stack that the routines use. -/
def State.frame (s : State σ) : List (BitVec 64) := [s.reg .sp - 16, s.reg .sp - 8]

/-- The routine comes back to its caller with the result, whatever it has left in its frame. -/
def Meets (functions : Functions σ) (clobbered : σ → Reg → BitVec 64) (label : Label)
    (s : State σ) (result : Result σ) : Prop :=
  ∃ t, Returns (machine functions clobbered) (code label) s t ∧ t.reg .a0 = result.node ∧
    (∀ a, a ∉ s.frame → t.mem a = result.mem a) ∧ t.env = result.env ∧
    t.pc = s.reg .ra ∧ t.reg .sp = s.reg .sp

theorem meets_insertAfter (s : State σ) : Meets functions clobbered .listInsertAfter s
    ⟨s.reg .a1, insertAfter s.mem (s.reg .a0) (s.reg .a1), s.env⟩ := by
  by_cases htarget : s.reg .a0 = 0#64
  · by_cases hsubject : s.reg .a1 = 0#64
    · simp [Meets, code, text, textFrom, insertAfter, htarget, hsubject]
    · simp [Meets, code, text, textFrom, insertAfter, htarget, hsubject, nodeNext]
  · by_cases hsubject : s.reg .a1 = 0#64
    · simp [Meets, code, text, textFrom, insertAfter, htarget, hsubject, nodeNext]
    · simp [Meets, code, text, textFrom, insertAfter, htarget, hsubject, nodeNext]

/-- The walk of `list_add` to the last node of a list. -/
theorem returns_loop {s : State σ} {node : BitVec 64} {nodes : List (BitVec 64)}
    (hnode : s.reg .a0 = node) (chain : Chain (next s.mem) (next s.mem node) nodes) :
    ∃ s' : State σ, s'.reg .a0 = (node :: nodes).getLast?.getD 0 ∧ s'.reg .a1 = s.reg .a1 ∧
      s'.reg .ra = s.reg .ra ∧ s'.reg .sp = s.reg .sp ∧ s'.mem = s.mem ∧ s'.env = s.env ∧
      ∀ t, Returns (machine functions clobbered) (code .loop) s t ↔
        Returns (machine functions clobbered) (code .listInsertAfter) s' t := by
  have hloop : code .loop = [.ld .t0 nodeNext .a0, .beqz .t0 .foundEnd, .mv .a0 .t0, .j .loop] ++
      code .foundEnd := rfl
  have hend : ∀ s t, Returns (machine functions clobbered) (code .foundEnd) s t ↔
      Returns (machine functions clobbered) (code .listInsertAfter) s t := fun _ _ => returns_j
  induction nodes generalizing s node with
  | nil =>
    have hlast : s.mem node = 0#64 := ptr_eq_none.mp chain
    refine ⟨s.set .t0 0, ?_⟩
    simp [hloop, hend, hnode, hlast, nodeNext]
  | cons x nodes ih =>
    obtain ⟨hx, htail⟩ := chain
    obtain ⟨hnext, hne⟩ := ptr_eq_some.mp hx
    have hrest := @ih ((s.set .t0 x).set .a0 x) x (by simp) htail
    obtain ⟨s', hlast, ha1, hra, hsp, hmem, henv, hreturns⟩ := hrest
    refine ⟨s', ?_, by simpa using ha1, by simpa using hra, by simpa using hsp, hmem, henv, ?_⟩
    · rw [hlast, List.getLast?_cons_cons]
    · intro t
      rw [hloop, ← hreturns]
      simp [hnode, hnext, hne, nodeNext]

theorem meets_add {s : State σ} {nodes : List (BitVec 64)}
    (chain : Chain (next s.mem) (ptr (s.reg .a0)) nodes) : Meets functions clobbered .listAdd s
      ⟨s.reg .a1, insertAfter s.mem (nodes.getLast?.getD 0) (s.reg .a1), s.env⟩ := by
  have hstart : code .listAdd = .beqz .a0 .foundEnd :: code .loop := rfl
  have hend : ∀ s t, Returns (machine functions clobbered) (code .foundEnd) s t ↔
      Returns (machine functions clobbered) (code .listInsertAfter) s t := fun _ _ => returns_j
  cases nodes with
  | nil =>
    have hnull : s.reg .a0 = 0#64 := ptr_eq_none.mp chain
    have hinsert := @meets_insertAfter σ functions clobbered s
    simpa [Meets, hstart, hend, hnull] using hinsert
  | cons node nodes =>
    obtain ⟨hnode, htail⟩ := chain
    obtain ⟨hnode, hne⟩ := ptr_eq_some.mp hnode
    obtain ⟨s', hlast, ha1, hra, hsp, hmem, henv, hreturns⟩ :=
      @returns_loop σ functions clobbered s node nodes hnode htail
    have hinsert := @meets_insertAfter σ functions clobbered s'
    rw [Meets, State.frame, hlast, ha1, hra, hsp, hmem, henv] at hinsert
    rw [Meets, State.frame, hstart]
    simpa [hnode, hne, hreturns] using hinsert

/-- Without a successor `list_delete_after` returns the target itself. -/
theorem meets_deleteAfter_iff (s : State σ) (nodes : List (BitVec 64)) :
    Meets functions clobbered .listDeleteAfter s
      (contract functions s.mem s.env nodes (.deleteAfter (s.reg .a0))) ↔
        s.reg .a0 = 0 ∨ s.mem (s.reg .a0) ≠ 0 := by
  by_cases htarget : s.reg .a0 = 0#64
  · simp [Meets, code, text, textFrom, contract, htarget]
  · by_cases hnext : s.mem (s.reg .a0) = 0#64
    · simp [Meets, code, text, textFrom, contract, htarget, hnext, nodeNext]
    · simp [Meets, code, text, textFrom, contract, htarget, hnext, nodeNext]

theorem down_up (b : BitVec 64) : b + 16#64 + 18446744073709551600#64 = b := by
  rw [BitVec.add_assoc]
  simp

theorem frame_eq {s : State σ} {b : BitVec 64} (hb : s.reg .sp = b + 16#64) :
    s.frame = [b, b + 8#64] := by
  have hhigh : b + 16#64 - 8#64 = b + 8#64 := by bv_omega
  simp [State.frame, hb, hhigh]

/-- What a search writes is in its frame. -/
theorem stack_kept {s : State σ} {b : BitVec 64} (hb : s.reg .sp = b + 16#64) (v v' : BitVec 64) :
    ∀ a, a ∉ s.frame →
      Function.update (Function.update s.mem (b + 8#64) v) b v' a = s.mem a := by
  intro a ha
  simp only [frame_eq hb, List.mem_cons, List.not_mem_nil, or_false, not_or] at ha
  rw [Function.update_of_ne ha.1, Function.update_of_ne ha.2]

theorem meets_find_null {s : State σ} (hnull : s.reg .a0 = 0#64 ∨ s.reg .a1 = 0#64) :
    Meets functions clobbered .listFind s ⟨0, s.mem, s.env⟩ := by
  obtain ⟨b, hb⟩ : ∃ b, s.reg .sp = b + 16#64 := ⟨s.reg .sp - 16#64, by simp⟩
  have hslots : b + 8#64 ≠ b := by bv_omega
  by_cases hhead : s.reg .a0 = 0#64
  · simpa [Meets, code, text, textFrom, hb, down_up, hhead, hslots] using
      stack_kept hb (s.reg .ra) (s.reg .a1)
  · simpa [Meets, code, text, textFrom, hb, down_up, hhead, hnull.resolve_left hhead, hslots] using
      stack_kept hb (s.reg .ra) 0#64

section Search

variable {accepts : σ → BitVec 64 → Bool × σ} {node : BitVec 64}

/-- The first node is accepted. -/
theorem meets_find_first (hnode : s.reg .a0 = node) (hne : node ≠ 0#64)
    (hpred : s.reg .a1 ≠ 0#64) (hfun : functions (s.reg .a1) = some accepts)
    (haccepts : (accepts s.env node).1 = true) :
    Meets functions clobbered .listFind s ⟨node, s.mem, (accepts s.env node).2⟩ := by
  obtain ⟨b, hb⟩ : ∃ b, s.reg .sp = b + 16#64 := ⟨s.reg .sp - 16#64, by simp⟩
  have hslots : b + 8#64 ≠ b := by bv_omega
  simpa [Meets, code, text, textFrom, hb, down_up, hnode, hne, hpred, returns_jalr, hfun,
    State.afterCall, haccepts, hslots] using stack_kept hb (s.reg .ra) node

/-- The first node is not accepted and has no successor. -/
theorem meets_find_last (hnode : s.reg .a0 = node) (hne : node ≠ 0#64)
    (hpred : s.reg .a1 ≠ 0#64) (hfun : functions (s.reg .a1) = some accepts)
    (hrejects : (accepts s.env node).1 = false) (hlast : s.mem node = 0#64)
    (apart : node ∉ s.frame) :
    Meets functions clobbered .listFind s ⟨0, s.mem, (accepts s.env node).2⟩ := by
  obtain ⟨b, hb⟩ : ∃ b, s.reg .sp = b + 16#64 := ⟨s.reg .sp - 16#64, by simp⟩
  have hslots : b + 8#64 ≠ b := by bv_omega
  have hread := fun v v' => (stack_kept hb v v' node apart).trans hlast
  simpa [Meets, code, text, textFrom, hb, down_up, hnode, hne, hpred, returns_jalr, hfun,
    State.afterCall, hrejects, hslots, nodeNext, hread] using stack_kept hb (s.reg .ra) node

/-- The first node is not accepted and has a successor: the slot of the predicate holds the node,
and the call goes there. -/
theorem not_meets_find (hnode : s.reg .a0 = node) (hne : node ≠ 0#64)
    (hpred : s.reg .a1 ≠ 0#64) (hfun : functions (s.reg .a1) = some accepts)
    (hrejects : (accepts s.env node).1 = false) (hnext : s.mem node ≠ 0#64)
    (apart : node ∉ s.frame) (data : functions node = none) (result : Result σ) :
    ¬ Meets functions clobbered .listFind s result := by
  obtain ⟨b, hb⟩ : ∃ b, s.reg .sp = b + 16#64 := ⟨s.reg .sp - 16#64, by simp⟩
  have hread := fun v v' => stack_kept hb v v' node apart
  simp [Meets, code, text, textFrom, hb, down_up, hnode, hne, hpred, returns_jalr, hfun,
    State.afterCall, hrejects, nodeNext, hread, hnext, not_returns_jalr, data]

end Search

theorem meets_find_iff {nodes : List (BitVec 64)}
    (chain : Chain (next s.mem) (ptr (s.reg .a0)) nodes) (apart : ∀ n ∈ nodes, n ∉ s.frame)
    (data : ∀ n ∈ nodes, functions n = none) (null : functions 0 = none)
    (known : s.reg .a1 ≠ 0 → (functions (s.reg .a1)).isSome) :
    Meets functions clobbered .listFind s
      (contract functions s.mem s.env nodes (.find (s.reg .a0) (s.reg .a1))) ↔
        (Call.find (s.reg .a0) (s.reg .a1)).Short functions s.mem s.env := by
  by_cases hpred : s.reg .a1 = 0
  · have hcontract : contract functions s.mem s.env nodes (.find (s.reg .a0) (s.reg .a1)) =
        ⟨0, s.mem, s.env⟩ := by
      rw [contract, hpred]
      simp only [null]
    rw [hcontract]
    exact iff_of_true (meets_find_null (Or.inr hpred)) (Or.inr (Or.inl hpred))
  · obtain ⟨accepts, hfun⟩ := Option.isSome_iff_exists.mp (known hpred)
    rw [contract]
    simp only [hfun]
    cases nodes with
    | nil =>
      have hhead : s.reg .a0 = 0#64 := ptr_eq_none.mp chain
      exact iff_of_true (meets_find_null (Or.inl hhead)) (Or.inl hhead)
    | cons node nodes =>
      obtain ⟨hnode, htail⟩ := chain
      obtain ⟨hnode, hne⟩ := ptr_eq_some.mp hnode
      have hout := apart node List.mem_cons_self
      rw [findFirst]
      by_cases haccepts : (accepts s.env node).1 = true
      · simp only [haccepts, if_true]
        apply iff_of_true (meets_find_first hnode hne hpred hfun haccepts)
        exact Or.inr (Or.inr (Or.inr ⟨accepts, hfun, hnode ▸ haccepts⟩))
      · have hrejects : (accepts s.env node).1 = false := Bool.eq_false_iff.mpr haccepts
        simp only [hrejects]
        by_cases hnext : s.mem node = 0#64
        · obtain rfl : nodes = [] := by
            rw [next, hnext] at htail
            exact Chain.eq_nil htail
          apply iff_of_true (meets_find_last hnode hne hpred hfun hrejects hnext hout)
          exact Or.inr (Or.inr (Or.inl (hnode ▸ hnext)))
        · apply iff_of_false
          · exact not_meets_find hnode hne hpred hfun hrejects hnext hout
              (data node List.mem_cons_self) _
          · rw [Call.Short, hnode]
            rintro (hzero | hzero | hzero | ⟨f, hf, htrue⟩)
            · exact hne hzero
            · exact hpred hzero
            · exact hnext hzero
            · obtain rfl := Option.some.inj (hf.symm.trans hfun)
              exact haccepts htrue

end Routines

end Riscv

/-! ## Executing x86-64 -/

namespace X86

section Rules

variable {σ : Type} {functions : Functions σ} {clobbered : σ → Reg → BitVec 64} {link : BitVec 64}
  {rest : List Instr} {s t : State σ} {a b dst src base r : Reg} {target : Label}
  {offset imm : BitVec 64}

@[simp] theorem returns_xor :
    Returns (machine functions clobbered link) (.xor dst src :: rest) s t ↔
      Returns (machine functions clobbered link) rest
        { s.set dst (s.reg dst ^^^ s.reg src) with zf := s.reg dst ^^^ s.reg src == 0 } t :=
  returns_go rfl

@[simp] theorem returns_test :
    Returns (machine functions clobbered link) (.test a b :: rest) s t ↔
      Returns (machine functions clobbered link) rest
        { s with zf := s.reg a &&& s.reg b == 0 } t := returns_go rfl

@[simp] theorem returns_testAl :
    Returns (machine functions clobbered link) (.testAl :: rest) s t ↔
      Returns (machine functions clobbered link) rest
        { s with zf := (s.reg .rax).setWidth 8 == 0 } t := returns_go rfl

@[simp] theorem returns_jz : Returns (machine functions clobbered link) (.jz target :: rest) s t ↔
    Returns (machine functions clobbered link) (if s.zf then code target else rest) s t := by
  split_ifs with h
  · exact returns_go (if_pos h)
  · exact returns_go (if_neg h)

@[simp] theorem returns_jnz :
    Returns (machine functions clobbered link) (.jnz target :: rest) s t ↔
      Returns (machine functions clobbered link) (if s.zf then rest else code target) s t := by
  split_ifs with h
  · exact returns_go (if_pos h)
  · exact returns_go (if_neg h)

@[simp] theorem returns_jmp :
    Returns (machine functions clobbered link) (.jmp target :: rest) s t ↔
      Returns (machine functions clobbered link) (code target) s t := returns_go rfl

@[simp] theorem returns_mov :
    Returns (machine functions clobbered link) (.mov dst src :: rest) s t ↔
      Returns (machine functions clobbered link) rest (s.set dst (s.reg src)) t := returns_go rfl

@[simp] theorem returns_load :
    Returns (machine functions clobbered link) (.load dst base offset :: rest) s t ↔
      Returns (machine functions clobbered link) rest
        (s.set dst (s.mem (s.reg base + offset))) t := returns_go rfl

@[simp] theorem returns_store :
    Returns (machine functions clobbered link) (.store base offset src :: rest) s t ↔
      Returns (machine functions clobbered link) rest
        (s.store (s.reg base + offset) (s.reg src)) t := returns_go rfl

@[simp] theorem returns_storeImm :
    Returns (machine functions clobbered link) (.storeImm base offset imm :: rest) s t ↔
      Returns (machine functions clobbered link) rest (s.store (s.reg base + offset) imm) t :=
  returns_go rfl

@[simp] theorem returns_push : Returns (machine functions clobbered link) (.push r :: rest) s t ↔
    Returns (machine functions clobbered link) rest (s.push (s.reg r)) t := returns_go rfl

@[simp] theorem returns_pop : Returns (machine functions clobbered link) (.pop r :: rest) s t ↔
    Returns (machine functions clobbered link) rest (s.pop r) t := returns_go rfl

theorem returns_call {f : σ → BitVec 64 → Bool × σ} (h : functions (s.reg r) = some f) :
    Returns (machine functions clobbered link) (.call r :: rest) s t ↔
      Returns (machine functions clobbered link) rest
        ((s.store (s.reg .rsp - 8) link).afterCall (clobbered s.env) (f s.env (s.reg .rdi)).1
          (f s.env (s.reg .rdi)).2) t :=
  returns_go (by simp only [machine, h])

@[simp] theorem returns_leave :
    Returns (machine functions clobbered link) (.leave :: rest) s t ↔
      Returns (machine functions clobbered link) rest ((s.set .rsp (s.reg .rbp)).pop .rbp) t :=
  returns_go rfl

@[simp] theorem returns_ret : Returns (machine functions clobbered link) (.ret :: rest) s t ↔
    { s.set .rsp (s.reg .rsp + 8) with rip := s.mem (s.reg .rsp) } = t :=
  Routines.returns_leave rfl

end Rules

section Routines

variable {σ : Type} {functions : Functions σ} {clobbered : σ → Reg → BitVec 64} {link : BitVec 64}
  {s t : State σ}

/-- The words of the stack that the routines use. -/
def State.frame (s : State σ) : List (BitVec 64) :=
  [s.reg .rsp - 8, s.reg .rsp - 16, s.reg .rsp - 24, s.reg .rsp - 32]

/-- The routine comes back to its caller with the result, whatever it has left in its frame. -/
def Meets (functions : Functions σ) (clobbered : σ → Reg → BitVec 64) (link : BitVec 64)
    (label : Label) (s : State σ) (result : Result σ) : Prop :=
  ∃ t, Returns (machine functions clobbered link) (code label) s t ∧ t.reg .rax = result.node ∧
    (∀ a, a ∉ s.frame → t.mem a = result.mem a) ∧ t.env = result.env ∧
    t.rip = s.mem (s.reg .rsp) ∧ t.reg .rsp = s.reg .rsp + 8 ∧ t.reg .rbp = s.reg .rbp

theorem meets_insertAfter (s : State σ) (htop : s.reg .rdi ≠ 0 → s.reg .rsp ≠ s.reg .rdi)
    (htop' : s.reg .rsi ≠ 0 → s.reg .rsp ≠ s.reg .rsi) :
    Meets functions clobbered link .listInsertAfter s
      ⟨s.reg .rsi, insertAfter s.mem (s.reg .rdi) (s.reg .rsi), s.env⟩ := by
  by_cases htarget : s.reg .rdi = 0#64
  · by_cases hsubject : s.reg .rsi = 0#64
    · simp [Meets, code, text, textFrom, insertAfter, htarget, hsubject]
    · simp [Meets, code, text, textFrom, insertAfter, htarget, hsubject, nodeNext,
        htop' hsubject]
  · by_cases hsubject : s.reg .rsi = 0#64
    · simp [Meets, code, text, textFrom, insertAfter, htarget, hsubject, nodeNext, htop htarget]
    · simp [Meets, code, text, textFrom, insertAfter, htarget, hsubject, nodeNext, htop htarget,
        htop' hsubject]

/-- The walk of `list_add` to the last node of a list. -/
theorem returns_loop {s : State σ} {node : BitVec 64} {nodes : List (BitVec 64)}
    (hnode : s.reg .rdi = node) (chain : Chain (next s.mem) (next s.mem node) nodes) :
    ∃ s' : State σ, s'.reg .rdi = (node :: nodes).getLast?.getD 0 ∧ s'.reg .rsi = s.reg .rsi ∧
      s'.reg .rsp = s.reg .rsp ∧ s'.reg .rbp = s.reg .rbp ∧ s'.mem = s.mem ∧ s'.env = s.env ∧
      ∀ t, Returns (machine functions clobbered link) (code .loop) s t ↔
        Returns (machine functions clobbered link) (code .listInsertAfter) s' t := by
  have hloop : code .loop = [.load .rax .rdi nodeNext, .test .rax .rax, .jz .foundEnd,
      .mov .rdi .rax, .jmp .loop] ++ code .foundEnd := rfl
  have hend : ∀ s t, Returns (machine functions clobbered link) (code .foundEnd) s t ↔
      Returns (machine functions clobbered link) (code .listInsertAfter) s t :=
    fun _ _ => returns_jmp
  induction nodes generalizing s node with
  | nil =>
    have hlast : s.mem node = 0#64 := ptr_eq_none.mp chain
    refine ⟨{ s.set .rax 0 with zf := true }, ?_⟩
    simp [hloop, hend, hnode, hlast, nodeNext]
  | cons x nodes ih =>
    obtain ⟨hx, htail⟩ := chain
    obtain ⟨hnext, hne⟩ := ptr_eq_some.mp hx
    have hrest := @ih { (s.set .rax x).set .rdi x with zf := x == 0#64 } x (by simp) htail
    obtain ⟨s', hlast, hrsi, hrsp, hrbp, hmem, henv, hreturns⟩ := hrest
    refine ⟨s', ?_, by simpa using hrsi, by simpa using hrsp, by simpa using hrbp, hmem, henv, ?_⟩
    · rw [hlast, List.getLast?_cons_cons]
    · intro t
      rw [hloop, ← hreturns]
      simp [hnode, hnext, hne, nodeNext]

theorem meets_add {s : State σ} {nodes : List (BitVec 64)}
    (chain : Chain (next s.mem) (ptr (s.reg .rdi)) nodes)
    (htop : ∀ n ∈ nodes, s.reg .rsp ≠ n) (htop' : s.reg .rsi ≠ 0 → s.reg .rsp ≠ s.reg .rsi) :
    Meets functions clobbered link .listAdd s
      ⟨s.reg .rsi, insertAfter s.mem (nodes.getLast?.getD 0) (s.reg .rsi), s.env⟩ := by
  have hstart : code .listAdd = .test .rdi .rdi :: .jz .foundEnd :: code .loop := rfl
  have hend : ∀ s t, Returns (machine functions clobbered link) (code .foundEnd) s t ↔
      Returns (machine functions clobbered link) (code .listInsertAfter) s t :=
    fun _ _ => returns_jmp
  cases nodes with
  | nil =>
    have hnull : s.reg .rdi = 0#64 := ptr_eq_none.mp chain
    have hinsert := @meets_insertAfter σ functions clobbered link { s with zf := true }
      (fun hne => absurd hnull hne) htop'
    simpa [Meets, State.frame, hstart, hend, hnull] using hinsert
  | cons node nodes =>
    obtain ⟨hnode, htail⟩ := chain
    obtain ⟨hnode, hne⟩ := ptr_eq_some.mp hnode
    obtain ⟨s', hlast, hrsi, hrsp, hrbp, hmem, henv, hreturns⟩ :=
      @returns_loop σ functions clobbered link { s with zf := node == 0#64 } node nodes hnode htail
    have hmem' : (node :: nodes).getLast?.getD 0 ∈ node :: nodes := by
      rw [List.getLast?_eq_some_getLast (List.cons_ne_nil _ _)]
      exact List.getLast_mem _
    have hinsert := @meets_insertAfter σ functions clobbered link s'
      (fun _ => by rw [hrsp, hlast]; exact htop _ hmem') (by rw [hrsp, hrsi]; exact htop')
    rw [Meets, State.frame, hlast, hrsi, hrsp, hrbp, hmem, henv] at hinsert
    rw [Meets, State.frame, hstart]
    simpa [hnode, hne, hreturns] using hinsert

theorem meets_deleteAfter {s : State σ} {nodes : List (BitVec 64)}
    (chain : Chain (next s.mem) (ptr (s.reg .rdi)) nodes) (htop : ∀ n ∈ nodes, s.reg .rsp ≠ n) :
    Meets functions clobbered link .listDeleteAfter s
      (contract functions s.mem s.env nodes (.deleteAfter (s.reg .rdi))) := by
  by_cases htarget : s.reg .rdi = 0#64
  · simp [Meets, code, text, textFrom, contract, htarget]
  · have hptr : ptr (s.reg .rdi) = some (s.reg .rdi) := ptr_eq_some.mpr ⟨rfl, htarget⟩
    rw [hptr] at chain
    obtain ⟨rest, rfl, htail⟩ := chain.cons_of_some
    by_cases hnext : s.mem (s.reg .rdi) = 0#64
    · simp [Meets, code, text, textFrom, contract, htarget, hnext, nodeNext]
    · have hptr' : next s.mem (s.reg .rdi) = some (s.mem (s.reg .rdi)) :=
        ptr_eq_some.mpr ⟨rfl, hnext⟩
      rw [hptr'] at htail
      obtain ⟨rest, rfl, -⟩ := htail.cons_of_some
      have hfirst := htop _ List.mem_cons_self
      have hsecond := htop _ (List.mem_cons_of_mem _ List.mem_cons_self)
      simp [Meets, code, text, textFrom, contract, htarget, hnext, nodeNext, hfirst, hsecond]

theorem sub_ne (e : BitVec 64) : e - 8#64 ≠ e ∧ e - 8#64 - 8#64 ≠ e ∧ e - 8#64 - 8#64 - 8#64 ≠ e ∧
    e - 8#64 - 8#64 - 8#64 - 8#64 ≠ e := by
  simp only [sub_sub, ne_eq, sub_eq_self]
  decide

/-- The answer is in the low byte of `rax`. -/
theorem low_byte (s : State σ) (clobbered : Reg → BitVec 64) (answer : Bool) (env : σ) :
    (((s.afterCall clobbered answer env).reg .rax).setWidth 8 == 0#8) = !answer := by
  have hmask : (0xffffffffffffff00 : BitVec 64).setWidth 8 = 0#8 := by decide
  rw [State.afterCall, BitVec.setWidth_or, BitVec.setWidth_and, hmask, BitVec.and_zero,
    BitVec.zero_or]
  cases answer with
  | true => decide
  | false => decide

/-- The words of the stack below the saved `rbp`, where `e` holds the return address. -/
def slots (e : BitVec 64) : List (BitVec 64) :=
  [e - 8#64 - 8#64, e - 8#64 - 8#64 - 8#64, e - 8#64 - 8#64 - 8#64 - 8#64]

section Search

variable {accepts : σ → BitVec 64 → Bool × σ} {node e : BitVec 64}

/-- In the loop of `list_find`, at a node. -/
structure Searching (functions : Functions σ) (accepts : σ → BitVec 64 → Bool × σ)
    (e node : BitVec 64) (s : State σ) : Prop where
  rdi : s.reg .rdi = node
  rsi : functions (s.reg .rsi) = some accepts
  rbp : s.reg .rbp = e - 8#64
  rsp : s.reg .rsp = e - 8#64

/-- The registers and the stack when the predicate has returned. -/
def State.called (s : State σ) (clobbered : σ → Reg → BitVec 64) (link : BitVec 64)
    (outcome : Bool × σ) : State σ :=
  (((s.push (s.reg .rdi)).push (s.reg .rsi)).store (s.reg .rsp - 8 - 8 - 8) link).afterCall
    (clobbered s.env) outcome.1 outcome.2

/-- One call of the predicate. -/
theorem returns_predicate (h : Searching functions accepts e node s) :
    ∃ s' : State σ, Searching functions accepts e node s' ∧
      s'.zf = !(accepts s.env node).1 ∧ s'.env = (accepts s.env node).2 ∧
      (∀ a, a ∉ slots e → s'.mem a = s.mem a) ∧
      ∀ t, Returns (machine functions clobbered link) (code .findNonnull) s t ↔
        Returns (machine functions clobbered link)
          (.jnz .findDone :: .load .rdi .rdi nodeNext :: .test .rdi .rdi :: .jnz .findNonnull ::
            code .findDone) s' t := by
  obtain ⟨hrdi, hrsi, hrbp, hrsp⟩ := h
  have htext : code .findNonnull = .push .rdi :: .push .rsi :: .call .rsi :: .pop .rsi ::
      .pop .rdi :: .testAl :: .jnz .findDone :: .load .rdi .rdi nodeNext :: .test .rdi .rdi ::
      .jnz .findNonnull :: code .findDone := rfl
  have hcall : ∀ rest t, Returns (machine functions clobbered link)
      (.push .rdi :: .push .rsi :: .call .rsi :: rest) s t ↔
      Returns (machine functions clobbered link) rest
        (s.called clobbered link (accepts s.env node)) t := by
    intro rest t
    have hfun : functions (((s.push (s.reg .rdi)).push
        ((s.push (s.reg .rdi)).reg .rsi)).reg .rsi) = some accepts := hrsi
    rw [returns_push, returns_push, returns_call hfun, ← hrdi]
    rfl
  refine ⟨{ ((s.called clobbered link (accepts s.env node)).pop .rsi).pop .rdi with
    zf := !(accepts s.env node).1 }, ?_, rfl, rfl, ?_, ?_⟩
  · obtain ⟨h1, h2, -⟩ := sub_ne (e - 8#64 - 8#64)
    obtain ⟨h3, -⟩ := sub_ne (e - 8#64 - 8#64 - 8#64)
    constructor
    · simp [State.called, State.afterCall, hrsp, hrdi, h1.symm, h2.symm]
    · simpa [State.called, State.afterCall, hrsp, h3.symm] using hrsi
    · simpa [State.called, State.afterCall] using hrbp
    · simp [State.called, State.afterCall, hrsp]
  · intro a ha
    simp only [slots, List.mem_cons, List.not_mem_nil, or_false, not_or] at ha
    simp [State.called, State.afterCall, hrsp, ha.1, ha.2.1, ha.2.2]
  · intro t
    rw [htext, hcall, returns_pop, returns_pop, returns_testAl]
    have hzf := low_byte
      (((s.push (s.reg .rdi)).push (s.reg .rsi)).store (s.reg .rsp - 8 - 8 - 8) link)
      (clobbered s.env) (accepts s.env node).1 (accepts s.env node).2
    rw [← hzf]
    rfl

/-- The end of `list_find`. -/
theorem returns_done (hrbp : s.reg .rbp = e - 8#64) :
    ∃ t, Returns (machine functions clobbered link) (code .findDone) s t ∧
      t.reg .rax = s.reg .rdi ∧ t.env = s.env ∧ t.mem = s.mem ∧ t.rip = s.mem e ∧
      t.reg .rsp = e + 8 ∧ t.reg .rbp = s.mem (e - 8) := by
  have hdone : code .findDone = [.mov .rax .rdi, .leave, .ret] := rfl
  simp [hdone, hrbp]

theorem top_not_mem_slots (e : BitVec 64) : e ∉ slots e ∧ e - 8 ∉ slots e := by
  obtain ⟨-, h2, h3, h4⟩ := sub_ne e
  obtain ⟨h1', h2', h3', -⟩ := sub_ne (e - 8#64)
  constructor
  · simp [slots, h2.symm, h3.symm, h4.symm]
  · simp [slots, h1'.symm, h2'.symm, h3'.symm]

/-- The routine comes back from the loop, where it was entered in the state `s`. -/
def Found (functions : Functions σ) (clobbered : σ → Reg → BitVec 64) (link e : BitVec 64)
    (s : State σ) (outcome : BitVec 64 × σ) : Prop :=
  ∃ t, Returns (machine functions clobbered link) (code .findNonnull) s t ∧
    t.reg .rax = outcome.1 ∧ t.env = outcome.2 ∧ (∀ a, a ∉ slots e → t.mem a = s.mem a) ∧
    t.rip = s.mem e ∧ t.reg .rsp = e + 8 ∧ t.reg .rbp = s.mem (e - 8)

theorem found_accepted (h : Searching functions accepts e node s)
    (haccepts : (accepts s.env node).1 = true) :
    Found functions clobbered link e s (node, (accepts s.env node).2) := by
  obtain ⟨s', hs', hzf, henv, hmem, hreturns⟩ :=
    @returns_predicate σ functions clobbered link s accepts node e h
  obtain ⟨htop, htop'⟩ := top_not_mem_slots e
  obtain ⟨t, ht, hrax, htenv, htmem, hrest⟩ :=
    @returns_done σ functions clobbered link s' e hs'.rbp
  rw [Found, ← hmem e htop, ← hmem _ htop']
  refine ⟨t, ?_, hrax.trans hs'.rdi, htenv.trans henv, ?_, hrest⟩
  · rw [hreturns, returns_jnz, hzf, haccepts]
    exact ht
  · rw [htmem]
    exact hmem

theorem found_none (h : Searching functions accepts e node s)
    (hrejects : (accepts s.env node).1 = false) (hlast : s.mem node = 0#64)
    (apart : node ∉ slots e) :
    Found functions clobbered link e s (0, (accepts s.env node).2) := by
  obtain ⟨s', hs', hzf, henv, hmem, hreturns⟩ :=
    @returns_predicate σ functions clobbered link s accepts node e h
  obtain ⟨htop, htop'⟩ := top_not_mem_slots e
  have hread : s'.mem node = 0#64 := (hmem node apart).trans hlast
  obtain ⟨t, ht, hrax, htenv, htmem, hrest⟩ := @returns_done σ functions clobbered link
    { s'.set .rdi 0 with zf := true } e (by simp [hs'.rbp])
  rw [Found, ← hmem e htop, ← hmem _ htop']
  refine ⟨t, ?_, hrax.trans (by simp), htenv.trans henv, ?_, hrest⟩
  · rw [hreturns, returns_jnz, hzf, hrejects]
    simpa [hs'.rdi, nodeNext, hread] using ht
  · rw [htmem]
    exact hmem

/-- The search from a node on. -/
theorem found_first {nodes : List (BitVec 64)} (h : Searching functions accepts e node s)
    (chain : Chain (next s.mem) (next s.mem node) nodes)
    (apart : ∀ n ∈ node :: nodes, n ∉ slots e) :
    Found functions clobbered link e s (findFirst accepts s.env (node :: nodes)) := by
  induction nodes generalizing s node with
  | nil =>
    rw [findFirst]
    cases haccepts : (accepts s.env node).1 with
    | true =>
      simp only [haccepts, if_true]
      exact found_accepted h haccepts
    | false =>
      simp only [haccepts]
      exact found_none h haccepts (ptr_eq_none.mp chain) (apart node List.mem_cons_self)
  | cons x nodes ih =>
    rw [findFirst]
    cases haccepts : (accepts s.env node).1 with
    | true =>
      simp only [haccepts, if_true]
      exact found_accepted h haccepts
    | false =>
      simp only [haccepts]
      obtain ⟨s', hs', hzf, henv, hmem, hreturns⟩ :=
        @returns_predicate σ functions clobbered link s accepts node e h
      obtain ⟨hx, htail⟩ := chain
      obtain ⟨hnext, hne⟩ := ptr_eq_some.mp hx
      have hread : s'.mem node = x := (hmem node (apart node List.mem_cons_self)).trans hnext
      obtain ⟨htop, htop'⟩ := top_not_mem_slots e
      have hs'' : Searching functions accepts e x { s'.set .rdi x with zf := x == 0#64 } :=
        ⟨by simp, by simpa using hs'.rsi, by simpa using hs'.rbp, by simpa using hs'.rsp⟩
      have htail' : Chain (next s'.mem) (next s'.mem x) nodes := by
        have hsame : ∀ n ∈ x :: nodes, next s'.mem n = next s.mem n := by
          intro n hn
          rw [next, hmem n (apart n (List.mem_cons_of_mem _ hn)), next]
        rw [hsame x List.mem_cons_self]
        exact Seg.congr htail fun n hn => hsame n (List.mem_cons_of_mem _ hn)
      obtain ⟨t, ht, hrax, htenv, htmem, hrest⟩ :=
        ih hs'' htail' (fun n hn => apart n (List.mem_cons_of_mem _ hn))
      rw [Found, ← hmem e htop, ← hmem _ htop', ← henv]
      refine ⟨t, ?_, hrax, htenv, ?_, hrest⟩
      · rw [hreturns, returns_jnz, hzf, haccepts]
        simpa [hs'.rdi, nodeNext, hread, hne] using ht
      · exact fun a ha => (htmem a ha).trans (hmem a ha)

theorem not_mem_frame {a : BitVec 64} : a ∉ s.frame ↔
    a ≠ s.reg .rsp - 8 ∧ a ∉ slots (s.reg .rsp) := by
  simp [State.frame, slots, sub_sub]

theorem meets_find_null (hnull : s.reg .rdi = 0#64 ∨ s.reg .rsi = 0#64) :
    Meets functions clobbered link .listFind s ⟨0, s.mem, s.env⟩ := by
  obtain ⟨hne, -⟩ := sub_ne (s.reg .rsp)
  have hkept : ∀ a, a ∉ s.frame →
      Function.update s.mem (s.reg .rsp - 8#64) (s.reg .rbp) a = s.mem a :=
    fun a ha => Function.update_of_ne (not_mem_frame.mp ha).1 _ _
  by_cases hhead : s.reg .rdi = 0#64
  · simpa [Meets, code, text, textFrom, hhead, hne.symm] using hkept
  · simpa [Meets, code, text, textFrom, hhead, hnull.resolve_left hhead, hne.symm] using hkept

theorem meets_find {nodes : List (BitVec 64)}
    (chain : Chain (next s.mem) (ptr (s.reg .rdi)) nodes) (apart : ∀ n ∈ nodes, n ∉ s.frame)
    (null : functions 0 = none) (known : s.reg .rsi ≠ 0 → (functions (s.reg .rsi)).isSome) :
    Meets functions clobbered link .listFind s
      (contract functions s.mem s.env nodes (.find (s.reg .rdi) (s.reg .rsi))) := by
  by_cases hpred : s.reg .rsi = 0
  · have hcontract : contract functions s.mem s.env nodes (.find (s.reg .rdi) (s.reg .rsi)) =
        ⟨0, s.mem, s.env⟩ := by
      rw [contract, hpred]
      simp only [null]
    rw [hcontract]
    exact meets_find_null (Or.inr hpred)
  · obtain ⟨accepts, hfun⟩ := Option.isSome_iff_exists.mp (known hpred)
    rw [contract]
    simp only [hfun]
    cases nodes with
    | nil => exact meets_find_null (Or.inl (ptr_eq_none.mp chain))
    | cons node nodes =>
      obtain ⟨hnode, htail⟩ := chain
      obtain ⟨hnode, hne⟩ := ptr_eq_some.mp hnode
      obtain ⟨htop, -⟩ := sub_ne (s.reg .rsp)
      have hentry : code .listFind = .push .rbp :: .mov .rbp .rsp :: .test .rdi .rdi ::
          .jz .isnull :: .test .rsi .rsi :: .jnz .findNonnull :: code .isnull := rfl
      let entered : State σ :=
        { ((s.push (s.reg .rbp)).set .rbp (s.reg .rsp - 8)) with zf := s.reg .rsi == 0 }
      have hmem : ∀ a, a ∉ s.frame → entered.mem a = s.mem a :=
        fun a ha => Function.update_of_ne (not_mem_frame.mp ha).1 _ _
      have hsearching : Searching functions accepts (s.reg .rsp) node entered :=
        ⟨hnode, hfun, rfl, rfl⟩
      have htail' : Chain (next entered.mem) (next entered.mem node) nodes := by
        have hsame : ∀ n ∈ node :: nodes, next entered.mem n = next s.mem n := by
          intro n hn
          rw [next, hmem n (apart n hn), next]
        rw [hsame node List.mem_cons_self]
        exact Seg.congr htail fun n hn => hsame n (List.mem_cons_of_mem _ hn)
      obtain ⟨t, ht, hrax, henv, htmem, hrip, hrsp, hrbp⟩ :=
        @found_first σ functions clobbered link entered accepts node (s.reg .rsp) nodes
          hsearching htail' (fun n hn => (not_mem_frame.mp (apart n hn)).2)
      refine ⟨t, ?_, hrax, ?_, henv, ?_, hrsp, ?_⟩
      · have hpred' : s.reg .rsi ≠ 0#64 := hpred
        rw [hentry]
        simpa [hnode, hne, hpred', entered] using ht
      · exact fun a ha => (htmem a (not_mem_frame.mp ha).2).trans (hmem a ha)
      · exact hrip.trans (Function.update_of_ne htop.symm _ _)
      · exact hrbp.trans (Function.update_self _ _ _)

end Search

end Routines

end X86

/-! ## Both implementations -/

def X86.entry : Call → X86.Label
  | .insertAfter _ _ => .listInsertAfter
  | .add _ _ => .listAdd
  | .deleteAfter _ => .listDeleteAfter
  | .find _ _ => .listFind

def Riscv.entry : Call → Riscv.Label
  | .insertAfter _ _ => .listInsertAfter
  | .add _ _ => .listAdd
  | .deleteAfter _ => .listDeleteAfter
  | .find _ _ => .listFind

section Both

variable {σ : Type}

/-- The call is made with its arguments in their registers. -/
structure X86.Entered (s : X86.State σ) (mem : Memory) (env : σ) (call : Call) : Prop where
  mem : s.mem = mem
  env : s.env = env
  first : s.reg .rdi = call.first
  second : ∀ v, call.second = some v → s.reg .rsi = v

structure Riscv.Entered (s : Riscv.State σ) (mem : Memory) (env : σ) (call : Call) : Prop where
  mem : s.mem = mem
  env : s.env = env
  first : s.reg .a0 = call.first
  second : ∀ v, call.second = some v → s.reg .a1 = v

/-- The arguments are what `list.h` takes: a list that ends, a subject that is null or a node and a
predicate that is null or a function. Nodes, functions and the words of the stack are apart. -/
structure Arguments (functions : Functions σ) (mem : Memory) (nodes stack : List (BitVec 64))
    (call : Call) : Prop where
  chain : Chain (next mem) (ptr call.first) nodes
  apart : ∀ n ∈ nodes, n ∉ stack
  data : ∀ n ∈ nodes, functions n = none
  null : functions 0 = none
  subject : ∀ v, call.subject = some v → v ≠ 0 → v ∉ stack
  predicate : ∀ p, call.predicate = some p → p ≠ 0 → (functions p).isSome

/-- Both implementations return what the contract says and leave the links it says. -/
def Agree (functions : Functions σ) (x86Clobbered : σ → X86.Reg → BitVec 64)
    (riscvClobbered : σ → Riscv.Reg → BitVec 64) (link : BitVec 64) (x : X86.State σ)
    (r : Riscv.State σ) (mem : Memory) (env : σ) (nodes : List (BitVec 64)) (call : Call) : Prop :=
  X86.Meets functions x86Clobbered link (X86.entry call) x
      (contract functions mem env nodes call) ∧
    Riscv.Meets functions riscvClobbered (Riscv.entry call) r
      (contract functions mem env nodes call)

variable {functions : Functions σ} {x86Clobbered : σ → X86.Reg → BitVec 64}
  {riscvClobbered : σ → Riscv.Reg → BitVec 64} {link : BitVec 64} {x : X86.State σ}
  {r : Riscv.State σ} {mem : Memory} {env : σ} {nodes : List (BitVec 64)} {call : Call}

theorem x86_meets_contract (hx : X86.Entered x mem env call)
    (args : Arguments functions mem nodes (x.reg .rsp :: x.frame) call) :
    X86.Meets functions x86Clobbered link (X86.entry call) x
      (contract functions mem env nodes call) := by
  obtain ⟨rfl, rfl, hfirst, hsecond⟩ := hx
  have hchain := args.chain
  rw [← hfirst] at hchain
  have hnodes : ∀ n ∈ nodes, x.reg .rsp ≠ n := by
    rintro n hn rfl
    exact args.apart _ hn List.mem_cons_self
  have hframe : ∀ n ∈ nodes, n ∉ x.frame :=
    fun n hn hmem => args.apart n hn (List.mem_cons_of_mem _ hmem)
  cases call with
  | insertAfter target subject =>
    obtain rfl := hfirst
    obtain rfl := hsecond subject rfl
    apply X86.meets_insertAfter
    · intro hne
      apply hnodes
      rw [show ptr (x.reg .rdi) = some (x.reg .rdi) from ptr_eq_some.mpr ⟨rfl, hne⟩] at hchain
      obtain ⟨rest, rfl, -⟩ := hchain.cons_of_some
      exact List.mem_cons_self
    · intro hne heq
      exact args.subject _ rfl hne (heq ▸ List.mem_cons_self)
  | add head subject =>
    obtain rfl := hfirst
    obtain rfl := hsecond subject rfl
    apply X86.meets_add hchain hnodes
    intro hne heq
    exact args.subject _ rfl hne (heq ▸ List.mem_cons_self)
  | deleteAfter target =>
    obtain rfl := hfirst
    exact X86.meets_deleteAfter hchain hnodes
  | find head predicate =>
    obtain rfl := hfirst
    obtain rfl := hsecond predicate rfl
    exact X86.meets_find hchain hframe args.null (args.predicate _ rfl)

theorem riscv_meets_contract_iff (hr : Riscv.Entered r mem env call)
    (args : Arguments functions mem nodes r.frame call) :
    Riscv.Meets functions riscvClobbered (Riscv.entry call) r
      (contract functions mem env nodes call) ↔ call.Short functions mem env := by
  obtain ⟨rfl, rfl, hfirst, hsecond⟩ := hr
  have hchain := args.chain
  rw [← hfirst] at hchain
  cases call with
  | insertAfter target subject =>
    obtain rfl := hfirst
    obtain rfl := hsecond subject rfl
    exact iff_of_true (Riscv.meets_insertAfter r) trivial
  | add head subject =>
    obtain rfl := hfirst
    obtain rfl := hsecond subject rfl
    exact iff_of_true (Riscv.meets_add hchain) trivial
  | deleteAfter target =>
    obtain rfl := hfirst
    exact Riscv.meets_deleteAfter_iff r nodes
  | find head predicate =>
    obtain rfl := hfirst
    obtain rfl := hsecond predicate rfl
    exact Riscv.meets_find_iff hchain args.apart args.data args.null (args.predicate _ rfl)

theorem Arguments.stack_mono {stack stack' : List (BitVec 64)}
    (args : Arguments functions mem nodes stack call) (sub : ∀ a ∈ stack', a ∈ stack) :
    Arguments functions mem nodes stack' call :=
  ⟨args.chain, fun n hn hmem => args.apart n hn (sub n hmem), args.data, args.null,
    fun v hv hne hmem => args.subject v hv hne (sub v hmem), args.predicate⟩

/-- On every list and with all arguments, both implementations do what `list.h` says exactly when
a deletion has no target or finds a node to delete, and a search ends at the first node. -/
theorem implementations_agree_iff (hx : X86.Entered x mem env call)
    (hr : Riscv.Entered r mem env call)
    (args : Arguments functions mem nodes (x.reg .rsp :: x.frame ++ r.frame) call) :
    Agree functions x86Clobbered riscvClobbered link x r mem env nodes call ↔
      call.Short functions mem env := by
  have hxargs : Arguments functions mem nodes (x.reg .rsp :: x.frame) call :=
    args.stack_mono fun a ha => List.mem_append_left _ ha
  have hrargs : Arguments functions mem nodes r.frame call :=
    args.stack_mono fun a ha => List.mem_append_right _ ha
  rw [Agree, riscv_meets_contract_iff hr hrargs]
  exact and_iff_right (x86_meets_contract hx hxargs)

/-- Two nodes, the first at 0x1000. -/
def twoNodes : Memory := fun a => if a = 0x1000 then 0x2000 else 0

/-- The function at 0x5000 accepts the second node only. -/
def acceptsSecond : Functions Unit :=
  fun a => if a = 0x5000 then some fun env node => (node == 0x2000, env) else none

def x86Entry (call : Call) : X86.State Unit where
  reg := fun r =>
    match r with
    | .rdi => call.first
    | .rsi => call.second.getD 0
    | .rsp => 0x8000
    | _ => 0
  zf := false
  mem := twoNodes
  env := ()
  rip := 0

def riscvEntry (call : Call) : Riscv.State Unit where
  reg := fun r =>
    match r with
    | .a0 => call.first
    | .a1 => call.second.getD 0
    | .sp => 0x9000
    | _ => 0
  mem := twoNodes
  env := ()
  pc := 0

/-- Searching from the second node on. -/
theorem implementations_agree_iff_second :
    Agree acceptsSecond (fun _ _ => 0) (fun _ _ => 0) 0x100 (x86Entry (.find 0x2000 0x5000))
      (riscvEntry (.find 0x2000 0x5000)) twoNodes () [0x2000] (.find 0x2000 0x5000) := by
  refine (implementations_agree_iff ⟨rfl, rfl, rfl, ?_⟩ ⟨rfl, rfl, rfl, ?_⟩ ?_).mpr ?_
  · rintro v hv
    exact Option.some.inj hv
  · rintro v hv
    exact Option.some.inj hv
  · constructor
    · exact ⟨by decide, rfl⟩
    · intro n hn
      obtain rfl := List.mem_singleton.mp hn
      decide
    · intro n hn
      obtain rfl := List.mem_singleton.mp hn
      rfl
    · rfl
    · rintro v ⟨⟩
    · rintro p ⟨⟩ -
      rfl
  · exact Or.inr (Or.inr (Or.inl rfl))

/-- The second call of the search on RISC-V goes to the first node, not to the predicate. -/
theorem riscv_search_goes_astray :
    ¬ ∀ (functions : Functions Unit) (x86Clobbered : Unit → X86.Reg → BitVec 64)
      (riscvClobbered : Unit → Riscv.Reg → BitVec 64) (link : BitVec 64) (x : X86.State Unit)
      (r : Riscv.State Unit) (mem : Memory) (nodes : List (BitVec 64)) (call : Call),
      X86.Entered x mem () call → Riscv.Entered r mem () call →
      Arguments functions mem nodes (x.reg .rsp :: x.frame ++ r.frame) call →
      Agree functions x86Clobbered riscvClobbered link x r mem () nodes call := by
  intro h
  have hagree := h acceptsSecond (fun _ _ => 0) (fun _ _ => 0) 0x100
    (x86Entry (.find 0x1000 0x5000)) (riscvEntry (.find 0x1000 0x5000)) twoNodes [0x1000, 0x2000]
    (.find 0x1000 0x5000) ⟨rfl, rfl, rfl, fun v hv => Option.some.inj hv⟩
    ⟨rfl, rfl, rfl, fun v hv => Option.some.inj hv⟩ ?_
  · refine Riscv.not_meets_find rfl (by decide) (by decide) rfl rfl (by decide) ?_ rfl _ hagree.2
    decide
  · constructor
    · exact ⟨by decide, by decide, rfl⟩
    · intro n hn
      rcases List.mem_cons.mp hn with rfl | hn
      · decide
      · obtain rfl := List.mem_singleton.mp hn
        decide
    · intro n hn
      rcases List.mem_cons.mp hn with rfl | hn
      · rfl
      · obtain rfl := List.mem_singleton.mp hn
        rfl
    · rfl
    · rintro v ⟨⟩
    · rintro p ⟨⟩ -
      rfl

end Both

end Lists
