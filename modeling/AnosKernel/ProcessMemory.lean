import AnosKernel.Lib.Runs
import Mathlib.Data.Fintype.Basic
import Mathlib.Data.BitVec
import Mathlib.Logic.Function.Basic

/-!
# Pages owned, shared and mapped by processes

`kernel/process/memory.c`, the sharing of regions in `address_space_create` and the handling of
copy-on-write and automap faults in `page_fault_handler`, with the reference counts of
`kernel/structs/ref_count_map.c`. The pages a process owns are a list; its blocks do not matter
here, nor does the order of the entries. What allocations answer is an argument.

`V` stands for the pages of user space and `P` for the processes. A call of `page_free` is
recorded with whether the page was allocated and whether a live process mapped it at the time.
-/

namespace ProcessMemory

open Runs

structure Pte where
  phys : BitVec 64
  write : Bool
  copyOnWrite : Bool
  deriving DecidableEq, Repr

structure PageFree where
  page : BitVec 64
  allocated : Bool
  mapped : Bool
  deriving DecidableEq, Repr

structure State (P V : Type) where
  live : P → Bool
  owned : P → List (BitVec 64)
  mapping : P → V → Option Pte
  refCount : BitVec 64 → Option (BitVec 32)
  allocated : BitVec 64 → Bool
  frees : List PageFree

/-- What the allocations inside `process_add_owned_page` answer: for the list head, for an entry
of the reference counts, and for a block of the list. -/
structure Allocs where
  head : Bool
  entry : Bool
  block : Bool
  deriving DecidableEq, Repr

/-- `entry` is whether a new entry could be allocated. Zero is failure. -/
def refcountMapIncrement (counts : BitVec 64 → Option (BitVec 32)) (addr : BitVec 64)
    (entry : Bool) : BitVec 32 × (BitVec 64 → Option (BitVec 32)) :=
  match counts addr with
  | some n => (n + 1, Function.update counts addr (some (n + 1)))
  | none => if entry then (1, Function.update counts addr (some 1)) else (0, counts)

/-- The count before the call, or zero without an entry. -/
def refcountMapDecrement (counts : BitVec 64 → Option (BitVec 32)) (addr : BitVec 64) :
    BitVec 32 × (BitVec 64 → Option (BitVec 32)) :=
  match counts addr with
  | none => (0, counts)
  | some n =>
    if n - 1 = 0 then (1, Function.update counts addr none)
    else (n - 1 + 1, Function.update counts addr (some (n - 1)))

section Functions

variable {P V : Type} [DecidableEq P] [DecidableEq V]

def State.setOwned (s : State P V) (proc : P) (pages : List (BitVec 64)) : State P V :=
  { s with owned := Function.update s.owned proc pages }

def State.setMapping (s : State P V) (proc : P) (v : V) (pte : Option Pte) : State P V :=
  { s with mapping := Function.update s.mapping proc (Function.update (s.mapping proc) v pte) }

/-- `vmm_map_page` and `vmm_map_page_in`, where the tables could be made. -/
def vmmMapPage (s : State P V) (proc : P) (v : V) (pte : Pte) : State P V :=
  s.setMapping proc v (some pte)

def vmmUnmapPage (s : State P V) (proc : P) (v : V) : State P V := s.setMapping proc v none

def isMapped [Fintype P] [Fintype V] (s : State P V) (page : BitVec 64) : Bool :=
  decide (∃ proc v, s.live proc ∧ (s.mapping proc v).map Pte.phys = some page)

def processAddOwnedPage (s : State P V) (proc : P) (physAddr : BitVec 64) (shared : Bool)
    (allocs : Allocs) : Bool × State P V :=
  if ¬ allocs.head then (false, s)
  else
    let (count, counts) :=
      if shared then refcountMapIncrement s.refCount physAddr allocs.entry else (1, s.refCount)
    if count = 0 then (false, { s with refCount := counts })
    else if ¬ allocs.block then (false, { s with refCount := counts })
    else (true, { s with refCount := counts }.setOwned proc (s.owned proc ++ [physAddr]))

variable [Fintype P] [Fintype V]

def pageFree (s : State P V) (page : BitVec 64) : State P V :=
  { s with
    allocated := Function.update s.allocated page false
    frees := s.frees ++ [{ page := page, allocated := s.allocated page, mapped := isMapped s page }] }

/-- Give up one reference: the page is freed when the count was zero or one. -/
def dropReference (s : State P V) (physAddr : BitVec 64) : State P V :=
  let (prevRef, counts) := refcountMapDecrement s.refCount physAddr
  if prevRef ≤ 1 then pageFree { s with refCount := counts } physAddr
  else { s with refCount := counts }

def processRemoveOwnedPage (s : State P V) (proc : P) (physAddr : BitVec 64) : Bool × State P V :=
  if physAddr ∈ s.owned proc then
    (true, (dropReference s physAddr).setOwned proc ((s.owned proc).erase physAddr))
  else (false, s)

def processReleaseOwnedPages (s : State P V) (proc : P) : State P V :=
  ((s.owned proc).foldl dropReference s).setOwned proc []

/-- `page` is the answer of `page_alloc`. -/
def processPageAlloc (s : State P V) (proc : P) (page : Option (BitVec 64)) (allocs : Allocs) :
    Option (BitVec 64) × State P V :=
  match page with
  | none => (none, s)
  | some addr =>
    let s := { s with allocated := Function.update s.allocated addr true }
    match processAddOwnedPage s proc addr false allocs with
    | (true, s) => (some addr, s)
    | (false, s) => (none, pageFree s addr)

def processPageFree (s : State P V) (proc : P) (physAddr : BitVec 64) : Bool × State P V :=
  processRemoveOwnedPage s proc physAddr

/-- One page of a shared region: where it is present it is mapped copy-on-write in the new
address space and counted. `table` is whether the mapping could be made. -/
def sharePage (parent child : P) (s : State P V) (page : V × Bool × Bool) : State P V :=
  match s.mapping parent page.1 with
  | none => s
  | some pte =>
    if pte.phys = 0 then s
    else
      let mapped :=
        if page.2.1 then
          vmmMapPage s child page.1 { phys := pte.phys, write := false, copyOnWrite := true }
        else s
      { mapped with refCount := (refcountMapIncrement s.refCount pte.phys page.2.2).2 }

/-- `address_space_create` in the address space of `parent`: an empty user space, then the pages
of the shared regions one by one. -/
def addressSpaceCreate (s : State P V) (parent child : P) (pages : List (V × Bool × Bool)) :
    State P V :=
  pages.foldl (sharePage parent child)
    { s with
      live := Function.update s.live child true
      mapping := Function.update s.mapping child fun _ => none }

/-- Allocate a page, and map it in the place of the fault. -/
def mapNewPage (s : State P V) (proc : P) (v : V) (page : Option (BitVec 64)) (allocs : Allocs) :
    Option (State P V) :=
  match processPageAlloc s proc page allocs with
  | (none, _) => none
  | (some phys, s) => some (vmmMapPage s proc v { phys := phys, write := true, copyOnWrite := false })

/-- `page_fault_handler` for a user address in a process, with whether the address is in a
region to be mapped on access. `none` is a panic. -/
def pageFaultHandler (kernelZeroPage : BitVec 64) (s : State P V) (proc : P) (v : V)
    (write automap : Bool) (page : Option (BitVec 64)) (allocs : Allocs) : Option (State P V) :=
  let cowPage := (s.mapping proc v).filter fun pte => pte.copyOnWrite && write
  match cowPage with
  | some pte =>
    if pte.phys = kernelZeroPage then mapNewPage s proc v page allocs
    else
      let (count, counts) := refcountMapDecrement s.refCount pte.phys
      let s := { s with refCount := counts }
      if count = 0 then some (vmmMapPage s proc v { pte with write := true, copyOnWrite := false })
      else mapNewPage s proc v page allocs
  | none =>
    if automap then
      if write then mapNewPage s proc v page allocs
      else some (vmmMapPage s proc v { phys := kernelZeroPage, write := false, copyOnWrite := true })
    else none

/-- `process_destroy`: the tasks are gone before the pages are released. -/
def processDestroy (s : State P V) (proc : P) : State P V :=
  processReleaseOwnedPages { s with live := Function.update s.live proc false } proc

end Functions

/-! ## The system -/

inductive Act (P V : Type)
  | kernelAlloc (page : BitVec 64)
  | pageAlloc (proc : P) (page : Option (BitVec 64)) (allocs : Allocs)
  | addOwned (proc : P) (page : BitVec 64) (shared : Bool) (allocs : Allocs)
  | map (proc : P) (v : V) (page : BitVec 64)
  | unmap (proc : P) (v : V)
  | create (parent child : P) (pages : List (V × Bool × Bool))
  | fault (proc : P) (v : V) (write automap : Bool) (page : Option (BitVec 64)) (allocs : Allocs)
  | pageFree (proc : P) (page : BitVec 64)
  | destroy (proc : P)

variable {P V : Type} [DecidableEq P] [DecidableEq V] [Fintype P] [Fintype V]

/-- `page_alloc` hands out a page that is not allocated; the zero page was allocated at boot. -/
def Fresh (kernelZeroPage : BitVec 64) (s : State P V) (page : BitVec 64) : Prop :=
  s.allocated page = false ∧ page ≠ kernelZeroPage

/-- Calls are made by live processes; a process maps the pages it owns, takes on pages that are
allocated, and is created where there was none. -/
inductive Step (kernelZeroPage : BitVec 64) (s : State P V) : Act P V → State P V → Prop
  | kernelAlloc {page : BitVec 64} (fresh : Fresh kernelZeroPage s page) :
      Step kernelZeroPage s (.kernelAlloc page)
        { s with allocated := Function.update s.allocated page true }
  | pageAlloc {proc : P} {page : Option (BitVec 64)} (allocs : Allocs) (live : s.live proc)
      (fresh : ∀ addr ∈ page, Fresh kernelZeroPage s addr) :
      Step kernelZeroPage s (.pageAlloc proc page allocs) (processPageAlloc s proc page allocs).2
  | addOwned {proc : P} {page : BitVec 64} (shared : Bool) (allocs : Allocs) (live : s.live proc)
      (allocated : s.allocated page) :
      Step kernelZeroPage s (.addOwned proc page shared allocs)
        (processAddOwnedPage s proc page shared allocs).2
  | map {proc : P} {page : BitVec 64} (v : V) (live : s.live proc) (owns : page ∈ s.owned proc) :
      Step kernelZeroPage s (.map proc v page)
        (vmmMapPage s proc v { phys := page, write := true, copyOnWrite := false })
  | unmap {proc : P} (v : V) (live : s.live proc) :
      Step kernelZeroPage s (.unmap proc v) (vmmUnmapPage s proc v)
  | create {parent child : P} (pages : List (V × Bool × Bool)) (live : s.live parent)
      (unused : s.live child = false) (none : s.owned child = []) :
      Step kernelZeroPage s (.create parent child pages) (addressSpaceCreate s parent child pages)
  | fault {proc : P} {v : V} {write automap : Bool} {page : Option (BitVec 64)} {allocs : Allocs}
      {s' : State P V} (live : s.live proc) (fresh : ∀ addr ∈ page, Fresh kernelZeroPage s addr)
      (handled : pageFaultHandler kernelZeroPage s proc v write automap page allocs = some s') :
      Step kernelZeroPage s (.fault proc v write automap page allocs) s'
  | pageFree {proc : P} (page : BitVec 64) (live : s.live proc) :
      Step kernelZeroPage s (.pageFree proc page) (processPageFree s proc page).2
  | destroy {proc : P} (live : s.live proc) :
      Step kernelZeroPage s (.destroy proc) (processDestroy s proc)

/-- At the start processes own and map nothing and nothing is allocated for them. -/
structure Initial (s : State P V) : Prop where
  owned : s.owned = fun _ => []
  mapping : s.mapping = fun _ _ => none
  refCount : s.refCount = fun _ => none
  allocated : s.allocated = fun _ => false
  frees : s.frees = []

def memory (P V : Type) [DecidableEq P] [DecidableEq V] [Fintype P] [Fintype V]
    (kernelZeroPage : BitVec 64) : System (State P V) (Act P V) where
  init := Initial
  step := Step kernelZeroPage

end ProcessMemory
