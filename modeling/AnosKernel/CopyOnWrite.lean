import AnosKernel.ProcessMemory

/-!
# Copy-on-write isolation

The pages an `address_space_create` call shares between the creating process and the new one,
and what the two read there afterwards. The new process gets copy-on-write entries; the entries
of the creating process stay as they are. To the mappings and counts of `ProcessMemory` come the
bytes of each frame: a write through a writable entry goes to the frame, any other write faults
first, and the handler leaves the frame in place, copies it or hands out a cleared one.
-/

namespace CopyOnWrite

open ProcessMemory Runs

abbrev Contents : Type := BitVec 64 → BitVec 12 → BitVec 8

structure Machine (P V : Type) where
  memory : State P V
  contents : Contents

variable {P V : Type}

def readByte (m : Machine P V) (proc : P) (v : V) (off : BitVec 12) : Option (BitVec 8) :=
  (m.memory.mapping proc v).map fun pte => m.contents pte.phys off

def putByte (contents : Contents) (phys : BitVec 64) (off : BitVec 12) (byte : BitVec 8) :
    Contents :=
  Function.update contents phys (Function.update (contents phys) off byte)

/-- A write fault is resolved in the frame that is mapped: it is not the zero page and no
reference is counted. -/
def remapsInPlace (kernelZeroPage : BitVec 64) (s : State P V) (pte : Pte) : Bool :=
  pte.copyOnWrite && decide (pte.phys ≠ kernelZeroPage) &&
    decide ((refcountMapDecrement s.refCount pte.phys).1 = 0)

/-- The frames after `page_fault_handler` has handled a write: `copy_page_safely` or `memclr` of
the new page, or nothing where the page is remapped in place. -/
def faultContents (kernelZeroPage : BitVec 64) (m : Machine P V) (proc : P) (v : V)
    (page : Option (BitVec 64)) : Contents :=
  let fill := fun bytes => page.elim m.contents fun phys => Function.update m.contents phys bytes
  match m.memory.mapping proc v with
  | some pte =>
    if pte.copyOnWrite then
      if remapsInPlace kernelZeroPage m.memory pte then m.contents
      else fill (m.contents pte.phys)
    else fill fun _ => 0
  | none => fill fun _ => 0

section Store

variable [DecidableEq P] [DecidableEq V] [Fintype P] [Fintype V]

/-- A write of one byte. A fault is handled and the write repeated; `none` is a panic. -/
def storeByte (kernelZeroPage : BitVec 64) (m : Machine P V) (proc : P) (v : V) (off : BitVec 12)
    (byte : BitVec 8) (automap : Bool) (page : Option (BitVec 64)) (allocs : Allocs) :
    Option (Machine P V) :=
  match (m.memory.mapping proc v).filter Pte.write with
  | some pte => some { m with contents := putByte m.contents pte.phys off byte }
  | none => do
    let memory ← pageFaultHandler kernelZeroPage m.memory proc v true automap page allocs
    let pte ← (memory.mapping proc v).filter Pte.write
    let contents := faultContents kernelZeroPage m proc v page
    return { memory := memory, contents := putByte contents pte.phys off byte }

/-! ## The three ways a write is done -/

/-- What one write does to the entry of its page and to the frames. -/
inductive Stored (kernelZeroPage : BitVec 64) (m : Machine P V) (proc : P) (v : V)
    (off : BitVec 12) (byte : BitVec 8) (page : Option (BitVec 64)) (m' : Machine P V) : Prop
  | inPlace (pte : Pte) (entry : m.memory.mapping proc v = some pte)
    (how : pte.write ∨ remapsInPlace kernelZeroPage m.memory pte)
    (mapping : ∃ pte', pte'.phys = pte.phys ∧ m'.memory.mapping
      = Function.update m.memory.mapping proc
        (Function.update (m.memory.mapping proc) v (some pte')))
    (allocated : m'.memory.allocated = m.memory.allocated)
    (contents : m'.contents = putByte m.contents pte.phys off byte)
  | newFrame (phys : BitVec 64) (bytes : BitVec 12 → BitVec 8) (handed : page = some phys)
    (source : (∃ pte, m.memory.mapping proc v = some pte ∧ pte.copyOnWrite ∧
        bytes = m.contents pte.phys) ∨
      m.memory.mapping proc v = none ∨
      ∃ pte, m.memory.mapping proc v = some pte ∧ ¬ pte.write ∧ ¬ pte.copyOnWrite)
    (mapping : ∃ pte', pte'.phys = phys ∧ m'.memory.mapping
      = Function.update m.memory.mapping proc
        (Function.update (m.memory.mapping proc) v (some pte')))
    (allocated : m'.memory.allocated = Function.update m.memory.allocated phys true)
    (contents : m'.contents = Function.update m.contents phys (Function.update bytes off byte))

theorem mapNewPage_some {s s' : State P V} {proc : P} {v : V} {page : Option (BitVec 64)}
    {allocs : Allocs} (h : mapNewPage s proc v page allocs = some s') :
    ∃ phys, page = some phys ∧
      s'.mapping = Function.update s.mapping proc (Function.update (s.mapping proc) v
        (some { phys := phys, write := true, copyOnWrite := false })) ∧
      s'.allocated = Function.update s.allocated phys true := by
  cases page with
  | none => simp [mapNewPage, processPageAlloc] at h
  | some phys =>
    refine ⟨phys, rfl, ?_⟩
    unfold mapNewPage processPageAlloc processAddOwnedPage at h
    cases hhead : allocs.head <;> cases hblock : allocs.block <;>
      simp [hhead, hblock] at h
    subst h
    exact ⟨rfl, rfl⟩

/-- The handler on a write to a copy-on-write page. -/
theorem fault_cow {kernelZeroPage : BitVec 64} {s s' : State P V} {proc : P} {v : V}
    {automap : Bool} {page : Option (BitVec 64)} {allocs : Allocs} {pte : Pte}
    (hentry : s.mapping proc v = some pte) (hcow : pte.copyOnWrite = true)
    (h : pageFaultHandler kernelZeroPage s proc v true automap page allocs = some s') :
    (remapsInPlace kernelZeroPage s pte = true ∧
      s'.mapping = Function.update s.mapping proc (Function.update (s.mapping proc) v
        (some { pte with write := true, copyOnWrite := false })) ∧
      s'.allocated = s.allocated) ∨
    (remapsInPlace kernelZeroPage s pte = false ∧ ∃ phys, page = some phys ∧
      s'.mapping = Function.update s.mapping proc (Function.update (s.mapping proc) v
        (some { phys := phys, write := true, copyOnWrite := false })) ∧
      s'.allocated = Function.update s.allocated phys true) := by
  have hfilter : (some pte).filter (fun pte => pte.copyOnWrite && true) = some pte := by
    simp [Option.filter, hcow]
  rw [pageFaultHandler, hentry, hfilter] at h
  dsimp only at h
  split at h
  · rename_i hzero
    refine Or.inr ⟨by simp [remapsInPlace, hzero], mapNewPage_some h⟩
  · rename_i hzero
    split at h
    · rename_i hcount
      refine Or.inl ⟨by simp [remapsInPlace, hcow, hzero, hcount], ?_⟩
      cases h
      exact ⟨rfl, rfl⟩
    · rename_i hcount
      refine Or.inr ⟨by simpa [remapsInPlace] using fun _ _ => hcount, ?_⟩
      obtain ⟨phys, hpage, hmapping, hallocated⟩ := mapNewPage_some h
      exact ⟨phys, hpage, hmapping, hallocated⟩

/-- The handler on a write to any other page: a cleared page, if the address asks for one. -/
theorem fault_other {kernelZeroPage : BitVec 64} {s s' : State P V} {proc : P} {v : V}
    {automap : Bool} {page : Option (BitVec 64)} {allocs : Allocs}
    (hother : ∀ pte, s.mapping proc v = some pte → pte.copyOnWrite = false)
    (h : pageFaultHandler kernelZeroPage s proc v true automap page allocs = some s') :
    ∃ phys, page = some phys ∧
      s'.mapping = Function.update s.mapping proc (Function.update (s.mapping proc) v
        (some { phys := phys, write := true, copyOnWrite := false })) ∧
      s'.allocated = Function.update s.allocated phys true := by
  have hfilter : (s.mapping proc v).filter (fun pte => pte.copyOnWrite && true) = none := by
    cases hentry : s.mapping proc v with
    | none => rfl
    | some pte => simp [Option.filter, hother pte hentry]
  rw [pageFaultHandler, hfilter] at h
  cases automap with
  | false => exact absurd h (by simp)
  | true => exact mapNewPage_some h

theorem storeByte_stored {kernelZeroPage : BitVec 64} {m m' : Machine P V} {proc : P} {v : V}
    {off : BitVec 12} {byte : BitVec 8} {automap : Bool} {page : Option (BitVec 64)}
    {allocs : Allocs}
    (h : storeByte kernelZeroPage m proc v off byte automap page allocs = some m') :
    Stored kernelZeroPage m proc v off byte page m' := by
  unfold storeByte at h
  split at h
  · rename_i pte hwrite
    obtain ⟨hentry, hw⟩ := Option.filter_eq_some_iff.mp hwrite
    cases h
    refine .inPlace pte hentry (Or.inl hw) ⟨pte, rfl, ?_⟩ rfl rfl
    rw [← hentry, Function.update_eq_self, Function.update_eq_self]
  · rename_i hnowrite
    obtain ⟨memory, hfault, hrest⟩ := Option.bind_eq_some_iff.mp h
    obtain ⟨pte', hpte', hm'⟩ := Option.bind_eq_some_iff.mp hrest
    cases hm'
    have hplace : ∀ entry : Pte, memory.mapping = Function.update m.memory.mapping proc
        (Function.update (m.memory.mapping proc) v (some entry)) → pte' = entry := by
      intro entry hmapping
      obtain ⟨hsome, -⟩ := Option.filter_eq_some_iff.mp hpte'
      rw [hmapping, Function.update_self, Function.update_self] at hsome
      exact (Option.some.inj hsome).symm
    cases hentry : m.memory.mapping proc v with
    | none =>
      obtain ⟨phys, hpage, hmapping, hallocated⟩ :=
        fault_other (fun pte hpte => absurd (hentry.symm.trans hpte) (by simp)) hfault
      refine .newFrame phys (fun _ => 0) hpage (Or.inr (Or.inl hentry)) ⟨_, rfl, hmapping⟩
        hallocated ?_
      simp [hplace _ hmapping, faultContents, hentry, hpage, putByte]
    | some pte =>
      have hnw : pte.write = false := by
        rw [hentry] at hnowrite
        simpa [Option.filter] using hnowrite
      cases hcow : pte.copyOnWrite with
      | true =>
        rcases fault_cow hentry hcow hfault with
          ⟨hin, hmapping, hallocated⟩ | ⟨hout, phys, hpage, hmapping, hallocated⟩
        · refine .inPlace pte hentry (Or.inr hin)
            ⟨{ pte with write := true, copyOnWrite := false }, rfl, hmapping⟩ hallocated ?_
          simp [hplace _ hmapping, faultContents, hentry, hcow, hin]
        · refine .newFrame phys (m.contents pte.phys) hpage (Or.inl ⟨pte, hentry, hcow, rfl⟩)
            ⟨_, rfl, hmapping⟩ hallocated ?_
          simp [hplace _ hmapping, faultContents, hentry, hcow, hout, hpage, putByte]
      | false =>
        have hother : ∀ pte₁, m.memory.mapping proc v = some pte₁ → pte₁.copyOnWrite = false := by
          intro pte₁ hpte₁
          rw [hentry] at hpte₁
          rw [← Option.some.inj hpte₁, hcow]
        obtain ⟨phys, hpage, hmapping, hallocated⟩ := fault_other hother hfault
        refine .newFrame phys (fun _ => 0) hpage
          (Or.inr (Or.inr ⟨pte, hentry, by simp [hnw], by simp [hcow]⟩)) ⟨_, rfl, hmapping⟩
          hallocated ?_
        simp [hplace _ hmapping, faultContents, hentry, hcow, hpage, putByte]

end Store

/-! ## The call and the writes after it -/

/-- The arguments of `address_space_create` and the answers of the allocators during it: the
pages of the shared regions in order, each with whether its table and its count could be made,
and the pages of the initial stack with their frames and bytes. -/
structure Call (P V : Type) where
  parent : P
  child : P
  pages : List (V × Bool × Bool)
  stack : List (V × BitVec 64)
  stackBytes : Contents

def Call.shared (call : Call P V) : List V := call.pages.map Prod.fst

def Call.frames (call : Call P V) : List (BitVec 64) := call.stack.map Prod.snd

section Calls

variable [DecidableEq P] [DecidableEq V]

def mapStackPage (child : P) (s : State P V) (page : V × BitVec 64) : State P V :=
  vmmMapPage { s with allocated := Function.update s.allocated page.2 true } child page.1
    { phys := page.2, write := true, copyOnWrite := false }

/-- The machine after the call: regions shared, then the stack mapped and filled. -/
def Call.run (call : Call P V) (m : Machine P V) : Machine P V where
  memory := call.stack.foldl (mapStackPage call.child)
    (addressSpaceCreate m.memory call.parent call.child call.pages)
  contents := fun phys =>
    if call.frames.contains phys then call.stackBytes phys else m.contents phys

/-- The byte the creating process reads at the time of the call, on a page the call finds
present. -/
def atCall (call : Call P V) (m : Machine P V) (v : V) (off : BitVec 12) : Option (BitVec 8) :=
  ((m.memory.mapping call.parent v).filter fun pte => pte.phys ≠ 0).map fun pte =>
    m.contents pte.phys off

/-- Frames in use are allocated, so that none of them is handed out. -/
def Backed (kernelZeroPage : BitVec 64) (s : State P V) : Prop :=
  ∀ proc v pte, s.mapping proc v = some pte → s.allocated pte.phys ∨ pte.phys = kernelZeroPage

/-- What a call finds: a second process, frames in use allocated, and a stack of free frames. -/
structure Call.Ready (call : Call P V) (kernelZeroPage : BitVec 64) (m : Machine P V) : Prop where
  other : call.parent ≠ call.child
  backed : Backed kernelZeroPage m.memory
  free : ∀ phys ∈ call.frames, Fresh kernelZeroPage m.memory phys

structure Write (P V : Type) where
  proc : P
  v : V
  off : BitVec 12
  byte : BitVec 8
  automap : Bool
  page : Option (BitVec 64)
  allocs : Allocs

structure History (P V : Type) where
  machine : Machine P V
  writes : List (Write P V)

/-- The last byte a process has written at an address. The newest write comes first. -/
def lastWrite : List (Write P V) → P → V → BitVec 12 → Option (BitVec 8)
  | [], _, _, _ => none
  | w :: earlier, proc, v, off =>
    if w.proc = proc ∧ w.v = v ∧ w.off = off then some w.byte
    else lastWrite earlier proc v off

/-- Each of the two processes reads its own last write where it has written, and the byte of the
time of the call elsewhere. -/
def Isolated (call : Call P V) (m : Machine P V) (s : History P V) : Prop :=
  ∀ proc, proc = call.parent ∨ proc = call.child → ∀ v ∈ call.shared, ∀ off byte,
    (lastWrite s.writes proc v off).or (atCall call m v off) = some byte →
      readByte s.machine proc v off = some byte

/-- A write that goes to the frame that is mapped goes to a frame no other shared page of the
two processes is on, and no page is written that is neither writable nor copy-on-write. -/
def writesAlone (kernelZeroPage : BitVec 64) (call : Call P V) (s : History P V)
    (w : Write P V) : Prop :=
  ∀ pte, s.machine.memory.mapping w.proc w.v = some pte →
    (pte.write ∨ pte.copyOnWrite) ∧
    (pte.write ∨ remapsInPlace kernelZeroPage s.machine.memory pte →
      ∀ proc, proc = call.parent ∨ proc = call.child → ∀ v ∈ call.shared,
        (proc, v) ≠ (w.proc, w.v) → ∀ pte', s.machine.memory.mapping proc v = some pte' →
          pte'.phys ≠ pte.phys)

/-! ## One write -/

variable {kernelZeroPage : BitVec 64} {call : Call P V} {m : Machine P V}

theorem update_place {mapping : P → V → Option Pte} {proc proc' : P} {v v' : V} {pte : Pte} :
    Function.update mapping proc (Function.update (mapping proc) v (some pte)) proc' v'
      = if (proc', v') = (proc, v) then some pte else mapping proc' v' := by
  by_cases hp : proc' = proc
  · subst hp
    rw [Function.update_self, Function.update_apply]
    simp
  · rw [Function.update_of_ne hp, if_neg (by simp [hp])]

/-- A write changes the byte it names and no other byte that one of the two reads. -/
theorem store_reads {s : History P V} {m' : Machine P V} {w : Write P V}
    (hbacked : Backed kernelZeroPage s.machine.memory)
    (hfresh : ∀ phys ∈ w.page, Fresh kernelZeroPage s.machine.memory phys)
    (halone : writesAlone kernelZeroPage call s w)
    (h : Stored kernelZeroPage s.machine w.proc w.v w.off w.byte w.page m') :
    Backed kernelZeroPage m'.memory ∧
    readByte m' w.proc w.v w.off = some w.byte ∧
    ∀ proc, proc = call.parent ∨ proc = call.child → ∀ v ∈ call.shared, ∀ off byte,
      ¬ (w.proc = proc ∧ w.v = v ∧ w.off = off) → readByte s.machine proc v off = some byte →
        readByte m' proc v off = some byte := by
  cases h with
  | inPlace pte entry how mapping allocated contents =>
    obtain ⟨pte', hphys, hmapping⟩ := mapping
    refine ⟨?_, ?_, ?_⟩
    · intro proc v pte₁ hpte₁
      rw [hmapping, update_place] at hpte₁
      rw [allocated]
      split at hpte₁
      · rw [← Option.some.inj hpte₁, hphys]
        exact hbacked _ _ _ entry
      · exact hbacked _ _ _ hpte₁
    · rw [readByte, hmapping, update_place, if_pos rfl, contents]
      simp [putByte, hphys]
    · intro proc hproc v hv off byte hother hread
      obtain ⟨pte₁, hpte₁, hbyte⟩ := Option.map_eq_some_iff.mp hread
      rw [readByte, hmapping, update_place]
      split
      · rename_i hplace
        obtain ⟨rfl, rfl⟩ := Prod.mk.inj hplace
        rw [entry] at hpte₁
        cases hpte₁
        have hoff : off ≠ w.off := fun heq => hother ⟨rfl, rfl, heq.symm⟩
        rw [Option.map_some, contents, hphys, putByte, Function.update_self,
          Function.update_of_ne hoff, hbyte]
      · rename_i hplace
        have hne := (halone pte entry).2 how proc hproc v hv hplace pte₁ hpte₁
        rw [hpte₁, Option.map_some, contents, putByte, Function.update_of_ne hne, hbyte]
  | newFrame phys bytes handed source mapping allocated contents =>
    obtain ⟨pte', hphys, hmapping⟩ := mapping
    obtain ⟨hfree, hzero⟩ := hfresh phys handed
    -- the frame handed out is mapped nowhere
    have hunused : ∀ proc v pte₁, s.machine.memory.mapping proc v = some pte₁ →
        pte₁.phys ≠ phys := by
      rintro proc v pte₁ hpte₁ rfl
      rcases hbacked proc v pte₁ hpte₁ with hused | hused
      · rw [hfree] at hused
        exact absurd hused (by simp)
      · exact hzero hused
    refine ⟨?_, ?_, ?_⟩
    · intro proc v pte₁ hpte₁
      rw [hmapping, update_place] at hpte₁
      rw [allocated]
      split at hpte₁
      · rw [← Option.some.inj hpte₁, hphys, Function.update_self]
        exact Or.inl rfl
      · rw [Function.update_of_ne (hunused _ _ _ hpte₁)]
        exact hbacked _ _ _ hpte₁
    · rw [readByte, hmapping, update_place, if_pos rfl, contents]
      simp [hphys]
    · intro proc hproc v hv off byte hother hread
      obtain ⟨pte₁, hpte₁, hbyte⟩ := Option.map_eq_some_iff.mp hread
      rw [readByte, hmapping, update_place]
      split
      · rename_i hplace
        obtain ⟨rfl, rfl⟩ := Prod.mk.inj hplace
        have hoff : off ≠ w.off := fun heq => hother ⟨rfl, rfl, heq.symm⟩
        rcases source with ⟨pte, hpte, -, hbytes⟩ | hnone | ⟨pte, hpte, hw, hcow⟩
        · rw [hpte] at hpte₁
          cases hpte₁
          rw [Option.map_some, contents, hphys, Function.update_self, Function.update_of_ne hoff,
            hbytes, hbyte]
        · rw [hnone] at hpte₁
          exact absurd hpte₁ (by simp)
        · exact absurd (halone pte hpte).1 (by simp [hw, hcow])
      · rw [hpte₁, Option.map_some, contents, Function.update_of_ne (hunused _ _ _ hpte₁), hbyte]

/-! ## The call -/

/-- Sharing pages changes only the entries of the new process, to copies of those of the
creating one. -/
structure Shares (parent child : P) (s s' : State P V) : Prop where
  others : ∀ proc, proc ≠ child → s'.mapping proc = s.mapping proc
  allocated : s'.allocated = s.allocated
  copies : ∀ v, s'.mapping child v = s.mapping child v ∨
    ∃ pte, s.mapping parent v = some pte ∧
      s'.mapping child v = some { phys := pte.phys, write := false, copyOnWrite := true }

omit [DecidableEq P] [DecidableEq V] in
theorem Shares.refl (parent child : P) (s : State P V) : Shares parent child s s :=
  ⟨fun _ _ => rfl, rfl, fun _ => Or.inl rfl⟩

omit [DecidableEq P] [DecidableEq V] in
theorem Shares.trans {parent child : P} {s s' s'' : State P V} (hne : parent ≠ child)
    (h : Shares parent child s s') (h' : Shares parent child s' s'') :
    Shares parent child s s'' := by
  refine ⟨fun proc hproc => (h'.others proc hproc).trans (h.others proc hproc),
    h'.allocated.trans h.allocated, fun v => ?_⟩
  rcases h'.copies v with hsame | ⟨pte, hpte, hcopy⟩
  · rw [hsame]
    exact h.copies v
  · rw [h.others parent hne] at hpte
    exact Or.inr ⟨pte, hpte, hcopy⟩

theorem sharePage_shares {parent child : P} (s : State P V) (page : V × Bool × Bool) :
    Shares parent child s (sharePage parent child s page) := by
  unfold sharePage
  split
  · exact Shares.refl parent child s
  · rename_i pte hpte
    split
    · exact Shares.refl parent child s
    · cases page.2.1 with
      | false => exact ⟨fun _ _ => rfl, rfl, fun _ => Or.inl rfl⟩
      | true =>
        refine ⟨fun proc hproc => Function.update_of_ne hproc _ _, rfl, fun v => ?_⟩
        show Function.update s.mapping child (Function.update (s.mapping child) page.1 _) child v
          = _ ∨ ∃ pte, _ ∧ Function.update s.mapping child
            (Function.update (s.mapping child) page.1 _) child v = _
        rw [update_place]
        by_cases hv : v = page.1
        · exact Or.inr ⟨pte, hv ▸ hpte, by rw [if_pos (by rw [hv])]⟩
        · exact Or.inl (by rw [if_neg (by simp [hv])])

theorem sharePage_copies {parent child : P} {s : State P V} {page : V × Bool × Bool} {pte : Pte}
    (made : page.2.1 = true) (hpte : s.mapping parent page.1 = some pte) (hphys : pte.phys ≠ 0) :
    (sharePage parent child s page).mapping child page.1
      = some { phys := pte.phys, write := false, copyOnWrite := true } := by
  unfold sharePage
  simp only [hpte, if_neg hphys, made, if_true]
  show Function.update s.mapping child (Function.update (s.mapping child) page.1 _) child page.1 = _
  rw [update_place, if_pos rfl]

theorem foldl_shares {parent child : P} (hne : parent ≠ child) (pages : List (V × Bool × Bool))
    (s : State P V) :
    Shares parent child s (pages.foldl (sharePage parent child) s) ∧
    ∀ page ∈ pages, page.2.1 = true → ∀ pte, s.mapping parent page.1 = some pte → pte.phys ≠ 0 →
      (pages.foldl (sharePage parent child) s).mapping child page.1
        = some { phys := pte.phys, write := false, copyOnWrite := true } := by
  induction pages generalizing s with
  | nil => exact ⟨Shares.refl parent child s, by simp⟩
  | cons first rest ih =>
    have hfirst : Shares parent child s (sharePage parent child s first) :=
      sharePage_shares s first
    obtain ⟨hrest, hcopies⟩ := ih (sharePage parent child s first)
    refine ⟨hfirst.trans hne hrest, fun page hpage made pte hpte hphys => ?_⟩
    rw [List.foldl_cons]
    have hparent : (sharePage parent child s first).mapping parent = s.mapping parent :=
      hfirst.others parent hne
    rcases List.mem_cons.mp hpage with rfl | hpage
    · -- a later page may be the same one again
      rcases hrest.copies page.1 with hsame | ⟨pte', hpte', hcopy⟩
      · rw [hsame]
        exact sharePage_copies made hpte hphys
      · rw [hparent, hpte] at hpte'
        rw [hcopy, ← Option.some.inj hpte']
    · exact hcopies page hpage made pte (by rw [hparent]; exact hpte) hphys

/-- The stack adds writable entries of the new process, on frames that were free. -/
theorem foldl_mapStackPage (kernelZeroPage : BitVec 64) (child : P)
    (stack : List (V × BitVec 64)) (s : State P V) :
    (∀ proc, proc ≠ child →
      (stack.foldl (mapStackPage child) s).mapping proc = s.mapping proc) ∧
    (∀ v, v ∉ stack.map Prod.fst →
      (stack.foldl (mapStackPage child) s).mapping child v = s.mapping child v) ∧
    (Backed kernelZeroPage s → Backed kernelZeroPage (stack.foldl (mapStackPage child) s)) := by
  induction stack generalizing s with
  | nil => exact ⟨fun _ _ => rfl, fun _ _ => rfl, id⟩
  | cons first rest ih =>
    obtain ⟨hothers, hkeep, hbacked⟩ := ih (mapStackPage child s first)
    have hmapping : (mapStackPage child s first).mapping = Function.update s.mapping child
        (Function.update (s.mapping child) first.1
          (some { phys := first.2, write := true, copyOnWrite := false })) := rfl
    refine ⟨fun proc hproc => ?_, fun v hv => ?_, fun h => hbacked ?_⟩
    · rw [List.foldl_cons, hothers proc hproc, hmapping, Function.update_of_ne hproc]
    · obtain ⟨hv_first, hv_rest⟩ := not_or.mp (mt List.mem_cons.mpr hv)
      rw [List.foldl_cons, hkeep v hv_rest, hmapping, update_place, if_neg (by simp [hv_first])]
    · intro proc v pte hpte
      rw [hmapping, update_place] at hpte
      show Function.update s.allocated first.2 true pte.phys = true ∨ _
      split at hpte
      · rw [← Option.some.inj hpte, Function.update_self]
        exact Or.inl rfl
      · rw [Function.update_apply]
        split
        · exact Or.inl rfl
        · exact h proc v pte hpte

/-- Every table of the shared pages could be made, and the stack does not lie on them. -/
structure Call.Complete (call : Call P V) : Prop where
  made : ∀ page ∈ call.pages, page.2.1 = true
  apart : ∀ v ∈ call.shared, v ∉ call.stack.map Prod.fst

/-- The memory the pages are shared in: the user space of the new process is empty. -/
def emptied (s : State P V) (child : P) : State P V :=
  { s with
    live := Function.update s.live child true
    mapping := Function.update s.mapping child fun _ => none }

omit [DecidableEq V] in
theorem emptied_other {s : State P V} {proc child : P} (hne : proc ≠ child) :
    (emptied s child).mapping proc = s.mapping proc := Function.update_of_ne hne _ _

omit [DecidableEq V] in
theorem Shares.backed {parent child : P} {s s' : State P V}
    (h : Shares parent child (emptied s child) s') (hne : parent ≠ child)
    (hbacked : Backed kernelZeroPage s) : Backed kernelZeroPage s' := by
  intro proc v pte hpte
  rw [h.allocated]
  by_cases hproc : proc = child
  · subst hproc
    rcases h.copies v with hsame | ⟨pte', hpte', hcopy⟩
    · rw [hsame] at hpte
      exact absurd hpte (by simp [emptied])
    · rw [hcopy] at hpte
      rw [← Option.some.inj hpte]
      exact hbacked parent v pte' (by rwa [emptied_other hne] at hpte')
  · rw [h.others proc hproc, emptied_other hproc] at hpte
    exact hbacked proc v pte hpte

/-- Right after the call both processes read on the shared pages what the creating one reads. -/
theorem run_reads (hready : call.Ready kernelZeroPage m) (hcomplete : call.Complete) :
    Backed kernelZeroPage (call.run m).memory ∧
    ∀ proc, proc = call.parent ∨ proc = call.child → ∀ v ∈ call.shared, ∀ off byte,
      atCall call m v off = some byte → readByte (call.run m) proc v off = some byte := by
  obtain ⟨hshares, hcopies⟩ :=
    foldl_shares hready.other call.pages (emptied m.memory call.child)
  obtain ⟨hothers, hkeep, hbacked⟩ := foldl_mapStackPage kernelZeroPage
    call.child call.stack (addressSpaceCreate m.memory call.parent call.child call.pages)
  refine ⟨hbacked (hshares.backed hready.other hready.backed), ?_⟩
  intro proc hproc v hv off byte hatCall
  obtain ⟨pte, hpte, hbyte⟩ := Option.map_eq_some_iff.mp hatCall
  obtain ⟨hparent, hphys⟩ := Option.filter_eq_some_iff.mp hpte
  have hphys' : pte.phys ≠ 0 := by simpa using hphys
  have hcontents : (call.run m).contents pte.phys = m.contents pte.phys := by
    refine if_neg fun hframe => ?_
    obtain ⟨hfree, hzero⟩ := hready.free _ (List.contains_iff_mem.mp hframe)
    rcases hready.backed _ _ _ hparent with hused | hused
    · rw [hfree] at hused
      exact absurd hused (by simp)
    · exact hzero hused
  have hemptied : (emptied m.memory call.child).mapping call.parent v = some pte := by
    rw [emptied_other hready.other]
    exact hparent
  rcases hproc with rfl | rfl
  · have hentry : (call.run m).memory.mapping call.parent v = some pte := by
      rw [Call.run, hothers _ hready.other, addressSpaceCreate]
      exact (congrFun (hshares.others _ hready.other) v).trans hemptied
    rw [readByte, hentry, Option.map_some, hcontents, hbyte]
  · obtain ⟨page, hpage, rfl⟩ := List.mem_map.mp hv
    have hentry : (call.run m).memory.mapping call.child page.1
        = some { phys := pte.phys, write := false, copyOnWrite := true } := by
      rw [Call.run, hkeep page.1 (hcomplete.apart _ hv), addressSpaceCreate]
      exact hcopies page hpage (hcomplete.made page hpage) pte hemptied hphys'
    rw [readByte, hentry, Option.map_some, hcontents, hbyte]

/-! ## Runs of writes -/

variable [Fintype P] [Fintype V]

/-- A write by one of the two processes to a page of the regions. -/
inductive Step (kernelZeroPage : BitVec 64) (call : Call P V) (s : History P V) :
    Write P V → History P V → Prop
  | write {w : Write P V} {machine : Machine P V}
    (who : w.proc = call.parent ∨ w.proc = call.child) (place : w.v ∈ call.shared)
    (fresh : ∀ phys ∈ w.page, Fresh kernelZeroPage s.machine.memory phys)
    (stored : storeByte kernelZeroPage s.machine w.proc w.v w.off w.byte w.automap w.page w.allocs
      = some machine) :
    Step kernelZeroPage call s w { machine := machine, writes := w :: s.writes }

def afterCall (kernelZeroPage : BitVec 64) (call : Call P V) (m : Machine P V) :
    System (History P V) (Write P V) where
  init := fun s => s.machine = call.run m ∧ s.writes = []
  step := Step kernelZeroPage call

theorem step_isolated {s s' : History P V} {w : Write P V}
    (h : Backed kernelZeroPage s.machine.memory ∧ Isolated call m s)
    (halone : writesAlone kernelZeroPage call s w) (hstep : Step kernelZeroPage call s w s') :
    Backed kernelZeroPage s'.machine.memory ∧ Isolated call m s' := by
  cases hstep with
  | write who place fresh stored =>
    obtain ⟨hbacked, hwritten, hkept⟩ := store_reads h.1 fresh halone (storeByte_stored stored)
    refine ⟨hbacked, fun proc hproc v hv off byte hbyte => ?_⟩
    rw [lastWrite] at hbyte
    split at hbyte
    · rename_i hsame
      obtain ⟨rfl, rfl, rfl⟩ := hsame
      rw [Option.some_or] at hbyte
      rw [← hbyte]
      exact hwritten
    · rename_i hother
      exact hkept proc hproc v hv off byte hother (h.2 proc hproc v hv off byte hbyte)

end Calls

/-! ## A page the creating process may write -/

/-- Two processes and one page; the first process has it mapped writable. -/
def sampleMachine : Machine Bool Unit where
  memory :=
    { live := id
      owned := fun _ => []
      mapping := fun proc _ =>
        if proc then some { phys := 0x1000, write := true, copyOnWrite := false } else none
      refCount := fun _ => none
      allocated := fun phys => phys == 0x1000
      frees := [] }
  contents := fun _ _ => 0

def sampleCall : Call Bool Unit :=
  { parent := true, child := false, pages := [((), true, true)], stack := [],
    stackBytes := fun _ _ => 0 }

theorem sample_ready : sampleCall.Ready 0x5000 sampleMachine where
  other := by decide
  backed := by
    intro proc v pte hpte
    cases proc with
    | false => exact absurd hpte (by simp [sampleMachine])
    | true =>
      have hentry : pte = { phys := 0x1000, write := true, copyOnWrite := false } := by
        simpa [sampleMachine, eq_comm] using hpte
      rw [hentry]
      exact Or.inl rfl
  free := by simp [sampleCall, Call.frames]

theorem sample_complete : sampleCall.Complete where
  made := by simp [sampleCall]
  apart := by simp [sampleCall]

/-- A write of the new process, copied to a frame handed out for it. -/
def childWrite : Write Bool Unit :=
  { proc := false, v := (), off := 0, byte := 7, automap := false, page := some 0x2000,
    allocs := ⟨true, true, true⟩ }

/-- A write of the creating process, through its writable entry. -/
def parentWrite : Write Bool Unit :=
  { proc := true, v := (), off := 0, byte := 1, automap := false, page := none,
    allocs := ⟨true, true, true⟩ }

theorem sample_place (v : Unit) : v ∈ sampleCall.shared := by simp [sampleCall, Call.shared]

end CopyOnWrite
