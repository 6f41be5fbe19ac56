import AnosKernel.ChannelDelivery
import AnosKernel.UserSpaces

/-!
# The buffer page of a message

`ipc_channel_send` puts the physical address of its buffer into the message, `ipc_channel_recv` maps
that page at the buffer of the receiver, and `send`, once it is resumed, unmaps it. It does so in
the address space of the sender, at the virtual address with the number of the physical one.

The calls are those of the channel, with what they do to the page tables of x86_64. The blocks of
messages and of the table of messages in flight are taken to be there already.
-/

namespace BufferExchange

open IpcChannel VmMapper TablePaths AddressSpace MapSyscalls UserSpaces

/-- `PG_USER | PG_READ | PG_WRITE | PG_PRESENT`; the read bit is zero. -/
def bufferFlags : BitVec 16 := 0x7

/-- What a call that returned has done to the page tables of its task. -/
def returned (space : BitVec 64) (m : Machine) : Return → Machine
  | .send _ (some phys) => (vmmUnmapPageIn m space phys).2
  | .recv _ (some { mapped := some (buffer, phys), .. }) =>
    (vmmMapPageIn m space buffer phys bufferFlags).2
  | _ => m

structure World (T : Type) where
  channel : State T
  machine : Machine

/-- After a section of a call in the address space `space`, which may have returned. -/
def World.after {T : Type} (w : World T) (space : BitVec 64) (channel : State T) : World T where
  channel := channel
  machine := (channel.returns.drop w.channel.returns.length).foldl (returned space) w.machine

/-- One message: who sends and who receives it and with which arguments, and the block and the
cookie that it is given. -/
structure Call (T : Type) where
  sender : T
  receiver : T
  tag : BitVec 64
  size : BitVec 64
  buffer : BitVec 64
  msg : BitVec 64
  cookie : BitVec 64
  args : RecvArgs
  result : BitVec 64

section Calls

variable {T : Type} [DecidableEq T]

/-- `ipc_channel_send` until it blocks. -/
def sent (space : T → BitVec 64) (c : Call T) (w : World T) : World T :=
  let phys := vmmVirtToPhysPage w.machine (space c.sender) c.buffer
  let w := w.after (space c.sender)
    (sendPublish w.channel c.sender c.tag c.size c.buffer (some c.msg) c.cookie phys)
  w.after (space c.sender) (sendWake w.channel c.sender c.msg)

/-- `ipc_channel_reply`, and `ipc_channel_send` once it is resumed. -/
def answered (space : T → BitVec 64) (c : Call T) (w : World T) : World T :=
  let w := w.after (space c.receiver) (replyLookup w.channel c.receiver c.cookie c.result)
  let w := w.after (space c.receiver) (replyRemove w.channel c.receiver c.msg c.cookie c.result)
  let w := w.after (space c.receiver) (replyUnblock w.channel c.receiver c.msg c.cookie)
  w.after (space c.sender) (sendReturn w.channel c.sender c.msg)

/-- A complete exchange: the message is queued when the receiver comes, or the receiver waits for
it. -/
inductive Exchange (space : T → BitVec 64) (c : Call T) (w : World T) : World T → Prop
  | fastPath {w1 w2 : World T} (send : w1 = sent space c w)
      (recv : w2 = w1.after (space c.receiver) (recvCheck w1.channel c.receiver c.args)) :
      Exchange space c w (answered space c w2)
  | slowPath {w1 w2 w3 w4 : World T}
      (check : w1 = w.after (space c.receiver) (recvCheck w.channel c.receiver c.args))
      (join : w2 = w1.after (space c.receiver) (recvJoin w1.channel c.receiver c.args))
      (send : w3 = sent space c w2)
      (resume : w4 = w3.after (space c.receiver) (recvResume w3.channel c.receiver c.args)) :
      Exchange space c w (answered space c w4)

/-- Nothing else is queued, the cookie is a new one, and the arguments are a buffer of up to a page
and a place for it. -/
structure Ready (c : Call T) (s : State T) : Prop where
  queue : s.queue = []
  table : s.inFlight c.cookie = none
  aligned : pageAligned c.buffer
  nonempty : c.size ≠ 0
  fits : c.size ≤ vmPageSize
  place : pageAligned c.args.buffer
  given : c.args.buffer ≠ 0

/-! ## What an exchange does to the page tables -/

variable {space : T → BitVec 64} {c : Call T} {w w' : World T}

omit [DecidableEq T] in
theorem after_quiet {q : BitVec 64} {channel : State T}
    (quiet : channel.returns = w.channel.returns) :
    (w.after q channel).machine = w.machine := by
  simp [World.after, quiet]

omit [DecidableEq T] in
theorem after_return {q : BitVec 64} {channel : State T} {r : Return}
    (one : channel.returns = w.channel.returns ++ [r]) :
    (w.after q channel).machine = returned q w.machine r := by
  simp [World.after, one]

/-- The message is queued with the page of the buffer, and no table has changed. -/
theorem sent_spec (queue : w.channel.queue = []) (aligned : pageAligned c.buffer)
    (fits : c.size ≤ vmPageSize) :
    (sent space c w).machine = w.machine ∧ (sent space c w).channel.queue = [c.msg] ∧
      (sent space c w).channel.inFlight = w.channel.inFlight ∧
      (sent space c w).channel.message c.msg = initMessage c.tag c.size c.cookie
        (vmmVirtToPhysPage w.machine (space c.sender) c.buffer) c.sender := by
  have hsize : ¬ c.size > vmPageSize := BitVec.not_lt.mpr fits
  generalize hphys : vmmVirtToPhysPage w.machine (space c.sender) c.buffer = phys
  obtain ⟨s, hs⟩ : ∃ s, sendPublish w.channel c.sender c.tag c.size c.buffer (some c.msg) c.cookie
      phys = s := ⟨_, rfl⟩
  have hpublished : s.returns = w.channel.returns ∧ s.queue = [c.msg] ∧
      s.inFlight = w.channel.inFlight ∧
      s.message c.msg = initMessage c.tag c.size c.cookie phys c.sender := by
    rw [← hs]
    simp [sendPublish, aligned, hsize, State.setPhase, queue]
  obtain ⟨hreturns, hqueue, htable, hmessage⟩ := hpublished
  have hwake : (sendWake s c.sender c.msg).returns = s.returns ∧
      (sendWake s c.sender c.msg).queue = s.queue ∧
      (sendWake s c.sender c.msg).inFlight = s.inFlight ∧
      (sendWake s c.sender c.msg).message = s.message := by
    unfold sendWake
    cases s.receivers <;> exact ⟨rfl, rfl, rfl, rfl⟩
  obtain ⟨hreturns', hqueue', htable', hmessage'⟩ := hwake
  simp only [sent, hphys, hs]
  refine ⟨?_, hqueue'.trans hqueue, htable'.trans htable, ?_⟩
  · exact (after_quiet hreturns').trans (after_quiet hreturns)
  · exact (congrFun hmessage' _).trans hmessage

/-- The tables after a page was mapped for the receiver, unless there is none. -/
def mapBuffer (m : Machine) (receiver phys buffer : BitVec 64) : Machine :=
  if phys = 0 then m else (vmmMapPageIn m receiver buffer phys bufferFlags).2

/-- The tables after the sender has unmapped what the message says. -/
def unmapBuffer (m : Machine) (sender phys : BitVec 64) : Machine :=
  if phys = 0 then m else (vmmUnmapPageIn m sender phys).2

/-- A message that is taken is in the table, and its page is mapped. -/
theorem deliver_spec {s : State T} {t : T} {args : RecvArgs} {slowPath : Bool}
    {msg tag size cookie phys : BitVec 64} {sender : T} {q : BitVec 64}
    (message : s.message msg = initMessage tag size cookie phys sender)
    (table : s.inFlight cookie = none) (nonempty : size ≠ 0) (fits : size ≤ vmPageSize)
    (given : args.buffer ≠ 0) (same : s.returns = w.channel.returns) :
    (w.after q (deliver s t args slowPath msg [])).machine =
        mapBuffer w.machine q phys args.buffer ∧
      (deliver s t args slowPath msg []).inFlight cookie = some msg ∧
      ((deliver s t args slowPath msg []).message msg).argBufPhys = phys := by
  have hphys : (s.message msg).argBufPhys = phys := by rw [message, initMessage]
  have hmaps : (args.buffer ≠ 0 ∧ (s.message msg).argBufPhys ≠ 0 ∧
      (s.message msg).argBufSize ≠ 0) ↔ phys ≠ 0 := by
    have hsize : (s.message msg).argBufSize = size := by
      rw [message, initMessage]
      exact if_neg (BitVec.not_lt.mpr fits)
    rw [hphys, hsize]
    exact ⟨fun h => h.2.1, fun h => ⟨given, h, nonempty⟩⟩
  have hone : (deliver s t args slowPath msg []).returns = w.channel.returns ++ [_] :=
    congrArg (· ++ [_]) same
  refine ⟨?_, ?_, ?_⟩
  · rw [after_return hone, mapBuffer]
    by_cases hzero : phys = 0
    · rw [if_neg (mt hmaps.mp (not_not.mpr hzero)), if_pos hzero]
      rfl
    · rw [if_pos (hmaps.mpr hzero), if_neg hzero, hphys]
      rfl
  · have hcookie : (s.message msg).cookie = cookie := by rw [message, initMessage]
    simp only [deliver, hashTableInsert, hcookie, table]
    exact Function.update_self _ _ _
  · simp only [deliver, Function.update_self, hmaps]
    split_ifs with hzero
    · exact hphys
    · exact (not_not.mp hzero).symm

theorem answered_spec {phys : BitVec 64} (table : w.channel.inFlight c.cookie = some c.msg)
    (message : (w.channel.message c.msg).argBufPhys = phys) :
    (answered space c w).machine = unmapBuffer w.machine (space c.sender) phys := by
  have hlookup : replyLookup w.channel c.receiver c.cookie c.result =
      w.channel.setPhase c.receiver (.found c.msg c.cookie c.result) := by
    rw [replyLookup, table]
  obtain ⟨w1, hw1⟩ : ∃ w1, w.after (space c.receiver)
      (replyLookup w.channel c.receiver c.cookie c.result) = w1 := ⟨_, rfl⟩
  obtain ⟨w2, hw2⟩ : ∃ w2, w1.after (space c.receiver)
      (replyRemove w1.channel c.receiver c.msg c.cookie c.result) = w2 := ⟨_, rfl⟩
  obtain ⟨w3, hw3⟩ : ∃ w3, w2.after (space c.receiver)
      (replyUnblock w2.channel c.receiver c.msg c.cookie) = w3 := ⟨_, rfl⟩
  have hfound : w1.machine = w.machine ∧ (w1.channel.message c.msg).argBufPhys = phys := by
    rw [← hw1, hlookup]
    exact ⟨after_quiet rfl, message⟩
  have hremoved : w2.machine = w.machine ∧ (w2.channel.message c.msg).argBufPhys = phys := by
    rw [← hw2]
    refine ⟨(after_quiet rfl).trans hfound.1, ?_⟩
    simp only [World.after, replyRemove, Function.update_self]
    exact hfound.2
  have hunblocked : w3.machine = w.machine ∧ (w3.channel.message c.msg).argBufPhys = phys := by
    rw [← hw3]
    have hone := @after_return T w2 (space c.receiver)
      (replyUnblock w2.channel c.receiver c.msg c.cookie) (.reply c.cookie c.cookie) rfl
    exact ⟨hone.trans hremoved.1, hremoved.2⟩
  have hreturned := @after_return T w3 (space c.sender) (sendReturn w3.channel c.sender c.msg) _ rfl
  have hanswered : (answered space c w).machine =
      (w3.after (space c.sender) (sendReturn w3.channel c.sender c.msg)).machine := by
    rw [answered, hw1, hw2, hw3]
  rw [hanswered, hreturned, hunblocked.1, hunblocked.2, unmapBuffer]
  by_cases hzero : phys = 0
  · rw [if_neg (not_not.mpr hzero), if_pos hzero]
    rfl
  · rw [if_pos hzero, if_neg hzero]
    rfl

/-- An exchange maps the buffer for the receiver, and unmaps the number of its page for the
sender. -/
theorem Exchange.machine (exchange : Exchange space c w w') (ready : Ready c w.channel)
    {phys : BitVec 64} (page : vmmVirtToPhysPage w.machine (space c.sender) c.buffer = phys) :
    w'.machine = unmapBuffer (mapBuffer w.machine (space c.receiver) phys c.args.buffer)
      (space c.sender) phys := by
  cases exchange with
  | @fastPath w1 w2 send recv =>
    obtain ⟨hmachine, hqueue, htable, hmessage⟩ :=
      @sent_spec _ _ space c w ready.queue ready.aligned ready.fits
    rw [← send] at hmachine hqueue htable hmessage
    rw [page] at hmessage
    have hrecv : recvCheck w1.channel c.receiver c.args =
        deliver w1.channel c.receiver c.args false c.msg [] := by
      rw [recvCheck, if_neg (not_not.mpr ready.place), hqueue]
    rw [hrecv] at recv
    obtain ⟨hmapped, hheld, hphys⟩ := @deliver_spec T _ w1 w1.channel c.receiver c.args false c.msg
      c.tag c.size c.cookie phys c.sender (space c.receiver) hmessage (htable ▸ ready.table)
      ready.nonempty ready.fits ready.given rfl
    rw [← recv, hmachine] at hmapped
    have hchannel : deliver w1.channel c.receiver c.args false c.msg [] = w2.channel :=
      (congrArg World.channel recv).symm
    rw [hchannel] at hheld hphys
    rw [answered_spec hheld hphys, hmapped]
  | @slowPath w1 w2 w3 w4 check join send resume =>
    have hcheck : recvCheck w.channel c.receiver c.args =
        { w.channel.setPhase c.receiver (.checked c.args) with
          receiversLock := some c.receiver } := by
      rw [recvCheck, if_neg (not_not.mpr ready.place), ready.queue]
    have hchecked : w1.machine = w.machine ∧ w1.channel.queue = [] ∧
        w1.channel.inFlight c.cookie = none := by
      rw [check, hcheck]
      exact ⟨after_quiet rfl, ready.queue, ready.table⟩
    have hjoined : w2.machine = w.machine ∧ w2.channel.queue = [] ∧
        w2.channel.inFlight c.cookie = none := by
      rw [join]
      exact ⟨(after_quiet rfl).trans hchecked.1, hchecked.2⟩
    obtain ⟨hmachine, hqueue, htable, hmessage⟩ :=
      @sent_spec _ _ space c w2 hjoined.2.1 ready.aligned ready.fits
    rw [← send] at hmachine hqueue htable hmessage
    rw [hjoined.1, page] at hmessage
    have hresume : recvResume w3.channel c.receiver c.args =
        deliver (w3.channel.resume c.receiver) c.receiver c.args true c.msg [] := by
      rw [recvResume, hqueue]
    rw [hresume] at resume
    obtain ⟨hmapped, hheld, hphys⟩ := @deliver_spec T _ w3 (w3.channel.resume c.receiver) c.receiver
      c.args true c.msg c.tag c.size c.cookie phys c.sender (space c.receiver) hmessage
      ((congrFun htable _).trans hjoined.2.2) ready.nonempty ready.fits ready.given rfl
    rw [← resume, hmachine, hjoined.1] at hmapped
    have hchannel : deliver (w3.channel.resume c.receiver) c.receiver c.args true c.msg [] =
        w4.channel := (congrArg World.channel resume).symm
    rw [hchannel] at hheld hphys
    rw [answered_spec hheld hphys, hmapped]

end Calls

/-! ## Which translations change -/

/-- In these address spaces nothing is translated in another way than before, but for the page of
the receiver's buffer. -/
def OnlyBuffer (spaces : BitVec 64 → Prop) (receiver buffer : BitVec 64) (m m' : Machine) : Prop :=
  ∀ q, spaces q → ∀ v, (q = receiver → pageNumber v ≠ pageNumber buffer) →
    translate m'.mem v 3 q = translate m.mem v 3 q

section Translations

variable {spaces : BitVec 64 → Prop} {sender receiver phys buffer : BitVec 64} {m : Machine}

theorem mapBuffer_spaces (h : Spaces spaces m) (hr : spaces receiver) (low : IsLower buffer)
    (phys : BitVec 64) :
    Spaces spaces (mapBuffer m receiver phys buffer) ∧
      OnlyBuffer spaces receiver buffer m (mapBuffer m receiver phys buffer) := by
  unfold mapBuffer
  split_ifs with hzero
  · exact ⟨h, fun q hq v hv => rfl⟩
  · have heffect := mapped_wayEffect (h.wellFormed receiver hr) (h.straight receiver hr buffer low)
      phys bufferFlags
    constructor
    · exact h.change hr low heffect
    · intro q hq v hv
      exact h.translations heffect hq hr low hv

/-- The unmapping goes unnoticed where nothing is mapped at the number of the page. -/
theorem exchange_onlyBuffer_iff (h : Spaces spaces m) (hs : spaces sender) (hr : spaces receiver)
    (low : IsLower buffer) :
    OnlyBuffer spaces receiver buffer m
        (unmapBuffer (mapBuffer m receiver phys buffer) sender phys) ↔
      phys = 0 ∨ translate m.mem phys 3 sender = none ∨
        (sender = receiver ∧ pageNumber phys = pageNumber buffer) := by
  obtain ⟨h1, hkept⟩ := mapBuffer_spaces h hr low phys
  by_cases hzero : phys = 0
  · rw [unmapBuffer, if_pos hzero]
    exact iff_of_true hkept (Or.inl hzero)
  generalize mapBuffer m receiver phys buffer = m1 at h1 hkept ⊢
  rw [unmapBuffer, if_neg hzero]
  by_cases hplace : sender = receiver ∧ pageNumber phys = pageNumber buffer
  · -- what is unmapped is the receiver's buffer
    obtain ⟨hsame, hpage⟩ := hplace
    have hphys : IsLower phys := by
      rw [IsLower, @index_eq_of_pageNumber phys buffer hpage 3 le_rfl]
      exact low
    have heffect := unmapped_wayEffect (h1.wellFormed sender hs) (h1.straight sender hs phys hphys)
    refine iff_of_true (fun q hq v hv => ?_) (Or.inr (Or.inr ⟨hsame, hpage⟩))
    have helsewhere : q = sender → pageNumber v ≠ pageNumber phys := by
      intro hqs
      rw [hpage]
      exact hv (hqs.trans hsame)
    exact (h1.translations heffect hq hs hphys helsewhere).trans (hkept q hq v hv)
  · have hout : sender = receiver → pageNumber phys ≠ pageNumber buffer :=
      fun hsame hpage => hplace ⟨hsame, hpage⟩
    have hsender := hkept sender hs phys hout
    rw [vmmUnmapPageIn_clear]
    constructor
    · intro honly
      have hcleared := honly sender hs phys hout
      rw [translate_clear (h1.wellFormed sender hs).tree] at hcleared
      exact Or.inr (Or.inl hcleared.symm)
    · rintro (hnull | hnone | hsame)
      · exact absurd hnull hzero
      · rw [clear_none (hsender.trans hnone)]
        exact hkept
      · exact absurd hsame hplace

end Translations

/-- A complete exchange changes no translation but that of the receiver's buffer page exactly when
the sender has nothing mapped at the address that is the number of its own buffer's page. -/
theorem exchange_keeps_translations_iff {T : Type} [DecidableEq T] {space : T → BitVec 64}
    {spaces : BitVec 64 → Prop} {c : Call T} {w w' : World T} (h : Spaces spaces w.machine)
    (sender : spaces (space c.sender)) (receiver : spaces (space c.receiver))
    (ready : Ready c w.channel) (user : isUserAddress c.args.buffer)
    (exchange : Exchange space c w w') :
    OnlyBuffer spaces (space c.receiver) c.args.buffer w.machine w'.machine ↔
      vmmVirtToPhysPage w.machine (space c.sender) c.buffer = 0 ∨
      translate w.machine.mem (vmmVirtToPhysPage w.machine (space c.sender) c.buffer) 3
        (space c.sender) = none ∨
      (space c.sender = space c.receiver ∧
        pageNumber (vmmVirtToPhysPage w.machine (space c.sender) c.buffer) =
          pageNumber c.args.buffer) := by
  rw [exchange.machine ready rfl]
  exact exchange_onlyBuffer_iff h sender receiver (userIndex user)

/-! ## Two address spaces -/

/-- Two empty top-level tables, and six free pages. -/
def twoSpaces : Machine where
  mem := fun _ _ => 0
  region := { size := 0x6000, free := 0x6000, stack := [{ base := 0x10000, size := 6 }] }

def IsRoot (q : BitVec 64) : Prop := q = 0x1000 ∨ q = 0x2000

theorem twoSpaces_spaces : Spaces IsRoot twoSpaces := by
  have hpages : PageAlloc.freePages twoSpaces.region =
      [0x10000, 0x11000, 0x12000, 0x13000, 0x14000, 0x15000] := by decide
  have hmembers : ∀ q f, TableTree.Member down twoSpaces.mem 3 q f → f = q :=
    fun q => (@empty_table twoSpaces.mem 3 q rfl).2
  constructor
  · intro q hq
    apply wellFormed_empty rfl
    · simp [PageAlloc.WellSized, twoSpaces]
    · rw [hpages]
      decide
    · rw [hpages]
      simp [IsFrame, vmmTableEntryToPhys]
    · rw [hpages]
      rcases hq with rfl | rfl <;> decide
  · intro q _ v _
    exact (empty_walk rfl v).1
  · intro q r _ _ hne hmember
    exact hne (hmembers r q hmember)
  · intro q r _ _ _ i c f _ hc
    exact absurd (down_eq_some.mp hc).1 not_isPresent_zero

/-- A page mapped for the first time. -/
theorem map_first {spaces : BitVec 64 → Prop} {m : Machine} {r v : BitVec 64}
    (h : Spaces spaces m) (hr : spaces r) (low : IsLower v)
    (enough : 3 ≤ (PageAlloc.freePages m.region).length) (page : BitVec 64) :
    vmmVirtToPtEntry (vmmMapPageIn m r v page bufferFlags).2 r v =
      (page &&& 0xfffffffffffff000) ||| 7 := by
  have hwf := h.wellFormed r hr
  have hstraight := h.straight r hr v low
  obtain ⟨ok, m', hrun⟩ : ∃ ok m', vmmMapPageIn m r v page bufferFlags = (ok, m') := ⟨_, _, rfl⟩
  have hok := (vmmMapPageIn_effect hwf hstraight hrun).enough enough
  rw [hok] at hrun
  rw [hrun]
  exact map_writes_one_page hwf hstraight hrun (by decide)

/-- The first address space with a page at `0x30000`, whose physical address is `0x400000`. -/
def bufferMapped : Machine := (vmmMapPageIn twoSpaces 0x1000 0x30000 0x400000 bufferFlags).2

/-- And with another page at the virtual address `0x400000`. -/
def codeMapped : Machine := (vmmMapPageIn bufferMapped 0x1000 0x400000 0x8000 bufferFlags).2

theorem bufferMapped_effect : WayEffect 0x1000 0x30000 twoSpaces bufferMapped :=
  mapped_wayEffect (twoSpaces_spaces.wellFormed _ (Or.inl rfl)) (empty_walk rfl _).1 _ _

theorem bufferMapped_spaces : Spaces IsRoot bufferMapped :=
  twoSpaces_spaces.change (Or.inl rfl) (by decide) bufferMapped_effect

theorem bufferMapped_entry : vmmVirtToPtEntry bufferMapped 0x1000 0x30000 = 0x400007 :=
  map_first twoSpaces_spaces (Or.inl rfl) (by decide) (by decide) 0x400000

theorem codeMapped_effect : WayEffect 0x1000 0x400000 bufferMapped codeMapped :=
  mapped_wayEffect (bufferMapped_spaces.wellFormed _ (Or.inl rfl))
    (bufferMapped_spaces.straight _ (Or.inl rfl) _ (by decide)) _ _

theorem codeMapped_entry : vmmVirtToPtEntry codeMapped 0x1000 0x400000 = 0x8007 := by
  obtain ⟨ok, hrun⟩ : ∃ ok, vmmMapPageIn twoSpaces 0x1000 0x30000 0x400000 bufferFlags =
      (ok, bufferMapped) := ⟨_, rfl⟩
  have heffect := vmmMapPageIn_effect (twoSpaces_spaces.wellFormed _ (Or.inl rfl))
    (empty_walk rfl _).1 hrun
  have hsix : (PageAlloc.freePages twoSpaces.region).length = 6 := by decide
  have hleft : 3 ≤ (PageAlloc.freePages bufferMapped.region).length := by
    have hcount := heffect.count
    omega
  exact map_first bufferMapped_spaces (Or.inl rfl) (by decide) hleft 0x8000

def spaceOf (t : Fin 3) : BitVec 64 := if t = ChannelDelivery.firstTask then 0x1000 else 0x2000

/-- The first task sends its page, which the second takes at `0x50000`. -/
def pageCall : Call (Fin 3) where
  sender := ChannelDelivery.firstTask
  receiver := ChannelDelivery.secondTask
  tag := 5
  size := 16
  buffer := 0x30000
  msg := 0x9000
  cookie := 7
  args := { tag := true, bufferSize := true, buffer := 0x50000 }
  result := 42

theorem pageCall_ready : Ready pageCall ChannelDelivery.created := by
  constructor <;> first | rfl | decide

theorem exchange_keeps_translations_iff_apart :
    vmmVirtToPhysPage bufferMapped 0x1000 0x30000 = 0x400000 ∧
      ∃ w', Exchange spaceOf pageCall ⟨ChannelDelivery.created, bufferMapped⟩ w' ∧
        OnlyBuffer IsRoot 0x2000 0x50000 bufferMapped w'.machine := by
  have hphys : vmmVirtToPhysPage bufferMapped 0x1000 0x30000 = 0x400000 := by
    rw [vmmVirtToPhysPage, bufferMapped_entry]
    decide
  have hempty : translate twoSpaces.mem 0x400000 3 0x1000 = none := by
    obtain ⟨hstraight, hleaf⟩ := @empty_walk twoSpaces.mem 3 0x1000 rfl 0x400000
    rw [translate_straight hstraight, hleaf]
    rfl
  have hnone : translate bufferMapped.mem 0x400000 3 0x1000 = none := by
    rw [twoSpaces_spaces.translations bufferMapped_effect (Or.inl rfl) (Or.inl rfl) (by decide)
      (fun _ => by decide)]
    exact hempty
  refine ⟨hphys, _, .fastPath rfl rfl, ?_⟩
  refine (@exchange_keeps_translations_iff _ _ spaceOf _ pageCall _ _ bufferMapped_spaces
    (Or.inl rfl) (Or.inr rfl) pageCall_ready (by decide) (.fastPath rfl rfl)).mpr ?_
  refine Or.inr (Or.inl ?_)
  exact hphys.symm ▸ hnone

/-- Where the sender has a page at the virtual address `0x400000`, it loses it. -/
theorem send_unmaps_another_page :
    ¬ ∀ w w' : World (Fin 3), Spaces IsRoot w.machine → Ready pageCall w.channel →
      Exchange spaceOf pageCall w w' →
        OnlyBuffer IsRoot (spaceOf pageCall.receiver) pageCall.args.buffer w.machine
          w'.machine := by
  intro honly
  have hspaces : Spaces IsRoot codeMapped :=
    bufferMapped_spaces.change (Or.inl rfl) (by decide) codeMapped_effect
  have hkept := (codeMapped_effect.others 0x30000
    (bufferMapped_spaces.straight _ (Or.inl rfl) _ (by decide))).2 (by decide)
  have hphys : vmmVirtToPhysPage codeMapped 0x1000 0x30000 = 0x400000 := by
    rw [vmmVirtToPhysPage, hkept, bufferMapped_entry]
    decide
  have hcode : translate codeMapped.mem 0x400000 3 0x1000 = some (0, 0x8007) := by
    have hentry : leaf codeMapped.mem 0x400000 3 0x1000 = 0x8007 := codeMapped_entry
    rw [translate_straight (hspaces.straight _ (Or.inl rfl) _ (by decide)), hentry]
    rfl
  have hexchange : Exchange spaceOf pageCall ⟨ChannelDelivery.created, codeMapped⟩ _ :=
    .fastPath rfl rfl
  have hsame := honly _ _ hspaces pageCall_ready hexchange
  rw [hexchange.machine pageCall_ready hphys] at hsame
  rcases (exchange_onlyBuffer_iff hspaces (Or.inl rfl) (Or.inr rfl) (by decide)).mp hsame with
    hnull | hnone | ⟨hroots, -⟩
  · exact absurd hnull (by decide)
  · rw [hcode] at hnone
    exact absurd hnone (by simp)
  · exact absurd hroots (by decide)

end BufferExchange
