import AnosKernel.PageBlocks

/-!
# The pages a process owns

Runs of `process_page_alloc`, `process_page_free` and `process_release_owned_pages` on one process.
The entries in its blocks are the pages that it was given and that have not been given back, and a
release gives every one of them back to the region it came from.
-/

namespace OwnedPages

open Chains PageBlocks Runs

/-- `elsewhere` is what the kernel does besides to memory and to the counts. -/
inductive Call
  | alloc (region page : BitVec 64) (answers : Answers)
  | free (physAddr : BitVec 64)
  | release
  | elsewhere (heap : BitVec 64 → ProcessPageBlock) (refs : RefCountMaps.World)

def exec (fuel : Nat) (w : World) : Call → Option World
  | .alloc region page answers => (processPageAlloc fuel true w region page answers).map Prod.snd
  | .free physAddr => (processPageFree fuel true w physAddr).map Prod.snd
  | .release => processReleaseOwnedPages fuel true w
  | .elsewhere heap refs => some { w with heap := heap, refs := refs }

/-- The call ends in the state `w'`. -/
def Returns (w : World) (call : Call) (w' : World) : Prop :=
  ∃ enough, ∀ fuel ≥ enough, exec fuel w call = some w'

/-- A page that is given out is not counted, and a new block is not one of the list; the rest of the
kernel keeps off the blocks, and does not share the pages. -/
def Permitted (w : World) : Call → Prop
  | .alloc _ page answers => w.refs.counts page = 0 ∧
      ∀ blocks, Blocks w blocks → ∀ blk ∈ blocks, answers.block ≠ some blk
  | .elsewhere heap refs => (∃ queue, RefCountMaps.Inv refs queue) ∧ ∀ blocks, Blocks w blocks →
      (∀ blk ∈ blocks, heap blk = w.heap blk) ∧
        ∀ e ∈ owned w.heap blocks, refs.counts e.addr = 0
  | _ => True

/-- A process without pages. -/
def Started (w : World) : Prop :=
  w.pages = none ∧ w.allocated = [] ∧ w.released = [] ∧ ∃ queue, RefCountMaps.Inv w.refs queue

def ownership : System World Call where
  init := Started
  step := fun w call w' => Permitted w call ∧ Returns w call w'

/-- A page is freed if it is owned, once and to its own region. -/
structure FreesOwned (w : World) (blocks : List (BitVec 64)) (physAddr : BitVec 64) (removed : Bool)
    (w' : World) : Prop where
  removed_iff : removed = true ↔ ∃ e ∈ owned w.heap blocks, e.addr = physAddr
  freed : removed = true → ∃ e ∈ owned w.heap blocks, e.addr = physAddr ∧
    w'.released = w.released ++ [e]
  kept : removed = false → w' = w

/-- The entries are the pages that were given and not given back. -/
structure Accounts (w : World) (blocks : List (BitVec 64)) : Prop where
  listed : Blocks w blocks
  books : (owned w.heap blocks ++ w.released).Perm w.allocated
  counts : ∀ blk ∈ blocks, 0 < (w.heap blk).count ∧ (w.heap blk).count ≤ pagesPerBlock
  free : ∀ physAddr, ∃ enough, ∀ fuel ≥ enough, ∃ removed w',
    processPageFree fuel true w physAddr = some (removed, w') ∧
      FreesOwned w blocks physAddr removed w'
  release : ∃ enough, ∀ fuel ≥ enough, ∃ w', processReleaseOwnedPages fuel true w = some w' ∧
    w'.pages = none ∧ w'.released = w.released ++ owned w.heap blocks

/-- What holds between the calls. -/
structure Sound (w : World) (blocks : List (BitVec 64)) : Prop where
  listed : Blocks w blocks
  counts : ∀ blk ∈ blocks, 0 < (w.heap blk).count ∧ (w.heap blk).count ≤ pagesPerBlock
  books : (owned w.heap blocks ++ w.released).Perm w.allocated
  refs : ∃ queue, RefCountMaps.Inv w.refs queue
  uncounted : ∀ e ∈ owned w.heap blocks, w.refs.counts e.addr = 0

/-! ## Blocks and entries -/

section Entries

variable {heap : BitVec 64 → ProcessPageBlock} {block : ProcessPageBlock} {e : ProcessPageEntry}
  {before after : List (BitVec 64)} {blk : BitVec 64} {i : Nat}

theorem entries_addEntry : entries (addEntry block e) = entries block ++ [e] := by
  rw [entries, entries, addEntry]
  dsimp only
  rw [List.range_succ, List.map_append, List.map_singleton, Function.update_self]
  congr 1
  apply List.map_congr_left
  intro k hk
  exact Function.update_of_ne (Nat.ne_of_lt (List.mem_range.mp hk)) _ _

/-- A list with another element behind it, which then takes the place of one of the list. -/
theorem perm_set {l : List ProcessPageEntry} (inside : i < l.length) (v : ProcessPageEntry) :
    (l ++ [v]).Perm (l[i] :: l.set i v) := by
  have hlist : l.Perm (l[i] :: (l.take i ++ l.drop (i + 1))) := by
    conv_lhs => rw [← List.take_append_drop i l, ← List.getElem_cons_drop inside]
    exact List.perm_middle
  have hset : (l.set i v).Perm (v :: (l.take i ++ l.drop (i + 1))) := by
    rw [List.set_eq_take_append_cons_drop, if_pos inside]
    exact List.perm_middle
  calc List.Perm (l ++ [v]) (v :: l) := List.perm_append_singleton v l
    List.Perm _ (v :: l[i] :: (l.take i ++ l.drop (i + 1))) := hlist.cons v
    List.Perm _ (l[i] :: v :: (l.take i ++ l.drop (i + 1))) := List.Perm.swap _ _ _
    List.Perm _ (l[i] :: l.set i v) := hset.symm.cons _

/-- The last entry takes the place of the one that is removed. -/
theorem entries_removeEntry (inside : i < block.count) :
    (entries block).Perm (block.pages i :: entries (removeEntry block i)) := by
  obtain ⟨n, hn⟩ : ∃ n, block.count = n + 1 := ⟨block.count - 1, by omega⟩
  have hrest : entries (removeEntry block i) =
      (List.range n).map (Function.update block.pages i (block.pages n)) := by
    rw [entries, removeEntry, hn, Nat.add_sub_cancel]
  rw [hrest, entries, hn, List.range_succ, List.map_append, List.map_singleton]
  by_cases hlast : i = n
  · have hsame : (List.range n).map (Function.update block.pages i (block.pages n)) =
        (List.range n).map block.pages := by
      rw [hlast, Function.update_eq_self]
    rw [hsame, hlast]
    exact List.perm_append_comm
  · have hlength : i < ((List.range n).map block.pages).length := by
      rw [List.length_map, List.length_range]
      omega
    have hset : (List.range n).map (Function.update block.pages i (block.pages n)) =
        ((List.range n).map block.pages).set i (block.pages n) := by
      apply List.ext_getElem
      · simp
      · intro k hk hk'
        rw [List.getElem_set, List.getElem_map, List.getElem_map, List.getElem_range]
        by_cases hki : i = k
        · rw [if_pos hki, hki, Function.update_self]
        · rw [if_neg hki, Function.update_of_ne (Ne.symm hki)]
    have hfirst : ((List.range n).map block.pages)[i] = block.pages i := by
      rw [List.getElem_map, List.getElem_range]
    rw [hset, ← hfirst]
    exact perm_set hlength (block.pages n)

theorem link_update (block : ProcessPageBlock) :
    link (Function.update heap blk block) = Function.update (link heap) blk block.next := by
  funext b
  by_cases hb : b = blk
  · simp [link, hb]
  · simp [link, hb]

theorem owned_append (heap : BitVec 64 → ProcessPageBlock) (xs ys : List (BitVec 64)) :
    owned heap (xs ++ ys) = owned heap xs ++ owned heap ys := List.flatMap_append

theorem owned_cons (heap : BitVec 64 → ProcessPageBlock) (blk : BitVec 64)
    (blocks : List (BitVec 64)) :
    owned heap (blk :: blocks) = entries (heap blk) ++ owned heap blocks := List.flatMap_cons

theorem owned_congr {heap' : BitVec 64 → ProcessPageBlock} {blocks : List (BitVec 64)}
    (same : ∀ b ∈ blocks, entries (heap' b) = entries (heap b)) :
    owned heap' blocks = owned heap blocks := List.flatMap_congr same

theorem owned_update_off {blocks : List (BitVec 64)} (off : blk ∉ blocks)
    (block : ProcessPageBlock) :
    owned (Function.update heap blk block) blocks = owned heap blocks := by
  apply owned_congr
  intro b hb
  rw [Function.update_of_ne (ne_of_mem_of_not_mem hb off)]

/-- Where one block is changed. -/
theorem owned_update (nodup : (before ++ blk :: after).Nodup) (block : ProcessPageBlock) :
    owned (Function.update heap blk block) (before ++ blk :: after) =
      owned heap before ++ (entries block ++ owned heap after) := by
  have hparts := List.nodup_append.mp nodup
  have hbefore : blk ∉ before := fun hb => hparts.2.2 blk hb blk List.mem_cons_self rfl
  have hafter : blk ∉ after := (List.nodup_cons.mp hparts.2.1).1
  rw [owned_append, owned_cons, Function.update_self, owned_update_off hbefore,
    owned_update_off hafter]

end Entries

/-! ## Removing a page -/

section Removing

variable {w : World} {blocks : List (BitVec 64)} {fuel : Nat} {region physAddr : BitVec 64}
  {queue : Nat → List (BitVec 64)}

/-- A page that is not counted is freed. -/
theorem dropPage_uncounted (inv : RefCountMaps.Inv w.refs queue)
    (enough : w.refs.map.numEntries ≤ fuel) (uncounted : w.refs.counts physAddr = 0) :
    dropPage fuel w region physAddr = some (pageFree w region physAddr) := by
  have hdecrement : RefCountMaps.refcountMapDecrement fuel w.refs physAddr = some (0, w.refs) := by
    obtain ⟨first, hfirst, ⟨hnone, -⟩ | ⟨before, entry, after, p, hqueue, haddr, -⟩⟩ :=
      inv.search physAddr enough
    · rw [RefCountMaps.refcountMapDecrement]
      simp only [hfirst, Option.bind_some, hnone, Option.map_some]
    · have hidx := RefCountMaps.hashAddress_lt inv.layout.pos physAddr
      have he : entry ∈ queue (RefCountMaps.hashAddress physAddr w.refs.map.size) := by
        rw [hqueue]
        simp
      have hpositive := inv.content.positive entry (RefCountMaps.mem_entriesOf.mpr ⟨_, hidx, he⟩)
      rw [haddr] at hpositive
      exact absurd uncounted hpositive
  rw [dropPage, hdecrement, Option.map_some]
  rfl

theorem findPage_some {block : ProcessPageBlock} {i : Nat} (h : findPage block physAddr = some i) :
    i < block.count ∧ (block.pages i).addr = physAddr := by
  have hfound := List.find?_some h
  exact ⟨List.mem_range.mp (List.mem_of_find?_eq_some h), by simpa using hfound⟩

theorem findPage_none {block : ProcessPageBlock} (h : findPage block physAddr = none) :
    ∀ e ∈ entries block, e.addr ≠ physAddr := by
  intro e he
  obtain ⟨i, hi, rfl⟩ := List.mem_map.mp he
  simpa using List.find?_eq_none.mp h i hi

/-- What the search for an address finds: a block with its place, and the block before it. -/
theorem findOwned_spec {heap : BitVec 64 → ProcessPageBlock} {prev first : Option (BitVec 64)}
    (chain : Chain (link heap) first blocks) (enough : blocks.length ≤ fuel) :
    (findOwned heap physAddr fuel prev first = some none ∧
      ∀ e ∈ owned heap blocks, e.addr ≠ physAddr) ∨
    ∃ before blk after i p, blocks = before ++ blk :: after ∧ i < (heap blk).count ∧
      ((heap blk).pages i).addr = physAddr ∧
      findOwned heap physAddr fuel prev first = some (some (p, blk, i)) ∧
      (before = [] ∧ p = prev ∨ ∃ bs c, before = bs ++ [c] ∧ p = some c) := by
  induction blocks generalizing fuel prev first with
  | nil =>
    obtain rfl : first = none := chain
    rw [findOwned]
    exact Or.inl ⟨rfl, fun e he => absurd he List.not_mem_nil⟩
  | cons blk blocks ih =>
    obtain ⟨rfl, htail⟩ := chain
    obtain ⟨fuel, rfl⟩ : ∃ n, fuel = n + 1 := ⟨fuel - 1, by simp at enough; omega⟩
    rw [findOwned]
    cases hpage : findPage (heap blk) physAddr with
    | some i =>
      obtain ⟨hi, haddr⟩ := findPage_some hpage
      exact Or.inr ⟨[], blk, blocks, i, prev, rfl, hi, haddr, rfl, Or.inl ⟨rfl, rfl⟩⟩
    | none =>
      have hfirst := findPage_none hpage
      rcases @ih fuel (some blk) _ htail (by simpa using enough) with
        ⟨hnone, habsent⟩ | ⟨before, blk', after, i, p, rfl, hi, haddr, hfound, hprev⟩
      · left
        refine ⟨hnone, fun e he => ?_⟩
        rw [owned_cons] at he
        rcases List.mem_append.mp he with he | he
        · exact hfirst e he
        · exact habsent e he
      · right
        refine ⟨blk :: before, blk', after, i, p, rfl, hi, haddr, hfound, Or.inr ?_⟩
        rcases hprev with ⟨rfl, rfl⟩ | ⟨bs, c, rfl, rfl⟩
        · exact ⟨[], blk, rfl, rfl⟩
        · exact ⟨blk :: bs, c, rfl, rfl⟩

/-- A block is taken out of the list. -/
theorem unlinkBlock_spec {before after : List (BitVec 64)} {blk page : BitVec 64}
    {p : Option (BitVec 64)} (pages : w.pages = some page)
    (chain : Chain (link w.heap) w.head (before ++ blk :: after))
    (prev : before = [] ∧ p = none ∨ ∃ bs c, before = bs ++ [c] ∧ p = some c) :
    Blocks (unlinkBlock w p blk) (before ++ after) ∧
      (∀ b, ((unlinkBlock w p blk).heap b).count = (w.heap b).count ∧
        entries ((unlinkBlock w p blk).heap b) = entries (w.heap b)) ∧
      (unlinkBlock w p blk).refs = w.refs ∧ (unlinkBlock w p blk).released = w.released ∧
      (unlinkBlock w p blk).allocated = w.allocated := by
  rcases prev with ⟨rfl, rfl⟩ | ⟨bs, c, rfl, rfl⟩
  · refine ⟨?_, fun b => ⟨rfl, rfl⟩, rfl, rfl, rfl⟩
    rw [Blocks, unlinkBlock, fbaFree]
    simp only [pages]
    exact chain.2
  · refine ⟨?_, fun b => ?_, rfl, rfl, rfl⟩
    · rw [Blocks, unlinkBlock, fbaFree]
      simp only [pages, link_update]
      rw [List.append_assoc, List.singleton_append] at chain
      rw [List.append_assoc, List.singleton_append]
      exact chain.unlinkAfter
    · rw [unlinkBlock, fbaFree]
      by_cases hb : b = c
      · simp [hb, entries]
      · simp [hb]

/-- A page that is owned is freed, and no other. -/
theorem Sound.remove (h : Sound w blocks) {page : BitVec 64} (pages : w.pages = some page)
    (walk : blocks.length ≤ fuel) (search : w.refs.map.numEntries ≤ fuel) (physAddr : BitVec 64) :
    (processRemoveOwnedPage fuel true w physAddr = some (false, w) ∧
      ∀ e ∈ owned w.heap blocks, e.addr ≠ physAddr) ∨
    ∃ e ∈ owned w.heap blocks, e.addr = physAddr ∧ ∃ w' blocks',
      processRemoveOwnedPage fuel true w physAddr = some (true, w') ∧ Sound w' blocks' ∧
        w'.released = w.released ++ [e] := by
  obtain ⟨queue, hinv⟩ := h.refs
  have hchain := h.listed.chain pages
  have hguard : (!true || w.pages.isNone) = false := by
    rw [pages]
    rfl
  rcases @findOwned_spec blocks fuel physAddr w.heap none _ hchain walk with
    ⟨hnone, habsent⟩ | ⟨before, blk, after, i, p, rfl, hi, rfl, hfound, hprev⟩
  · left
    refine ⟨?_, habsent⟩
    simp only [processRemoveOwnedPage, hguard, hnone]
    rfl
  · right
    have hnodup := chain_nodup hchain
    have hremove := entries_removeEntry hi
    have hentry : (w.heap blk).pages i ∈ owned w.heap (before ++ blk :: after) := by
      rw [owned_append, owned_cons]
      have hin := hremove.mem_iff.mpr List.mem_cons_self
      exact List.mem_append_right _ (List.mem_append_left _ hin)
    have huncounted := h.uncounted _ hentry
    let heap := Function.update w.heap blk (removeEntry (w.heap blk) i)
    have hself : heap blk = removeEntry (w.heap blk) i := Function.update_self _ _ _
    have hlink : link heap = link w.heap := by
      rw [link_update]
      exact Function.update_eq_self blk (link w.heap)
    have hperm : (owned w.heap (before ++ blk :: after)).Perm
        ((w.heap blk).pages i :: owned heap (before ++ blk :: after)) := by
      rw [owned_update hnodup, owned_append, owned_cons]
      refine (((hremove.append_right _).append_left _).trans ?_)
      exact List.perm_middle
    let w₁ : World := { pageFree w ((w.heap blk).pages i).region ((w.heap blk).pages i).addr with
      heap := heap }
    have hrun : processRemoveOwnedPage fuel true w ((w.heap blk).pages i).addr =
        some (true, if (heap blk).count = 0 then unlinkBlock w₁ p blk else w₁) := by
      simp only [processRemoveOwnedPage, hguard, hfound]
      simp only [Option.bind_some, dropPage_uncounted hinv search huncounted]
      rfl
    have hbooks : (owned heap (before ++ blk :: after) ++
        (w.released ++ [(w.heap blk).pages i])).Perm w.allocated := by
      refine List.Perm.trans ?_ ((hperm.append_right _).symm.trans h.books)
      rw [← List.append_assoc]
      exact List.perm_append_singleton _ _
    have hrest : ∀ e ∈ owned heap (before ++ blk :: after), w.refs.counts e.addr = 0 :=
      fun e he => h.uncounted e (hperm.mem_iff.mpr (List.mem_cons_of_mem _ he))
    have hothers : ∀ b ∈ before ++ after, heap b = w.heap b := by
      intro b hb
      apply Function.update_of_ne
      rintro rfl
      have hparts := List.nodup_append.mp hnodup
      rcases List.mem_append.mp hb with hb | hb
      · exact hparts.2.2 b hb b List.mem_cons_self rfl
      · exact (List.nodup_cons.mp hparts.2.1).1 hb
    have hold : ∀ b ∈ before ++ after, 0 < (heap b).count ∧ (heap b).count ≤ pagesPerBlock := by
      intro b hb
      rw [hothers b hb]
      apply h.counts b
      rw [List.mem_append, List.mem_cons]
      exact (List.mem_append.mp hb).imp_right Or.inr
    have hchain' : Chain (link heap) w.head (before ++ blk :: after) := by
      rw [hlink]
      exact hchain
    refine ⟨_, hentry, rfl, ?_⟩
    by_cases hempty : (heap blk).count = 0
    · obtain ⟨hlisted, hsame, hrefs, hreleased, hallocated⟩ :=
        @unlinkBlock_spec w₁ before after blk page p pages hchain' hprev
      have howned : owned (unlinkBlock w₁ p blk).heap (before ++ after) =
          owned heap (before ++ blk :: after) := by
        have hnone : entries (heap blk) = [] := by
          rw [entries, hempty]
          rfl
        rw [owned_congr fun b _ => (hsame b).2, owned_append, owned_append, owned_cons]
        exact congrArg (fun first => owned heap before ++ (first ++ owned heap after)) hnone.symm
      rw [if_pos hempty] at hrun
      refine ⟨_, before ++ after, hrun, ⟨hlisted, ?_, ?_, ?_, ?_⟩, hreleased⟩
      · intro b hb
        rw [(hsame b).1]
        exact hold b hb
      · rw [howned, hreleased, hallocated]
        exact hbooks
      · rw [hrefs]
        exact h.refs
      · rw [howned, hrefs]
        exact hrest
    · rw [if_neg hempty] at hrun
      refine ⟨w₁, before ++ blk :: after, hrun, ⟨?_, ?_, hbooks, h.refs, hrest⟩, rfl⟩
      · rw [Blocks]
        simp only [w₁, pageFree, pages]
        exact hchain'
      · intro b hb
        by_cases hblk : b = blk
        · rw [hblk]
          refine ⟨Nat.pos_of_ne_zero hempty, ?_⟩
          have hle := (h.counts blk (by simp)).2
          simp only [w₁, hself, removeEntry]
          omega
        · apply hold b
          rw [List.mem_append, List.mem_cons] at hb
          rw [List.mem_append]
          exact hb.imp_right fun hb => hb.resolve_left hblk

end Removing

/-! ## Releasing the pages -/

section Releasing

variable {w : World} {blocks : List (BitVec 64)} {fuel turns : Nat}
  {queue : Nat → List (BitVec 64)} {blk : BitVec 64}

theorem releaseBlock_eq (inv : RefCountMaps.Inv w.refs queue)
    (search : w.refs.map.numEntries ≤ fuel)
    (uncounted : ∀ e ∈ entries (w.heap blk), w.refs.counts e.addr = 0) :
    releaseBlock fuel w blk =
      some { w with released := w.released ++ entries (w.heap blk) } := by
  -- the pages of some of the places, with those of other places freed before
  have hplaces : ∀ (places : List Nat) (released : List ProcessPageEntry),
      (∀ i ∈ places, w.refs.counts ((w.heap blk).pages i).addr = 0) →
      places.foldlM (fun w i => dropPage fuel w ((w.heap blk).pages i).region
          ((w.heap blk).pages i).addr) { w with released := released } =
        some { w with released := released ++ places.map (w.heap blk).pages } := by
    intro places
    induction places with
    | nil =>
      intro released _
      rw [List.map_nil, List.append_nil]
      rfl
    | cons i places ih =>
      intro released hzero
      have hdrop := @dropPage_uncounted { w with released := released } fuel
        ((w.heap blk).pages i).region ((w.heap blk).pages i).addr queue inv search
        (hzero i List.mem_cons_self)
      rw [List.foldlM_cons]
      simp only [hdrop, pageFree]
      have hrest := ih (released ++ [(w.heap blk).pages i])
        fun j hj => hzero j (List.mem_cons_of_mem i hj)
      rw [List.append_assoc, List.singleton_append] at hrest
      exact hrest
  exact hplaces _ w.released fun i hi => uncounted _ (List.mem_map_of_mem hi)

theorem releaseBlocks_eq {first : Option (BitVec 64)} (inv : RefCountMaps.Inv w.refs queue)
    (search : w.refs.map.numEntries ≤ fuel) (chain : Chain (link w.heap) first blocks)
    (walk : blocks.length ≤ turns)
    (uncounted : ∀ e ∈ owned w.heap blocks, w.refs.counts e.addr = 0) :
    releaseBlocks fuel turns first w = some { w with
      released := w.released ++ owned w.heap blocks
      freed := w.freed ++ blocks } := by
  induction blocks generalizing turns first w with
  | nil =>
    obtain rfl : first = none := chain
    simp only [releaseBlocks, owned, List.flatMap_nil, List.append_nil]
  | cons blk blocks ih =>
    obtain ⟨rfl, htail⟩ := chain
    obtain ⟨turns, rfl⟩ : ∃ n, turns = n + 1 := ⟨turns - 1, by simp at walk; omega⟩
    rw [owned_cons] at uncounted
    have hblock := @releaseBlock_eq w fuel queue blk inv search
      fun e he => uncounted e (List.mem_append_left _ he)
    rw [releaseBlocks, hblock, Option.bind_some]
    have hrest := @ih (fbaFree { w with released := w.released ++ entries (w.heap blk) } blk)
      turns _ inv search htail (by simpa using walk)
      fun e he => uncounted e (List.mem_append_right _ he)
    refine hrest.trans ?_
    rw [owned_cons]
    simp only [fbaFree, List.append_assoc, List.singleton_append]

/-- A release frees all pages that are owned. -/
theorem Sound.release (h : Sound w blocks) (walk : blocks.length ≤ fuel)
    (search : w.refs.map.numEntries ≤ fuel) :
    ∃ w', processReleaseOwnedPages fuel true w = some w' ∧ w'.pages = none ∧
      w'.released = w.released ++ owned w.heap blocks ∧ Sound w' [] := by
  obtain ⟨queue, hinv⟩ := h.refs
  have hlisted := h.listed
  have hbooks := h.books
  rw [processReleaseOwnedPages]
  cases hpages : w.pages with
  | none =>
    rw [Blocks, hpages] at hlisted
    obtain rfl : blocks = [] := hlisted
    exact ⟨w, rfl, hpages, (List.append_nil _).symm, h⟩
  | some page =>
    rw [releaseBlocks_eq hinv search (hlisted.chain hpages) walk h.uncounted]
    refine ⟨_, rfl, rfl, rfl, rfl, fun b hb => absurd hb List.not_mem_nil, ?_, h.refs,
      fun e he => absurd he List.not_mem_nil⟩
    have hback : (w.released ++ owned w.heap blocks).Perm w.allocated :=
      List.perm_append_comm.trans hbooks
    exact hback

end Releasing

/-! ## Adding a page -/

section Adding

variable {w : World} {blocks : List (BitVec 64)} {fuel : Nat} {region page : BitVec 64}
  {answers : Answers}

/-- An entry that is added to the list, for a page that was just given out. -/
theorem Sound.addToBlock (h : Sound w blocks) {header : BitVec 64} (pages : w.pages = some header)
    (e : ProcessPageEntry) (uncounted : w.refs.counts e.addr = 0)
    (fresh : ∀ blk ∈ blocks, answers.block ≠ some blk) {room : Option (BitVec 64)}
    (hroom : room = none ∨ ∃ before blk after, blocks = before ++ blk :: after ∧
      (w.heap blk).count < pagesPerBlock ∧ room = some blk) {added : Bool} {w' : World}
    (hadd : PageBlocks.addToBlock { w with allocated := w.allocated ++ [e] } e answers.block room =
      (added, w')) :
    (added = false ∧ w' = { w with allocated := w.allocated ++ [e] }) ∨
      added = true ∧ ∃ blocks', Sound w' blocks' := by
  have hchain := h.listed.chain pages
  rcases hroom with rfl | ⟨before, blk, after, rfl, hfits, rfl⟩
  · cases hblock : answers.block with
    | none =>
      rw [hblock] at hadd
      obtain ⟨rfl, rfl⟩ := Prod.mk.inj hadd
      exact Or.inl ⟨rfl, rfl⟩
    | some blk =>
      rw [hblock] at hadd
      obtain ⟨rfl, rfl⟩ := Prod.mk.inj hadd
      have hoff : blk ∉ blocks := fun hmem => fresh blk hmem hblock
      have hnew : entries (addEntry { w.heap blk with count := 0, next := w.head } e) = [e] := by
        rw [entries_addEntry]
        rfl
      have howned : owned (Function.update w.heap blk
          (addEntry { w.heap blk with count := 0, next := w.head } e)) (blk :: blocks) =
            e :: owned w.heap blocks := by
        rw [owned_cons, Function.update_self, owned_update_off hoff, hnew]
        rfl
      refine Or.inr ⟨rfl, blk :: blocks, ?_, ?_, ?_, h.refs, ?_⟩
      · rw [Blocks]
        simp only [pages, link_update]
        exact hchain.push hoff
      · intro b hb
        rcases List.mem_cons.mp hb with rfl | hb
        · simp only [Function.update_self, addEntry]
          exact ⟨Nat.zero_lt_succ 0, by decide⟩
        · simp only [Function.update_of_ne (ne_of_mem_of_not_mem hb hoff)]
          exact h.counts b hb
      · simp only [howned]
        refine List.Perm.trans ?_ (h.books.append_right [e])
        exact (List.perm_append_singleton e _).symm
      · simp only [howned]
        intro e' he'
        rcases List.mem_cons.mp he' with rfl | he'
        · exact uncounted
        · exact h.uncounted e' he'
  · obtain ⟨rfl, rfl⟩ := Prod.mk.inj hadd
    have howned := @owned_update w.heap before after blk (chain_nodup hchain)
      (addEntry (w.heap blk) e)
    have hperm : (owned (Function.update w.heap blk (addEntry (w.heap blk) e))
        (before ++ blk :: after)).Perm (e :: owned w.heap (before ++ blk :: after)) := by
      rw [howned, entries_addEntry, owned_append, owned_cons, List.append_assoc,
        List.singleton_append]
      refine (List.perm_middle.append_left _).trans ?_
      exact List.perm_middle
    refine Or.inr ⟨rfl, before ++ blk :: after, ?_, ?_, ?_, h.refs, ?_⟩
    · rw [Blocks]
      simp only [pages, link_update]
      have hsame : Function.update (link w.heap) blk (addEntry (w.heap blk) e).next =
          link w.heap := Function.update_eq_self blk (link w.heap)
      rw [hsame]
      exact hchain
    · intro b hb
      by_cases hblk : b = blk
      · rw [hblk]
        simp only [Function.update_self, addEntry]
        exact ⟨Nat.zero_lt_succ _, hfits⟩
      · simp only [Function.update_of_ne hblk]
        exact h.counts b hb
    · refine ((hperm.append_right _).trans ?_).trans (h.books.append_right [e])
      exact (List.perm_append_singleton e _).symm
    · intro e' he'
      rcases List.mem_cons.mp (hperm.mem_iff.mp he') with rfl | he'
      · exact uncounted
      · exact h.uncounted e' he'

/-- A page that is given back at once. -/
theorem Sound.given_back (h : Sound w blocks) (region page : BitVec 64) :
    Sound (pageFree { w with allocated := w.allocated ++ [⟨region, page⟩] } region page) blocks := by
  refine ⟨h.listed, h.counts, ?_, h.refs, h.uncounted⟩
  simp only [pageFree]
  rw [← List.append_assoc]
  exact h.books.append_right _

theorem Sound.alloc (h : Sound w blocks) (walk : blocks.length ≤ fuel)
    (permitted : Permitted w (.alloc region page answers)) :
    ∃ r w' blocks', processPageAlloc fuel true w region page answers = some (r, w') ∧
      Sound w' blocks' := by
  obtain ⟨huncounted, hfresh⟩ := permitted
  rw [processPageAlloc]
  simp only [Bool.not_true, Bool.false_eq_true, if_false]
  by_cases hfailed : page &&& 0xff ≠ 0
  · rw [if_pos hfailed]
    exact ⟨page, w, blocks, rfl, h⟩
  · rw [if_neg hfailed]
    let w₀ : World := { w with allocated := w.allocated ++ [⟨region, page⟩] }
    by_cases hheader : w₀.pages = none → answers.header.isSome
    · obtain ⟨w₁, header, hwith, hpages, hframe, hblocks⟩ := withPages_some hheader
      let w₂ : World := { w with pages := w₁.pages, head := w₁.head }
      have hw₁ : w₁ = { w₂ with allocated := w₂.allocated ++ [⟨region, page⟩] } := hframe
      have hlisted : Blocks w₁ blocks := hblocks blocks h.listed
      have hsound : Sound w₂ blocks := by
        refine ⟨?_, h.counts, h.books, h.refs, h.uncounted⟩
        rw [hw₁] at hlisted
        exact hlisted
      have hcases : ∃ room added w', (room = none ∨ ∃ before blk after,
            blocks = before ++ blk :: after ∧ (w₂.heap blk).count < pagesPerBlock ∧
              room = some blk) ∧
          processAddOwnedPage fuel true w₀ region page false answers = some (added, w') ∧
          PageBlocks.addToBlock w₁ ⟨region, page⟩ answers.block room = (added, w') := by
        rcases @add_counted w₀ blocks fuel page answers w₁ header region false hwith hlisted hpages
            walk w₁.refs rfl with ⟨hrun, -⟩ | ⟨before, blk, after, hsplit, hroom, hrun⟩
        · exact ⟨none, _, _, Or.inl rfl, hrun, rfl⟩
        · refine ⟨some blk, _, _, Or.inr ⟨before, blk, after, hsplit, ?_, rfl⟩, hrun, rfl⟩
          rw [hw₁] at hroom
          exact hroom
      obtain ⟨room, added, w', hroom, hrun, hadd⟩ := hcases
      rw [hw₁] at hadd
      rw [hrun, Option.map_some]
      rcases hsound.addToBlock hpages ⟨region, page⟩ huncounted (hfresh blocks h.listed) hroom hadd
        with ⟨rfl, rfl⟩ | ⟨rfl, blocks', hsound'⟩
      · exact ⟨0xff, _, blocks, rfl, hsound.given_back region page⟩
      · exact ⟨page, w', blocks', rfl, hsound'⟩
    · have hrun : processAddOwnedPage fuel true w₀ region page false answers = some (false, w₀) := by
        rw [processAddOwnedPage, withPages_none hheader]
        rfl
      rw [hrun, Option.map_some]
      exact ⟨0xff, _, blocks, rfl, h.given_back region page⟩

end Adding

/-! ## Runs -/

section Runs

variable {w w' : World} {blocks : List (BitVec 64)}

/-- What a call needs to end. -/
def enough (w : World) (blocks : List (BitVec 64)) : Nat :=
  max blocks.length w.refs.map.numEntries

theorem Sound.free (h : Sound w blocks) {fuel : Nat} (walk : blocks.length ≤ fuel)
    (search : w.refs.map.numEntries ≤ fuel) (physAddr : BitVec 64) :
    ∃ removed w' blocks', processPageFree fuel true w physAddr = some (removed, w') ∧
      FreesOwned w blocks physAddr removed w' ∧ Sound w' blocks' := by
  have hcall : processPageFree fuel true w physAddr =
      processRemoveOwnedPage fuel true w physAddr := rfl
  rw [hcall]
  cases hpages : w.pages with
  | none =>
    have hlisted := h.listed
    rw [Blocks, hpages] at hlisted
    obtain rfl : blocks = [] := hlisted
    refine ⟨false, w, [], ?_, ⟨?_, fun hno => absurd hno Bool.false_ne_true, fun _ => rfl⟩, h⟩
    · rw [processRemoveOwnedPage, hpages]
      rfl
    · refine iff_of_false Bool.false_ne_true ?_
      rintro ⟨e, he, -⟩
      exact absurd he List.not_mem_nil
  | some page =>
    rcases h.remove hpages walk search physAddr with
      ⟨hrun, habsent⟩ | ⟨e, he, haddr, w', blocks', hrun, hsound, hreleased⟩
    · refine ⟨false, w, blocks, hrun,
        ⟨?_, fun hno => absurd hno Bool.false_ne_true, fun _ => rfl⟩, h⟩
      refine iff_of_false Bool.false_ne_true ?_
      rintro ⟨e, he, haddr⟩
      exact habsent e he haddr
    · exact ⟨true, w', blocks', hrun,
        ⟨iff_of_true rfl ⟨e, he, haddr⟩, fun _ => ⟨e, he, haddr, hreleased⟩,
          fun hno => absurd hno.symm Bool.false_ne_true⟩, hsound⟩

/-- One call. -/
theorem Sound.call (h : Sound w blocks) {call : Call} (permitted : Permitted w call)
    (returns : Returns w call w') : ∃ blocks', Sound w' blocks' := by
  obtain ⟨n, hreturns⟩ := returns
  have hrun := hreturns (max n (enough w blocks)) (Nat.le_max_left _ _)
  have hwalk : blocks.length ≤ max n (enough w blocks) :=
    Nat.le_trans (Nat.le_max_left _ _) (Nat.le_max_right _ _)
  have hsearch : w.refs.map.numEntries ≤ max n (enough w blocks) :=
    Nat.le_trans (Nat.le_max_right _ _) (Nat.le_max_right _ _)
  cases call with
  | alloc region page answers =>
    obtain ⟨r, w'', blocks', hcall, hsound⟩ := h.alloc hwalk permitted
    rw [exec, hcall] at hrun
    obtain rfl : w'' = w' := Option.some.inj hrun
    exact ⟨blocks', hsound⟩
  | free physAddr =>
    obtain ⟨removed, w'', blocks', hcall, -, hsound⟩ := h.free hwalk hsearch physAddr
    rw [exec, hcall] at hrun
    obtain rfl : w'' = w' := Option.some.inj hrun
    exact ⟨blocks', hsound⟩
  | release =>
    obtain ⟨w'', hcall, -, -, hsound⟩ := h.release hwalk hsearch
    rw [exec, hcall] at hrun
    obtain rfl : w'' = w' := Option.some.inj hrun
    exact ⟨[], hsound⟩
  | elsewhere heap refs =>
    obtain ⟨hrefs, hkeeps⟩ := permitted
    obtain ⟨hheap, hzero⟩ := hkeeps blocks h.listed
    obtain rfl : { w with heap := heap, refs := refs } = w' := Option.some.inj hrun
    have howned : owned heap blocks = owned w.heap blocks :=
      owned_congr fun b hb => by rw [hheap b hb]
    refine ⟨blocks, ?_, ?_, ?_, hrefs, ?_⟩
    · have hlisted := h.listed
      rw [Blocks] at hlisted ⊢
      cases hpages : w.pages with
      | none =>
        rw [hpages] at hlisted
        exact hlisted
      | some page =>
        rw [hpages] at hlisted
        apply Seg.congr hlisted
        intro b hb
        exact congrArg ProcessPageBlock.next (hheap b hb)
    · intro b hb
      simp only [hheap b hb]
      exact h.counts b hb
    · rw [howned]
      exact h.books
    · rw [howned]
      exact hzero

theorem reachable_sound (h : Reachable ownership w) : ∃ blocks, Sound w blocks := by
  refine h.invariant (fun w => ∃ blocks, Sound w blocks) ?_ ?_
  · rintro w ⟨hpages, hallocated, hreleased, hrefs⟩
    refine ⟨[], ?_, fun b hb => absurd hb List.not_mem_nil, ?_, hrefs,
      fun e he => absurd he List.not_mem_nil⟩
    · rw [Blocks, hpages]
    · rw [hallocated, hreleased]
      exact List.Perm.nil
  · rintro w call w' ⟨blocks, hsound⟩ ⟨hpermitted, hreturns⟩
    exact hsound.call hpermitted hreturns

end Runs

/-- In every run the entries in the blocks are the pages that the process was given and has not
given back. -/
theorem entries_are_owned_pages {w : World} (h : Reachable ownership w) :
    ∃ blocks, Accounts w blocks := by
  obtain ⟨blocks, hsound⟩ := reachable_sound h
  refine ⟨blocks, hsound.listed, hsound.books, hsound.counts, fun physAddr => ?_, ?_⟩
  · refine ⟨enough w blocks, fun fuel hfuel => ?_⟩
    obtain ⟨removed, w', -, hcall, hfrees, -⟩ := hsound.free
      (Nat.le_trans (Nat.le_max_left _ _) hfuel) (Nat.le_trans (Nat.le_max_right _ _) hfuel) physAddr
    exact ⟨removed, w', hcall, hfrees⟩
  · refine ⟨enough w blocks, fun fuel hfuel => ?_⟩
    obtain ⟨w', hcall, hpages, hreleased, -⟩ := hsound.release
      (Nat.le_trans (Nat.le_max_left _ _) hfuel) (Nat.le_trans (Nat.le_max_right _ _) hfuel)
    exact ⟨w', hcall, hpages, hreleased⟩

/-- One page, in the first block of a process. -/
theorem entries_are_owned_pages_one :
    ∃ w blocks, Accounts w blocks ∧ owned w.heap blocks = [⟨7, 0x5000⟩] := by
  obtain ⟨refs, hstart, -⟩ := RefCountMaps.exists_started
  let start : World := ⟨none, none, fun _ => ⟨none, 0, fun _ => ⟨0, 0⟩⟩, refs, [], [], []⟩
  let answers : Answers := ⟨some 0x8000, some 0x9000, ⟨false, fun _ => none, none⟩⟩
  have hstarted : Reachable ownership start :=
    .start ⟨rfl, rfl, rfl, _, RefCountMaps.started_inv hstart⟩
  have hpermitted : Permitted start (.alloc 7 0x5000 answers) := by
    refine ⟨hstart.2 0x5000, fun blocks hblocks blk hblk => ?_⟩
    obtain rfl : blocks = [] := hblocks
    exact absurd hblk List.not_mem_nil
  let filled : World :=
    ⟨some 0x8000, some 0x9000, Function.update start.heap 0x9000
      (addEntry ⟨none, 0, fun _ => ⟨0, 0⟩⟩ ⟨7, 0x5000⟩), refs, [⟨7, 0x5000⟩], [], []⟩
  have hreturns : Returns start (.alloc 7 0x5000 answers) filled := by
    refine ⟨0, fun fuel _ => ?_⟩
    cases fuel with
    | zero => rfl
    | succ fuel => rfl
  obtain ⟨blocks, haccounts⟩ := entries_are_owned_pages (hstarted.next ⟨hpermitted, hreturns⟩)
  refine ⟨filled, blocks, haccounts, ?_⟩
  have hbooks : (owned filled.heap blocks ++ []).Perm [⟨7, 0x5000⟩] := haccounts.books
  rw [List.append_nil] at hbooks
  exact List.perm_singleton.mp hbooks

end OwnedPages
