import AnosKernel.Lib.Runs
import AnosKernel.MapSyscalls
import AnosKernel.RegionTree

/-!
# The region system calls

`handle_create_region` and `handle_destroy_region` of `kernel/syscalls.c` on the region tree of
one process. A request first looks for an adjacent region with the same flags and extends it in
place; only a request without such a neighbour is checked for overlap. The address of a node is
its path from the root.
-/

namespace RegionSyscalls

open MapSyscalls RegionTrees Runs

inductive Side
  | left
  | right
  deriving DecidableEq, Repr

/-- The path to the adjacent node, if the search meets one. -/
def regionTreeFindAdjacent (start stop flags : BitVec 64) : RegionTree → Option (List Side)
  | .null => none
  | .node region _ left right =>
    if stop = region.start ∧ flags = region.flags then some []
    else if start = region.stop ∧ flags = region.flags then some []
    else if stop ≤ region.start then
      (regionTreeFindAdjacent start stop flags left).map (Side.left :: ·)
    else if start ≥ region.stop then
      (regionTreeFindAdjacent start stop flags right).map (Side.right :: ·)
    else none

def regionTreeOverlaps (start stop : BitVec 64) : RegionTree → Bool
  | .null => false
  | .node region _ left right =>
    if start < region.stop ∧ stop > region.start then true
    else if stop ≤ region.start then regionTreeOverlaps start stop left
    else regionTreeOverlaps start stop right

/-- A write to the node at the end of a path. -/
def updateAt (f : Region → Region) : List Side → RegionTree → RegionTree
  | _, .null => .null
  | [], .node region h left right => .node (f region) h left right
  | .left :: path, .node region h left right => .node region h (updateAt f path left) right
  | .right :: path, .node region h left right => .node region h left (updateAt f path right)

/-- `adj->start = start` or `adj->end = end`. -/
def extend (start stop : BitVec 64) (adj : Region) : Region :=
  if stop = adj.start then { adj with start := start }
  else if start = adj.stop then { adj with stop := stop }
  else adj

def createAccepts (start stop : BitVec 64) : Bool :=
  !(start &&& 0xfff != 0 || stop &&& 0xfff != 0 || stop ≤ start || start ≥ userspaceLimit ||
    stop > userspaceLimit)

/-- `slab` is the answer of `slab_alloc_block`. -/
def handleCreateRegion (slab : Bool) (start stop flags : BitVec 64) (regions : RegionTree) :
    SyscallResult × RegionTree :=
  if createAccepts start stop then
    match regionTreeFindAdjacent start stop flags regions with
    | some path => (resultOk, updateAt (extend start stop) path regions)
    | none =>
      if regionTreeOverlaps start stop regions then (resultOk, regions)
      else if slab then (resultOk, regions.regionTreeInsert ⟨start, stop, flags⟩)
      else (resultFailure, regions)
  else (resultBadargs, regions)

def handleDestroyRegion (start : BitVec 64) (regions : RegionTree) : SyscallResult × RegionTree :=
  if start &&& 0xfff ≠ 0 ∨ start ≥ userspaceLimit then (resultBadargs, regions)
  else (resultOk, regions.regionTreeRemove start)

/-! ## Disjoint regions -/

/-- Some address lies in the region and in the range. -/
def Overlaps (region : Region) (start stop : BitVec 64) : Prop :=
  ∃ addr, region.start ≤ addr ∧ addr < region.stop ∧ start ≤ addr ∧ addr < stop

/-- Each region is not empty and ends before the next one starts. -/
structure Apart (regions : List Region) : Prop where
  filled : ∀ a ∈ regions, a.start < a.stop
  ordered : regions.Pairwise fun a b => a.stop ≤ b.start

variable {start stop flags : BitVec 64}

theorem overlaps_iff {region : Region} (hregion : region.start < region.stop)
    (hrange : start < stop) :
    Overlaps region start stop ↔ start < region.stop ∧ region.start < stop := by
  constructor
  · rintro ⟨addr, hle, hlt, hle', hlt'⟩
    exact ⟨by bv_omega, by bv_omega⟩
  · rintro ⟨hlt, hlt'⟩
    by_cases hfirst : region.start ≤ start
    · exact ⟨start, hfirst, hlt, by bv_omega, hrange⟩
    · exact ⟨region.start, by bv_omega, hregion, by bv_omega, hlt'⟩

/-- A region that the range does not overlap lies before it or after it. -/
theorem apart_of_not_overlaps {region : Region} (hregion : region.start < region.stop)
    (hrange : start < stop) (h : ¬ Overlaps region start stop) :
    region.stop ≤ start ∨ stop ≤ region.start := by
  rw [overlaps_iff hregion hrange] at h
  by_cases hlt : start < region.stop
  · exact Or.inr (by bv_omega)
  · exact Or.inl (by bv_omega)

theorem Apart.sorted {regions : List Region} (h : Apart regions) : RegionTree.Sorted regions := by
  have hordered := h.ordered
  have hfilled := h.filled
  clear h
  induction regions with
  | nil => exact List.Pairwise.nil
  | cons a rest ih =>
    obtain ⟨hfirst, hrest⟩ := List.pairwise_cons.mp hordered
    refine List.pairwise_cons.mpr ⟨fun b hb => ?_, ih hrest fun b hb => hfilled b (by simp [hb])⟩
    have hstop := hfirst b hb
    have hlt := hfilled a List.mem_cons_self
    bv_omega

theorem Apart.sublist {regions regions' : List Region} (h : Apart regions)
    (hsub : regions'.Sublist regions) : Apart regions' :=
  ⟨fun a ha => h.filled a (hsub.subset ha), h.ordered.sublist hsub⟩

theorem Apart.node {region : Region} {left right : List Region}
    (h : Apart (left ++ region :: right)) :
    Apart left ∧ Apart right ∧ (∀ a ∈ left, a.stop ≤ region.start) ∧
      (∀ b ∈ right, region.stop ≤ b.start) ∧ region.start < region.stop := by
  obtain ⟨-, hordered_right, hcross⟩ := List.pairwise_append.mp h.ordered
  refine ⟨h.sublist (by simp), h.sublist (by simp), fun a ha => hcross a ha region (by simp),
    (List.pairwise_cons.mp hordered_right).1, h.filled region (by simp)⟩

/-- A region between two parts of the sequence. -/
theorem Apart.between {left right : List Region} {region : Region} (h : Apart (left ++ right))
    (hregion : region.start < region.stop) (hleft : ∀ a ∈ left, a.stop ≤ region.start)
    (hright : ∀ b ∈ right, region.stop ≤ b.start) : Apart (left ++ region :: right) := by
  obtain ⟨hordered_left, hordered_right, hcross⟩ := List.pairwise_append.mp h.ordered
  constructor
  · intro a ha
    rcases List.mem_append.mp ha with ha | ha
    · exact h.filled a (by simp [ha])
    · rcases List.mem_cons.mp ha with rfl | ha
      · exact hregion
      · exact h.filled a (by simp [ha])
  · refine List.pairwise_append.mpr
      ⟨hordered_left, List.pairwise_cons.mpr ⟨hright, hordered_right⟩, fun a ha b hb => ?_⟩
    rcases List.mem_cons.mp hb with rfl | hb
    · exact hleft a ha
    · exact hcross a ha b hb

/-! ## What the searches find -/

/-- On regions apart the overlap search misses nothing. -/
theorem not_overlaps_of_search {tree : RegionTree} (h : Apart tree.inorder) (hrange : start < stop)
    (hsearch : regionTreeOverlaps start stop tree = false) :
    ∀ a ∈ tree.inorder, ¬ Overlaps a start stop := by
  induction tree with
  | null => simp
  | node region height left right ihl ihr =>
    obtain ⟨hleft, hright, hbefore, hafter, hregion⟩ := h.node
    rw [regionTreeOverlaps] at hsearch
    split at hsearch
    · exact absurd hsearch (by simp)
    · rename_i hroot
      have hroot' : ¬ Overlaps region start stop := by
        rw [overlaps_iff hregion hrange]
        exact hroot
      have hsides : ∀ a ∈ left.inorder ++ right.inorder, ¬ Overlaps a start stop := by
        split at hsearch
        · -- the range lies before this node, hence before everything right of it
          rename_i hfirst
          intro a ha
          rcases List.mem_append.mp ha with ha | ha
          · exact ihl hleft hsearch a ha
          · have hge := hafter a ha
            rw [overlaps_iff (hright.filled a ha) hrange]
            bv_omega
        · rename_i hlast
          have hstart : region.stop ≤ start :=
            (apart_of_not_overlaps hregion hrange hroot').resolve_right hlast
          intro a ha
          rcases List.mem_append.mp ha with ha | ha
          · have hle := hbefore a ha
            rw [overlaps_iff (hleft.filled a ha) hrange]
            bv_omega
          · exact ihr hright hsearch a ha
      intro a ha
      rcases List.mem_append.mp ha with ha | ha
      · exact hsides a (by simp [ha])
      · rcases List.mem_cons.mp ha with rfl | ha
        · exact hroot'
        · exact hsides a (by simp [ha])

/-- The node found is adjacent, and a write to it changes one place of the sequence. -/
theorem findAdjacent_split {tree : RegionTree} {path : List Side}
    (h : regionTreeFindAdjacent start stop flags tree = some path) :
    ∃ before adj after, tree.inorder = before ++ adj :: after ∧
      (stop = adj.start ∨ start = adj.stop) ∧
      ∀ f, (updateAt f path tree).inorder = before ++ f adj :: after := by
  induction tree generalizing path with
  | null => exact absurd h (by simp [regionTreeFindAdjacent])
  | node region height left right ihl ihr =>
    rw [regionTreeFindAdjacent] at h
    split at h
    · rename_i hadj
      cases h
      exact ⟨left.inorder, region, right.inorder, rfl, Or.inl hadj.1, fun f => rfl⟩
    · split at h
      · rename_i hadj
        cases h
        exact ⟨left.inorder, region, right.inorder, rfl, Or.inr hadj.1, fun f => rfl⟩
      · split at h
        · obtain ⟨path', hpath', rfl⟩ := Option.map_eq_some_iff.mp h
          obtain ⟨before, adj, after, hsplit, hadj, hwrite⟩ := ihl hpath'
          refine ⟨before, adj, after ++ region :: right.inorder, ?_, hadj, fun f => ?_⟩
          · rw [RegionTree.inorder_node, hsplit, List.append_assoc, List.cons_append]
          · rw [updateAt, RegionTree.inorder_node, hwrite, List.append_assoc, List.cons_append]
        · split at h
          · obtain ⟨path', hpath', rfl⟩ := Option.map_eq_some_iff.mp h
            obtain ⟨before, adj, after, hsplit, hadj, hwrite⟩ := ihr hpath'
            refine ⟨left.inorder ++ region :: before, adj, after, ?_, hadj, fun f => ?_⟩
            · rw [RegionTree.inorder_node, hsplit, List.append_assoc, List.cons_append]
            · rw [updateAt, RegionTree.inorder_node, hwrite, List.append_assoc, List.cons_append]
          · exact absurd h (by simp)

/-! ## The calls keep the regions apart -/

theorem createAccepts_lt (h : createAccepts start stop = true) :
    start < stop ∧ ¬ stop > userspaceLimit := by
  simp only [createAccepts, Bool.not_eq_true', Bool.or_eq_false_iff, decide_eq_false_iff_not] at h
  exact ⟨by have := h.1.1.2; bv_omega, h.2⟩

/-- A neighbour extended over a range that overlaps no region stays apart from the others. -/
theorem Apart.extend {before after : List Region} {adj : Region}
    (h : Apart (before ++ adj :: after)) (hrange : start < stop)
    (hadj : stop = adj.start ∨ start = adj.stop)
    (clear : ∀ a ∈ before ++ adj :: after, ¬ Overlaps a start stop) :
    Apart (before ++ RegionSyscalls.extend start stop adj :: after) := by
  obtain ⟨hbefore, hafter, hless, hmore, hfilled⟩ := h.node
  have hothers : Apart (before ++ after) := h.sublist (by simp)
  have hclear : ∀ a ∈ before ++ after, a.stop ≤ start ∨ stop ≤ a.start := fun a ha =>
    apart_of_not_overlaps (hothers.filled a ha) hrange (clear a (by
      rcases List.mem_append.mp ha with ha | ha <;> simp [ha]))
  unfold RegionSyscalls.extend
  by_cases hleft : stop = adj.start
  · rw [if_pos hleft]
    refine hothers.between (by simp only; bv_omega) (fun a ha => ?_) hmore
    have hstop := hless a ha
    have hfill := hbefore.filled a ha
    rcases hclear a (by simp [ha]) with hcase | hcase
    · exact hcase
    · bv_omega
  · have hright := hadj.resolve_left hleft
    rw [if_neg hleft, if_pos hright]
    refine hothers.between (by simp only; bv_omega) hless (fun b hb => ?_)
    have hstart := hmore b hb
    have hfill := hafter.filled b hb
    rcases hclear b (by simp [hb]) with hcase | hcase
    · bv_omega
    · exact hcase

theorem Apart.insert {regions : RegionTree} (h : Apart regions.inorder) (hrange : start < stop)
    (huser : ¬ stop > userspaceLimit)
    (clear : ∀ a ∈ regions.inorder, ¬ Overlaps a start stop) :
    Apart (regions.regionTreeInsert ⟨start, stop, flags⟩).inorder := by
  obtain ⟨before, after, hsplit, hinsert, hbefore, hafter⟩ :=
    RegionTree.inorder_insert ⟨start, stop, flags⟩ (by simpa using hrange) huser regions
      h.sorted
  rw [hinsert]
  rw [hsplit] at h clear
  have hclear : ∀ a ∈ before ++ after, a.stop ≤ start ∨ stop ≤ a.start := fun a ha =>
    apart_of_not_overlaps (h.filled a ha) hrange (clear a ha)
  refine h.between hrange (fun a ha => ?_) (fun b hb => ?_)
  · have hle := hbefore a ha
    have hfill := h.filled a (by simp [ha])
    rcases hclear a (by simp [ha]) with hcase | hcase
    · exact hcase
    · simp only at hle
      bv_omega
  · have hlt := hafter b hb
    have hfill := h.filled b (by simp [hb])
    rcases hclear b (by simp [hb]) with hcase | hcase
    · simp only at hlt
      bv_omega
    · exact hcase

inductive Call
  | create (slab : Bool) (start stop flags : BitVec 64)
  | destroy (start : BitVec 64)

def exec (regions : RegionTree) : Call → RegionTree
  | .create slab start stop flags => (handleCreateRegion slab start stop flags regions).2
  | .destroy start => (handleDestroyRegion start regions).2

/-- A process starts without regions. -/
def system : System RegionTree Call :=
  System.ofExec (fun regions => regions = .null) (fun _ _ => True) exec

/-- When the search meets an adjacent region, the request overlaps no region. -/
def extendsClear (regions : RegionTree) : Call → Prop
  | .create _ start stop flags =>
    regionTreeFindAdjacent start stop flags regions ≠ none →
      ∀ a ∈ regions.inorder, ¬ Overlaps a start stop
  | .destroy _ => True

theorem exec_apart {regions : RegionTree} {call : Call} (h : Apart regions.inorder)
    (hguard : extendsClear regions call) : Apart (exec regions call).inorder := by
  cases call with
  | create slab start stop flags =>
    simp only [exec, handleCreateRegion]
    split
    · rename_i haccept
      obtain ⟨hrange, huser⟩ := createAccepts_lt haccept
      split
      · rename_i path hfind
        obtain ⟨before, adj, after, hsplit, hadj, hwrite⟩ := findAdjacent_split hfind
        have hclear := hguard (by rw [hfind]; simp)
        rw [hwrite]
        rw [hsplit] at h hclear
        exact h.extend hrange hadj hclear
      · split
        · exact h
        · rename_i hsearch
          split
          · exact h.insert hrange huser
              (not_overlaps_of_search h hrange (by simpa using hsearch))
          · exact h
    · exact h
  | destroy start =>
    simp only [exec, handleDestroyRegion]
    split
    · exact h
    · rw [RegionTree.inorder_remove start regions h.sorted]
      exact h.sublist List.filter_sublist

/-- In the runs whose extensions overlap nothing, the regions of the process are pairwise
disjoint and in order of their starts. -/
theorem regions_disjoint_and_sorted (regions : RegionTree)
    (h : Reachable (system.restrict extendsClear) regions) :
    regions.inorder.Pairwise (fun a b => ¬ Overlaps a b.start b.stop) ∧
      regions.inorder.Pairwise (fun a b => a.start < b.start) := by
  have hapart : Apart regions.inorder := by
    refine h.invariant (fun regions => Apart regions.inorder) ?_ ?_
    · rintro regions rfl
      exact ⟨by simp, List.Pairwise.nil⟩
    · rintro regions call regions' hregions ⟨hguard, -, rfl⟩
      exact exec_apart hregions hguard
  refine ⟨?_, hapart.sorted⟩
  refine hapart.ordered.imp_of_mem ?_
  intro a b ha hb hle
  rw [overlaps_iff (hapart.filled a ha) (hapart.filled b hb)]
  bv_omega

/-- Two regions with a gap between them. -/
theorem regions_disjoint_and_sorted_gap :
    ∃ regions, Reachable (system.restrict extendsClear) regions ∧ regions.inorder.length = 2 ∧
      regions.inorder.Pairwise (fun a b => a.start < b.start) := by
  have hone : Reachable (system.restrict extendsClear) _ :=
    (Reachable.start rfl).next (a := .create true 0x1000 0x2000 0)
      ⟨by simp [extendsClear], trivial, rfl⟩
  have htwo : Reachable (system.restrict extendsClear) _ :=
    hone.next (a := .create true 0x3000 0x4000 1)
      ⟨fun hfound => absurd (by decide) hfound, trivial, rfl⟩
  exact ⟨_, htwo, by decide, (regions_disjoint_and_sorted _ htwo).2⟩

/-- A request that starts where a region with its flags ends and runs into the next region. -/
theorem extension_overlaps : ∃ regions, Reachable system regions ∧
    ¬ regions.inorder.Pairwise (fun a b => ¬ Overlaps a b.start b.stop) := by
  have hone : Reachable system _ :=
    (Reachable.start rfl).next (a := .create true 0x1000 0x2000 0) ⟨trivial, rfl⟩
  have htwo : Reachable system _ := hone.next (a := .create true 0x3000 0x4000 1) ⟨trivial, rfl⟩
  have hthree : Reachable system _ := htwo.next (a := .create true 0x2000 0x4000 0) ⟨trivial, rfl⟩
  refine ⟨_, hthree, fun hdisjoint => ?_⟩
  have hinorder : (exec (exec (exec .null (.create true 0x1000 0x2000 0))
      (.create true 0x3000 0x4000 1)) (.create true 0x2000 0x4000 0)).inorder
      = [⟨0x1000, 0x4000, 0⟩, ⟨0x3000, 0x4000, 1⟩] := by decide
  rw [hinorder] at hdisjoint
  have hpair := (List.pairwise_cons.mp hdisjoint).1 ⟨0x3000, 0x4000, 1⟩ (by simp)
  exact hpair ⟨0x3000, by decide, by decide, by decide, by decide⟩

/-! ## What a successful request covers -/

/-- Every address of the range lies in one of the regions. -/
def Covers (regions : List Region) (start stop : BitVec 64) : Prop :=
  ∀ addr, start ≤ addr → addr < stop → ∃ a ∈ regions, a.start ≤ addr ∧ addr < a.stop

theorem Covers.of_region {regions : List Region} {region : Region} (mem : region ∈ regions)
    (first : region.start ≤ start) (last : stop ≤ region.stop) : Covers regions start stop := by
  intro addr hge hlt
  have hlast : addr < region.stop := by bv_omega
  exact ⟨region, mem, BitVec.le_trans first hge, hlast⟩

/-- A neighbour is extended over the whole range. -/
theorem covers_of_adjacent {tree : RegionTree} {path : List Side} (filled : Apart tree.inorder)
    (h : regionTreeFindAdjacent start stop flags tree = some path) :
    Covers (updateAt (extend start stop) path tree).inorder start stop := by
  obtain ⟨before, adj, after, hsplit, hadj, hwrite⟩ := findAdjacent_split h
  have hfilled : adj.start < adj.stop := filled.filled adj (by simp [hsplit])
  rw [hwrite]
  apply Covers.of_region (List.mem_append_right _ List.mem_cons_self)
  · unfold extend
    split_ifs with hleft hright
    · exact BitVec.le_refl start
    · show adj.start ≤ start
      bv_omega
    · exact absurd (hadj.resolve_left hleft) hright
  · unfold extend
    split_ifs with hleft hright
    · show stop ≤ adj.stop
      bv_omega
    · exact BitVec.le_refl stop
    · exact absurd (hadj.resolve_left hleft) hright

/-- The overlap search is right about what it finds. -/
theorem overlaps_of_search {tree : RegionTree} (h : Apart tree.inorder) (hrange : start < stop)
    (hsearch : regionTreeOverlaps start stop tree = true) :
    ∃ a ∈ tree.inorder, Overlaps a start stop := by
  induction tree with
  | null => exact absurd hsearch (by simp [regionTreeOverlaps])
  | node region height left right ihl ihr =>
    obtain ⟨hleft, hright, -, -, hregion⟩ := h.node
    rw [regionTreeOverlaps] at hsearch
    split at hsearch
    · rename_i hroot
      exact ⟨region, by simp, (overlaps_iff hregion hrange).mpr hroot⟩
    · split at hsearch
      · obtain ⟨a, ha, hover⟩ := ihl hleft hsearch
        exact ⟨a, by simp [ha], hover⟩
      · obtain ⟨a, ha, hover⟩ := ihr hright hsearch
        exact ⟨a, by simp [ha], hover⟩

theorem covers_of_insert {regions : RegionTree} (h : Apart regions.inorder) (hrange : start < stop)
    (huser : ¬ stop > userspaceLimit) :
    Covers (regions.regionTreeInsert ⟨start, stop, flags⟩).inorder start stop := by
  obtain ⟨before, after, -, hinsert, -, -⟩ :=
    RegionTree.inorder_insert ⟨start, stop, flags⟩ (by simpa using hrange) huser regions h.sorted
  rw [hinsert]
  exact Covers.of_region (List.mem_append_right _ List.mem_cons_self) (BitVec.le_refl _)
    (BitVec.le_refl _)

/-- A request that is granted covers its range only if a neighbour takes it in, if it overlaps
nothing, or if there was nothing to do. -/
theorem handleCreateRegion_covers_iff {slab : Bool} {regions : RegionTree}
    (apart : Apart regions.inorder) (accepts : createAccepts start stop = true) :
    ((handleCreateRegion slab start stop flags regions).1 = resultOk →
        Covers (handleCreateRegion slab start stop flags regions).2.inorder start stop) ↔
      regionTreeFindAdjacent start stop flags regions ≠ none ∨
        (∀ a ∈ regions.inorder, ¬ Overlaps a start stop) ∨ Covers regions.inorder start stop := by
  obtain ⟨hrange, huser⟩ := createAccepts_lt accepts
  cases hfind : regionTreeFindAdjacent start stop flags regions with
  | some path =>
    have hcovers := covers_of_adjacent apart hfind
    simp only [handleCreateRegion, accepts, hfind, if_true]
    exact ⟨fun _ => Or.inl (by simp), fun _ _ => hcovers⟩
  | none =>
    simp only [handleCreateRegion, accepts, hfind, if_true]
    cases hsearch : regionTreeOverlaps start stop regions with
    | true =>
      -- the request is granted and the tree left as it was
      obtain ⟨a, ha, hover⟩ := overlaps_of_search apart hrange hsearch
      simp only [if_true]
      constructor
      · intro hcovers
        exact Or.inr (Or.inr (hcovers trivial))
      · rintro (hnone | hclear | hcovers)
        · exact absurd rfl hnone
        · exact absurd hover (hclear a ha)
        · exact fun _ => hcovers
    | false =>
      have hclear := not_overlaps_of_search apart hrange hsearch
      refine ⟨fun _ => Or.inr (Or.inl hclear), fun _ hok => ?_⟩
      cases slab with
      | true => exact covers_of_insert apart hrange huser
      | false => exact absurd hok (show resultFailure ≠ resultOk by decide)

/-- The first region of a process. -/
theorem handleCreateRegion_covers_first :
    Covers (handleCreateRegion true 0x1000 0x3000 0 .null).2.inorder 0x1000 0x3000 := by
  have hapart : Apart RegionTree.null.inorder := ⟨by simp, List.Pairwise.nil⟩
  exact (handleCreateRegion_covers_iff hapart (by decide)).mpr (Or.inr (Or.inl (by simp)))
    (by decide)

/-- A request around a region with other flags is answered with success and changes nothing. -/
theorem granted_range_not_covered : ∃ regions : RegionTree, Apart regions.inorder ∧
    createAccepts 0x1000 0x4000 = true ∧
    (handleCreateRegion true 0x1000 0x4000 0 regions).1 = resultOk ∧
    ¬ Covers (handleCreateRegion true 0x1000 0x4000 0 regions).2.inorder 0x1000 0x4000 := by
  refine ⟨.node ⟨0x2000, 0x3000, 1⟩ 1 .null .null, ⟨by decide, by decide⟩, by decide, by decide,
    fun hcovers => ?_⟩
  obtain ⟨a, ha, hfirst, -⟩ := hcovers 0x1000 (by decide) (by decide)
  have hsame : (handleCreateRegion true 0x1000 0x4000 0
      (.node ⟨0x2000, 0x3000, 1⟩ 1 .null .null)).2.inorder = [⟨0x2000, 0x3000, 1⟩] := by decide
  rw [hsame, List.mem_singleton] at ha
  subst ha
  exact absurd hfirst (by decide)

end RegionSyscalls
