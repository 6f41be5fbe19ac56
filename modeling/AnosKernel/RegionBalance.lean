import AnosKernel.RegionSyscalls

/-!
# The region tree as a balanced search tree

`kernel/structs/region_tree.c` rebalances after every insertion and removal. Here the tree is
shown to stay an AVL tree, a lookup to find the region that contains an address, and a removal to
release one node. For the last point the nodes carry their addresses: a removal of a node with two
children copies the fields of the successor into it and releases the node of the successor.
-/

namespace RegionTrees

open Runs RegionSyscalls

namespace RegionTree

/-- Every stored height is right, and the heights of two children differ by at most one. -/
def Balanced : RegionTree → Prop
  | null => True
  | node _ h left right =>
    h = max left.height right.height + 1 ∧ left.height ≤ right.height + 1 ∧
      right.height ≤ left.height + 1 ∧ left.Balanced ∧ right.Balanced

@[simp] theorem height_null : null.height = 0 := rfl

@[simp] theorem height_node (region : Region) (h : Nat) (left right : RegionTree) :
    (node region h left right).height = h := rfl

@[simp] theorem height_withHeight (region : Region) (left right : RegionTree) :
    (withHeight region left right).height = max left.height right.height + 1 := rfl

@[simp] theorem getBalance_withHeight (region : Region) (left right : RegionTree) :
    (withHeight region left right).getBalance = left.height - right.height := rfl

theorem balanced_withHeight {region : Region} {left right : RegionTree} (hl : left.Balanced)
    (hr : right.Balanced) (hle : left.height ≤ right.height + 1)
    (hge : right.height ≤ left.height + 1) : (withHeight region left right).Balanced :=
  ⟨rfl, hle, hge, hl, hr⟩

/-- A tree that has a child has that child's fields. -/
theorem Balanced.exists_node {tree : RegionTree} (h : tree.Balanced) (hpos : 0 < tree.height) :
    ∃ region left right, tree = withHeight region left right ∧ left.Balanced ∧ right.Balanced ∧
      left.height ≤ right.height + 1 ∧ right.height ≤ left.height + 1 := by
  cases tree with
  | null => exact absurd hpos (Nat.lt_irrefl 0)
  | node region height left right =>
    obtain ⟨rfl, hle, hge, hl, hr⟩ := h
    exact ⟨region, left, right, rfl, hl, hr, hle, hge⟩

/-- What a rebalancing of children whose heights differ by two at most gives: an AVL tree of the
height of the higher child, or one more. It is one more when there is nothing to do, and not when
the higher child leans to one side. -/
structure Rebalanced (left right tree : RegionTree) : Prop where
  balanced : tree.Balanced
  height_le : tree.height ≤ max left.height right.height + 1
  height_ge : max left.height right.height ≤ tree.height
  level : left.height ≤ right.height + 1 → right.height ≤ left.height + 1 →
    tree.height = max left.height right.height + 1
  lean_left : left.height = right.height + 2 → left.getBalance ≠ 0 → tree.height = left.height
  lean_right : right.height = left.height + 2 → right.getBalance ≠ 0 → tree.height = right.height

theorem rebalanced_level {region : Region} {left right : RegionTree} (hl : left.Balanced)
    (hr : right.Balanced) (hle : left.height ≤ right.height + 1)
    (hge : right.height ≤ left.height + 1) :
    Rebalanced left right (withHeight region left right) where
  balanced := balanced_withHeight hl hr hle hge
  height_le := Nat.le_refl _
  height_ge := Nat.le_succ _
  level := fun _ _ => rfl
  lean_left := fun h => by omega
  lean_right := fun h => by omega

/-- A left child that is two higher and not heavier on the right: one rotation to the right. -/
theorem rebalanced_right {region : Region} {left right : RegionTree} (hl : left.Balanced)
    (hr : right.Balanced) (hdiff : left.height = right.height + 2) (heavy : 0 ≤ left.getBalance) :
    Rebalanced left right (withHeight region left right).rotateRight := by
  obtain ⟨x, xl, t2, rfl, hxl, ht2, hle, hge⟩ := hl.exists_node (by omega)
  rw [getBalance_withHeight] at heavy
  rw [height_withHeight] at hdiff
  have hrot : (withHeight region (withHeight x xl t2) right).rotateRight =
    withHeight x xl (withHeight region t2 right) := rfl
  rw [hrot]
  have hlower : (withHeight region t2 right).Balanced :=
    balanced_withHeight ht2 hr (by omega) (by omega)
  constructor
  · refine balanced_withHeight hxl hlower ?_ ?_
    all_goals rw [height_withHeight]; omega
  all_goals simp only [height_withHeight, getBalance_withHeight]
  all_goals omega

/-- A left child that is two higher and heavier on the right: two rotations. -/
theorem rebalanced_leftRight {region : Region} {left right : RegionTree} (hl : left.Balanced)
    (hr : right.Balanced) (hdiff : left.height = right.height + 2) (heavy : left.getBalance < 0) :
    Rebalanced left right ((withHeight region left right).mapLeft rotateLeft).rotateRight := by
  obtain ⟨x, xl, t2, rfl, hxl, ht2, hle, hge⟩ := hl.exists_node (by omega)
  rw [getBalance_withHeight] at heavy
  obtain ⟨y, yl, yr, rfl, hyl, hyr, hle', hge'⟩ := ht2.exists_node (by omega)
  simp only [height_withHeight] at hdiff heavy hle hge
  have hrot : ((withHeight region (withHeight x xl (withHeight y yl yr)) right).mapLeft
      rotateLeft).rotateRight = withHeight y (withHeight x xl yl) (withHeight region yr right) := rfl
  rw [hrot]
  have hlower : (withHeight x xl yl).Balanced := balanced_withHeight hxl hyl (by omega) (by omega)
  have hlower' : (withHeight region yr right).Balanced :=
    balanced_withHeight hyr hr (by omega) (by omega)
  constructor
  · refine balanced_withHeight hlower hlower' ?_ ?_
    all_goals simp only [height_withHeight]; omega
  all_goals simp only [height_withHeight, getBalance_withHeight]
  all_goals omega

/-! The rotations to the left are those to the right in the mirror. -/

def mirror : RegionTree → RegionTree
  | null => null
  | node region h left right => node region h right.mirror left.mirror

@[simp] theorem mirror_mirror (tree : RegionTree) : tree.mirror.mirror = tree := by
  induction tree with
  | null => rfl
  | node region h left right ihl ihr => rw [mirror, mirror, ihl, ihr]

@[simp] theorem height_mirror (tree : RegionTree) : tree.mirror.height = tree.height := by
  cases tree <;> rfl

@[simp] theorem mirror_withHeight (region : Region) (left right : RegionTree) :
    (withHeight region left right).mirror = withHeight region right.mirror left.mirror := by
  rw [withHeight, mirror, withHeight, height_mirror, height_mirror, max_comm]

theorem getBalance_mirror (tree : RegionTree) : tree.mirror.getBalance = -tree.getBalance := by
  cases tree with
  | null => rfl
  | node region h left right => simp [mirror, getBalance]

theorem Balanced.mirror {tree : RegionTree} (h : tree.Balanced) : tree.mirror.Balanced := by
  induction tree with
  | null => trivial
  | node region height left right ihl ihr =>
    obtain ⟨hheight, hle, hge, hl, hr⟩ := h
    simp only [RegionTree.mirror, Balanced, height_mirror]
    exact ⟨by rw [max_comm]; exact hheight, hge, hle, ihr hr, ihl hl⟩

theorem mirror_rotateRight (tree : RegionTree) :
    tree.rotateRight.mirror = tree.mirror.rotateLeft := by
  cases tree with
  | null => rfl
  | node y h left right =>
    cases left with
    | null => cases right <;> rfl
    | node x hx xl t2 => simp [rotateRight, mirror, rotateLeft]

theorem mirror_rotateLeft (tree : RegionTree) :
    tree.rotateLeft.mirror = tree.mirror.rotateRight := by
  rw [← mirror_mirror tree.mirror.rotateRight, mirror_rotateRight, mirror_mirror]

theorem mirror_mapLeft (tree : RegionTree) :
    (tree.mapLeft rotateLeft).mirror = tree.mirror.mapRight rotateRight := by
  cases tree with
  | null => rfl
  | node region h left right => simp only [mapLeft, mirror, mapRight, mirror_rotateLeft]

theorem Rebalanced.mirror {left right tree : RegionTree} (h : Rebalanced left right tree) :
    Rebalanced right.mirror left.mirror tree.mirror := by
  obtain ⟨hbalanced, hle, hge, hlevel, hleft, hright⟩ := h
  refine ⟨hbalanced.mirror, ?_, ?_, ?_, ?_, ?_⟩
  all_goals simp only [height_mirror, getBalance_mirror, ne_eq, neg_eq_zero]
  · omega
  · omega
  · intro hr hl
    rw [hlevel hl hr, max_comm]
  · exact hright
  · exact hleft

theorem rebalanced_left {region : Region} {left right : RegionTree} (hl : left.Balanced)
    (hr : right.Balanced) (hdiff : right.height = left.height + 2) (heavy : right.getBalance ≤ 0) :
    Rebalanced left right (withHeight region left right).rotateLeft := by
  have hdiff' : right.mirror.height = left.mirror.height + 2 := by
    rw [height_mirror, height_mirror, hdiff]
  have hright : Rebalanced right.mirror left.mirror
      (withHeight region right.mirror left.mirror).rotateRight :=
    rebalanced_right hr.mirror hl.mirror hdiff' (by rw [getBalance_mirror]; omega)
  have hmirror := hright.mirror
  rwa [mirror_rotateRight, mirror_withHeight, mirror_mirror, mirror_mirror] at hmirror

theorem rebalanced_rightLeft {region : Region} {left right : RegionTree} (hl : left.Balanced)
    (hr : right.Balanced) (hdiff : right.height = left.height + 2) (heavy : 0 < right.getBalance) :
    Rebalanced left right ((withHeight region left right).mapRight rotateRight).rotateLeft := by
  have hdiff' : right.mirror.height = left.mirror.height + 2 := by
    rw [height_mirror, height_mirror, hdiff]
  have hright : Rebalanced right.mirror left.mirror
      ((withHeight region right.mirror left.mirror).mapLeft rotateLeft).rotateRight :=
    rebalanced_leftRight hr.mirror hl.mirror hdiff' (by rw [getBalance_mirror]; omega)
  have hmirror := hright.mirror
  rwa [mirror_rotateRight, mirror_mapLeft, mirror_withHeight, mirror_mirror, mirror_mirror]
    at hmirror

/-- The end of `region_tree_remove` on children whose heights differ by two at most. -/
theorem rebalanced_rebalanceRemove {region : Region} {left right : RegionTree}
    (hl : left.Balanced) (hr : right.Balanced) (hle : left.height ≤ right.height + 2)
    (hge : right.height ≤ left.height + 2) :
    Rebalanced left right (rebalanceRemove region left right) := by
  have hbalance := getBalance_withHeight region left right
  unfold rebalanceRemove
  simp only [hbalance]
  split_ifs with h1 h2 h3 h4
  · exact rebalanced_right hl hr (by omega) h1.2
  · exact rebalanced_leftRight hl hr (by omega) h2.2
  · exact rebalanced_left hl hr (by omega) h3.2
  · exact rebalanced_rightLeft hl hr (by omega) h4.2
  · exact rebalanced_level hl hr (by omega) (by omega)

/-! ## Insertion -/

/-- What an insertion below does to the height: nothing, or one more, and then the tree leans to
the side of the new region, if it was not empty. -/
structure Grown (start : BitVec 64) (tree tree' : RegionTree) : Prop where
  balanced : tree'.Balanced
  height_le : tree'.height ≤ tree.height + 1
  height_ge : tree.height ≤ tree'.height
  lean_left : 0 < tree.height → tree.height < tree'.height → start < tree'.rootStart →
    0 < tree'.getBalance
  lean_right : 0 < tree.height → tree.height < tree'.height → ¬ start < tree'.rootStart →
    tree'.getBalance < 0

theorem grown_of_height {start : BitVec 64} {tree tree' : RegionTree} (balanced : tree'.Balanced)
    (same : tree'.height = tree.height) : Grown start tree tree' where
  balanced := balanced
  height_le := by omega
  height_ge := by omega
  lean_left := by omega
  lean_right := by omega

/-- Growth of the left child of a balanced node. -/
theorem Grown.left {start : BitVec 64} {region : Region} {left left' right : RegionTree}
    (grown : Grown start left left') (hr : right.Balanced) (hle : left.height ≤ right.height + 1)
    (hge : right.height ≤ left.height + 1) (hstart : start < region.start) :
    Grown start (withHeight region left right) (rebalanceInsert start region left' right) := by
  obtain ⟨hbalanced, hgrown, hmore, hleft, hright⟩ := grown
  have hbalance := getBalance_withHeight region left' right
  have hheight := height_withHeight region left right
  unfold rebalanceInsert
  simp only [hbalance]
  split_ifs with h1 h2 h3 h4
  · have hlean : 0 < left'.getBalance := hleft (by omega) (by omega) h1.2
    have hrot : Rebalanced left' right (withHeight region left' right).rotateRight :=
      rebalanced_right hbalanced hr (by omega) (Int.le_of_lt hlean)
    have hsame := hrot.lean_left (by omega) (by omega)
    exact grown_of_height hrot.balanced (by omega)
  · omega
  · have hlean : left'.getBalance < 0 := hright (by omega) (by omega) (BitVec.not_lt.mpr h3.2)
    have hrot : Rebalanced left' right
        ((withHeight region left' right).mapLeft rotateLeft).rotateRight :=
      rebalanced_leftRight hbalanced hr (by omega) hlean
    have hsame := hrot.lean_left (by omega) (by omega)
    exact grown_of_height hrot.balanced (by omega)
  · omega
  · -- no rotation: the four tests have failed, and the start is on one side or the other
    have hlow : left'.height ≤ right.height + 1 := by
      by_contra hhigh
      by_cases hside : start < left'.rootStart
      · exact h1 ⟨by omega, hside⟩
      · exact h3 ⟨by omega, BitVec.not_lt.mp hside⟩
    have hheight' := height_withHeight region left' right
    refine ⟨balanced_withHeight hbalanced hr hlow (by omega), by omega, by omega, ?_, ?_⟩
    · intro _ _ _
      omega
    · intro _ _ hnot
      exact absurd hstart hnot

/-- Growth of the right child. -/
theorem Grown.right {start : BitVec 64} {region : Region} {left right right' : RegionTree}
    (grown : Grown start right right') (hl : left.Balanced) (hle : left.height ≤ right.height + 1)
    (hge : right.height ≤ left.height + 1) (hstart : ¬ start < region.start) :
    Grown start (withHeight region left right) (rebalanceInsert start region left right') := by
  obtain ⟨hbalanced, hgrown, hmore, hleft, hright⟩ := grown
  have hbalance := getBalance_withHeight region left right'
  have hheight := height_withHeight region left right
  unfold rebalanceInsert
  simp only [hbalance]
  split_ifs with h1 h2 h3 h4
  · omega
  · have hlean : right'.getBalance < 0 := hright (by omega) (by omega) (BitVec.not_lt.mpr h2.2)
    have hrot : Rebalanced left right' (withHeight region left right').rotateLeft :=
      rebalanced_left hl hbalanced (by omega) (Int.le_of_lt hlean)
    have hsame := hrot.lean_right (by omega) (by omega)
    exact grown_of_height hrot.balanced (by omega)
  · omega
  · have hlean : 0 < right'.getBalance := hleft (by omega) (by omega) h4.2
    have hrot : Rebalanced left right'
        ((withHeight region left right').mapRight rotateRight).rotateLeft :=
      rebalanced_rightLeft hl hbalanced (by omega) hlean
    have hsame := hrot.lean_right (by omega) (by omega)
    exact grown_of_height hrot.balanced (by omega)
  · have hlow : right'.height ≤ left.height + 1 := by
      by_contra hhigh
      by_cases hside : start < right'.rootStart
      · exact h4 ⟨by omega, hside⟩
      · exact h2 ⟨by omega, BitVec.not_lt.mp hside⟩
    have hheight' := height_withHeight region left right'
    refine ⟨balanced_withHeight hl hbalanced (by omega) hlow, by omega, by omega, ?_, ?_⟩
    · intro _ _ hside
      exact absurd hside hstart
    · intro _ _ _
      omega

theorem grown_insert (new : Region) (tree : RegionTree) (h : tree.Balanced) :
    Grown new.start tree (tree.regionTreeInsert new) := by
  induction tree with
  | null =>
    unfold regionTreeInsert
    split_ifs
    · exact grown_of_height trivial rfl
    · exact grown_of_height trivial rfl
    · exact ⟨⟨rfl, by decide, by decide, trivial, trivial⟩, Nat.le_refl _, Nat.zero_le _, by simp,
        by simp⟩
  | node region height left right ihl ihr =>
    obtain ⟨rfl, hle, hge, hl, hr⟩ := h
    unfold regionTreeInsert
    split_ifs with _ _ hlt
    · exact grown_of_height ⟨rfl, hle, hge, hl, hr⟩ rfl
    · exact grown_of_height ⟨rfl, hle, hge, hl, hr⟩ rfl
    · exact (ihl hl).left hr hle hge hlt
    · exact (ihr hr).right hl hle hge hlt

/-! ## Removal -/

/-- A removal below lowers a tree by one at most. -/
structure Shrunk (tree tree' : RegionTree) : Prop where
  balanced : tree'.Balanced
  height_le : tree'.height ≤ tree.height
  height_ge : tree.height ≤ tree'.height + 1

theorem Shrunk.left {region region' : Region} {left left' right : RegionTree}
    (shrunk : Shrunk left left') (hr : right.Balanced) (hle : left.height ≤ right.height + 1)
    (hge : right.height ≤ left.height + 1) :
    Shrunk (withHeight region left right) (rebalanceRemove region' left' right) := by
  obtain ⟨hbalanced, hless, hmore⟩ := shrunk
  have hheight := height_withHeight region left right
  have hrest : Rebalanced left' right (rebalanceRemove region' left' right) :=
    rebalanced_rebalanceRemove hbalanced hr (by omega) (by omega)
  obtain ⟨hresult, hlow, hhigh, hlevel, -, -⟩ := hrest
  refine ⟨hresult, by omega, ?_⟩
  by_cases hnear : right.height ≤ left'.height + 1
  · have hexact := hlevel (by omega) hnear
    omega
  · omega

theorem Shrunk.right {region region' : Region} {left right right' : RegionTree}
    (shrunk : Shrunk right right') (hl : left.Balanced) (hle : left.height ≤ right.height + 1)
    (hge : right.height ≤ left.height + 1) :
    Shrunk (withHeight region left right) (rebalanceRemove region' left right') := by
  obtain ⟨hbalanced, hless, hmore⟩ := shrunk
  have hheight := height_withHeight region left right
  have hrest : Rebalanced left right' (rebalanceRemove region' left right') :=
    rebalanced_rebalanceRemove hl hbalanced (by omega) (by omega)
  obtain ⟨hresult, hlow, hhigh, hlevel, -, -⟩ := hrest
  refine ⟨hresult, by omega, ?_⟩
  by_cases hnear : left.height ≤ right'.height + 1
  · have hexact := hlevel hnear (by omega)
    omega
  · omega

theorem eq_null_of_minValueNode {tree : RegionTree} (h : tree.minValueNode = none) :
    tree = null := by
  cases tree with
  | null => rfl
  | node region height left right =>
    rw [minValueNode_eq_head, List.head?_eq_none_iff] at h
    simp at h

theorem shrunk_remove (start : BitVec 64) (tree : RegionTree) (h : tree.Balanced) :
    Shrunk tree (tree.regionTreeRemove start) := by
  induction tree generalizing start with
  | null => exact ⟨trivial, Nat.le_refl _, Nat.zero_le _⟩
  | node region height left right ihl ihr =>
    obtain ⟨rfl, hle, hge, hl, hr⟩ := h
    unfold regionTreeRemove
    split_ifs
    · exact (ihl start hl).left hr hle hge
    · exact (ihr start hr).right hl hle hge
    · split
      · exact ⟨hr, by simp, by simp⟩
      · rename_i hnone
        obtain rfl := eq_null_of_minValueNode hnone
        exact ⟨hl, by simp, by simp⟩
      · exact (ihr _ hr).right hl hle hge

/-! ## Lookup -/

/-- The region of the node that `region_tree_lookup` returns. -/
def regionTreeLookup (addr : BitVec 64) : RegionTree → Option Region
  | null => none
  | node region _ left right =>
    if addr < region.start then regionTreeLookup addr left
    else if addr ≥ region.stop then regionTreeLookup addr right
    else some region

/-- Among regions that are apart, a lookup finds the one that contains the address. -/
theorem lookup_eq_some_iff {tree : RegionTree} (h : Apart tree.inorder) (addr : BitVec 64)
    (region : Region) : tree.regionTreeLookup addr = some region ↔
      region ∈ tree.inorder ∧ region.start ≤ addr ∧ addr < region.stop := by
  induction tree with
  | null => simp [regionTreeLookup]
  | node root height left right ihl ihr =>
    obtain ⟨hleft, hright, hbefore, hafter, hroot⟩ := Apart.node h
    rw [regionTreeLookup, inorder_node, List.mem_append, List.mem_cons]
    split_ifs with hlt hge
    · rw [ihl hleft]
      constructor
      · exact fun ⟨hmem, hin⟩ => ⟨Or.inl hmem, hin⟩
      · rintro ⟨hmem | rfl | hmem, hin⟩
        · exact ⟨hmem, hin⟩
        · bv_omega
        · have hstop := hafter region hmem
          bv_omega
    · rw [ihr hright]
      constructor
      · exact fun ⟨hmem, hin⟩ => ⟨Or.inr (Or.inr hmem), hin⟩
      · rintro ⟨hmem | rfl | hmem, hin⟩
        · have hstop := hbefore region hmem
          bv_omega
        · bv_omega
        · exact ⟨hmem, hin⟩
    · constructor
      · intro heq
        obtain rfl := Option.some.inj heq
        exact ⟨Or.inr (Or.inl rfl), by bv_omega, by bv_omega⟩
      · rintro ⟨hmem | rfl | hmem, hin⟩
        · have hstop := hbefore region hmem
          bv_omega
        · rfl
        · have hstop := hafter region hmem
          bv_omega

end RegionTree

/-! ## Nodes and their addresses -/

/-- The tree with the address of each node. -/
inductive NodeTree
  | null
  | node (addr : BitVec 64) (region : Region) (height : Nat) (left right : NodeTree)
  deriving DecidableEq, Repr

namespace NodeTree

/-- The tree without the addresses. -/
def regions : NodeTree → RegionTree
  | null => .null
  | node _ region h left right => .node region h left.regions right.regions

/-- The addresses of the nodes, in order. -/
def addresses : NodeTree → List (BitVec 64)
  | null => []
  | node addr _ _ left right => left.addresses ++ addr :: right.addresses

def withHeight (addr : BitVec 64) (region : Region) (left right : NodeTree) : NodeTree :=
  node addr region (max left.regions.height right.regions.height + 1) left right

def rotateRight : NodeTree → NodeTree
  | node y yregion _ (node x xregion _ xl t2) yr =>
    withHeight x xregion xl (withHeight y yregion t2 yr)
  | tree => tree

def rotateLeft : NodeTree → NodeTree
  | node x xregion _ xl (node y yregion _ t2 yr) =>
    withHeight y yregion (withHeight x xregion xl t2) yr
  | tree => tree

def mapLeft (f : NodeTree → NodeTree) : NodeTree → NodeTree
  | null => null
  | node addr region h left right => node addr region h (f left) right

def mapRight (f : NodeTree → NodeTree) : NodeTree → NodeTree
  | null => null
  | node addr region h left right => node addr region h left (f right)

def rebalanceInsert (start addr : BitVec 64) (region : Region) (left right : NodeTree) :
    NodeTree :=
  let tree := withHeight addr region left right
  let balance := tree.regions.getBalance
  if balance > 1 ∧ start < left.regions.rootStart then tree.rotateRight
  else if balance < -1 ∧ start ≥ right.regions.rootStart then tree.rotateLeft
  else if balance > 1 ∧ start ≥ left.regions.rootStart then (tree.mapLeft rotateLeft).rotateRight
  else if balance < -1 ∧ start < right.regions.rootStart then
    (tree.mapRight rotateRight).rotateLeft
  else tree

/-- `region_tree_insert` of the node at `addr`, which holds `new`. -/
def regionTreeInsert (addr : BitVec 64) (new : Region) : NodeTree → NodeTree
  | tree@null =>
    if new.stop ≤ new.start then tree
    else if new.stop > userspaceLimit then tree
    else node addr new 1 null null
  | tree@(node root region _ left right) =>
    if new.stop ≤ new.start then tree
    else if new.stop > userspaceLimit then tree
    else if new.start < region.start then
      rebalanceInsert new.start root region (regionTreeInsert addr new left) right
    else rebalanceInsert new.start root region left (regionTreeInsert addr new right)

def rebalanceRemove (addr : BitVec 64) (region : Region) (left right : NodeTree) : NodeTree :=
  let tree := withHeight addr region left right
  let balance := tree.regions.getBalance
  if balance > 1 ∧ left.regions.getBalance ≥ 0 then tree.rotateRight
  else if balance > 1 ∧ left.regions.getBalance < 0 then (tree.mapLeft rotateLeft).rotateRight
  else if balance < -1 ∧ right.regions.getBalance ≤ 0 then tree.rotateLeft
  else if balance < -1 ∧ right.regions.getBalance > 0 then (tree.mapRight rotateRight).rotateLeft
  else tree

/-- `region_tree_remove`, with the addresses it passes to `slab_free`. -/
def regionTreeRemove (start : BitVec 64) : NodeTree → List (BitVec 64) × NodeTree
  | null => ([], null)
  | node addr region _ left right =>
    if start < region.start then
      let (released, left') := regionTreeRemove start left
      (released, rebalanceRemove addr region left' right)
    else if start > region.start then
      let (released, right') := regionTreeRemove start right
      (released, rebalanceRemove addr region left right')
    else match left, right.regions.minValueNode with
      | null, _ => ([addr], right)
      | left, none => ([addr], left)
      -- the node stays and gets the fields of its successor
      | left, some temp =>
        let (released, right') := regionTreeRemove temp.start right
        (released, rebalanceRemove addr temp left right')

@[simp] theorem regions_withHeight (addr : BitVec 64) (region : Region) (left right : NodeTree) :
    (withHeight addr region left right).regions =
      RegionTree.withHeight region left.regions right.regions := rfl

@[simp] theorem regions_rotateRight (tree : NodeTree) :
    tree.rotateRight.regions = tree.regions.rotateRight := by
  cases tree with
  | null => rfl
  | node y yregion h left right => cases left <;> rfl

@[simp] theorem regions_rotateLeft (tree : NodeTree) :
    tree.rotateLeft.regions = tree.regions.rotateLeft := by
  cases tree with
  | null => rfl
  | node y yregion h left right => cases right <;> rfl

theorem regions_mapLeft (tree : NodeTree) :
    (tree.mapLeft rotateLeft).regions = tree.regions.mapLeft RegionTree.rotateLeft := by
  cases tree <;> simp [mapLeft, regions, RegionTree.mapLeft]

theorem regions_mapRight (tree : NodeTree) :
    (tree.mapRight rotateRight).regions = tree.regions.mapRight RegionTree.rotateRight := by
  cases tree <;> simp [mapRight, regions, RegionTree.mapRight]

theorem regions_rebalanceInsert (start addr : BitVec 64) (region : Region)
    (left right : NodeTree) : (rebalanceInsert start addr region left right).regions =
      RegionTree.rebalanceInsert start region left.regions right.regions := by
  unfold rebalanceInsert RegionTree.rebalanceInsert
  dsimp only
  rw [regions_withHeight]
  split_ifs <;> simp [regions_mapLeft, regions_mapRight]

theorem regions_rebalanceRemove (addr : BitVec 64) (region : Region) (left right : NodeTree) :
    (rebalanceRemove addr region left right).regions =
      RegionTree.rebalanceRemove region left.regions right.regions := by
  unfold rebalanceRemove RegionTree.rebalanceRemove
  dsimp only
  rw [regions_withHeight]
  split_ifs <;> simp [regions_mapLeft, regions_mapRight]

theorem regions_insert (addr : BitVec 64) (new : Region) (tree : NodeTree) :
    (tree.regionTreeInsert addr new).regions = tree.regions.regionTreeInsert new := by
  induction tree with
  | null =>
    simp only [regionTreeInsert, regions, RegionTree.regionTreeInsert]
    split_ifs <;> rfl
  | node root region h left right ihl ihr =>
    simp only [regionTreeInsert, regions, RegionTree.regionTreeInsert]
    split_ifs
    · rfl
    · rfl
    · rw [regions_rebalanceInsert, ihl]
    · rw [regions_rebalanceInsert, ihr]

theorem regions_remove (start : BitVec 64) (tree : NodeTree) :
    (tree.regionTreeRemove start).2.regions = tree.regions.regionTreeRemove start := by
  induction tree generalizing start with
  | null => rfl
  | node addr region h left right ihl ihr =>
    simp only [regionTreeRemove, regions, RegionTree.regionTreeRemove]
    split_ifs
    · exact (regions_rebalanceRemove _ _ _ _).trans (by rw [ihl])
    · exact (regions_rebalanceRemove _ _ _ _).trans (by rw [ihr])
    · cases left with
      | null => rfl
      | node laddr lregion lh ll lr =>
        cases hmin : right.regions.minValueNode with
        | none => rfl
        | some temp => exact (regions_rebalanceRemove _ _ _ _).trans (by rw [ihr]; rfl)

@[simp] theorem addresses_withHeight (addr : BitVec 64) (region : Region)
    (left right : NodeTree) :
    (withHeight addr region left right).addresses = left.addresses ++ addr :: right.addresses := rfl

@[simp] theorem addresses_rotateRight (tree : NodeTree) :
    tree.rotateRight.addresses = tree.addresses := by
  unfold rotateRight
  split <;> simp [addresses]

@[simp] theorem addresses_rotateLeft (tree : NodeTree) :
    tree.rotateLeft.addresses = tree.addresses := by
  unfold rotateLeft
  split <;> simp [addresses]

theorem addresses_mapLeft (tree : NodeTree) :
    (tree.mapLeft rotateLeft).addresses = tree.addresses := by
  cases tree <;> simp [mapLeft, addresses]

theorem addresses_mapRight (tree : NodeTree) :
    (tree.mapRight rotateRight).addresses = tree.addresses := by
  cases tree <;> simp [mapRight, addresses]

theorem addresses_rebalanceInsert (start addr : BitVec 64) (region : Region)
    (left right : NodeTree) : (rebalanceInsert start addr region left right).addresses =
      left.addresses ++ addr :: right.addresses := by
  unfold rebalanceInsert
  dsimp only
  split_ifs <;> simp [addresses_mapLeft, addresses_mapRight]

theorem addresses_rebalanceRemove (addr : BitVec 64) (region : Region) (left right : NodeTree) :
    (rebalanceRemove addr region left right).addresses =
      left.addresses ++ addr :: right.addresses := by
  unfold rebalanceRemove
  dsimp only
  split_ifs <;> simp [addresses_mapLeft, addresses_mapRight]

/-- A node released from the right subtree is released from the tree. -/
theorem addresses_rebalanceRemove_right {addr gone : BitVec 64} {region region' : Region} {h : Nat}
    {left right right' : NodeTree} (hperm : right.addresses.Perm (gone :: right'.addresses)) :
    (node addr region h left right).addresses.Perm
      (gone :: (rebalanceRemove addr region' left right').addresses) := by
  rw [addresses_rebalanceRemove]
  refine ((hperm.cons addr).append_left left.addresses).trans ?_
  refine ((List.Perm.swap gone addr _).append_left left.addresses).trans ?_
  exact List.perm_middle

theorem eq_null_of_regions {tree : NodeTree} (h : tree.regions = .null) : tree = null := by
  cases tree with
  | null => rfl
  | node addr region height left right => cases h

theorem addresses_insert {new : Region} (hvalid : ¬ new.stop ≤ new.start)
    (huser : ¬ new.stop > userspaceLimit) (addr : BitVec 64) (tree : NodeTree) :
    (tree.regionTreeInsert addr new).addresses.Perm (addr :: tree.addresses) := by
  induction tree with
  | null => simp [regionTreeInsert, hvalid, huser, addresses]
  | node root region h left right ihl ihr =>
    simp only [regionTreeInsert, if_neg hvalid, if_neg huser]
    split_ifs
    · rw [addresses_rebalanceInsert]
      exact ihl.append_right _
    · rw [addresses_rebalanceInsert]
      refine ((ihr.cons root).append_left left.addresses).trans ?_
      refine ((List.Perm.swap addr root _).append_left left.addresses).trans ?_
      exact List.perm_middle

/-- What a removal releases: the address of one node, which is then no longer in the tree, when a
region starts there, and nothing otherwise. -/
structure Releases (start : BitVec 64) (tree : NodeTree) (released : List (BitVec 64))
    (tree' : NodeTree) : Prop where
  one : (∃ r ∈ tree.regions.inorder, r.start = start) →
    ∃ addr, released = [addr] ∧ tree.addresses.Perm (addr :: tree'.addresses)
  none : (∀ r ∈ tree.regions.inorder, r.start ≠ start) →
    released = [] ∧ tree'.addresses = tree.addresses

theorem remove_releases (start : BitVec 64) (tree : NodeTree)
    (sorted : RegionTree.Sorted tree.regions.inorder) :
    Releases start tree (tree.regionTreeRemove start).1 (tree.regionTreeRemove start).2 := by
  induction tree generalizing start with
  | null => exact ⟨by simp [regions], fun _ => ⟨rfl, rfl⟩⟩
  | node addr region h left right ihl ihr =>
    obtain ⟨hleft, hright, hless, hmore⟩ := RegionTree.sorted_node sorted
    simp only [regionTreeRemove]
    split_ifs with hlt hgt
    · obtain ⟨hone, hnone⟩ := ihl start hleft
      constructor
      · rintro ⟨r, hr, hstart⟩
        have hmem : r ∈ left.regions.inorder := by
          rcases List.mem_append.mp hr with hr | hr
          · exact hr
          · rcases List.mem_cons.mp hr with rfl | hr
            · exact absurd hlt (hstart ▸ BitVec.lt_irrefl _)
            · have hlater := hmore r hr
              bv_omega
        obtain ⟨gone, hreleased, hperm⟩ := hone ⟨r, hmem, hstart⟩
        refine ⟨gone, hreleased, ?_⟩
        rw [addresses_rebalanceRemove]
        exact hperm.append_right _
      · intro habsent
        obtain ⟨hreleased, hsame⟩ := hnone fun r hr => habsent r (List.mem_append_left _ hr)
        refine ⟨hreleased, ?_⟩
        rw [addresses_rebalanceRemove, hsame]
        rfl
    · obtain ⟨hone, hnone⟩ := ihr start hright
      constructor
      · rintro ⟨r, hr, hstart⟩
        have hmem : r ∈ right.regions.inorder := by
          rcases List.mem_append.mp hr with hr | hr
          · have hearlier := hless r hr
            bv_omega
          · rcases List.mem_cons.mp hr with rfl | hr
            · exact absurd hgt (hstart ▸ BitVec.lt_irrefl _)
            · exact hr
        obtain ⟨gone, hreleased, hperm⟩ := hone ⟨r, hmem, hstart⟩
        exact ⟨gone, hreleased, addresses_rebalanceRemove_right hperm⟩
      · intro habsent
        obtain ⟨hreleased, hsame⟩ := hnone fun r hr =>
          habsent r (List.mem_append_right _ (List.mem_cons_of_mem _ hr))
        refine ⟨hreleased, ?_⟩
        rw [addresses_rebalanceRemove, hsame]
        rfl
    · have heq : region.start = start :=
        BitVec.le_antisymm (BitVec.not_lt.mp hlt) (BitVec.not_lt.mp hgt)
      refine ⟨fun _ => ?_, fun habsent => absurd heq (habsent region (by simp [regions]))⟩
      cases left with
      | null => exact ⟨addr, rfl, List.Perm.refl _⟩
      | node laddr lregion lh ll lr =>
        cases hmin : right.regions.minValueNode with
        | none =>
          obtain rfl := eq_null_of_regions (RegionTree.eq_null_of_minValueNode hmin)
          exact ⟨addr, rfl, List.perm_append_comm⟩
        | some temp =>
          -- the successor is in the right subtree, and its node is the one released
          have hhead := RegionTree.minValueNode_eq_head right.regions
          rw [hmin] at hhead
          have hmem : temp ∈ right.regions.inorder := List.mem_of_head? hhead.symm
          obtain ⟨gone, hreleased, hperm⟩ := (ihr temp.start hright).one ⟨temp, hmem, rfl⟩
          exact ⟨gone, hreleased, addresses_rebalanceRemove_right hperm⟩

end NodeTree

/-! ## Runs -/

/-- `stored` are the regions inserted and not removed since. -/
structure World where
  tree : NodeTree
  stored : Region → Prop

inductive Call
  | insert (addr : BitVec 64) (new : Region)
  | remove (start : BitVec 64)
  | lookup (addr : BitVec 64)

/-- A new region has a node of its own, is valid and apart from those stored. -/
def World.Valid (w : World) : Call → Prop
  | .insert addr new =>
    addr ∉ w.tree.addresses ∧ new.start < new.stop ∧ new.stop ≤ userspaceLimit ∧
      ∀ r, w.stored r → new.stop ≤ r.start ∨ r.stop ≤ new.start
  | .remove _ => True
  | .lookup _ => True

def World.exec (w : World) : Call → World
  | .insert addr new =>
    { tree := w.tree.regionTreeInsert addr new, stored := fun r => r = new ∨ w.stored r }
  | .remove start =>
    { tree := (w.tree.regionTreeRemove start).2, stored := fun r => w.stored r ∧ r.start ≠ start }
  | .lookup _ => w

def regionTree : System World Call :=
  System.ofExec (fun w => w.tree = .null ∧ ∀ r, ¬ w.stored r) World.Valid World.exec

structure Inv (w : World) : Prop where
  balanced : w.tree.regions.Balanced
  apart : Apart w.tree.regions.inorder
  stored : ∀ r, r ∈ w.tree.regions.inorder ↔ w.stored r
  nodup : w.tree.addresses.Nodup

theorem Inv.insert {w : World} (h : Inv w) {addr : BitVec 64} {new : Region}
    (valid : w.Valid (.insert addr new)) : Inv (w.exec (.insert addr new)) := by
  obtain ⟨hfresh, hfilled, huser, hclear⟩ := valid
  have hvalid : ¬ new.stop ≤ new.start := BitVec.not_le.mpr hfilled
  have hlow : ¬ new.stop > userspaceLimit := BitVec.not_lt.mpr huser
  obtain ⟨before, after, hsplit, hinsert, hbefore, hafter⟩ :=
    RegionTree.inorder_insert new hvalid hlow w.tree.regions h.apart.sorted
  have hmem : ∀ r, r ∈ w.tree.regions.inorder ↔ r ∈ before ∨ r ∈ after := by
    simp [hsplit]
  have hclear' : ∀ r, r ∈ before ∨ r ∈ after →
      r.start < r.stop ∧ (new.stop ≤ r.start ∨ r.stop ≤ new.start) := by
    intro r hr
    have hin := (hmem r).mpr hr
    exact ⟨h.apart.filled r hin, hclear r ((h.stored r).mp hin)⟩
  have hregions := NodeTree.regions_insert addr new w.tree
  refine ⟨?_, ?_, ?_, ?_⟩
  · rw [World.exec, hregions]
    exact (RegionTree.grown_insert new _ h.balanced).balanced
  · rw [World.exec, hregions, hinsert]
    refine Apart.between (hsplit ▸ h.apart) hfilled ?_ ?_
    · intro a ha
      obtain ⟨hlt, hside⟩ := hclear' a (Or.inl ha)
      have hle := hbefore a ha
      bv_omega
    · intro b hb
      obtain ⟨hlt, hside⟩ := hclear' b (Or.inr hb)
      have hle := hafter b hb
      bv_omega
  · intro r
    rw [World.exec, hregions, hinsert]
    simp only [List.mem_append, List.mem_cons, ← h.stored, hmem]
    tauto
  · have hperm := NodeTree.addresses_insert hvalid hlow addr w.tree
    exact hperm.nodup_iff.mpr (List.nodup_cons.mpr ⟨hfresh, h.nodup⟩)

theorem mem_remove {w : World} (h : Inv w) (start : BitVec 64) (r : Region) :
    r ∈ (w.tree.regionTreeRemove start).2.regions.inorder ↔ w.stored r ∧ r.start ≠ start := by
  rw [NodeTree.regions_remove, RegionTree.inorder_remove start _ h.apart.sorted, List.mem_filter,
    h.stored]
  simp

theorem Inv.remove {w : World} (h : Inv w) (start : BitVec 64) : Inv (w.exec (.remove start)) := by
  have hregions := NodeTree.regions_remove start w.tree
  refine ⟨?_, ?_, mem_remove h start, ?_⟩
  · rw [World.exec, hregions]
    exact (RegionTree.shrunk_remove start _ h.balanced).balanced
  · rw [World.exec, hregions, RegionTree.inorder_remove start _ h.apart.sorted]
    exact h.apart.sublist List.filter_sublist
  · obtain ⟨hone, hnone⟩ := NodeTree.remove_releases start w.tree h.apart.sorted
    by_cases hfound : ∃ r ∈ w.tree.regions.inorder, r.start = start
    · obtain ⟨gone, -, hperm⟩ := hone hfound
      exact (List.nodup_cons.mp (hperm.nodup_iff.mp h.nodup)).2
    · obtain ⟨-, hsame⟩ := hnone fun r hr hstart => hfound ⟨r, hr, hstart⟩
      exact hsame ▸ h.nodup

theorem reachable_inv {w : World} (h : Reachable regionTree w) : Inv w := by
  refine h.invariant Inv ?_ ?_
  · rintro w ⟨htree, hstored⟩
    refine ⟨?_, ?_, ?_, ?_⟩
    all_goals rw [htree]
    · trivial
    · exact ⟨by simp [NodeTree.regions], List.Pairwise.nil⟩
    · intro r
      simp [NodeTree.regions, hstored r]
    · exact List.nodup_nil
  · rintro w call w' hinv ⟨hvalid, rfl⟩
    cases call with
    | insert addr new => exact hinv.insert hvalid
    | remove start => exact hinv.remove start
    | lookup addr => exact hinv

/-- In every run the tree is an AVL tree of the regions inserted and not removed, in order of their
starts; a lookup finds the region that contains the address; and a removal releases one node and
takes out the region that starts there, or does nothing of either. -/
theorem region_tree_stays_exact {w : World} (h : Reachable regionTree w) :
    w.tree.regions.Balanced ∧ RegionTree.Sorted w.tree.regions.inorder ∧
      (∀ r, r ∈ w.tree.regions.inorder ↔ w.stored r) ∧
      (∀ addr r, w.tree.regions.regionTreeLookup addr = some r ↔
        w.stored r ∧ r.start ≤ addr ∧ addr < r.stop) ∧
      ∀ start released tree', w.tree.regionTreeRemove start = (released, tree') →
        ((∃ r, w.stored r ∧ r.start = start) → ∃ addr, released = [addr] ∧
          addr ∉ tree'.addresses ∧ w.tree.addresses.Perm (addr :: tree'.addresses)) ∧
        ((∀ r, w.stored r → r.start ≠ start) →
          released = [] ∧ tree'.addresses = w.tree.addresses) ∧
        ∀ r, r ∈ tree'.regions.inorder ↔ w.stored r ∧ r.start ≠ start := by
  have hinv := reachable_inv h
  refine ⟨hinv.balanced, hinv.apart.sorted, hinv.stored, ?_, ?_⟩
  · intro addr r
    rw [RegionTree.lookup_eq_some_iff hinv.apart, hinv.stored]
  · intro start released tree' hremove
    have hrelease := NodeTree.remove_releases start w.tree hinv.apart.sorted
    have hmem := mem_remove hinv start
    rw [hremove] at hrelease hmem
    refine ⟨?_, ?_, hmem⟩
    · rintro ⟨r, hr, hstart⟩
      obtain ⟨addr, hone, hperm⟩ := hrelease.one ⟨r, (hinv.stored r).mpr hr, hstart⟩
      exact ⟨addr, hone, (List.nodup_cons.mp (hperm.nodup_iff.mp hinv.nodup)).1, hperm⟩
    · exact fun habsent => hrelease.none fun r hr => habsent r ((hinv.stored r).mp hr)

/-- Three regions, inserted in the order of their starts: the second insertion makes the tree lean
and the third rotates it. -/
def threeRegions : World :=
  (((World.mk .null fun _ => False).exec (.insert 0x40 ⟨0x1000, 0x2000, 0⟩)).exec
    (.insert 0x80 ⟨0x2000, 0x3000, 0⟩)).exec (.insert 0xc0 ⟨0x5000, 0x8000, 0⟩)

theorem threeRegions_reachable : Reachable regionTree threeRegions := by
  have hstart : Reachable regionTree (World.mk .null fun _ => False) := .start ⟨rfl, by simp⟩
  refine .next (.next (hstart.next ⟨?_, rfl⟩) ⟨?_, rfl⟩) ⟨?_, rfl⟩
  · exact ⟨by decide, by decide, by decide, by simp⟩
  · refine ⟨by decide, by decide, by decide, ?_⟩
    rintro r (rfl | hfalse)
    · decide
    · exact hfalse.elim
  · refine ⟨by decide, by decide, by decide, ?_⟩
    rintro r (rfl | rfl | hfalse)
    · decide
    · decide
    · exact hfalse.elim

theorem region_tree_stays_exact_three :
    threeRegions.tree.regions.height = 2 ∧ threeRegions.tree.regions.Balanced ∧
      threeRegions.tree.regions.regionTreeLookup 0x7fff = some ⟨0x5000, 0x8000, 0⟩ := by
  have hexact := region_tree_stays_exact threeRegions_reachable
  refine ⟨by decide, hexact.1, ?_⟩
  exact (hexact.2.2.2.1 _ _).mpr ⟨Or.inl rfl, by decide, by decide⟩

end RegionTrees
