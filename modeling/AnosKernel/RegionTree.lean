import Mathlib.Data.List.Pairwise
import Mathlib.Order.Basic

/-!
# The region tree

`kernel/structs/region_tree.c` keeps the regions of a process in an AVL tree ordered by start
address. A node carries its region and its height; a null pointer is `null`. What the tree
holds is its in-order sequence of regions: rotations do not change it, an insertion puts the
region in before the first one that starts after it, and a removal takes out the region with
the given start.
-/

namespace RegionTrees

/-- `end` of the source is `stop`. -/
structure Region where
  start : BitVec 64
  stop : BitVec 64
  flags : BitVec 64
  deriving DecidableEq, Repr

inductive RegionTree
  | null
  | node (region : Region) (height : Nat) (left right : RegionTree)
  deriving DecidableEq, Repr

def userspaceLimit : BitVec 64 := 0x8000000000000000

namespace RegionTree

def height : RegionTree → Nat
  | null => 0
  | node _ h _ _ => h

def getBalance : RegionTree → Int
  | null => 0
  | node _ _ left right => left.height - right.height

/-- The node with its height recomputed. -/
def withHeight (region : Region) (left right : RegionTree) : RegionTree :=
  node region (max left.height right.height + 1) left right

/-- The callers' balance tests leave no node without a left child to rotate. -/
def rotateRight : RegionTree → RegionTree
  | node y _ (node x _ xl t2) yr => withHeight x xl (withHeight y t2 yr)
  | tree => tree

def rotateLeft : RegionTree → RegionTree
  | node x _ xl (node y _ t2 yr) => withHeight y (withHeight x xl t2) yr
  | tree => tree

/-- `node->left->start` and `node->right->start`; the balance tests have found that child. -/
def rootStart : RegionTree → BitVec 64
  | null => 0
  | node region _ _ _ => region.start

def mapLeft (f : RegionTree → RegionTree) : RegionTree → RegionTree
  | null => null
  | node region h left right => node region h (f left) right

def mapRight (f : RegionTree → RegionTree) : RegionTree → RegionTree
  | null => null
  | node region h left right => node region h left (f right)

/-- The end of `region_tree_insert`: rotations chosen by the start of the new region. -/
def rebalanceInsert (start : BitVec 64) (region : Region) (left right : RegionTree) :
    RegionTree :=
  let tree := withHeight region left right
  let balance := tree.getBalance
  if balance > 1 ∧ start < left.rootStart then tree.rotateRight
  else if balance < -1 ∧ start ≥ right.rootStart then tree.rotateLeft
  else if balance > 1 ∧ start ≥ left.rootStart then (tree.mapLeft rotateLeft).rotateRight
  else if balance < -1 ∧ start < right.rootStart then (tree.mapRight rotateRight).rotateLeft
  else tree

/-- The new region is a node without children. -/
def regionTreeInsert (new : Region) : RegionTree → RegionTree
  | tree@null =>
    if new.stop ≤ new.start then tree
    else if new.stop > userspaceLimit then tree
    else node new 1 null null
  | tree@(node region _ left right) =>
    if new.stop ≤ new.start then tree
    else if new.stop > userspaceLimit then tree
    else if new.start < region.start then
      rebalanceInsert new.start region (regionTreeInsert new left) right
    else rebalanceInsert new.start region left (regionTreeInsert new right)

/-- The region of the leftmost node. -/
def minValueNode : RegionTree → Option Region
  | null => none
  | node region _ null _ => some region
  | node _ _ left@(node _ _ _ _) _ => minValueNode left

/-- The end of `region_tree_remove`: rotations chosen by the balance of the children. -/
def rebalanceRemove (region : Region) (left right : RegionTree) : RegionTree :=
  let tree := withHeight region left right
  let balance := tree.getBalance
  if balance > 1 ∧ left.getBalance ≥ 0 then tree.rotateRight
  else if balance > 1 ∧ left.getBalance < 0 then (tree.mapLeft rotateLeft).rotateRight
  else if balance < -1 ∧ right.getBalance ≤ 0 then tree.rotateLeft
  else if balance < -1 ∧ right.getBalance > 0 then (tree.mapRight rotateRight).rotateLeft
  else tree

def regionTreeRemove (start : BitVec 64) : RegionTree → RegionTree
  | null => null
  | node region _ left right =>
    if start < region.start then rebalanceRemove region (regionTreeRemove start left) right
    else if start > region.start then rebalanceRemove region left (regionTreeRemove start right)
    else match left, right.minValueNode with
      | null, _ => right
      | _, none => left
      | _, some temp => rebalanceRemove temp left (regionTreeRemove temp.start right)

/-- In-order traversal, as `region_tree_visit_all` goes. -/
def inorder : RegionTree → List Region
  | null => []
  | node region _ left right => left.inorder ++ region :: right.inorder

@[simp] theorem inorder_null : null.inorder = [] := rfl

@[simp] theorem inorder_node (region : Region) (h : Nat) (left right : RegionTree) :
    (node region h left right).inorder = left.inorder ++ region :: right.inorder := rfl

@[simp] theorem inorder_withHeight (region : Region) (left right : RegionTree) :
    (withHeight region left right).inorder = left.inorder ++ region :: right.inorder := rfl

@[simp] theorem inorder_rotateRight (tree : RegionTree) :
    tree.rotateRight.inorder = tree.inorder := by
  unfold rotateRight
  split <;> simp

@[simp] theorem inorder_rotateLeft (tree : RegionTree) :
    tree.rotateLeft.inorder = tree.inorder := by
  unfold rotateLeft
  split <;> simp

theorem inorder_mapLeft {f : RegionTree → RegionTree} (hf : ∀ t, (f t).inorder = t.inorder)
    (tree : RegionTree) : (tree.mapLeft f).inorder = tree.inorder := by
  cases tree <;> simp [mapLeft, hf]

theorem inorder_mapRight {f : RegionTree → RegionTree} (hf : ∀ t, (f t).inorder = t.inorder)
    (tree : RegionTree) : (tree.mapRight f).inorder = tree.inorder := by
  cases tree <;> simp [mapRight, hf]

@[simp] theorem inorder_rebalanceInsert (start : BitVec 64) (region : Region)
    (left right : RegionTree) :
    (rebalanceInsert start region left right).inorder = left.inorder ++ region :: right.inorder := by
  unfold rebalanceInsert
  dsimp only
  split_ifs <;> simp [inorder_mapLeft, inorder_mapRight]

@[simp] theorem inorder_rebalanceRemove (region : Region) (left right : RegionTree) :
    (rebalanceRemove region left right).inorder = left.inorder ++ region :: right.inorder := by
  unfold rebalanceRemove
  dsimp only
  split_ifs <;> simp [inorder_mapLeft, inorder_mapRight]

/-! ## Insertion and removal in the sequence -/

/-- Ordered by start, no start twice. -/
def Sorted (regions : List Region) : Prop := regions.Pairwise fun a b => a.start < b.start

theorem sorted_node {region : Region} {left right : List Region}
    (h : Sorted (left ++ region :: right)) :
    Sorted left ∧ Sorted right ∧ (∀ a ∈ left, a.start < region.start) ∧
      (∀ b ∈ right, region.start < b.start) := by
  obtain ⟨hleft, hright, hcross⟩ := List.pairwise_append.mp h
  obtain ⟨hregion, hright⟩ := List.pairwise_cons.mp hright
  exact ⟨hleft, hright, fun a ha => hcross a ha region List.mem_cons_self, hregion⟩

/-- A valid region is put in after the regions that start no later. -/
theorem inorder_insert (new : Region) (hvalid : ¬ new.stop ≤ new.start)
    (huser : ¬ new.stop > userspaceLimit) (tree : RegionTree) (hsorted : Sorted tree.inorder) :
    ∃ before after, tree.inorder = before ++ after ∧
      (tree.regionTreeInsert new).inorder = before ++ new :: after ∧
      (∀ a ∈ before, a.start ≤ new.start) ∧ (∀ b ∈ after, new.start < b.start) := by
  induction tree with
  | null => exact ⟨[], [], rfl, by simp [regionTreeInsert, hvalid, huser], by simp, by simp⟩
  | node region h left right ihl ihr =>
    obtain ⟨hleft, hright, hless, hmore⟩ := sorted_node hsorted
    rw [regionTreeInsert, if_neg hvalid, if_neg huser]
    split
    · rename_i hlt
      obtain ⟨before, after, hsplit, hinsert, hbefore, hafter⟩ := ihl hleft
      refine ⟨before, after ++ region :: right.inorder, ?_, ?_, hbefore, ?_⟩
      · rw [inorder_node, hsplit, List.append_assoc]
      · rw [inorder_rebalanceInsert, hinsert, List.append_assoc, List.cons_append]
      · intro b hb
        rcases List.mem_append.mp hb with hb | hb
        · exact hafter b hb
        · rcases List.mem_cons.mp hb with rfl | hb
          · exact hlt
          · exact BitVec.lt_trans hlt (hmore b hb)
    · rename_i hge
      have hle : region.start ≤ new.start := BitVec.not_lt.mp hge
      obtain ⟨before, after, hsplit, hinsert, hbefore, hafter⟩ := ihr hright
      refine ⟨left.inorder ++ region :: before, after, ?_, ?_, ?_, hafter⟩
      · rw [inorder_node, hsplit, List.append_assoc, List.cons_append]
      · rw [inorder_rebalanceInsert, hinsert, List.append_assoc, List.cons_append]
      · intro a ha
        rcases List.mem_append.mp ha with ha | ha
        · exact BitVec.le_trans (BitVec.le_of_lt (hless a ha)) hle
        · rcases List.mem_cons.mp ha with rfl | ha
          · exact hle
          · exact hbefore a ha

theorem minValueNode_eq_head (tree : RegionTree) : tree.minValueNode = tree.inorder.head? := by
  fun_induction minValueNode tree with
  | case1 => rfl
  | case2 region h right => rfl
  | case3 region h lregion lh ll lr right ih =>
    rw [ih, inorder_node region h, List.head?_append]
    cases hhead : (node lregion lh ll lr).inorder.head? with
    | none => simp at hhead
    | some r => rfl

theorem filter_start_ne {start : BitVec 64} {regions : List Region}
    (h : ∀ a ∈ regions, a.start ≠ start) :
    regions.filter (fun a => a.start ≠ start) = regions :=
  List.filter_eq_self.mpr fun a ha => by simpa using h a ha

/-- A removal takes out the region that starts there, and nothing else. -/
theorem inorder_remove (start : BitVec 64) (tree : RegionTree) (hsorted : Sorted tree.inorder) :
    (tree.regionTreeRemove start).inorder
      = tree.inorder.filter (fun a => a.start ≠ start) := by
  induction tree generalizing start with
  | null => rfl
  | node region h left right ihl ihr =>
    obtain ⟨hleft, hright, hless, hmore⟩ := sorted_node hsorted
    rw [inorder_node, List.filter_append, List.filter_cons]
    unfold regionTreeRemove
    split
    · rename_i hlt
      have hrest : right.inorder.filter (fun a => a.start ≠ start) = right.inorder :=
        filter_start_ne fun a ha => (BitVec.ne_of_lt (BitVec.lt_trans hlt (hmore a ha))).symm
      have hne : decide (region.start ≠ start) = true := by
        simpa using (BitVec.ne_of_lt hlt).symm
      rw [inorder_rebalanceRemove, ihl start hleft, hrest, if_pos hne]
    · rename_i hnlt
      split
      · rename_i hgt
        have hrest : left.inorder.filter (fun a => a.start ≠ start) = left.inorder :=
          filter_start_ne fun a ha => BitVec.ne_of_lt (BitVec.lt_trans (hless a ha) hgt)
        have hne : decide (region.start ≠ start) = true := by
          simpa using BitVec.ne_of_lt hgt
        rw [inorder_rebalanceRemove, ihr start hright, hrest, if_pos hne]
      · rename_i hngt
        have heq : region.start = start :=
          BitVec.le_antisymm (BitVec.not_lt.mp hnlt) (BitVec.not_lt.mp hngt)
        have hkeep_left : left.inorder.filter (fun a => a.start ≠ start) = left.inorder :=
          filter_start_ne fun a ha => heq ▸ BitVec.ne_of_lt (hless a ha)
        have hkeep_right : right.inorder.filter (fun a => a.start ≠ start) = right.inorder :=
          filter_start_ne fun a ha => heq ▸ (BitVec.ne_of_lt (hmore a ha)).symm
        rw [hkeep_left, hkeep_right, if_neg (by simpa using heq)]
        split
        · rfl
        · rename_i hnone
          rw [minValueNode_eq_head, List.head?_eq_none_iff] at hnone
          rw [hnone, List.append_nil]
        · -- the successor takes the root's place and leaves the right subtree
          rename_i temp _ htemp
          rw [minValueNode_eq_head] at htemp
          obtain ⟨rest, hrest⟩ := List.head?_eq_some_iff.mp htemp
          rw [inorder_rebalanceRemove, ihr temp.start hright, hrest]
          rw [hrest] at hright
          have htail := (List.pairwise_cons.mp hright).1
          rw [List.filter_cons, if_neg (by simp)]
          exact congrArg _ (congrArg _
            (filter_start_ne fun a ha => (BitVec.ne_of_lt (htail a ha)).symm))

end RegionTree

end RegionTrees
