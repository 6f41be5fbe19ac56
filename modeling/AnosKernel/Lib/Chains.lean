import Mathlib.Algebra.Order.Ring.Nat
import Mathlib.Data.List.Nodup
import Mathlib.Data.List.Pairwise
import Mathlib.Data.List.Perm.Basic
import Mathlib.Logic.Function.Basic

/-!
# Null-terminated singly linked lists

A node type with a `next` field is a function from nodes to optional nodes. `Seg next a xs b`
says that following `next` from `a` visits `xs` in order and arrives at `b`; a chain is a
segment that arrives at the null pointer. A chain never meets a node twice, and writes to
nodes off the segment do not change it.
-/

namespace Chains

universe u
variable {α : Type u} {next next' : α → Option α}

def Seg (next : α → Option α) : Option α → List α → Option α → Prop
  | a, [], b => a = b
  | a, x :: xs, b => a = some x ∧ Seg next (next x) xs b

def Chain (next : α → Option α) (head : Option α) (xs : List α) : Prop := Seg next head xs none

@[simp] theorem seg_nil {a b : Option α} : Seg next a [] b ↔ a = b := Iff.rfl

@[simp] theorem seg_cons {a b : Option α} {x : α} {xs : List α} :
    Seg next a (x :: xs) b ↔ a = some x ∧ Seg next (next x) xs b := Iff.rfl

theorem seg_append {a b : Option α} {xs ys : List α} :
    Seg next a (xs ++ ys) b ↔ ∃ m, Seg next a xs m ∧ Seg next m ys b := by
  induction xs generalizing a with
  | nil => simp
  | cons x xs ih =>
    simp only [List.cons_append, seg_cons, ih]
    constructor
    · rintro ⟨ha, m, hx, hy⟩
      exact ⟨m, ⟨ha, hx⟩, hy⟩
    · rintro ⟨m, ⟨ha, hx⟩, hy⟩
      exact ⟨ha, m, hx, hy⟩

/-- Only the links of the nodes on the segment matter. -/
theorem Seg.congr {a b : Option α} {xs : List α} (h : Seg next a xs b)
    (same : ∀ x ∈ xs, next' x = next x) : Seg next' a xs b := by
  induction xs generalizing a with
  | nil => exact h
  | cons x xs ih =>
    refine ⟨h.1, ?_⟩
    rw [same x List.mem_cons_self]
    exact ih h.2 (fun y hy => same y (List.mem_cons_of_mem _ hy))

theorem Seg.update [DecidableEq α] {a b v : Option α} {xs : List α} {x : α}
    (h : Seg next a xs b) (off : x ∉ xs) : Seg (Function.update next x v) a xs b :=
  h.congr (fun _ hy => Function.update_of_ne (ne_of_mem_of_not_mem hy off) _ _)

/-- The start and the links determine the chain. -/
theorem chain_unique {a : Option α} {xs ys : List α} (hx : Chain next a xs)
    (hy : Chain next a ys) : xs = ys := by
  induction xs generalizing a ys with
  | nil =>
    cases ys with
    | nil => rfl
    | cons y ys =>
      have ha : a = none := hx
      rw [ha] at hy
      exact absurd hy.1 (by simp)
  | cons x xs ih =>
    cases ys with
    | nil =>
      have ha : a = none := hy
      rw [ha] at hx
      exact absurd hx.1 (by simp)
    | cons y ys =>
      have hxy : x = y := Option.some.inj (hx.1.symm.trans hy.1)
      subst hxy
      rw [ih hx.2 hy.2]

/-- A chain is acyclic: meeting a node again would make the rest of the chain its own tail. -/
theorem chain_nodup {a : Option α} {xs : List α} (h : Chain next a xs) : xs.Nodup := by
  induction xs generalizing a with
  | nil => exact List.nodup_nil
  | cons x xs ih =>
    refine List.nodup_cons.mpr ⟨fun hmem => ?_, ih h.2⟩
    obtain ⟨before, after, rfl⟩ := List.append_of_mem hmem
    obtain ⟨m, -, htail⟩ := seg_append.mp h.2
    have heq := chain_unique h.2 htail.2
    have hlen := congrArg List.length heq
    simp at hlen
    omega

/-- A chain starts with its first node. -/
theorem Chain.start_eq {a : Option α} {xs : List α} (h : Chain next a xs) : a = xs.head? := by
  cases xs with
  | nil => exact h
  | cons x xs => exact h.1

/-- Only the first node of a part starts it. -/
theorem Chain.start_ne {a : Option α} {x : α} {xs ys : List α}
    (h : Chain next a (x :: xs ++ ys)) : some x ≠ ys.head? := by
  intro hhead
  have hmem : x ∈ ys := List.mem_of_mem_head? hhead.symm
  exact (List.nodup_cons.mp (chain_nodup h)).1 (List.mem_append_right _ hmem)

theorem Chain.eq_nil {xs : List α} (h : Chain next none xs) : xs = [] := by
  cases xs with
  | nil => rfl
  | cons x xs => exact absurd h.1 (by simp)

/-- A chain that starts at a node has that node first. -/
theorem Chain.cons_of_some {x : α} {xs : List α} (h : Chain next (some x) xs) :
    ∃ rest, xs = x :: rest ∧ Chain next (next x) rest := by
  cases xs with
  | nil => exact absurd h (by simp [Chain])
  | cons y rest =>
    have hxy : x = y := Option.some.inj h.1
    subst hxy
    exact ⟨rest, rfl, h.2⟩

/-- Linking a new node before the first one. -/
theorem Chain.push [DecidableEq α] {a : Option α} {xs : List α} {x : α} (h : Chain next a xs)
    (off : x ∉ xs) : Chain (Function.update next x a) (some x) (x :: xs) := by
  refine ⟨rfl, ?_⟩
  rw [Function.update_self]
  exact h.update off

/-- Linking a new node behind a node of the chain. -/
theorem Chain.insertAfter [DecidableEq α] {a : Option α} {xs ys : List α} {c x : α}
    (h : Chain next a (xs ++ c :: ys)) (off : x ∉ xs ++ c :: ys) :
    Chain (Function.update (Function.update next x (next c)) c (some x)) a
      (xs ++ c :: x :: ys) := by
  have hnodup := List.nodup_append.mp (chain_nodup h)
  have hxs : c ∉ xs := fun hc => hnodup.2.2 c hc c List.mem_cons_self rfl
  have hys : c ∉ ys := (List.nodup_cons.mp hnodup.2.1).1
  simp only [List.mem_append, List.mem_cons, not_or] at off
  obtain ⟨hx, hxc, hxy⟩ := off
  obtain ⟨m, hbefore, hm, hafter⟩ := seg_append.mp h
  refine seg_append.mpr ⟨m, (hbefore.update hx).update hxs, hm, ?_, ?_⟩
  · exact Function.update_self _ _ _
  · rw [Function.update_of_ne hxc, Function.update_self]
    exact (Seg.update hafter hxy).update hys

/-- Linking a new node behind the last one, which ends the chain whatever its link was. -/
theorem Chain.extend [DecidableEq α] {a : Option α} {xs : List α} {c x : α}
    (h : Chain (Function.update next c none) a (xs ++ [c])) (off : x ∉ xs ++ [c]) :
    Chain (Function.update (Function.update next c (some x)) x none) a (xs ++ [c, x]) := by
  have hne : x ≠ c := fun hxc => off (by simp [hxc])
  have hchain := h.insertAfter off
  rw [Function.update_self, Function.update_comm hne, Function.update_idem] at hchain
  exact hchain

/-- Unlinking the node behind a node of the chain. -/
theorem Chain.unlinkAfter [DecidableEq α] {a : Option α} {xs ys : List α} {c x : α}
    (h : Chain next a (xs ++ c :: x :: ys)) :
    Chain (Function.update next c (next x)) a (xs ++ c :: ys) := by
  have hnodup := List.nodup_append.mp (chain_nodup h)
  have hxs : c ∉ xs := fun hc => hnodup.2.2 c hc c List.mem_cons_self rfl
  have hys : c ∉ ys := fun hc =>
    (List.nodup_cons.mp hnodup.2.1).1 (List.mem_cons_of_mem _ hc)
  obtain ⟨m, hbefore, hm, hx, hafter⟩ := seg_append.mp h
  refine seg_append.mpr ⟨m, hbefore.update hxs, hm, ?_⟩
  rw [Function.update_self]
  exact Seg.update hafter hys

/-- No node of a chain points back to its first node. -/
theorem Chain.next_ne_head {t u : α} {xs : List α} (h : Chain next (some t) xs) (hu : u ∈ xs) :
    next u ≠ some t := by
  intro hnext
  obtain ⟨before, after, rfl⟩ := List.append_of_mem hu
  obtain ⟨m, -, -, htail⟩ := seg_append.mp h
  rw [hnext] at htail
  have hlen := congrArg List.length (chain_unique h htail)
  simp at hlen
  omega

/-- A node has at most one predecessor on a chain. -/
theorem Chain.pred_unique {a : Option α} {r u t : α} {xs : List α} (h : Chain next a xs)
    (hr : r ∈ xs) (hu : u ∈ xs) (hrt : next r = some t) (hut : next u = some t) : r = u := by
  induction xs generalizing a with
  | nil => exact absurd hr List.not_mem_nil
  | cons x xs ih =>
    have htail := h.2
    rcases List.mem_cons.mp hr with rfl | hr'
    · rcases List.mem_cons.mp hu with rfl | hu'
      · rfl
      · rw [hrt] at htail
        exact absurd hut (Chain.next_ne_head htail hu')
    · rcases List.mem_cons.mp hu with rfl | hu'
      · rw [hut] at htail
        exact absurd hrt (Chain.next_ne_head htail hr')
      · exact ih htail hr' hu'

/-- The node a chain's member points to is on the chain. -/
theorem Chain.next_mem {a : Option α} {r t : α} {xs : List α} (h : Chain next a xs) (hr : r ∈ xs)
    (hrt : next r = some t) : t ∈ xs := by
  obtain ⟨before, after, rfl⟩ := List.append_of_mem hr
  obtain ⟨m, -, -, htail⟩ := seg_append.mp h
  rw [hrt] at htail
  obtain ⟨rest, rfl, -⟩ := Chain.cons_of_some htail
  simp

/-- Where a walk along a chain has arrived, the rest of the chain starts. -/
theorem Chain.split_of_seg {a m : Option α} {xs zs : List α} (h : Chain next a zs)
    (walk : Seg next a xs m) : ∃ rest, zs = xs ++ rest ∧ Chain next m rest := by
  induction xs generalizing a zs with
  | nil =>
    obtain rfl : a = m := walk
    exact ⟨zs, rfl, h⟩
  | cons x xs ih =>
    obtain ⟨rfl, walk⟩ := walk
    obtain ⟨rest, rfl, htail⟩ := h.cons_of_some
    obtain ⟨rest', rfl, hrest⟩ := ih htail walk
    exact ⟨rest', rfl, hrest⟩

/-- A chain has the nodes that walks along it arrive at. -/
theorem Chain.mem_iff {a : Option α} {xs : List α} {x : α} (h : Chain next a xs) :
    x ∈ xs ↔ ∃ walked, Seg next a walked (some x) := by
  constructor
  · intro hx
    obtain ⟨before, after, rfl⟩ := List.append_of_mem hx
    obtain ⟨m, hbefore, rfl, -⟩ := seg_append.mp h
    exact ⟨before, hbefore⟩
  · rintro ⟨walked, hwalk⟩
    obtain ⟨rest, rfl, hrest⟩ := h.split_of_seg hwalk
    obtain ⟨behind, rfl, -⟩ := hrest.cons_of_some
    simp

/-- A walk never leaves a set that the links do not leave. -/
theorem Seg.closed {a : Option α} {xs : List α} {c : α} (walk : Seg next a xs (some c))
    (P : α → Prop) (start : ∀ x, a = some x → P x)
    (step : ∀ x y, P x → next x = some y → P y) : P c := by
  induction xs generalizing a with
  | nil => exact start c walk
  | cons x xs ih =>
    obtain ⟨hx, walk⟩ := walk
    exact ih walk (fun y hy => step x y (start x hx) hy)

/-- There are fewer nodes on a chain through memory than addresses. -/
theorem length_lt_of_nodup {w : Nat} {xs : List (BitVec w)} (nodup : xs.Nodup)
    (nonnull : 0 ∉ xs) : xs.length < 2 ^ w := by
  have hall : (0 :: xs).Nodup := List.nodup_cons.mpr ⟨nonnull, nodup⟩
  have hnumbers := List.Nodup.map (fun _ _ => BitVec.eq_of_toNat_eq) hall
  have hsub : (0 :: xs).map BitVec.toNat ⊆ List.range (2 ^ w) := by
    intro n hn
    obtain ⟨u, -, rfl⟩ := List.mem_map.mp hn
    exact List.mem_range.mpr u.isLt
  have hlength := (List.subperm_of_subset hnumbers hsub).length_le
  rw [List.length_map, List.length_cons, List.length_range] at hlength
  exact hlength

/-! ## Several chains through the same links -/

section Family

universe v
variable {ι : Type v} {head : ι → Option α} {queue : ι → List α} {indices : List ι}

/-- Every head of the family starts the chain listed for it. -/
def Family (next : α → Option α) (head : ι → Option α) (queue : ι → List α)
    (indices : List ι) : Prop :=
  ∀ i ∈ indices, Chain next (head i) (queue i)

/-- Where no node is listed twice, a node is on one chain only. -/
theorem index_unique (nodup : (indices.flatMap queue).Nodup) {i j : ι} {x : α}
    (hi : i ∈ indices) (hj : j ∈ indices) (hxi : x ∈ queue i) (hxj : x ∈ queue j) : i = j := by
  by_contra hne
  have hsymm : Std.Symm (Function.onFun List.Disjoint queue) := ⟨fun _ _ h _ hy hx => h hx hy⟩
  have happart := (List.nodup_flatMap.mp nodup).2
  exact happart.forall hi hj hne hxi hxj

theorem Family.pred_unique (h : Family next head queue indices)
    (nodup : (indices.flatMap queue).Nodup) {r u t : α} (hr : r ∈ indices.flatMap queue)
    (hu : u ∈ indices.flatMap queue) (hrt : next r = some t) (hut : next u = some t) : r = u := by
  obtain ⟨i, hi, hri⟩ := List.mem_flatMap.mp hr
  obtain ⟨j, hj, huj⟩ := List.mem_flatMap.mp hu
  obtain rfl := index_unique nodup hi hj ((h i hi).next_mem hri hrt) ((h j hj).next_mem huj hut)
  exact (h i hi).pred_unique hri huj hrt hut

theorem Family.head_ne (h : Family next head queue indices)
    (nodup : (indices.flatMap queue).Nodup) {r t : α} {i : ι} (hi : i ∈ indices)
    (hr : r ∈ indices.flatMap queue) (hrt : next r = some t) : head i ≠ some t := by
  intro hhead
  obtain ⟨j, hj, hrj⟩ := List.mem_flatMap.mp hr
  have hchain := h i hi
  rw [hhead] at hchain
  obtain ⟨rest, hqueue, -⟩ := hchain.cons_of_some
  have ht : t ∈ queue i := hqueue ▸ List.mem_cons_self
  obtain rfl := index_unique nodup hi hj ht ((h j hj).next_mem hrj hrt)
  exact hchain.next_ne_head hrj hrt

/-- Rewriting one chain of the family: links may change at its own nodes and at a node that was
on no chain. -/
theorem Family.replace [DecidableEq ι] (h : Family next head queue indices)
    (nodup : (indices.flatMap queue).Nodup) {i : ι} {x : α} (hi : i ∈ indices)
    (fresh : x ∉ indices.flatMap queue) {first : Option α} {xs : List α}
    (same : ∀ y, y ≠ x → y ∉ queue i → next' y = next y) (chain : Chain next' first xs) :
    Family next' (Function.update head i first) (Function.update queue i xs) indices := by
  intro j hj
  by_cases hji : j = i
  · subst hji
    rw [Function.update_self, Function.update_self]
    exact chain
  · rw [Function.update_of_ne hji, Function.update_of_ne hji]
    refine Seg.congr (h j hj) (fun y hy => same y ?_ ?_)
    · rintro rfl
      exact fresh (List.mem_flatMap.mpr ⟨j, hj, hy⟩)
    · exact fun hyi => hji (index_unique nodup hj hi hy hyi)

/-- Rewriting one chain of the family by its own nodes only. -/
theorem Family.rewrite [DecidableEq ι] (h : Family next head queue indices)
    (nodup : (indices.flatMap queue).Nodup) {i : ι} (hi : i ∈ indices) {first : Option α}
    {xs : List α} (same : ∀ y, y ∉ queue i → next' y = next y) (chain : Chain next' first xs) :
    Family next' (Function.update head i first) (Function.update queue i xs) indices := by
  intro j hj
  by_cases hji : j = i
  · subst hji
    rw [Function.update_self, Function.update_self]
    exact chain
  · rw [Function.update_of_ne hji, Function.update_of_ne hji]
    apply Seg.congr (h j hj)
    exact fun y hy => same y fun hyi => hji (index_unique nodup hj hi hy hyi)

/-- Linking a new node before the first one of one chain of the family. -/
theorem Family.push [DecidableEq α] [DecidableEq ι] (h : Family next head queue indices)
    {i : ι} {x : α} (hi : i ∈ indices) (fresh : x ∉ indices.flatMap queue) :
    Family (Function.update next x (head i)) (Function.update head i (some x))
      (Function.update queue i (x :: queue i)) indices := by
  have off : ∀ j ∈ indices, x ∉ queue j := fun j hj hx =>
    fresh (List.mem_flatMap.mpr ⟨j, hj, hx⟩)
  intro j hj
  by_cases hji : j = i
  · subst hji
    rw [Function.update_self, Function.update_self]
    exact (h j hj).push (off j hj)
  · rw [Function.update_of_ne hji, Function.update_of_ne hji]
    exact Seg.update (h j hj) (off j hj)

/-- Unlinking the first node of one chain of the family. -/
theorem Family.pop [DecidableEq α] [DecidableEq ι] (h : Family next head queue indices)
    (nodup : (indices.flatMap queue).Nodup) {i : ι} {x : α} {rest : List α} (hi : i ∈ indices)
    (hqueue : queue i = x :: rest) :
    Family (Function.update next x none) (Function.update head i (next x))
      (Function.update queue i rest) indices := by
  have hx : x ∈ queue i := hqueue ▸ List.mem_cons_self
  have hchain := h i hi
  rw [hqueue] at hchain
  intro j hj
  by_cases hji : j = i
  · subst hji
    rw [Function.update_self, Function.update_self]
    exact Seg.update hchain.2 (List.nodup_cons.mp (chain_nodup hchain)).1
  · rw [Function.update_of_ne hji, Function.update_of_ne hji]
    exact Seg.update (h j hj) fun hxj => hji (index_unique nodup hj hi hxj hx)

/-- Adding a node to one list adds it to them all together. -/
theorem flatMap_update_perm [DecidableEq ι] (unique : indices.Nodup) {i : ι} {x : α}
    (hi : i ∈ indices) {xs : List α} (hxs : xs.Perm (x :: queue i)) :
    (indices.flatMap (Function.update queue i xs)).Perm (x :: indices.flatMap queue) := by
  obtain ⟨before, after, rfl⟩ := List.append_of_mem hi
  obtain ⟨-, hafter, happart⟩ := List.nodup_append.mp unique
  have hout : ∀ is : List ι, i ∉ is →
      is.flatMap (Function.update queue i xs) = is.flatMap queue := by
    intro is his
    refine List.flatMap_congr (fun j hj => Function.update_of_ne ?_ _ _)
    exact ne_of_mem_of_not_mem hj his
  have hb : i ∉ before := fun hb => happart i hb i List.mem_cons_self rfl
  simp only [List.flatMap_append, List.flatMap_cons, Function.update_self, hout before hb,
    hout after (List.nodup_cons.mp hafter).1]
  refine ((hxs.append_right _).append_left _).trans ?_
  exact List.perm_middle

end Family

end Chains
