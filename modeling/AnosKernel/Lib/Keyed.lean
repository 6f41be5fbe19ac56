import Mathlib.Data.List.Perm.Basic
import Mathlib.Data.Set.Card

/-!
# Lists of records as maps

A list of records with distinct keys is a map from keys to records. A new record is appended; to
remove one, the last record takes its place.
-/

namespace Keyed

open scoped List

universe u v
variable {α : Type u} {κ : Type v} {key : α → κ} {l l' : List α} {a last : α} {k : κ} {i : Nat}

/-- The keys are distinct. -/
def Distinct (key : α → κ) (l : List α) : Prop := (l.map key).Nodup

theorem Distinct.perm (distinct : Distinct key l) (perm : l.Perm l') : Distinct key l' :=
  (perm.map key).nodup distinct

theorem Distinct.sublist (distinct : Distinct key l) (sublist : l'.Sublist l) : Distinct key l' :=
  List.Nodup.sublist (sublist.map key) distinct

theorem Distinct.append_one (distinct : Distinct key l) (fresh : key a ∉ l.map key) :
    Distinct key (l ++ [a]) := by
  rw [Distinct, List.map_append]
  refine List.nodup_append.mpr ⟨distinct, List.nodup_singleton _, ?_⟩
  rintro k hk k' hk' rfl
  exact fresh (List.mem_singleton.mp hk' ▸ hk)

theorem Distinct.nodup (distinct : Distinct key l) : l.Nodup := List.Nodup.of_map key distinct

section Lookup

variable [DecidableEq κ]

def lookup (key : α → κ) (l : List α) (k : κ) : Option α := l.find? fun a => key a = k

theorem lookup_eq_none : lookup key l k = none ↔ k ∉ l.map key := by
  rw [lookup, List.find?_eq_none, List.mem_map]
  constructor
  · rintro hnone ⟨a, ha, rfl⟩
    exact hnone a ha (decide_eq_true rfl)
  · intro hnone a ha hkey
    exact hnone ⟨a, ha, of_decide_eq_true hkey⟩

theorem of_lookup (h : lookup key l k = some a) : a ∈ l ∧ key a = k := by
  have hfind : l.find? (fun a => key a = k) = some a := h
  have hkey := List.find?_some hfind
  exact ⟨List.mem_of_find?_eq_some hfind, of_decide_eq_true hkey⟩

theorem lookup_eq_some (distinct : Distinct key l) :
    lookup key l k = some a ↔ a ∈ l ∧ key a = k := by
  constructor
  · exact of_lookup
  · rintro ⟨ha, rfl⟩
    cases hfound : lookup key l (key a) with
    | none => exact absurd (List.mem_map_of_mem ha) (lookup_eq_none.mp hfound)
    | some b =>
      obtain ⟨hb, hkey⟩ := of_lookup hfound
      exact congrArg some (List.inj_on_of_nodup_map distinct hb ha hkey)

theorem lookup_append_one (distinct : Distinct key l) (fresh : key a ∉ l.map key) :
    lookup key (l ++ [a]) = Function.update (lookup key l) (key a) (some a) := by
  funext k
  apply Option.ext
  intro b
  rw [lookup_eq_some (distinct.append_one fresh), List.mem_append, List.mem_singleton]
  by_cases hk : k = key a
  · subst hk
    rw [Function.update_self, Option.some.injEq]
    constructor
    · rintro ⟨hb | rfl, hkey⟩
      · exact absurd (hkey ▸ List.mem_map_of_mem hb) fresh
      · rfl
    · rintro rfl
      exact ⟨Or.inr rfl, rfl⟩
  · rw [Function.update_of_ne hk, lookup_eq_some distinct]
    constructor
    · rintro ⟨hb | rfl, hkey⟩
      · exact ⟨hb, hkey⟩
      · exact absurd hkey.symm hk
    · rintro ⟨hb, hkey⟩
      exact ⟨Or.inl hb, hkey⟩

/-- The other records are looked up as before. -/
theorem lookup_removed (distinct : Distinct key l) (perm : l.Perm (a :: l')) :
    lookup key l' = Function.update (lookup key l) (key a) none := by
  have hcons := distinct.perm perm
  have hrest : Distinct key l' := hcons.sublist (List.sublist_cons_self a l')
  have hfresh : key a ∉ l'.map key := (List.nodup_cons.mp hcons).1
  funext k
  apply Option.ext
  intro b
  rw [lookup_eq_some hrest]
  by_cases hk : k = key a
  · subst hk
    rw [Function.update_self]
    constructor
    · rintro ⟨hb, hkey⟩
      exact absurd (hkey ▸ List.mem_map_of_mem hb) hfresh
    · intro h
      cases h
  · rw [Function.update_of_ne hk, lookup_eq_some distinct, perm.mem_iff, List.mem_cons]
    constructor
    · rintro ⟨hb, hkey⟩
      exact ⟨Or.inr hb, hkey⟩
    · rintro ⟨rfl | hb, hkey⟩
      · exact absurd hkey.symm hk
      · exact ⟨hb, hkey⟩

/-- As many keys are present as there are records. -/
theorem ncard_present (distinct : Distinct key l) :
    {k | lookup key l k ≠ none}.ncard = l.length := by
  have hpresent : {k | lookup key l k ≠ none} = ↑(l.map key).toFinset := by
    ext k
    rw [Set.mem_ofPred_eq, ne_eq, lookup_eq_none, not_not, List.coe_toFinset, Set.mem_ofPred_eq]
  rw [hpresent, Set.ncard_coe_finset, List.toFinset_card_of_nodup distinct, List.length_map]

end Lookup

/-- The last record takes the place of the one that is removed. -/
theorem swapRemove_perm (hi : i < l.length) (hlast : l.getLast? = some last) :
    l.Perm (l[i] :: (l.set i last).dropLast) := by
  obtain ⟨init, rfl⟩ := List.getLast?_eq_some_iff.mp hlast
  rw [List.length_append, List.length_singleton] at hi
  rcases Nat.lt_or_eq_of_le (Nat.le_of_lt_succ hi) with hlt | rfl
  · rw [List.set_append_left i last hlt, List.dropLast_concat, List.getElem_append_left hlt]
    have hset := List.set_perm_cons_eraseIdx hlt last
    have hget := List.getElem_cons_eraseIdx_perm hlt
    calc init ++ [last] ~ last :: init := List.perm_append_singleton last init
      _ ~ last :: init[i] :: init.eraseIdx i := hget.symm.cons last
      _ ~ init[i] :: last :: init.eraseIdx i := List.Perm.swap _ _ _
      _ ~ init[i] :: init.set i last := hset.symm.cons _
  · rw [List.set_append_right _ _ le_rfl, Nat.sub_self, List.getElem_append_right le_rfl]
    rw [List.set_cons_zero, List.dropLast_concat]
    simp only [Nat.sub_self, List.getElem_cons_zero]
    exact List.perm_append_singleton last init

end Keyed
