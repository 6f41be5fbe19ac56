import Mathlib.Data.Finset.Card
import Mathlib.Data.Finset.Update
import Mathlib.Data.Set.Card
import Mathlib.Logic.Function.Basic

/-!
# Open addressing with linear probing

A ring of `n` slots, each free, dead (a tombstone) or live with a key and a value. A key is
looked for from its home slot onwards, and the search goes on over every slot that is not free.
The ring is sound when no search passes a free slot before its key and no key is live twice.
A sound ring is a finite map. Writing the first free slot, burying an entry, rebuilding into a
larger ring and mending the cluster behind a freed slot keep it sound.
-/

namespace Probing

universe u v
variable {K : Type u} {V : Type v}

inductive Slot (K : Type u) (V : Type v)
  | free
  | dead
  | live (key : K) (value : V)

namespace Slot

def isLive : Slot K V → Bool
  | .live _ _ => true
  | _ => false

@[simp] theorem isLive_live (k : K) (x : V) : (Slot.live k x).isLive = true := rfl
@[simp] theorem isLive_free : (Slot.free : Slot K V).isLive = false := rfl
@[simp] theorem isLive_dead : (Slot.dead : Slot K V).isLive = false := rfl

end Slot

section Ring

/-- Steps forward from `a` to `b` on a ring of `n` slots. -/
def dist (n a b : Nat) : Nat := if a ≤ b then b - a else b + n - a

variable {n a b c : Nat}

theorem dist_lt (ha : a < n) (hb : b < n) : dist n a b < n := by
  unfold dist
  split <;> omega

@[simp] theorem dist_self : dist n a a = 0 := by simp [dist]

theorem add_mod_ring {i : Nat} (ha : a < n) (hi : i < n) :
    (a + i) % n = if a + i < n then a + i else a + i - n := by
  split
  · exact Nat.mod_eq_of_lt (by omega)
  · rw [Nat.mod_eq_sub_mod (by omega), Nat.mod_eq_of_lt (by omega)]

theorem at_dist (ha : a < n) (hb : b < n) : (a + dist n a b) % n = b := by
  rw [add_mod_ring ha (dist_lt ha hb)]
  unfold dist
  split <;> split <;> omega

theorem dist_at {i : Nat} (ha : a < n) (hi : i < n) : dist n a ((a + i) % n) = i := by
  rw [add_mod_ring ha hi]
  unfold dist
  split <;> split <;> omega

theorem dist_inj (ha : a < n) (hb : b < n) (hc : c < n) (h : dist n a b = dist n a c) : b = c := by
  rw [← at_dist ha hb, h, at_dist ha hc]

theorem succ_mod_ring {i : Nat} : ((a + i) % n + 1) % n = (a + (i + 1)) % n := by
  rw [Nat.mod_add_mod, Nat.add_assoc]

/-- A loop that moves on `d` times reaches its `d`-th turn. -/
theorem loop_advance {β : Type*} {f : Nat → Nat → β} {d : Nat}
    (go : ∀ i < d, ∀ fuel, f (fuel + 1) i = f fuel (i + 1)) (fuel : Nat) :
    f (fuel + d) 0 = f fuel d := by
  induction d generalizing fuel with
  | zero => rfl
  | succ d ih =>
    have hgo := ih (fun i hi => go i (by omega)) (fuel + 1)
    rw [show fuel + (d + 1) = fuel + 1 + d by omega, hgo]
    exact go d (by omega) fuel

/-- A computation given a number of turns returns `r` once it has enough, and nothing else. -/
structure Settles {β : Type*} (f : Nat → Option β) (r : β) : Prop where
  enough : ∃ least, ∀ turns, least ≤ turns → f turns = some r
  only : ∀ turns r', f turns = some r' → r' = r

theorem Settles.returns {β : Type*} {f : Nat → Option β} {r : β} (h : Settles f r) :
    ∃ turns, f turns = some r := by
  obtain ⟨least, hleast⟩ := h.enough
  exact ⟨least, hleast least (le_refl least)⟩

theorem Settles.const {β : Type*} (r : β) : Settles (fun _ => some r) r :=
  ⟨⟨0, fun _ _ => rfl⟩, fun _ _ h => (Option.some.inj h).symm⟩

theorem Settles.bind {α β : Type*} {f : Nat → Option α} {g : Nat → α → Option β} {a : α} {r : β}
    (hf : Settles f a) (hg : Settles (fun turns => g turns a) r) :
    Settles (fun turns => (f turns).bind (g turns)) r := by
  obtain ⟨least, hleast⟩ := hf.enough
  obtain ⟨least', hleast'⟩ := hg.enough
  refine ⟨⟨max least least', fun turns hturns => ?_⟩, fun turns r' hr' => ?_⟩
  · rw [hleast turns (by omega)]
    exact hleast' turns (by omega)
  · obtain ⟨a', ha', hr'⟩ := Option.bind_eq_some_iff.mp hr'
    rw [hf.only turns a' ha'] at hr'
    exact hg.only turns r' hr'

/-- A loop that goes on `d` times and then returns. -/
theorem loop_settles {β : Type*} {f : Nat → Nat → Option β} {d : Nat} {r : β}
    (out : ∀ i, f 0 i = none) (go : ∀ i < d, ∀ turns, f (turns + 1) i = f turns (i + 1))
    (done : ∀ turns, f (turns + 1) d = some r) : Settles (fun turns => f turns 0) r := by
  have hlong : ∀ turns, d < turns → f turns 0 = some r := by
    intro turns hturns
    have hadvance := loop_advance go (turns - d - 1 + 1)
    rw [show turns - d - 1 + 1 + d = turns by omega] at hadvance
    rw [hadvance, done]
  refine ⟨⟨d + 1, fun turns hturns => hlong turns hturns⟩, fun turns r' hr' => ?_⟩
  by_cases hturns : d < turns
  · exact Option.some.inj (hr'.symm.trans (hlong turns hturns))
  · have hadvance := loop_advance (d := turns) (fun i hi => go i (by omega)) 0
    rw [Nat.zero_add] at hadvance
    rw [hadvance, out] at hr'
    exact absurd hr' (by simp)

/-- The first slot from `h` on that meets `stop`. -/
structure First (n : Nat) (stop : Nat → Prop) (h p : Nat) : Prop where
  inside : p < n
  stops : stop p
  before : ∀ q < n, dist n h q < dist n h p → ¬ stop q

theorem exists_first (stop : Nat → Prop) {h : Nat} (hh : h < n) (some_stop : ∃ p < n, stop p) :
    ∃ p, First n stop h p := by
  classical
  have hex : ∃ d, d < n ∧ stop ((h + d) % n) := by
    obtain ⟨p, hp, hstop⟩ := some_stop
    exact ⟨dist n h p, dist_lt hh hp, by rwa [at_dist hh hp]⟩
  obtain ⟨hd, hstop⟩ := Nat.find_spec hex
  refine ⟨(h + Nat.find hex) % n, Nat.mod_lt _ (by omega), hstop, fun q hq hlt hs => ?_⟩
  rw [dist_at hh hd] at hlt
  exact Nat.find_min hex hlt ⟨dist_lt hh hq, by rwa [at_dist hh hq]⟩

/-- The turns before the first stop do not stop. -/
theorem First.turn {stop : Nat → Prop} {h p i : Nat} (hf : First n stop h p) (hh : h < n)
    (hi : i < dist n h p) : ¬ stop ((h + i) % n) := by
  have hp := dist_lt hh hf.inside
  refine hf.before _ (Nat.mod_lt _ (by omega)) ?_
  rwa [dist_at hh (by omega)]

end Ring

/-- No free slot on the way from `h` to `p`. -/
def NoFree (n : Nat) (slots : Nat → Slot K V) (h p : Nat) : Prop :=
  ∀ q < n, dist n h q < dist n h p → slots q ≠ .free

def Unique (n : Nat) (slots : Nat → Slot K V) : Prop :=
  ∀ p < n, ∀ q < n, ∀ k x y, slots p = .live k x → slots q = .live k y → p = q

structure Sound (n : Nat) (home : K → Nat) (slots : Nat → Slot K V) : Prop where
  reach : ∀ p < n, ∀ k x, slots p = .live k x → NoFree n slots (home k) p
  unique : Unique n slots

def Holds (n : Nat) (slots : Nat → Slot K V) (k : K) (x : V) : Prop :=
  ∃ p < n, slots p = .live k x

/-- The ring holds the entries of the map `m`. -/
def Represents (n : Nat) (slots : Nat → Slot K V) (m : K → Option V) : Prop :=
  ∀ k x, m k = some x ↔ Holds n slots k x

def liveCount (n : Nat) (slots : Nat → Slot K V) : Nat :=
  ((Finset.range n).filter fun p => (slots p).isLive).card

variable {n : Nat} {home : K → Nat} {slots : Nat → Slot K V} {m : K → Option V} {k : K} {x : V}
  {p : Nat}

theorem NoFree.mono {slots' : Nat → Slot K V} {h : Nat} (hfree : NoFree n slots h p)
    (more : ∀ q < n, slots' q = .free → slots q = .free) : NoFree n slots' h p :=
  fun q hq hlt hnone => hfree q hq hlt (more q hq hnone)

/-- The search of a key ends at the key if it is there. -/
theorem Sound.search (hs : Sound n home slots) (hh : home k < n)
    (hf : First n (fun q => slots q = .free ∨ ∃ y, slots q = .live k y) (home k) p) :
    Holds n slots k x ↔ slots p = .live k x := by
  constructor
  · rintro ⟨q, hq, hlive⟩
    rcases lt_trichotomy (dist n (home k) q) (dist n (home k) p) with hlt | heq | hgt
    · exact absurd (Or.inr ⟨x, hlive⟩) (hf.before q hq hlt)
    · rw [dist_inj hh hf.inside hq heq.symm]
      exact hlive
    · rcases hf.stops with hfree | ⟨y, hy⟩
      · exact absurd hfree (hs.reach q hq k x hlive p hf.inside hgt)
      · rw [hs.unique p hf.inside q hq k y x hy hlive]
        exact hlive
  · intro hlive
    exact ⟨p, hf.inside, hlive⟩

/-- Where the search ends is what the map says of the key. -/
theorem Sound.search_represents (hs : Sound n home slots) (hm : Represents n slots m)
    (hh : home k < n)
    (hf : First n (fun q => slots q = .free ∨ ∃ y, slots q = .live k y) (home k) p) :
    (slots p = .free ∧ m k = none) ∨ ∃ y, slots p = .live k y ∧ m k = some y := by
  rcases hf.stops with hfree | ⟨y, hy⟩
  · refine Or.inl ⟨hfree, ?_⟩
    cases hmk : m k with
    | none => rfl
    | some y =>
      have hlive := (hs.search hh hf).mp ((hm k y).mp hmk)
      rw [hfree] at hlive
      exact absurd hlive (by simp)
  · exact Or.inr ⟨y, hy, (hm k y).mpr ⟨p, hf.inside, hy⟩⟩

theorem Unique.write (hu : Unique n slots) (only : ∀ q < n, q ≠ p → ∀ y, slots q ≠ .live k y) :
    Unique n (Function.update slots p (.live k x)) := by
  intro q hq r hr k' y z hy hz
  by_cases hqp : q = p <;> by_cases hrp : r = p
  · rw [hqp, hrp]
  · rw [hqp, Function.update_self] at hy
    rw [Function.update_of_ne hrp] at hz
    injection hy with hk _
    exact absurd (hk ▸ hz) (only r hr hrp z)
  · rw [hrp, Function.update_self] at hz
    rw [Function.update_of_ne hqp] at hy
    injection hz with hk _
    exact absurd (hk ▸ hy) (only q hq hqp y)
  · rw [Function.update_of_ne hqp] at hy
    rw [Function.update_of_ne hrp] at hz
    exact hu q hq r hr k' y z hy hz

/-- Writing a key, live nowhere else, to a slot its search reaches. -/
theorem Sound.write (hs : Sound n home slots)
    (path : NoFree n slots (home k) p)
    (only : ∀ q < n, q ≠ p → ∀ y, slots q ≠ .live k y) :
    Sound n home (Function.update slots p (.live k x)) := by
  have more : ∀ q < n, Function.update slots p (.live k x) q = .free → slots q = .free := by
    intro q _ hfree
    by_cases hqp : q = p
    · rw [hqp, Function.update_self] at hfree
      exact absurd hfree (by simp)
    · rwa [Function.update_of_ne hqp] at hfree
  refine ⟨?_, hs.unique.write only⟩
  intro q hq k' y hlive
  by_cases hqp : q = p
  · rw [hqp, Function.update_self] at hlive
    injection hlive with hk _
    rw [hqp, ← hk]
    exact path.mono more
  · rw [Function.update_of_ne hqp] at hlive
    exact (hs.reach q hq k' y hlive).mono more

theorem Unique.erase {s : Slot K V} (hu : Unique n slots) (hdead : s.isLive = false) :
    Unique n (Function.update slots p s) := by
  have old : ∀ q k' y, Function.update slots p s q = .live k' y → slots q = .live k' y := by
    intro q k' y hlive
    by_cases hqp : q = p
    · rw [hqp, Function.update_self] at hlive
      rw [hlive] at hdead
      exact absurd hdead (by simp)
    · rwa [Function.update_of_ne hqp] at hlive
  intro q hq r hr k' y z hy hz
  exact hu q hq r hr k' y z (old q k' y hy) (old r k' z hz)

/-- A tombstone keeps every search path. -/
theorem Sound.bury (hs : Sound n home slots) :
    Sound n home (Function.update slots p .dead) := by
  refine ⟨?_, hs.unique.erase rfl⟩
  intro q hq k' y hlive
  have hqp : q ≠ p := by
    rintro rfl
    rw [Function.update_self] at hlive
    exact absurd hlive (by simp)
  rw [Function.update_of_ne hqp] at hlive
  refine (hs.reach q hq k' y hlive).mono fun r _ hfree => ?_
  by_cases hrp : r = p
  · rw [hrp, Function.update_self] at hfree
    exact absurd hfree (by simp)
  · rwa [Function.update_of_ne hrp] at hfree

section Contents
variable [DecidableEq K]

/-- The map after a key is written. The slot held nothing live, or the same key before. -/
theorem Represents.write (hm : Represents n slots m) (hp : p < n)
    (only : ∀ q < n, q ≠ p → ∀ y, slots q ≠ .live k y)
    (old : ∀ k' y, slots p = .live k' y → k' = k) :
    Represents n (Function.update slots p (.live k x)) (Function.update m k (some x)) := by
  intro k' y
  by_cases hk : k' = k
  · subst hk
    rw [Function.update_self]
    constructor
    · intro hxy
      have hxy' : x = y := by simpa using hxy
      exact ⟨p, hp, by rw [Function.update_self, hxy']⟩
    · rintro ⟨q, hq, hlive⟩
      by_cases hqp : q = p
      · rw [hqp, Function.update_self] at hlive
        injection hlive with _ hy
        rw [hy]
      · rw [Function.update_of_ne hqp] at hlive
        exact absurd hlive (only q hq hqp y)
  · rw [Function.update_of_ne hk, hm k' y]
    constructor
    · rintro ⟨q, hq, hlive⟩
      have hqp : q ≠ p := by
        rintro rfl
        exact hk (old k' y hlive)
      exact ⟨q, hq, by rwa [Function.update_of_ne hqp]⟩
    · rintro ⟨q, hq, hlive⟩
      by_cases hqp : q = p
      · rw [hqp, Function.update_self] at hlive
        injection hlive with hk' _
        exact absurd hk'.symm hk
      · rw [Function.update_of_ne hqp] at hlive
        exact ⟨q, hq, hlive⟩

/-- The map after the entry of a key is buried or freed. -/
theorem Represents.erase {s : Slot K V} (hm : Represents n slots m) (hu : Unique n slots)
    (hp : p < n) (hlive : slots p = .live k x) (hdead : s.isLive = false) :
    Represents n (Function.update slots p s) (Function.update m k none) := by
  intro k' y
  by_cases hk : k' = k
  · subst hk
    rw [Function.update_self]
    refine ⟨fun h => absurd h (by simp), ?_⟩
    rintro ⟨q, hq, hq_live⟩
    by_cases hqp : q = p
    · rw [hqp, Function.update_self] at hq_live
      rw [hq_live] at hdead
      exact absurd hdead (by simp)
    · rw [Function.update_of_ne hqp] at hq_live
      exact absurd (hu q hq p hp k' y x hq_live hlive) hqp
  · rw [Function.update_of_ne hk, hm k' y]
    constructor
    · rintro ⟨q, hq, hq_live⟩
      have hqp : q ≠ p := by
        rintro rfl
        rw [hlive] at hq_live
        injection hq_live with hk' _
        exact hk hk'.symm
      exact ⟨q, hq, by rwa [Function.update_of_ne hqp]⟩
    · rintro ⟨q, hq, hq_live⟩
      by_cases hqp : q = p
      · rw [hqp, Function.update_self] at hq_live
        rw [hq_live] at hdead
        exact absurd hdead (by simp)
      · rw [Function.update_of_ne hqp] at hq_live
        exact ⟨q, hq, hq_live⟩

/-- Taking an entry out and putting it back at a free slot is no change of the map. -/
theorem Represents.move {a : Nat} (hm : Represents n slots m) (hu : Unique n slots) (ha : a < n)
    (hp : p < n) (hlive : slots a = .live k x)
    (hfree : Function.update slots a .free p = .free) :
    Represents n (Function.update (Function.update slots a .free) p (.live k x)) m := by
  have hmk : m k = some x := (hm k x).mpr ⟨a, ha, hlive⟩
  have hout := hm.erase hu ha hlive (s := .free) rfl
  have hback := hout.write (x := x) (k := k) hp
    (fun q hq _ y hy => by simpa using (hout k y).mpr ⟨q, hq, hy⟩)
    (fun k' y hy => absurd (hfree.symm.trans hy) (by simp))
  rwa [Function.update_idem, ← hmk, Function.update_eq_self] at hback

end Contents

section Count

/-- One slot changes, and the number of live slots with it. -/
theorem liveCount_update (slots : Nat → Slot K V) (s : Slot K V) (hp : p < n) :
    liveCount n (Function.update slots p s) + (slots p).isLive.toNat
      = liveCount n slots + s.isLive.toNat := by
  have hothers : ∑ q ∈ (Finset.range n).erase p, (Function.update slots p s q).isLive.toNat
      = ∑ q ∈ (Finset.range n).erase p, (slots q).isLive.toNat := by
    refine Finset.sum_congr rfl fun q hq => ?_
    rw [Function.update_of_ne (Finset.ne_of_mem_erase hq)]
  have hsum : ∀ f : Nat → Slot K V, liveCount n f = ∑ q ∈ Finset.range n, (f q).isLive.toNat := by
    intro f
    rw [liveCount, Finset.card_filter]
    refine Finset.sum_congr rfl fun q _ => ?_
    cases (f q).isLive <;> rfl
  have hafter := Finset.sum_erase_add (Finset.range n)
    (fun q => (Function.update slots p s q).isLive.toNat) (Finset.mem_range.mpr hp)
  have hbefore := Finset.sum_erase_add (Finset.range n)
    (fun q => (slots q).isLive.toNat) (Finset.mem_range.mpr hp)
  rw [Function.update_self] at hafter
  rw [hsum, hsum]
  omega

theorem liveCount_gain (hp : p < n) (had : (slots p).isLive = false) :
    liveCount n (Function.update slots p (.live k x)) = liveCount n slots + 1 := by
  have h := liveCount_update slots (.live k x) hp
  rw [had] at h
  exact h

theorem liveCount_loss {s : Slot K V} (hp : p < n) (had : slots p = .live k x)
    (lost : s.isLive = false) :
    liveCount n (Function.update slots p s) + 1 = liveCount n slots := by
  have h := liveCount_update slots s hp
  rw [had, lost] at h
  exact h

theorem liveCount_keep (hp : p < n) {y : V} (had : slots p = .live k y) :
    liveCount n (Function.update slots p (.live k x)) = liveCount n slots := by
  have h := liveCount_update slots (.live k x) hp
  rw [had] at h
  exact Nat.add_right_cancel h

theorem liveCount_succ (i : Nat) :
    liveCount (i + 1) slots = liveCount i slots + (slots i).isLive.toNat := by
  rw [liveCount, Finset.range_add_one, Finset.filter_insert]
  cases h : (slots i).isLive with
  | false => simp [liveCount]
  | true =>
    rw [if_pos rfl, Finset.card_insert_of_notMem (by simp)]
    rfl

theorem liveCount_mono {i : Nat} (hi : i ≤ n) : liveCount i slots ≤ liveCount n slots :=
  Finset.card_le_card (Finset.filter_subset_filter _ (Finset.range_mono hi))

/-- A ring with no tombstone and a slot that is not live has a free slot. -/
theorem exists_free (no_dead : ∀ q < n, slots q ≠ .dead) (room : liveCount n slots < n) :
    ∃ q < n, slots q = .free := by
  by_contra hnone
  have hall : ∀ q ∈ Finset.range n, (slots q).isLive = true := by
    intro q hq
    have hq' := Finset.mem_range.mp hq
    cases hslot : slots q with
    | free => exact absurd ⟨q, hq', hslot⟩ hnone
    | dead => exact absurd hslot (no_dead q hq')
    | live _ _ => rfl
  have hcount : liveCount n slots = n := by
    rw [liveCount, Finset.filter_true_of_mem hall, Finset.card_range]
  omega

/-- As many keys in the map as live slots on the ring. -/
theorem Represents.ncard_keys (hm : Represents n slots m) (hu : Unique n slots) :
    Set.ncard {k | m k ≠ none} = liveCount n slots := by
  classical
  have hmem : ∀ q ∈ (Finset.range n).filter (fun q => (slots q).isLive),
      q < n ∧ ∃ k x, slots q = .live k x := by
    intro q hq
    obtain ⟨hrange, hlive⟩ := Finset.mem_filter.mp hq
    refine ⟨Finset.mem_range.mp hrange, ?_⟩
    cases hslot : slots q with
    | free => rw [hslot] at hlive; exact absurd hlive (by simp)
    | dead => rw [hslot] at hlive; exact absurd hlive (by simp)
    | live k x => exact ⟨k, x, rfl⟩
  rw [liveCount, ← Set.ncard_coe_finset]
  symm
  refine Set.ncard_congr (fun q hq => (hmem q hq).2.choose) ?_ ?_ ?_
  · intro q hq
    obtain ⟨hq_lt, hlive⟩ := hmem q hq
    obtain ⟨x, hx⟩ := hlive.choose_spec
    have hsome := (hm _ x).mpr ⟨q, hq_lt, hx⟩
    change m _ ≠ none
    rw [hsome]
    simp
  · intro q r hq hr hkey
    obtain ⟨x, hx⟩ := (hmem q hq).2.choose_spec
    obtain ⟨y, hy⟩ := (hmem r hr).2.choose_spec
    rw [← hkey] at hy
    exact hu q (hmem q hq).1 r (hmem r hr).1 _ x y hx hy
  · intro k hk
    obtain ⟨x, hx⟩ := Option.ne_none_iff_exists'.mp hk
    obtain ⟨q, hq_lt, hq⟩ := (hm k x).mp hx
    have hq_mem : q ∈ (Finset.range n).filter (fun q => (slots q).isLive) := by
      simp [hq_lt, hq]
    refine ⟨q, hq_mem, ?_⟩
    obtain ⟨y, hy⟩ := (hmem q hq_mem).2.choose_spec
    have hslot := hq.symm.trans hy
    injection hslot with hkey _
    exact hkey.symm

end Count

section Rebuild

/-- The live entries of the first `i` slots of `old` have been moved to the ring `slots`. -/
structure Moved (i : Nat) (old : Nat → Slot K V) (n : Nat) (home : K → Nat)
    (slots : Nat → Slot K V) : Prop where
  sound : Sound n home slots
  same : ∀ k x, Holds n slots k x ↔ Holds i old k x
  count : liveCount n slots = liveCount i old
  no_dead : ∀ q < n, slots q ≠ .dead

variable {i : Nat} {old : Nat → Slot K V}

theorem Moved.start : Moved 0 old n home (fun _ => .free) where
  sound := ⟨fun _ _ _ _ h => absurd h (by simp), fun _ _ _ _ _ _ _ h => absurd h (by simp)⟩
  same := fun k x => by simp [Holds]
  count := by simp [liveCount]
  no_dead := by simp

theorem holds_succ :
    Holds (i + 1) old k x ↔ Holds i old k x ∨ old i = .live k x := by
  constructor
  · rintro ⟨q, hq, hlive⟩
    by_cases hqi : q = i
    · exact Or.inr (hqi ▸ hlive)
    · exact Or.inl ⟨q, by omega, hlive⟩
  · rintro (⟨q, hq, hlive⟩ | hlive)
    · exact ⟨q, by omega, hlive⟩
    · exact ⟨i, by omega, hlive⟩

theorem Moved.skip (h : Moved i old n home slots) (hdead : (old i).isLive = false) :
    Moved (i + 1) old n home slots where
  sound := h.sound
  same := by
    intro k x
    rw [h.same, holds_succ]
    refine ⟨Or.inl, fun hor => hor.resolve_right fun hlive => ?_⟩
    rw [hlive] at hdead
    exact absurd hdead (by simp)
  count := by rw [h.count, liveCount_succ, hdead, Bool.toNat_false, Nat.add_zero]
  no_dead := h.no_dead

theorem Moved.place {oldn : Nat} (h : Moved i old n home slots) (hu : Unique oldn old)
    (hi : i < oldn) (hlive : old i = .live k x)
    (hf : First n (fun q => slots q = .free) (home k) p) :
    Moved (i + 1) old n home (Function.update slots p (.live k x)) := by
  have hfree : (slots p).isLive = false := by rw [hf.stops]; rfl
  -- the key is not among those moved before: old slots hold it once
  have fresh : ∀ q < n, q ≠ p → ∀ y, slots q ≠ .live k y := by
    intro q hq _ y hy
    obtain ⟨r, hr, hold⟩ := (h.same k y).mp ⟨q, hq, hy⟩
    have hri := hu r (by omega) i hi k y x hold hlive
    omega
  refine ⟨h.sound.write hf.before fresh, ?_, ?_, ?_⟩
  · intro k' y
    rw [holds_succ, ← h.same, hlive]
    constructor
    · rintro ⟨q, hq, hq_live⟩
      by_cases hqp : q = p
      · rw [hqp, Function.update_self] at hq_live
        exact Or.inr hq_live
      · rw [Function.update_of_ne hqp] at hq_live
        exact Or.inl ⟨q, hq, hq_live⟩
    · rintro (⟨q, hq, hq_live⟩ | heq)
      · have hqp : q ≠ p := by
          rintro rfl
          rw [hf.stops] at hq_live
          exact absurd hq_live (by simp)
        exact ⟨q, hq, by rwa [Function.update_of_ne hqp]⟩
      · exact ⟨p, hf.inside, by rw [Function.update_self, heq]⟩
  · rw [liveCount_gain hf.inside hfree, h.count, liveCount_succ, hlive]
    rfl
  · intro q hq
    by_cases hqp : q = p
    · rw [hqp, Function.update_self]
      simp
    · rw [Function.update_of_ne hqp]
      exact h.no_dead q hq

/-- While the entries moved are fewer than the slots, the next one finds room. -/
theorem Moved.room {oldn : Nat} (h : Moved i old n home slots) (hi : i ≤ oldn)
    (fits : liveCount oldn old < n) : ∃ q < n, slots q = .free := by
  refine exists_free h.no_dead ?_
  rw [h.count]
  exact lt_of_le_of_lt (liveCount_mono hi) fits

theorem Moved.represents (h : Moved i old n home slots) (hm : Represents i old m) :
    Represents n slots m := fun k x => (hm k x).trans (h.same k x).symm

end Rebuild

section Mend

/-- The cluster behind a freed slot `base`, mended up to distance `c`. Distances are measured
from `base`, and the ring is cut at the free slot that ends the cluster, `l` steps on. Entries
outside the part still to mend are where a search finds them; the searches of the others may
have lost slots, but only between `base` and the place reached. -/
structure Mending (n : Nat) (home : K → Nat) (slots : Nat → Slot K V) (base c l : Nat) :
    Prop where
  inside : base < n
  order : c ≤ l
  short : l < n
  ends : slots ((base + l) % n) = .free
  ahead : ∀ q < n, c ≤ dist n base q → dist n base q < l → slots q ≠ .free
  settled : ∀ q < n, dist n base q < c ∨ l ≤ dist n base q → ∀ k x, slots q = .live k x →
    NoFree n slots (home k) q
  pending : ∀ q < n, c ≤ dist n base q → dist n base q < l → ∀ k x, slots q = .live k x →
    ∀ r < n, dist n (home k) r < dist n (home k) q → slots r = .free → dist n base r < c
  unique : Unique n slots

variable {base c l : Nat}

/-- A path that passes `a` and ends beyond a slot `e` ahead of it passes `e` too. -/
theorem on_path {h a e q : Nat} (hh : h < n) (ha : a < n) (he : e < n) (hq : q < n)
    (pass : dist n h a < dist n h q) (between : dist n a e < dist n a q) :
    dist n h e < dist n h q := by
  unfold dist at *
  split_ifs at * <;> omega

theorem Mending.start (hs : Sound n home slots) (hhome : ∀ k, home k < n) (hbase : base < n)
    (hlive : slots base = .live k x) (room : ∃ q < n, slots q = .free) :
    ∃ l, Mending n home (Function.update slots base .free) base 1 l := by
  obtain ⟨e, he⟩ := exists_first _ hbase room
  have hne : e ≠ base := by
    rintro rfl
    exact absurd (hlive.symm.trans he.stops) (by simp)
  have hpos : dist n base e ≠ 0 := fun h0 =>
    hne (dist_inj hbase he.inside hbase (h0.trans dist_self.symm))
  have off : ∀ q, 1 ≤ dist n base q → q ≠ base := by
    rintro q hq rfl
    rw [dist_self] at hq
    omega
  refine ⟨dist n base e, ⟨hbase, by omega, dist_lt hbase he.inside, ?_, ?_, ?_, ?_, ?_⟩⟩
  · rw [at_dist hbase he.inside, Function.update_of_ne hne]
    exact he.stops
  · intro q hq hge hlt
    rw [Function.update_of_ne (off q hge)]
    exact he.before q hq hlt
  · intro q hq hout k' y hq_live
    have hqb : q ≠ base := by
      rintro rfl
      rw [Function.update_self] at hq_live
      exact absurd hq_live (by simp)
    have hqd : dist n base q ≠ 0 := fun h0 =>
      hqb (dist_inj hbase hq hbase (h0.trans dist_self.symm))
    rw [Function.update_of_ne hqb] at hq_live
    have hqe : q ≠ e := by
      rintro rfl
      rw [he.stops] at hq_live
      exact absurd hq_live (by simp)
    have hlt : dist n base e < dist n base q :=
      lt_of_le_of_ne (by omega) fun h0 => hqe (dist_inj hbase hq he.inside h0.symm)
    have hpath := hs.reach q hq k' y hq_live
    -- a search that passed the freed slot would have passed the end of the cluster
    intro r hr hrq hfree
    by_cases hrb : r = base
    · rw [hrb] at hrq
      exact hpath e he.inside (on_path (hhome k') hbase he.inside hq hrq hlt) he.stops
    · rw [Function.update_of_ne hrb] at hfree
      exact hpath r hr hrq hfree
  · intro q hq hge _ k' y hq_live r hr hrq hfree
    rw [Function.update_of_ne (off q hge)] at hq_live
    by_cases hrb : r = base
    · rw [hrb, dist_self]
      exact Nat.one_pos
    · rw [Function.update_of_ne hrb] at hfree
      exact absurd hfree (hs.reach q hq k' y hq_live r hr hrq)
  · exact hs.unique.erase rfl

/-- The entry to put back finds a free slot no further than where it was. -/
theorem Mending.landing {a : Nat} (h : Mending n home slots base c l) (hh : home k < n)
    (hc : c < l) (ha : a < n) (ha_dist : dist n base a = c) (hlive : slots a = .live k x)
    (hf : First n (fun q => Function.update slots a .free q = .free) (home k) p) :
    dist n base p ≤ c := by
  by_cases hpa : p = a
  · rw [hpa, ha_dist]
  · have hbefore : dist n (home k) p < dist n (home k) a := by
      by_contra hge
      refine hf.before a ha (lt_of_le_of_ne (by omega) fun heq => hpa ?_) ?_
      · exact (dist_inj hh ha hf.inside heq).symm
      · exact Function.update_self a _ slots
    have hfree := hf.stops
    rw [Function.update_of_ne hpa] at hfree
    have hlt := h.pending a ha (by omega) (by omega) k x hlive p hf.inside hbefore hfree
    omega

/-- Slots outside the part to mend are reached from it only across the end of the cluster. -/
theorem dist_across {a e q : Nat} (hbase : base < n) (ha : a < n) (he : e < n) (hq : q < n)
    (ahead : dist n base a < dist n base e)
    (out : dist n base q < dist n base a ∨ dist n base e < dist n base q) :
    dist n a e < dist n a q := by
  unfold dist at *
  split_ifs at * <;> omega

/-- One turn of the mending loop: the entry reached is taken out and put back at the first free
slot of its search. -/
theorem Mending.step (h : Mending n home slots base c l) (hhome : ∀ k, home k < n) (hc : c < l)
    (hlive : slots ((base + c) % n) = .live k x)
    (hf : First n (fun q => Function.update slots ((base + c) % n) .free q = .free) (home k) p) :
    Mending n home
      (Function.update (Function.update slots ((base + c) % n) .free) p (.live k x))
      base (c + 1) l := by
  have hn := h.short
  have ha : (base + c) % n < n := Nat.mod_lt _ (by omega)
  have ha_dist : dist n base ((base + c) % n) = c := dist_at h.inside (by omega)
  have he : (base + l) % n < n := Nat.mod_lt _ (by omega)
  have he_dist : dist n base ((base + l) % n) = l := dist_at h.inside hn
  have he_free := h.ends
  have hp_dist := h.landing (hhome k) hc ha ha_dist hlive hf
  generalize (base + c) % n = a at *
  generalize he_def : (base + l) % n = e at *
  set mid := Function.update slots a (Slot.free : Slot K V) with hmid
  have off : ∀ q, q ≠ a → q ≠ p → Function.update mid p (.live k x) q = slots q := by
    intro q hqa hqp
    rw [Function.update_of_ne hqp, hmid, Function.update_of_ne hqa]
  have far : ∀ q, c < dist n base q → Function.update mid p (.live k x) q = slots q := by
    intro q hq
    refine off q ?_ ?_ <;> rintro rfl <;> omega
  have new_free : ∀ q, Function.update mid p (.live k x) q = .free → q = a ∨ slots q = .free := by
    intro q hfree
    by_cases hqp : q = p
    · rw [hqp, Function.update_self] at hfree
      exact absurd hfree (by simp)
    · by_cases hqa : q = a
      · exact Or.inl hqa
      · exact Or.inr (by rwa [off q hqa hqp] at hfree)
  refine ⟨h.inside, hc, hn, ?_, ?_, ?_, ?_, ?_⟩
  · rw [he_def, far e (by omega)]
    exact he_free
  · intro q hq hge hlt
    rw [far q (by omega)]
    exact h.ahead q hq (by omega) hlt
  · intro q hq hout k' y hq_live r hr hrq hfree
    by_cases hqp : q = p
    · rw [hqp, Function.update_self] at hq_live
      injection hq_live with hk _
      rw [hqp, ← hk] at hrq
      have hrp : r ≠ p := by
        rintro rfl
        omega
      rw [Function.update_of_ne hrp] at hfree
      exact hf.before r hr hrq hfree
    · have hqa : q ≠ a := by
        rintro rfl
        rw [Function.update_of_ne hqp, hmid, Function.update_self] at hq_live
        exact absurd hq_live (by simp)
      rw [off q hqa hqp] at hq_live
      have hqc : dist n base q ≠ c := fun heq =>
        hqa (dist_inj h.inside hq ha (heq.trans ha_dist.symm))
      have hql : dist n base q ≠ l := fun heq => by
        rw [dist_inj h.inside hq he (heq.trans he_dist.symm), he_free] at hq_live
        exact absurd hq_live (by simp)
      have hpath := h.settled q hq (by omega) k' y hq_live
      rcases new_free r hfree with hra | hr_free
      · -- a search through the slot just freed would have passed the end of the cluster
        rw [hra] at hrq
        have hcross := dist_across h.inside ha he hq (by omega) (by omega)
        exact hpath e he (on_path (hhome k') ha he hq hrq hcross) he_free
      · exact hpath r hr hrq hr_free
  · intro q hq hge hlt k' y hq_live r hr hrq hfree
    rw [far q (by omega)] at hq_live
    rcases new_free r hfree with hra | hr_free
    · rw [hra, ha_dist]
      exact Nat.lt_succ_self c
    · have hlt' := h.pending q hq (by omega) hlt k' y hq_live r hr hrq hr_free
      omega
  · refine (h.unique.erase rfl).write fun q hq _ y hy => ?_
    by_cases hqa : q = a
    · rw [hqa, Function.update_self] at hy
      exact absurd hy (by simp)
    · rw [Function.update_of_ne hqa] at hy
      exact hqa (h.unique q hq a ha k y x hy hlive)

theorem Mending.finish (h : Mending n home slots base l l) : Sound n home slots where
  reach := fun q hq k x hlive => h.settled q hq (by omega) k x hlive
  unique := h.unique

end Mend

end Probing
