import Mathlib.Algebra.Order.Ring.Nat
import Mathlib.Data.List.Basic
import Mathlib.Data.List.Pairwise

/-!
# Spaced spans

A span is a stretch of numbers, given by its start and its size. A list of spans is spaced when no
span is empty and there is a gap between each span and the ones behind it. A span is taken out or
cut off at its start, and a new span is put between two others and joined with those it touches.
-/

namespace Spans

structure Span where
  start : Nat
  size : Nat
  deriving DecidableEq, Repr

def Span.stop (s : Span) : Nat := s.start + s.size

def Span.Has (s : Span) (n : Nat) : Prop := s.start ≤ n ∧ n < s.stop

def Covers (spans : List Span) (n : Nat) : Prop := ∃ s ∈ spans, s.Has n

structure Spaced (spans : List Span) : Prop where
  nonempty : ∀ s ∈ spans, 0 < s.size
  apart : spans.Pairwise fun s t => s.stop < t.start

/-- No span that is large enough is smaller, or as small and further down. -/
structure BestFit (spans : List Span) (size : Nat) (s : Span) : Prop where
  listed : s ∈ spans
  fits : size ≤ s.size
  best : ∀ t ∈ spans, size ≤ t.size → s.size < t.size ∨ (s.size = t.size ∧ s.start ≤ t.start)

variable {before after spans : List Span} {s t p q m : Span} {n k size : Nat}

/-! ## What a list covers -/

theorem covers_insert :
    Covers (before ++ s :: after) n ↔ s.Has n ∨ Covers (before ++ after) n := by
  constructor
  · rintro ⟨t, ht, hn⟩
    rcases List.mem_append.mp ht with hb | hsa
    · exact Or.inr ⟨t, List.mem_append_left _ hb, hn⟩
    · rcases List.mem_cons.mp hsa with rfl | ha
      · exact Or.inl hn
      · exact Or.inr ⟨t, List.mem_append_right _ ha, hn⟩
  · rintro (hn | ⟨t, ht, hn⟩)
    · exact ⟨s, by simp, hn⟩
    · refine ⟨t, ?_, hn⟩
      rcases List.mem_append.mp ht with hb | ha
      · exact List.mem_append_left _ hb
      · exact List.mem_append_right _ (List.mem_cons_of_mem _ ha)

/-- Two spans that touch cover what they cover as one. -/
theorem has_join (touch : p.stop = m.start) :
    Span.Has ⟨p.start, p.size + m.size⟩ n ↔ p.Has n ∨ m.Has n := by
  simp only [Span.Has, Span.stop] at touch ⊢
  omega

theorem covers_join (touch : p.stop = m.start) :
    Covers (before ++ ⟨p.start, p.size + m.size⟩ :: after) n ↔
      Covers (before ++ p :: m :: after) n := by
  rw [covers_insert, has_join touch, covers_insert, covers_insert, or_assoc]

theorem has_cut (inside : k ≤ s.size) :
    Span.Has ⟨s.start + k, s.size - k⟩ n ↔ s.Has n ∧ ¬ Span.Has ⟨s.start, k⟩ n := by
  simp only [Span.Has, Span.stop]
  omega

/-! ## Taking spans out -/

theorem spaced_singleton (nonempty : 0 < s.size) : Spaced [s] :=
  ⟨fun _ ht => List.mem_singleton.mp ht ▸ nonempty, List.pairwise_singleton _ _⟩

theorem Spaced.sublist {part : List Span} (h : Spaced spans) (sub : part.Sublist spans) :
    Spaced part :=
  ⟨fun s hs => h.nonempty s (sub.subset hs), h.apart.sublist sub⟩

theorem Spaced.remove (h : Spaced (before ++ s :: after)) : Spaced (before ++ after) :=
  h.sublist ((List.sublist_cons_self s after).append_left before)

theorem Spaced.stop_lt_of_before (h : Spaced (before ++ s :: after)) (ht : t ∈ before) :
    t.stop < s.start :=
  (List.pairwise_append.mp h.apart).2.2 t ht s List.mem_cons_self

theorem Spaced.stop_lt_of_after (h : Spaced (before ++ s :: after)) (ht : t ∈ after) :
    s.stop < t.start :=
  (List.pairwise_cons.mp (List.pairwise_append.mp h.apart).2.1).1 t ht

/-- A number is in one span only. -/
theorem Spaced.has_alone (h : Spaced (before ++ s :: after)) (hs : s.Has n) :
    ¬ Covers (before ++ after) n := by
  rintro ⟨t, ht, hn⟩
  obtain ⟨hstart, hstop⟩ := hs
  obtain ⟨hstart', hstop'⟩ := hn
  rcases List.mem_append.mp ht with hb | ha
  · have := h.stop_lt_of_before hb
    omega
  · have := h.stop_lt_of_after ha
    omega

theorem Spaced.covers_remove (h : Spaced (before ++ s :: after)) :
    Covers (before ++ after) n ↔ Covers (before ++ s :: after) n ∧ ¬ s.Has n := by
  rw [covers_insert]
  constructor
  · intro hn
    exact ⟨Or.inr hn, fun hs => h.has_alone hs hn⟩
  · rintro ⟨hs | hn, hout⟩
    · exact absurd hs hout
    · exact hn

/-- Cutting off the start of a span leaves the gaps as wide at least. -/
theorem Spaced.cut (h : Spaced (before ++ s :: after)) (inside : k < s.size) :
    Spaced (before ++ ⟨s.start + k, s.size - k⟩ :: after) := by
  have hrest := h.remove
  obtain ⟨hb, ha, hba⟩ := List.pairwise_append.mp hrest.apart
  constructor
  · intro t ht
    rcases List.mem_append.mp ht with htb | hta
    · exact hrest.nonempty t (List.mem_append_left _ htb)
    · rcases List.mem_cons.mp hta with rfl | hta
      · exact Nat.sub_pos_of_lt inside
      · exact hrest.nonempty t (List.mem_append_right _ hta)
  · refine List.pairwise_append.mpr ⟨hb, List.pairwise_cons.mpr ⟨?_, ha⟩, ?_⟩
    · intro t hta
      have hgap := h.stop_lt_of_after hta
      simp only [Span.stop] at hgap ⊢
      omega
    · intro t htb u hu
      rcases List.mem_cons.mp hu with rfl | hu
      · have hgap := h.stop_lt_of_before htb
        exact Nat.lt_add_right k hgap
      · exact hba t htb u hu

theorem Spaced.covers_cut (h : Spaced (before ++ s :: after)) (inside : k ≤ s.size) :
    Covers (before ++ ⟨s.start + k, s.size - k⟩ :: after) n ↔
      Covers (before ++ s :: after) n ∧ ¬ Span.Has ⟨s.start, k⟩ n := by
  rw [covers_insert, covers_insert, has_cut inside]
  constructor
  · rintro (⟨hs, hout⟩ | hn)
    · exact ⟨Or.inl hs, hout⟩
    · refine ⟨Or.inr hn, fun hk => h.has_alone ?_ hn⟩
      simp only [Span.Has, Span.stop] at hk ⊢
      omega
  · rintro ⟨hs | hn, hout⟩
    · exact Or.inl ⟨hs, hout⟩
    · exact Or.inr hn

/-! ## Putting a span in -/

/-- The span has its place between two parts of a list and may touch both. -/
structure Placed (before : List Span) (m : Span) (after : List Span) : Prop where
  spaced : Spaced (before ++ after)
  nonempty : 0 < m.size
  behind : ∀ s ∈ before, s.stop ≤ m.start
  ahead : ∀ t ∈ after, m.stop ≤ t.start

/-- The place of a span that shares nothing with the list is told by the starts. -/
theorem Spaced.placed (h : Spaced (before ++ after)) (nonempty : 0 < m.size)
    (lower : ∀ s ∈ before, s.start < m.start) (upper : ∀ t ∈ after, m.start ≤ t.start)
    (unshared : ∀ s ∈ before ++ after, ¬ (s.start < m.stop ∧ m.start < s.stop)) :
    Placed before m after := by
  refine ⟨h, nonempty, ?_, ?_⟩
  · intro s hs
    have hlower := lower s hs
    have hshare := unshared s (List.mem_append_left _ hs)
    have hstop : m.stop = m.start + m.size := rfl
    omega
  · intro t ht
    have hupper := upper t ht
    have hshare := unshared t (List.mem_append_right _ ht)
    have hsize := h.nonempty t (List.mem_append_right _ ht)
    have hstop : t.stop = t.start + t.size := rfl
    omega

/-- A span that touches neither neighbour is put in as it is. -/
theorem Placed.insert (h : Placed before m after)
    (gap_before : ∀ p ∈ before.getLast?, p.stop ≠ m.start)
    (gap_after : ∀ q ∈ after.head?, m.stop ≠ q.start) : Spaced (before ++ m :: after) := by
  obtain ⟨hb, ha, hba⟩ := List.pairwise_append.mp h.spaced.apart
  have hbefore : ∀ s ∈ before, s.stop < m.start := by
    rcases List.eq_nil_or_concat' before with rfl | ⟨others, p, rfl⟩
    · exact fun _ hs => absurd hs List.not_mem_nil
    · have hp : p.stop < m.start :=
        Nat.lt_of_le_of_ne (h.behind p (by simp)) (gap_before p (by simp))
      intro s hs
      rcases List.mem_append.mp hs with hs | hs
      · have hgap := (List.pairwise_append.mp hb).2.2 s hs p (by simp)
        have hstop : p.stop = p.start + p.size := rfl
        omega
      · rw [List.mem_singleton.mp hs]
        exact hp
  have hafter : ∀ t ∈ after, m.stop < t.start := by
    cases after with
    | nil => exact fun _ ht => absurd ht List.not_mem_nil
    | cons q others =>
      have hq : m.stop < q.start :=
        Nat.lt_of_le_of_ne (h.ahead q List.mem_cons_self) (gap_after q (by simp))
      intro t ht
      rcases List.mem_cons.mp ht with rfl | ht
      · exact hq
      · have hgap := (List.pairwise_cons.mp ha).1 t ht
        have hstop : q.stop = q.start + q.size := rfl
        omega
  constructor
  · intro t ht
    rcases List.mem_append.mp ht with htb | hta
    · exact h.spaced.nonempty t (List.mem_append_left _ htb)
    · rcases List.mem_cons.mp hta with rfl | hta
      · exact h.nonempty
      · exact h.spaced.nonempty t (List.mem_append_right _ hta)
  · refine List.pairwise_append.mpr ⟨hb, List.pairwise_cons.mpr ⟨hafter, ha⟩, ?_⟩
    intro s hs u hu
    rcases List.mem_cons.mp hu with rfl | hu
    · exact hbefore s hs
    · exact hba s hs u hu

/-- A span is joined with the one that ends where it starts. -/
theorem Placed.joinBefore (h : Placed (before ++ [p]) m after) (touch : p.stop = m.start) :
    Placed before ⟨p.start, p.size + m.size⟩ after ∧
      ∀ s ∈ before.getLast?, s.stop ≠ p.start := by
  have hspaced : Spaced (before ++ p :: after) := by
    have := h.spaced
    rwa [List.append_assoc, List.singleton_append] at this
  have hstop : Span.stop ⟨p.start, p.size + m.size⟩ = m.stop := by
    simp only [Span.stop] at touch ⊢
    omega
  refine ⟨⟨hspaced.remove, ?_, ?_, ?_⟩, ?_⟩
  · exact Nat.add_pos_right _ h.nonempty
  · intro s hs
    exact Nat.le_of_lt (hspaced.stop_lt_of_before hs)
  · intro t ht
    rw [hstop]
    exact h.ahead t ht
  · intro s hs
    exact Nat.ne_of_lt (hspaced.stop_lt_of_before (List.mem_of_getLast? hs))

/-- A span is joined with the one that starts where it ends. -/
theorem Placed.joinAfter (h : Placed before m (q :: after)) (touch : m.stop = q.start) :
    Placed before ⟨m.start, m.size + q.size⟩ after ∧
      ∀ t ∈ after.head?, Span.stop ⟨m.start, m.size + q.size⟩ ≠ t.start := by
  have hstop : Span.stop ⟨m.start, m.size + q.size⟩ = q.stop := by
    simp only [Span.stop] at touch ⊢
    omega
  refine ⟨⟨h.spaced.remove, ?_, h.behind, ?_⟩, ?_⟩
  · exact Nat.add_pos_left h.nonempty _
  · intro t ht
    rw [hstop]
    exact Nat.le_of_lt (h.spaced.stop_lt_of_after ht)
  · intro t ht
    rw [hstop]
    exact Nat.ne_of_lt (h.spaced.stop_lt_of_after (List.mem_of_mem_head? ht))

/-! ## The best fit -/

/-- In order, the best fit is the first of the smallest. -/
theorem Spaced.bestFit (h : Spaced (before ++ s :: after)) (fits : size ≤ s.size)
    (below : ∀ t ∈ before, size ≤ t.size → s.size < t.size)
    (above : ∀ t ∈ after, size ≤ t.size → s.size ≤ t.size) :
    BestFit (before ++ s :: after) size s := by
  refine ⟨by simp, fits, ?_⟩
  intro t ht hfits
  rcases List.mem_append.mp ht with hb | hsa
  · exact Or.inl (below t hb hfits)
  · rcases List.mem_cons.mp hsa with rfl | ha
    · exact Or.inr ⟨rfl, Nat.le_refl _⟩
    · have hstart : s.start ≤ t.start :=
        Nat.le_trans (Nat.le_add_right _ _) (Nat.le_of_lt (h.stop_lt_of_after ha))
      rcases Nat.lt_or_eq_of_le (above t ha hfits) with hlt | heq
      · exact Or.inl hlt
      · exact Or.inr ⟨heq, hstart⟩

theorem BestFit.start_eq (hs : BestFit spans size s) (ht : BestFit spans size t) :
    s.start = t.start := by
  have hst := hs.best t ht.listed ht.fits
  have hts := ht.best s hs.listed hs.fits
  omega

end Spans
