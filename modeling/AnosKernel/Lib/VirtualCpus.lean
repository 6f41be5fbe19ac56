import AnosKernel.Lib.Runs
import Mathlib.Logic.Function.Basic

/-!
# One processor for many tasks

Abstractly every task has a processor of its own: the tasks take turns, and the turn of one leaves
the contexts of the others alone. A machine that has one processor and keeps the contexts of the
tasks that wait somewhere is a multiplexer if its turns save and restore them. Each of its runs is
then a run of the abstract machine.

`B` is what a turn may depend on besides the task, and `worn` is what the turn itself does to the
context of the task that gives the processor up.
-/

namespace VirtualCpus

open Runs

universe u v w x

structure Virtual (T : Type u) (Ctx : Type v) where
  context : T → Ctx
  current : Option T
  known : T → Prop

variable {T : Type u} {Ctx : Type v} {B : Type w} [DecidableEq T]

inductive Act (T : Type u) (Ctx : Type v) (B : Type w)
  | work (c : Ctx)
  | create (t : T) (c : Ctx)
  | switch (t : T) (b : B)
  | exit

/-- The contexts after a change of that of the task that runs. -/
def Virtual.renew (v : Virtual T Ctx) (f : T → Ctx → Ctx) : T → Ctx :=
  match v.current with
  | none => v.context
  | some t => Function.update v.context t (f t (v.context t))

/-- The task that runs changes its own context. -/
def Virtual.work (v : Virtual T Ctx) (c : Ctx) : Virtual T Ctx :=
  { v with context := v.renew fun _ _ => c }

def Virtual.create (v : Virtual T Ctx) (t : T) (c : Ctx) : Virtual T Ctx where
  context := Function.update v.context t c
  current := v.current
  known := Function.update v.known t True

def Virtual.switch (worn : T → B → Ctx → Ctx) (v : Virtual T Ctx) (t : T) (b : B) :
    Virtual T Ctx where
  context := v.renew fun u => worn u b
  current := some t
  known := v.known

/-- The task that runs is gone. -/
def Virtual.exit (v : Virtual T Ctx) : Virtual T Ctx where
  context := v.context
  current := none
  known t := v.known t ∧ v.current ≠ some t

/-- The abstract machine. Only a task that is known gets a turn, and only one that is not is
created. -/
def virtual (worn : T → B → Ctx → Ctx) : System (Virtual T Ctx) (Act T Ctx B) where
  init v := v.current = none ∧ ∀ t, ¬ v.known t
  step v a v' :=
    match a with
    | .work c => v' = v.work c
    | .create t c => ¬ v.known t ∧ v' = v.create t c
    | .switch t b => v.known t ∧ v' = v.switch worn t b
    | .exit => v' = v.exit

/-- A machine with one processor: its context, where it keeps those of the others, and what its
steps have to do to them. -/
structure Multiplexer (S : Type x) (T : Type u) (Ctx : Type v) (B : Type w) where
  current : S → Option T
  known : S → T → Prop
  live : S → Ctx
  saved : S → T → Ctx → Prop

variable {S : Type x} (M : Multiplexer S T Ctx B)

/-- The tasks that wait keep their contexts, but for the one task. -/
def Multiplexer.Keeps (s s' : S) (except : T → Prop) : Prop :=
  ∀ t c, M.known s t → M.current s ≠ some t → ¬ except t → M.saved s t c → M.saved s' t c

structure Multiplexer.Works (s s' : S) : Prop where
  current : M.current s' = M.current s
  known : ∀ t, M.known s' t ↔ M.known s t
  keeps : M.Keeps s s' fun _ => False

structure Multiplexer.Creates (t : T) (c : Ctx) (s s' : S) : Prop where
  fresh : ¬ M.known s t
  current : M.current s' = M.current s
  known : ∀ u, M.known s' u ↔ u = t ∨ M.known s u
  saved : M.saved s' t c
  keeps : M.Keeps s s' fun u => u = t

structure Multiplexer.Switches (worn : T → B → Ctx → Ctx) (t : T) (b : B) (s s' : S) : Prop where
  target : M.known s t
  current : M.current s' = some t
  known : ∀ u, M.known s' u ↔ M.known s u
  restores : M.current s ≠ some t → ∀ c, M.saved s t c → M.live s' = c
  stays : M.current s = some t → M.live s' = worn t b (M.live s)
  saves : ∀ u, M.current s = some u → u ≠ t → M.saved s' u (worn u b (M.live s))
  keeps : M.Keeps s s' fun u => u = t

structure Multiplexer.Exits (s s' : S) : Prop where
  current : M.current s' = none
  known : ∀ t, M.known s' t ↔ M.known s t ∧ M.current s ≠ some t
  keeps : M.Keeps s s' fun _ => False

/-- Every step is one of the four. -/
def Multiplexer.Proper (worn : T → B → Ctx → Ctx) (s s' : S) : Prop :=
  M.Works s s' ∨ (∃ t c, M.Creates t c s s') ∨ (∃ t b, M.Switches worn t b s s') ∨ M.Exits s s'

/-- The processor has the context of the task that runs, and the others' contexts are kept. -/
structure Multiplexer.Represents (s : S) (v : Virtual T Ctx) : Prop where
  current : M.current s = v.current
  known : ∀ t, M.known s t ↔ v.known t
  running : ∀ t, v.current = some t → v.known t ∧ M.live s = v.context t
  waiting : ∀ t, v.known t → v.current ≠ some t → M.saved s t (v.context t)

/-- What a machine does before it takes up a task: the one that runs is saved, if there is one. -/
structure Multiplexer.Saves (worn : T → B → Ctx → Ctx) (b : B) (s s' : S) : Prop where
  known : ∀ u, M.known s' u ↔ M.known s u
  saved : ∀ u, M.current s = some u → M.saved s' u (worn u b (M.live s))
  keeps : ∀ u c, M.current s ≠ some u → M.saved s u c → M.saved s' u c

structure Multiplexer.Restores (restore : S → T → S) : Prop where
  current : ∀ s t, M.current (restore s t) = some t
  known : ∀ s t u, M.known (restore s t) u ↔ M.known s u
  live : ∀ s t c, M.saved s t c → M.live (restore s t) = c
  keeps : ∀ s t u c, M.saved s u c → M.saved (restore s t) u c

variable {M} {worn : T → B → Ctx → Ctx} {s s' : S} {v : Virtual T Ctx}

omit [DecidableEq T] in
/-- A switch saves and then restores. -/
theorem Multiplexer.Restores.switches {restore : S → T → S} (h : M.Restores restore) {t : T}
    {b : B} (target : M.known s t) (saves : M.Saves worn b s s') :
    M.Switches worn t b s (restore s' t) where
  target := target
  current := h.current s' t
  known u := (h.known s' t u).trans (saves.known u)
  restores hne c hc := h.live s' t c (saves.keeps t c hne hc)
  stays hcur := h.live s' t _ (saves.saved t hcur)
  saves u hcur _ := h.keeps s' t u _ (saves.saved u hcur)
  keeps u c _ hne _ hc := h.keeps s' t u c (saves.keeps u c hne hc)

theorem renew_current {f : T → Ctx → Ctx} {t : T} (h : v.current = some t) :
    v.renew f t = f t (v.context t) := by
  simp only [Virtual.renew, h, Function.update_self]

theorem renew_other {f : T → Ctx → Ctx} {t : T} (h : v.current ≠ some t) :
    v.renew f t = v.context t := by
  unfold Virtual.renew
  cases hcur : v.current with
  | none => rfl
  | some u =>
    have htu : t ≠ u := by
      rintro rfl
      exact h hcur
    exact Function.update_of_ne htu _ _

theorem work_current {c : Ctx} {t : T} (h : v.current = some t) : (v.work c).context t = c :=
  renew_current (f := fun _ _ => c) h

theorem work_other {c : Ctx} {t : T} (h : v.current ≠ some t) :
    (v.work c).context t = v.context t := renew_other (f := fun _ _ => c) h

theorem Multiplexer.Represents.work (h : M.Represents s v) (works : M.Works s s') :
    M.Represents s' (v.work (M.live s')) := by
  have hkeep : ∀ t, v.known t → v.current ≠ some t → M.saved s' t (v.context t) := by
    intro t ht hne
    apply works.keeps t _ ((h.known t).mpr ht) _ id (h.waiting t ht hne)
    rw [h.current]
    exact hne
  refine ⟨works.current.trans h.current, fun t => (works.known t).trans (h.known t), ?_, ?_⟩
  · exact fun t ht => ⟨(h.running t ht).1, (work_current (v := v) ht).symm⟩
  · intro t ht hne
    rw [work_other (v := v) hne]
    exact hkeep t ht hne

/-- The task that runs does work while it creates another. -/
theorem Multiplexer.Represents.create (h : M.Represents s v) {t : T} {c : Ctx}
    (creates : M.Creates t c s s') : M.Represents s' ((v.create t c).work (M.live s')) := by
  have hfresh : ¬ v.known t := fun ht => creates.fresh ((h.known t).mpr ht)
  have hknown : ∀ u, (v.create t c).known u ↔ u = t ∨ v.known u := by
    intro u
    unfold Virtual.create
    by_cases hu : u = t
    · subst hu
      simp
    · simp [hu]
  refine ⟨creates.current.trans h.current, fun u => ?_, fun u hu => ?_, fun u hu hne => ?_⟩
  · exact (creates.known u).trans ((or_congr Iff.rfl (h.known u)).trans (hknown u).symm)
  · exact ⟨(hknown u).mpr (.inr (h.running u hu).1),
      (work_current (v := v.create t c) hu).symm⟩
  · rw [work_other (v := v.create t c) hne]
    by_cases hut : u = t
    · subst hut
      have hself : (v.create u c).context u = c := Function.update_self _ _ _
      rw [hself]
      exact creates.saved
    · have hu' : v.known u := ((hknown u).mp hu).resolve_left hut
      have hother : (v.create t c).context u = v.context u := Function.update_of_ne hut _ _
      rw [hother]
      apply creates.keeps u _ ((h.known u).mpr hu') _ hut (h.waiting u hu' hne)
      rw [h.current]
      exact hne

theorem Multiplexer.Represents.switch (h : M.Represents s v) {t : T} {b : B}
    (switches : M.Switches worn t b s s') : M.Represents s' (v.switch worn t b) := by
  have hother : ∀ u, v.current ≠ some u → (v.switch worn t b).context u = v.context u :=
    fun u hu => renew_other hu
  have hself : ∀ u, v.current = some u →
      (v.switch worn t b).context u = worn u b (v.context u) := fun u hu => renew_current hu
  refine ⟨switches.current, fun u => (switches.known u).trans (h.known u), ?_, ?_⟩
  · rintro u hu
    have hut : t = u := Option.some.inj hu
    subst hut
    refine ⟨(h.known t).mp switches.target, ?_⟩
    by_cases hcur : v.current = some t
    · rw [switches.stays (h.current.trans hcur), hself t hcur, (h.running t hcur).2]
    · rw [hother t hcur]
      apply switches.restores
      · rw [h.current]
        exact hcur
      · exact h.waiting t ((h.known t).mp switches.target) hcur
  · intro u hu hne
    have hut : u ≠ t := by
      rintro rfl
      exact hne rfl
    by_cases hcur : v.current = some u
    · rw [hself u hcur, ← (h.running u hcur).2]
      exact switches.saves u (h.current.trans hcur) hut
    · rw [hother u hcur]
      apply switches.keeps u _ ((h.known u).mpr hu) _ hut (h.waiting u hu hcur)
      rw [h.current]
      exact hcur

omit [DecidableEq T] in
theorem Multiplexer.Represents.exit (h : M.Represents s v) (exits : M.Exits s s') :
    M.Represents s' v.exit := by
  refine ⟨exits.current, fun t => ?_, fun t ht => ?_, fun t ht _ => ?_⟩
  · rw [exits.known, h.known, h.current]
    exact Iff.rfl
  · cases ht
  · apply exits.keeps t _ ((h.known t).mpr ht.1) _ id (h.waiting t ht.1 ht.2)
    rw [h.current]
    exact ht.2

/-- The runs of a multiplexer are runs of the abstract machine, seen through its one processor. -/
theorem Multiplexer.refines {A : Type*} {N : System S A}
    (start : ∀ s, N.init s → M.current s = none ∧ ∀ t, ¬ M.known s t)
    (proper : ∀ s a s', Reachable N s → N.step s a s' → M.Proper worn s s') (c : Ctx)
    (h : Reachable N s) : ∃ v, Reachable (virtual worn) v ∧ M.Represents s v := by
  induction h with
  | @start s hs =>
    obtain ⟨hcur, hknown⟩ := start s hs
    refine ⟨⟨fun _ => c, none, fun _ => False⟩, .start ⟨rfl, fun _ => id⟩, hcur, fun t => ?_,
      fun t ht => ?_, fun t ht => ht.elim⟩
    · exact ⟨fun ht => hknown t ht, False.elim⟩
    · cases ht
  | next hs hstep ih =>
    obtain ⟨v, hreach, hrep⟩ := ih
    rcases proper _ _ _ hs hstep with hworks | ⟨t, c, hcreates⟩ | ⟨t, b, hswitches⟩ | hexits
    · exact ⟨_, .next (a := .work _) hreach rfl, hrep.work hworks⟩
    · have hfresh : ¬ v.known t := fun ht => hcreates.fresh ((hrep.known t).mpr ht)
      have hcreated : Reachable (virtual worn) (v.create t c) :=
        .next (a := .create t c) hreach ⟨hfresh, rfl⟩
      exact ⟨_, .next (a := .work _) hcreated rfl, hrep.create hcreates⟩
    · exact ⟨_, .next (a := .switch t b) hreach ⟨(hrep.known t).mp hswitches.target, rfl⟩,
        hrep.switch hswitches⟩
    · exact ⟨_, .next (a := .exit) hreach rfl, hrep.exit hexits⟩

end VirtualCpus
