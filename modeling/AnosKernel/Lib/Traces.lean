import Mathlib.Data.List.Basic

/-!
# Computations with a trace

A computation leaves a list of events, and then a value or the reason why it ended without one.
`Meets` is what holds of the events so far at its end, in either case; its rules follow the
structure of the computation. `Stable` compares a computation with one that has more fuel.
-/

namespace Traces

universe u v w

structure Trace (E : Type u) (R : Type v) (α : Type w) where
  events : List E
  result : Except R α

variable {E : Type u} {R : Type v} {α β : Type w}

def done (a : α) : Trace E R α := ⟨[], .ok a⟩

def fail (reason : R) : Trace E R α := ⟨[], .error reason⟩

def log (event : E) (t : Trace E R α) : Trace E R α := ⟨event :: t.events, t.result⟩

/-- One computation after another, if there is a value to go on with. -/
def Trace.bind (t : Trace E R α) (f : α → Trace E R β) : Trace E R β :=
  match t.result with
  | .ok a => ⟨t.events ++ (f a).events, (f a).result⟩
  | .error reason => ⟨t.events, .error reason⟩

/-- A value, if there is one. -/
def ofOption (reason : R) : Option α → Trace E R α
  | some a => done a
  | none => fail reason

section Rules

variable {t t' : Trace E R α} {f f' : α → Trace E R β} {a : α} {b : β} {event : E} {reason : R}
  {before : List E}

theorem bind_ok (h : t.result = .ok a) :
    t.bind f = ⟨t.events ++ (f a).events, (f a).result⟩ := by
  rw [Trace.bind, h]

theorem bind_error (h : t.result = .error reason) : t.bind f = ⟨t.events, .error reason⟩ := by
  rw [Trace.bind, h]

theorem done_bind : (done a : Trace E R α).bind f = f a := rfl

theorem log_bind : (log event t).bind f = log event (t.bind f) := by
  rcases hresult : t.result with reason | a
  · rw [bind_error hresult]
    exact bind_error hresult
  · rw [bind_ok hresult]
    exact bind_ok hresult

theorem result_of_toOption (h : t.result.toOption = some a) : t.result = .ok a := by
  rcases hresult : t.result with reason | a'
  · rw [hresult] at h
    cases h
  · rw [hresult] at h
    cases h
    rfl

/-! ## What holds at the end -/

/-- At the end of a value, or of the reason, with all events since `before`. -/
def Meets (before : List E) (t : Trace E R α) (value : List E → α → Prop)
    (ended : List E → R → Prop) : Prop :=
  match t.result with
  | .ok a => value (before ++ t.events) a
  | .error reason => ended (before ++ t.events) reason

variable {value value' : List E → α → Prop} {value₂ : List E → β → Prop}
  {ended ended' : List E → R → Prop}

theorem Meets.done (h : value before a) : Meets before (done a) value ended := by
  show value (before ++ []) a
  rwa [List.append_nil]

theorem Meets.fail (h : ended before reason) : Meets before (fail reason) value ended := by
  show ended (before ++ []) reason
  rwa [List.append_nil]

theorem Meets.log (h : Meets (before ++ [event]) t value ended) :
    Meets before (log event t) value ended := by
  unfold Meets at h ⊢
  rw [List.append_assoc, List.singleton_append] at h
  exact h

theorem Meets.bind (h : Meets before t value ended)
    (next : ∀ events a, value events a → Meets events (f a) value₂ ended) :
    Meets before (t.bind f) value₂ ended := by
  unfold Meets at h
  rcases hresult : t.result with reason | a
  · rw [hresult] at h
    rw [bind_error hresult]
    exact h
  · rw [hresult] at h
    rw [bind_ok hresult]
    have hnext := next _ a h
    unfold Meets at hnext ⊢
    rw [List.append_assoc] at hnext
    exact hnext

theorem Meets.ofOption {o : Option α} (found : ∀ a, o = some a → value before a)
    (missing : o = none → ended before reason) :
    Meets before (ofOption reason o) value ended := by
  cases o with
  | none => exact Meets.fail (missing rfl)
  | some a => exact Meets.done (found a rfl)

theorem Meets.mono (h : Meets before t value ended)
    (values : ∀ events a, value events a → value' events a)
    (ends : ∀ events reason, ended events reason → ended' events reason) :
    Meets before t value' ended' := by
  unfold Meets at h ⊢
  rcases hresult : t.result with reason | a
  · rw [hresult] at h
    exact ends _ _ h
  · rw [hresult] at h
    exact values _ a h

theorem Meets.of_ok (h : Meets [] t value ended) (ok : t.result = .ok a) :
    value t.events a := by
  unfold Meets at h
  rw [ok] at h
  exact h

theorem Meets.of_error (h : Meets [] t value ended) (error : t.result = .error reason) :
    ended t.events reason := by
  unfold Meets at h
  rw [error] at h
  exact h

/-- What holds of the events whatever the end. -/
theorem Meets.events {good : List E → Prop}
    (h : Meets [] t (fun events _ => good events) fun events _ => good events) : good t.events := by
  rcases hresult : t.result with reason | a
  · exact h.of_error hresult
  · exact h.of_ok hresult

/-! ## More fuel -/

/-- Unless the first computation is out of fuel, the second one is the same. -/
def Stable (pending : R) (t t' : Trace E R α) : Prop := t.result ≠ .error pending → t' = t

variable {pending : R}

theorem Stable.refl (t : Trace E R α) : Stable pending t t := fun _ => rfl

theorem Stable.log (h : Stable pending t t') : Stable pending (log event t) (log event t') := by
  intro hresult
  rw [h hresult]

theorem Stable.bind (h : Stable pending t t') (next : ∀ a, Stable pending (f a) (f' a)) :
    Stable pending (t.bind f) (t'.bind f') := by
  intro hresult
  rcases hfirst : t.result with reason | a
  · rw [bind_error hfirst] at hresult ⊢
    have hsame := h (by
      rw [hfirst]
      intro hcontra
      cases hcontra
      exact hresult rfl)
    rw [hsame, bind_error hfirst]
  · rw [bind_ok hfirst] at hresult ⊢
    have hsame := h (by
      rw [hfirst]
      intro hcontra
      cases hcontra)
    rw [hsame, bind_ok hfirst, next a hresult]

end Rules

end Traces
