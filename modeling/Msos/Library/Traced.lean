import Mathlib.Data.List.Basic

namespace Msos.Library

universe u

-- A computation that tells what it does on its way to a result, or to a stop.
structure Traced (Stop Event : Type u) (α : Type u) where
  events : List Event
  result : Except Stop α
deriving DecidableEq

namespace Traced

variable {Stop Event α β : Type u}

def stop (reason : Stop) : Traced Stop Event α := ⟨[], .error reason⟩

def emit (event : Event) : Traced Stop Event PUnit := ⟨[event], .ok ⟨⟩⟩

def ofExcept (result : Except Stop α) : Traced Stop Event α := ⟨[], result⟩

-- What follows a stop is not done.
def andThen (first : Traced Stop Event α) (next : α → Traced Stop Event β) : Traced Stop Event β :=
  match first.result with
  | .ok value => ⟨first.events ++ (next value).events, (next value).result⟩
  | .error reason => ⟨first.events, .error reason⟩

instance : Monad (Traced Stop Event) where
  pure value := ⟨[], .ok value⟩
  bind := andThen

variable {first : Traced Stop Event α} {next : α → Traced Stop Event β} {value : α}
  {reason : Stop}

@[simp] theorem events_pure : (pure value : Traced Stop Event α).events = [] := rfl

@[simp] theorem result_pure : (pure value : Traced Stop Event α).result = .ok value := rfl

@[simp] theorem pure_bind (value : α) (next : α → Traced Stop Event β) :
    (pure value >>= next) = next value := rfl

@[simp] theorem stop_bind (reason : Stop) (next : α → Traced Stop Event β) :
    (stop reason >>= next) = stop reason := rfl

@[simp] theorem events_emit_bind (event : Event) (next : PUnit → Traced Stop Event β) :
    (emit event >>= next).events = event :: (next ⟨⟩).events := rfl

@[simp] theorem result_emit_bind (event : Event) (next : PUnit → Traced Stop Event β) :
    (emit event >>= next).result = (next ⟨⟩).result := rfl

theorem events_bind_of_ok (h : first.result = .ok value) :
    (first >>= next).events = first.events ++ (next value).events := by
  change (andThen first next).events = _
  rw [andThen, h]

theorem result_bind_of_ok (h : first.result = .ok value) :
    (first >>= next).result = (next value).result := by
  change (andThen first next).result = _
  rw [andThen, h]

theorem events_bind_of_error (h : first.result = .error reason) :
    (first >>= next).events = first.events := by
  change (andThen first next).events = _
  rw [andThen, h]

theorem result_bind_of_error (h : first.result = .error reason) :
    (first >>= next).result = .error reason := by
  change (andThen first next).result = _
  rw [andThen, h]

theorem result_bind_eq_ok {final : β} :
    (first >>= next).result = .ok final ↔
      ∃ value, first.result = .ok value ∧ (next value).result = .ok final := by
  cases h : first.result with
  | error reason =>
      rw [result_bind_of_error h]
      constructor
      · intro hno
        cases hno
      · rintro ⟨_, hno, _⟩
        cases hno
  | ok value =>
      rw [result_bind_of_ok h]
      constructor
      · exact fun hnext => ⟨value, rfl, hnext⟩
      · rintro ⟨_, hvalue, hnext⟩
        obtain rfl := Except.ok.inj hvalue
        exact hnext

-- Only the results that there are matter to what follows.
theorem bind_congr_of_ok {other : α → Traced Stop Event β}
    (h : ∀ value, first.result = .ok value → next value = other value) :
    (first >>= next) = (first >>= other) := by
  change andThen first next = andThen first other
  rw [andThen, andThen]
  cases hresult : first.result with
  | error reason => rfl
  | ok value =>
      have hnext := h value hresult
      simp only [hnext]

-- Every event has a property, and so has the reason of a stop.
structure Satisfies (P : Event → Prop) (Q : Stop → Prop) (run : Traced Stop Event α) : Prop where
  events : ∀ event ∈ run.events, P event
  stop : ∀ reason, run.result = .error reason → Q reason

namespace Satisfies

variable {P : Event → Prop} {Q : Stop → Prop}

theorem of_pure (value : α) : Satisfies P Q (pure value : Traced Stop Event α) := by
  constructor
  · intro event he
    cases he
  · intro reason hreason
    cases hreason

theorem of_stop (h : Q reason) : Satisfies P Q (Traced.stop reason : Traced Stop Event α) := by
  constructor
  · intro event he
    cases he
  · intro other hother
    obtain rfl := Except.error.inj hother
    exact h

theorem emit_bind {event : Event} {next : PUnit → Traced Stop Event β} (he : P event)
    (hnext : Satisfies P Q (next ⟨⟩)) : Satisfies P Q (emit event >>= next) := by
  refine ⟨?_, hnext.stop⟩
  rw [events_emit_bind]
  intro other hother
  rcases List.mem_cons.mp hother with rfl | hother
  · exact he
  · exact hnext.events other hother

-- What holds of both parts holds of the whole.
theorem bind (hfirst : Satisfies P Q first)
    (hnext : ∀ value, first.result = .ok value → Satisfies P Q (next value)) :
    Satisfies P Q (first >>= next) := by
  cases h : first.result with
  | error reason =>
      refine ⟨?_, fun other hother => ?_⟩
      · rw [events_bind_of_error h]
        exact hfirst.events
      · rw [result_bind_of_error h] at hother
        obtain rfl := Except.error.inj hother
        exact hfirst.stop reason h
  | ok value =>
      refine ⟨?_, ?_⟩
      · rw [events_bind_of_ok h]
        intro event he
        rcases List.mem_append.mp he with he | he
        · exact hfirst.events event he
        · exact (hnext value h).events event he
      · rw [result_bind_of_ok h]
        exact (hnext value h).stop

end Satisfies

end Traced

end Msos.Library
