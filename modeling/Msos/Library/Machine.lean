import Mathlib.Data.List.Basic

namespace Msos.Library.Machine

section Runs

variable {State Input : Type*} (step : State → Input → Option State)

-- Execute the inputs in order. An input without a successor ends the run:
-- the states after it do not exist.
def run (state : State) (inputs : List Input) : Option State :=
  inputs.foldlM step state

-- The predicate holds in the initial state and after every executed input.
def Throughout (good : State → Prop) : State → List Input → Prop
  | state, [] => good state
  | state, input :: rest =>
      good state ∧ ∀ next, step state input = some next → Throughout good next rest

-- Every executed input meets the guard in the state that it is executed in.
def Respects (guard : State → Input → Prop) : State → List Input → Prop
  | _, [] => True
  | state, input :: rest =>
      ∀ next, step state input = some next → guard state input ∧ Respects guard next rest

-- Every executed input relates the states before and after it.
def Transitions (rel : State → Input → State → Prop) : State → List Input → Prop
  | _, [] => True
  | state, input :: rest =>
      ∀ next, step state input = some next → rel state input next ∧ Transitions rel next rest

section Decide

variable (good : State → Prop) [DecidablePred good] (guard : State → Input → Prop)
  [∀ state input, Decidable (guard state input)]

instance decidableThroughout : (state : State) → (inputs : List Input) →
    Decidable (Throughout step good state inputs)
  | state, [] => inferInstanceAs (Decidable (good state))
  | state, input :: rest =>
      match h : step state input with
      | none => decidable_of_iff (good state) (by simp [Throughout, h])
      | some next =>
          have := decidableThroughout next rest
          decidable_of_iff (good state ∧ Throughout step good next rest) (by simp [Throughout, h])

instance decidableRespects : (state : State) → (inputs : List Input) →
    Decidable (Respects step guard state inputs)
  | _, [] => isTrue trivial
  | state, input :: rest =>
      match h : step state input with
      | none => isTrue (by simp [Respects, h])
      | some next =>
          have := decidableRespects next rest
          decidable_of_iff (guard state input ∧ Respects step guard next rest) (by simp [Respects, h])

end Decide

@[simp] theorem run_nil (state : State) : run step state [] = some state := rfl

theorem run_cons (state : State) (input : Input) (rest : List Input) :
    run step state (input :: rest) = (step state input).bind fun next => run step next rest := rfl

theorem run_append (state : State) (first second : List Input) :
    run step state (first ++ second) = (run step state first).bind fun next => run step next second := by
  simp [run, List.foldlM_append, bind]

theorem run_concat (state : State) (inputs : List Input) (input : Input) :
    run step state (inputs ++ [input]) = (run step state inputs).bind fun next => step next input := by
  rw [run_append]
  congr 1
  funext next
  simp [run_cons]

variable {step} {good : State → Prop} {guard : State → Input → Prop}

theorem Throughout.initial {state : State} {inputs : List Input}
    (h : Throughout step good state inputs) : good state := by
  cases inputs with
  | nil => exact h
  | cons input rest => exact h.1

theorem Throughout.mono {weaker : State → Prop} (hw : ∀ state, good state → weaker state)
    {state : State} {inputs : List Input} (h : Throughout step good state inputs) :
    Throughout step weaker state inputs := by
  induction inputs generalizing state with
  | nil => exact hw _ h
  | cons input rest ih => exact ⟨hw _ h.1, fun next hs => ih (h.2 next hs)⟩

-- The last state of a run is one of the states it goes through.
theorem Throughout.final {state last : State} {inputs : List Input}
    (h : Throughout step good state inputs) (hr : run step state inputs = some last) : good last := by
  induction inputs generalizing state with
  | nil =>
      obtain rfl : state = last := by simpa using hr
      exact h
  | cons input rest ih =>
      rw [run_cons, Option.bind_eq_some_iff] at hr
      obtain ⟨next, hs, hr⟩ := hr
      exact ih (h.2 next hs) hr

theorem Respects.guard_of_run {state before next : State} {first rest : List Input} {input : Input}
    (h : Respects step guard state (first ++ input :: rest))
    (hr : run step state first = some before) (hs : step before input = some next) :
    guard before input := by
  induction first generalizing state with
  | nil =>
      obtain rfl : state = before := by simpa using hr
      exact (h next hs).1
  | cons head tail ih =>
      rw [run_cons, Option.bind_eq_some_iff] at hr
      obtain ⟨middle, hm, hr⟩ := hr
      exact ih (h middle hm).2 hr

theorem respects_and {allowed : Input → Prop} {state : State} {inputs : List Input}
    (h : Respects step guard state inputs) (hall : ∀ input ∈ inputs, allowed input) :
    Respects step (fun state input => guard state input ∧ allowed input) state inputs := by
  induction inputs generalizing state with
  | nil => trivial
  | cons input rest ih =>
      intro next hs
      obtain ⟨hg, hrest⟩ := h next hs
      exact ⟨⟨hg, hall input List.mem_cons_self⟩,
        ih hrest fun other hm => hall other (List.mem_cons_of_mem _ hm)⟩

-- Where every input is executed, a guard on the inputs alone is one on all of them.
theorem respects_iff_forall {allowed : Input → Prop}
    (htotal : ∀ state input, ∃ next, step state input = some next) (state : State)
    (inputs : List Input) :
    Respects step (fun _ input => allowed input) state inputs ↔
      ∀ input ∈ inputs, allowed input := by
  induction inputs generalizing state with
  | nil => simp [Respects]
  | cons input rest ih =>
      obtain ⟨next, hs⟩ := htotal state input
      simp [Respects, hs, ih]

-- Going through good states only is a property of all prefixes of the run.
theorem throughout_iff_prefixes (state : State) (inputs : List Input) :
    Throughout step good state inputs ↔
      ∀ first, first <+: inputs → ∀ last, run step state first = some last → good last := by
  constructor
  · intro h
    induction inputs generalizing state with
    | nil =>
        intro first hp last hr
        obtain rfl := List.prefix_nil.mp hp
        exact h.final hr
    | cons input rest ih =>
        intro first hp last hr
        cases first with
        | nil =>
            obtain rfl : state = last := by simpa using hr
            exact h.1
        | cons head tail =>
            obtain ⟨rfl, ht⟩ := List.cons_prefix_cons.mp hp
            rw [run_cons, Option.bind_eq_some_iff] at hr
            obtain ⟨next, hs, hr⟩ := hr
            exact ih next (h.2 next hs) tail ht last hr
  · intro h
    induction inputs generalizing state with
    | nil => exact h [] List.nil_prefix state rfl
    | cons input rest ih =>
        refine ⟨h [] List.nil_prefix state rfl, fun next hs => ih next ?_⟩
        intro first hp last hr
        apply h (input :: first) (List.cons_prefix_cons.mpr ⟨rfl, hp⟩) last
        rw [run_cons, hs, Option.bind_some, hr]

-- An invariant kept by every step that meets the guard holds throughout the
-- runs whose steps all meet it.
theorem throughout_of_respects (inv : State → Prop) (hinv : ∀ state, inv state → good state)
    (hkeep : ∀ state input next, inv state → guard state input →
      step state input = some next → inv next)
    {state : State} {inputs : List Input} (h0 : inv state)
    (hr : Respects step guard state inputs) : Throughout step good state inputs := by
  induction inputs generalizing state with
  | nil => exact hinv state h0
  | cons input rest ih =>
      refine ⟨hinv state h0, fun next hs => ?_⟩
      obtain ⟨hg, hr⟩ := hr next hs
      exact ih (hkeep state input next h0 hg hs) hr

-- Where a step that misses the guard leads to a bad state, the guard is
-- exactly what keeps a run good.
theorem throughout_iff_respects (inv : State → Prop) (hinv : ∀ state, inv state → good state)
    (hkeep : ∀ state input next, inv state → guard state input →
      step state input = some next → inv next)
    (hbreak : ∀ state input next, inv state → ¬guard state input →
      step state input = some next → ¬good next)
    {state : State} {inputs : List Input} (h0 : inv state) :
    Throughout step good state inputs ↔ Respects step guard state inputs := by
  refine ⟨fun h => ?_, throughout_of_respects inv hinv hkeep h0⟩
  induction inputs generalizing state with
  | nil => trivial
  | cons input rest ih =>
      intro next hs
      have hn := h.2 next hs
      have hg : guard state input := by
        by_contra hg
        exact hbreak state input next h0 hg hs hn.initial
      exact ⟨hg, ih (hkeep state input next h0 hg hs) hn⟩

-- The same for a session that a step can end with a fault: one fact about each
-- step is enough.
theorem throughout_ok_iff_respects {Fault Session : Type*}
    {step : Except Fault Session → Input → Option (Except Fault Session)}
    {good : Except Fault Session → Prop} {guard : Except Fault Session → Input → Prop}
    (inv : Session → Prop) (hinv : ∀ session, inv session → good (.ok session))
    (hstep : ∀ session input next, inv session → step (.ok session) input = some next →
      (good next ↔ guard (.ok session) input) ∧
        (good next → ∃ after, next = .ok after ∧ inv after))
    {session : Session} (h0 : inv session) (inputs : List Input) :
    Throughout step good (.ok session) inputs ↔ Respects step guard (.ok session) inputs := by
  refine throughout_iff_respects (fun state => ∃ session, state = .ok session ∧ inv session)
    ?_ ?_ ?_ ⟨session, rfl, h0⟩
  · rintro _ ⟨before, rfl, hb⟩
    exact hinv before hb
  · rintro _ input next ⟨before, rfl, hb⟩ hg hs
    obtain ⟨hiff, hkeep⟩ := hstep before input next hb hs
    exact hkeep (hiff.mpr hg)
  · rintro _ input next ⟨before, rfl, hb⟩ hg hs hgood
    exact hg ((hstep before input next hb hs).1.mp hgood)

-- The same without a guard.
theorem throughout_of_invariant (inv : State → Prop) (hinv : ∀ state, inv state → good state)
    (hkeep : ∀ state input next, inv state → step state input = some next → inv next)
    {state : State} (h0 : inv state) (inputs : List Input) : Throughout step good state inputs := by
  induction inputs generalizing state with
  | nil => exact hinv state h0
  | cons input rest ih =>
      exact ⟨hinv state h0, fun next hs => ih (hkeep state input next h0 hs)⟩

variable {rel : State → Input → State → Prop}

-- Where the guard keeps the invariant and the relation, it keeps the relation
-- along the whole run.
theorem transitions_of_respects (inv : State → Prop)
    (hkeep : ∀ state input next, inv state → guard state input →
      step state input = some next → inv next ∧ rel state input next)
    {state : State} {inputs : List Input} (h0 : inv state)
    (hr : Respects step guard state inputs) : Transitions step rel state inputs := by
  induction inputs generalizing state with
  | nil => trivial
  | cons input rest ih =>
      intro next hs
      obtain ⟨hg, hr⟩ := hr next hs
      obtain ⟨hinv, hrel⟩ := hkeep state input next h0 hg hs
      exact ⟨hrel, ih hinv hr⟩

-- The guard is exactly what a step needs for the relation.
theorem transitions_iff_respects (inv : State → Prop)
    (hkeep : ∀ state input next, inv state → guard state input →
      step state input = some next → inv next)
    (hrel : ∀ state input next, inv state → step state input = some next →
      (rel state input next ↔ guard state input))
    {state : State} {inputs : List Input} (h0 : inv state) :
    Transitions step rel state inputs ↔ Respects step guard state inputs := by
  refine ⟨fun h => ?_, transitions_of_respects inv (fun before input next hinv hg hs =>
    ⟨hkeep before input next hinv hg hs, (hrel before input next hinv hs).mpr hg⟩) h0⟩
  induction inputs generalizing state with
  | nil => trivial
  | cons input rest ih =>
      intro next hs
      obtain ⟨hr, hrest⟩ := h next hs
      have hg := (hrel state input next h0 hs).mp hr
      exact ⟨hg, ih (hkeep state input next h0 hg hs) hrest⟩

-- A machine whose steps another one can answer is answered along a whole run.
theorem exists_run_of_simulates {Model : Type*} {answer : Model → Input → Option Model}
    {match_ : State → Model → Prop}
    (hstep : ∀ state model input next, match_ state model → guard state input →
      step state input = some next → ∃ after, answer model input = some after ∧ match_ next after)
    {state last : State} {model : Model} {inputs : List Input} (h0 : match_ state model)
    (hg : Respects step guard state inputs) (hr : run step state inputs = some last) :
    ∃ end_, run answer model inputs = some end_ ∧ match_ last end_ := by
  induction inputs generalizing state model with
  | nil =>
      obtain rfl : state = last := by simpa using hr
      exact ⟨model, rfl, h0⟩
  | cons input rest ih =>
      rw [run_cons, Option.bind_eq_some_iff] at hr
      obtain ⟨next, hs, hr⟩ := hr
      obtain ⟨hguard, hg⟩ := hg next hs
      obtain ⟨after, hafter, hmatch⟩ := hstep state model input next h0 hguard hs
      obtain ⟨end_, hend, hlast⟩ := ih hmatch hg hr
      refine ⟨end_, ?_, hlast⟩
      rw [run_cons, hafter, Option.bind_some, hend]

end Runs

end Msos.Library.Machine
