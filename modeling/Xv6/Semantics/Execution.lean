import Mathlib.Logic.Function.Basic

/-!
# Runs of labelled transition systems

The relation is authoritative: a run is a chain of admitted transitions from an
initial state, and a property of the system is a property of every run. A
condition on the steps of a run is expressed by `restrict`, whose runs are the
runs of the original system in which every step meets the condition.
-/

namespace Xv6.Semantics

universe u v

/-- States that may start a run, and the transitions admitted under each label. -/
structure TransitionSystem (State : Type u) (Label : Type v) where
  Initial : State → Prop
  Step : State → Label → State → Prop

namespace TransitionSystem

variable {State : Type u} {Label : Type v}

/-- A finite run, retaining its initial state and the labels taken in order. -/
inductive Runs (system : TransitionSystem State Label) : State → List Label → State → Prop where
  | initial {state} (valid : system.Initial state) : Runs system state [] state
  | step {start labels state label next} (prior : Runs system start labels state)
      (transition : system.Step state label next) :
      Runs system start (labels ++ [label]) next

/-- The same system in which every step also meets `guard` in the state it leaves. -/
def restrict (system : TransitionSystem State Label) (guard : State → Label → Prop) :
    TransitionSystem State Label where
  Initial := system.Initial
  Step state label next := system.Step state label next ∧ guard state label

variable {system : TransitionSystem State Label}

/-- What holds initially and is preserved by every step holds at the end of every run. -/
theorem Runs.invariant {Inv : State → Prop}
    (initial : ∀ state, system.Initial state → Inv state)
    (preserved : ∀ {state label next}, Inv state → system.Step state label next → Inv next)
    {start state : State} {labels : List Label} (run : system.Runs start labels state) :
    Inv state := by
  induction run with
  | initial valid => exact initial _ valid
  | step _ transition ih => exact preserved ih transition

/-- The invariant rule for a relation between the labels taken so far and the state reached. -/
theorem Runs.traceInvariant {Inv : List Label → State → Prop}
    (initial : ∀ state, system.Initial state → Inv [] state)
    (preserved : ∀ {labels state label next}, Inv labels state →
      system.Step state label next → Inv (labels ++ [label]) next)
    {start state : State} {labels : List Label} (run : system.Runs start labels state) :
    Inv labels state := by
  induction run with
  | initial valid => exact initial _ valid
  | step _ transition ih => exact preserved ih transition

/-- The invariant rule for a relation between the initial state and the state reached. -/
theorem Runs.relates {Related : State → State → Prop}
    (initial : ∀ state, system.Initial state → Related state state)
    (preserved : ∀ {start state label next}, Related start state →
      system.Step state label next → Related start next)
    {start state : State} {labels : List Label} (run : system.Runs start labels state) :
    Related start state := by
  induction run with
  | initial valid => exact initial _ valid
  | step _ transition ih => exact preserved ih transition

theorem Runs.unrestrict {guard : State → Label → Prop} {start state : State}
    {labels : List Label} (run : (system.restrict guard).Runs start labels state) :
    system.Runs start labels state := by
  induction run with
  | initial valid => exact .initial valid
  | step _ transition ih => exact .step ih transition.1

/-- Where a step keeps a property if and only if it meets a condition, the property holds at
the end of a run if and only if every step of the run has met the condition. -/
theorem Runs.restrict_iff {Holds : State → Prop} {guard : State → Label → Prop}
    (initial : ∀ state, system.Initial state → Holds state)
    (steps : ∀ {start labels state label next}, system.Runs start labels state →
      system.Step state label next → (Holds next ↔ Holds state ∧ guard state label))
    {start state : State} {labels : List Label} (run : system.Runs start labels state) :
    Holds state ↔ (system.restrict guard).Runs start labels state := by
  constructor
  · intro holds
    induction run with
    | initial valid => exact .initial valid
    | step prior transition ih =>
      obtain ⟨before, meets⟩ := (steps prior transition).mp holds
      exact .step (ih before) ⟨transition, meets⟩
  intro restricted
  induction restricted with
  | initial valid => exact initial _ valid
  | step prior transition ih =>
    exact (steps prior.unrestrict transition.1).mpr ⟨ih prior.unrestrict, transition.2⟩

/-- The system of a partial step function: a label is admitted where the
function is defined. -/
def ofStep (initial : State → Prop) (step : State → Label → Option State) :
    TransitionSystem State Label where
  Initial := initial
  Step state label next := step state label = some next

/-- Execute a list of labels, as long as each of them is admitted. -/
def exec (step : State → Label → Option State) (state : State) : List Label → Option State
  | [] => some state
  | label :: rest => (step state label).bind fun next => exec step next rest

theorem exec_append {step : State → Label → Option State} {state middle final : State}
    {first second : List Label} (executed : exec step state first = some middle)
    (continued : exec step middle second = some final) :
    exec step state (first ++ second) = some final := by
  induction first generalizing state with
  | nil =>
    cases executed
    exact continued
  | cons label rest ih =>
    obtain ⟨next, ran, executed⟩ := Option.bind_eq_some_iff.mp executed
    exact Option.bind_eq_some_iff.mpr ⟨next, ran, ih executed⟩

theorem Runs.exec {initial : State → Prop} {step : State → Label → Option State}
    {start state final : State} {labels rest : List Label}
    (run : (ofStep initial step).Runs start labels state)
    (executed : TransitionSystem.exec step state rest = some final) :
    (ofStep initial step).Runs start (labels ++ rest) final := by
  induction rest generalizing labels state with
  | nil =>
    cases executed
    rwa [List.append_nil]
  | cons label rest ih =>
    obtain ⟨next, ran, continued⟩ := Option.bind_eq_some_iff.mp executed
    rw [show labels ++ label :: rest = (labels ++ [label]) ++ rest by simp]
    exact ih (.step run ran) continued

theorem Runs.of_exec {initial : State → Prop} {step : State → Label → Option State}
    {start final : State} {labels : List Label} (valid : initial start)
    (executed : TransitionSystem.exec step start labels = some final) :
    (ofStep initial step).Runs start labels final := by
  have run : (ofStep initial step).Runs start [] start := .initial valid
  exact List.nil_append labels ▸ run.exec executed

/-- A run through given labels, to a state that is known by execution. -/
theorem exists_runs {initial : State → Prop} {step : State → Label → Option State}
    {start : State} {labels : List Label} {seen : State → Prop} [DecidablePred seen]
    (valid : initial start) (ends : (exec step start labels).any (seen ·) = true) :
    ∃ final, (ofStep initial step).Runs start labels final ∧ seen final := by
  obtain ⟨final, executed, observed⟩ := (Option.any_eq_true _ _).mp ends
  exact ⟨final, .of_exec valid executed, of_decide_eq_true observed⟩

/-- The same for a run in which every step meets a condition. -/
theorem exists_runs_restrict {initial : State → Prop} {step : State → Label → Option State}
    {guard : State → Label → Prop} [∀ state label, Decidable (guard state label)]
    {start : State} {labels : List Label} {seen : State → Prop} [DecidablePred seen]
    (valid : initial start) (ends : (exec (fun state label =>
      if guard state label then step state label else none) start labels).any (seen ·) = true) :
    ∃ final, ((ofStep initial step).restrict guard).Runs start labels final ∧ seen final := by
  have same : (ofStep initial step).restrict guard = ofStep initial
      fun state label => if guard state label then step state label else none := by
    simp only [restrict, ofStep, TransitionSystem.mk.injEq, true_and]
    ext state label next
    by_cases met : guard state label <;> simp [met]
  rw [same]
  exact exists_runs valid ends

end TransitionSystem
end Xv6.Semantics
