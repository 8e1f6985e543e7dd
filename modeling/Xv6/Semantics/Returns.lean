import Mathlib.Logic.Basic

/-!
# Computations that return

A computation over a state either returns a value and a final state or halts.
`Returns` is total correctness: from the given state the computation does
return, and what it returns satisfies the postcondition. `Ensures` is partial
correctness: if the computation returns, the postcondition holds. The rules
follow the way computations are put together.
-/

namespace Xv6.Semantics

universe u v

variable {State Halt : Type u} {Value Result : Type u}

section Sequence

variable {computation : StateT State (Except Halt) Value}
  {rest : Value → StateT State (Except Halt) Result} {state next : State}

theorem run_bind_of_run {value : Value} (ran : computation.run state = .ok (value, next)) :
    (computation >>= rest).run state = (rest value).run next := by
  rw [StateT.run_bind, ran]
  rfl

theorem run_bind_of_halt {halt : Halt} (halts : computation.run state = .error halt) :
    (computation >>= rest).run state = .error halt := by
  rw [StateT.run_bind, halts]
  rfl

end Sequence

/-- From `state` the computation returns, with a value and a state satisfying `post`. -/
def Returns (computation : StateT State (Except Halt) Value) (state : State)
    (post : Value → State → Prop) : Prop :=
  ∃ value final, computation.run state = .ok (value, final) ∧ post value final

namespace Returns

variable {computation : StateT State (Except Halt) Value} {state : State}
  {post : Value → State → Prop}

theorem pure (holds : post value state) :
    Returns (Pure.pure value : StateT State (Except Halt) Value) state post :=
  ⟨value, state, rfl, holds⟩

theorem of_run_eq {other : StateT State (Except Halt) Value} {start : State}
    (same : computation.run state = other.run start) (returns : Returns other start post) :
    Returns computation state post := by
  obtain ⟨value, next, ran, holds⟩ := returns
  exact ⟨value, next, same.trans ran, holds⟩

/-- Sequencing: the rest returns from whatever the first part returns with. -/
theorem bind {rest : Value → StateT State (Except Halt) Result}
    {final : Result → State → Prop} (first : Returns computation state post)
    (continued : ∀ value next, post value next → Returns (rest value) next final) :
    Returns (computation >>= rest) state final := by
  obtain ⟨value, next, ran, holds⟩ := first
  obtain ⟨result, last, continuedRan, reached⟩ := continued value next holds
  exact ⟨result, last, (run_bind_of_run ran).trans continuedRan, reached⟩

theorem bind_run {rest : Value → StateT State (Except Halt) Result}
    {next : State} {final : Result → State → Prop}
    (ran : computation.run state = .ok (value, next))
    (continued : Returns (rest value) next final) :
    Returns (computation >>= rest) state final :=
  .of_run_eq (run_bind_of_run ran) continued

theorem mono {weaker : Value → State → Prop} (returns : Returns computation state post)
    (weaken : ∀ value next, post value next → weaker value next) :
    Returns computation state weaker := by
  obtain ⟨value, next, ran, holds⟩ := returns
  exact ⟨value, next, ran, weaken value next holds⟩

/-- What a computation was seen to return satisfies its postcondition. -/
theorem of_run {next : State} (returns : Returns computation state post)
    (ran : computation.run state = .ok (value, next)) : post value next := by
  obtain ⟨returned, final, returnedRan, holds⟩ := returns
  rw [ran] at returnedRan
  cases returnedRan
  exact holds

end Returns

variable {value : Value}

/-- Whatever the computation returns from `state` satisfies `post`. -/
def Ensures (computation : StateT State (Except Halt) Value) (state : State)
    (post : Value → State → Prop) : Prop :=
  ∀ value final, computation.run state = .ok (value, final) → post value final

namespace Ensures

variable {computation : StateT State (Except Halt) Value} {state : State}
  {post : Value → State → Prop}

theorem of_returns (returns : Returns computation state post) : Ensures computation state post :=
  fun _ _ ran => returns.of_run ran

theorem pure {value : Value} (holds : post value state) :
    Ensures (Pure.pure value : StateT State (Except Halt) Value) state post :=
  of_returns (.pure holds)

theorem throw {halt : Halt} :
    Ensures (MonadExcept.throw halt : StateT State (Except Halt) Value) state post :=
  fun _ _ ran => by cases ran

theorem bind {rest : Value → StateT State (Except Halt) Result}
    {final : Result → State → Prop} (first : Ensures computation state post)
    (continued : ∀ value next, post value next → Ensures (rest value) next final) :
    Ensures (computation >>= rest) state final := by
  intro result last ran
  cases started : computation.run state with
  | error halt =>
    rw [run_bind_of_halt started] at ran
    cases ran
  | ok pair =>
    rw [run_bind_of_run started] at ran
    exact continued pair.1 pair.2 (first pair.1 pair.2 started) result last ran

theorem bind_run {rest : Value → StateT State (Except Halt) Result} {value : Value}
    {next : State} {final : Result → State → Prop}
    (ran : computation.run state = .ok (value, next))
    (continued : Ensures (rest value) next final) :
    Ensures (computation >>= rest) state final := by
  intro result last continuedRan
  rw [run_bind_of_run ran] at continuedRan
  exact continued result last continuedRan

theorem mono {weaker : Value → State → Prop} (ensures : Ensures computation state post)
    (weaken : ∀ value next, post value next → weaker value next) :
    Ensures computation state weaker :=
  fun value next ran => weaken value next (ensures value next ran)

end Ensures

variable {computation : StateT State (Except Halt) Value} {state : State}

theorem Returns.and {post other : Value → State → Prop} (returns : Returns computation state post)
    (ensures : Ensures computation state other) :
    Returns computation state fun value next => post value next ∧ other value next := by
  obtain ⟨value, next, ran, holds⟩ := returns
  exact ⟨value, next, ran, holds, ensures value next ran⟩

/-! ## The state -/

section State

variable {post : Value → State → Prop}

theorem returns_get {rest : State → StateT State (Except Halt) Value}
    (continued : Returns (rest state) state post) : Returns (get >>= rest) state post := continued

theorem returns_modify {rest : PUnit → StateT State (Except Halt) Value}
    (continued : Returns (rest ⟨⟩) (change state) post) :
    Returns (modify change >>= rest) state post := continued

theorem ensures_get {rest : State → StateT State (Except Halt) Value}
    (continued : Ensures (rest state) state post) : Ensures (get >>= rest) state post := continued

theorem ensures_modify {rest : PUnit → StateT State (Except Halt) Value}
    (continued : Ensures (rest ⟨⟩) (change state) post) :
    Ensures (modify change >>= rest) state post := continued

end State

end Xv6.Semantics
