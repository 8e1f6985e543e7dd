import Mathlib.Logic.Basic

/-!
# Outcomes of computations that may fail

`Outcome failed post result` says everything about a result: if there is none,
`failed` holds, and if there is one, `post` holds of it. An outcome is total
correctness for whoever can refute `failed`.
-/

namespace Xv6.Semantics

universe u

variable {α β : Type u}

/-- What is known of a result. -/
inductive Outcome (failed : Prop) (post : α → Prop) : Option α → Prop where
  | none (holds : failed) : Outcome failed post none
  | some {value} (holds : post value) : Outcome failed post (some value)

namespace Outcome

variable {failed later : Prop} {post : α → Prop} {result : Option α}

section

variable (outcome : Outcome failed post result)
include outcome

theorem bind {rest : α → Option β} {final : β → Prop}
    (weaken : failed → later)
    (continued : ∀ value, post value → Outcome later final (rest value)) :
    Outcome later final (result >>= rest) := by
  cases outcome with
  | none holds => exact .none (weaken holds)
  | some holds => exact continued _ holds

theorem mono {weaker : α → Prop} (weaken : failed → later)
    (weakenPost : ∀ value, post value → weaker value) : Outcome later weaker result := by
  cases outcome with
  | none holds => exact .none (weaken holds)
  | some holds => exact .some (weakenPost _ holds)

theorem and {other : Prop} {second : α → Prop}
    (also : Outcome other second result) :
    Outcome failed (fun value => post value ∧ second value) result := by
  cases outcome with
  | none holds => exact .none holds
  | some holds =>
    cases also with
    | some alsoHolds => exact .some ⟨holds, alsoHolds⟩

theorem returns (not : ¬ failed) :
    ∃ value, result = Option.some value ∧ post value := by
  cases outcome with
  | none holds => exact absurd holds not
  | some holds => exact ⟨_, rfl, holds⟩

end

end Outcome

end Xv6.Semantics
