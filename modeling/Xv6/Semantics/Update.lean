import Mathlib.Algebra.BigOperators.Group.Finset.Basic
import Mathlib.Data.Fintype.Basic
import Mathlib.Logic.Function.Basic

/-!
# Functions that change at one point

What belongs to each of many keys, one of which changes.
-/

namespace Xv6.Semantics

open Function

universe u v w

variable {Key : Type u} [DecidableEq Key] {p q : Key}

section Lookup

variable {Value : Type v} {values : Key → Value} {new found : Value}

theorem update_cases (lookup : update values p new q = found) :
    q = p ∧ new = found ∨ q ≠ p ∧ values q = found := by
  by_cases same : q = p
  · rw [same, update_self] at lookup
    exact .inl ⟨same, lookup⟩
  · rw [update_of_ne same] at lookup
    exact .inr ⟨same, lookup⟩

theorem lookup_of_update {values : Key → Option Value} {new : Option Value}
    (kept : new = none ∨ new = values p) (lookup : update values p new q = some found) :
    values q = some found := by
  obtain ⟨rfl, rfl⟩ | ⟨-, old⟩ := update_cases lookup
  · exact (kept.resolve_left nofun).symm
  · exact old

/-- The one that holds the lock, or takes it, changes. -/
theorem holds_of_update {Active : Value → Prop} {lock next : Option Key}
    (holds : ∀ {q}, Active (values q) → lock = some q) (owned : lock = none ∨ lock = some p)
    (own : Active new → next = some p) (active : Active (update values p new q)) :
    next = some q := by
  obtain ⟨rfl, same⟩ | ⟨isP, same⟩ := update_cases (rfl : update values p new q = _)
  · exact own (same ▸ active)
  have locked := holds (same ▸ active)
  rcases owned with free | held
  · rw [free] at locked
    cases locked
  · rw [held] at locked
    exact absurd (Option.some.inj locked).symm isP

theorem field_update {Field : Type w} (field : Value → Field) (same : field new = field (values p))
    (q : Key) : field (update values p new q) = field (values q) := by
  by_cases here : q = p
  · rw [here, update_self, same]
  · rw [update_of_ne here]

end Lookup

/-- A sum changes by what it counts for the one key. -/
theorem sum_add_of_eq_off [Fintype Key] {before after : Key → Nat} (p : Key)
    (others : ∀ q, q ≠ p → after q = before q) :
    ∑ q, after q + before p = ∑ q, before q + after p := by
  have same : ∑ q ∈ Finset.univ.erase p, after q = ∑ q ∈ Finset.univ.erase p, before q :=
    Finset.sum_congr rfl fun q mem => others q (Finset.ne_of_mem_erase mem)
  rw [← Finset.add_sum_erase Finset.univ after (Finset.mem_univ p), same,
    ← Finset.add_sum_erase Finset.univ before (Finset.mem_univ p)]
  omega

end Xv6.Semantics
