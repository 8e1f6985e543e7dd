import Mathlib.Data.Nat.Basic
import Mathlib.Tactic.ByContra

/-!
# Handing out numbers from a counter

References of some kind hold numbers, and 0 is no number. What a counter has
handed out, from `first` up to `next`, is held exactly once when each new number
goes to a reference that held none.
-/

namespace Xv6.Semantics

universe u

variable {Ref : Type u}

/-- Each number from `first` to `next` is held by exactly one reference. -/
structure Bump (live : Ref → Prop) (pointer : Ref → Nat) (first next : Nat) : Prop where
  inRange : ∀ {ref}, live ref → pointer ref ≠ 0 → first ≤ pointer ref ∧ pointer ref < next
  injective : ∀ {ref other}, live ref → live other → pointer ref ≠ 0 →
    pointer ref = pointer other → ref = other
  covered : ∀ {number}, first ≤ number → number < next → ∃ ref, live ref ∧ pointer ref = number

namespace Bump

variable {live grown : Ref → Prop} {pointer changed : Ref → Nat} {first next : Nat} {ref : Ref}

section

variable (bump : Bump live pointer first next)
include bump

theorem congr (same : ∀ ref, live ref → changed ref = pointer ref) :
    Bump live changed first next where
  inRange := by
    intro ref isLive
    rw [same ref isLive]
    exact bump.inRange isLive
  injective := by
    intro ref other refLive otherLive
    rw [same ref refLive, same other otherLive]
    exact bump.injective refLive otherLive
  covered := by
    intro number low high
    obtain ⟨ref, isLive, points⟩ := bump.covered low high
    exact ⟨ref, isLive, (same ref isLive).trans points⟩

theorem grow (kept : ∀ ref, live ref → grown ref)
    (empty : ∀ ref, grown ref → ¬ live ref → pointer ref = 0) : Bump grown pointer first next where
  inRange := by
    intro ref isGrown nonzero
    have isLive : live ref := by
      by_contra notLive
      exact nonzero (empty ref isGrown notLive)
    exact bump.inRange isLive nonzero
  injective := by
    intro ref other refGrown otherGrown nonzero same
    have refLive : live ref := by
      by_contra notLive
      exact nonzero (empty ref refGrown notLive)
    have otherLive : live other := by
      by_contra notLive
      exact nonzero (same.trans (empty other otherGrown notLive))
    exact bump.injective refLive otherLive nonzero same
  covered := by
    intro number low high
    obtain ⟨ref, isLive, points⟩ := bump.covered low high
    exact ⟨ref, kept ref isLive, points⟩

theorem alloc (positive : 0 < first) (order : first ≤ next) (isLive : live ref)
    (empty : pointer ref = 0) (given : changed ref = next)
    (same : ∀ other, live other → other ≠ ref → changed other = pointer other) :
    Bump live changed first (next + 1) where
  inRange := by
    intro other otherLive nonzero
    by_cases isRef : other = ref
    · rw [isRef, given]
      exact ⟨order, Nat.lt_succ_self _⟩
    · rw [same other otherLive isRef] at nonzero ⊢
      have inside := bump.inRange otherLive nonzero
      exact ⟨inside.1, Nat.lt_succ_of_lt inside.2⟩
  injective := by
    have fresh : ∀ other, live other → other ≠ ref → changed other ≠ 0 → changed other ≠ next := by
      intro other otherLive notRef nonzero
      rw [same other otherLive notRef] at nonzero ⊢
      exact Nat.ne_of_lt (bump.inRange otherLive nonzero).2
    intro one other oneLive otherLive nonzero equal
    by_cases oneRef : one = ref <;> by_cases otherRef : other = ref
    · exact oneRef.trans otherRef.symm
    · rw [oneRef, given] at equal
      exact absurd equal.symm (fresh other otherLive otherRef (by rwa [← equal, ← given, ← oneRef]))
    · rw [otherRef, given] at equal
      exact absurd equal (fresh one oneLive oneRef nonzero)
    · rw [same one oneLive oneRef] at nonzero equal
      rw [same other otherLive otherRef] at equal
      exact bump.injective oneLive otherLive nonzero equal
  covered := by
    intro number low high
    by_cases isNext : number = next
    · exact ⟨ref, isLive, given.trans isNext.symm⟩
    obtain ⟨other, otherLive, points⟩ := bump.covered low (by omega)
    have notRef : other ≠ ref := by
      rintro rfl
      omega
    exact ⟨other, otherLive, (same other otherLive notRef).trans points⟩

end

end Bump

end Xv6.Semantics
