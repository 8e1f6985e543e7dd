import Xv6.Malloc.Layout

/-!
# What `allocation` grants, and what happens when it refuses

`allocation` adds a 64-bit size to its index before it compares, so that a size
close to `2 ^ 64` passes the comparison. When it does refuse, it returns null,
but `morecore` asks whether the result is `(char*) -1` and goes on.
-/

namespace Xv6.Malloc

open Xv6.Semantics

/-- The arena, and where each range that `allocation` has granted starts and its
size, the latest first. -/
structure Grants where
  arena : Arena
  ranges : List (Nat × Nat)

/-- How many bytes have been granted. -/
def Grants.total (grants : Grants) : Nat := (grants.ranges.map (·.2)).sum

section Linked

variable [Linked]

/-- All sequences of calls of `allocation` with 64-bit sizes. -/
def grantSystem : TransitionSystem Grants Nat where
  Initial grants := grants = ⟨.initial, []⟩
  Step grants size next := size < 2 ^ 64 ∧ ∃ address arena,
    (allocation size).run grants.arena = .ok (address, arena) ∧
      next = ⟨arena, if address = 0 then grants.ranges else (address, size) :: grants.ranges⟩

/-- The ranges granted are disjoint parts of the static array, and the index counts them. -/
structure Grants.Safe (grants : Grants) : Prop where
  inside : ∀ range ∈ grants.ranges,
    Linked.memory ≤ range.1 ∧ range.1 + range.2 ≤ Linked.memory + alloc
  disjoint : grants.ranges.Pairwise fun late early => early.1 + early.2 ≤ late.1
  counted : grants.arena.memoryIndex = grants.total
  bounded : grants.arena.memoryIndex ≤ alloc

/-- The sum that `allocation` compares does not wrap. -/
def NoWrap (grants : Grants) (size : Nat) : Prop := grants.arena.memoryIndex + size < 2 ^ 64

/-- A call refuses and changes nothing, or it grants the bytes at the index. -/
theorem grant_cases {grants next : Grants} {size : Nat} (step : grantSystem.Step grants size next) :
    next = grants ∧ alloc < (grants.arena.memoryIndex + size) % 2 ^ 64 ∨
      (grants.arena.memoryIndex + size) % 2 ^ 64 ≤ alloc ∧
      next.arena.memoryIndex = (grants.arena.memoryIndex + size) % 2 ^ 64 ∧
      next.ranges = (Linked.memory + grants.arena.memoryIndex, size) :: grants.ranges := by
  obtain ⟨-, address, arena, returned, rfl⟩ := step
  have positive := memory_pos
  rw [allocation_run] at returned
  split at returned
  case isTrue refused =>
    cases returned
    exact .inl ⟨rfl, refused⟩
  case isFalse granted =>
    cases returned
    refine .inr ⟨by omega, ?_, if_neg (by omega)⟩
    -- The index is narrowed to 32 bits, but what passed the comparison is small.
    unfold alloc at granted
    show (_ + size) % 2 ^ 32 = _
    omega

/-- What holds after any calls, wrapped or not. -/
structure Packed (grants : Grants) : Prop where
  bounded : grants.arena.memoryIndex ≤ alloc
  le_total : grants.arena.memoryIndex ≤ grants.total
  within : ∀ range ∈ grants.ranges,
    Linked.memory ≤ range.1 ∧ range.1 + range.2 ≤ Linked.memory + grants.total

theorem Packed.step {grants next : Grants} {size : Nat} (packed : Packed grants)
    (step : grantSystem.Step grants size next) : Packed next := by
  obtain ⟨rfl, -⟩ | ⟨fits, index, ranges⟩ := grant_cases step
  · exact packed
  have total : next.total = size + grants.total := by simp [Grants.total, ranges]
  have below := packed.le_total
  constructor
  · exact index ▸ fits
  · have := Nat.mod_le (grants.arena.memoryIndex + size) (2 ^ 64)
    omega
  · intro range member
    rw [ranges, List.mem_cons] at member
    obtain rfl | old := member
    · exact ⟨Nat.le_add_right .., by simp only; omega⟩
    · have := packed.within range old
      omega

/-- A call keeps the ranges safe if and only if its sum does not wrap; once they
are not, the index stays behind what has been granted. -/
theorem Packed.safe_step {grants next : Grants} {size : Nat} (packed : Packed grants)
    (step : grantSystem.Step grants size next) :
    next.Safe ↔ grants.Safe ∧ NoWrap grants size := by
  have after := packed.step step
  have bounded := packed.bounded
  have small : size < 2 ^ 64 := step.1
  unfold NoWrap
  obtain ⟨rfl, refused⟩ | ⟨fits, index, ranges⟩ := grant_cases step
  · refine (and_iff_left ?_).symm
    unfold alloc at *
    omega
  have total : next.total = size + grants.total := by simp [Grants.total, ranges]
  have behind := packed.le_total
  constructor
  · intro safe
    have counted := safe.counted
    have inside := safe.inside
    have disjoint := safe.disjoint
    rw [ranges] at inside disjoint
    have unwrapped : grants.arena.memoryIndex + size < 2 ^ 64 := by
      unfold alloc at *
      omega
    exact ⟨⟨fun range member => inside range (.tail _ member), disjoint.of_cons,
      by omega, bounded⟩, unwrapped⟩
  · rintro ⟨safe, unwrapped⟩
    have counted := safe.counted
    have exact : next.arena.memoryIndex = next.total := by omega
    have limit := after.bounded
    refine ⟨fun range member => ?_, ?_, exact, limit⟩
    · have := after.within range member
      omega
    · rw [ranges]
      refine safe.disjoint.cons fun range member => ?_
      have := packed.within range member
      simp only
      omega

theorem packed_of_runs {start grants : Grants} {sizes : List Nat}
    (run : grantSystem.Runs start sizes grants) : Packed grants := by
  refine run.invariant ?_ fun packed => packed.step
  rintro _ rfl
  exact ⟨Nat.zero_le _, Nat.zero_le _, nofun⟩

theorem safe_iff_noWrap {start grants : Grants} {sizes : List Nat}
    (run : grantSystem.Runs start sizes grants) :
    (grants.Safe ↔ (grantSystem.restrict NoWrap).Runs start sizes grants) ∧
      ∀ nbytes < 2 ^ 64, nbytes ≤ (units nbytes - 1) * headerSize ↔ nbytes + 15 < 2 ^ 64 := by
  constructor
  · refine run.restrict_iff ?_ fun prior => (packed_of_runs prior).safe_step
    rintro _ rfl
    exact ⟨nofun, .nil, rfl, Nat.zero_le _⟩
  · intro nbytes small
    unfold units headerSize
    omega

end Linked

theorem safe_iff_noWrap_header : ∃ grants, (@grantSystem someImage).Runs ⟨.initial, []⟩ [16] grants ∧
    (@Grants.Safe someImage grants ↔
      ((@grantSystem someImage).restrict NoWrap).Runs ⟨.initial, []⟩ [16] grants) := by
  let _ := someImage
  have run : grantSystem.Runs ⟨.initial, []⟩ ([] ++ [16]) ⟨_, _⟩ :=
    .step (.initial rfl) ⟨by decide, _, _, rfl, rfl⟩
  exact ⟨_, run, (safe_iff_noWrap run).1⟩

/-- Eight bytes less than the whole address space are granted at index 72, and the
index moves back; one byte less than the address space is one unit, the header alone. -/
theorem wrapped_grant : (∃ grants,
    (@grantSystem someImage).Runs ⟨.initial, []⟩ [72, 2 ^ 64 - 8] grants ∧
      grants.arena.memoryIndex = 64 ∧ grants.ranges.length = 2 ∧ ¬@Grants.Safe someImage grants) ∧
    units (2 ^ 64 - 1) = 1 := by
  let _ := someImage
  have first : grantSystem.Runs ⟨.initial, []⟩ ([] ++ [72]) ⟨_, _⟩ :=
    .step (.initial rfl) ⟨by decide, _, _, rfl, rfl⟩
  have run := first.step (show grantSystem.Step _ (2 ^ 64 - 8) _ from
    ⟨by omega, _, _, (allocation_run _ _).trans (if_neg (by decide +kernel)), rfl⟩)
  have index : (0 + 72 + (2 ^ 64 - 8)) % 2 ^ 32 = 64 := by decide
  exact ⟨⟨_, run, index, rfl, fun safe => absurd safe.counted (by decide +kernel)⟩, by decide⟩

/-! ## Exhaustion -/

section Linked

variable [Linked]

/-- Serving `malloc nbytes` needs more of the static array than is left: nothing is found in
the list, and `allocation` cannot supply what `morecore` asks for. -/
def Exhausts (fuel nbytes : Nat) (arena : Arena) : Prop :=
  ∃ middle, (do prepare; search fuel (units nbytes)).run arena = .ok (none, middle) ∧
    alloc < (middle.memoryIndex + max (units nbytes) 4096 * headerSize % 2 ^ 64) % 2 ^ 64

/-- The exhaustion is reported: the call returns null, and the index and the headers are as before. -/
def Reports (fuel nbytes : Nat) (arena : Arena) : Prop :=
  ∃ after, (malloc fuel nbytes).run arena = .ok (0, after) ∧
    after.memoryIndex = arena.memoryIndex ∧ after.header = arena.header

/-- `morecore` writes the size of the new block through the null pointer that it was given. -/
theorem morecore_fault (arena : Arena) (fuel nu : Nat)
    (refused : alloc < (arena.memoryIndex + max nu 4096 * headerSize % 2 ^ 64) % 2 ^ 64) :
    (morecore fuel nu).run arena = .error .fault := by
  have null := (allocation_run (max nu 4096 * headerSize % 2 ^ 64) arena).trans (if_pos refused)
  exact run_bind_of_run null

theorem exhausted_fault (fuel nbytes : Nat) (arena : Arena) (exhausts : Exhausts fuel nbytes arena) :
    (malloc fuel nbytes).run arena = .error .fault ∧ ¬Reports fuel nbytes arena := by
  obtain ⟨middle, searched, refused⟩ := exhausts
  have faults : (malloc fuel nbytes).run arena = .error .fault := by
    rw [malloc, ← bind_assoc, run_bind_of_run searched]
    rcases present : middle.node with _ | ⟨address, node⟩
    · apply @run_bind_of_halt _ _ _ _ getNode _ _ _
      cases middle
      cases present
      rfl
    · have set : (setFreep node.tail).run middle = .ok ((), { middle with freep := node.tail }) := rfl
      refine (run_bind_of_run (getNode_run present)).trans ((run_bind_of_run set).trans ?_)
      exact run_bind_of_halt (morecore_fault _ fuel (units nbytes) refused)
  refine ⟨faults, ?_⟩
  rintro ⟨after, returned, -⟩
  cases faults.symm.trans returned

end Linked

theorem exhausts_megabyte : @Exhausts someImage 3 (2 ^ 20) .initial := by
  let _ := someImage
  have searched : ((do prepare; search 3 (units (2 ^ 20))).run .initial).toOption.map
      (fun result : Option Nat × Arena => (result.1, result.2.memoryIndex)) = some (none, 72) := by decide +kernel
  generalize outcome : (do prepare; search 3 (units (2 ^ 20))).run Arena.initial = result at searched
  rcases result with halt | ⟨found, middle⟩
  · cases searched
  obtain ⟨rfl, index⟩ := Prod.mk.inj (Option.some.inj searched)
  exact ⟨middle, outcome, by rw [index]; decide⟩

theorem exhausted_fault_megabyte : (@malloc someImage 3 (2 ^ 20)).run .initial = .error .fault :=
  (@exhausted_fault someImage 3 (2 ^ 20) .initial exhausts_megabyte).1

/-- The very first request, for a megabyte, is not answered. -/
theorem megabyte_unreported : @Exhausts someImage 3 (2 ^ 20) .initial ∧
    ¬@Reports someImage 3 (2 ^ 20) .initial := by
  refine ⟨exhausts_megabyte, ?_⟩
  rintro ⟨after, returned, -⟩
  have halted : ((@malloc someImage 3 (2 ^ 20)).run .initial).toOption.isSome = false := by
    decide +kernel
  rw [returned] at halted
  cases halted

end Xv6.Malloc
