import Xv6.Memory.Isolation

/-!
# What `map_frames` maps

`map_frames` is meant to give a child seven frames: at `SHRIMP` the page that its
parent has at `FRY`, and at each of the seven addresses the page recorded in
`Shrimpy->pas`. It passes to `mappages` not the address of the frame but the
first word stored in it, which is the junk that `kalloc` fills a page with. So a
frame address translates to nothing or to the page that the junk happens to name,
and that page lies outside physical memory.
-/

namespace Xv6.Memory

open Xv6.Proc (Slot ProcState)
open Xv6.Semantics

/-- The physical page that the page table of `p` maps at a virtual address. -/
def translate (kernel : Kernel) (p : Slot) (va : Nat) : Option Nat :=
  (kernel.proc p).pagetable.bind fun pagetable =>
    if isValid (entry kernel.memory pagetable (va / pgsize)) then
      some (ptePage (entry kernel.memory pagetable (va / pgsize)))
    else none

/-- What is meant to hold when a `fork` of `p` has returned the child `np`. -/
structure FramesShared (boot kernel : Kernel) (p np : Slot) : Prop where
  shrimp : ∃ page, translate kernel np shrimp = some page ∧ translate kernel p fry = some page
  siblings : ∀ q, (kernel.proc q).parent = some p →
    translate kernel q Memory.shrimp = translate kernel np Memory.shrimp
  allocated : ∀ i, ∃ page ∈ boot.memory.freelist,
    kernel.pas i = some page ∧ translate kernel np (vas i) = some page

/-- The page that the junk names is above the end of physical memory. -/
theorem phystop_lt_framePte : phystop < ptePage framePte * pgsize := by
  decide +kernel

section Pool

variable [Image] {kernel : Kernel}

/-- A frame address translates to nothing or to the page that the junk names. -/
theorem Sound.translate_frame (sound : Sound pool kernel) (p : Slot) (i : Fin 7) :
    translate kernel p (vas i) = none ∨ translate kernel p (vas i) = some (ptePage framePte) := by
  rw [translate]
  cases table : (kernel.proc p).pagetable with
  | none => exact .inl rfl
  | some pagetable =>
    obtain ⟨trapframe, -, -, fixed⟩ := sound.memory.space table
    rw [Option.bind_some]
    rcases fixed.frames i with unmapped | mapped
    · rw [unmapped, isValid_zero]
      exact .inl rfl
    · have valid : isValid framePte = true := isValid_mkPte _ _
      rw [mapped, if_pos valid]
      exact .inr rfl

/-- In no state of a run, so in particular not when a `fork` returns, do the
frames of a process translate to the pages that were allocated for them. -/
theorem not_framesShared {boot : Kernel} {labels : List Label}
    (run : (system.restrict Coherent).Runs boot labels kernel) (p np : Slot) :
    ¬FramesShared boot kernel p np := by
  intro shared
  obtain ⟨pool, pages, sound⟩ := sound_of_runs run
  obtain ⟨page, free, -, mapped⟩ := shared.allocated 0
  have high := (pool.managed page (by rw [pages]; exact Multiset.mem_coe.mpr free)).2
  rcases sound.translate_frame np 0 with unmapped | junk
  · rw [mapped] at unmapped
    cases unmapped
  · rw [mapped] at junk
    cases junk
    exact absurd high (Nat.not_lt.mpr phystop_lt_framePte.le)

end Pool

/-- The first process forks once, and the fork returns. -/
def singleFork : List Label :=
  [.userinit fun _ => 0, .fork slot0] ++ List.replicate 32 (.resume slot0)

/-- After one fork the child has at `FRY` the page that the junk names, where
`Shrimpy->pas` records the page `0x8010e`. -/
theorem singleFork_ends : ∃ kernel,
    ((@system smallImage).restrict Coherent).Runs smallBoot singleFork kernel ∧
      (kernel.proc slot0).call = .idle ∧ (kernel.proc slot1).parent = some slot0 ∧
      kernel.pas 0 = some 0x8010e ∧ translate kernel slot1 fry = some 0x505050505050 :=
  TransitionSystem.exists_runs_restrict booted_smallBoot (by decide +kernel)

theorem not_framesShared_singleFork : ∃ kernel,
    ((@system smallImage).restrict Coherent).Runs smallBoot singleFork kernel ∧
      ¬FramesShared smallBoot kernel slot0 slot1 := by
  obtain ⟨kernel, run, -⟩ := singleFork_ends
  exact ⟨kernel, run, @not_framesShared smallImage _ _ _ run slot0 slot1⟩

theorem singleFork_maps_junk : ∃ kernel,
    (@system smallImage).Runs smallBoot singleFork kernel ∧
      (kernel.proc slot0).call = .idle ∧ (kernel.proc slot1).parent = some slot0 ∧
      ¬FramesShared smallBoot kernel slot0 slot1 := by
  obtain ⟨kernel, run, idle, parent, recorded, mapped⟩ := singleFork_ends
  refine ⟨kernel, run.unrestrict, idle, parent, fun shared => ?_⟩
  obtain ⟨page, -, isRecorded, isMapped⟩ := shared.allocated 0
  have differ : (0x8010e : Nat) = 0x505050505050 := by
    rw [recorded] at isRecorded
    rw [show vas 0 = fry from rfl, mapped] at isMapped
    exact Option.some.inj (isRecorded.trans isMapped.symm)
  exact absurd differ (by decide)

end Xv6.Memory
