import Xv6.Memory.Sbrk
import Xv6.Umalloc.Allocator

/-!
# How far `morecore` lets the process grow

`morecore` multiplies the units by the size of a header in 64 bits and passes the product
to `sbrk`, which takes an `int`. From 2 GiB on the number that arrives is another one:
`sbrk` shrinks the process, or does nothing, or adds one unit, and returns the old size
each time. `morecore` records the units it meant to ask for.
-/

namespace Xv6.Umalloc

open Xv6.Memory (Kernel K Image Space sysSbrk pages)
open Xv6.Proc (Slot)
open Xv6.Semantics

/-- From 2 GiB to 4 GiB a request arrives as a number that is not positive. -/
theorem sbrkArgument_nonpos (large : 2 ^ 31 ≤ headerSize * nu)
    (bound : headerSize * nu ≤ 2 ^ 32) : sbrkArgument nu ≤ 0 := by
  rw [sbrkArgument, BitVec.toInt_eq_toNat_cond, BitVec.toNat_ofNat]
  split <;> omega

/-- `morecore` asks for at least 4096 units, and never for more than 4 GiB and one unit. -/
theorem coreUnits_cases (nbytes : UInt32) :
    (nbytes.toNat ≤ 2 ^ 31 - 32 ∧ headerSize * coreUnits (unitsFor nbytes) < 2 ^ 31) ∨
      (2 ^ 31 - 32 < nbytes.toNat ∧ nbytes.toNat ≤ 2 ^ 32 - 16 ∧
        2 ^ 31 ≤ headerSize * coreUnits (unitsFor nbytes) ∧
        headerSize * coreUnits (unitsFor nbytes) ≤ 2 ^ 32) ∨
      (2 ^ 32 - 16 < nbytes.toNat ∧ coreUnits (unitsFor nbytes) = 2 ^ 28 + 1) := by
  have bound := nbytes.toNat_lt
  have units : unitsFor nbytes = (nbytes.toNat + 16 - 1) / 16 + 1 := rfl
  by_cases few : unitsFor nbytes < 4096
  · rw [coreUnits, if_pos few, headerSize]
    omega
  · rw [coreUnits, if_neg few, headerSize]
    omega

section Image

variable [Image]

/-- `morecore` on behalf of `malloc(nbytes)`, up to the header: where it is, and the
`s.size` it gets, unless `sbrk` has returned -1. -/
def requestCore (p : Slot) (nbytes : UInt32) : K (Option (Nat × Nat)) := do
  let nu := coreUnits (unitsFor nbytes)
  let address ← sysSbrk p (BitVec.ofNat 32 (headerSize * nu))
  if address = -1 then return none
  else return some (address.toNat, nu % 2 ^ 32)

/-- If `morecore` succeeds, the process has grown by what the new header records, from the
header on. -/
def GrowsAsRecorded (kernel : Kernel) (p : Slot) (nbytes : UInt32) : Prop :=
  Returns (requestCore p nbytes) kernel fun found next =>
    ∀ address size, found = some (address, size) →
      address = (kernel.proc p).sz ∧ (next.proc p).sz = address + size * headerSize

/-- The kernel has no memory for one more unit of the process. -/
def RefusesUnit (kernel : Kernel) (p : Slot) : Prop :=
  ∃ next, (sysSbrk p 16#32).run kernel = .ok (-1, next)

section

variable
  (ran : (sysSbrk p (BitVec.ofNat 32 (headerSize * coreUnits (unitsFor nbytes)))).run kernel = .ok (value, next))
include ran

theorem requestCore_run :
    (requestCore p nbytes).run kernel =
      .ok (if value = -1 then none
        else some (value.toNat, coreUnits (unitsFor nbytes) % 2 ^ 32), next) := by
  have opened : (requestCore p nbytes).run kernel =
      (sysSbrk p (BitVec.ofNat 32 (headerSize * coreUnits (unitsFor nbytes)))).run kernel >>=
        fun result => (if result.1 = -1 then return none
          else return some (result.1.toNat, coreUnits (unitsFor nbytes) % 2 ^ 32) :
          K (Option (Nat × Nat))).run result.2 := rfl
  rw [opened, ran]
  show StateT.run (ite _ _ _) next = _
  split <;> rfl

theorem growsAsRecorded_iff_of_run :
    GrowsAsRecorded kernel p nbytes ↔ value = -1 ∨ (value.toNat = (kernel.proc p).sz ∧
      (next.proc p).sz = value.toNat + coreUnits (unitsFor nbytes) * headerSize) := by
  have small : coreUnits (unitsFor nbytes) % 2 ^ 32 = coreUnits (unitsFor nbytes) := by
    have cases := coreUnits_cases nbytes
    simp only [headerSize] at cases
    omega
  have core := requestCore_run ran
  constructor
  · intro grows
    have grown := grows.of_run core
    by_cases failed : value = -1
    · exact .inl failed
    · rw [if_neg failed] at grown
      have recorded := grown _ _ rfl
      rw [small] at recorded
      exact .inr recorded
  intro outcome
  refine ⟨_, _, core, fun address size found => ?_⟩
  split at found
  · cases found
  · rename_i succeeded
    cases found
    rw [small]
    exact outcome.resolve_left succeeded

end

variable {pool : Memory.PagePool} {kernel : Kernel} {p : Slot} {pagetable : Nat}
  {held : Multiset Nat}

/-- The process grows by what `morecore` records if and only if the request is at most
2 GiB - 32 bytes, or so close to 4 GiB that one unit is asked for and refused. -/
theorem growsAsRecorded_iff (table : (kernel.proc p).pagetable = some pagetable)
    (space : Space pool kernel.memory pagetable (Finset.range (pages (kernel.proc p).sz)) held)
    (nbytes : UInt32) :
    GrowsAsRecorded kernel p nbytes ↔
      nbytes.toNat ≤ 2 ^ 31 - 32 ∨ (2 ^ 32 - 16 < nbytes.toNat ∧ RefusesUnit kernel p) := by
  obtain ⟨value, next, ran, outcome⟩ := Memory.sysSbrk_returns table space
    (BitVec.ofNat 32 (headerSize * coreUnits (unitsFor nbytes)))
  rw [growsAsRecorded_iff_of_run ran]
  rw [← sbrkArgument] at outcome
  rcases coreUnits_cases nbytes with ⟨small, fits⟩ | ⟨past, under, large, bound⟩ | ⟨past, units⟩
  · -- the request arrives as it is
    have argument := sbrkArgument_of_lt fits
    refine iff_of_true ?_ (.inl small)
    rcases outcome with ⟨rfl, -, moved⟩ | ⟨failed, -⟩ | ⟨-, negative, -⟩
    · have size := moved.size
      simp only [headerSize] at argument ⊢
      omega
    · exact .inl failed
    · omega
  · -- the process does not grow at all, and `sbrk` succeeds
    have argument := sbrkArgument_nonpos large bound
    simp only [headerSize] at large ⊢
    rcases outcome with ⟨rfl, -, moved⟩ | ⟨-, positive, -⟩ | ⟨rfl, -, size⟩
    · have size := moved.size
      omega
    · omega
    · omega
  -- one unit is asked for
  have one : BitVec.ofNat 32 (headerSize * coreUnits (unitsFor nbytes)) = 16#32 := by
    rw [units]
    decide
  have argument : sbrkArgument (coreUnits (unitsFor nbytes)) = 16 := by
    rw [sbrkArgument, one]
    decide
  rw [one] at ran
  constructor
  · intro grown
    refine .inr ⟨past, next, ?_⟩
    rcases outcome with ⟨rfl, -, moved⟩ | ⟨rfl, -⟩ | ⟨-, negative, -⟩
    · have size := moved.size
      simp only [headerSize] at grown
      omega
    · exact ran
    · omega
  rintro (small | ⟨-, refused, failed⟩)
  · omega
  · rw [failed] at ran
    cases ran
    exact .inl rfl

end Image

open Xv6.Memory (smallImage smallBoot booted_smallBoot slot0 Coherent)

/-- The first process calls `malloc(100)`. -/
theorem growsAsRecorded_firstProcess : ∃ kernel,
    ((@Memory.system smallImage).restrict Coherent).Runs smallBoot [.userinit fun _ => 0] kernel ∧
      @GrowsAsRecorded smallImage kernel slot0 100 := by
  let _ : Image := smallImage
  obtain ⟨kernel, run, table⟩ : ∃ kernel,
      (Memory.system.restrict Coherent).Runs smallBoot [.userinit fun _ => 0] kernel ∧
      (kernel.proc slot0).pagetable = some 524545 :=
    TransitionSystem.exists_runs_restrict booted_smallBoot (by decide +kernel)
  obtain ⟨pool, -, sound⟩ := Memory.sound_of_runs run
  obtain ⟨trapframe, -, space, -⟩ := sound.memory.space table
  exact ⟨kernel, run, (growsAsRecorded_iff table space 100).mpr (.inl (by decide))⟩

/-- The first process, of 4096 bytes, calls `malloc(2147483648)`: `morecore` gets the address
4096 and records 134217729 units there, and the process still has 4096 bytes. -/
theorem morecore_records_what_is_not_there : ∃ kernel,
    (@Memory.system smallImage).Runs smallBoot [.userinit fun _ => 0] kernel ∧
      (kernel.proc slot0).sz = 4096 ∧
      ((@requestCore smallImage slot0 2147483648).run kernel).toOption.map
        (fun result => (result.1, (result.2.proc slot0).sz)) =
        some (some (4096, 134217729), 4096) ∧
      ¬@GrowsAsRecorded smallImage kernel slot0 2147483648 := by
  let _ : Image := smallImage
  obtain ⟨kernel, run, size, outcome⟩ : ∃ kernel,
      Memory.system.Runs smallBoot [.userinit fun _ => 0] kernel ∧ (kernel.proc slot0).sz = 4096 ∧
      ((requestCore slot0 2147483648).run kernel).toOption.map
        (fun result => (result.1, (result.2.proc slot0).sz)) =
        some (some (4096, 134217729), 4096) :=
    TransitionSystem.exists_runs booted_smallBoot (by decide +kernel)
  refine ⟨kernel, run, size, outcome, ?_⟩
  rintro ⟨found, next, ran, grown⟩
  rw [ran] at outcome
  obtain ⟨answer, still⟩ := Prod.mk.inj (Option.some.inj outcome)
  have recorded := (grown _ _ answer).2
  rw [still] at recorded
  exact absurd recorded (by decide)

end Xv6.Umalloc
