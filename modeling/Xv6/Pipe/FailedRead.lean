import Xv6.Pipe.Transfer

/-!
# `piperead` into memory that is not mapped

The second loop of `piperead` with its `copyout` of one byte, which fails at the addresses
that the page table does not map. The byte has been taken from the pipe by then.
-/

namespace Xv6.Pipes

open Function Xv6.Semantics

variable {α : Type}

/-- The second loop of `piperead`, with `n` iterations to go: the pipe, the user's memory
and the value of `i` at its end. -/
def copyLoop (mapped : Nat → Bool) (addr : Nat) :
    (n : Nat) → Pipe α → (Nat → α) → (i : Nat) → Pipe α × (Nat → α) × Nat
  | 0, pi, memory, i => (pi, memory, i)
  | n + 1, pi, memory, i =>
    if pi.nread = pi.nwrite then (pi, memory, i)
    else
      let ch := pi.data (slotOf pipeSize pi.nread)
      let pi := { pi with nread := pi.nread + 1 }
      let address := (addr + i) % 2 ^ 64
      if mapped address then copyLoop mapped addr n pi (update memory address ch) (i + 1)
      else (pi, memory, i)

/-- `piperead` once it has left its first loop, which is where it can return -1. -/
def piperead (mapped : Nat → Bool) (pi : Pipe α) (memory : Nat → α) (addr : Nat) (n : Int) :
    Pipe α × (Nat → α) × Nat :=
  copyLoop mapped addr n.toNat pi memory 0

/-- The bytes in a pipe. -/
def Pipe.queue (pi : Pipe α) : List α := window pi.data pi.nread (gap pi.nread pi.nwrite)

/-- Exactly the bytes that `piperead` has counted have been removed. -/
def RemovesReturned (mapped : Nat → Bool) (pi : Pipe α) (memory : Nat → α) (addr : Nat)
    (n : Int) : Prop :=
  let result := piperead mapped pi memory addr n
  result.2.2 ≤ pi.queue.length ∧ result.1.queue = pi.queue.drop result.2.2

/-- The loop stops at the first address that is not mapped, one byte too late. -/
theorem copyLoop_stops (mapped : Nat → Bool) (addr n : Nat) (pi : Pipe α) (memory : Nat → α)
    (i : Nat) : ∃ k, (copyLoop mapped addr n pi memory i).2.2 = i + k ∧
      (∀ j < k, mapped ((addr + (i + j)) % 2 ^ 64) = true) ∧
      ((k = min n pi.queue.length ∧
          (copyLoop mapped addr n pi memory i).1.queue = pi.queue.drop k) ∨
        (k < min n pi.queue.length ∧ mapped ((addr + (i + k)) % 2 ^ 64) = false ∧
          (copyLoop mapped addr n pi memory i).1.queue = pi.queue.drop (k + 1))) := by
  induction n generalizing pi memory i with
  | zero => exact ⟨0, rfl, by simp, .inl ⟨by simp, rfl⟩⟩
  | succ n ih =>
    rw [copyLoop]
    by_cases empty : pi.nread = pi.nwrite
    · have nothing : pi.queue = [] := by rw [Pipe.queue, empty, gap_self]; rfl
      rw [if_pos empty, nothing]
      exact ⟨0, rfl, by simp, .inl ⟨by simp, rfl⟩⟩
    · obtain ⟨rest, rest_eq⟩ : ∃ rest, rest = { pi with nread := pi.nread + 1 } := ⟨_, rfl⟩
      have pops : pi.queue = pi.data (slotOf pipeSize pi.nread) :: rest.queue := by
        rw [rest_eq]
        exact window_gap_pop empty
      simp only [if_neg empty, ← rest_eq]
      rw [pops, List.length_cons]
      cases here : mapped ((addr + i) % 2 ^ 64) with
      | false => exact ⟨0, rfl, by simp, .inr ⟨by omega, here, rfl⟩⟩
      | true =>
        obtain ⟨k, count, before, ends⟩ := ih rest
          (update memory ((addr + i) % 2 ^ 64) (pi.data (slotOf pipeSize pi.nread))) (i + 1)
        simp only [if_true]
        refine ⟨k + 1, by omega, fun j less => ?_, ends.imp ?_ ?_⟩
        · cases j with
          | zero => exact here
          | succ j =>
            rw [show i + (j + 1) = i + 1 + j by omega]
            exact before j (by omega)
        · rintro ⟨all, removed⟩
          exact ⟨by omega, removed⟩
        · rintro ⟨less, unmapped, removed⟩
          rw [show i + (k + 1) = i + 1 + k by omega]
          exact ⟨by omega, unmapped, removed⟩

/-- `piperead` removes what it returns exactly if the memory for it is mapped. -/
theorem piperead_exact_iff (mapped : Nat → Bool) (pi : Pipe α) (memory : Nat → α) (addr : Nat)
    (n : Int) : RemovesReturned mapped pi memory addr n ↔
      ∀ i < min n.toNat pi.queue.length, mapped ((addr + i) % 2 ^ 64) = true := by
  obtain ⟨k, count, before, ends⟩ := copyLoop_stops mapped addr n.toNat pi memory 0
  simp only [Nat.zero_add] at count before ends
  simp only [RemovesReturned, piperead, count]
  rcases ends with ⟨all, removed⟩ | ⟨less, unmapped, removed⟩
  · exact ⟨fun _ => all ▸ before, fun _ => ⟨by omega, removed⟩⟩
  · constructor
    · rintro ⟨_, exactly⟩
      have lengths := congrArg List.length (removed.symm.trans exactly)
      simp only [List.length_drop] at lengths
      omega
    · intro all
      rw [all k less] at unmapped
      cases unmapped

/-- Three bytes in a pipe, and a buffer of which nothing is mapped: `piperead` returns 0 and
the first byte is gone. -/
theorem piperead_loses_byte : ∃ pi : Pipe Nat, pi.queue = [1, 2, 3] ∧
    (piperead (fun _ => false) pi (fun _ => 0) 0 3).2.2 = 0 ∧
    (piperead (fun _ => false) pi (fun _ => 0) 0 3).1.queue = [2, 3] :=
  ⟨⟨fun i => i.val + 1, 0, 3, true, true⟩, by decide +kernel, by decide +kernel, by decide +kernel⟩

end Xv6.Pipes
