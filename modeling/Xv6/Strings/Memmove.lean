import Mathlib.Logic.Function.Basic
import Xv6.Semantics.Bytes

/-!
# The two `memmove`s

The kernel copies downwards only where an upward copy would overwrite its source, the user
library whenever the source is not above the destination. Pointers are 64 bits wide: one
step behind the last byte of memory they are 0, and no loop goes on from there.
-/

namespace Xv6.Strings

open Xv6.Semantics Function

/-- `p + n` on pointers. -/
def offset (p : Nat) (n : Int) : Nat := ((p + n) % 2 ^ 64).toNat

/-- `while(n-- > 0) *d++ = *s++;`. -/
def copyUp : (n : Nat) → Bytes → (d s : Nat) → Bytes
  | 0, memory, _, _ => memory
  | n + 1, memory, d, s => copyUp n (update memory d (memory s)) (offset d 1) (offset s 1)

/-- `while(n-- > 0) *--d = *--s;`. -/
def copyDown : (n : Nat) → Bytes → (d s : Nat) → Bytes
  | 0, memory, _, _ => memory
  | n + 1, memory, d, s =>
    copyDown n (update memory (offset d (-1)) (memory (offset s (-1)))) (offset d (-1)) (offset s (-1))

/-- `memmove` of the kernel. -/
def memmove (memory : Bytes) (dst src n : Nat) : Bytes :=
  if n = 0 then memory
  else if src < dst ∧ offset src n > dst then copyDown n memory (offset dst n) (offset src n)
  else copyUp n memory dst src

/-- `memmove` of the user library, where `n` is an `int`. -/
def Ulib.memmove (memory : Bytes) (dst src : Nat) (n : Int) : Bytes :=
  if src > dst then copyUp n.toNat memory dst src
  else copyDown n.toNat memory (offset dst n) (offset src n)

/-- The range holds what was in the source, and nothing else has changed. -/
structure Moved (memory : Bytes) (dst src n : Nat) (result : Bytes) : Prop where
  inside : ∀ i < n, result (dst + i) = memory (src + i)
  outside : ∀ address, address < dst ∨ dst + n ≤ address → result address = memory address

section Loops

variable {memory : Bytes} {dst src d s n : Nat}

theorem moved_zero : Moved memory dst src 0 memory :=
  ⟨fun i less => absurd less (Nat.not_lt_zero i), fun _ _ => rfl⟩

/-- The first byte is copied before the others, none of which it is. -/
theorem Moved.first {result : Bytes} (apart : dst ≤ src ∨ src + n < dst)
    (rest : Moved (update memory dst (memory src)) (dst + 1) (src + 1) n result) :
    Moved memory dst src (n + 1) result := by
  constructor
  · intro i less
    cases i with
    | zero => exact (rest.outside dst (.inl (Nat.lt_succ_self dst))).trans (update_self ..)
    | succ i =>
      rw [← Nat.succ_add_eq_add_succ, ← Nat.succ_add_eq_add_succ]
      exact (rest.inside i (by omega)).trans (update_of_ne (by omega) ..)
  · intro address out
    exact (rest.outside address (by omega)).trans (update_of_ne (by omega) ..)

/-- The last byte is copied before the others, none of which it is. -/
theorem Moved.last {result : Bytes} (below : src ≤ dst)
    (rest : Moved (update memory (dst + n) (memory (src + n))) dst src n result) :
    Moved memory dst src (n + 1) result := by
  constructor
  · intro i less
    rcases Nat.lt_succ_iff_lt_or_eq.mp less with less | rfl
    · exact (rest.inside i less).trans (update_of_ne (by omega) ..)
    · exact (rest.outside (dst + i) (.inr (Nat.le_refl _))).trans (update_self ..)
  · intro address out
    exact (rest.outside address (by omega)).trans (update_of_ne (by omega) ..)

theorem copyUp_moved (atDst : d = dst % 2 ^ 64) (atSrc : s = src % 2 ^ 64)
    (into : dst + n ≤ 2 ^ 64) (outOf : src + n ≤ 2 ^ 64) (apart : dst ≤ src ∨ src + n ≤ dst) :
    Moved memory dst src n (copyUp n memory d s) := by
  induction n generalizing memory d s dst src with
  | zero => exact moved_zero
  | succ n ih =>
    obtain rfl : d = dst := by omega
    obtain rfl : s = src := by omega
    apply Moved.first (by omega)
    apply ih _ _ (by omega) (by omega) (by omega)
    · unfold offset
      omega
    · unfold offset
      omega

theorem copyDown_moved (atDst : d = (dst + n) % 2 ^ 64) (atSrc : s = (src + n) % 2 ^ 64)
    (into : dst + n ≤ 2 ^ 64) (outOf : src + n ≤ 2 ^ 64) (below : src ≤ dst) :
    Moved memory dst src n (copyDown n memory d s) := by
  induction n generalizing memory d s with
  | zero => exact moved_zero
  | succ n ih =>
    have backDst : offset d (-1) = dst + n := by
      unfold offset
      omega
    have backSrc : offset s (-1) = src + n := by
      unfold offset
      omega
    rw [copyDown, backDst, backSrc]
    apply Moved.last below
    exact ih (by omega) (by omega) (by omega) (by omega)

end Loops

theorem memmove_moved (memory : Bytes) {dst src : Nat} {n : Int}
    (into : dst + n.toNat ≤ 2 ^ 64) (outOf : src + n.toNat ≤ 2 ^ 64) :
    Moved memory dst src n.toNat (memmove memory dst src n.toNat) ∧
      Moved memory dst src n.toNat (Ulib.memmove memory dst src n) := by
  by_cases none : n.toNat = 0
  · unfold memmove Ulib.memmove
    rw [none]
    exact ⟨moved_zero, by split <;> exact moved_zero⟩
  have positive : n = n.toNat := by omega
  constructor
  · rw [memmove, if_neg none]
    split
    case isTrue overlaps =>
      exact copyDown_moved (by unfold offset; omega) (by unfold offset; omega) into outOf
        (Nat.le_of_lt overlaps.1)
    case isFalse apart =>
      -- The end of a source below the destination does not wrap, so the comparison is exact.
      unfold offset at apart
      exact copyUp_moved (by omega) (by omega) into outOf (by omega)
  · unfold Ulib.memmove
    split
    case isTrue above => exact copyUp_moved (by omega) (by omega) into outOf (by omega)
    case isFalse below =>
      exact copyDown_moved (by unfold offset; omega) (by unfold offset; omega) into outOf (by omega)

/-- Three bytes are moved up by one. -/
theorem memmove_moved_overlap : Moved (fun a => UInt8.ofNat a) 1 0 3
      (memmove (fun a => UInt8.ofNat a) 1 0 3) ∧
    Moved (fun a => UInt8.ofNat a) 1 0 3 (Ulib.memmove (fun a => UInt8.ofNat a) 1 0 3) :=
  memmove_moved (fun a => UInt8.ofNat a) (n := 3) (by decide) (by decide)

end Xv6.Strings
