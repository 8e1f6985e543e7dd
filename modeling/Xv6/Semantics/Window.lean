import Mathlib.Algebra.Group.Basic
import Mathlib.Data.BitVec
import Mathlib.Data.List.Range
import Mathlib.Logic.Function.Basic

/-!
# Windows of a circular buffer

A circular buffer that is addressed by free-running counters: a counter is reduced
modulo the size of the buffer only when a slot is read or written, and the counters
themselves wrap at a power of two of which the size is a divisor. What lies between
two counters is a list; moving one of the counters by one adds or removes an element
at an end of the list.
-/

namespace Xv6.Semantics

open Function

universe u

variable {α : Type u} {n w : Nat} [NeZero n]

/-- The slot that a counter addresses. -/
def slotOf (n : Nat) [NeZero n] (counter : BitVec w) : Fin n := Fin.ofNat n counter.toNat

/-- The number of steps from one counter to another. -/
def gap (first last : BitVec w) : Nat := (last - first).toNat

/-- The elements of a number of slots, from a counter on. -/
def window (data : Fin n → α) (first : BitVec w) (count : Nat) : List α :=
  (List.range count).map fun i => data (slotOf n (first + BitVec.ofNat w i))

section Gap

variable {first last : BitVec w}

theorem gap_lt (first last : BitVec w) : gap first last < 2 ^ w := (last - first).isLt

theorem add_gap (first last : BitVec w) : first + BitVec.ofNat w (gap first last) = last := by
  rw [gap, BitVec.ofNat_toNat, BitVec.setWidth_eq]
  exact add_sub_cancel first last

theorem gap_add (first : BitVec w) {count : Nat} (small : count < 2 ^ w) :
    gap first (first + BitVec.ofNat w count) = count := by
  rw [gap, add_sub_cancel_left, BitVec.toNat_ofNat, Nat.mod_eq_of_lt small]

theorem gap_self (first : BitVec w) : gap first first = 0 := by
  rw [gap, sub_self]
  exact BitVec.toNat_zero

theorem gap_eq_zero : gap first last = 0 ↔ first = last := by
  constructor
  · intro zero
    rw [← add_gap first last, zero]
    exact (add_zero first).symm
  · rintro rfl
    exact gap_self first

theorem gap_eq_iff {count : Nat} (small : count < 2 ^ w) :
    gap first last = count ↔ last = first + BitVec.ofNat w count := by
  constructor
  · rintro rfl
    exact (add_gap first last).symm
  · rintro rfl
    exact gap_add first small

theorem gap_of_le {middle : BitVec w} (less : gap first middle ≤ gap first last) :
    gap middle last = gap first last - gap first middle := by
  have bound := gap_lt first last
  apply (gap_eq_iff (by omega)).mpr
  have split : BitVec.ofNat w (gap first last) =
      BitVec.ofNat w (gap first middle) + BitVec.ofNat w (gap first last - gap first middle) := by
    rw [← BitVec.ofNat_add, Nat.add_sub_of_le less]
  have whole := add_gap first last
  rw [split, ← add_assoc, add_gap] at whole
  exact whole.symm

theorem gap_succ_last (small : gap first last + 1 < 2 ^ w) :
    gap first (last + 1) = gap first last + 1 := by
  apply (gap_eq_iff small).mpr
  rw [BitVec.ofNat_add, ← add_assoc, add_gap]
  rfl

theorem gap_pred_last (ne : first ≠ last) : gap first (last - 1) + 1 = gap first last := by
  have positive : gap first last ≠ 0 := fun zero => ne (gap_eq_zero.mp zero)
  have bound := gap_lt first last
  have moved : gap first (last - 1) = gap first last - 1 := by
    apply (gap_eq_iff (by omega)).mpr
    apply sub_eq_of_eq_add
    have split : BitVec.ofNat w (gap first last) =
        BitVec.ofNat w (gap first last - 1) + BitVec.ofNat w 1 := by
      rw [← BitVec.ofNat_add, Nat.sub_add_cancel (Nat.pos_of_ne_zero positive)]
    have whole := add_gap first last
    rw [split, ← add_assoc] at whole
    exact whole.symm
  omega

theorem gap_succ_first (ne : first ≠ last) : gap (first + 1) last + 1 = gap first last := by
  have moved := gap_pred_last ne
  have same : gap (first + 1) last = gap first (last - 1) := by
    rw [gap, gap, sub_sub, add_comm 1 first]
  rw [same]
  exact moved

end Gap

section Window

variable {data : Fin n → α} {first : BitVec w} {count : Nat}

theorem slotOf_add (divides : n ∣ 2 ^ w) (first : BitVec w) (i : Nat) :
    slotOf n (first + BitVec.ofNat w i) = Fin.ofNat n (first.toNat + i) := by
  apply Fin.ext
  change (first + BitVec.ofNat w i).toNat % n = (first.toNat + i) % n
  rw [BitVec.toNat_add, BitVec.toNat_ofNat, Nat.add_mod_mod, Nat.mod_mod_of_dvd _ divides]

/-- The slots of a window that is not larger than the buffer are different. -/
theorem slotOf_add_ne (divides : n ∣ 2 ^ w) (first : BitVec w) {i j : Nat} (less : i < j)
    (small : j < i + n) :
    slotOf n (first + BitVec.ofNat w i) ≠ slotOf n (first + BitVec.ofNat w j) := by
  rw [slotOf_add divides, slotOf_add divides]
  intro same
  have congruent : (first.toNat + i) % n = (first.toNat + j) % n := congrArg Fin.val same
  have multiple : n ∣ (first.toNat + j) - (first.toNat + i) :=
    (Nat.modEq_iff_dvd' (by omega)).mp congruent
  have distance := Nat.le_of_dvd (by omega) multiple
  omega

@[simp] theorem length_window (data : Fin n → α) (first : BitVec w) (count : Nat) :
    (window data first count).length = count := by
  simp [window]

theorem window_succ : window data first (count + 1) =
    window data first count ++ [data (slotOf n (first + BitVec.ofNat w count))] := by
  simp [window, List.range_succ]

theorem window_succ_first :
    window data first (count + 1) = data (slotOf n first) :: window data (first + 1) count := by
  rw [window, List.range_succ_eq_map, List.map_cons, List.map_map]
  congr 1
  · rw [show BitVec.ofNat w 0 = 0 from rfl, add_zero]
  apply List.map_congr_left
  intro i _
  have next : first + BitVec.ofNat w (i + 1) = first + 1 + BitVec.ofNat w i := by
    rw [BitVec.ofNat_add, add_comm (BitVec.ofNat w i), ← add_assoc]
    rfl
  simp only [Function.comp_apply, Nat.succ_eq_add_one, next]

theorem window_update (divides : n ∣ 2 ^ w) (room : count < n) (x : α) :
    window (update data (slotOf n (first + BitVec.ofNat w count)) x) first count =
      window data first count := by
  apply List.map_congr_left
  intro i mem
  have less := List.mem_range.mp mem
  exact update_of_ne (slotOf_add_ne divides first less (by omega)) ..

theorem window_push (divides : n ∣ 2 ^ w) (room : count < n) (x : α) :
    window (update data (slotOf n (first + BitVec.ofNat w count)) x) first (count + 1) =
      window data first count ++ [x] := by
  rw [window_succ, window_update divides room, update_self]

/-- An element is stored between two counters, and the last one moves on. -/
theorem window_gap_push {last : BitVec w} (divides : n ∣ 2 ^ w) (small : n < 2 ^ w)
    (room : gap first last < n) (x : α) :
    window (update data (slotOf n last) x) first (gap first (last + 1)) =
      window data first (gap first last) ++ [x] := by
  have pushed : window (update data (slotOf n (first + BitVec.ofNat w (gap first last))) x)
      first (gap first last + 1) = _ := window_push divides room x
  rw [add_gap] at pushed
  rw [gap_succ_last (by omega), pushed]

theorem window_gap_pop {last : BitVec w} (ne : first ≠ last) :
    window data first (gap first last) =
      data (slotOf n first) :: window data (first + 1) (gap (first + 1) last) := by
  rw [← gap_succ_first ne, window_succ_first]

end Window
end Xv6.Semantics
