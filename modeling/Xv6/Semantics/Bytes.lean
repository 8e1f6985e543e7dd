import Mathlib.Algebra.Order.Ring.Int
import Mathlib.Data.Nat.Basic

/-!
# Bytes and little-endian words

A piece of memory is a function from addresses to bytes. `copy` moves a range of
bytes into it, and words are read from it and written to it with the least
significant byte first. The rules say what a copy and a written word change, and
that they change nothing else.
-/

namespace Xv6.Semantics

/-- Bytes by address, or by offset in an object. -/
abbrev Bytes := Nat → UInt8

/-- Move `count` bytes from the start of `source` to the address `start`. -/
def copy (target : Bytes) (start count : Nat) (source : Bytes) : Bytes := fun address =>
  if start ≤ address ∧ address < start + count then source (address - start) else target address

/-- The bytes from an address on. -/
def dropBytes (bytes : Bytes) (start : Nat) : Bytes := fun offset => bytes (start + offset)

/-- The little-endian word of `width` bytes at an address. -/
def word : (width : Nat) → Bytes → (start : Nat) → Nat
  | 0, _, _ => 0
  | width + 1, bytes, start => (bytes start).toNat + 256 * word width bytes (start + 1)

/-- The bytes of a number, the least significant first. -/
def wordBytes (value : Nat) : Bytes := fun offset => UInt8.ofNat (value / 256 ^ offset)

/-- Write a word of `width` bytes. -/
def setWord (width : Nat) (bytes : Bytes) (start value : Nat) : Bytes :=
  copy bytes start width (wordBytes value)

variable {target source bytes other : Bytes} {start count address width value : Nat}

theorem copy_inside (low : start ≤ address) (high : address < start + count) :
    copy target start count source address = source (address - start) :=
  if_pos ⟨low, high⟩

theorem copy_outside (outside : address < start ∨ start + count ≤ address) :
    copy target start count source address = target address :=
  if_neg fun inside => by omega

theorem copy_congr (same : ∀ offset < count, source offset = other offset) :
    copy target start count source = copy target start count other := by
  funext address
  rw [copy, copy]
  split
  case isTrue inside => exact same _ (by omega)
  case isFalse => rfl

theorem copy_copy (first rest : Nat) :
    copy (copy target start first source) (start + first) rest (dropBytes source first) =
      copy target start (first + rest) source := by
  funext address
  by_cases low : address < start + first
  · rw [copy_outside (.inl low)]
    by_cases inside : start ≤ address
    · rw [copy_inside inside low, copy_inside inside (by omega)]
    · rw [copy_outside (.inl (by omega)), copy_outside (.inl (by omega))]
  by_cases high : address < start + first + rest
  · rw [copy_inside (by omega) high, copy_inside (by omega) (by omega), dropBytes]
    congr 1
    omega
  · rw [copy_outside (.inr (by omega)), copy_outside (.inr (by omega)),
      copy_outside (.inr (by omega))]

theorem copy_zero : copy target start 0 source = target := by
  funext address
  exact copy_outside (by omega)

theorem dropBytes_dropBytes (first second : Nat) :
    dropBytes (dropBytes bytes first) second = dropBytes bytes (first + second) := by
  funext offset
  rw [dropBytes, dropBytes, dropBytes, Nat.add_assoc]

theorem copy_add (offset : Nat) (inside : offset < count) :
    copy target start count source (start + offset) = source offset := by
  rw [copy_inside (Nat.le_add_right _ _) (Nat.add_lt_add_left inside _), Nat.add_sub_cancel_left]

theorem word_congr {first second : Nat}
    (same : ∀ offset < width, bytes (first + offset) = other (second + offset)) :
    word width bytes first = word width other second := by
  induction width generalizing first second with
  | zero => rfl
  | succ width ih =>
    have rest : word width bytes (first + 1) = word width other (second + 1) := by
      apply ih
      intro offset inside
      have := same (offset + 1) (Nat.add_lt_add_right inside 1)
      rwa [Nat.add_right_comm, Nat.add_assoc, Nat.add_right_comm, Nat.add_assoc]
    rw [word, word, rest, show bytes first = other second from same 0 (Nat.succ_pos _)]

theorem word_dropBytes (width start offset : Nat) :
    word width bytes (start + offset) = word width (dropBytes bytes start) offset :=
  word_congr fun i _ => by rw [dropBytes, Nat.add_assoc]

theorem word_copy_inside (low : start ≤ address) (high : address + width ≤ start + count) :
    word width (copy target start count source) address = word width source (address - start) := by
  apply word_congr
  intro offset inside
  rw [copy_inside (by omega) (by omega)]
  congr 1
  omega

theorem word_copy_outside (outside : address + width ≤ start ∨ start + count ≤ address) :
    word width (copy target start count source) address = word width target address := by
  apply word_congr
  intro offset inside
  exact copy_outside (by omega)

theorem word_wordBytes (width value : Nat) :
    word width (wordBytes value) 0 = value % 256 ^ width := by
  induction width generalizing value with
  | zero => rw [word, Nat.pow_zero, Nat.mod_one]
  | succ width ih =>
    have rest : word width (wordBytes value) (0 + 1) = word width (wordBytes (value / 256)) 0 := by
      apply word_congr
      intro offset _
      rw [wordBytes, wordBytes, Nat.div_div_eq_div_mul, Nat.zero_add, Nat.zero_add,
        Nat.pow_add, Nat.pow_one]
    have first : (wordBytes value 0).toNat = value % 256 := by
      simp [wordBytes]
    rw [word, rest, ih, first, Nat.pow_succ', Nat.mod_mul]

theorem wordBytes_word {offset : Nat} (inside : offset < width) :
    wordBytes (word width bytes start) offset = bytes (start + offset) := by
  induction width generalizing start offset with
  | zero => omega
  | succ width ih =>
    have first := (bytes start).toNat_lt
    rw [wordBytes, word]
    cases offset with
    | zero =>
      rw [Nat.add_zero start]
      apply UInt8.toNat.inj
      rw [Nat.pow_zero, Nat.div_one, UInt8.toNat_ofNat']
      omega
    | succ offset =>
      have shifted : ((bytes start).toNat + 256 * word width bytes (start + 1)) /
          256 ^ (offset + 1) = word width bytes (start + 1) / 256 ^ offset := by
        rw [Nat.pow_succ', ← Nat.div_div_eq_div_mul]
        congr 1
        omega
      rw [shifted, ← wordBytes, ih (by omega)]
      congr 1
      omega

@[simp] theorem word_setWord_self :
    word width (setWord width bytes start value) start = value % 256 ^ width := by
  rw [setWord, word_copy_inside le_rfl le_rfl, Nat.sub_self, word_wordBytes]

theorem word_setWord_other {size place : Nat}
    (outside : address + width ≤ place ∨ place + size ≤ address) :
    word width (setWord size bytes place value) address = word width bytes address :=
  word_copy_outside outside

theorem word_eq_zero (zeros : ∀ offset < width, bytes (start + offset) = 0) :
    word width bytes start = 0 := by
  induction width generalizing start with
  | zero => rfl
  | succ width ih =>
    have rest : word width bytes (start + 1) = 0 := by
      apply ih
      intro offset inside
      have := zeros (offset + 1) (Nat.add_lt_add_right inside 1)
      rwa [Nat.add_assoc, Nat.add_comm 1]
    have first : bytes start = 0 := zeros 0 (Nat.succ_pos _)
    rw [word, rest, first]
    rfl

end Xv6.Semantics
