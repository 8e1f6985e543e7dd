import Mathlib.Algebra.Order.Ring.Nat

/-!
# The loop of `cp` and `touch`

Both programs read and write until `read` returns 0, and keep the results of the calls in
unsigned variables. A failed read is a large number of bytes; the write of it, which fails
as well, returns the same number, and the loop goes on.
-/

namespace Xv6.Copying

/-- `sizeof(buffer)`. -/
def bufferSize : Nat := 512

/-- What a call returns, a count or -1, as an `unsigned int`. -/
def unsigned : Option Nat → Nat
  | some n => n
  | none => 2 ^ 32 - 1

/-- What `read` and `write` return in one round. -/
abbrev Round := Option Nat × Option Nat

/-- The loop from round `i` on: the round in which it ends, and the exit status. After the
loop `bytes_read < 0` never holds, and `main` calls `exit(0)`. -/
def loop (rounds : Nat → Round) : (fuel i : Nat) → Option (Nat × Nat)
  | 0, _ => none
  | fuel + 1, i =>
    if unsigned (rounds i).1 = 0 then some (i, 0)
    else if unsigned (rounds i).2 ≠ unsigned (rounds i).1 then some (i, 1)
    else loop rounds fuel (i + 1)

/-- The write is one of another length than the read. -/
def Round.Differs (round : Round) : Prop :=
  unsigned round.1 ≠ 0 ∧ unsigned round.2 ≠ unsigned round.1

/-- The loop goes on after the round. -/
def Round.Passes (round : Round) : Prop :=
  unsigned round.1 ≠ 0 ∧ unsigned round.2 = unsigned round.1

/-- The loop ends in the round. -/
def Round.Ends (round : Round) (status : Nat) : Prop :=
  status = 0 ∧ unsigned round.1 = 0 ∨ status = 1 ∧ round.Differs

theorem loop_of_ends {rounds : Nat → Round} {n i status : Nat}
    (passes : ∀ j < n, (rounds (i + j)).Passes) (ends : (rounds (i + n)).Ends status) :
    loop rounds (n + 1) i = some (i + n, status) := by
  induction n generalizing i with
  | zero =>
    rw [loop]
    rcases ends with ⟨rfl, zero⟩ | ⟨rfl, nonzero, other⟩
    · exact if_pos zero
    · exact (if_neg nonzero).trans (if_pos other)
  | succ n ih =>
    have first : (rounds i).Passes := passes 0 (Nat.succ_pos n)
    rw [loop, if_neg first.1, if_neg (not_not.mpr first.2), ih, Nat.succ_add_eq_add_succ]
    · exact fun j less => Nat.succ_add_eq_add_succ i j ▸ passes (j + 1) (by omega)
    · exact Nat.succ_add_eq_add_succ i n ▸ ends

theorem ends_of_loop {rounds : Nat → Round} {fuel i k status : Nat}
    (ended : loop rounds fuel i = some (k, status)) :
    i ≤ k ∧ (∀ j, i ≤ j → j < k → (rounds j).Passes) ∧ (rounds k).Ends status := by
  induction fuel generalizing i with
  | zero => cases ended
  | succ fuel ih =>
    rw [loop] at ended
    split at ended
    case isTrue zero =>
      cases ended
      exact ⟨Nat.le_refl _, fun j low high => by omega, .inl ⟨rfl, zero⟩⟩
    case isFalse nonzero =>
      split at ended
      case isTrue other =>
        cases ended
        exact ⟨Nat.le_refl _, fun j low high => by omega, .inr ⟨rfl, nonzero, other⟩⟩
      case isFalse same =>
        obtain ⟨later, passes, ends⟩ := ih ended
        refine ⟨by omega, fun j low high => ?_, ends⟩
        by_cases first : j = i
        · exact first ▸ ⟨nonzero, not_not.mp same⟩
        · exact passes j (by omega) high

/-- The loop ends in the first round that does not pass, if there is one. -/
theorem loop_iff (rounds : Nat → Round) (k status : Nat) :
    (∃ fuel, loop rounds fuel 0 = some (k, status)) ↔
      (∀ j < k, (rounds j).Passes) ∧ (rounds k).Ends status := by
  constructor
  · rintro ⟨fuel, ended⟩
    obtain ⟨-, passes, ends⟩ := ends_of_loop ended
    exact ⟨fun j less => passes j (Nat.zero_le j) less, ends⟩
  · rintro ⟨passes, ends⟩
    have ended : loop rounds (k + 1) 0 = some (0 + k, status) :=
      loop_of_ends (by simpa using passes) (by simpa using ends)
    exact ⟨k + 1, by simpa using ended⟩

/-! ## `cp` -/

section Cp

variable {α : Type} (source : List α) (choices : Nat → Round)

/-- The count of bytes read, of which the kernel chooses how many of those that are asked
for and left it returns. -/
def readCount (left : List α) (choice : Option Nat) : Option Nat :=
  choice.map fun n => min n (min bufferSize left.length)

/-- The count of bytes written, where -1 of them are none. -/
def writeCount (read choice : Option Nat) : Option Nat := choice.map fun n => min n (read.getD 0)

/-- What is left of the source before round `i`, and what is in the destination. -/
def files : Nat → List α × List α
  | 0 => (source, [])
  | i + 1 =>
    let n := (readCount (files i).1 (choices i).1).getD 0
    ((files i).1.drop n, (files i).2 ++ (files i).1.take n)

/-- The results of `read` and `write` in round `i`. -/
def results (i : Nat) : Round :=
  let read := readCount (files source choices i).1 (choices i).1
  (read, writeCount read (choices i).2)

/-- `cp` ends, with status 0 only if it has copied everything, and with status 1 after a read
that failed or a write that failed or was short. -/
def Copies : Prop :=
  ∃ fuel k status, loop (results source choices) fuel 0 = some (k, status) ∧
    (status = 0 → (files source choices k).2 = source) ∧
    ((∃ i ≤ k, (results source choices i).1 = none ∨ (results source choices i).Differs) →
      status = 1)

theorem files_append (i : Nat) :
    (files source choices i).2 ++ (files source choices i).1 = source := by
  induction i with
  | zero => rfl
  | succ i ih => rw [files, List.append_assoc, List.take_append_drop, ih]

/-- `cp` does what is expected of it if and only if it comes to a write of another length than
the read, or to the end of the source without a failed read. -/
theorem copies_iff : Copies source choices ↔
    ∃ k, (∀ i < k, (results source choices i).Passes) ∧
      ((results source choices k).Differs ∨
        unsigned (results source choices k).1 = 0 ∧ (files source choices k).1 = [] ∧
          ∀ i < k, (results source choices i).1 ≠ none) := by
  have whole (k : Nat) : (files source choices k).2 = source ↔ (files source choices k).1 = [] := by
    have all := files_append source choices k
    conv => lhs; rhs; rw [← all]
    exact List.self_eq_append_right
  constructor
  · rintro ⟨fuel, k, status, ended, copied, reported⟩
    obtain ⟨passes, ⟨rfl, zero⟩ | ⟨rfl, differs⟩⟩ := (loop_iff _ k status).mp ⟨fuel, ended⟩
    · refine ⟨k, passes, .inr ⟨zero, (whole k).mp (copied rfl), fun i less failed => ?_⟩⟩
      cases reported ⟨i, Nat.le_of_lt less, .inl failed⟩
    · exact ⟨k, passes, .inl differs⟩
  · rintro ⟨k, passes, differs | ⟨zero, nothing, succeeded⟩⟩
    · obtain ⟨fuel, ended⟩ := (loop_iff _ k 1).mpr ⟨passes, .inr ⟨rfl, differs⟩⟩
      exact ⟨fuel, k, 1, ended, nofun, fun _ => rfl⟩
    · obtain ⟨fuel, ended⟩ := (loop_iff _ k 0).mpr ⟨passes, .inl ⟨rfl, zero⟩⟩
      refine ⟨fuel, k, 0, ended, fun _ => (whole k).mpr nothing, ?_⟩
      rintro ⟨i, le, failed | differs⟩
      · rcases Nat.lt_or_eq_of_le le with less | rfl
        · exact absurd failed (succeeded i less)
        · rw [failed] at zero
          cases zero
      · rcases Nat.lt_or_eq_of_le le with less | rfl
        · exact absurd (passes i less).2 differs.2
        · exact absurd zero differs.1

/-- Where all calls fail, `cp` does not end. -/
theorem copies_never : ¬Copies [7] fun _ => (none, none) := by
  rintro ⟨fuel, k, status, ended, -⟩
  obtain ⟨-, ⟨-, zero⟩ | ⟨-, -, differs⟩⟩ := (loop_iff _ k status).mp ⟨fuel, ended⟩
  · cases zero
  · exact differs rfl

end Cp

/-! ## `touch` -/

/-- What a path names. -/
inductive Node where
  | file (content : List UInt8)
  | directory

/-- `open(des_1, O_CREATE)`: what the path names before it, whether an absent file can be created,
and whether there is a descriptor for it. -/
structure Opening where
  before : Option Node
  creates : Bool
  allocates : Bool

namespace Opening

/-- What the path names after `open`, and to the end: the descriptor is not writable. -/
def after (opening : Opening) : Option Node :=
  match opening.before with
  | none => if opening.creates then some (.file []) else none
  | some node => some node

/-- The file that is open. -/
def content (opening : Opening) : Option (List UInt8) :=
  match opening.after with
  | some (.file content) => if opening.allocates then some content else none
  | _ => none

/-- The results of `read`, of which the kernel chooses the counts, and of `write`. -/
def rounds (opening : Opening) (choices : Nat → Option Nat) (i : Nat) : Round :=
  (opening.content.bind fun content => readCount content (choices i), none)

/-- `touch` ends, a file that was there is the same, one that was not is empty, and the status is 0
if and only if there is one. -/
def Touches (opening : Opening) (choices : Nat → Option Nat) : Prop :=
  ∃ fuel k status, loop (opening.rounds choices) fuel 0 = some (k, status) ∧
    (∀ node, opening.before = some node → opening.after = some node) ∧
    (opening.before = none → ∀ node, opening.after = some node → node = .file []) ∧
    (status = 0 ↔ opening.after ≠ none)

theorem passes_iff (opening : Opening) (choices : Nat → Option Nat) (i : Nat) :
    (opening.rounds choices i).Passes ↔ (opening.rounds choices i).1 = none := by
  unfold Round.Passes
  cases result : (opening.rounds choices i).1 with
  | none => exact ⟨fun _ => rfl, fun _ => ⟨nofun, rfl⟩⟩
  | some n =>
    refine ⟨fun passes => ?_, nofun⟩
    -- A read returns at most the size of the buffer, a failed write more than that.
    obtain ⟨content, -, counted⟩ := Option.bind_eq_some_iff.mp result
    obtain ⟨count, -, rfl⟩ := Option.map_eq_some_iff.mp counted
    have small : min count (min bufferSize content.length) ≤ 512 :=
      Nat.le_trans (Nat.min_le_right ..) (Nat.min_le_left ..)
    have same : 2 ^ 32 - 1 = min count (min bufferSize content.length) := passes.2
    omega

/-- `touch` does what is expected of it if and only if the file is open and `read` returns 0
before any other count. -/
theorem touches_iff (opening : Opening) (choices : Nat → Option Nat) :
    opening.Touches choices ↔ opening.content ≠ none ∧ ∃ k,
      (opening.rounds choices k).1 = some 0 ∧ ∀ i < k, (opening.rounds choices i).1 = none := by
  constructor
  · rintro ⟨fuel, k, status, ended, -, -, succeeded⟩
    obtain ⟨passes, ends⟩ := (loop_iff _ k status).mp ⟨fuel, ended⟩
    have opened : opening.content ≠ none := by
      intro closed
      have failed : opening.rounds choices k = (none, none) := by rw [rounds, closed]; rfl
      obtain ⟨-, zero⟩ | ⟨-, -, differs⟩ := ends
      · rw [failed] at zero
        cases zero
      · rw [failed] at differs
        exact differs rfl
    have present : opening.after ≠ none := fun absent => opened (by rw [content, absent])
    refine ⟨opened, k, ?_, fun i less => (opening.passes_iff choices i).mp (passes i less)⟩
    obtain ⟨-, zero⟩ | ⟨rfl, -⟩ := ends
    · cases result : (opening.rounds choices k).1 with
      | none =>
        rw [result] at zero
        cases zero
      | some n =>
        rw [result] at zero
        exact congrArg some zero
    · cases succeeded.mpr present
  · rintro ⟨opened, k, zero, failed⟩
    have present : opening.after ≠ none := fun absent => opened (by rw [content, absent])
    obtain ⟨fuel, ended⟩ := (loop_iff (opening.rounds choices) k 0).mpr
      ⟨fun i less => (opening.passes_iff choices i).mpr (failed i less), .inl ⟨rfl, by rw [zero]; rfl⟩⟩
    refine ⟨fuel, k, 0, ended, fun node there => ?_, fun absent node made => ?_, ?_⟩
    · rw [after, there]
    · rw [after, absent] at made
      split_ifs at made
      exact (Option.some.inj made).symm
    · exact ⟨fun _ => present, fun _ => rfl⟩

/-- A file with a byte in it is reported as an error, and on a directory `touch` does not end. -/
theorem touches_not : ¬Touches ⟨some (.file [7]), true, true⟩ (fun _ => some 512) ∧
    ¬Touches ⟨some .directory, true, true⟩ fun _ => some 512 := by
  constructor
  · rintro ⟨fuel, k, status, ended, -, -, succeeded⟩
    obtain rfl := succeeded.mpr nofun
    obtain ⟨-, ⟨-, zero⟩ | ⟨one, -⟩⟩ := (loop_iff _ k 0).mp ⟨fuel, ended⟩
    · cases zero
    · cases one
  · rintro ⟨fuel, k, status, ended, -⟩
    obtain ⟨-, ⟨-, zero⟩ | ⟨-, -, differs⟩⟩ := (loop_iff _ k status).mp ⟨fuel, ended⟩
    · cases zero
    · exact differs rfl

end Opening
end Xv6.Copying
