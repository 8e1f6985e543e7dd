import Xv6.Console.Input

/-!
# The buffer of the console

The buffer between `r` and `w` holds the characters that have been committed and not
yet taken, and between `w` and `e` the line that is being edited.
-/

namespace Xv6.Console

open Xv6.Semantics

theorem inputBufSize_dvd : inputBufSize ∣ 2 ^ 32 := by decide

/-- The buffer holds the input. -/
structure Keeps (cons : Cons) (input : Input) : Prop where
  taken : input.taken ≤ input.committed.length
  ready : gap cons.r cons.w = input.committed.length - input.taken
  stored : window cons.buf cons.r (gap cons.r cons.e) =
    input.committed.drop input.taken ++ input.line
  room : gap cons.r cons.e ≤ inputBufSize
  unbroken : newline ∉ input.line

namespace Keeps

variable {cons : Cons} {input : Input}

section

variable (keeps : Keeps cons input)
include keeps

theorem kept : gap cons.r cons.e = input.kept := by
  have lengths := congrArg List.length keeps.stored
  rw [length_window, List.length_append, List.length_drop] at lengths
  exact lengths

theorem ready_le : gap cons.r cons.w ≤ gap cons.r cons.e := by
  rw [keeps.kept, keeps.ready]
  exact Nat.le_add_right ..

theorem line_length : gap cons.w cons.e = input.line.length := by
  rw [gap_of_le keeps.ready_le, keeps.kept, keeps.ready]
  exact Nat.add_sub_cancel_left ..

theorem e_ne_w : cons.e ≠ cons.w ↔ input.line ≠ [] := by
  rw [ne_comm, Ne, ← gap_eq_zero, keeps.line_length, List.length_eq_zero_iff]

theorem erase (notEmpty : input.line ≠ []) :
    cons.buf (slotOf inputBufSize (cons.e - 1)) = input.line.getLast notEmpty ∧
      Keeps { cons with e := cons.e - 1 } { input with line := input.line.dropLast } := by
  have positive : 0 < input.line.length := List.length_pos_iff.mpr notEmpty
  have notFirst : cons.r ≠ cons.e := by
    intro same
    have zero := gap_eq_zero.mpr same
    rw [keeps.kept, Input.kept] at zero
    omega
  have shorter := gap_pred_last notFirst
  have split := keeps.stored
  rw [← shorter, window_succ, add_gap, ← List.dropLast_append_getLast notEmpty,
    ← List.append_assoc] at split
  obtain ⟨front, last⟩ := List.append_inj' split rfl
  refine ⟨List.singleton_inj.mp last, keeps.taken, keeps.ready, front, ?_, ?_⟩
  · have room := keeps.room
    change gap cons.r (cons.e - 1) ≤ inputBufSize
    omega
  · exact fun mem => keeps.unbroken (List.dropLast_subset _ mem)

/-- Kill-line empties the line and does not touch what has been committed. -/
theorem kill (enough : input.line.length = fuel) :
    Keeps (cons.kill fuel) { input with line := [] } := by
  induction fuel generalizing cons input with
  | zero =>
    have empty := List.length_eq_zero_iff.mp enough
    rw [Cons.kill, ← empty]
    exact keeps
  | succ fuel ih =>
    have notEmpty : input.line ≠ [] := by
      intro empty
      rw [empty] at enough
      cases enough
    obtain ⟨last, erased⟩ := keeps.erase notEmpty
    have ordinary : input.line.getLast notEmpty ≠ newline := fun isNewline =>
      keeps.unbroken (isNewline ▸ List.getLast_mem notEmpty)
    rw [Cons.kill, if_pos ⟨keeps.e_ne_w.mpr notEmpty, last ▸ ordinary⟩]
    apply ih erased
    rw [List.length_dropLast, enough]
    rfl

theorem store (c : UInt8) (notNul : c ≠ 0) :
    Keeps (cons.store c) (if input.kept < inputBufSize then
      input.append (if c = carriageReturn then newline else c) else input) := by
  have kept := keeps.kept
  rw [Cons.store]
  by_cases fits : input.kept < inputBufSize
  · have room : gap cons.r cons.e < inputBufSize := kept ▸ fits
    rw [if_pos ⟨notNul, room⟩, if_pos fits]
    generalize (if c = carriageReturn then newline else c) = c'
    have grown : gap cons.r (cons.e + 1) = gap cons.r cons.e + 1 := by
      apply gap_succ_last
      have small : inputBufSize < 2 ^ 32 := by decide
      omega
    have pushed : window (Function.update cons.buf (slotOf inputBufSize
        (cons.r + BitVec.ofNat 32 (gap cons.r cons.e))) c') cons.r (gap cons.r cons.e + 1) =
        window cons.buf cons.r (gap cons.r cons.e) ++ [c'] :=
      window_push inputBufSize_dvd room c'
    rw [add_gap, keeps.stored, ← grown, List.append_assoc] at pushed
    have full : (cons.e + 1 - cons.r).toNat =
        ({ input with line := input.line ++ [c'] } : Input).kept := by
      change gap cons.r (cons.e + 1) = _
      rw [grown, kept]
      simp [Input.kept, Nat.add_assoc]
    simp only [Input.append, full]
    split
    · refine ⟨?_, ?_, ?_, ?_, ?_⟩
      · rw [List.length_append]
        exact Nat.le_add_right_of_le keeps.taken
      · change gap cons.r (cons.e + 1) = _
        rw [grown, kept]
        have taken := keeps.taken
        simp only [Input.kept, List.length_append, List.length_singleton]
        omega
      · change window _ cons.r (gap cons.r (cons.e + 1)) = _
        rw [pushed, List.append_nil, List.drop_append_of_le_length keeps.taken]
      · change gap cons.r (cons.e + 1) ≤ _
        omega
      · exact List.not_mem_nil
    rename_i ordinary
    refine ⟨keeps.taken, keeps.ready, pushed, ?_, ?_⟩
    · change gap cons.r (cons.e + 1) ≤ _
      omega
    · intro mem
      rcases List.mem_append.mp mem with mem | mem
      · exact keeps.unbroken mem
      · exact ordinary (.inl (List.mem_singleton.mp mem).symm)
  · have noRoom : ¬(c ≠ 0 ∧ (cons.e - cons.r).toNat < inputBufSize) := fun both =>
      fits (kept ▸ both.2)
    rw [if_neg noRoom, if_neg fits]
    exact keeps

theorem consoleintr (c : UInt8) :
    Keeps (cons.consoleintr c) (input.types notInput c) := by
  rw [Cons.consoleintr, Input.types]
  by_cases isP : c = controlP
  · have ignored : notInput c = true := by simp [notInput, isP]
    rw [if_pos isP, if_pos ignored]
    exact keeps
  rw [if_neg isP]
  by_cases isNul : c = 0
  · have ignored : notInput c = true := by simp [notInput, isNul]
    rw [if_pos ignored, isNul]
    exact keeps
  have counts : ¬notInput c = true := by simp [notInput, isNul, isP]
  rw [if_neg counts]
  by_cases isU : c = controlU
  · rw [if_pos isU, if_pos isU, keeps.line_length]
    exact keeps.kill rfl
  rw [if_neg isU, if_neg isU]
  by_cases isErase : c = controlH ∨ c = delete
  · rw [if_pos isErase, if_pos isErase]
    by_cases empty : input.line = []
    · have noLine : ¬cons.e ≠ cons.w := fun ne => keeps.e_ne_w.mp ne empty
      rw [if_neg noLine, empty, List.dropLast_nil, ← empty]
      exact keeps
    · rw [if_pos (keeps.e_ne_w.mpr empty)]
      exact (keeps.erase empty).2
  rw [if_neg isErase, if_neg isErase]
  exact keeps.store c isNul

theorem take (notEmpty : cons.r ≠ cons.w) :
    input.committed[input.taken]? = some (cons.buf (slotOf inputBufSize cons.r)) ∧
      Keeps { cons with r := cons.r + 1 } { input with taken := input.taken + 1 } := by
  have positive : 0 < gap cons.r cons.w :=
    Nat.pos_of_ne_zero fun zero => notEmpty (gap_eq_zero.mp zero)
  have ready := keeps.ready
  have less : input.taken < input.committed.length := by omega
  have notLast : cons.r ≠ cons.e := by
    intro same
    have zero := gap_eq_zero.mpr same
    have order := keeps.ready_le
    omega
  have shorterW := gap_succ_first notEmpty
  have shorterE := gap_succ_first notLast
  have split := keeps.stored
  rw [← shorterE, window_succ_first, List.drop_eq_getElem_cons less, List.cons_append] at split
  obtain ⟨head, tail⟩ := List.cons.inj split
  refine ⟨?_, less, ?_, tail, ?_, keeps.unbroken⟩
  · rw [head, List.getElem?_eq_getElem less]
  · change gap (cons.r + 1) cons.w = input.committed.length - (input.taken + 1)
    omega
  · have room := keeps.room
    change gap (cons.r + 1) cons.e ≤ inputBufSize
    omega

end

end Keeps

/-! ## What is seen of the input -/

theorem after_concat (ignored : UInt8 → Bool) (history : List Event) (event : Event) :
    Input.after ignored (history ++ [event]) = (Input.after ignored history).observes ignored event := by
  simp [Input.after]

theorem types_taken (ignored : UInt8 → Bool) (input : Input) (c : UInt8) :
    (input.types ignored c).taken = input.taken ∧
      input.committed <+: (input.types ignored c).committed := by
  simp only [Input.types, Input.append]
  split_ifs <;> simp

/-- The buffer holds the input, and what has been taken of it has been copied to the
callers. -/
structure Fed (cons : Cons) (history : List Event) : Prop where
  keeps : Keeps cons (Input.after notInput history)
  copied : tookBytes history = ((Input.after notInput history).committed.take
    (Input.after notInput history).taken).filter (· ≠ controlD)

namespace Fed

variable {cons : Cons} {history : List Event}

theorem typed (fed : Fed cons history) (c : UInt8) :
    Fed (cons.consoleintr c) (history ++ [.typed c]) := by
  have taken := fed.keeps.taken
  constructor
  · rw [after_concat]
    exact fed.keeps.consoleintr c
  · obtain ⟨sameTaken, more, isPrefix⟩ := types_taken notInput (Input.after notInput history) c
    rw [after_concat, Input.observes, sameTaken, ← isPrefix,
      List.take_append_of_le_length taken, ← fed.copied]
    simp [tookBytes]

theorem takes (fed : Fed cons history) (notEmpty : cons.r ≠ cons.w)
    (observed : ∀ input : Input, input.observes notInput event =
      { input with taken := input.taken + 1 })
    (copies : tookBytes [event] = [cons.buf (slotOf inputBufSize cons.r)].filter (· ≠ controlD)) :
    Fed { cons with r := cons.r + 1 } (history ++ [event]) := by
  obtain ⟨next, keeps⟩ := fed.keeps.take notEmpty
  constructor
  · rw [after_concat, observed]
    exact keeps
  · rw [after_concat, observed, List.take_add_one, next, Option.toList_some, List.filter_append,
      ← fed.copied, ← copies, tookBytes, List.filterMap_append]
    rfl

theorem quiet (fed : Fed cons history)
    (observed : ∀ input : Input, input.observes notInput event = input)
    (copies : tookBytes [event] = []) : Fed cons (history ++ [event]) := by
  constructor
  · rw [after_concat, observed]
    exact fed.keeps
  · rw [after_concat, observed, ← fed.copied, tookBytes, List.filterMap_append]
    exact (congrArg (tookBytes history ++ ·) copies).trans (List.append_nil _)

end Fed

end Xv6.Console
