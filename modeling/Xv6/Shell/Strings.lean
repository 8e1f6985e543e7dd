import Xv6.Shell.Acceptance

/-!
# The strings of a command

After `nulterminate` each pointer in a command is one to a string: the text of its token,
and 0 behind it.
-/

namespace Xv6.Shell

/-- The text `[q, eq)` of the line. -/
def Span.text (line : List UInt8) (word : Span) : List UInt8 :=
  (line.drop word.start).take (word.stop - word.start)

/-- There is a string at the address: the text, which has no 0 in it, and a 0 behind it. -/
structure StringAt (memory : Nat → UInt8) (q : Nat) (text : List UInt8) : Prop where
  content : ∀ i (less : i < text.length), memory (q + i) = text[i]
  noNul : 0 ∉ text
  nul : memory (q + text.length) = 0

/-- `argv` of each command without redirections: what stands before the null pointer. -/
def Cmd.argvs : Cmd → List (List Span)
  | .exec argv => [argv]
  | .redir cmd _ _ _ => cmd.argvs
  | .pipe left right => left.argvs ++ right.argvs
  | .list left right => left.argvs ++ right.argvs
  | .back cmd => cmd.argvs

theorem argvs_redirected (cmd : Cmd) (redirs : List Redirection) :
    (cmd.redirected redirs).argvs = cmd.argvs := by
  induction redirs generalizing cmd with
  | nil => rfl
  | cons redir redirs ih => exact ih (.redir cmd redir.file redir.mode redir.fd)

theorem argvs_backed (cmd : Cmd) (n : Nat) : (cmd.backed n).argvs = cmd.argvs := by
  induction n generalizing cmd with
  | zero => rfl
  | succ n ih => exact ih (.back cmd)

mutual

theorem Line.few : Line front cmd → ∀ argv ∈ cmd.argvs, argv.length < maxargs
  | .last pipe _ => by
    rw [argvs_backed]
    exact pipe.few
  | .sequence pipe _ _ line => by
    rw [Cmd.argvs, argvs_backed]
    exact List.forall_mem_append.mpr ⟨pipe.few, line.few⟩

theorem Pipe.few : Pipe front cmd → ∀ argv ∈ cmd.argvs, argv.length < maxargs
  | .last exec => exec.few
  | .into exec _ pipe => List.forall_mem_append.mpr ⟨exec.few, pipe.few⟩

theorem Exec.few : Exec front cmd → ∀ argv ∈ cmd.argvs, argv.length < maxargs
  | .block _ line _ _ => by
    rw [argvs_redirected]
    exact line.few
  | .simple _ _ few => by
    rw [argvs_redirected]
    exact List.forall_mem_singleton.mpr few

end

theorem Terminated.stringAt (terminated : Terminated line memory word)
    (bound : word.stop ≤ line.length) : StringAt memory word.start (word.text line) := by
  have order := terminated.order
  have length : (word.text line).length = word.stop - word.start := by
    rw [Span.text, List.length_take, List.length_drop]
    omega
  have kept (i : Nat) (less : i < (word.text line).length) :
      memory (word.start + i) = (word.text line)[i] ∧ (word.text line)[i] ≠ 0 := by
    obtain ⟨same, nonzero⟩ := terminated.kept (word.start + i) (by omega) (by omega)
    have read : bytes line (word.start + i) = (word.text line)[i] := by
      simp only [Span.text, List.getElem_take, List.getElem_drop]
      exact List.getD_eq_getElem _ _ _
    rw [← read, ← same]
    exact ⟨rfl, nonzero⟩
  refine ⟨fun i less => (kept i less).1, ?_, ?_⟩
  · intro member
    obtain ⟨i, less, zero⟩ := List.mem_iff_getElem.mp member
    exact (kept i less).2 zero
  · rw [length, Nat.add_sub_cancel' order]
    exact terminated.ends

theorem parsecmd_strings {s : List UInt8} {cmd : Cmd} {memory : Nat → UInt8}
    (parsed : parsecmd s = .ok (cmd, memory)) :
    (∀ word ∈ cmd.words, IsWord (tokens (cString s).length (cString s)) word ∧
      StringAt memory word.start (word.text (cString s))) ∧
    ∀ argv ∈ cmd.argvs, argv.length < maxargs := by
  obtain ⟨derives, rfl⟩ := parsecmd_ok_iff.mp parsed
  have spans (word : Span) (member : word ∈ cmd.words) : Spans (cString s) word :=
    spans_tokens (List.suffix_refl _) word (derives.isWord word member)
  refine ⟨fun word member => ⟨derives.isWord word member, ?_⟩, derives.few⟩
  exact (terminated_nulterminate cString_noNul spans word member).stringAt (spans word member).bound

/-- `a < b`: the argument and the file. -/
theorem parsecmd_strings_input : ∃ memory,
    parsecmd [97, 60, 98] = .ok (.redir (.exec [⟨0, 1⟩]) ⟨2, 3⟩ oRdonly 0, memory) ∧
      StringAt memory 0 [97] ∧ StringAt memory 2 [98] := by
  refine ⟨_, rfl, ?_⟩
  have strings := (parsecmd_strings (s := [97, 60, 98]) rfl).1
  exact ⟨(strings ⟨0, 1⟩ (by decide)).2, (strings ⟨2, 3⟩ (by decide)).2⟩

end Xv6.Shell
