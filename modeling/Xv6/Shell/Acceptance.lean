import Mathlib.Data.List.GetD
import Xv6.Shell.Completeness

/-!
# The command of a line

`parsecmd` returns the command that the grammar derives from the line, and its words are
the strings that `nulterminate` leaves in memory.
-/

namespace Xv6.Shell

/-- The words of a command: arguments and files. -/
def Cmd.words : Cmd → List Span
  | .exec argv => argv
  | .redir cmd file _ _ => cmd.words ++ [file]
  | .pipe left right => left.words ++ right.words
  | .list left right => left.words ++ right.words
  | .back cmd => cmd.words

/-! ## The words of a derivation -/

/-- The span is that of a word among the tokens. -/
def IsWord (list : List Token) (word : Span) : Prop :=
  ∃ token ∈ list, token.kind = .word ∧ token.span = word

theorem IsWord.mono (isWord : IsWord list word) (subset : list ⊆ more) : IsWord more word := by
  obtain ⟨token, mem, kind, span⟩ := isWord
  exact ⟨token, subset mem, kind, span⟩

theorem words_redirected (cmd : Cmd) (redirs : List Redirection) :
    (cmd.redirected redirs).words = cmd.words ++ redirs.map Redirection.file := by
  induction redirs generalizing cmd with
  | nil => simp [Cmd.redirected]
  | cons redir redirs ih =>
    rw [redirected_cons, ih]
    simp [Cmd.words]

theorem words_backed (cmd : Cmd) (n : Nat) : (cmd.backed n).words = cmd.words := by
  induction n generalizing cmd with
  | zero => rfl
  | succ n ih => exact ih (.back cmd)

theorem Redirs.isWord
    (derives : Redirs front redirs) : ∀ word ∈ redirs.map Redirection.file, IsWord front word := by
  induction derives with
  | nil => exact nofun
  | @cons first rest redir redirs head tail ih =>
    intro word mem
    rcases List.mem_cons.mp mem with rfl | mem
    · cases head with
      | input _ isWord => exact ⟨_, by simp, isWord, rfl⟩
      | output _ isWord => exact ⟨_, by simp, isWord, rfl⟩
      | append _ isWord => exact ⟨_, by simp, isWord, rfl⟩
    · exact (ih word mem).mono (List.subset_append_right ..)

theorem Words.isWord (words : Words front args others) :
    ∀ word ∈ args ++ others.map Redirection.file, IsWord front word := by
  induction words with
  | nil => exact nofun
  | @cons token first rest args redirs others isWord head tail ih =>
    intro word mem
    have inside : word = token.span ∨ word ∈ redirs.map Redirection.file ∨
        word ∈ args ++ others.map Redirection.file := by
      simp only [List.map_append, List.mem_append, List.mem_cons] at mem ⊢
      tauto
    rcases inside with rfl | inside | inside
    · exact ⟨token, by simp, isWord, rfl⟩
    · exact (head.isWord word inside).mono fun token mem => by simp [mem]
    · exact (ih word inside).mono fun token mem => by simp [mem]

mutual

/-- The words of a command are words among the tokens that it is derived from. -/
theorem Line.isWord :
    Line front cmd → ∀ word ∈ cmd.words, IsWord front word
  | .last pipe amps => by
    intro word mem
    rw [words_backed] at mem
    exact (pipe.isWord word mem).mono (List.subset_append_left ..)
  | .sequence pipe amps isSemi line => by
    intro word mem
    rw [Cmd.words, words_backed, List.mem_append] at mem
    rcases mem with mem | mem
    · exact (pipe.isWord word mem).mono fun token inside => by simp [inside]
    · exact (line.isWord word mem).mono fun token inside => by simp [inside]

theorem Pipe.isWord :
    Pipe front cmd → ∀ word ∈ cmd.words, IsWord front word
  | .last exec => exec.isWord
  | .into exec isBar pipe => by
    intro word mem
    rw [Cmd.words, List.mem_append] at mem
    rcases mem with mem | mem
    · exact (exec.isWord word mem).mono fun token inside => by simp [inside]
    · exact (pipe.isWord word mem).mono fun token inside => by simp [inside]

theorem Exec.isWord :
    Exec front cmd → ∀ word ∈ cmd.words, IsWord front word
  | .block isLeft line isRight after => by
    intro word mem
    rw [words_redirected, List.mem_append] at mem
    rcases mem with mem | mem
    · exact (line.isWord word mem).mono fun token inside => by simp [inside]
    · exact (after.isWord word mem).mono fun token inside => by simp [inside]
  | .simple before words few => by
    intro word mem
    rw [words_redirected, Cmd.words, List.map_append] at mem
    rcases List.mem_append.mp mem with mem | mem
    · exact (words.isWord word (List.mem_append_left _ mem)).mono fun token inside => by
        simp [inside]
    · rcases List.mem_append.mp mem with mem | mem
      · exact (before.isWord word mem).mono fun token inside => by simp [inside]
      · exact (words.isWord word (List.mem_append_right _ mem)).mono fun token inside => by
          simp [inside]

end

/-! ## Where the words stand -/

/-- The span is a word of the line, up to the next character that is none of a word. -/
structure Spans (line : List UInt8) (word : Span) : Prop where
  order : word.start ≤ word.stop
  bound : word.stop ≤ line.length
  inside : ∀ i, word.start ≤ i → i < word.stop → inWord (bytes line i) = true
  ends : word.stop < line.length → inWord (bytes line word.stop) = false

section Suffix

variable {line s : List UInt8}

theorem bytes_suffix (suffix : s <:+ line) (i : Nat) :
    bytes line (line.length - s.length + i) = bytes s i := by
  obtain ⟨front, rfl⟩ := suffix
  simp only [bytes, List.length_append, Nat.add_sub_cancel, List.getD_eq_getElem?_getD]
  rw [List.getElem?_append_right (by omega)]
  congr 2
  omega

theorem scan_suffix (s : List UInt8) : (scan s).2 <:+ s := by
  cases s with
  | nil => exact List.suffix_refl []
  | cons c rest =>
    unfold scan
    have one : rest <:+ c :: rest := List.suffix_cons ..
    simp only
    split_ifs with isBar isLeft isRight isSemi isAmp isLess isGreater
    · exact one
    · exact one
    · exact one
    · exact one
    · exact one
    · exact one
    · cases rest with
      | nil => exact one
      | cons d rest =>
        simp only
        split_ifs with twice
        · exact (List.suffix_cons ..).trans one
        · exact one
    · exact List.dropWhile_suffix _

theorem skip_suffix (s : List UInt8) : skip s <:+ s := List.dropWhile_suffix _

theorem scan_of_word (skipped : skip s = u) (isWord : (scan u).1 = .word) :
    (scan u).2 = u.dropWhile inWord := by
  cases u with
  | nil => rfl
  | cons c rest =>
    have symbol := (scan_cons rest (not_whitespace_of_skip skipped)).2.2
    rw [isWord] at symbol
    cases isSymbol : symbols.contains c with
    | false => rw [scan_word isSymbol]
    | true =>
      rw [isSymbol] at symbol
      cases symbol

theorem spans_gettoken (suffix : s <:+ line) (isWord : (gettoken line.length s).1 = .word) :
    Spans line (gettoken line.length s).2.1 := by
  obtain ⟨u, skipped⟩ : ∃ u, skip s = u := ⟨_, rfl⟩
  have startSuffix : u <:+ line := skipped ▸ (skip_suffix s).trans suffix
  simp only [gettoken, skipped] at isWord ⊢
  rw [scan_of_word skipped isWord]
  have split : u.takeWhile inWord ++ u.dropWhile inWord = u := List.takeWhile_append_dropWhile
  have stopSuffix : u.dropWhile inWord <:+ line := (List.dropWhile_suffix _).trans startSuffix
  have lengths := congrArg List.length split
  rw [List.length_append] at lengths
  constructor
  · exact Nat.sub_le_sub_left (by omega) _
  · exact Nat.sub_le ..
  · intro i low high
    obtain ⟨j, rfl⟩ := Nat.exists_eq_add_of_le low
    have within : j < (u.takeWhile inWord).length := by
      simp only at high
      omega
    have read : bytes u j = (u.takeWhile inWord).get ⟨j, within⟩ := by
      conv_lhs => rw [← split]
      rw [bytes, List.getD_append _ _ _ _ within, List.getD_eq_getElem _ _ within]
      rfl
    simp only [bytes_suffix startSuffix, read]
    exact List.mem_takeWhile_imp (List.get_mem ..)
  intro before
  have atStop := bytes_suffix stopSuffix 0
  rw [Nat.add_zero] at atStop
  simp only [atStop]
  cases rest : u.dropWhile inWord with
  | nil =>
    rw [rest] at before
    exact absurd before (Nat.lt_irrefl _)
  | cons c rest' =>
    have first := List.head?_dropWhile_not inWord u
    rw [rest] at first
    exact first

theorem spans_tokens (suffix : s <:+ line) :
    ∀ word, IsWord (tokens line.length s) word → Spans line word := by
  generalize length : s.length = n
  induction n using Nat.strong_induction_on generalizing s with
  | h n ih =>
    rintro word ⟨token, mem, kind, rfl⟩
    cases skipped : skip s with
    | nil =>
      rw [tokens_of_end skipped] at mem
      cases mem
    | cons c rest =>
      have shorter := (gettoken_cons line.length skipped).2.1
      rw [tokens_of_cons skipped] at mem
      rcases List.mem_cons.mp mem with rfl | mem
      · exact spans_gettoken suffix kind
      have restSuffix : (gettoken line.length s).2.2 <:+ line := by
        exact (skip_suffix _).trans ((scan_suffix _).trans ((skip_suffix s).trans suffix))
      exact ih _ (length ▸ shorter) restSuffix rfl _
        ⟨token, mem, kind, rfl⟩

end Suffix

/-! ## The strings -/

theorem nulterminate_eq (cmd : Cmd) (memory : Nat → UInt8) :
    nulterminate cmd memory =
      cmd.words.foldl (fun memory word => Function.update memory word.stop 0) memory := by
  induction cmd generalizing memory with
  | exec argv => rfl
  | redir cmd file mode fd ih =>
    rw [nulterminate, Cmd.words, List.foldl_append, ih]
    rfl
  | pipe left right inductionLeft inductionRight =>
    rw [nulterminate, Cmd.words, List.foldl_append, inductionLeft, inductionRight]
  | list left right inductionLeft inductionRight =>
    rw [nulterminate, Cmd.words, List.foldl_append, inductionLeft, inductionRight]
  | back cmd ih => exact ih memory

theorem nulterminate_apply (cmd : Cmd) (memory : Nat → UInt8) (i : Nat) :
    nulterminate cmd memory i = if ∃ word ∈ cmd.words, word.stop = i then 0 else memory i := by
  rw [nulterminate_eq]
  induction cmd.words generalizing memory with
  | nil => simp
  | cons word words ih =>
    rw [List.foldl_cons, ih, Function.update_apply]
    by_cases later : ∃ other ∈ words, other.stop = i
    · obtain ⟨other, mem, stop⟩ := later
      rw [if_pos ⟨other, mem, stop⟩, if_pos ⟨other, List.mem_cons_of_mem _ mem, stop⟩]
    by_cases own : i = word.stop
    · rw [if_neg later, if_pos own, if_pos ⟨word, List.mem_cons_self .., own.symm⟩]
    rw [if_neg later, if_neg own, if_neg]
    rintro ⟨other, mem, stop⟩
    rcases List.mem_cons.mp mem with rfl | mem
    · exact own stop.symm
    · exact later ⟨other, mem, stop⟩

/-- The memory holds the word as a string. -/
structure Terminated (line : List UInt8) (memory : Nat → UInt8) (word : Span) : Prop where
  order : word.start ≤ word.stop
  kept : ∀ i, word.start ≤ i → i < word.stop → memory i = bytes line i ∧ memory i ≠ 0
  ends : memory word.stop = 0

theorem terminated_nulterminate (noNul : ∀ c ∈ line, c ≠ 0)
    (spans : ∀ word ∈ cmd.words, Spans line word) :
    ∀ word ∈ cmd.words, Terminated line (nulterminate cmd (bytes line)) word := by
  intro word mem
  have own := spans word mem
  refine ⟨own.order, fun i low high => ?_, ?_⟩
  · have untouched : ¬∃ other ∈ cmd.words, other.stop = i := by
      rintro ⟨other, inside, rfl⟩
      have bound := own.bound
      have outside := (spans other inside).ends (by omega)
      rw [own.inside _ low high] at outside
      cases outside
    have within : i < line.length := lt_of_lt_of_le high own.bound
    rw [nulterminate_apply, if_neg untouched]
    refine ⟨rfl, ?_⟩
    rw [bytes, List.getD_eq_getElem _ _ within]
    exact noNul _ (List.getElem_mem within)
  · rw [nulterminate_apply, if_pos ⟨word, mem, rfl⟩]

/-! ## The result -/

/-- The line that `parsecmd` is called with, up to the first 0. -/
def cString (s : List UInt8) : List UInt8 := s.takeWhile (· ≠ 0)

theorem cString_noNul : ∀ c ∈ cString s, c ≠ 0 := by
  intro c member
  simpa using List.mem_takeWhile_imp member

theorem parseline_whole (derives : Line (tokens line.length line) cmd) :
    ∃ s', parseline line.length (4 * line.length + 4) line = .ok (cmd, s') ∧ skip s' = [] := by
  have short : (tokens line.length line).length ≤ line.length := length_tokens_le
  have ends : Follows lineEnd [] := trivial
  obtain ⟨s', parsed, ended⟩ := (Accepts.all line.length (4 * line.length + 4)).line derives ends
    (List.append_nil _).symm (by omega)
  exact ⟨s', parsed, tokens_eq_nil.mp ended⟩

theorem parsecmd_eq (s : List UInt8) :
    parsecmd s = (parseline (cString s).length (4 * (cString s).length + 4) (cString s)).bind
      fun pair => if skip pair.2 ≠ [] then .error (.panic "syntax")
        else .ok (pair.1, nulterminate pair.1 (bytes (cString s))) := by
  have peeked (u : List UInt8) : (peek u []).2 = skip u := by
    rw [peek]
    cases skip u <;> rfl
  simp only [← peeked]
  rfl

theorem parsecmd_ok_iff : parsecmd s = .ok (cmd, memory) ↔
      Line (tokens (cString s).length (cString s)) cmd ∧
        memory = nulterminate cmd (bytes (cString s)) := by
  rw [parsecmd_eq]
  constructor
  · intro parsed
    have short : (tokens (cString s).length (cString s)).length ≤ (cString s).length :=
      length_tokens_le
    have yields := (Parses.all (cString s).length (4 * (cString s).length + 4)).line (cString s)
      (by omega)
    cases result : parseline (cString s).length (4 * (cString s).length + 4) (cString s) with
    | error stop =>
      rw [result] at parsed
      cases parsed
    | ok pair =>
      rw [result] at parsed yields
      obtain ⟨front, split, derives⟩ := yields
      change (if skip pair.2 ≠ [] then _ else _) = _ at parsed
      by_cases ended : skip pair.2 = []
      · rw [if_neg (not_not.mpr ended)] at parsed
        cases parsed
        rw [tokens_of_end ended, List.append_nil] at split
        exact ⟨split ▸ derives, rfl⟩
      · rw [if_pos ended] at parsed
        cases parsed
  rintro ⟨derives, rfl⟩
  obtain ⟨s', parsed, ended⟩ := parseline_whole derives
  rw [parsed]
  change (if skip s' ≠ [] then _ else _) = _
  rw [if_neg (not_not.mpr ended)]

theorem parsecmd_ne_outOfFuel (s : List UInt8) : parsecmd s ≠ .error .outOfFuel := by
  have short : (tokens (cString s).length (cString s)).length ≤ (cString s).length :=
    length_tokens_le
  have yields := (Parses.all (cString s).length (4 * (cString s).length + 4)).line (cString s)
    (by omega)
  rw [parsecmd_eq]
  cases result : parseline (cString s).length (4 * (cString s).length + 4) (cString s) with
  | error stop =>
    rw [result] at yields
    exact fun same => yields (Except.error.inj same)
  | ok pair =>
    change (if skip pair.2 ≠ [] then _ else _) ≠ _
    split
    · exact nofun
    · exact nofun

/-- `parsecmd` terminates on every line. It returns a command if and only if the grammar
derives one from the tokens of the line. This is the only one that the grammar derives,
and each word of it is a string in memory. Otherwise `parsecmd` reports an error. -/
theorem parsecmd_accepts (s : List UInt8) :
    (∀ cmd, (∃ memory, parsecmd s = .ok (cmd, memory)) ↔
      Line (tokens (cString s).length (cString s)) cmd) ∧
    (∀ cmd other, Line (tokens (cString s).length (cString s)) cmd →
      Line (tokens (cString s).length (cString s)) other → cmd = other) ∧
    (∀ cmd memory, parsecmd s = .ok (cmd, memory) →
      ∀ word ∈ cmd.words, Terminated (cString s) memory word) ∧
    ((¬∃ cmd, Line (tokens (cString s).length (cString s)) cmd) →
      ∃ message, parsecmd s = .error (.panic message)) := by
  refine ⟨fun cmd => ⟨?_, ?_⟩, fun cmd other derives derivesOther => ?_,
    fun cmd memory parsed => ?_, fun none => ?_⟩
  · rintro ⟨memory, parsed⟩
    exact (parsecmd_ok_iff.mp parsed).1
  · intro derives
    exact ⟨_, parsecmd_ok_iff.mpr ⟨derives, rfl⟩⟩
  · obtain ⟨s', parsed, _⟩ := parseline_whole derives
    obtain ⟨s'', parsedOther, _⟩ := parseline_whole derivesOther
    rw [parsed] at parsedOther
    cases parsedOther
    rfl
  · obtain ⟨derives, rfl⟩ := parsecmd_ok_iff.mp parsed
    apply terminated_nulterminate cString_noNul
    exact fun word member => spans_tokens (List.suffix_refl _) word (derives.isWord word member)
  cases parsed : parsecmd s with
  | ok pair => exact absurd ⟨pair.1, (parsecmd_ok_iff.mp parsed).1⟩ none
  | error stop =>
    cases stop with
    | panic message => exact ⟨message, rfl⟩
    | outOfFuel => exact absurd parsed (parsecmd_ne_outOfFuel s)

/-- `a | b > c &` is a pipe in the background, the right side of which is redirected. -/
example : (parsecmd [97, 32, 124, 32, 98, 32, 62, 32, 99, 32, 38, 10]).map Prod.fst =
    .ok (.back (.pipe (.exec [⟨0, 1⟩]) (.redir (.exec [⟨4, 5⟩]) ⟨8, 9⟩ 0x601 1))) := by
  decide +kernel

end Xv6.Shell
