import Xv6.Shell.Correctness

/-!
# The parser finds every derivation

The function for a part of the grammar takes the tokens of a derivation, if the token
after them is one that can follow such a part.
-/

namespace Xv6.Shell

variable {es : Nat} {s : List UInt8}

/-- The list is empty, or its first token is of one of these kinds. -/
def Follows (kinds : List Kind) : List Token → Prop
  | [] => True
  | token :: _ => token.kind ∈ kinds

/-- What can follow a line, a pipe and an exec. -/
def lineEnd : List Kind := [.rightParen]
def pipeEnd : List Kind := [.rightParen, .ampersand, .semicolon]
def execEnd : List Kind := [.bar, .rightParen, .ampersand, .semicolon]

namespace Follows

variable {kinds others : List Kind} {rest : List Token}

theorem mono (follows : Follows kinds rest) (subset : ∀ kind ∈ kinds, kind ∈ others) :
    Follows others rest := by
  cases rest with
  | nil => trivial
  | cons token rest => exact subset _ follows

theorem not_starts (follows : Follows kinds rest)
    (ne : ∀ kind ∈ kinds, kind.symbol.any toks.contains = false) :
    starts toks rest = false := by
  cases rest with
  | nil => rfl
  | cons token rest => exact ne _ follows

end Follows

theorem Redirs.follows (derives : Redirs front redirs) (follows : Follows kinds rest) :
    Follows ([.less, .greater, .append] ++ kinds) (front ++ rest) := by
  cases derives with
  | nil => exact follows.mono fun kind mem => List.mem_append_right _ mem
  | cons head tail =>
    cases head with
    | input isOp => simp [Follows, isOp]
    | output isOp => simp [Follows, isOp]
    | append isOp => simp [Follows, isOp]

theorem Words.follows (words : Words front args others) (follows : Follows kinds rest) :
    Follows (.word :: kinds) (front ++ rest) := by
  cases words with
  | nil => exact follows.mono fun kind mem => List.mem_cons_of_mem _ mem
  | cons isWord head tail => exact isWord ▸ List.mem_cons_self ..

theorem parseredirs_complete
    (derives : Redirs front redirs) (ends : starts [less, greater] rest = false) (next : tokens es s = front ++ rest) (enough : front.length < fuel) :
    ∃ s', parseredirs es fuel cmd s = .ok (cmd.redirected redirs, s') ∧ tokens es s' = rest := by
  induction derives generalizing fuel cmd s with
  | nil =>
    obtain ⟨fuel, rfl⟩ := Nat.exists_eq_succ_of_ne_zero (Nat.ne_of_gt enough)
    rw [parseredirs, peek_eq es s areSymbols_redir, next, List.nil_append, ends]
    exact ⟨skip s, rfl, by rw [tokens_skip, next]; rfl⟩
  | @cons first rest' redir redirs head tail ih =>
    obtain ⟨fuel, rfl⟩ := Nat.exists_eq_succ_of_ne_zero (Nat.ne_of_gt (Nat.zero_lt_of_lt enough))
    rw [parseredirs, peek_eq es s areSymbols_redir]
    -- The three operators differ in the redirection only.
    have takes : ∀ {op file : Token}, first = [op, file] →
        op.kind ∈ [Kind.less, .greater, .append] → file.kind = .word →
        starts [less, greater] (tokens es s) = true ∧
        ∃ s₁ s₂, gettoken es (skip s) = (op.kind, op.span, s₁) ∧
          gettoken es s₁ = (.word, file.span, s₂) ∧ tokens es s₂ = rest' ++ rest := by
      rintro op file rfl isOp isWord
      have next' : tokens es s = op :: file :: (rest' ++ rest) := next
      obtain ⟨_, s₁, tookOp, rest₁⟩ := gettoken_of_cons next'
      obtain ⟨_, s₂, tookFile, rest₂⟩ := gettoken_of_cons rest₁
      refine ⟨?_, s₁, s₂, ?_, ?_, rest₂⟩
      · rw [next']
        exact starts_redir.mpr isOp
      · rw [gettoken_skip, tookOp]
      · rw [tookFile, isWord]
    have shorter : rest'.length < fuel := by
      rw [List.length_append] at enough
      cases head <;> simp only [List.length_cons, List.length_nil] at enough <;> omega
    cases head with
    | input isOp isWord =>
      obtain ⟨more, s₁, s₂, tookOp, tookFile, rest₂⟩ := takes rfl (by simp [isOp]) isWord
      obtain ⟨s', parsed, restTokens⟩ := ih rest₂ shorter
      simp only [more, tookOp, tookFile, isOp]
      exact ⟨s', parsed, restTokens⟩
    | output isOp isWord =>
      obtain ⟨more, s₁, s₂, tookOp, tookFile, rest₂⟩ := takes rfl (by simp [isOp]) isWord
      obtain ⟨s', parsed, restTokens⟩ := ih rest₂ shorter
      simp only [more, tookOp, tookFile, isOp]
      exact ⟨s', parsed, restTokens⟩
    | append isOp isWord =>
      obtain ⟨more, s₁, s₂, tookOp, tookFile, rest₂⟩ := takes rfl (by simp [isOp]) isWord
      obtain ⟨s', parsed, restTokens⟩ := ih rest₂ shorter
      simp only [more, tookOp, tookFile, isOp]
      exact ⟨s', parsed, restTokens⟩

theorem parsebacks_complete (amps : Ampersands front)
    (ends : starts [ampersand] rest = false)
    (next : tokens es s = front ++ rest) (enough : front.length < fuel) :
    ∃ s', parsebacks es fuel cmd s = .ok (cmd.backed front.length, s') ∧ tokens es s' = rest := by
  induction front generalizing fuel cmd s with
  | nil =>
    obtain ⟨fuel, rfl⟩ := Nat.exists_eq_succ_of_ne_zero (Nat.ne_of_gt enough)
    rw [parsebacks, peek_eq es s areSymbols_ampersand, next, List.nil_append, ends]
    exact ⟨skip s, rfl, by rw [tokens_skip, next]; rfl⟩
  | cons amp front ih =>
    obtain ⟨fuel, rfl⟩ := Nat.exists_eq_succ_of_ne_zero (Nat.ne_of_gt (Nat.zero_lt_of_lt enough))
    obtain ⟨_, s₁, took, rest₁⟩ := gettoken_of_cons next
    have isAmp := amps amp (List.mem_cons_self ..)
    have more : starts [ampersand] (tokens es s) = true := by
      rw [next]
      exact starts_ampersand.mpr (isAmp ▸ List.mem_cons_self ..)
    rw [parsebacks, peek_eq es s areSymbols_ampersand, more]
    simp only [gettoken_skip, took, if_true]
    apply ih _ rest₁
    · exact Nat.lt_of_succ_lt_succ enough
    · exact fun token mem => amps token (List.mem_cons_of_mem _ mem)

theorem parseargs_complete (words : Words front more others) (follows : Follows execEnd rest)
    (next : tokens es s = front ++ rest) (few : (args ++ more).length < maxargs)
    (enough : front.length < fuel) :
    ∃ s', parseargs es fuel args.length ((Cmd.exec args).redirected redirs) s =
        .ok ((Cmd.exec (args ++ more)).redirected (redirs ++ others), s') ∧
      tokens es s' = rest := by
  induction words generalizing fuel args redirs s with
  | nil =>
    obtain ⟨fuel, rfl⟩ := Nat.exists_eq_succ_of_ne_zero (Nat.ne_of_gt enough)
    rw [parseargs, peek_eq es s areSymbols_stop, next, List.nil_append, List.append_nil,
      List.append_nil]
    cases rest with
    | nil =>
      simp only [gettoken_skip, gettoken_of_nil next]
      exact ⟨[], rfl, rfl⟩
    | cons token rest =>
      rw [starts_stop.mpr follows]
      exact ⟨skip s, rfl, by rw [tokens_skip, next]; rfl⟩
  | @cons word first rest' more redirs' others isWord head tail ih =>
    obtain ⟨fuel, rfl⟩ := Nat.exists_eq_succ_of_ne_zero (Nat.ne_of_gt (Nat.zero_lt_of_lt enough))
    have next' : tokens es s = word :: (first ++ (rest' ++ rest)) := by
      rw [next]
      simp
    obtain ⟨_, s₁, took, rest₁⟩ := gettoken_of_cons next'
    have goesOn : starts [bar, rightParen, ampersand, semicolon] (tokens es s) = false := by
      rw [next', starts, isWord]
      rfl
    have room : ¬maxargs ≤ args.length + 1 := by
      rw [List.length_append, List.length_cons] at few
      omega
    have ends : starts [less, greater] (rest' ++ rest) = false :=
      (tail.follows follows).not_starts (by decide)
    rw [List.length_append, List.length_cons] at enough
    have fuelLeft : first.length < fuel ∧ rest'.length < fuel := by omega
    obtain ⟨s₂, parsed, rest₂⟩ : ∃ s₂, parseredirs es fuel
        ((Cmd.exec (args ++ [word.span])).redirected redirs) s₁ =
          .ok (((Cmd.exec (args ++ [word.span])).redirected redirs).redirected redirs', s₂) ∧
        tokens es s₂ = rest' ++ rest :=
      parseredirs_complete head ends rest₁ fuelLeft.1
    have few' : (args ++ [word.span] ++ more).length < maxargs := by simpa using few
    rw [← redirected_append] at parsed
    obtain ⟨s₃, parsed', rest₃⟩ : ∃ s₃, parseargs es fuel (args ++ [word.span]).length
        ((Cmd.exec (args ++ [word.span])).redirected (redirs ++ redirs')) s₂ =
          .ok ((Cmd.exec (args ++ [word.span] ++ more)).redirected (redirs ++ redirs' ++ others),
            s₃) ∧ tokens es s₃ = rest :=
      ih rest₂ few' fuelLeft.2
    rw [parseargs, peek_eq es s areSymbols_stop, goesOn]
    simp only [gettoken_skip, took, isWord, ne_eq, not_true, if_false, if_neg room,
      addArg_redirected, parsed]
    refine ⟨s₃, ?_, rest₃⟩
    rw [List.length_append] at parsed'
    have result : args ++ word.span :: more = args ++ [word.span] ++ more := by simp
    rw [result, ← List.append_assoc]
    exact parsed'

theorem ok_bind (pair : Cmd × List UInt8) (next : Cmd × List UInt8 → Parsed) :
    (Except.ok pair : Parsed) >>= next = next pair := rfl

variable {fuel : Nat}

variable {front rest : List Token} {redirs : List Redirection}

/-- What the functions find with this much fuel. -/
structure Accepts (es fuel : Nat) : Prop where
  line : ∀ {front rest s cmd}, Line front cmd → Follows lineEnd rest →
    tokens es s = front ++ rest → 4 * front.length + 3 < fuel →
    ∃ s', parseline es fuel s = .ok (cmd, s') ∧ tokens es s' = rest
  pipe : ∀ {front rest s cmd}, Pipe front cmd → Follows pipeEnd rest →
    tokens es s = front ++ rest → 4 * front.length + 2 < fuel →
    ∃ s', parsepipe es fuel s = .ok (cmd, s') ∧ tokens es s' = rest
  exec : ∀ {front rest s cmd}, Exec front cmd → Follows execEnd rest →
    tokens es s = front ++ rest → 4 * front.length + 1 < fuel →
    ∃ s', parseexec es fuel s = .ok (cmd, s') ∧ tokens es s' = rest
  block : ∀ {inside after rest s left right cmd redirs}, left.kind = .leftParen →
    Line inside cmd → right.kind = .rightParen → Redirs after redirs → Follows execEnd rest →
    tokens es s = left :: inside ++ right :: after ++ rest →
    4 * (left :: inside ++ right :: after).length < fuel →
    ∃ s', parseblock es fuel s = .ok (cmd.redirected redirs, s') ∧ tokens es s' = rest

namespace Accepts

variable {fuel : Nat} {front rest : List Token} {cmd : Cmd}

section

variable (accepts : Accepts es fuel)
include accepts

theorem parseline (derives : Line front cmd) (follows : Follows lineEnd rest)
    (next : tokens es s = front ++ rest) (enough : 4 * front.length + 3 < fuel + 1) :
    ∃ s', Shell.parseline es (fuel + 1) s = .ok (cmd, s') ∧ tokens es s' = rest := by
  -- The pipe and the ampersands, whatever comes after them.
  have begins : ∀ {first backs after cmd}, Pipe first cmd → Ampersands backs →
      Follows [.rightParen, .semicolon] after → tokens es s = first ++ backs ++ after →
      4 * (first ++ backs).length + 2 < fuel →
      ∃ s₁ s₂, Shell.parsepipe es fuel s = .ok (cmd, s₁) ∧
        parsebacks es fuel cmd s₁ = .ok (cmd.backed backs.length, s₂) ∧ tokens es s₂ = after := by
    intro first backs after cmd pipe amps follows next enough
    rw [List.append_assoc] at next
    rw [List.length_append] at enough
    have goesOn : Follows pipeEnd (backs ++ after) := by
      cases backs with
      | nil => exact follows.mono (by decide)
      | cons amp backs =>
        have isAmp := amps amp (List.mem_cons_self ..)
        simp [Follows, isAmp, pipeEnd]
    obtain ⟨s₁, parsed, rest₁⟩ := accepts.pipe pipe goesOn next (by omega)
    have ends : starts [ampersand] after = false := follows.not_starts (by decide)
    have short : backs.length < fuel := by omega
    obtain ⟨s₂, backed, rest₂⟩ : ∃ s₂, parsebacks es fuel cmd s₁ =
        .ok (cmd.backed backs.length, s₂) ∧ tokens es s₂ = after :=
      parsebacks_complete amps ends rest₁ short
    exact ⟨s₁, s₂, parsed, backed, rest₂⟩
  cases derives with
  | last pipe amps =>
    obtain ⟨s₁, s₂, parsed, backed, rest₂⟩ := begins pipe amps (follows.mono (by decide)) next
      (by omega)
    have ends : starts [semicolon] (tokens es s₂) = false := by
      rw [rest₂]
      exact follows.not_starts (by decide)
    simp only [Shell.parseline, parsed, ok_bind, backed, peek_eq es s₂ areSymbols_semicolon, ends]
    exact ⟨skip s₂, rfl, by rw [tokens_skip, rest₂]⟩
  | @sequence first backs others semi cmd right pipe amps isSemi line =>
    rw [List.length_append, List.length_cons] at enough
    rw [List.append_assoc] at next
    have isNext : Follows [.rightParen, .semicolon] (semi :: others ++ rest) := by
      simp [Follows, isSemi]
    obtain ⟨s₁, s₂, parsed, backed, rest₂⟩ := begins pipe amps isNext next (by omega)
    obtain ⟨_, s₃, took, rest₃⟩ := gettoken_of_cons rest₂
    obtain ⟨s₄, parsedLine, rest₄⟩ := accepts.line line follows rest₃ (by omega)
    have more : starts [semicolon] (tokens es s₂) = true := by
      rw [rest₂]
      exact starts_semicolon.mpr (by simp [isSemi])
    simp only [Shell.parseline, parsed, ok_bind, backed, peek_eq es s₂ areSymbols_semicolon, more,
      gettoken_skip, took, if_true, parsedLine]
    exact ⟨s₄, rfl, rest₄⟩

theorem parsepipe (derives : Pipe front cmd) (follows : Follows pipeEnd rest)
    (next : tokens es s = front ++ rest) (enough : 4 * front.length + 2 < fuel + 1) :
    ∃ s', Shell.parsepipe es (fuel + 1) s = .ok (cmd, s') ∧ tokens es s' = rest := by
  cases derives with
  | last exec =>
    obtain ⟨s₁, parsed, rest₁⟩ := accepts.exec exec (follows.mono (by decide)) next (by omega)
    have ends : starts [bar] (tokens es s₁) = false := by
      rw [rest₁]
      exact follows.not_starts (by decide)
    rw [Shell.parsepipe, parsed, ok_bind]
    simp only [peek_eq es s₁ areSymbols_bar, ends]
    exact ⟨skip s₁, rfl, by rw [tokens_skip, rest₁]⟩
  | @into first others isBar cmd right exec isBarKind pipe =>
    rw [List.length_append, List.length_cons] at enough
    rw [List.append_assoc] at next
    have isNext : Follows execEnd (isBar :: others ++ rest) := by
      simp [Follows, isBarKind, execEnd]
    obtain ⟨s₁, parsed, rest₁⟩ := accepts.exec exec isNext next (by omega)
    obtain ⟨_, s₂, took, rest₂⟩ := gettoken_of_cons rest₁
    obtain ⟨s₃, parsedPipe, rest₃⟩ := accepts.pipe pipe follows rest₂ (by omega)
    have more : starts [bar] (tokens es s₁) = true := by
      rw [rest₁]
      exact starts_bar.mpr (by simp [isBarKind])
    rw [Shell.parsepipe, parsed, ok_bind]
    simp only [peek_eq es s₁ areSymbols_bar, more, gettoken_skip, took, if_true, parsedPipe]
    exact ⟨s₃, rfl, rest₃⟩

theorem parseexec (derives : Exec front cmd) (follows : Follows execEnd rest)
    (next : tokens es s = front ++ rest) (enough : 4 * front.length + 1 < fuel + 1) :
    ∃ s', Shell.parseexec es (fuel + 1) s = .ok (cmd, s') ∧ tokens es s' = rest := by
  rw [Shell.parseexec, peek_eq es s areSymbols_leftParen]
  cases derives with
  | block isLeft line isRight after =>
    have opened : starts [leftParen] (tokens es s) = true := by
      rw [next]
      exact starts_leftParen.mpr (by simp [isLeft])
    rw [opened]
    apply accepts.block isLeft line isRight after follows
    · rw [tokens_skip]
      exact next
    · omega
  | @simple first others args redirs more before words few =>
    have isNext := words.follows follows
    rw [List.append_assoc] at next
    have closed : starts [leftParen] (tokens es s) = false := by
      rw [next]
      exact (before.follows isNext).not_starts (by decide)
    rw [List.length_append] at enough
    have short : first.length < fuel ∧ others.length < fuel := by omega
    have skipped : tokens es (skip s) = first ++ (others ++ rest) := by rw [tokens_skip, next]
    have ends : starts [less, greater] (others ++ rest) = false :=
      isNext.not_starts (by decide)
    obtain ⟨s₁, parsed, rest₁⟩ : ∃ s₁, parseredirs es fuel (.exec []) (skip s) =
        .ok ((Cmd.exec []).redirected redirs, s₁) ∧ tokens es s₁ = others ++ rest :=
      parseredirs_complete before ends skipped short.1
    obtain ⟨s₂, parsedArgs, rest₂⟩ : ∃ s₂, parseargs es fuel ([] : List Span).length
        ((Cmd.exec []).redirected redirs) s₁ =
          .ok ((Cmd.exec ([] ++ args)).redirected (redirs ++ more), s₂) ∧
        tokens es s₂ = rest :=
      parseargs_complete words follows rest₁ few short.2
    rw [closed]
    simp only [parsed, ok_bind]
    exact ⟨s₂, parsedArgs, rest₂⟩

theorem parseblock (isLeft : left.kind = .leftParen) (derives : Line inside cmd)
    (isRight : right.kind = .rightParen) (redirections : Redirs after redirs)
    (follows : Follows execEnd rest) (next : tokens es s = left :: inside ++ right :: after ++ rest)
    (enough : 4 * (left :: inside ++ right :: after).length < fuel + 1) :
    ∃ s', Shell.parseblock es (fuel + 1) s = .ok (cmd.redirected redirs, s') ∧
      tokens es s' = rest := by
  have next' : tokens es s = left :: (inside ++ (right :: (after ++ rest))) := by
    rw [next]
    simp
  simp only [List.length_append, List.length_cons] at enough
  obtain ⟨_, s₁, took, rest₁⟩ := gettoken_of_cons next'
  have closes : Follows lineEnd (right :: (after ++ rest)) := by simp [Follows, isRight, lineEnd]
  obtain ⟨s₂, parsed, rest₂⟩ := accepts.line derives closes rest₁ (by omega)
  obtain ⟨_, s₃, took', rest₃⟩ := gettoken_of_cons rest₂
  have short : after.length < fuel := by omega
  obtain ⟨s₄, parsedRedirs, rest₄⟩ : ∃ s₄, parseredirs es fuel cmd s₃ =
      .ok (cmd.redirected redirs, s₄) ∧ tokens es s₄ = rest :=
    parseredirs_complete redirections (follows.not_starts (by decide)) rest₃ short
  have opened : starts [leftParen] (tokens es s) = true := by
    rw [next']
    exact starts_leftParen.mpr (by simp [isLeft])
  have closed : starts [rightParen] (tokens es s₂) = true := by
    rw [rest₂]
    exact starts_rightParen.mpr (by simp [isRight])
  rw [Shell.parseblock, peek_eq es s areSymbols_leftParen, opened]
  simp only [gettoken_skip, took, not_true, if_false, parsed, ok_bind,
    peek_eq es s₂ areSymbols_rightParen, closed, took', parsedRedirs]
  exact ⟨s₄, rfl, rest₄⟩

end

theorem all (es fuel : Nat) : Accepts es fuel := by
  induction fuel with
  | zero => exact ⟨nofun, nofun, nofun, nofun⟩
  | succ fuel accepts =>
    exact ⟨accepts.parseline, accepts.parsepipe, accepts.parseexec, accepts.parseblock⟩

end Accepts
end Xv6.Shell
