import Xv6.Shell.Grammar

/-!
# The parser accepts exactly its grammar

Each function of the parser yields what the grammar derives from the tokens that it
takes, or reports an error; and it yields every derivation from the tokens that come
next, if what follows cannot go on with it.
-/

namespace Xv6.Shell

variable {es : Nat} {s : List UInt8}

/-! ## The next token -/

section Starts

variable {token : Token} {rest : List Token}

theorem starts_iff (kinds : List Kind)
    (same : ∀ kind : Kind, kind.symbol.any toks.contains = true ↔ kind ∈ kinds) :
    starts toks (token :: rest) = true ↔ token.kind ∈ kinds := same token.kind

theorem starts_redir : starts [less, greater] (token :: rest) = true ↔
    token.kind ∈ [Kind.less, .greater, .append] :=
  starts_iff _ fun kind => by cases kind <;> decide

theorem starts_ampersand : starts [ampersand] (token :: rest) = true ↔
    token.kind ∈ [Kind.ampersand] :=
  starts_iff _ fun kind => by cases kind <;> decide

theorem starts_semicolon : starts [semicolon] (token :: rest) = true ↔
    token.kind ∈ [Kind.semicolon] :=
  starts_iff _ fun kind => by cases kind <;> decide

theorem starts_bar : starts [bar] (token :: rest) = true ↔ token.kind ∈ [Kind.bar] :=
  starts_iff _ fun kind => by cases kind <;> decide

theorem starts_leftParen : starts [leftParen] (token :: rest) = true ↔
    token.kind ∈ [Kind.leftParen] :=
  starts_iff _ fun kind => by cases kind <;> decide

theorem starts_rightParen : starts [rightParen] (token :: rest) = true ↔
    token.kind ∈ [Kind.rightParen] :=
  starts_iff _ fun kind => by cases kind <;> decide

theorem starts_stop : starts [bar, rightParen, ampersand, semicolon] (token :: rest) = true ↔
    token.kind ∈ [Kind.bar, .rightParen, .ampersand, .semicolon] :=
  starts_iff _ fun kind => by cases kind <;> decide

end Starts

theorem exists_of_starts
    (isStart : starts toks list = true) : ∃ token rest, list = token :: rest := by
  cases list with
  | nil => cases isStart
  | cons token rest => exact ⟨token, rest, rfl⟩

theorem gettoken_of_cons (next : tokens es s = token :: rest) :
    token.kind ≠ .eof ∧ ∃ s', gettoken es s = (token.kind, token.span, s') ∧
      tokens es s' = rest := by
  have taken := gettoken_eq es s
  rw [next] at taken
  exact taken

theorem gettoken_of_nil (ended : tokens es s = []) :
    gettoken es s = (.eof, ⟨es, es⟩, []) := by
  have taken := gettoken_eq es s
  rw [ended] at taken
  exact taken

/-! ## What the parser yields -/

/-- The result is an error, or derived from the tokens that have been taken. -/
def Yields (es : Nat) (s : List UInt8) (result : Parsed)
    (derives : List Token → Cmd → Prop) : Prop :=
  match result with
  | .ok (cmd, s') => ∃ front, tokens es s = front ++ tokens es s' ∧ derives front cmd
  | .error stop => stop ≠ .outOfFuel

namespace Yields

variable {s' : List UInt8} {result : Parsed} {derives others : List Token → Cmd → Prop}
  {taken : List Token}

theorem after (yields : Yields es s' result derives) (split : tokens es s = taken ++ tokens es s')
    (extends_ : ∀ front cmd, derives front cmd → others (taken ++ front) cmd) :
    Yields es s result others := by
  cases result with
  | error stop => exact yields
  | ok pair =>
    obtain ⟨front, rest, derived⟩ := yields
    refine ⟨taken ++ front, ?_, extends_ front _ derived⟩
    rw [split, rest, List.append_assoc]

theorem bind (yields : Yields es s' result derives)
    (continued : ∀ front cmd s'', tokens es s' = front ++ tokens es s'' → derives front cmd →
      Yields es s (next (cmd, s'')) others) : Yields es s (result >>= next) others := by
  cases result with
  | error stop => exact yields
  | ok pair =>
    obtain ⟨front, rest, derived⟩ := yields
    exact continued front pair.1 pair.2 rest derived

end Yields

theorem redirected_cons (cmd : Cmd) (redir : Redirection) (redirs : List Redirection) :
    cmd.redirected (redir :: redirs) =
      (Cmd.redir cmd redir.file redir.mode redir.fd).redirected redirs := rfl

theorem redirected_append (cmd : Cmd) (redirs others : List Redirection) :
    cmd.redirected (redirs ++ others) = (cmd.redirected redirs).redirected others :=
  List.foldl_append ..

/-- `cmd->argv[argc] = q` reaches the command through the redirections. -/
theorem addArg_redirected (args : List Span) (redirs : List Redirection) (word : Span) :
    ((Cmd.exec args).redirected redirs).addArg word =
      (Cmd.exec (args ++ [word])).redirected redirs := by
  induction redirs using List.reverseRecOn with
  | nil => rfl
  | append_singleton redirs redir ih =>
    rw [redirected_append, redirected_append, ← ih]
    rfl

theorem areSymbols_redir : ∀ c ∈ [less, greater], symbols.contains c = true := by decide +kernel

theorem parseredirs_yields (enough : (tokens es s).length < fuel) :
    Yields es s (parseredirs es fuel cmd s) fun front result =>
      ∃ redirs, Redirs front redirs ∧ result = cmd.redirected redirs := by
  induction fuel generalizing cmd s with
  | zero => cases enough
  | succ fuel ih =>
    rw [parseredirs, peek_eq es s areSymbols_redir]
    cases more : starts [less, greater] (tokens es s) with
    | false => exact ⟨[], by rw [tokens_skip]; rfl, [], .nil, rfl⟩
    | true =>
      obtain ⟨op, rest, next⟩ := exists_of_starts more
      rw [next, starts_redir] at more
      simp only [List.mem_cons, List.not_mem_nil, or_false] at more
      obtain ⟨_, s₁, tookOp, rest₁⟩ := gettoken_of_cons next
      simp only [gettoken_skip, tookOp, if_true]
      cases rest with
      | nil =>
        rw [gettoken_of_nil rest₁]
        exact nofun
      | cons file rest =>
        obtain ⟨_, s₂, tookFile, rest₂⟩ := gettoken_of_cons rest₁
        simp only [tookFile]
        by_cases isWord : file.kind = .word
        · have shorter : (tokens es s₂).length < fuel := by
            rw [next, List.length_cons, List.length_cons, ← rest₂] at enough
            omega
          have split : tokens es s = [op, file] ++ tokens es s₂ := by rw [next, rest₂]; rfl
          rw [if_neg (not_not.mpr isWord)]
          rcases more with isOp | isOp | isOp
          · rw [isOp]
            refine (ih shorter).after split fun front result derived => ?_
            obtain ⟨redirs, derives, rfl⟩ := derived
            exact ⟨_ :: redirs, .cons (.input isOp isWord) derives, rfl⟩
          · rw [isOp]
            refine (ih shorter).after split fun front result derived => ?_
            obtain ⟨redirs, derives, rfl⟩ := derived
            exact ⟨_ :: redirs, .cons (.output isOp isWord) derives, rfl⟩
          · rw [isOp]
            refine (ih shorter).after split fun front result derived => ?_
            obtain ⟨redirs, derives, rfl⟩ := derived
            exact ⟨_ :: redirs, .cons (.append isOp isWord) derives, rfl⟩
        · rw [if_pos isWord]
          exact nofun

theorem Words.add (isWord : word.kind = .word) (head : Redirs first redirs)
    (tail : Words rest args others) :
    Words ([word] ++ first ++ rest) (word.span :: args) (redirs ++ others) :=
  .cons isWord head tail

theorem areSymbols_stop : ∀ c ∈ [bar, rightParen, ampersand, semicolon],
    symbols.contains c = true := by decide +kernel

theorem parseargs_yields (few : args.length < maxargs) (enough : (tokens es s).length < fuel) :
    Yields es s (parseargs es fuel args.length ((Cmd.exec args).redirected redirs) s)
      fun front result => ∃ more others, Words front more others ∧
        (args ++ more).length < maxargs ∧
        result = (Cmd.exec (args ++ more)).redirected (redirs ++ others) := by
  induction fuel generalizing args redirs s with
  | zero => cases enough
  | succ fuel ih =>
    rw [parseargs, peek_eq es s areSymbols_stop]
    have finished : ∀ s', tokens es s = tokens es s' →
        Yields es s (.ok ((Cmd.exec args).redirected redirs, s')) fun front result =>
          ∃ more others, Words front more others ∧ (args ++ more).length < maxargs ∧
            result = (Cmd.exec (args ++ more)).redirected (redirs ++ others) := by
      intro s' same
      refine ⟨[], same, [], [], .nil, ?_, ?_⟩
      · rw [List.append_nil]
        exact few
      · rw [List.append_nil, List.append_nil]
    cases stops : starts [bar, rightParen, ampersand, semicolon] (tokens es s) with
    | true => exact finished _ (tokens_skip es s).symm
    | false =>
      simp only [gettoken_skip]
      cases next : tokens es s with
      | nil =>
        rw [gettoken_of_nil next]
        exact finished [] (by rw [next]; rfl)
      | cons word rest =>
        obtain ⟨notEof, s₁, took, rest₁⟩ := gettoken_of_cons next
        simp only [took, if_neg notEof]
        by_cases isWord : word.kind = .word
        · rw [if_neg (not_not.mpr isWord)]
          by_cases full : maxargs ≤ args.length + 1
          · rw [if_pos full]
            exact nofun
          rw [next, List.length_cons, ← rest₁] at enough
          rw [if_neg full, addArg_redirected]
          have split : tokens es s = [word] ++ tokens es s₁ := by rw [next, rest₁]; rfl
          refine (parseredirs_yields (by omega)).bind fun front cmd s₂ rest₂ derived => ?_
          obtain ⟨added, head, rfl⟩ := derived
          have length := congrArg List.length rest₂
          rw [List.length_append] at length
          have grown : args.length + 1 = (args ++ [word.span]).length := by simp
          simp only [← redirected_append, grown]
          have splitAll : tokens es s = ([word] ++ front) ++ tokens es s₂ := by
            rw [split, rest₂, List.append_assoc]
          refine (ih (by omega) (by omega)).after splitAll
            fun rest result derived => ?_
          obtain ⟨more, others, words, few, rfl⟩ := derived
          refine ⟨word.span :: more, added ++ others, words.add isWord head, ?_, ?_⟩
          · simpa using few
          · simp
        · rw [if_pos isWord]
          exact nofun

theorem areSymbols_ampersand : ∀ c ∈ [ampersand], symbols.contains c = true := by decide +kernel

theorem parsebacks_yields (enough : (tokens es s).length < fuel) :
    Yields es s (parsebacks es fuel cmd s) fun front result =>
      Ampersands front ∧ result = cmd.backed front.length := by
  induction fuel generalizing cmd s with
  | zero => cases enough
  | succ fuel ih =>
    rw [parsebacks, peek_eq es s areSymbols_ampersand]
    cases more : starts [ampersand] (tokens es s) with
    | false => exact ⟨[], by rw [tokens_skip]; rfl, nofun, rfl⟩
    | true =>
      obtain ⟨amp, rest, next⟩ := exists_of_starts more
      rw [next, starts_ampersand, List.mem_singleton] at more
      obtain ⟨_, s₁, took, rest₁⟩ := gettoken_of_cons next
      rw [next, List.length_cons, ← rest₁] at enough
      simp only [gettoken_skip, took, if_true]
      have split : tokens es s = [amp] ++ tokens es s₁ := by rw [next, rest₁]; rfl
      refine (ih (by omega)).after split fun front result derived => ?_
      obtain ⟨amps, rfl⟩ := derived
      refine ⟨?_, rfl⟩
      intro token mem
      rcases List.mem_cons.mp mem with rfl | mem
      · exact more
      · exact amps token mem

theorem areSymbols_semicolon : ∀ c ∈ [semicolon], symbols.contains c = true := by decide +kernel
theorem areSymbols_bar : ∀ c ∈ [bar], symbols.contains c = true := by decide +kernel
theorem areSymbols_leftParen : ∀ c ∈ [leftParen], symbols.contains c = true := by decide +kernel
theorem areSymbols_rightParen : ∀ c ∈ [rightParen], symbols.contains c = true := by decide +kernel

/-- What the functions yield with this much fuel. They need four units for each token that
is left, since each round from `parseline` to `parseline` takes a parenthesis. -/
structure Parses (es fuel : Nat) : Prop where
  line : ∀ s, 4 * (tokens es s).length + 3 < fuel → Yields es s (parseline es fuel s) Line
  pipe : ∀ s, 4 * (tokens es s).length + 2 < fuel → Yields es s (parsepipe es fuel s) Pipe
  exec : ∀ s, 4 * (tokens es s).length + 1 < fuel → Yields es s (parseexec es fuel s) Exec
  block : ∀ s, 4 * (tokens es s).length < fuel → Yields es s (parseblock es fuel s) Exec

namespace Parses

variable {fuel : Nat}

theorem parseline (parses : Parses es fuel) (s : List UInt8)
    (enough : 4 * (tokens es s).length + 3 < fuel + 1) :
    Yields es s (Shell.parseline es (fuel + 1) s) Line := by
  refine (parses.pipe s (by omega)).bind fun first cmd s₁ rest₁ derived => ?_
  have length₁ := congrArg List.length rest₁
  rw [List.length_append] at length₁
  refine (parsebacks_yields (by omega)).bind fun backs cmd' s₂ rest₂ isBacked => ?_
  obtain ⟨amps, rfl⟩ := isBacked
  have length₂ := congrArg List.length rest₂
  rw [List.length_append] at length₂
  have split : tokens es s = (first ++ backs) ++ tokens es s₂ := by
    rw [rest₁, rest₂, List.append_assoc]
  simp only [peek_eq es s₂ areSymbols_semicolon]
  cases more : starts [semicolon] (tokens es s₂) with
  | false =>
    refine ⟨first ++ backs, ?_, .last derived amps⟩
    rw [split, tokens_skip]
  | true =>
    obtain ⟨semi, rest, next⟩ := exists_of_starts more
    rw [next, starts_semicolon, List.mem_singleton] at more
    obtain ⟨_, s₃, took, rest₃⟩ := gettoken_of_cons next
    rw [next, List.length_cons, ← rest₃] at length₂
    simp only [gettoken_skip, took, if_true]
    refine (parses.line s₃ (by omega)).bind fun others right s₄ rest₄ followed => ?_
    refine ⟨first ++ backs ++ semi :: others, ?_, .sequence derived amps more followed⟩
    rw [split, next, ← rest₃, rest₄]
    simp

theorem parsepipe (parses : Parses es fuel) (s : List UInt8)
    (enough : 4 * (tokens es s).length + 2 < fuel + 1) :
    Yields es s (Shell.parsepipe es (fuel + 1) s) Pipe := by
  refine (parses.exec s (by omega)).bind fun first cmd s₁ rest₁ derived => ?_
  have length₁ := congrArg List.length rest₁
  rw [List.length_append] at length₁
  simp only [peek_eq es s₁ areSymbols_bar]
  cases more : starts [bar] (tokens es s₁) with
  | false =>
    refine ⟨first, ?_, .last derived⟩
    rw [rest₁, tokens_skip]
  | true =>
    obtain ⟨isBar, rest, next⟩ := exists_of_starts more
    rw [next, starts_bar, List.mem_singleton] at more
    obtain ⟨_, s₂, took, rest₂⟩ := gettoken_of_cons next
    rw [next, List.length_cons, ← rest₂] at length₁
    simp only [gettoken_skip, took, if_true]
    refine (parses.pipe s₂ (by omega)).bind fun others right s₃ rest₃ followed => ?_
    refine ⟨first ++ isBar :: others, ?_, .into derived more followed⟩
    rw [rest₁, next, ← rest₂, rest₃, List.append_assoc, List.cons_append]

theorem parseexec (parses : Parses es fuel) (s : List UInt8)
    (enough : 4 * (tokens es s).length + 1 < fuel + 1) :
    Yields es s (Shell.parseexec es (fuel + 1) s) Exec := by
  rw [Shell.parseexec, peek_eq es s areSymbols_leftParen]
  cases starts [leftParen] (tokens es s) with
  | true =>
    have same : tokens es s = [] ++ tokens es (skip s) := by rw [tokens_skip]; rfl
    refine (parses.block (skip s) ?_).after same fun front cmd derived => derived
    rw [tokens_skip]
    omega
  | false =>
    have short : (tokens es (skip s)).length < fuel := by
      rw [tokens_skip]
      omega
    refine (parseredirs_yields short).bind fun first cmd s₁ rest₁ derived => ?_
    obtain ⟨redirs, before, rfl⟩ := derived
    rw [tokens_skip] at rest₁
    have length₁ := congrArg List.length rest₁
    rw [List.length_append] at length₁
    have none : ([] : List Span).length < maxargs := by decide
    refine (parseargs_yields none (by omega)).after rest₁ fun rest cmd derived => ?_
    obtain ⟨args, others, words, few, rfl⟩ := derived
    exact .simple before words few

theorem parseblock (parses : Parses es fuel) (s : List UInt8)
    (enough : 4 * (tokens es s).length < fuel + 1) :
    Yields es s (Shell.parseblock es (fuel + 1) s) Exec := by
  rw [Shell.parseblock, peek_eq es s areSymbols_leftParen]
  cases opened : starts [leftParen] (tokens es s) with
  | false => exact nofun
  | true =>
    obtain ⟨left, rest, next⟩ := exists_of_starts opened
    rw [next, starts_leftParen, List.mem_singleton] at opened
    obtain ⟨_, s₁, took, rest₁⟩ := gettoken_of_cons next
    rw [next, List.length_cons, ← rest₁] at enough
    simp only [gettoken_skip, took, not_true, if_false]
    refine (parses.line s₁ (by omega)).bind fun inside cmd s₂ rest₂ derived => ?_
    have length₂ := congrArg List.length rest₂
    rw [List.length_append] at length₂
    simp only [peek_eq es s₂ areSymbols_rightParen]
    cases closed : starts [rightParen] (tokens es s₂) with
    | false => exact nofun
    | true =>
      obtain ⟨right, rest', next'⟩ := exists_of_starts closed
      rw [next', starts_rightParen, List.mem_singleton] at closed
      obtain ⟨_, s₃, took', rest₃⟩ := gettoken_of_cons next'
      rw [next', List.length_cons, ← rest₃] at length₂
      simp only [gettoken_skip, took', not_true, if_false]
      have split : tokens es s = (left :: inside ++ [right]) ++ tokens es s₃ := by
        rw [next, ← rest₁, rest₂, next', ← rest₃]
        simp
      refine (parseredirs_yields (by omega)).after split fun front result derived' => ?_
      obtain ⟨redirs, after, rfl⟩ := derived'
      have whole := Exec.block opened derived closed after
      rw [List.append_assoc]
      exact whole

theorem all (es fuel : Nat) : Parses es fuel := by
  induction fuel with
  | zero => exact ⟨nofun, nofun, nofun, nofun⟩
  | succ fuel parses => exact ⟨parses.parseline, parses.parsepipe, parses.parseexec, parses.parseblock⟩

end Parses
end Xv6.Shell
