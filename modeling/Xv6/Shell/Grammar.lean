import Mathlib.Data.List.DropRight
import Xv6.Shell.Parser

/-!
# Tokens and the grammar of the shell

The tokens of a line are those that `gettoken` returns one after the other. The grammar
derives a command from a list of tokens.
-/

namespace Xv6.Shell

/-- A token, and where it stands in the line. -/
structure Token where
  kind : Kind
  span : Span
  deriving DecidableEq

/-- The tokens that `gettoken` returns, `fuel` of them at most. -/
def lex (es : Nat) : (fuel : Nat) → List UInt8 → List Token
  | 0, _ => []
  | fuel + 1, s =>
    let (kind, span, rest) := gettoken es s
    if kind = .eof then [] else ⟨kind, span⟩ :: lex es fuel rest

/-- The tokens from the cursor on. Each of them has a character at least. -/
def tokens (es : Nat) (s : List UInt8) : List Token := lex es s.length s

/-- The character a token starts with, where it is a symbol. -/
def Kind.symbol : Kind → Option UInt8
  | .bar => some Shell.bar
  | .leftParen => some Shell.leftParen
  | .rightParen => some Shell.rightParen
  | .semicolon => some Shell.semicolon
  | .ampersand => some Shell.ampersand
  | .less => some Shell.less
  | .greater => some Shell.greater
  | .append => some Shell.greater
  | .word => none
  | .eof => none

/-- The first token starts with one of the symbols. -/
def starts (toks : List UInt8) : List Token → Bool
  | [] => false
  | token :: _ => token.kind.symbol.any toks.contains

/-! ## The grammar -/

/-- A redirection: the file, the mode and the descriptor. -/
structure Redirection where
  file : Span
  mode : Nat
  fd : Nat
  deriving DecidableEq

/-- `redir ::= ('<' | '>' | '>>') word`. -/
inductive Redir : List Token → Redirection → Prop where
  | input {op file : Token} (isOp : op.kind = .less) (isWord : file.kind = .word) :
      Redir [op, file] ⟨file.span, oRdonly, 0⟩
  | output {op file : Token} (isOp : op.kind = .greater) (isWord : file.kind = .word) :
      Redir [op, file] ⟨file.span, oWronly ||| oCreate ||| oTrunc, 1⟩
  | append {op file : Token} (isOp : op.kind = .append) (isWord : file.kind = .word) :
      Redir [op, file] ⟨file.span, oWronly ||| oCreate, 1⟩

/-- `{redir}`. -/
inductive Redirs : List Token → List Redirection → Prop where
  | nil : Redirs [] []
  | cons {first rest : List Token} {redir : Redirection} {redirs : List Redirection}
      (head : Redir first redir) (tail : Redirs rest redirs) :
      Redirs (first ++ rest) (redir :: redirs)

/-- `{word {redir}}`. -/
inductive Words : List Token → List Span → List Redirection → Prop where
  | nil : Words [] [] []
  | cons {word : Token} {first rest : List Token} {args : List Span}
      {redirs others : List Redirection} (isWord : word.kind = .word) (head : Redirs first redirs)
      (tail : Words rest args others) :
      Words (word :: first ++ rest) (word.span :: args) (redirs ++ others)

/-- A command inside redirections, the first of them innermost. -/
def Cmd.redirected (cmd : Cmd) (redirs : List Redirection) : Cmd :=
  redirs.foldl (fun cmd redir => .redir cmd redir.file redir.mode redir.fd) cmd

/-- A command inside `BACK` nodes. -/
def Cmd.backed (cmd : Cmd) : Nat → Cmd
  | 0 => cmd
  | n + 1 => (Cmd.back cmd).backed n

/-- `{'&'}`. -/
def Ampersands (tokens : List Token) : Prop := ∀ token ∈ tokens, token.kind = .ampersand

mutual

/-- `line ::= pipe {'&'} [';' line]`. -/
inductive Line : List Token → Cmd → Prop where
  | last {first backs : List Token} {cmd : Cmd} (pipe : Pipe first cmd) (amps : Ampersands backs) :
      Line (first ++ backs) (cmd.backed backs.length)
  | sequence {first backs rest : List Token} {semi : Token} {cmd right : Cmd}
      (pipe : Pipe first cmd) (amps : Ampersands backs) (isSemi : semi.kind = .semicolon)
      (line : Line rest right) :
      Line (first ++ backs ++ semi :: rest) (.list (cmd.backed backs.length) right)

/-- `pipe ::= exec ['|' pipe]`. -/
inductive Pipe : List Token → Cmd → Prop where
  | last {first : List Token} {cmd : Cmd} (exec : Exec first cmd) : Pipe first cmd
  | into {first rest : List Token} {bar : Token} {cmd right : Cmd} (exec : Exec first cmd)
      (isBar : bar.kind = .bar) (pipe : Pipe rest right) :
      Pipe (first ++ bar :: rest) (.pipe cmd right)

/-- `exec ::= '(' line ')' {redir} | {redir} {word {redir}}`, with fewer than `MAXARGS`
words. -/
inductive Exec : List Token → Cmd → Prop where
  | block {inside rest : List Token} {left right : Token} {cmd : Cmd}
      {redirs : List Redirection} (isLeft : left.kind = .leftParen) (line : Line inside cmd)
      (isRight : right.kind = .rightParen) (after : Redirs rest redirs) :
      Exec (left :: inside ++ right :: rest) (cmd.redirected redirs)
  | simple {first rest : List Token} {args : List Span} {redirs others : List Redirection}
      (before : Redirs first redirs) (words : Words rest args others)
      (few : args.length < maxargs) :
      Exec (first ++ rest) ((Cmd.exec args).redirected (redirs ++ others))

end

/-! ## What `gettoken` and `peek` see -/

section Cursor

variable {es : Nat} {s : List UInt8}

theorem length_skip_le (s : List UInt8) : (skip s).length ≤ s.length :=
  List.length_dropWhile_le ..

theorem skip_skip (s : List UInt8) : skip (skip s) = skip s :=
  List.dropWhile_idempotent ..

theorem not_whitespace_of_skip (skipped : skip s = c :: rest) :
    whitespace.contains c = false := by
  induction s with
  | nil => cases skipped
  | cons d s ih =>
    rw [skip, List.dropWhile_cons] at skipped
    split at skipped
    · exact ih skipped
    · rename_i notWhite
      cases skipped
      exact Bool.eq_false_iff.mpr notWhite

theorem scan_nil : scan [] = (.eof, []) := rfl

theorem scan_word (notSymbol : symbols.contains c = false) :
    scan (c :: rest) = (.word, (c :: rest).dropWhile inWord) := by
  simp only [symbols, List.contains_cons, List.contains_nil, Bool.or_false,
    Bool.or_eq_false_iff, beq_eq_false_iff_ne, ne_eq] at notSymbol
  obtain ⟨notLess, notBar, notGreater, notAmp, notSemi, notLeft, notRight⟩ := notSymbol
  simp only [scan, if_neg notLess, if_neg notBar, if_neg notGreater, if_neg notAmp,
    if_neg notSemi, if_neg notLeft, if_neg notRight]

variable {c : UInt8} {rest : List UInt8}

/-- A token that starts here has a character, and its kind says whether that is a symbol. -/
theorem scan_cons (rest : List UInt8) (notWhite : whitespace.contains c = false) :
    (scan (c :: rest)).1 ≠ .eof ∧ (scan (c :: rest)).2.length ≤ rest.length ∧
      (scan (c :: rest)).1.symbol = if symbols.contains c then some c else none := by
  cases isSymbol : symbols.contains c with
  | false =>
    have own : inWord c = true := by simp only [inWord, notWhite, isSymbol, Bool.not_false, Bool.and_self]
    rw [scan_word isSymbol, List.dropWhile_cons_of_pos own]
    exact ⟨nofun, List.length_dropWhile_le .., rfl⟩
  | true =>
    simp only [symbols, List.contains_cons, List.contains_nil, Bool.or_false, Bool.or_eq_true,
      beq_iff_eq] at isSymbol
    rcases isSymbol with rfl | rfl | rfl | rfl | rfl | rfl | rfl
    · exact ⟨nofun, Nat.le_refl _, rfl⟩
    · exact ⟨nofun, Nat.le_refl _, rfl⟩
    · cases rest with
      | nil => exact ⟨nofun, Nat.le_refl _, rfl⟩
      | cons d rest =>
        obtain rfl | twice := eq_or_ne d greater
        · exact ⟨nofun, Nat.le_succ _, rfl⟩
        have one : scan (greater :: d :: rest) = (.greater, d :: rest) := by
          change (if d = greater then (Kind.append, rest) else (Kind.greater, d :: rest)) = _
          rw [if_neg twice]
        rw [one]
        exact ⟨nofun, Nat.le_refl _, rfl⟩
    · exact ⟨nofun, Nat.le_refl _, rfl⟩
    · exact ⟨nofun, Nat.le_refl _, rfl⟩
    · exact ⟨nofun, Nat.le_refl _, rfl⟩
    · exact ⟨nofun, Nat.le_refl _, rfl⟩

theorem gettoken_skip (es : Nat) (s : List UInt8) : gettoken es (skip s) = gettoken es s := by
  simp only [gettoken, skip_skip]

theorem gettoken_nil (ended : skip s = []) : gettoken es s = (.eof, ⟨es, es⟩, []) := by
  simp only [gettoken, ended, scan_nil]
  rfl

theorem gettoken_cons (es : Nat) (skipped : skip s = c :: rest) :
    (gettoken es s).1 ≠ .eof ∧ (gettoken es s).2.2.length < s.length ∧
      (gettoken es s).1.symbol = if symbols.contains c then some c else none := by
  obtain ⟨notEof, shorter, symbol⟩ := scan_cons rest (not_whitespace_of_skip skipped)
  simp only [gettoken, skipped]
  refine ⟨notEof, ?_, symbol⟩
  have skips := length_skip_le (scan (c :: rest)).2
  have whole := length_skip_le s
  rw [skipped, List.length_cons] at whole
  omega

theorem lex_of_end (ended : skip s = []) (fuel : Nat) : lex es fuel s = [] := by
  cases fuel with
  | zero => rfl
  | succ fuel =>
    rw [lex, gettoken_nil ended]
    rfl

theorem lex_succ (skipped : skip s = c :: rest) (fuel : Nat) :
    lex es (fuel + 1) s =
      ⟨(gettoken es s).1, (gettoken es s).2.1⟩ :: lex es fuel (gettoken es s).2.2 := by
  exact if_neg (gettoken_cons es skipped).1

theorem lex_congr (enough : s.length ≤ fuel) (enoughToo : s.length ≤ more) :
    lex es fuel s = lex es more s := by
  induction fuel generalizing more s with
  | zero =>
    have ended : skip s = [] := by
      rw [List.length_eq_zero_iff.mp (Nat.le_zero.mp enough)]
      rfl
    rw [lex_of_end ended, lex_of_end ended]
  | succ fuel ih =>
    cases skipped : skip s with
    | nil => rw [lex_of_end skipped, lex_of_end skipped]
    | cons c rest =>
      have shorter := (gettoken_cons es skipped).2.1
      obtain ⟨more, rfl⟩ : ∃ less, more = less + 1 := ⟨more - 1, by omega⟩
      rw [lex_succ skipped, lex_succ skipped, ih (by omega)]
      omega

theorem tokens_of_end (ended : skip s = []) : tokens es s = [] := lex_of_end ended _

theorem tokens_of_cons (skipped : skip s = c :: rest) :
    tokens es s = ⟨(gettoken es s).1, (gettoken es s).2.1⟩ :: tokens es (gettoken es s).2.2 := by
  have shorter := (gettoken_cons es skipped).2.1
  obtain ⟨fuel, length⟩ : ∃ fuel, s.length = fuel + 1 := ⟨s.length - 1, by omega⟩
  rw [tokens, length, lex_succ skipped, tokens, lex_congr (by omega) (Nat.le_refl _)]

theorem tokens_eq_nil : tokens es s = [] ↔ skip s = [] := by
  cases skipped : skip s with
  | nil => simp [tokens_of_end skipped]
  | cons c rest => simp [tokens_of_cons skipped]

theorem tokens_skip (es : Nat) (s : List UInt8) : tokens es (skip s) = tokens es s := by
  cases skipped : skip s with
  | nil => rw [tokens_of_end skipped, tokens_of_end rfl]
  | cons c rest =>
    have again : skip (c :: rest) = c :: rest := by rw [← skipped, skip_skip]
    rw [tokens_of_cons skipped, tokens_of_cons again, ← skipped, gettoken_skip]

theorem length_tokens_le : (tokens es s).length ≤ s.length := by
  generalize fuel : s.length = n
  induction n using Nat.strong_induction_on generalizing s with
  | h n ih =>
    cases skipped : skip s with
    | nil =>
      rw [tokens_of_end skipped]
      exact Nat.zero_le _
    | cons c rest =>
      have shorter := (gettoken_cons es skipped).2.1
      rw [tokens_of_cons skipped, List.length_cons]
      have less := ih _ (fuel ▸ shorter) rfl
      omega

theorem gettoken_eq (es : Nat) (s : List UInt8) :
    match tokens es s with
    | [] => gettoken es s = (.eof, ⟨es, es⟩, [])
    | token :: rest => token.kind ≠ .eof ∧ ∃ s', gettoken es s = (token.kind, token.span, s') ∧
        tokens es s' = rest := by
  cases skipped : skip s with
  | nil =>
    rw [tokens_of_end skipped]
    exact gettoken_nil skipped
  | cons c rest =>
    rw [tokens_of_cons skipped]
    exact ⟨(gettoken_cons es skipped).1, _, rfl, rfl⟩

theorem peek_eq (es : Nat) (s : List UInt8) (areSymbols : ∀ c ∈ toks, symbols.contains c = true) :
    peek s toks = (starts toks (tokens es s), skip s) := by
  cases skipped : skip s with
  | nil =>
    rw [peek, skipped, tokens_of_end skipped]
    rfl
  | cons c rest =>
    have symbol := (gettoken_cons es skipped).2.2
    rw [peek, skipped, tokens_of_cons skipped, starts, symbol]
    cases isSymbol : symbols.contains c with
    | true => rfl
    | false =>
      have notAmong : toks.contains c = false := by
        rw [Bool.eq_false_iff]
        intro among
        rw [areSymbols c (List.contains_iff_mem.mp among)] at isSymbol
        cases isSymbol
      exact congrArg (·, c :: rest) notAmong

end Cursor
end Xv6.Shell
