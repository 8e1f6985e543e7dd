import Mathlib.Data.List.TakeWhile
import Mathlib.Logic.Function.Basic

/-!
# The parser of the shell

`gettoken`, `peek` and the functions of `sh.c` that parse a line. The cursor `*ps` is
the rest of the line, up to `es`; the pointers that end up in a command are offsets in
the line. Each call and each iteration of a loop uses up a unit of `fuel`.
-/

namespace Xv6.Shell

/-- `MAXARGS`. -/
def maxargs : Nat := 10

/-- `O_RDONLY`, `O_WRONLY`, `O_CREATE` and `O_TRUNC`. -/
def oRdonly : Nat := 0x000
def oWronly : Nat := 0x001
def oCreate : Nat := 0x200
def oTrunc : Nat := 0x400

/-- A counted string: `q` and `eq`, or `file` and `efile`. -/
structure Span where
  start : Nat
  stop : Nat
  deriving DecidableEq

/-- `struct cmd` and what it is cast to. -/
inductive Cmd where
  | exec (argv : List Span)
  | redir (cmd : Cmd) (file : Span) (mode fd : Nat)
  | pipe (left right : Cmd)
  | list (left right : Cmd)
  | back (cmd : Cmd)
  deriving DecidableEq

/-- `" \t\r\n\v"`. -/
def whitespace : List UInt8 := [32, 9, 13, 10, 11]

/-- The characters of `"<|>&;()"`. -/
def less : UInt8 := 60
def bar : UInt8 := 124
def greater : UInt8 := 62
def ampersand : UInt8 := 38
def semicolon : UInt8 := 59
def leftParen : UInt8 := 40
def rightParen : UInt8 := 41

/-- `"<|>&;()"`. -/
def symbols : List UInt8 :=
  [less, bar, greater, ampersand, semicolon, leftParen, rightParen]

/-- What `gettoken` returns: the character of the token, `+` for `>>`, `a` for a word and
0 at the end. -/
inductive Kind where
  | bar
  | leftParen
  | rightParen
  | semicolon
  | ampersand
  | less
  | greater
  | append
  | word
  | eof
  deriving DecidableEq

/-- The loops over white space. -/
def skip (s : List UInt8) : List UInt8 := s.dropWhile whitespace.contains

/-- A character of a word. -/
def inWord (c : UInt8) : Bool := !whitespace.contains c && !symbols.contains c

/-- The `switch` of `gettoken`: the token that starts here, and what is left. There is no
0 before `es`. -/
def scan : List UInt8 → Kind × List UInt8
  | [] => (.eof, [])
  | c :: s =>
    if c = bar then (.bar, s)
    else if c = leftParen then (.leftParen, s)
    else if c = rightParen then (.rightParen, s)
    else if c = semicolon then (.semicolon, s)
    else if c = ampersand then (.ampersand, s)
    else if c = less then (.less, s)
    else if c = greater then
      match s with
      | [] => (.greater, [])
      | d :: s' => if d = greater then (.append, s') else (.greater, s)
    else (.word, (c :: s).dropWhile inWord)

/-- `gettoken`. -/
def gettoken (es : Nat) (s : List UInt8) : Kind × Span × List UInt8 :=
  let s := skip s
  let (ret, rest) := scan s
  (ret, ⟨es - s.length, es - rest.length⟩, skip rest)

/-- `peek`. -/
def peek (s toks : List UInt8) : Bool × List UInt8 :=
  match skip s with
  | [] => (false, [])
  | c :: s => (toks.contains c, c :: s)

/-- How the parser stops without a command. -/
inductive Stop where
  | panic (message : String)
  | outOfFuel
  deriving DecidableEq

/-- What a function of the parser leaves: a command and the new cursor. -/
abbrev Parsed := Except Stop (Cmd × List UInt8)

/-- `parseredirs`. -/
def parseredirs (es : Nat) : (fuel : Nat) → Cmd → List UInt8 → Parsed
  | 0, _, _ => .error .outOfFuel
  | fuel + 1, cmd, s =>
    let (more, s) := peek s [less, greater]
    if more then
      let (tok, _, s) := gettoken es s
      let (kind, file, s) := gettoken es s
      if kind ≠ .word then .error (.panic "missing file for redirection")
      else
        match tok with
        | .less => parseredirs es fuel (.redir cmd file oRdonly 0) s
        | .greater => parseredirs es fuel (.redir cmd file (oWronly ||| oCreate ||| oTrunc) 1) s
        | .append => parseredirs es fuel (.redir cmd file (oWronly ||| oCreate) 1) s
        | _ => parseredirs es fuel cmd s
    else .ok (cmd, s)

/-- `cmd->argv[argc] = q`, where `cmd` is the command inside the redirections. -/
def Cmd.addArg : Cmd → Span → Cmd
  | .exec argv, word => .exec (argv ++ [word])
  | .redir cmd file mode fd, word => .redir (cmd.addArg word) file mode fd
  | cmd, _ => cmd

/-- The loop of `parseexec`. -/
def parseargs (es : Nat) : (fuel : Nat) → (argc : Nat) → Cmd → List UInt8 → Parsed
  | 0, _, _, _ => .error .outOfFuel
  | fuel + 1, argc, ret, s =>
    let (stops, s) := peek s [bar, rightParen, ampersand, semicolon]
    if stops then .ok (ret, s)
    else
      let (tok, word, s) := gettoken es s
      if tok = .eof then .ok (ret, s)
      else if tok ≠ .word then .error (.panic "syntax")
      else if maxargs ≤ argc + 1 then .error (.panic "too many args")
      else do
        let (ret, s) ← parseredirs es fuel (ret.addArg word) s
        parseargs es fuel (argc + 1) ret s

/-- The loop of `parseline`. -/
def parsebacks (es : Nat) : (fuel : Nat) → Cmd → List UInt8 → Parsed
  | 0, _, _ => .error .outOfFuel
  | fuel + 1, cmd, s =>
    let (more, s) := peek s [ampersand]
    if more then
      let (_, _, s) := gettoken es s
      parsebacks es fuel (.back cmd) s
    else .ok (cmd, s)

mutual

/-- `parseline`. -/
def parseline (es : Nat) : (fuel : Nat) → List UInt8 → Parsed
  | 0, _ => .error .outOfFuel
  | fuel + 1, s => do
    let (cmd, s) ← parsepipe es fuel s
    let (cmd, s) ← parsebacks es fuel cmd s
    let (more, s) := peek s [semicolon]
    if more then
      let (_, _, s) := gettoken es s
      let (right, s) ← parseline es fuel s
      return (.list cmd right, s)
    else return (cmd, s)

/-- `parsepipe`. -/
def parsepipe (es : Nat) : (fuel : Nat) → List UInt8 → Parsed
  | 0, _ => .error .outOfFuel
  | fuel + 1, s => do
    let (cmd, s) ← parseexec es fuel s
    let (more, s) := peek s [bar]
    if more then
      let (_, _, s) := gettoken es s
      let (right, s) ← parsepipe es fuel s
      return (.pipe cmd right, s)
    else return (cmd, s)

/-- `parseexec`. -/
def parseexec (es : Nat) : (fuel : Nat) → List UInt8 → Parsed
  | 0, _ => .error .outOfFuel
  | fuel + 1, s =>
    let (block, s) := peek s [leftParen]
    if block then parseblock es fuel s
    else do
      let (ret, s) ← parseredirs es fuel (.exec []) s
      parseargs es fuel 0 ret s

/-- `parseblock`. -/
def parseblock (es : Nat) : (fuel : Nat) → List UInt8 → Parsed
  | 0, _ => .error .outOfFuel
  | fuel + 1, s =>
    let (opened, s) := peek s [leftParen]
    if ¬opened then .error (.panic "parseblock")
    else do
      let (_, _, s) := gettoken es s
      let (cmd, s) ← parseline es fuel s
      let (closed, s) := peek s [rightParen]
      if ¬closed then .error (.panic "syntax - missing )")
      else
        let (_, _, s) := gettoken es s
        parseredirs es fuel cmd s

end

/-- The line in memory, and 0 behind it. -/
def bytes (line : List UInt8) (i : Nat) : UInt8 := line.getD i 0

/-- `nulterminate`. -/
def nulterminate : Cmd → (Nat → UInt8) → Nat → UInt8
  | .exec argv, memory => argv.foldl (fun memory word => Function.update memory word.stop 0) memory
  | .redir cmd file _ _, memory => Function.update (nulterminate cmd memory) file.stop 0
  | .pipe left right, memory => nulterminate right (nulterminate left memory)
  | .list left right, memory => nulterminate right (nulterminate left memory)
  | .back cmd, memory => nulterminate cmd memory

/-- `parsecmd`, on the line before the first 0: the command and the memory that
`nulterminate` leaves. -/
def parsecmd (s : List UInt8) : Except Stop (Cmd × (Nat → UInt8)) := do
  let line := s.takeWhile (· ≠ 0)
  let es := line.length
  let (cmd, s) ← parseline es (4 * line.length + 4) line
  let (_, s) := peek s []
  if s ≠ [] then .error (.panic "syntax")
  else return (cmd, nulterminate cmd (bytes line))

end Xv6.Shell
