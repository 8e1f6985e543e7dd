import Xv6.Semantics.Execution
import Xv6.Semantics.Update
import Xv6.Semantics.Window

/-!
# Console input

`consoleintr` and `consoleread` of any number of processes. The interrupt handler
runs under `cons.lock` from its start to its end; a reader holds the lock from one
`sleep` to the next, and each iteration of its loop is one step. A reader that sleeps
may be woken at any time. The copies to user memory succeed.
-/

namespace Xv6.Console

open Xv6.Semantics

/-- `INPUT_BUF_SIZE`. -/
def inputBufSize : Nat := 128

instance : NeZero inputBufSize := ⟨by decide⟩

/-- `'\n'`, `'\r'` and the control characters of `console.c`. -/
def newline : UInt8 := 10
def carriageReturn : UInt8 := 13
def controlD : UInt8 := 4
def controlH : UInt8 := 8
def controlP : UInt8 := 16
def controlU : UInt8 := 21
def delete : UInt8 := 127

/-- The input part of `cons`. -/
structure Cons where
  buf : Fin inputBufSize → UInt8
  r : BitVec 32
  w : BitVec 32
  e : BitVec 32

namespace Cons

/-- The loop of kill-line, which `fuel` bounds. -/
def kill : Nat → Cons → Cons
  | 0, cons => cons
  | fuel + 1, cons =>
    if cons.e ≠ cons.w ∧ cons.buf (slotOf inputBufSize (cons.e - 1)) ≠ newline then
      kill fuel { cons with e := cons.e - 1 }
    else cons

/-- The `default` case of `consoleintr`. -/
def store (cons : Cons) (c : UInt8) : Cons :=
  if c ≠ 0 ∧ (cons.e - cons.r).toNat < inputBufSize then
    let c := if c = carriageReturn then newline else c
    let stored := { cons with
      buf := Function.update cons.buf (slotOf inputBufSize cons.e) c
      e := cons.e + 1 }
    if c = newline ∨ c = controlD ∨ (stored.e - stored.r).toNat = inputBufSize then
      { stored with w := stored.e }
    else stored
  else cons

/-- `consoleintr`. Its output is left out. -/
def consoleintr (cons : Cons) (c : UInt8) : Cons :=
  if c = controlP then cons
  else if c = controlU then cons.kill (gap cons.w cons.e)
  else if c = controlH ∨ c = delete then
    if cons.e ≠ cons.w then { cons with e := cons.e - 1 } else cons
  else cons.store c

end Cons

/-- Where a process is in its `consoleread`, which has a number: it wants `n` more
bytes after those that it has got. -/
inductive Call where
  | outside
  | reads (id n : Nat) (got : List UInt8)
  | sleeps (id n : Nat) (got : List UInt8)

/-- The console and the processes that read from it. -/
structure State (P : Type) where
  cons : Cons
  lock : Option P
  call : P → Call
  /-- The number of `consoleread` calls. -/
  calls : Nat

/-- Where a `consoleread` ends. -/
inductive Ending where
  | newline
  | length
  | endOfFile
  | killed
  deriving DecidableEq

/-- What is seen of the console. -/
inductive Event where
  /-- The interrupt handler has got a character. -/
  | typed (c : UInt8)
  | called (id n : Nat)
  /-- A `consoleread` has copied a byte to its caller. -/
  | took (id : Nat) (c : UInt8)
  /-- A `consoleread` has taken `^D`. -/
  | passed (id : Nat)
  | ended (id : Nat) (bytes : List UInt8) (ending : Ending)
  deriving DecidableEq

/-- The steps of the interrupt handler and of the readers. -/
inductive Label (P : Type) where
  | consoleintr (c : UInt8)
  | consoleread (p : P) (n : Nat)
  /-- `sleep` returns, with `cons.lock`. -/
  | wakes (p : P)
  /-- The next iteration of the loop. -/
  | goesOn (p : P) (killed : Bool)

variable {P : Type} [DecidableEq P]

namespace State

def setCall (state : State P) (p : P) (call : Call) : State P :=
  { state with call := Function.update state.call p call }

/-- `release(&cons.lock)`, at the end of the call or in `sleep`. -/
def leaves (state : State P) (p : P) (call : Call) : State P :=
  { state.setCall p call with lock := none }

/-- `acquire(&cons.lock)`, at the start of the call or in `sleep`. -/
def enters (state : State P) (p : P) (call : Call) : State P :=
  { state.setCall p call with lock := some p }

/-- `cons.r++`. -/
def advance (state : State P) : State P :=
  { state with cons := { state.cons with r := state.cons.r + 1 } }

end State

/-- An iteration of the loop of `consoleread`. -/
def iterate (state : State P) (p : P) (killed : Bool) : Option (State P × List Event) :=
  match state.call p with
  | .reads id 0 got => some (state.leaves p .outside, [.ended id got .length])
  | .reads id (n + 1) got =>
    if state.cons.r = state.cons.w then
      if killed then some (state.leaves p .outside, [.ended id got .killed])
      else some (state.leaves p (.sleeps id (n + 1) got), [])
    else
      let c := state.cons.buf (slotOf inputBufSize state.cons.r)
      if c = controlD then
        -- `cons.r--` saves it for the next call, if there are bytes to return.
        if got ≠ [] then some (state.leaves p .outside, [.ended id got .endOfFile])
        else some (state.advance.leaves p .outside, [.passed id, .ended id got .endOfFile])
      else if c = newline then
        some (state.advance.leaves p .outside, [.took id c, .ended id (got ++ [c]) .newline])
      else some (state.advance.setCall p (.reads id n (got ++ [c])), [.took id c])
  | _ => none

/-- One step, and what is seen of it. The result is `none` where `cons.lock` is held by
another process, or the process is elsewhere. -/
def step (state : State P) : Label P → Option (State P × List Event)
  | .consoleintr c =>
    match state.lock with
    | none => some ({ state with cons := state.cons.consoleintr c }, [.typed c])
    | some _ => none
  | .consoleread p n =>
    match state.call p, state.lock with
    | .outside, none =>
      some ({ state.enters p (.reads state.calls n []) with calls := state.calls + 1 },
        [.called state.calls n])
    | _, _ => none
  | .wakes p =>
    match state.call p, state.lock with
    | .sleeps id n got, none => some (state.enters p (.reads id n got), [])
    | _, _ => none
  | .goesOn p killed => iterate state p killed

/-- The console after `consoleinit`, in zeroed memory. -/
def State.Initial (state : State P) : Prop :=
  state.cons.r = 0 ∧ state.cons.w = 0 ∧ state.cons.e = 0 ∧ state.lock = none ∧
    (∀ p, state.call p = .outside) ∧ state.calls = 0

/-- The console with what has been seen of it, in order. -/
abbrev Observed (P : Type) := State P × List Event

def observedStep (state : Observed P) (label : Label P) : Option (Observed P) :=
  (step state.1 label).map fun (next, events) => (next, state.2 ++ events)

/-- The console. -/
def console (P : Type) [DecidableEq P] : TransitionSystem (Observed P) (Label P) :=
  .ofStep (fun state => state.1.Initial ∧ state.2 = []) observedStep

/-! ## The line discipline -/

/-- The input as the line discipline has it: the characters that have been committed, the
line that is being edited, and how many of the committed characters have been taken. -/
structure Input where
  committed : List UInt8
  line : List UInt8
  taken : Nat

namespace Input

def empty : Input := ⟨[], [], 0⟩

/-- The number of characters that are kept. -/
def kept (input : Input) : Nat := input.committed.length - input.taken + input.line.length

/-- An ordinary character joins the line. The line is committed when it is complete or
there is no more room. -/
def append (input : Input) (c : UInt8) : Input :=
  let longer := { input with line := input.line ++ [c] }
  if c = newline ∨ c = controlD ∨ longer.kept = inputBufSize then
    { longer with committed := longer.committed ++ longer.line, line := [] }
  else longer

/-- A character is typed. Some characters are `ignored`; erase and kill-line change the
line; a carriage return is a newline; and what arrives when there is no more room is
dropped. -/
def types (ignored : UInt8 → Bool) (input : Input) (c : UInt8) : Input :=
  if ignored c then input
  else if c = controlU then { input with line := [] }
  else if c = controlH ∨ c = delete then { input with line := input.line.dropLast }
  else if input.kept < inputBufSize then input.append (if c = carriageReturn then newline else c)
  else input

/-- What is seen of the console. -/
def observes (ignored : UInt8 → Bool) (input : Input) : Event → Input
  | .typed c => input.types ignored c
  | .took _ _ => { input with taken := input.taken + 1 }
  | .passed _ => { input with taken := input.taken + 1 }
  | _ => input

/-- The input after a history. -/
def after (ignored : UInt8 → Bool) (history : List Event) : Input :=
  history.foldl (observes ignored) empty

end Input

/-- The characters that `consoleintr` does not treat as input: 0 and `^P`. -/
def notInput (c : UInt8) : Bool := c = 0 ∨ c = controlP

/-- The bytes that have been copied to the callers, in order. -/
def tookBytes (history : List Event) : List UInt8 :=
  history.filterMap fun
    | .took _ c => some c
    | _ => none

/-- Those of one call. -/
def tookBy (id : Nat) (history : List Event) : List UInt8 :=
  history.filterMap fun
    | .took id' c => if id' = id then some c else none
    | _ => none

/-- The bytes of the calls that have ended, in order. -/
def endedBytes (history : List Event) : List UInt8 :=
  (history.filterMap fun
    | .ended _ bytes _ => some bytes
    | _ => none).flatten

/-- The number of calls in progress. -/
def inProgress (history : List Event) : Int :=
  (history.map fun
    | .called _ _ => (1 : Int)
    | .ended _ _ _ => -1
    | _ => 0).sum

/-- One call follows the other. -/
def Successive (history : List Event) : Prop :=
  ∀ front id n rest, history = front ++ .called id n :: rest → inProgress front = 0

end Xv6.Console
