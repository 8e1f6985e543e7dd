import Xv6.Semantics.Execution
import Xv6.Semantics.Update
import Xv6.Semantics.Window

/-!
# Pipes

`pipewrite` and `piperead` of any number of processes on one pipe. A process holds
`pi->lock` from one `sleep` to the next, and each iteration of a loop is one step. A
process that sleeps may be woken at any time: it looks at the pipe again. The copies
from and to user memory succeed.
-/

namespace Xv6.Pipes

open Xv6.Semantics

/-- `PIPESIZE`. -/
def pipeSize : Nat := 512

instance : NeZero pipeSize := ⟨by decide⟩

/-- `struct pipe`. -/
structure Pipe (α : Type) where
  data : Fin pipeSize → α
  nread : BitVec 32
  nwrite : BitVec 32
  readopen : Bool
  writeopen : Bool

/-- Where a process is in its call. A `pipewrite` has a number, and the bytes that it
has still to store. -/
inductive Call (α : Type) where
  | outside
  | writes (id : Nat) (rest : List α)
  | sleepsToWrite (id : Nat) (rest : List α)
  /-- The first loop of `piperead`, for `n` bytes. -/
  | awaits (n : Nat)
  | sleepsToRead (n : Nat)
  /-- The second loop: `n` bytes to go, after those that have been read. -/
  | copies (n : Nat) (got : List α)

/-- A pipe and the processes that use it. -/
structure State (α P : Type) where
  pipe : Pipe α
  lock : Option P
  call : P → Call α
  /-- The number of `pipewrite` calls. -/
  calls : Nat

/-- What is seen of the calls. -/
inductive Event (α : Type) where
  | called (id : Nat) (source : List α)
  /-- `pipewrite` has stored a byte. -/
  | accepted (id : Nat) (byte : α)
  /-- `pipewrite` has returned the number of its bytes. -/
  | wrote (id : Nat)
  /-- `piperead` has returned these bytes. -/
  | returned (bytes : List α)

/-- The steps of the processes. -/
inductive Label (α P : Type) where
  | pipewrite (p : P) (source : List α)
  | piperead (p : P) (n : Nat)
  /-- `pipeclose(pi, writable)`. -/
  | pipeclose (writable : Bool)
  /-- `sleep` returns, with `pi->lock`. -/
  | wakes (p : P)
  /-- The next iteration of a loop. -/
  | goesOn (p : P) (killed : Bool)

variable {α P : Type} [DecidableEq P]

namespace State

def setCall (state : State α P) (p : P) (call : Call α) : State α P :=
  { state with call := Function.update state.call p call }

/-- `release(&pi->lock)`, at the end of the call or in `sleep`. -/
def leaves (state : State α P) (p : P) (call : Call α) : State α P :=
  { state.setCall p call with lock := none }

/-- `acquire(&pi->lock)`, at the start of the call or in `sleep`. -/
def enters (state : State α P) (p : P) (call : Call α) : State α P :=
  { state.setCall p call with lock := some p }

/-- `pi->data[pi->nwrite++ % PIPESIZE] = ch`. -/
def put (state : State α P) (byte : α) : State α P :=
  { state with
    pipe := { state.pipe with
      data := Function.update state.pipe.data (slotOf pipeSize state.pipe.nwrite) byte
      nwrite := state.pipe.nwrite + 1 } }

/-- `ch = pi->data[pi->nread++ % PIPESIZE]`: the state after it. -/
def skip (state : State α P) : State α P :=
  { state with pipe := { state.pipe with nread := state.pipe.nread + 1 } }

/-- The byte that it reads. -/
def front (state : State α P) : α := state.pipe.data (slotOf pipeSize state.pipe.nread)

end State

/-- An iteration of a loop of `pipewrite` or `piperead`. -/
def iterate (state : State α P) (p : P) (killed : Bool) : Option (State α P × List (Event α)) :=
  match state.call p with
  | .writes id [] => some (state.leaves p .outside, [.wrote id])
  | .writes id (byte :: rest) =>
    if ¬state.pipe.readopen ∨ killed then some (state.leaves p .outside, [])
    else if state.pipe.nwrite = state.pipe.nread + BitVec.ofNat 32 pipeSize then
      some (state.leaves p (.sleepsToWrite id (byte :: rest)), [])
    else some ((state.put byte).setCall p (.writes id rest), [.accepted id byte])
  | .awaits n =>
    if state.pipe.nread = state.pipe.nwrite ∧ state.pipe.writeopen then
      if killed then some (state.leaves p .outside, [])
      else some (state.leaves p (.sleepsToRead n), [])
    else some (state.setCall p (.copies n []), [])
  | .copies 0 got => some (state.leaves p .outside, [.returned got])
  | .copies (n + 1) got =>
    if state.pipe.nread = state.pipe.nwrite then some (state.leaves p .outside, [.returned got])
    else some (state.skip.setCall p (.copies n (got ++ [state.front])), [])
  | _ => none

/-- One step, and what is seen of it. The result is `none` where the process has to
wait for `pi->lock`, or is elsewhere. -/
def step (state : State α P) : Label α P → Option (State α P × List (Event α))
  | .pipewrite p source =>
    match state.call p, state.lock with
    | .outside, none =>
      some ({ state.enters p (.writes state.calls source) with calls := state.calls + 1 },
        [.called state.calls source])
    | _, _ => none
  | .piperead p n =>
    match state.call p, state.lock with
    | .outside, none => some (state.enters p (.awaits n), [])
    | _, _ => none
  | .pipeclose writable =>
    match state.lock with
    | none =>
      some ({ state with pipe :=
        if writable then { state.pipe with writeopen := false }
        else { state.pipe with readopen := false } }, [])
    | some _ => none
  | .wakes p =>
    match state.call p, state.lock with
    | .sleepsToWrite id rest, none => some (state.enters p (.writes id rest), [])
    | .sleepsToRead n, none => some (state.enters p (.awaits n), [])
    | _, _ => none
  | .goesOn p killed => iterate state p killed

/-- A pipe after `pipealloc`. -/
def State.Initial (state : State α P) : Prop :=
  state.pipe.nread = 0 ∧ state.pipe.nwrite = 0 ∧ state.pipe.readopen = true ∧
    state.pipe.writeopen = true ∧ state.lock = none ∧ (∀ p, state.call p = .outside) ∧
    state.calls = 0

/-- A pipe with what has been seen of its calls, in order. -/
abbrev Observed (α P : Type) := State α P × List (Event α)

def observedStep (state : Observed α P) (label : Label α P) : Option (Observed α P) :=
  (step state.1 label).map fun (next, events) => (next, state.2 ++ events)

/-- A pipe. -/
def pipe (α P : Type) [DecidableEq P] : TransitionSystem (Observed α P) (Label α P) :=
  .ofStep (fun state => state.1.Initial ∧ state.2 = []) observedStep

/-- The bytes that `pipewrite` calls have stored, in order. -/
def acceptedBytes (history : List (Event α)) : List α :=
  history.filterMap fun
    | .accepted _ byte => some byte
    | _ => none

/-- Those of one call. -/
def acceptedBy (id : Nat) (history : List (Event α)) : List α :=
  history.filterMap fun
    | .accepted id' byte => if id' = id then some byte else none
    | _ => none

/-- The bytes that `piperead` calls have returned, in order. -/
def returnedBytes (history : List (Event α)) : List α :=
  (history.filterMap fun
    | .returned bytes => some bytes
    | _ => none).flatten

end Xv6.Pipes
