import Xv6.Proc.Machine

/-!
# Parents, children and the calls that relate them

Beside the machine, the calls of `fork`, `exit` and `wait` are recorded: who forked
which entry of the process table, with which pid and status a process called
`exit`, and which pid and status a `wait` that freed an entry handed to its caller.
From the record follows who is responsible for an exited process: the process
that forked it, or `init` once that process has called `exit`.
-/

namespace Xv6.Proc

open Xv6.Semantics

variable {ncpu : Nat}

/-- The calls that make and end families. -/
inductive Event where
  /-- `fork` in `p` has made `np` its child. -/
  | fork (p np : Slot)
  /-- The process `pid` in the entry `p` calls `exit(status)`. -/
  | exit (p : Slot) (pid status : Int)
  /-- `wait` in `p` frees the entry `pp`, copies out `status` and returns `pid`. -/
  | reap (p pp : Slot) (pid status : Int)

/-- The call that an operation makes or answers. -/
def eventOf (kernel : Kernel ncpu) (c : Fin ncpu) : Op → Option Event
  | .setParent np p => some (.fork p np)
  | .exit status =>
    match kernel.myproc c with
    | some p => if p = initproc then none else some (.exit p (kernel.proc p).pid status)
    | none => none
  | .waitChild p copyoutFails pp =>
    if (kernel.proc pp).state = .zombie ∧ copyoutFails = false then
      some (.reap p pp (kernel.proc pp).pid (kernel.proc pp).xstate)
    else none
  | _ => none

/-- The record after a step, the latest call first. -/
def recordCall (kernel : Kernel ncpu) (history : List Event) : Label ncpu → List Event
  | .step c =>
    match (kernel.cpu c).ops with
    | op :: _ => (eventOf kernel c op).toList ++ history
    | [] => history
  | _ => history

/-- A machine with the calls made so far. -/
abbrev Recorded (ncpu : Nat) := Kernel ncpu × List Event

/-- A step of the machine, which is recorded. -/
def recordedStep (state : Recorded ncpu) (label : Label ncpu) : Option (Recorded ncpu) :=
  (step state.1 label).map fun next => (next, recordCall state.1 state.2 label)

/-- The machine with its record. -/
def recorded (ncpu : Nat) : TransitionSystem (Recorded ncpu) (Label ncpu) :=
  .ofStep (· = (boot ncpu, [])) recordedStep

/-- The pid and status with which the process in the entry `pp` has called `exit`,
unless a `wait` has answered since. -/
def exitOf (pp : Slot) : List Event → Option (Int × Int)
  | [] => none
  | .fork _ _ :: older => exitOf pp older
  | .exit p pid status :: older => if p = pp then some (pid, status) else exitOf pp older
  | .reap _ q _ _ :: older => if q = pp then none else exitOf pp older

/-- Who has to wait for the process in the entry `pp`: its parent, or `init` after
the parent has called `exit`. -/
def guardian (pp : Slot) : List Event → Option Slot
  | [] => none
  | .fork p np :: older => if np = pp then some p else guardian pp older
  | .exit p _ _ :: older =>
    if guardian pp older = some p then some initproc else guardian pp older
  | .reap _ q _ _ :: older => if q = pp then none else guardian pp older

/-- A process calls `exit` at most once, and each `wait` that frees an entry answers
one such call, with its pid and status, to the process that has to wait for it. -/
def Answered : List Event → Prop
  | [] => True
  | .fork _ _ :: older => Answered older
  | .exit p _ _ :: older => exitOf p older = none ∧ Answered older
  | .reap p pp pid status :: older =>
    exitOf pp older = some (pid, status) ∧ guardian pp older = some p ∧ Answered older

/-- A process that has been published and has not exited. -/
def ProcState.Alive (state : ProcState) : Prop :=
  state = .sleeping ∨ state = .runnable ∨ state = .running

/-- The process in the entry `p` is asleep in `wait`: nothing else sleeps on its
own entry of the process table. -/
def Process.AsleepInWait (process : Process) (p : Slot) : Prop :=
  process.state = .sleeping ∧ process.chan = some (.proc p)

/-- Exited processes and the processes that wait for them. -/
structure Reaped (state : Recorded ncpu) : Prop where
  /-- No call of `exit` is answered twice, with another result or to another process. -/
  answered : Answered state.2
  /-- A process that has called `exit` stays in its entry until it is answered. -/
  stays : ∀ pp pid status, exitOf pp state.2 = some (pid, status) →
    (state.1.proc pp).pid = pid ∧ ((state.1.proc pp).state.Alive ∨
      (state.1.proc pp).state = .zombie ∧ (state.1.proc pp).xstate = status)
  /-- A `ZOMBIE` has called `exit` and has a parent that lives. -/
  reapable : ∀ pp, (state.1.proc pp).state = .zombie → exitOf pp state.2 ≠ none ∧
    ∃ p, (state.1.proc pp).parent = some p ∧ (state.1.proc p).state.Alive
  /-- A process is not asleep in `wait` beside a `ZOMBIE` child while `wait_lock` is free. -/
  awake : state.1.owner .waitLock = none → ∀ p pp, (state.1.proc pp).parent = some p →
    (state.1.proc pp).state = .zombie → ¬ (state.1.proc p).AsleepInWait p

/-- The step leaves `ZOMBIE`s alone, or is the one in which `wait` frees them. A
`wait` whose `copyout` fails frees nobody. -/
structure KeepsZombies (state : Recorded ncpu) (label : Label ncpu) (next : Recorded ncpu) :
    Prop where
  zombies : ∀ pp, (state.1.proc pp).state = .zombie →
    (next.1.proc pp).state = .zombie ∨
      ∃ p, next.2 = .reap p pp (state.1.proc pp).pid (state.1.proc pp).xstate :: state.2
  failing : ∀ c p pp rest, label = .step c →
    (state.1.cpu c).ops = .waitChild p true pp :: rest → next.1.proc = state.1.proc

section History

variable {history : List Event} {p pp : Slot} {pid status : Int}

@[simp] theorem exitOf_fork (np : Slot) : exitOf pp (.fork p np :: history) = exitOf pp history :=
  rfl

@[simp] theorem exitOf_exit_self : exitOf p (.exit p pid status :: history) = some (pid, status) :=
  if_pos rfl

theorem exitOf_exit_of_ne (ne : p ≠ pp) :
    exitOf pp (.exit p pid status :: history) = exitOf pp history :=
  if_neg ne

@[simp] theorem exitOf_reap_self (reaper : Slot) :
    exitOf p (.reap reaper p pid status :: history) = none :=
  if_pos rfl

theorem exitOf_reap_of_ne (reaper : Slot) (ne : p ≠ pp) :
    exitOf pp (.reap reaper p pid status :: history) = exitOf pp history :=
  if_neg ne

/-- Nobody has to wait on behalf of a process that has called `exit`. -/
def GuardiansStay (history : List Event) : Prop :=
  exitOf initproc history = none ∧
    ∀ pp q, guardian pp history = some q → exitOf q history = none

theorem GuardiansStay.fork (stay : GuardiansStay history) (staying : exitOf p history = none)
    (np : Slot) : GuardiansStay (.fork p np :: history) := by
  refine ⟨stay.1, fun pp q guards => ?_⟩
  simp only [guardian] at guards
  split at guards
  · cases guards
    exact staying
  · exact stay.2 pp q guards

theorem GuardiansStay.exit (stay : GuardiansStay history) (notInit : p ≠ initproc) :
    GuardiansStay (.exit p pid status :: history) := by
  have first : exitOf initproc (.exit p pid status :: history) = none := by
    rw [exitOf_exit_of_ne notInit, stay.1]
  refine ⟨first, fun pp q guards => ?_⟩
  simp only [guardian] at guards
  split at guards
  · cases guards
    exact first
  rename_i other
  have ne : p ≠ q := by
    rintro rfl
    exact other guards
  rw [exitOf_exit_of_ne ne]
  exact stay.2 pp q guards

theorem GuardiansStay.reap (stay : GuardiansStay history) (reaper : Slot) :
    GuardiansStay (.reap reaper p pid status :: history) := by
  have answered : ∀ q, exitOf q history = none →
      exitOf q (.reap reaper p pid status :: history) = none := by
    intro q staying
    simp only [exitOf]
    split
    · rfl
    · exact staying
  refine ⟨answered _ stay.1, fun pp q guards => ?_⟩
  simp only [guardian] at guards
  split at guards
  · cases guards
  · exact answered q (stay.2 pp q guards)

end History
end Xv6.Proc
