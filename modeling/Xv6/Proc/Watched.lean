import Xv6.Proc.Step

/-!
# The calls of `sleep` in progress

Beside the machine, the `sleep` calls in progress are recorded: from the moment a
process releases the lock inside `sleep` until `sleep` returns, and whether a
`wakeup` of its channel or a `kill` of it has come to it since. Below is the run in
which a process calls `sleep` when it has no tokens left. The scheduler has read its
`current_tick` before the first tick and `FATCAT_SCHED` makes it the last scheduled
tick, so the `n`-th timer interrupt charges `n` tokens.
-/

namespace Xv6.Proc

open Function Xv6.Semantics
open TransitionSystem (exec)

variable {ncpu : Nat}

/-- A call of `sleep(chan, lk)` that has released `lk`. -/
structure Wait where
  chan : Option Chan
  lk : Lock
  /-- A `wakeup(chan)` or a `kill` has come to the process since. -/
  woken : Bool

/-- The effect of an operation on the calls in progress. -/
def recordSleep (kernel : Kernel ncpu) (waits : Slot → Option Wait) : Op → Slot → Option Wait
  | .sleepRelease p chan lk => update waits p (some ⟨chan, lk, false⟩)
  | .sleepReturn p => update waits p none
  | .wake chan p =>
    update waits p ((waits p).map fun wait =>
      { wait with woken := wait.woken || wait.chan = chan })
  | .killVisit pid p =>
    update waits p ((waits p).map fun wait =>
      { wait with woken := wait.woken || (kernel.proc p).pid = pid })
  | _ => waits

/-- The effect of a step on the calls in progress. -/
def recordLabel (kernel : Kernel ncpu) (waits : Slot → Option Wait) :
    Label ncpu → Slot → Option Wait
  | .step c =>
    match (kernel.cpu c).ops with
    | op :: _ => recordSleep kernel waits op
    | [] => waits
  | _ => waits

/-- A machine with the calls of `sleep` in progress. -/
abbrev Watched (ncpu : Nat) := Kernel ncpu × (Slot → Option Wait)

/-- A step of the machine, which is recorded. -/
def watchedStep (state : Watched ncpu) (label : Label ncpu) : Option (Watched ncpu) :=
  (step state.1 label).map fun next => (next, recordLabel state.1 state.2 label)

/-- The machine with its record. -/
def watched (ncpu : Nat) : TransitionSystem (Watched ncpu) (Label ncpu) :=
  .ofStep (· = (boot ncpu, fun _ => none)) watchedStep

theorem exec_of_watched {state next : Watched ncpu} {labels : List (Label ncpu)}
    (executed : exec watchedStep state labels = some next) :
    exec step state.1 labels = some next.1 := by
  induction labels generalizing state with
  | nil =>
    cases executed
    rfl
  | cons label rest ih =>
    obtain ⟨middle, ran, continued⟩ := Option.bind_eq_some_iff.mp executed
    obtain ⟨kernel, stepped, rfl⟩ := Option.map_eq_some_iff.mp ran
    exact Option.bind_eq_some_iff.mpr ⟨kernel, stepped, ih continued⟩

/-! ## One process on one CPU -/

/-- `count` operations of one CPU. -/
def steps (c : Fin ncpu) (count : Nat) : List (Label ncpu) := List.replicate count (.step c)

/-- The steps of the boot. -/
def bootLabels : List (Label 1) := [steps 0 13, [.client 0 .finish], steps 0 1].flatten

/-- A timer interrupt and everything up to the return to user mode. -/
def turn : List (Label 1) :=
  (.timer 0 :: steps 0 4) ++ steps 0 316 ++ steps 0 20 ++ steps 0 316 ++ steps 0 8

/-- The labels of `count` turns since boot. -/
def turns : Nat → List (Label 1)
  | 0 => bootLabels
  | count + 1 => turns count ++ turn

/-- The first process calls `sleep` without tokens, and is runnable at once. When the scheduler
has chosen it again, it has left `sched` by its second swtch. -/
theorem exec_drainedSleep : ∃ asleep left : Watched 1,
    exec watchedStep (boot 1, fun _ => none) (turns 11 ++ (.syscall 0 (.sleep 1) :: steps 0 28)) =
      some asleep ∧
    exec watchedStep asleep (steps 0 316 ++ steps 0 9) = some left ∧
    asleep.2 initproc = some ⟨some .ticks, .tickslock, false⟩ ∧
    (asleep.1.proc initproc).state = .runnable ∧ (left.1.proc initproc).state = .running ∧
    left.1.owner (.proc initproc) = none ∧ (left.1.cpu 0).proc = none := by
  let view (asleep left : Watched 1) :=
    ((asleep.2 initproc).map fun wait => (wait.chan, wait.lk, wait.woken),
      (asleep.1.proc initproc).state, (left.1.proc initproc).state,
      (left.1.owner (.proc initproc)).isNone && (left.1.cpu 0).proc.isNone)
  have executed : ((exec watchedStep (boot 1, fun _ => none)
      (turns 11 ++ (.syscall 0 (.sleep 1) :: steps 0 28))).bind fun asleep =>
        (exec watchedStep asleep (steps 0 316 ++ steps 0 9)).map (view asleep)) =
      some (some (some .ticks, .tickslock, false), .runnable, .running, true) := by
    decide +kernel
  obtain ⟨asleep, ran, executed⟩ := Option.bind_eq_some_iff.mp executed
  obtain ⟨left, continued, seen⟩ := Option.map_eq_some_iff.mp executed
  simp only [view, Prod.mk.injEq, Bool.and_eq_true, Option.isNone_iff_eq_none] at seen
  obtain ⟨waits, runnable, running, unlocked, idle⟩ := seen
  obtain ⟨⟨_, _, _⟩, recorded, ⟨⟩⟩ := Option.map_eq_some_iff.mp waits
  exact ⟨asleep, left, ran, continued, recorded, runnable, running, unlocked, idle⟩

end Xv6.Proc
