import Xv6.Proc.Local

/-!
# The ticks charged to a process

`sched` charges a process the ticks since its `last_scheduled_tick` and sets the field
to the tick that it has read. `allocproc` and `fork` set it for a new process, and
`FATCAT_SCHED` sets it to the tick that the scheduler has read once before its loop.
Beside the machine a ledger records when each process was created and the intervals
that it has been charged since. This module also says which operations carry a tick,
and what a step of any other operation leaves alone.
-/

namespace Xv6.Proc

open Xv6.Semantics

variable {ncpu : Nat} {kernel next : Kernel ncpu} {c : Fin ncpu} {op : Op} {rest : List Op}

/-- Ticks that `sched` has charged, from one tick to another. -/
structure Interval where
  start : Nat
  stop : Nat

/-- The tick that `allocproc` has read for each process, and the intervals charged to
the process since, the latest first. -/
structure Ledger where
  born : Slot → Nat
  charges : Slot → List Interval

/-- `userinit` creates the first process at tick 0. -/
def Ledger.start : Ledger := ⟨fun _ => 0, fun _ => []⟩

/-- What an operation adds to the ledger. -/
def Ledger.book (kernel : Kernel ncpu) (ledger : Ledger) : Op → Ledger
  | .allocTick _ _ np ctime =>
    { born := Function.update ledger.born np ctime
      charges := Function.update ledger.charges np [] }
  | .charge p ctick =>
    if tickDiff ctick (kernel.proc p) > 0 ∧ (kernel.proc p).state = .runnable then
      { ledger with
        charges := Function.update ledger.charges p
          (⟨(kernel.proc p).lastScheduledTick, ctick⟩ :: ledger.charges p) }
    else ledger
  | _ => ledger

/-- The ledger after a step. -/
def Ledger.record (kernel : Kernel ncpu) (ledger : Ledger) : Label ncpu → Ledger
  | .step c =>
    match (kernel.cpu c).ops with
    | op :: _ => ledger.book kernel op
    | [] => ledger
  | _ => ledger

/-- A machine with its ledger. -/
abbrev Timed (ncpu : Nat) := Kernel ncpu × Ledger

/-- A step of the machine, with its entry in the ledger. -/
def timedStep (state : Timed ncpu) (label : Label ncpu) : Option (Timed ncpu) :=
  (step state.1 label).map fun next => (next, state.2.record state.1 label)

/-- The machine with its ledger. -/
def timed (ncpu : Nat) : TransitionSystem (Timed ncpu) (Label ncpu) :=
  .ofStep (· = (boot ncpu, .start)) timedStep

/-- The counter `ticks` does not wrap around. -/
def ClockRuns (kernel : Kernel ncpu) (label : Label ncpu) : Prop :=
  ∀ c rest, label = .step c → (kernel.cpu c).ops = .tick :: rest → kernel.ticks + 1 < 2 ^ 32

/-- `FATCAT_SCHED` is not called with a tick before the process's `last_scheduled_tick`. -/
def SetsForward (kernel : Kernel ncpu) (label : Label ncpu) : Prop :=
  ∀ c currentTick p rest, label = .step c → (kernel.cpu c).ops = .back currentTick p :: rest →
    (kernel.proc p).lastScheduledTick ≤ currentTick

/-! ## Operations with a tick -/

/-- The tick that an operation carries. -/
def Op.tick? : Op → Option Nat
  | .enterLoop t => some t
  | .loop t => some t
  | .scan t _ => some t
  | .pick t _ => some t
  | .back t _ => some t
  | .charge _ t => some t
  | .tail _ t => some t
  | .allocTick _ _ _ t => some t
  | .forkTick _ _ t => some t
  | _ => none

/-- The process whose `last_scheduled_tick` a thread is about to set, and the tick. -/
def Op.assigns? : Op → Option (Slot × Nat)
  | .charge p t => some (p, t)
  | .tail p t => some (p, t)
  | .allocTick _ _ np t => some (np, t)
  | .forkTick _ np t => some (np, t)
  | _ => none

/-- The operation neither is such an assignment nor a return to the scheduler. -/
def Op.quiet : Op → Bool
  | .back _ _ => false
  | .charge _ _ => false
  | .tail _ _ => false
  | .allocTick _ _ _ _ => false
  | .forkTick _ _ _ => false
  | _ => true

theorem Op.assigns?_of_quiet (isQuiet : op.quiet = true) : op.assigns? = none := by
  cases op <;> first | rfl | cases isQuiet

theorem Op.quiet_of_assigns? (noAssignment : op.assigns? = none)
    (forward : ∀ t p, op ≠ .back t p) : op.quiet = true := by
  cases op <;> first | rfl | (cases noAssignment; done) | exact absurd rfl (forward _ _)

/-- The operation may stand before an assignment: `sys_uptime` returns, or a thread
resumes in the middle of `sched`. -/
def Op.opens : Op → Bool
  | .release .tickslock => true
  | .restore _ => true
  | _ => false

theorem Op.opens_cases (opens : op.opens = true) :
    op = .release .tickslock ∨ ∃ intena, op = .restore intena := by
  unfold Op.opens at opens
  split at opens
  · exact .inl rfl
  · exact .inr ⟨_, rfl⟩
  · cases opens

theorem Op.assigns?_of_opens (opens : op.opens = true) : op.assigns? = none := by
  rcases Op.opens_cases opens with rfl | ⟨intena, rfl⟩ <;> rfl

/-- All operations are quiet. -/
def Settled (ops : List Op) : Prop := ∀ op ∈ ops, op.quiet = true

theorem Settled.append (front : Settled first) (back : Settled second) :
    Settled (first ++ second) := List.forall_mem_append.mpr ⟨front, back⟩

theorem settled_nil : Settled [] := List.forall_mem_nil _

theorem settled_cons (isQuiet : op.quiet = true) (settled : Settled rest) :
    Settled (op :: rest) := List.forall_mem_cons.mpr ⟨isQuiet, settled⟩

/-- The one operation that is not quiet comes first, or follows one that may stand
before it. -/
inductive Tidy : List Op → Prop where
  | nil : Tidy []
  | first {op : Op} {rest : List Op} (settled : Settled rest) : Tidy (op :: rest)
  | second {front op : Op} {rest : List Op} (opens : front.opens = true)
      (forward : ∀ t p, op ≠ .back t p) (settled : Settled rest) : Tidy (front :: op :: rest)

theorem Settled.tidy (settled : Settled ops) : Tidy ops := by
  cases ops with
  | nil => exact .nil
  | cons op rest => exact .first fun other mem => settled other (List.mem_cons_of_mem _ mem)

theorem Settled.ne_back (settled : Settled ops) (t : Nat) (p : Slot)
    (later : List Op) : ops ≠ .back t p :: later := by
  rintro rfl
  cases settled _ List.mem_cons_self

theorem Tidy.settled (tidy : Tidy (op :: rest)) (closes : op.opens = false) : Settled rest := by
  cases tidy with
  | first settled => exact settled
  | second opens forward settled =>
    rw [opens] at closes
    cases closes

/-- What is left after an operation is tidy, and no return to the scheduler. -/
theorem Tidy.after (tidy : Tidy (op :: rest)) :
    Tidy rest ∧ ∀ t p later, rest ≠ .back t p :: later := by
  cases tidy with
  | first settled => exact ⟨settled.tidy, settled.ne_back⟩
  | second opens forward settled =>
    refine ⟨.first settled, fun t p later isBack => ?_⟩
    cases isBack
    exact forward t p rfl

theorem Tidy.back_first (tidy : Tidy ops)
    (mem : .back t p ∈ ops) : ∃ later, ops = .back t p :: later := by
  cases tidy with
  | nil => cases mem
  | first settled =>
    rcases List.mem_cons.mp mem with rfl | mem
    · exact ⟨_, rfl⟩
    · cases settled _ mem
  | second opens forward settled =>
    rcases List.mem_cons.mp mem with rfl | mem
    · cases opens
    · rcases List.mem_cons.mp mem with rfl | mem
      · exact absurd rfl (forward t p)
      · cases settled _ mem

/-! ## The other operations -/

/-- The operations of a thread after `op`: those it had left, and quiet ones that carry
no other tick than `op`. -/
def Adds (op : Op) (rest ops : List Op) : Prop :=
  ∀ added ∈ ops, added ∈ rest ∨
    added.quiet = true ∧ (added.tick? = none ∨ added.tick? = op.tick?)

theorem adds_rest : Adds op rest rest := fun _ mem => .inl mem

theorem adds_cons (isQuiet : added.quiet = true)
    (sameTick : added.tick? = none ∨ added.tick? = op.tick?) (later : Adds op rest ops) :
    Adds op rest (added :: ops) := List.forall_mem_cons.mpr ⟨.inr ⟨isQuiet, sameTick⟩, later⟩

theorem adds_plain (plain : ∀ added ∈ body, added.quiet = true ∧ added.tick? = none) :
    Adds op rest (body ++ rest) := by
  refine List.forall_mem_append.mpr ⟨fun added inBody => ?_, adds_rest⟩
  obtain ⟨isQuiet, noTick⟩ := plain added inBody
  exact .inr ⟨isQuiet, .inl noTick⟩

theorem Adds.settled (adds : Adds op rest ops) (settled : Settled rest) :
    Settled ops := by
  intro added mem
  rcases adds added mem with inRest | ⟨isQuiet, _⟩
  · exact settled added inRest
  · exact isQuiet

/-- The fields of a process that account for its ticks, and its saved context. -/
structure SameAccount (process changed : Process) : Prop where
  last : changed.lastScheduledTick = process.lastScheduledTick
  ticks : changed.ticks = process.ticks
  context : changed.context = process.context
  used : changed.state = .used → process.state = .used

theorem SameAccount.refl (process : Process) : SameAccount process process :=
  ⟨rfl, rfl, rfl, id⟩

/-- The clock and every account are as before, and CPU `c` is in the same thread. -/
structure Untouched (c : Fin ncpu) (kernel next : Kernel ncpu) : Prop where
  clock : next.ticks = kernel.ticks
  accounts : ∀ q, SameAccount (kernel.proc q) (next.proc q)
  context : (next.cpu c).context = (kernel.cpu c).context
  proc : (next.cpu c).proc = (kernel.cpu c).proc

namespace Untouched

theorem refl (c : Fin ncpu) (kernel : Kernel ncpu) : Untouched c kernel kernel :=
  ⟨rfl, fun _ => .refl _, rfl, rfl⟩

variable (earlier : Untouched c kernel next)
include earlier

theorem setCpu (context : cpu.context = (next.cpu c).context)
    (proc : cpu.proc = (next.cpu c).proc) : Untouched c kernel (next.setCpu c cpu) where
  clock := earlier.clock
  accounts := earlier.accounts
  context := by simp [context, earlier.context]
  proc := by simp [proc, earlier.proc]

theorem goto (ops : List Op) : Untouched c kernel (next.goto c ops) := earlier.setCpu rfl rfl

theorem setProc (same : SameAccount (kernel.proc p) process) :
    Untouched c kernel (next.setProc p process) where
  clock := earlier.clock
  accounts := by
    intro q
    obtain rfl | isP := eq_or_ne q p
    · simpa using same
    · simpa [isP] using earlier.accounts q
  context := earlier.context
  proc := earlier.proc

theorem setOwner (lk : Lock) (owner : Option (Fin ncpu)) :
    Untouched c kernel (next.setOwner lk owner) := ⟨earlier.clock, earlier.accounts,
  earlier.context, earlier.proc⟩

theorem releaseLock
    (done : next.releaseLock c lk = .ok released) : Untouched c kernel released := by
  obtain ⟨cpu, ⟨proc, context⟩, rfl⟩ := Kernel.eq_of_releaseLock done
  exact (earlier.setOwner lk none).setCpu context proc

end Untouched

/-- The operation changes no account, and the CPU goes on in the same thread. -/
structure Continues (c : Fin ncpu) (op : Op) (rest : List Op) (kernel next : Kernel ncpu) : Prop
    extends Untouched c kernel next where
  ops : Adds op rest (next.cpu c).ops

theorem Untouched.continues (same : Untouched c kernel changed) (adds : Adds op rest ops) :
    Continues c op rest kernel (changed.goto c ops) where
  toUntouched := same.goto ops
  ops := by simpa using adds

theorem Untouched.stops (same : Untouched c kernel changed)
    (message : String) : Continues c op rest kernel (changed.stops c message rest) :=
  same.continues (adds_cons rfl (.inl rfl) adds_rest)

theorem Continues.withProc
    (plain : ∀ p, ∀ added ∈ body p, added.quiet = true ∧ added.tick? = none) :
    Continues c op rest kernel (kernel.withProc c rest body) := by
  unfold Kernel.withProc
  split
  · exact (Untouched.refl c kernel).continues (adds_plain (plain _))
  · exact (Untouched.refl c kernel).stops _

theorem sameAccount_listed (process : Process) : SameAccount process (listed process) := by
  rw [listed_eq_ite]
  split
  · exact .refl process
  · exact ⟨rfl, rfl, rfl, fun isUsed => ProcState.noConfusion isUsed⟩

variable {ops : List Op}

/-- The operations that neither touch an account nor read a tick, and after which the
thread goes on. -/
def Op.ordinary : Op → Bool
  | .release _ => false
  | .restore _ => false
  | .enterLoop _ => false
  | .pick _ _ => false
  | .allocInit _ _ _ _ => false
  | .readTicks _ => false
  | .tick => false
  | op => op.quiet

theorem adds_killed (p : Slot) (isKilled : Bool) (caller : KilledCaller) :
    Adds op rest (.release (.proc p) :: (caller.resume p isKilled ++ rest)) := by
  refine adds_cons rfl (.inl rfl) (adds_plain ?_)
  cases caller <;> cases isKilled <;> simp [KilledCaller.resume, Op.quiet, Op.tick?]

theorem Continues.assigns (adds : Adds op rest ops) (same : SameAccount (kernel.proc p) process) :
    Continues c op rest kernel ((kernel.setProc p process).goto c ops) :=
  ((Untouched.refl c kernel).setProc same).continues adds

theorem Continues.sleeps
    (done : kernel.releaseLock c lk = .ok released) : Continues c op rest kernel
      ((released.setProc p { released.proc p with chan := chan, state := .sleeping }).goto c rest) := by
  have after := (Untouched.refl c kernel).releaseLock done
  obtain ⟨last, ticks, context, _⟩ := after.accounts p
  refine (after.setProc ?_).continues adds_rest
  exact ⟨last, ticks, context, fun isUsed => ProcState.noConfusion isUsed⟩

theorem adds_one (isQuiet : added.quiet = true) (noTick : added.tick? = none) :
    Adds op rest (added :: rest) := adds_cons isQuiet (.inl noTick) adds_rest

theorem adds_two (isQuiet : first.quiet = true) (noTick : first.tick? = none)
    (alsoQuiet : second.quiet = true) (alsoNoTick : second.tick? = none) :
    Adds op rest (first :: second :: rest) :=
  adds_cons isQuiet (.inl noTick) (adds_one alsoQuiet alsoNoTick)

theorem sameAccount_of_state (last : changed.lastScheduledTick = process.lastScheduledTick)
    (ticks : changed.ticks = process.ticks) (context : changed.context = process.context)
    (notUsed : changed.state ≠ .used) : SameAccount process changed :=
  ⟨last, ticks, context, fun isUsed => absurd isUsed notUsed⟩

theorem Continues.of_ordinary (ordinary : op.ordinary = true)
    (ran : stepOp kernel c rest op = some next) : Continues c op rest kernel next := by
  have here := Untouched.refl c kernel
  cases op <;> first | (cases ordinary; done) | simp only [stepOp] at ran
  case acquire lk =>
    have pushed : Untouched c kernel (kernel.setCpu c (kernel.cpu c).pushOff) := here.setCpu rfl rfl
    split at ran <;> cases ran
    · exact pushed.stops _
    · exact pushed.continues (adds_one rfl rfl)
  case spin lk =>
    split at ran <;> cases ran
    exact (here.setOwner _ _).continues adds_rest
  case panic => cases ran
  case loop t =>
    cases ran
    have adds : Adds (.loop t) rest (.scan t 0 :: rest) := adds_cons rfl (.inr rfl) adds_rest
    exact ⟨here.setCpu rfl rfl, by simpa using adds⟩
  case scan t i =>
    split at ran <;> cases ran
    · exact here.continues (adds_cons rfl (.inl rfl) (adds_cons rfl (.inr rfl)
        (adds_cons rfl (.inl rfl) (adds_cons rfl (.inr rfl) adds_rest))))
    · exact here.continues (adds_cons rfl (.inr rfl) adds_rest)
  case sched =>
    repeat' split at ran
    all_goals cases ran
    all_goals first | exact here.stops _ | exact here.continues (adds_one rfl rfl)
  case yield | forkret | sleep | setkilled | wait | fork | sleepStart | killedExit =>
    cases ran
    exact .withProc fun _ => by simp [yieldBody, sleepBody, Op.quiet, Op.tick?]
  case sleepRelease p chan lk =>
    split at ran <;> cases ran
    · rename_i done
      exact .sleeps done
    · exact here.stops _
  case setRunnable | becomeZombie | publish =>
    cases ran
    exact .assigns adds_rest (sameAccount_of_state rfl rfl rfl (by simp))
  case tidyUp | markKilled | setParent =>
    cases ran
    exact .assigns adds_rest ⟨rfl, rfl, rfl, id⟩
  case sleepReturn =>
    cases ran
    exact here.continues adds_rest
  case wakeup chan i =>
    repeat' split at ran
    all_goals cases ran
    · exact here.continues (adds_one rfl rfl)
    · exact here.continues (adds_cons rfl (.inl rfl) (adds_cons rfl (.inl rfl)
        (adds_two rfl rfl rfl rfl)))
    · exact here.continues adds_rest
  case wake chan p =>
    split at ran <;> cases ran
    · exact .assigns adds_rest (sameAccount_of_state rfl rfl rfl (by simp))
    · exact here.continues adds_rest
  case kill pid i =>
    split at ran <;> cases ran
    · exact here.continues (adds_two rfl rfl rfl rfl)
    · exact here.continues adds_rest
  case killVisit pid p =>
    split at ran <;> cases ran
    · refine .assigns (adds_one rfl rfl) ⟨rfl, rfl, rfl, fun isUsed => ?_⟩
      revert isUsed
      split <;> simp
    · exact here.continues (adds_two rfl rfl rfl rfl)
  case readKilled p caller =>
    cases ran
    exact here.continues (adds_killed _ _ _)
  case exit status =>
    repeat' split at ran
    all_goals cases ran
    · exact here.stops _
    · exact here.stops _
    · exact here.continues (adds_plain (by simp [exitBody, Op.quiet, Op.tick?]))
  case reparent p i =>
    repeat' split at ran
    all_goals cases ran
    · exact .assigns (adds_two rfl rfl rfl rfl) ⟨rfl, rfl, rfl, id⟩
    · exact here.continues (adds_one rfl rfl)
    · exact here.continues adds_rest
  case wakeParent | uptime | sysSleep =>
    cases ran
    first | exact here.continues (adds_one rfl rfl) | exact here.continues (adds_two rfl rfl rfl rfl)
  case waitScan p fails havekids i =>
    repeat' split at ran
    all_goals cases ran
    all_goals
      first
      | exact here.continues (adds_one rfl rfl)
      | exact here.continues (adds_two rfl rfl rfl rfl)
  case waitChild p fails pp =>
    repeat' split at ran
    all_goals cases ran
    · exact here.continues (adds_two rfl rfl rfl rfl)
    · exact .assigns (adds_two rfl rfl rfl rfl)
        (sameAccount_of_state rfl rfl rfl (by simp [freeproc]))
    · exact here.continues (adds_two rfl rfl rfl rfl)
  case allocproc p memory i =>
    split at ran <;> cases ran
    · exact here.continues (adds_two rfl rfl rfl rfl)
    · exact here.continues adds_rest
  case allocFound p memory np =>
    split at ran <;> cases ran <;> exact here.continues (adds_two rfl rfl rfl rfl)
  case allocpid p memory np =>
    cases ran
    have counted : Untouched c kernel { kernel with nextpid := wrap32 (kernel.nextpid + 1) } :=
      ⟨rfl, here.accounts, rfl, rfl⟩
    exact counted.continues (adds_two rfl rfl rfl rfl)
  case pslist fails i =>
    repeat' split at ran
    all_goals cases ran
    · exact here.continues (adds_one rfl rfl)
    · exact .assigns adds_rest (sameAccount_listed _)
    · exact .assigns (adds_one rfl rfl) (sameAccount_listed _)
    · exact here.continues adds_rest
  case sleepLoop p ticks0 n =>
    split at ran <;> cases ran
    · exact here.continues (adds_two rfl rfl rfl rfl)
    · exact here.continues (adds_one rfl rfl)
  case kerneltrapYield =>
    repeat' split at ran
    all_goals cases ran
    · exact here.continues adds_rest
    · exact here.continues (adds_one rfl rfl)
    · exact here.continues adds_rest
  case intrOn | usertrapret | iret =>
    cases ran
    exact ⟨here.setCpu rfl rfl, by simpa using adds_rest⟩
  case clients => cases ran
  case client => cases ran

theorem Continues.of_stepClient (ran : stepClient kernel c rest op choice = some next) :
    op.ordinary = true ∧ Continues c op rest kernel next := by
  have here := Untouched.refl c kernel
  simp only [stepClient] at ran
  split at ran <;> cases ran
  · exact ⟨rfl, here.continues (adds_cons rfl (.inl rfl) (adds_two rfl rfl rfl rfl))⟩
  · exact ⟨rfl, here.continues adds_rest⟩
  · exact ⟨rfl, here.continues (adds_two rfl rfl rfl rfl)⟩
  · exact ⟨rfl, here.continues (adds_two rfl rfl rfl rfl)⟩
  · refine ⟨rfl, ?_⟩
    unfold Kernel.withProc
    split
    · exact here.continues (adds_cons rfl (.inl rfl) (adds_two rfl rfl rfl rfl))
    · exact here.continues (adds_two rfl rfl rfl rfl)
  · exact ⟨rfl, here.continues (adds_one rfl rfl)⟩

end Xv6.Proc
