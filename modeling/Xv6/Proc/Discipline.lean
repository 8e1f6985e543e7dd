import Xv6.Proc.Step
import Xv6.Semantics.Discipline

/-!
# The locking discipline of kernel threads

Which locks a thread holds is determined by what it has still to do. The mode of
a thread records the spinlocks it holds, and how far it is in the calls that span
several operations: it has changed its own state and will switch to the
scheduler, it has found a free entry of the process table, it has a child that is
not yet published, it is inside `sleep`.
-/

namespace Xv6.Proc

open Xv6.Semantics

/-- Where a kernel thread is. -/
structure Mode where
  /-- The spinlocks it holds, the latest first. -/
  held : List Lock
  /-- It has given up the state `RUNNING` and will switch to the scheduler. -/
  leaving : Bool
  /-- The `UNUSED` entry it has locked in `allocproc`. -/
  found : Option Slot
  /-- The `USED` entry it will publish at the end of `fork`. -/
  child : Option Slot
  /-- The channel and lock of the `sleep` call it is in, from its release of the lock on. -/
  waiting : Option (Option Chan × Lock)

namespace Mode

/-- Holding some locks, and nothing else. -/
def holding (held : List Lock) : Mode where
  held := held
  leaving := false
  found := none
  child := none
  waiting := none

/-- The mode of a process that has just been switched to. -/
def resumed (p : Slot) (child : Option Slot) (waiting : Option (Option Chan × Lock)) : Mode where
  held := [.proc p]
  leaving := false
  found := none
  child := child
  waiting := waiting

/-- No `p->lock` is held. -/
def NoProc (held : List Lock) : Prop := ∀ p, Lock.proc p ∉ held

/-- Some lock is held, but no `p->lock`. -/
def Guarded (held : List Lock) : Prop := held ≠ [] ∧ NoProc held

end Mode

/-- Whether a lock is a `p->lock`. -/
def Lock.isProc : Lock → Bool
  | .proc _ => true
  | _ => false

/-- Ordinary code of a thread, which holds exactly the given locks. -/
structure Calls (held : List Lock) (mode : Mode) : Prop where
  held : mode.held = held
  staying : mode.leaving = false
  found : mode.found = none

/-- Ordinary code of a process outside `sleep`. -/
structure Awake (held : List Lock) (mode : Mode) : Prop extends Calls held mode where
  awake : mode.waiting = none

/-- `fork` between the allocation of a child and its publication. -/
structure Forks (np : Slot) (mode : Mode) : Prop extends Calls [.proc np] mode where
  child : mode.child = some np

/-- A process on its way into the scheduler. Under `strict` it has given up the
state `RUNNING`. -/
structure Leaves (strict : Prop) (me : Option Slot) (p : Slot) (mode : Mode) : Prop where
  mine : me = some p
  held : mode.held = [.proc p]
  found : mode.found = none
  leaving : strict → mode.leaving = true

/-- What `sys_uptime` requires of its caller, apart from `tickslock`. -/
def UptimeCaller.rule (strict : Prop) (me : Option Slot) (next : Mode → Prop) (mode : Mode) :
    UptimeCaller → Prop
  | .scheduler => me = none ∧ mode = .holding []
  | .sched p => Leaves strict me p mode ∧ next { mode with leaving := false }
  | .allocproc p _ np => me = some p ∧ Forks np mode ∧ next { mode with held := [], child := none }
  | .fork p np => me = some p ∧ Forks np mode ∧ next { mode with held := [], child := none }
  | .syscall => next mode

/-- What `killed` requires of its caller, which holds `held` besides `p->lock`. -/
def KilledCaller.rule (held : List Lock) (next : Mode → Prop) (mode : Mode) : KilledCaller → Prop
  | .usertrap => held = [] ∧ mode.child = none ∧ mode.waiting = none ∧ next mode
  | .sysSleep _ _ => held = [.tickslock] ∧ mode.waiting = none ∧ next { mode with held := [] }
  | .wait _ => held = [.waitLock] ∧ mode.waiting = none ∧ next { mode with held := [] }
  | .client => next mode

/-- The discipline: `me` is the process whose thread it is, `none` for a scheduler.
The operations `spin` and `back` only ever stand first, after an `acquire` and
after a switch to the scheduler. -/
def rule (strict : Prop) (me : Option Slot) : Op → (Mode → Prop) → Mode → Prop
  | .acquire lk, next, mode =>
    lk ∉ mode.held ∧ (lk.isProc → Mode.NoProc mode.held) ∧
      next { mode with held := lk :: mode.held }
  | .spin _, _, _ => False
  | .release lk, next, mode =>
    lk ∈ mode.held ∧
      (∀ p, lk = .proc p → (me = some p → mode.leaving = false) ∧ mode.found ≠ some p) ∧
        next { mode with held := mode.held.erase lk }
  | .panic _, _, _ => True
  -- scheduler()
  | .enterLoop _, _, mode => me = none ∧ mode = .holding []
  | .loop _, _, mode => me = none ∧ mode = .holding []
  | .scan _ _, _, mode => me = none ∧ mode = .holding []
  | .pick _ p, next, mode => me = none ∧ mode = .holding [.proc p] ∧ next mode
  | .back _ _, _, _ => False
  -- sched()
  | .sched, next, mode => ∃ p, Leaves strict me p mode ∧ next { mode with leaving := false }
  | .charge p _, next, mode => Leaves strict me p mode ∧ next { mode with leaving := false }
  | .tail p _, next, mode => Leaves strict me p mode ∧ next { mode with leaving := false }
  | .restore _, next, mode => next mode
  -- yield(), forkret()
  | .yield, next, mode => (∃ p, me = some p) ∧ Calls [] mode ∧ next mode
  | .setRunnable p, next, mode =>
    me = some p ∧ Calls [.proc p] mode ∧ next { mode with leaving := true }
  | .forkret, next, mode =>
    ∃ p, me = some p ∧ mode = .holding [.proc p] ∧ next { mode with held := [] }
  -- sleep(), wakeup()
  | .sleep _ lk, next, mode =>
    (∃ p, me = some p) ∧ Awake [lk] mode ∧ lk.isProc = false ∧ next mode
  | .sleepRelease p chan lk, next, mode =>
    me = some p ∧ Awake [.proc p, lk] mode ∧ lk.isProc = false ∧
      next { mode with held := [.proc p], leaving := true, waiting := some (chan, lk) }
  | .tidyUp p, next, mode => me = some p ∧ Calls [.proc p] mode ∧ next mode
  | .sleepReturn p, next, mode =>
    me = some p ∧ mode.leaving = false ∧ next { mode with waiting := none }
  | .wakeup _ _, next, mode => Calls mode.held mode ∧ Mode.Guarded mode.held ∧ next mode
  | .wake _ p, next, mode => Calls mode.held mode ∧ .proc p ∈ mode.held ∧ next mode
  -- kill(), setkilled(), killed()
  | .kill _ _, next, mode => Calls [] mode ∧ next mode
  | .killVisit _ p, next, mode => Calls [.proc p] mode ∧ next { mode with held := [] }
  | .setkilled, next, mode => (∃ p, me = some p) ∧ Calls [] mode ∧ next mode
  | .markKilled _, next, mode => next mode
  | .readKilled p caller, next, mode =>
    me = some p ∧ ∃ held, Calls (.proc p :: held) mode ∧ Mode.NoProc held ∧
      caller.rule held next { mode with held := held }
  -- exit(), reparent()
  | .exit _, _, mode => (∃ p, me = some p) ∧ mode = .holding []
  | .reparent _ _, next, mode => Calls [.waitLock] mode ∧ next mode
  | .wakeParent _, next, mode => Calls [.waitLock] mode ∧ next mode
  | .becomeZombie p _, next, mode =>
    me = some p ∧ mode = .holding [.proc p, .waitLock] ∧ next { mode with leaving := true }
  -- wait()
  | .wait _, next, mode => (∃ p, me = some p) ∧ Awake [] mode ∧ next mode
  | .waitScan p _ _ _, next, mode =>
    me = some p ∧ Awake [.waitLock] mode ∧ next { mode with held := [] }
  | .waitChild p _ pp, next, mode =>
    me = some p ∧ Awake [.proc pp, .waitLock] mode ∧ next { mode with held := [] }
  -- fork(), allocproc(), allocpid()
  | .fork _, next, mode => (∃ p, me = some p) ∧ Calls [] mode ∧ mode.child = none ∧ next mode
  | .allocproc p _ _, next, mode => me = some p ∧ Calls [] mode ∧ mode.child = none ∧ next mode
  | .allocFound p _ np, next, mode =>
    me = some p ∧ Calls [.proc np] mode ∧ mode.child = none ∧ next { mode with held := [] }
  | .allocpid p _ np, next, mode =>
    me = some p ∧ mode.held = [.pidLock, .proc np] ∧ mode.leaving = false ∧
      mode.found = some np ∧ mode.child = none ∧ next { mode with held := [], found := none }
  | .allocInit p _ np _, next, mode =>
    me = some p ∧ mode.held = [.proc np] ∧ mode.leaving = false ∧
      mode.found = some np ∧ mode.child = none ∧ next { mode with held := [], found := none }
  | .allocTick p _ np _, next, mode =>
    me = some p ∧ Forks np mode ∧ next { mode with held := [], child := none }
  | .forkTick p np _, next, mode =>
    me = some p ∧ Forks np mode ∧ next { mode with held := [], child := none }
  | .setParent _ _, next, mode => Calls [.waitLock] mode ∧ next mode
  | .publish np, next, mode => Forks np mode ∧ next { mode with child := none }
  -- pslist(), sysproc.c
  | .pslist _ _, next, mode => Calls [] mode ∧ next mode
  | .uptime caller, next, mode => .tickslock ∉ mode.held ∧ caller.rule strict me next mode
  | .readTicks caller, next, mode =>
    ∃ held, mode.held = .tickslock :: held ∧ caller.rule strict me next { mode with held := held }
  | .sysSleep _, next, mode => (∃ p, me = some p) ∧ Awake [] mode ∧ next mode
  | .sleepStart _, next, mode =>
    (∃ p, me = some p) ∧ Awake [.tickslock] mode ∧ next { mode with held := [] }
  | .sleepLoop p _ _, next, mode =>
    me = some p ∧ Awake [.tickslock] mode ∧ next { mode with held := [] }
  -- trap.c
  | .tick, next, mode => Calls [.tickslock] mode ∧ next mode
  | .killedExit, next, mode => (∃ p, me = some p) ∧ mode = .holding [] ∧ next mode
  | .kerneltrapYield, next, mode => Calls [] mode ∧ next mode
  | .intrOn, next, mode => Calls [] mode ∧ next mode
  | .usertrapret, next, mode => Calls [] mode ∧ next mode
  | .iret, next, mode => Calls [] mode ∧ next mode
  -- client code
  | .clients, next, mode => (∃ p, me = some p) ∧ Awake [] mode ∧ next mode
  | .client k, next, mode =>
    (∃ p, me = some p) ∧ Awake [.cond k] mode ∧ next { mode with held := [] }

/-- A process that has nothing left to do is in user mode; a scheduler never is. -/
def Final (me : Option Slot) (mode : Mode) : Prop := (∃ p, me = some p) ∧ mode = .holding []

/-- The remaining operations of a thread follow the discipline from its mode. -/
def Disciplined (strict : Prop) (me : Option Slot) (ops : List Op) (mode : Mode) : Prop :=
  Follows (rule strict me) (Final me) ops mode

end Xv6.Proc
