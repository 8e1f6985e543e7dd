import Xv6.Param

/-!
# Kernel operations

The control state of a kernel thread is the list of operations it has still to
perform. An operation runs from one synchronisation point of `proc.c`, `trap.c`
or `sysproc.c` to the next: it takes or gives back a spinlock, switches context,
or executes the code in between. A call that contains such a point is an
operation that is replaced by the operations of its body.
-/

namespace Xv6.Proc

/-- An entry of `proc[]`. -/
abbrev Slot := Fin nproc

/-- `initproc`: `userinit` runs first and gets the first entry. -/
def initproc : Slot := ⟨0, zero_lt_nproc⟩

/-- `enum procstate`. -/
inductive ProcState where
  | unused | used | sleeping | runnable | running | zombie
  deriving DecidableEq, Repr

/-- The spinlocks of the scheduler, and those of its clients (pipes,
sleep-locks, the log, the disk, the console). -/
inductive Lock where
  | proc (p : Slot)
  | tickslock
  | waitLock
  | pidLock
  | cond (k : Nat)
  deriving DecidableEq

/-- Addresses used as sleep channels: `&ticks`, a `struct proc`, or a client's. -/
inductive Chan where
  | ticks
  | proc (p : Slot)
  | addr (a : Nat)
  deriving DecidableEq

/-- Which of the allocations made by `fork` succeed. -/
structure ForkMemory where
  trapframe : Bool
  pagetable : Bool
  copy : Bool

/-- The callers of `sys_uptime`. -/
inductive UptimeCaller where
  | scheduler
  | sched (p : Slot)
  | allocproc (p : Slot) (memory : ForkMemory) (np : Slot)
  | fork (p np : Slot)
  | syscall

/-- The callers of `killed`. -/
inductive KilledCaller where
  | usertrap
  | sysSleep (ticks0 : Nat) (n : Int)
  | wait (copyoutFails : Bool)
  | client

/-- The operations of kernel threads. A parameter `p` is a local variable of the
modelled function; `i` is the index of its loop over `proc[]`. -/
inductive Op where
  -- spinlock.c; `spin` is `acquire` after `push_off` and the `holding` test
  | acquire (lk : Lock)
  | spin (lk : Lock)
  | release (lk : Lock)
  | panic (message : String)
  -- scheduler(); `back` is what follows its swtch
  | enterLoop (currentTick : Nat)
  | loop (currentTick : Nat)
  | scan (currentTick i : Nat)
  | pick (currentTick : Nat) (p : Slot)
  | back (currentTick : Nat) (p : Slot)
  -- sched(); `restore` is what follows each swtch
  | sched
  | charge (p : Slot) (ctick : Nat)
  | tail (p : Slot) (ctick : Nat)
  | restore (intena : Bool)
  -- yield(), forkret()
  | yield
  | setRunnable (p : Slot)
  | forkret
  -- sleep(), wakeup()
  | sleep (chan : Option Chan) (lk : Lock)
  | sleepRelease (p : Slot) (chan : Option Chan) (lk : Lock)
  | tidyUp (p : Slot)
  | sleepReturn (p : Slot)
  | wakeup (chan : Option Chan) (i : Nat)
  | wake (chan : Option Chan) (p : Slot)
  -- kill(), setkilled(), killed()
  | kill (pid : Int) (i : Nat)
  | killVisit (pid : Int) (p : Slot)
  | setkilled
  | markKilled (p : Slot)
  | readKilled (p : Slot) (caller : KilledCaller)
  -- exit(), reparent()
  | exit (status : Int)
  | reparent (p : Slot) (i : Nat)
  | wakeParent (p : Slot)
  | becomeZombie (p : Slot) (status : Int)
  -- wait()
  | wait (copyoutFails : Bool)
  | waitScan (p : Slot) (copyoutFails havekids : Bool) (i : Nat)
  | waitChild (p : Slot) (copyoutFails : Bool) (pp : Slot)
  -- fork(), allocproc(), allocpid()
  | fork (memory : ForkMemory)
  | allocproc (p : Slot) (memory : ForkMemory) (i : Nat)
  | allocFound (p : Slot) (memory : ForkMemory) (np : Slot)
  | allocpid (p : Slot) (memory : ForkMemory) (np : Slot)
  | allocInit (p : Slot) (memory : ForkMemory) (np : Slot) (pid : Int)
  | allocTick (p : Slot) (memory : ForkMemory) (np : Slot) (ctime : Nat)
  | forkTick (p np : Slot) (ctime : Nat)
  | setParent (np p : Slot)
  | publish (np : Slot)
  -- pslist()
  | pslist (copyoutFails : Option Nat) (i : Nat)
  -- sysproc.c
  | uptime (caller : UptimeCaller)
  | readTicks (caller : UptimeCaller)
  | sysSleep (n : Int)
  | sleepStart (n : Int)
  | sleepLoop (p : Slot) (ticks0 : Nat) (n : Int)
  -- trap.c
  | tick
  | killedExit
  | kerneltrapYield
  | intrOn
  | usertrapret
  | iret
  -- any other kernel code: sections under one client lock at a time
  | clients
  | client (k : Nat)

/-- `sys_uptime` has returned to its caller. -/
def UptimeCaller.resume (xticks : Nat) : UptimeCaller → List Op
  | .scheduler => [.enterLoop xticks]
  | .sched p => [.charge p xticks]
  | .allocproc p memory np => [.allocTick p memory np xticks]
  | .fork p np => [.forkTick p np xticks]
  | .syscall => []

/-- `killed(p)` has returned to its caller. -/
def KilledCaller.resume (p : Slot) (isKilled : Bool) : KilledCaller → List Op
  | .usertrap => if isKilled then [.exit (-1)] else []
  | .sysSleep ticks0 n =>
    if isKilled then [.release .tickslock]
    else [.sleep (some .ticks) .tickslock, .sleepLoop p ticks0 n]
  | .wait copyoutFails =>
    if isKilled then [.release .waitLock]
    else [.sleep (some (.proc p)) .waitLock, .waitScan p copyoutFails false 0]
  | .client => []

end Xv6.Proc
