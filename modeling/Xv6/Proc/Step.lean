import Xv6.Proc.Kernel
import Xv6.Semantics.Execution

/-!
# Steps of the kernel

`stepOp` executes the first operation of a CPU. Besides these steps a CPU takes
traps: a system call from user mode, a timer or device interrupt wherever
interrupts are enabled. A process in user mode has no operations left. An
`acquire` disables interrupts and then waits; taking the lock is a step of its
own, enabled only while the lock is free. A panic stops its CPU.
-/

namespace Xv6.Proc

open Xv6.Semantics

variable {ncpu : Nat}

/-- `panic` on one CPU; the operations it will never perform stay behind it. -/
def Kernel.stops (kernel : Kernel ncpu) (c : Fin ncpu) (message : String) (rest : List Op) :
    Kernel ncpu :=
  kernel.goto c (.panic message :: rest)

/-- Replace the current operation by others that depend on `myproc()`. Without a
process the access faults, which is a panic of `kerneltrap`. -/
def Kernel.withProc (kernel : Kernel ncpu) (c : Fin ncpu) (rest : List Op)
    (body : Slot → List Op) : Kernel ncpu :=
  match kernel.myproc c with
  | some p => kernel.goto c (body p ++ rest)
  | none => kernel.stops c "kerneltrap" rest

/-- The body of `yield`. -/
def yieldBody (p : Slot) : List Op :=
  [.acquire (.proc p), .setRunnable p, .sched, .release (.proc p)]

/-- The body of `sleep`. -/
def sleepBody (chan : Option Chan) (lk : Lock) (p : Slot) : List Op :=
  [.acquire (.proc p), .sleepRelease p chan lk, .sched, .tidyUp p, .release (.proc p),
    .acquire lk, .sleepReturn p]

/-- `exit` after the files have been closed. -/
def exitBody (status : Int) (p : Slot) : List Op :=
  [.clients, .acquire .waitLock, .reparent p 0, .wakeParent p, .acquire (.proc p),
    .becomeZombie p status, .release .waitLock, .sched, .panic "zombie exit"]

/-- `fork` after the child's memory and clock are set. -/
def forkTail (p np : Slot) : List Op :=
  [.release (.proc np), .acquire .waitLock, .setParent np p, .release .waitLock,
    .acquire (.proc np), .publish np, .release (.proc np)]

/-- `sched` after `sys_uptime`: pay, or wake without tokens and switch, or go on. -/
def Kernel.charge (kernel : Kernel ncpu) (c : Fin ncpu) (p : Slot) (ctick : Nat)
    (rest : List Op) : Kernel ncpu :=
  let process := kernel.proc p
  let diff := tickDiff ctick process
  if diff > 0 ∧ process.state = .runnable then
    (kernel.setProc p (payTicks process diff)).goto c (.tail p ctick :: rest)
  else if process.tokenBucket < 1 ∧ process.state = .sleeping then
    (kernel.setProc p (wakeDrained process ctick)).switchOut c p
      (.restore (kernel.cpu c).intena :: .tail p ctick :: rest)
  else kernel.goto c (.tail p ctick :: rest)

/-- Execute the operation `op` on CPU `c`, which has `rest` still to do after it.
The result is `none` where the CPU has to wait. -/
def stepOp (kernel : Kernel ncpu) (c : Fin ncpu) (rest : List Op) : Op → Option (Kernel ncpu)
  | .acquire lk =>
    let pushed := kernel.setCpu c (kernel.cpu c).pushOff
    if kernel.owner lk = some c then some (pushed.stops c "acquire" rest)
    else some (pushed.goto c (.spin lk :: rest))
  | .spin lk =>
    if kernel.owner lk = none then some ((kernel.setOwner lk (some c)).goto c rest) else none
  | .release lk =>
    match kernel.releaseLock c lk with
    | .ok released => some (released.goto c rest)
    | .error message => some (kernel.stops c message rest)
  | .panic _ => none
  -- scheduler()
  | .enterLoop currentTick =>
    some (kernel.setCpu c { kernel.cpu c with proc := none, ops := .loop currentTick :: rest })
  | .loop currentTick =>
    some (kernel.setCpu c { kernel.cpu c with intr := true, ops := .scan currentTick 0 :: rest })
  | .scan currentTick i =>
    if bound : i < nproc then
      let p : Slot := ⟨i, bound⟩
      some (kernel.goto c (.acquire (.proc p) :: .pick currentTick p :: .release (.proc p) ::
        .scan currentTick (i + 1) :: rest))
    else some (kernel.goto c (.loop currentTick :: rest))
  | .pick currentTick p =>
    if (kernel.proc p).state = .runnable then
      let chosen := kernel.setProc p { kernel.proc p with state := .running }
      some ((chosen.setCpu c { chosen.cpu c with proc := some p }).switchIn c p
        (.back currentTick p :: rest))
    else some (kernel.goto c rest)
  | .back currentTick p =>
    some ((kernel.setProc p (fatcatSched (kernel.proc p) currentTick)).setCpu c
      { kernel.cpu c with proc := none, ops := rest })
  -- sched()
  | .sched =>
    match kernel.myproc c with
    | none => some (kernel.stops c "kerneltrap" rest)
    | some p =>
      if kernel.owner (.proc p) ≠ some c then some (kernel.stops c "sched p->lock" rest)
      else if (kernel.cpu c).noff ≠ 1 then some (kernel.stops c "sched locks" rest)
      else if (kernel.proc p).state = .running then some (kernel.stops c "sched running" rest)
      else if (kernel.cpu c).intr then some (kernel.stops c "sched interruptible" rest)
      else some (kernel.goto c (.uptime (.sched p) :: rest))
  | .charge p ctick => some (kernel.charge c p ctick rest)
  | .tail p ctick =>
    some ((kernel.setProc p (settle (kernel.proc p) ctick)).switchOut c p
      (.restore (kernel.cpu c).intena :: rest))
  | .restore intena =>
    some (kernel.setCpu c { kernel.cpu c with intena := intena, ops := rest })
  -- yield(), forkret()
  | .yield => some (kernel.withProc c rest yieldBody)
  | .setRunnable p =>
    some ((kernel.setProc p { kernel.proc p with state := .runnable }).goto c rest)
  | .forkret =>
    some (kernel.withProc c rest fun p => [.release (.proc p), .clients, .usertrapret])
  -- sleep(), wakeup()
  | .sleep chan lk => some (kernel.withProc c rest (sleepBody chan lk))
  | .sleepRelease p chan lk =>
    match kernel.releaseLock c lk with
    | .ok released =>
      some ((released.setProc p { released.proc p with chan := chan, state := .sleeping }).goto
        c rest)
    | .error message => some (kernel.stops c message rest)
  | .tidyUp p => some ((kernel.setProc p { kernel.proc p with chan := none }).goto c rest)
  | .sleepReturn _ => some (kernel.goto c rest)
  | .wakeup chan i =>
    if bound : i < nproc then
      let p : Slot := ⟨i, bound⟩
      if kernel.myproc c = some p then some (kernel.goto c (.wakeup chan (i + 1) :: rest))
      else some (kernel.goto c (.acquire (.proc p) :: .wake chan p :: .release (.proc p) ::
        .wakeup chan (i + 1) :: rest))
    else some (kernel.goto c rest)
  | .wake chan p =>
    if (kernel.proc p).state = .sleeping ∧ (kernel.proc p).chan = chan then
      some ((kernel.setProc p { kernel.proc p with state := .runnable }).goto c rest)
    else some (kernel.goto c rest)
  -- kill(), setkilled(), killed()
  | .kill pid i =>
    if bound : i < nproc then
      let p : Slot := ⟨i, bound⟩
      some (kernel.goto c (.acquire (.proc p) :: .killVisit pid p :: rest))
    else some (kernel.goto c rest)
  | .killVisit pid p =>
    if (kernel.proc p).pid = pid then
      let state := if (kernel.proc p).state = .sleeping then .runnable else (kernel.proc p).state
      some ((kernel.setProc p { kernel.proc p with killed := true, state := state }).goto c
        (.release (.proc p) :: rest))
    else some (kernel.goto c (.release (.proc p) :: .kill pid (p.val + 1) :: rest))
  | .setkilled =>
    some (kernel.withProc c rest fun p =>
      [.acquire (.proc p), .markKilled p, .release (.proc p)])
  | .markKilled p =>
    some ((kernel.setProc p { kernel.proc p with killed := true }).goto c rest)
  | .readKilled p caller =>
    some (kernel.goto c
      (.release (.proc p) :: (caller.resume p (kernel.proc p).killed ++ rest)))
  -- exit(), reparent()
  | .exit status =>
    match kernel.myproc c with
    | none => some (kernel.stops c "kerneltrap" rest)
    | some p =>
      if p = initproc then some (kernel.stops c "init exiting" rest)
      else some (kernel.goto c (exitBody status p ++ rest))
  | .reparent p i =>
    if bound : i < nproc then
      let pp : Slot := ⟨i, bound⟩
      if (kernel.proc pp).parent = some p then
        some ((kernel.setProc pp { kernel.proc pp with parent := some initproc }).goto c
          (.wakeup (some (.proc initproc)) 0 :: .reparent p (i + 1) :: rest))
      else some (kernel.goto c (.reparent p (i + 1) :: rest))
    else some (kernel.goto c rest)
  | .wakeParent p =>
    some (kernel.goto c (.wakeup ((kernel.proc p).parent.map .proc) 0 :: rest))
  | .becomeZombie p status =>
    some ((kernel.setProc p { kernel.proc p with xstate := status, state := .zombie }).goto c rest)
  -- wait()
  | .wait copyoutFails =>
    some (kernel.withProc c rest fun p => [.acquire .waitLock, .waitScan p copyoutFails false 0])
  | .waitScan p copyoutFails havekids i =>
    if bound : i < nproc then
      let pp : Slot := ⟨i, bound⟩
      if (kernel.proc pp).parent = some p then
        some (kernel.goto c (.acquire (.proc pp) :: .waitChild p copyoutFails pp :: rest))
      else some (kernel.goto c (.waitScan p copyoutFails havekids (i + 1) :: rest))
    else if havekids then
      some (kernel.goto c (.acquire (.proc p) :: .readKilled p (.wait copyoutFails) :: rest))
    else some (kernel.goto c (.release .waitLock :: rest))
  | .waitChild p copyoutFails pp =>
    if (kernel.proc pp).state = .zombie then
      let reaped := if copyoutFails then kernel else kernel.setProc pp (freeproc (kernel.proc pp))
      some (reaped.goto c (.release (.proc pp) :: .release .waitLock :: rest))
    else some (kernel.goto c
      (.release (.proc pp) :: .waitScan p copyoutFails true (pp.val + 1) :: rest))
  -- fork(), allocproc(), allocpid()
  | .fork memory => some (kernel.withProc c rest fun p => [.allocproc p memory 0])
  | .allocproc p memory i =>
    if bound : i < nproc then
      let np : Slot := ⟨i, bound⟩
      some (kernel.goto c (.acquire (.proc np) :: .allocFound p memory np :: rest))
    else some (kernel.goto c rest)
  | .allocFound p memory np =>
    if (kernel.proc np).state = .unused then
      some (kernel.goto c (.acquire .pidLock :: .allocpid p memory np :: rest))
    else some (kernel.goto c (.release (.proc np) :: .allocproc p memory (np.val + 1) :: rest))
  | .allocpid p memory np =>
    some (Kernel.goto { kernel with nextpid := wrap32 (kernel.nextpid + 1) } c
      (.release .pidLock :: .allocInit p memory np kernel.nextpid :: rest))
  | .allocInit p memory np pid =>
    let process := { kernel.proc np with pid := pid, state := .used }
    if memory.trapframe ∧ memory.pagetable then
      some ((kernel.setProc np { process with context := [.forkret], tokenBucket := 64 }).goto c
        (.uptime (.allocproc p memory np) :: rest))
    else some ((kernel.setProc np (freeproc process)).goto c (.release (.proc np) :: rest))
  | .allocTick p memory np ctime =>
    let process := { kernel.proc np with lastScheduledTick := ctime, ticks := 0 }
    if memory.copy then
      some ((kernel.setProc np process).goto c (.uptime (.fork p np) :: rest))
    else
      let failed := { process with tokenBucket := (kernel.proc p).tokenBucket }
      some ((kernel.setProc np (freeproc failed)).goto c (.release (.proc np) :: rest))
  | .forkTick p np ctime =>
    some ((kernel.setProc np { kernel.proc np with lastScheduledTick := ctime }).goto c
      (forkTail p np ++ rest))
  | .setParent np p =>
    some ((kernel.setProc np { kernel.proc np with parent := some p }).goto c rest)
  | .publish np =>
    some ((kernel.setProc np { kernel.proc np with state := .runnable }).goto c rest)
  -- pslist(); a failing copyout ends the loop
  | .pslist copyoutFails i =>
    if bound : i < nproc then
      let p : Slot := ⟨i, bound⟩
      if (kernel.proc p).state = .unused then
        some (kernel.goto c (.pslist copyoutFails (i + 1) :: rest))
      else
        some ((kernel.setProc p (listed (kernel.proc p))).goto c
          (if copyoutFails = some i then rest else .pslist copyoutFails (i + 1) :: rest))
    else some (kernel.goto c rest)
  -- sysproc.c
  | .uptime caller => some (kernel.goto c (.acquire .tickslock :: .readTicks caller :: rest))
  | .readTicks caller =>
    some (kernel.goto c (.release .tickslock :: (caller.resume kernel.ticks ++ rest)))
  | .sysSleep n => some (kernel.goto c (.acquire .tickslock :: .sleepStart n :: rest))
  | .sleepStart n => some (kernel.withProc c rest fun p => [.sleepLoop p kernel.ticks n])
  | .sleepLoop p ticks0 n =>
    if ((kernel.ticks : Int) - ticks0) % 2 ^ 32 < n % 2 ^ 32 then
      some (kernel.goto c (.acquire (.proc p) :: .readKilled p (.sysSleep ticks0 n) :: rest))
    else some (kernel.goto c (.release .tickslock :: rest))
  -- trap.c
  | .tick => some (Kernel.goto { kernel with ticks := (kernel.ticks + 1) % 2 ^ 32 } c rest)
  | .killedExit =>
    some (kernel.withProc c rest fun p => [.acquire (.proc p), .readKilled p .usertrap])
  | .kerneltrapYield =>
    match kernel.myproc c with
    | none => some (kernel.goto c rest)
    | some p =>
      if (kernel.proc p).state = .running then some (kernel.goto c (.yield :: rest))
      else some (kernel.goto c rest)
  | .intrOn => some (kernel.setCpu c { kernel.cpu c with intr := true, ops := rest })
  | .usertrapret => some (kernel.setCpu c { kernel.cpu c with intr := true, ops := rest })
  | .iret => some (kernel.setCpu c { kernel.cpu c with intr := true, ops := rest })
  -- the client code goes on as its own label says
  | .clients => none
  | .client _ => none

/-- The system calls of the scheduler's own; the others are client code. -/
inductive Syscall where
  | kill (pid : Int)
  | exit (status : Int)
  | wait (copyoutFails : Bool)
  | fork (memory : ForkMemory)
  | sleep (n : Int)
  | uptime
  | pslist (copyoutFails : Option Nat)
  | other

/-- The operations of a system call. -/
def Syscall.ops : Syscall → List Op
  | .kill pid => [.kill pid 0]
  | .exit status => [.exit status]
  | .wait copyoutFails => [.wait copyoutFails]
  | .fork memory => [.fork memory]
  | .sleep n => [.sysSleep n]
  | .uptime => [.uptime .syscall]
  | .pslist copyoutFails => [.pslist copyoutFails 0]
  | .other => [.clients]

/-- What client code does next: outside its locks, or holding one of them. -/
inductive ClientChoice where
  | enter (k : Nat)
  | finish
  | sleep (a : Nat)
  | wakeup (a : Nat)
  | killed
  | leave

/-- `clockintr`, which only CPU 0 runs. -/
def clockintr (c : Fin ncpu) : List Op :=
  if c.val = 0 then
    [.acquire .tickslock, .tick, .wakeup (some .ticks) 0, .release .tickslock]
  else []

/-- The handler of a device interrupt wakes up the clients of the device. -/
def deviceIntr (k a : Nat) : List Op :=
  [.acquire (.cond k), .wakeup (some (.addr a)) 0, .release (.cond k)]

/-- The steps of the machine, with the CPU that takes them. -/
inductive Label (ncpu : Nat) where
  | step (c : Fin ncpu)
  | client (c : Fin ncpu) (choice : ClientChoice)
  | syscall (c : Fin ncpu) (call : Syscall)
  | fault (c : Fin ncpu)
  | timer (c : Fin ncpu)
  | device (c : Fin ncpu) (k a : Nat)

/-- The next operations of client code. -/
def stepClient (kernel : Kernel ncpu) (c : Fin ncpu) (rest : List Op) :
    Op → ClientChoice → Option (Kernel ncpu)
  | .clients, .enter k => some (kernel.goto c (.acquire (.cond k) :: .client k :: .clients :: rest))
  | .clients, .finish => some (kernel.goto c rest)
  | .client k, .sleep a =>
    some (kernel.goto c (.sleep (some (.addr a)) (.cond k) :: .client k :: rest))
  | .client k, .wakeup a =>
    some (kernel.goto c (.wakeup (some (.addr a)) 0 :: .client k :: rest))
  | .client k, .killed =>
    some (kernel.withProc c (.client k :: rest) fun p =>
      [.acquire (.proc p), .readKilled p .client])
  | .client k, .leave => some (kernel.goto c (.release (.cond k) :: rest))
  | _, _ => none

/-- A trap from user mode: `usertrap` with interrupts off. -/
def usertrap (kernel : Kernel ncpu) (c : Fin ncpu) (ops : List Op) : Option (Kernel ncpu) :=
  match (kernel.cpu c).ops with
  | [] => some (kernel.setCpu c { kernel.cpu c with intr := false, ops := ops })
  | _ :: _ => none

/-- An interrupt: through `usertrap` from user mode, else through `kerneltrap`. -/
def interrupt (kernel : Kernel ncpu) (c : Fin ncpu) (user inKernel : List Op) :
    Option (Kernel ncpu) :=
  if (kernel.cpu c).intr then
    match (kernel.cpu c).ops with
    | [] => usertrap kernel c user
    | op :: rest =>
      some (kernel.setCpu c
        { kernel.cpu c with intr := false, ops := inKernel ++ op :: rest })
  else none

/-- One step of the machine. -/
def step (kernel : Kernel ncpu) : Label ncpu → Option (Kernel ncpu)
  | .step c =>
    match (kernel.cpu c).ops with
    | op :: rest => stepOp kernel c rest op
    | [] => none
  | .client c choice =>
    match (kernel.cpu c).ops with
    | op :: rest => stepClient kernel c rest op choice
    | [] => none
  | .syscall c call =>
    usertrap kernel c ([.killedExit, .intrOn] ++ call.ops ++ [.killedExit, .usertrapret])
  | .fault c => usertrap kernel c [.setkilled, .killedExit, .usertrapret]
  | .timer c =>
    interrupt kernel c (clockintr c ++ [.killedExit, .yield, .usertrapret])
      (clockintr c ++ [.kerneltrapYield, .iret])
  | .device c k a =>
    interrupt kernel c (deviceIntr k a ++ [.killedExit, .usertrapret])
      (deviceIntr k a ++ [.iret])

/-- The first process, as `userinit` leaves it. -/
def firstProcess : Process :=
  { Process.blank with
    pid := 1
    state := .runnable
    context := [.forkret]
    tokenBucket := 64 }

/-- A CPU that enters `scheduler()`, with interrupts still off. -/
def bootCpu : Cpu where
  proc := none
  context := []
  noff := 0
  intena := false
  intr := false
  ops := [.uptime .scheduler]

/-- The machine after `main`. -/
def boot (ncpu : Nat) : Kernel ncpu where
  cpu := fun _ => bootCpu
  proc := Function.update (fun _ => .blank) initproc firstProcess
  owner := fun _ => none
  ticks := 0
  nextpid := 2

/-- The scheduler and its clients on `ncpu` CPUs. -/
def machine (ncpu : Nat) : TransitionSystem (Kernel ncpu) (Label ncpu) :=
  .ofStep (· = boot ncpu) step

end Xv6.Proc
