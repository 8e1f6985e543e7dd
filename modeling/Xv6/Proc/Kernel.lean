import Mathlib.Logic.Function.Basic
import Xv6.Proc.Op

/-!
# Processes, CPUs and the token bucket

The process table, the per-CPU state and the clock, and the code that changes
them without synchronising: the token bucket of the FATCAT scheduler, the
interrupt nesting of `push_off`/`pop_off`, and spinlock ownership. A saved
context is the list of operations its thread resumes with.
-/

namespace Xv6.Proc

open Function

/-- Conversion of an integer to a 32-bit `int`. -/
def wrap32 (value : Int) : Int := Int.bmod value (2 ^ 32)

/-- `struct proc`: the fields used by scheduling. -/
structure Process where
  state : ProcState
  chan : Option Chan
  killed : Bool
  xstate : Int
  pid : Int
  ticks : Int
  lastScheduledTick : Nat
  avialableTokens : Int
  tokenBucket : Int
  time : Int
  pticks : Int
  parent : Option Slot
  context : List Op

/-- A zeroed entry of `proc[]`. -/
def Process.blank : Process where
  state := .unused
  chan := none
  killed := false
  xstate := 0
  pid := 0
  ticks := 0
  lastScheduledTick := 0
  avialableTokens := 0
  tokenBucket := 0
  time := 0
  pticks := 0
  parent := none
  context := []

/-- `tick_diff` between a tick count and the process's last scheduled tick. -/
def tickDiff (tick : Nat) (process : Process) : Int :=
  wrap32 (tick - process.lastScheduledTick)

/-- The loop of `sched` that takes tokens, over `count` ticks. -/
def takeTokens : Nat → Int → Int
  | 0, tokens => tokens
  | count + 1, tokens => takeTokens count (if tokens > 0 then tokens - 1 else tokens)

/-- The loop of `FATCAT_SCHED` that adds tokens, for the ticks from `i` on. -/
def addTokens : (count i : Nat) → Int → Int
  | 0, _, tokens => tokens
  | count + 1, i, tokens =>
    addTokens count (i + 1) (if (i + 1) % 10 = 0 then wrap32 (tokens + 1) else tokens)

/-- `FATCAT_SCHED`. -/
def fatcatSched (process : Process) (currentTick : Nat) : Process :=
  let diff := tickDiff currentTick process
  let bucket :=
    if process.tokenBucket < 65 ∧ diff > 0 then addTokens diff.toNat 0 process.tokenBucket
    else process.tokenBucket
  { process with
    tokenBucket := bucket
    lastScheduledTick := currentTick
    avialableTokens := bucket }

/-- `sched`, the branch of a runnable process: it pays a token for each tick. -/
def payTicks (process : Process) (diff : Int) : Process :=
  { process with
    tokenBucket := takeTokens diff.toNat process.tokenBucket
    ticks := wrap32 (process.ticks + diff) }

/-- `sched`, the branch of a sleeping process without tokens, before its first swtch. -/
def wakeDrained (process : Process) (ctick : Nat) : Process :=
  { process with
    state := .runnable
    pticks := process.ticks
    time := wrap32 ctick }

/-- `sched`, the assignments before its last swtch. -/
def settle (process : Process) (ctick : Nat) : Process :=
  { process with
    time := wrap32 ctick
    avialableTokens := process.tokenBucket
    lastScheduledTick := ctick }

/-- `freeproc`. -/
def freeproc (process : Process) : Process :=
  { process with
    pid := 0
    parent := none
    chan := none
    killed := false
    xstate := 0
    state := .unused }

/-- The inner loop of `pslist` on one process, with `u.avialable_tokens`. -/
def listTicks : Nat → Int → Process → Process
  | 0, _, process => process
  | count + 1, tokens, process =>
    if tokens > 0 then listTicks count (tokens - 1) process
    else listTicks count 64 { process with state := .sleeping, avialableTokens := 64 }

/-- The effect of `pslist` on the entry it lists. -/
def listed (process : Process) : Process :=
  let diff := wrap32 (process.time + process.avialableTokens - process.lastScheduledTick)
  if diff > 0 then listTicks diff.toNat process.avialableTokens process else process

/-- `struct cpu`, with the operations the CPU is executing and its interrupt flag. -/
structure Cpu where
  proc : Option Slot
  context : List Op
  noff : Nat
  intena : Bool
  intr : Bool
  ops : List Op

/-- `push_off`. -/
def Cpu.pushOff (cpu : Cpu) : Cpu :=
  { cpu with
    intr := false
    intena := if cpu.noff = 0 then cpu.intr else cpu.intena
    noff := cpu.noff + 1 }

/-- `pop_off`. -/
def Cpu.popOff (cpu : Cpu) : Except String Cpu :=
  if cpu.intr then .error "pop_off - interruptible"
  else if cpu.noff < 1 then .error "pop_off"
  else .ok
    { cpu with
      noff := cpu.noff - 1
      intr := cpu.noff - 1 = 0 ∧ cpu.intena }

/-- A machine with `ncpu` CPUs. -/
structure Kernel (ncpu : Nat) where
  cpu : Fin ncpu → Cpu
  proc : Slot → Process
  owner : Lock → Option (Fin ncpu)
  ticks : Nat
  nextpid : Int

namespace Kernel

variable {ncpu : Nat}

/-- `myproc`. -/
def myproc (kernel : Kernel ncpu) (c : Fin ncpu) : Option Slot := (kernel.cpu c).proc

/-- Change the state of one CPU. -/
def setCpu (kernel : Kernel ncpu) (c : Fin ncpu) (cpu : Cpu) : Kernel ncpu :=
  { kernel with cpu := update kernel.cpu c cpu }

/-- Change one entry of the process table. -/
def setProc (kernel : Kernel ncpu) (p : Slot) (process : Process) : Kernel ncpu :=
  { kernel with proc := update kernel.proc p process }

/-- Let a CPU continue with other operations. -/
def goto (kernel : Kernel ncpu) (c : Fin ncpu) (ops : List Op) : Kernel ncpu :=
  kernel.setCpu c { kernel.cpu c with ops := ops }

/-- The lock word and `lk->cpu`, once the lock is taken or given back. -/
def setOwner (kernel : Kernel ncpu) (lk : Lock) (owner : Option (Fin ncpu)) : Kernel ncpu :=
  { kernel with owner := update kernel.owner lk owner }

section Fields

variable (kernel : Kernel ncpu) (c d : Fin ncpu) (p q : Slot) (cpu : Cpu) (process : Process)
  (ops : List Op) (lk : Lock) (owner : Option (Fin ncpu))

@[simp] theorem setCpu_cpu : (kernel.setCpu c cpu).cpu = update kernel.cpu c cpu := rfl
@[simp] theorem setCpu_proc : (kernel.setCpu c cpu).proc = kernel.proc := rfl
@[simp] theorem setCpu_owner : (kernel.setCpu c cpu).owner = kernel.owner := rfl
@[simp] theorem setCpu_ticks : (kernel.setCpu c cpu).ticks = kernel.ticks := rfl
@[simp] theorem setProc_cpu : (kernel.setProc p process).cpu = kernel.cpu := rfl
@[simp] theorem setProc_proc :
    (kernel.setProc p process).proc = update kernel.proc p process := rfl
@[simp] theorem setProc_owner : (kernel.setProc p process).owner = kernel.owner := rfl
@[simp] theorem setProc_ticks : (kernel.setProc p process).ticks = kernel.ticks := rfl
@[simp] theorem goto_cpu :
    (kernel.goto c ops).cpu = update kernel.cpu c { kernel.cpu c with ops := ops } := rfl
@[simp] theorem goto_proc : (kernel.goto c ops).proc = kernel.proc := rfl
@[simp] theorem goto_owner : (kernel.goto c ops).owner = kernel.owner := rfl
@[simp] theorem goto_ticks : (kernel.goto c ops).ticks = kernel.ticks := rfl
@[simp] theorem setOwner_cpu : (kernel.setOwner lk owner).cpu = kernel.cpu := rfl
@[simp] theorem setOwner_proc : (kernel.setOwner lk owner).proc = kernel.proc := rfl
@[simp] theorem setOwner_owner :
    (kernel.setOwner lk owner).owner = update kernel.owner lk owner := rfl
@[simp] theorem setOwner_ticks : (kernel.setOwner lk owner).ticks = kernel.ticks := rfl

end Fields

/-- `release`. -/
def releaseLock (kernel : Kernel ncpu) (c : Fin ncpu) (lk : Lock) : Except String (Kernel ncpu) :=
  if kernel.owner lk ≠ some c then .error "release"
  else match (kernel.cpu c).popOff with
  | .ok cpu => .ok ((kernel.setOwner lk none).setCpu c cpu)
  | .error message => .error message

/-- `swtch(&p->context, &mycpu()->context)`: the thread of `p` is saved with the
operations it resumes with, and the CPU's scheduler resumes. -/
def switchOut (kernel : Kernel ncpu) (c : Fin ncpu) (p : Slot) (saved : List Op) : Kernel ncpu :=
  (kernel.setProc p { kernel.proc p with context := saved }).goto c (kernel.cpu c).context

/-- `swtch(&c->context, &p->context)`: the scheduler is saved and the thread of
`p` resumes. -/
def switchIn (kernel : Kernel ncpu) (c : Fin ncpu) (p : Slot) (saved : List Op) : Kernel ncpu :=
  kernel.setCpu c { kernel.cpu c with context := saved, ops := (kernel.proc p).context }

end Kernel
end Xv6.Proc
