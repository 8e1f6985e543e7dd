import Xv6.Proc.Discipline

/-!
# Sound states of the machine

A state is sound when every CPU executes a thread that follows the locking
discipline in a mode that agrees with the lock words, the process table and the
CPU's interrupt nesting, and every process that can be scheduled has been saved
in a context that follows it. With `strict`, a process also never reaches the
scheduler in the state `RUNNING`.
-/

namespace Xv6.Proc

open Xv6.Semantics

variable {ncpu : Nat}

/-- What the threads have in progress: the mode of the thread on each CPU, and for
each process the parts of its mode that survive a context switch. -/
structure Ghost (ncpu : Nat) where
  mode : Fin ncpu → Mode
  child : Slot → Option Slot
  waiting : Slot → Option (Option Chan × Lock)

/-- The CPU executes the thread of `me`, which may be waiting for a lock. -/
inductive Executes (strict : Prop) (me : Option Slot) (mode : Mode) (cpu : Cpu) : Prop where
  | next (disciplined : Disciplined strict me cpu.ops mode) (noff : cpu.noff = mode.held.length)
  | spins {lk rest} (ops : cpu.ops = .spin lk :: rest)
      (disciplined : Disciplined strict me (.acquire lk :: rest) mode)
      (noff : cpu.noff = mode.held.length + 1)

/-- What a CPU that executes process `p` says about the process table. -/
structure ProcessSound (strict : Prop) (kernel : Kernel ncpu) (ghost : Ghost ncpu) (c : Fin ncpu)
    (p : Slot) : Prop where
  staying : (ghost.mode c).leaving = false → (kernel.proc p).state = .running
  leaving : (ghost.mode c).leaving = true →
    .proc p ∈ (ghost.mode c).held ∧ (strict → (kernel.proc p).state ≠ .running)
  found : ∀ np, (ghost.mode c).found = some np →
    (kernel.proc np).state = .unused ∧ .proc np ∈ (ghost.mode c).held
  child : (ghost.mode c).child = ghost.child p
  waiting : (ghost.mode c).waiting = ghost.waiting p
  scheduler : ∃ currentTick rest, (kernel.cpu c).context = .back currentTick p :: rest ∧
    Disciplined strict none rest (.holding [.proc p])

/-- A CPU executes a process or its scheduler, or the scheduler has just been
switched back to. -/
inductive CpuSound (strict : Prop) (kernel : Kernel ncpu) (ghost : Ghost ncpu) (c : Fin ncpu) :
    Prop where
  | running (executes : Executes strict (kernel.cpu c).proc (ghost.mode c) (kernel.cpu c))
      (idle : (kernel.cpu c).proc = none → ghost.mode c = .holding (ghost.mode c).held)
      (process : ∀ p, (kernel.cpu c).proc = some p → ProcessSound strict kernel ghost c p)
  | returning {currentTick p rest} (current : (kernel.cpu c).proc = some p)
      (ops : (kernel.cpu c).ops = .back currentTick p :: rest)
      (mode : ghost.mode c = .holding [.proc p]) (noff : (kernel.cpu c).noff = 1)
      (disciplined : Disciplined strict none rest (.holding [.proc p]))
      (left : strict → (kernel.proc p).state ≠ .running)

/-- The CPU is executing the thread of `p`. -/
def Cpu.Executing (cpu : Cpu) (p : Slot) : Prop :=
  cpu.proc = some p ∧ ∀ currentTick q rest, cpu.ops ≠ .back currentTick q :: rest

/-- The states of a process whose saved context will be resumed. -/
def ProcState.Live (state : ProcState) : Prop :=
  state = .used ∨ state = .runnable ∨ state = .sleeping

/-- The states of a process without a thread in progress. -/
def ProcState.Inert (state : ProcState) : Prop :=
  state = .unused ∨ state = .used ∨ state = .zombie

/-- The invariant of the scheduler. -/
structure Sound (strict : Prop) (kernel : Kernel ncpu) (ghost : Ghost ncpu) : Prop where
  owner : ∀ lk c, kernel.owner lk = some c ↔ lk ∈ (ghost.mode c).held
  nodup : ∀ c, (ghost.mode c).held.Nodup
  interrupts : ∀ c, (kernel.cpu c).intr = true → (kernel.cpu c).noff = 0
  cpus : ∀ c, CpuSound strict kernel ghost c
  unique : ∀ c d p, (kernel.cpu c).proc = some p → (kernel.cpu d).proc = some p → c = d
  running : strict → ∀ p, (kernel.proc p).state = .running → ∃ c, (kernel.cpu c).proc = some p
  parked : ∀ p, (kernel.proc p).state.Live → (∀ c, ¬ (kernel.cpu c).Executing p) →
    Disciplined strict (some p) (kernel.proc p).context
      (.resumed p (ghost.child p) (ghost.waiting p))
  children : ∀ p np, ghost.child p = some np → (kernel.proc np).state = .used
  distinct : ∀ p q np, ghost.child p = some np → ghost.child q = some np → p = q
  fresh : ∀ p, (kernel.proc p).state.Inert → ghost.child p = none ∧ ghost.waiting p = none

section Reading

variable {strict : Prop} {kernel : Kernel ncpu} {ghost : Ghost ncpu} {c d : Fin ncpu} {p : Slot}

theorem Sound.not_held (sound : Sound strict kernel ghost)
    (held : lk ∈ (ghost.mode c).held) (other : d ≠ c) : lk ∉ (ghost.mode d).held := by
  intro alsoHeld
  have first := (sound.owner lk c).mpr held
  have second := (sound.owner lk d).mpr alsoHeld
  rw [first] at second
  exact other (Option.some.inj second).symm

/-- A thread that executes is not a scheduler that has just been switched back to. -/
theorem Executes.ne_back (executes : Executes strict me mode cpu)
    (currentTick : Nat) (q : Slot) (rest : List Op) : cpu.ops ≠ .back currentTick q :: rest := by
  intro atBack
  cases executes with
  | next obeys _ =>
    rw [atBack] at obeys
    exact obeys
  | spins ops _ _ =>
    rw [atBack] at ops
    cases ops

/-- The current process of a CPU is `RUNNING` unless the CPU holds its lock. -/
theorem CpuSound.running_or_held (cpuSound : CpuSound strict kernel ghost c)
    (current : (kernel.cpu c).proc = some p) :
    (kernel.proc p).state = .running ∨ .proc p ∈ (ghost.mode c).held := by
  cases cpuSound with
  | running _ _ process =>
    have processSound := process p current
    cases leaving : (ghost.mode c).leaving with
    | false => exact .inl (processSound.staying leaving)
    | true => exact .inr (processSound.leaving leaving).1
  | returning isCurrent _ mode _ _ _ =>
    rw [current] at isCurrent
    cases isCurrent
    rw [mode]
    exact .inr (List.mem_singleton.mpr rfl)

end Reading
end Xv6.Proc
