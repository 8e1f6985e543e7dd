import Mathlib.Logic.ExistsUnique
import Xv6.Proc.Machine
import Xv6.Proc.Watched

/-!
# A running process has one CPU

While nobody holds its lock, a process is `RUNNING` exactly when one CPU has it
as its current process, and no CPU returns to its scheduler from a `RUNNING`
process. This holds as long as no process reaches `sched` asleep and without
tokens: `sched` then switches twice, and the second time the process is `RUNNING`.
-/

namespace Xv6.Proc

open Xv6.Semantics
open TransitionSystem (exec exec_append)

variable {ncpu : Nat}

/-- `RUNNING` is the state of the processes that a CPU executes, and of no other. -/
structure Exclusive (kernel : Kernel ncpu) : Prop where
  running_iff : ∀ p, kernel.owner (.proc p) = none →
    ((kernel.proc p).state = .running ↔ ∃! c, (kernel.cpu c).proc = some p)
  given_back : ∀ c currentTick p rest, (kernel.cpu c).ops = .back currentTick p :: rest →
    (kernel.proc p).state ≠ .running

/-- Steps in which `sched` finds no sleeping process without tokens, and `pslist`
puts none to sleep. -/
def KeepsTokens (kernel : Kernel ncpu) (label : Label ncpu) : Prop :=
  ListsOnly kernel label ∧ SleepsWithTokens kernel label

/-- The current process of a CPU is `RUNNING` unless its lock is held. -/
theorem Sound.running_of_current {kernel : Kernel ncpu} (sound : Sound strict kernel ghost)
    (free : kernel.owner (.proc p) = none) (current : (kernel.cpu c).proc = some p) :
    (kernel.proc p).state = .running := by
  rcases (sound.cpus c).running_or_held current with isRunning | held
  · exact isRunning
  · rw [(sound.owner _ c).mpr held] at free
    cases free

/-- Sound states are exclusive if no process reaches the scheduler `RUNNING`. -/
theorem Sound.exclusive {kernel : Kernel ncpu}
    (sound : Sound True kernel ghost) : Exclusive kernel where
  running_iff := by
    intro p free
    constructor
    · intro isRunning
      obtain ⟨c, current⟩ := sound.running trivial p isRunning
      exact ⟨c, current, fun d alsoCurrent => sound.unique d c p alsoCurrent current⟩
    · rintro ⟨c, current, _⟩
      exact sound.running_of_current free current
  given_back := by
    intro c currentTick p rest ops
    cases sound.cpus c with
    | running executes _ _ => exact absurd ops (executes.ne_back _ _ _)
    | returning _ atBack _ _ _ left =>
      rw [ops] at atBack
      cases atBack
      exact left trivial

theorem keepsTokens_boot : KeepsTokens (boot 2) (.step 0) := by
  refine ⟨listsOnly_boot, ?_⟩
  rintro c p ctick rest _ ops
  cases ops

/-- The operations that check how locks are held; `sleep` gives back its lock. -/
def Op.checks : Op → Bool
  | .acquire _ | .release _ | .sleepRelease _ _ _ | .sched => true
  | _ => false

/-- None of the checks in `acquire`, `release`, `pop_off` and `sched` fails. -/
theorem checks_pass {start kernel next : Kernel ncpu} {labels : List (Label ncpu)} {c : Fin ncpu}
    {op : Op} {rest : List Op} (run : ((machine ncpu).restrict KeepsTokens).Runs start labels kernel)
    (ops : (kernel.cpu c).ops = op :: rest) (checks : op.checks)
    (ran : stepOp kernel c rest op = some next) (message : String) :
    (next.cpu c).ops ≠ .panic message :: rest := by
  obtain ⟨ghost, sound⟩ : ∃ ghost, Sound True kernel ghost :=
    sound_of_runs (fun _ _ keeps => keeps.1) (fun _ _ _ keeps => keeps.2) run
  cases op <;> try cases checks
  case acquire lk =>
    have free := (sound.head ops (.of rfl)).1.1
    rw [stepOp, if_neg fun mine => free ((sound.owner lk c).mp mine)] at ran
    cases ran
    simp
  case release lk =>
    obtain ⟨⟨held, -⟩, noff, -⟩ := sound.head ops (.of rfl)
    simp only [stepOp, sound.releaseLock_eq noff held, Option.some.injEq] at ran
    subst ran
    simp
  case sleepRelease p chan lk =>
    obtain ⟨⟨-, calls, -⟩, noff, -⟩ := sound.head ops (.of rfl)
    have held : lk ∈ (ghost.mode c).held := by simp [calls.held]
    simp only [stepOp, sound.releaseLock_eq noff held, Option.some.injEq] at ran
    subst ran
    simp
  case sched =>
    obtain ⟨⟨p, leaves, -⟩, noff, -, process⟩ := sound.head ops (.of rfl)
    obtain ⟨held, left⟩ := (process p leaves.mine).leaving (leaves.leaving trivial)
    have owned := (sound.owner _ c).mpr held
    have one : (kernel.cpu c).noff = 1 := by rw [noff, leaves.held]; rfl
    have off : (kernel.cpu c).intr ≠ true := fun on => by
      rw [sound.interrupts c on] at one
      cases one
    simp only [stepOp, Kernel.myproc, leaves.mine, owned, one, left trivial, off, ne_eq,
      not_true_eq_false, if_false] at ran
    cases ran
    simp

theorem checks_pass_acquire : ∃ (kernel next : Kernel 2) (rest : List Op),
    ((machine 2).restrict KeepsTokens).Runs (boot 2) ([] ++ [.step 0]) kernel ∧
      stepOp kernel 0 rest (.acquire .tickslock) = some next ∧
      (next.cpu 0).ops ≠ .panic "acquire" :: rest := by
  have run : ((machine 2).restrict KeepsTokens).Runs (boot 2) ([] ++ [.step 0]) _ :=
    .step (.initial rfl) ⟨rfl, keepsTokens_boot⟩
  exact ⟨_, _, _, run, rfl, checks_pass run rfl rfl rfl "acquire"⟩

end Xv6.Proc
