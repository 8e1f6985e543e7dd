import Xv6.Proc.Exclusive
import Xv6.Proc.Local

/-!
# The record of `sleep` and the states of processes

The record of the calls in progress does not look at the state of a process; the
invariant says that the state agrees with it.
-/

namespace Xv6.Proc

open Function Xv6.Semantics

variable {ncpu : Nat} {kernel next : Kernel ncpu} {ghost : Ghost ncpu} {c : Fin ncpu}
  {rest : List Op}

/-- The state of a process agrees with the record of its `sleep` call. -/
def Process.Agrees (process : Process) : Option Wait → Prop
  | none => process.state ≠ .sleeping
  | some wait => wait.lk.isProc = false ∧
      if wait.woken then process.state = .runnable ∨ process.state = .running
      else process.state = .sleeping ∧ process.chan = wait.chan

theorem Process.Agrees.of_eq {process changed : Process}
    (agrees : process.Agrees wait) (state : changed.state = process.state)
    (chan : changed.chan = process.chan) : changed.Agrees wait := by
  cases wait with
  | none =>
    intro asleep
    exact agrees (state ▸ asleep)
  | some wait =>
    refine ⟨agrees.1, ?_⟩
    rw [state, chan]
    exact agrees.2

theorem Process.Agrees.turns {process changed : Process}
    (agrees : process.Agrees wait) (awake : process.state ≠ .sleeping)
    (state : changed.state = .runnable ∨ changed.state = .running) : changed.Agrees wait := by
  cases wait with
  | none => rcases state with state | state <;> simp [Process.Agrees, state]
  | some wait =>
    obtain ⟨client, cases⟩ := agrees
    split at cases
    · rename_i woken
      exact ⟨client, by rw [if_pos woken]; exact state⟩
    · exact absurd cases.1 awake

/-- The records of the `sleep` calls, and the part of them that is kept by the discipline. -/
structure Agrees (kernel : Kernel ncpu) (ghost : Ghost ncpu) (waits : Slot → Option Wait) :
    Prop where
  processes : ∀ p, (kernel.proc p).Agrees (waits p)
  calls : ∀ p, ghost.waiting p = (waits p).map fun wait => (wait.chan, wait.lk)

section Operations

variable {waits : Slot → Option Wait} {op : Op} {p : Slot}

section

variable (agrees : ∀ p, (kernel.proc p).Agrees (waits p))
include agrees

theorem agrees_of_same (procs : next.proc = kernel.proc) (p : Slot) : (next.proc p).Agrees
    (waits p) := by
  rw [procs]
  exact agrees p

theorem agrees_of_update
    (procs : next.proc = update kernel.proc p process) (here : process.Agrees (waits p))
    (q : Slot) : (next.proc q).Agrees (waits q) := by
  rw [procs]
  obtain rfl | same := eq_or_ne q p
  · rwa [update_self]
  · rw [update_of_ne same]
    exact agrees q

theorem agrees_of_record (procs : next.proc = update kernel.proc p process)
    (here : process.Agrees wait) (q : Slot) :
    (next.proc q).Agrees (update waits p wait q) := by
  rw [procs]
  obtain rfl | same := eq_or_ne q p
  · rwa [update_self, update_self]
  · rw [update_of_ne same, update_of_ne same]
    exact agrees q

end

variable (sound : Sound True kernel ghost) (ops : (kernel.cpu c).ops = op :: rest)
include sound

theorem Agrees.of_inert (agrees : Agrees kernel ghost waits)
    (inert : (kernel.proc p).state.Inert) : waits p = none := by
  have none := (sound.fresh p inert).2
  rw [agrees.calls p] at none
  exact Option.map_eq_none_iff.mp none

include ops

theorem Sound.used_of_forks (plain : op.Plain) (forks : Forks np (ghost.mode c)) :
    (kernel.proc np).state = .used := by
  obtain ⟨_, _, idle, process⟩ := sound.head ops plain
  cases current : (kernel.cpu c).proc with
  | none =>
    have child := forks.child
    rw [idle current] at child
    cases child
  | some q =>
    apply sound.children q np
    rw [← (process q current).child, forks.child]

end Operations

theorem chan_listed (process : Process) : (listed process).chan = process.chan := by
  rw [listed_eq_ite]
  split <;> rfl

/-- A process that has been visited by a `wakeup` or a `kill` of it. -/
theorem Process.Agrees.visited {process : Process}
    (agrees : process.Agrees waits) (hit : Option Chan → Bool) {changed : Process} (chan : changed.chan = process.chan)
    (state : changed.state =
      if process.state = .sleeping ∧ hit process.chan then .runnable else process.state) :
    changed.Agrees (waits.map fun wait => { wait with woken := wait.woken || hit wait.chan }) := by
  cases waits with
  | none =>
    have awake : process.state ≠ .sleeping := agrees
    rw [if_neg (fun both => awake both.1)] at state
    exact agrees.of_eq state chan
  | some wait =>
    obtain ⟨client, agrees⟩ := agrees
    refine ⟨client, ?_⟩
    simp only [Bool.or_eq_true]
    split at agrees
    · rename_i woken
      have awake : process.state ≠ .sleeping := by
        rcases agrees with turn | turn <;> simp [turn]
      rw [if_pos (.inl woken), state, if_neg (fun both => awake both.1)]
      exact agrees
    rename_i unwoken
    rw [agrees.2] at state
    by_cases visits : hit wait.chan = true
    · rw [if_pos (.inr visits), state, if_pos ⟨agrees.1, visits⟩]
      exact .inl rfl
    · have unvisited : ¬ (wait.woken = true ∨ hit wait.chan = true) := by
        simp [unwoken, visits]
      rw [if_neg unvisited, state, if_neg (fun both => visits both.2), chan]
      exact agrees

/-- Every operation keeps the states of the processes and the record in agreement. -/
theorem Agrees.stepOp (agrees : Agrees kernel ghost waits)
    (sound : Sound True kernel ghost) (ops : (kernel.cpu c).ops = op :: rest)
    (ran : Proc.stepOp kernel c rest op = some next) (admitted : Admitted True kernel op) :
    ∀ p, (next.proc p).Agrees (recordSleep kernel waits op p) := by
  have before := agrees.processes
  have ruled := fun plain => (sound.head ops plain).1
  cases op with
  | release lk =>
    simp only [Proc.stepOp] at ran
    split at ran <;> cases ran
    · rename_i released done
      obtain ⟨cpu, _, rfl⟩ := Kernel.eq_of_releaseLock done
      exact before
    · exact before
  | pick t p =>
    simp only [Proc.stepOp] at ran
    split at ran <;> cases ran
    · rename_i runnable
      apply agrees_of_update before rfl
      exact (before p).turns (by simp [runnable]) (.inr rfl)
    · exact before
  | back t p =>
    cases ran
    exact agrees_of_update before rfl ((before p).of_eq rfl rfl)
  | charge p t =>
    have awake := admitted.drained trivial p t rfl
    cases ran
    simp only [Kernel.charge]
    split
    · exact agrees_of_update before rfl ((before p).of_eq rfl rfl)
    · split
      · rename_i drained
        exact absurd drained awake
      · exact before
  | tail p t =>
    cases ran
    have settled : ∀ saved, ({ settle (kernel.proc p) t with context := saved } : Process).Agrees
        (waits p) := fun _ => (before p).of_eq rfl rfl
    refine agrees_of_update before ?_ (settled (.restore (kernel.cpu c).intena :: rest))
    simp [Kernel.switchOut]
  | yield | forkret | sleep chan lk | setkilled | wait fails | fork memory | sleepStart n
  | killedExit =>
    cases ran
    exact agrees_of_same before (kernel.withProc_proc c rest _)
  | setRunnable p =>
    have plain : (Op.setRunnable p).Plain := .of rfl
    obtain ⟨mine, rests, _⟩ := ruled plain
    have isRunning := sound.running_of_staying ops plain mine rests.staying
    cases ran
    exact agrees_of_update before rfl ((before p).turns (by simp [isRunning]) (.inl rfl))
  | sleepRelease p chan lk =>
    obtain ⟨⟨_, awake, client, _⟩, noff, _, _⟩ := sound.head ops (.of rfl)
    have held : lk ∈ (ghost.mode c).held := by simp [awake.held]
    simp only [Proc.stepOp, sound.releaseLock_eq noff held, Option.some.injEq] at ran
    subst ran
    exact agrees_of_record before rfl ⟨client, rfl, rfl⟩
  | tidyUp p =>
    have plain : (Op.tidyUp p).Plain := .of rfl
    obtain ⟨mine, rests, _⟩ := ruled plain
    have isRunning := sound.running_of_staying ops plain mine rests.staying
    cases ran
    exact agrees_of_update before rfl ((before p).turns (by simp [isRunning]) (.inr isRunning))
  | sleepReturn p =>
    have plain : (Op.sleepReturn p).Plain := .of rfl
    obtain ⟨mine, staying, _⟩ := ruled plain
    have isRunning := sound.running_of_staying ops plain mine staying
    cases ran
    apply agrees_of_record before (update_eq_self p kernel.proc).symm
    simp [Process.Agrees, isRunning]
  | wake chan p =>
    simp only [Proc.stepOp] at ran
    split at ran <;> cases ran
    · rename_i matching
      refine agrees_of_record before rfl ((before p).visited (· = chan) rfl ?_)
      simp [matching]
    · rename_i ne
      refine agrees_of_record before (update_eq_self p kernel.proc).symm
        ((before p).visited (· = chan) rfl ?_)
      simp [ne]
  | killVisit pid p =>
    simp only [Proc.stepOp] at ran
    split at ran <;> cases ran
    · rename_i matching
      refine agrees_of_record before rfl
        ((before p).visited (fun _ => (kernel.proc p).pid = pid) rfl ?_)
      simp [matching]
    · rename_i ne
      refine agrees_of_record before (update_eq_self p kernel.proc).symm
        ((before p).visited (fun _ => (kernel.proc p).pid = pid) rfl ?_)
      simp [ne]
  | markKilled p =>
    cases ran
    exact agrees_of_update before rfl ((before p).of_eq rfl rfl)
  | reparent p i =>
    simp only [Proc.stepOp] at ran
    repeat' split at ran
    all_goals cases ran
    · exact agrees_of_update before rfl ((before _).of_eq rfl rfl)
    · exact before
    · exact before
  | becomeZombie p status =>
    obtain ⟨⟨mine, mode, _⟩, _, _, process⟩ := sound.head ops (.of rfl)
    have outside : waits p = none := by
      have waiting := (process p mine).waiting
      rw [mode, agrees.calls p] at waiting
      exact Option.map_eq_none_iff.mp waiting.symm
    cases ran
    refine agrees_of_update before rfl ?_
    simp [recordSleep, outside, Process.Agrees]
  | waitChild p fails pp =>
    simp only [Proc.stepOp] at ran
    split at ran <;> cases ran
    · rename_i zombie
      have outside := agrees.of_inert sound (.inr (.inr zombie))
      cases fails with
      | true => exact before
      | false =>
        refine agrees_of_update before rfl ?_
        simp [recordSleep, outside, Process.Agrees, freeproc]
    · exact before
  | allocInit p memory np pid =>
    obtain ⟨⟨mine, _, _, found, _⟩, _, _, process⟩ := sound.head ops (.of rfl)
    have outside := agrees.of_inert sound (.inl ((process p mine).found np found).1)
    simp only [Proc.stepOp] at ran
    split at ran <;> cases ran
    · refine agrees_of_update before rfl ?_
      simp [recordSleep, outside, Process.Agrees]
    · refine agrees_of_update before rfl ?_
      simp [recordSleep, outside, Process.Agrees, freeproc]
  | allocTick p memory np ctime =>
    have plain : (Op.allocTick p memory np ctime).Plain := .of rfl
    have used := sound.used_of_forks ops plain (ruled plain).2.1
    have outside := agrees.of_inert sound (.inr (.inl used))
    simp only [Proc.stepOp] at ran
    split at ran <;> cases ran
    · exact agrees_of_update before rfl ((before np).of_eq rfl rfl)
    · refine agrees_of_update before rfl ?_
      simp [recordSleep, outside, Process.Agrees, freeproc]
  | forkTick p np ctime =>
    cases ran
    exact agrees_of_update before rfl ((before np).of_eq rfl rfl)
  | setParent np p =>
    cases ran
    exact agrees_of_update before rfl ((before np).of_eq rfl rfl)
  | publish np =>
    have plain : (Op.publish np).Plain := .of rfl
    have used := sound.used_of_forks ops plain (ruled plain).1
    cases ran
    exact agrees_of_update before rfl ((before np).turns (by simp [used]) (.inl rfl))
  | pslist fails i =>
    simp only [Proc.stepOp] at ran
    split at ran
    · rename_i bound
      have lists := admitted.listing fails i bound rfl
      split at ran <;> cases ran
      · exact before
      · rename_i active
        exact agrees_of_update before rfl
          ((before _).of_eq (state_listed _ active lists) (chan_listed _))
    · cases ran
      exact before
  | _ =>
    simp only [Proc.stepOp] at ran
    repeat' split at ran
    all_goals cases ran
    all_goals exact before

/-- The record keeps the channels and locks that the discipline keeps. -/
theorem recordWait_eq
    (calls : ∀ p, ghost.waiting p = (waits p).map fun wait => (wait.chan, wait.lk)) (op : Op)
    (p : Slot) : recordWait ghost.waiting op p =
      (recordSleep kernel waits op p).map fun wait => (wait.chan, wait.lk) := by
  cases op with
  | sleepRelease q chan lk | sleepReturn q | wake chan q | killVisit pid q =>
    obtain rfl | same := eq_or_ne p q
    · simp [recordWait, recordSleep, calls, Function.comp_def]
    · simp [recordWait, recordSleep, calls, same]
  | _ => exact calls p

theorem recordStep_eq
    (calls : ∀ p, ghost.waiting p = (waits p).map fun wait => (wait.chan, wait.lk))
    (label : Label ncpu) (p : Slot) : recordStep kernel ghost.waiting label p =
      (recordLabel kernel waits label p).map fun wait => (wait.chan, wait.lk) := by
  cases label with
  | step c =>
    simp only [recordStep, recordLabel]
    cases (kernel.cpu c).ops with
    | nil => exact calls p
    | cons op rest => exact recordWait_eq calls op p
  | _ => exact calls p

/-- Every step keeps the states of the processes and the record in agreement. -/
theorem Agrees.step (agrees : Agrees kernel ghost waits) (sound : Sound True kernel ghost)
    (ran : Proc.step kernel label = some next) (keeps : KeepsTokens kernel label) :
    ∃ after : Ghost ncpu, Sound True next after ∧
      Agrees next after (recordLabel kernel waits label) := by
  obtain ⟨after, preserved, records⟩ := sound.step ran keeps.1 fun _ => keeps.2
  refine ⟨after, preserved, ?_, fun p => by rw [records, recordStep_eq agrees.calls]⟩
  cases label with
  | step c =>
    simp only [Proc.step] at ran
    split at ran
    · rename_i op rest ops
      simp only [recordLabel, ops]
      exact agrees.stepOp sound ops ran
        ⟨fun fails i bound same => keeps.1 c fails i rest bound rfl (by rw [ops, same]),
          fun _ p ctick same => keeps.2 c p ctick rest rfl (by rw [ops, same])⟩
    · cases ran
  | client c choice | syscall c call | fault c | timer c | device c k a =>
    exact agrees_of_same agrees.processes (proc_of_trap ran (by simp))

end Xv6.Proc
