import Xv6.Proc.Invariant

/-!
# Soundness along runs

The invariant for whole runs: the booted machine is sound, and so is every state
it reaches by admitted steps.
-/

namespace Xv6.Proc

open Xv6.Semantics

variable {ncpu : Nat} {strict : Prop} {kernel next : Kernel ncpu} {ghost : Ghost ncpu}
  {c : Fin ncpu} {rest : List Op}

section

variable (sound : Sound strict kernel ghost)
include sound

theorem Sound.stepOp
    (ops : (kernel.cpu c).ops = op :: rest) (ran : Proc.stepOp kernel c rest op = some next)
    (admitted : Admitted strict kernel op) : Preserves strict ghost op next := by
  cases op with
  | acquire lk => exact ⟨ghost, sound.acquires ops ran, rfl⟩
  | spin lk =>
    have free : kernel.owner lk = none := by
      by_contra owned
      simp [Proc.stepOp, owned] at ran
    exact ⟨_, sound.takes ops free ran, rfl⟩
  | release lk => exact ⟨_, sound.releases ops ran, rfl⟩
  | panic message => cases ran
  | enterLoop t =>
    obtain ⟨idle, _⟩ := (sound.head ops (.of rfl)).1
    cases ran
    exact ⟨ghost, sound.setsCpu ops (.of rfl) idle.symm rfl rfl (sound.interrupts c)
      fun ruled => ruled, rfl⟩
  | loop t =>
    obtain ⟨_, mode⟩ := (sound.head ops (.of rfl)).1
    cases ran
    exact ⟨ghost, sound.enables ops (.of rfl) (by rw [mode]; rfl) fun ruled => ruled,
      rfl⟩
  | scan t i => exact sound.steps_scan ops ran
  | pick t p => exact sound.steps_pick ops ran
  | back t p =>
    cases ran
    exact ⟨ghost, sound.switchedBack ops rfl rfl (field_update Process.state rfl)
      (field_update Process.context rfl), rfl⟩
  | sched => exact sound.steps_sched ops ran
  | charge p t =>
    exact sound.steps_charge ops ran fun isStrict => admitted.drained isStrict p t rfl
  | tail p t => exact sound.steps_tail ops ran
  | restore intena =>
    cases ran
    exact ⟨ghost, sound.setsCpu ops (.of rfl) rfl rfl rfl (sound.interrupts c)
      fun ruled => ruled, rfl⟩
  | yield => exact sound.steps_call ops ran (by simp)
  | setRunnable p =>
    obtain ⟨mine, calls, obeys⟩ := (sound.head ops (.of rfl)).1
    cases ran
    refine ⟨_, sound.givesUp ops (.of rfl) mine (by simp [calls.held])
      ⟨rfl, calls.staying, calls.found⟩ (by simp) (by simp [ProcState.Inert]) ?_, rfl⟩
    rwa [mine] at obeys
  | forkret => exact sound.steps_call ops ran (by simp)
  | sleep chan lk => exact sound.steps_call ops ran (by simp)
  | sleepRelease p chan lk => exact ⟨_, sound.fallsAsleep ops ran, rfl⟩
  | tidyUp p =>
    cases ran
    exact sound.assigns ops (.of rfl) rfl rfl rfl fun ruled => ruled.2.2
  | sleepReturn p =>
    cases ran
    exact ⟨_, sound.wakesUp ops, rfl⟩
  | wakeup chan i => exact sound.steps_wakeup ops ran
  | wake chan p => exact sound.steps_wake ops ran
  | kill pid i => exact sound.steps_kill ops ran
  | killVisit pid p => exact sound.steps_killVisit ops ran
  | setkilled => exact sound.steps_call ops ran (by simp)
  | markKilled p =>
    cases ran
    exact sound.assigns ops (.of rfl) rfl rfl rfl fun ruled => ruled
  | readKilled p caller => exact sound.steps_readKilled ops ran
  | exit status => exact sound.steps_exit ops ran
  | reparent p i => exact sound.steps_reparent ops ran
  | wakeParent p => exact sound.steps_wakeParent ops ran
  | becomeZombie p status => exact sound.steps_becomeZombie ops ran
  | wait fails => exact sound.steps_call ops ran (by simp)
  | waitScan p fails havekids i => exact sound.steps_waitScan ops ran
  | waitChild p fails pp => exact sound.steps_waitChild ops ran
  | fork memory => exact sound.steps_call ops ran (by simp)
  | allocproc p memory i => exact sound.steps_allocproc ops ran
  | allocFound p memory np => exact sound.steps_allocFound ops ran
  | allocpid p memory np => exact sound.steps_allocpid ops ran
  | allocInit p memory np pid => exact sound.steps_allocInit ops ran
  | allocTick p memory np ctime => exact sound.steps_allocTick ops ran
  | forkTick p np ctime => exact sound.steps_forkTick ops ran
  | setParent np p =>
    cases ran
    exact sound.assigns ops (.of rfl) rfl rfl rfl fun ruled => ruled.2
  | publish np => exact sound.steps_publish ops ran
  | pslist fails i =>
    exact sound.steps_pslist ops ran fun bound => admitted.listing fails i bound rfl
  | uptime caller =>
    cases ran
    apply sound.replaces ops (.of rfl) rfl
    rintro ⟨free, ruled⟩
    exact ⟨free, by simp [Lock.isProc], (ghost.mode c).held, rfl, ruled⟩
  | readTicks caller => exact sound.steps_readTicks ops ran
  | sysSleep n =>
    cases ran
    apply sound.replaces ops (.of rfl) rfl
    rintro ⟨mine, calls, obeys⟩
    refine disciplined_acquire calls.toCalls
      ⟨mine, ⟨⟨rfl, calls.staying, calls.found⟩, calls.awake⟩, ?_⟩
    rwa [← calls.held]
  | sleepStart n => exact sound.steps_call ops ran (by simp)
  | sleepLoop p ticks0 n => exact sound.steps_sleepLoop ops ran
  | tick =>
    cases ran
    exact ⟨ghost, sound.goesOn ops (.of rfl) rfl rfl (fun _ => rfl) (fun _ => rfl)
      fun ruled => ruled.2, rfl⟩
  | killedExit => exact sound.steps_call ops ran (by simp)
  | kerneltrapYield => exact sound.steps_kerneltrapYield ops ran
  | intrOn =>
    have unlocked := (sound.head ops (.of rfl)).1.1.held
    cases ran
    exact ⟨ghost, sound.enables ops (.of rfl) unlocked fun ruled => ruled.2, rfl⟩
  | usertrapret =>
    have unlocked := (sound.head ops (.of rfl)).1.1.held
    cases ran
    exact ⟨ghost, sound.enables ops (.of rfl) unlocked fun ruled => ruled.2, rfl⟩
  | iret =>
    have unlocked := (sound.head ops (.of rfl)).1.1.held
    cases ran
    exact ⟨ghost, sound.enables ops (.of rfl) unlocked fun ruled => ruled.2, rfl⟩
  | clients => cases ran
  | client k => cases ran

/-- A CPU that can be interrupted holds no lock and executes ordinary code. -/
theorem Sound.interruptible (unlocked : (kernel.cpu c).noff = 0) :
    Disciplined strict (kernel.cpu c).proc (kernel.cpu c).ops (ghost.mode c) ∧
      Calls [] (ghost.mode c) ∧
      ((kernel.cpu c).proc = none → ghost.mode c = .holding (ghost.mode c).held) ∧
      ∀ p, (kernel.cpu c).proc = some p → ProcessSound strict kernel ghost c p := by
  cases sound.cpus c with
  | running executes idle process =>
    cases executes with
    | next obeys noff =>
      have held : (ghost.mode c).held = [] := List.length_eq_zero_iff.mp (noff.symm.trans unlocked)
      refine ⟨obeys, ?_, idle, process⟩
      cases current : (kernel.cpu c).proc with
      | none =>
        rw [idle current, held]
        exact ⟨rfl, rfl, rfl⟩
      | some p =>
        have processSound := process p current
        refine ⟨held, ?_, ?_⟩
        · cases leaving : (ghost.mode c).leaving with
          | false => rfl
          | true =>
            have locked := (processSound.leaving leaving).1
            simp [held] at locked
        cases found : (ghost.mode c).found with
        | none => rfl
        | some np =>
          have locked := (processSound.found np found).2
          simp [held] at locked
    | spins _ _ noff => omega
  | returning _ _ _ noff _ _ => omega

theorem Sound.trapped (unlocked : (kernel.cpu c).noff = 0)
    (obeys : Disciplined strict (kernel.cpu c).proc push (ghost.mode c)) :
    Sound strict (kernel.setCpu c { kernel.cpu c with intr := false, ops := push }) ghost := by
  obtain ⟨_, calls, idle, process⟩ := sound.interruptible unlocked
  refine sound.replacesCpu process idle rfl rfl (fun _ => rfl) (fun _ => rfl) rfl rfl
    (fun enabled => nomatch enabled) (.next obeys ?_)
  simp [unlocked, calls.held]

theorem Sound.inUserMode (ops : (kernel.cpu c).ops = []) :
    (kernel.cpu c).noff = 0 ∧ (∃ p, (kernel.cpu c).proc = some p) ∧ ghost.mode c = .holding [] := by
  cases sound.cpus c with
  | running executes _ _ =>
    cases executes with
    | next obeys noff =>
      rw [ops] at obeys
      obtain ⟨mine, mode⟩ := obeys
      rw [mode] at noff
      exact ⟨noff, mine, mode⟩
    | spins spinning _ _ =>
      rw [ops] at spinning
      cases spinning
  | returning _ atBack _ _ _ _ =>
    rw [ops] at atBack
    cases atBack

theorem Sound.usertrap
    (ran : Proc.usertrap kernel c push = some next)
    (obeys : ∀ p, Disciplined strict (some p) push (.holding [])) :
    Sound strict next ghost := by
  unfold Proc.usertrap at ran
  split at ran
  · rename_i user
    obtain ⟨unlocked, ⟨p, mine⟩, mode⟩ := sound.inUserMode user
    cases ran
    apply sound.trapped unlocked
    rw [mine, mode]
    exact obeys p
  · cases ran

theorem Sound.interrupt
    (ran : Proc.interrupt kernel c user inKernel = some next)
    (fromUser : ∀ p, Disciplined strict (some p) user (.holding []))
    (fromKernel : ∀ me mode ops, Calls [] mode → Disciplined strict me ops mode →
      Disciplined strict me (inKernel ++ ops) mode) :
    Sound strict next ghost := by
  unfold Proc.interrupt at ran
  split at ran
  · rename_i enabled
    split at ran
    · exact sound.usertrap ran fromUser
    rename_i op rest ops
    have unlocked := sound.interrupts c enabled
    obtain ⟨obeys, calls, _, _⟩ := sound.interruptible unlocked
    cases ran
    apply sound.trapped unlocked
    rw [← ops]
    exact fromKernel _ _ _ calls obeys
  · cases ran

end

section Handlers

variable {me : Option Slot} {mode : Mode} {ops : List Op}

/-- A handler takes a lock, wakes up the sleepers on a channel and gives the lock back. -/
theorem disciplined_wakeup (client : lk.isProc = false)
    (calls : Calls [] mode) (obeys : Disciplined strict me ops mode) :
    Disciplined strict me (.acquire lk :: .wakeup chan 0 :: .release lk :: ops) mode := by
  refine disciplined_acquire calls ⟨⟨rfl, calls.staying, calls.found⟩, guarded_singleton client, ?_⟩
  refine disciplined_release ⟨rfl, calls.staying, calls.found⟩ ?_
  rwa [← calls.held]

theorem disciplined_clockintr (calls : Calls [] mode) (obeys : Disciplined strict me ops mode) :
    Disciplined strict me (clockintr c ++ ops) mode := by
  unfold clockintr
  split
  · refine disciplined_acquire calls ⟨⟨rfl, calls.staying, calls.found⟩,
      ⟨rfl, calls.staying, calls.found⟩, guarded_singleton rfl, ?_⟩
    refine disciplined_release ⟨rfl, calls.staying, calls.found⟩ ?_
    rwa [← calls.held]
  · exact obeys

theorem disciplined_usertrapret (p : Slot) :
    Disciplined strict (some p) [.killedExit, .usertrapret] (.holding []) :=
  ⟨⟨p, rfl⟩, rfl, ⟨rfl, rfl, rfl⟩, ⟨p, rfl⟩, rfl⟩

theorem disciplined_syscall (call : Syscall) (p : Slot) : Disciplined strict (some p)
    ([.killedExit, .intrOn] ++ call.ops ++ [.killedExit, .usertrapret]) (.holding []) := by
  have ends : Disciplined strict (some p) [.killedExit, .usertrapret] (.holding []) :=
    disciplined_usertrapret p
  have rests : Calls [] (.holding []) := ⟨rfl, rfl, rfl⟩
  refine ⟨⟨p, rfl⟩, rfl, rests, ?_⟩
  cases call with
  | kill pid => exact ⟨rests, ends⟩
  | exit status => exact ⟨⟨p, rfl⟩, rfl⟩
  | wait fails => exact ⟨⟨p, rfl⟩, ⟨rests, rfl⟩, ends⟩
  | fork memory => exact ⟨⟨p, rfl⟩, rests, rfl, ends⟩
  | sleep n => exact ⟨⟨p, rfl⟩, ⟨rests, rfl⟩, ends⟩
  | uptime => exact ⟨by simp [Mode.holding], ends⟩
  | pslist fails => exact ⟨rests, ends⟩
  | other => exact ⟨⟨p, rfl⟩, ⟨rests, rfl⟩, ends⟩

end Handlers

theorem Sound.stepClient (sound : Sound strict kernel ghost)
    (ops : (kernel.cpu c).ops = op :: rest)
    (ran : Proc.stepClient kernel c rest op choice = some next) : Sound strict next ghost := by
  unfold Proc.stepClient at ran
  split at ran
  · cases ran
    refine sound.goesOn ops (.of rfl) rfl rfl (fun _ => rfl) (fun _ => rfl) ?_
    rintro ⟨mine, calls, obeys⟩
    have same : { ghost.mode c with held := [] } = ghost.mode c := by rw [← calls.held]
    refine disciplined_acquire calls.toCalls
      ⟨mine, ⟨⟨rfl, calls.staying, calls.found⟩, calls.awake⟩, mine, ?_⟩
    rw [show ({ ghost.mode c with held := [] } : Mode) = ghost.mode c from same]
    exact ⟨calls, obeys⟩
  · cases ran
    exact sound.goesOn ops (.of rfl) rfl rfl (fun _ => rfl) (fun _ => rfl)
      fun ruled => ruled.2.2
  · cases ran
    refine sound.goesOn ops (.of rfl) rfl rfl (fun _ => rfl) (fun _ => rfl) ?_
    rintro ⟨mine, calls, obeys⟩
    exact ⟨mine, calls, rfl, mine, calls, obeys⟩
  · cases ran
    refine sound.goesOn ops (.of rfl) rfl rfl (fun _ => rfl) (fun _ => rfl) ?_
    rintro ⟨mine, calls, obeys⟩
    refine ⟨⟨rfl, calls.staying, calls.found⟩, ?_, mine, calls, obeys⟩
    rw [calls.held]
    exact guarded_singleton rfl
  · cases ran
    obtain ⟨⟨p, mine⟩, calls, obeys⟩ := (sound.head ops (.of rfl)).1
    rw [kernel.withProc_eq mine]
    refine sound.goesOn ops (.of rfl) rfl rfl (fun _ => rfl) (fun _ => rfl) fun _ => ?_
    refine disciplined_acquire_proc rfl calls.toCalls
      ⟨mine, _, ⟨rfl, calls.staying, calls.found⟩, noProc_singleton rfl, ⟨p, mine⟩, ?_⟩
    exact ⟨⟨⟨rfl, calls.staying, calls.found⟩, calls.awake⟩, obeys⟩
  · cases ran
    refine sound.goesOn ops (.of rfl) rfl rfl (fun _ => rfl) (fun _ => rfl) ?_
    rintro ⟨_, calls, obeys⟩
    exact disciplined_release calls.toCalls obeys
  · cases ran

/-- The effect of a step on the `sleep` calls in progress. -/
def recordStep (kernel : Kernel ncpu) (waiting : Slot → Option (Option Chan × Lock)) :
    Label ncpu → Slot → Option (Option Chan × Lock)
  | .step c =>
    match (kernel.cpu c).ops with
    | op :: _ => recordWait waiting op
    | [] => waiting
  | _ => waiting

/-- The step is none that puts a process to sleep from `pslist`. -/
def ListsOnly (kernel : Kernel ncpu) (label : Label ncpu) : Prop :=
  ∀ c copyoutFails i rest (bound : i < nproc), label = .step c →
    (kernel.cpu c).ops = .pslist copyoutFails i :: rest → ¬ (kernel.proc ⟨i, bound⟩).ListingSleeps

theorem listsOnly_boot : ListsOnly (boot 2) (.step 0) := by
  rintro c fails i rest _ _ ops
  cases ops

/-- The step is none in which `sched` finds its process asleep and without tokens. -/
def SleepsWithTokens (kernel : Kernel ncpu) (label : Label ncpu) : Prop :=
  ∀ c p ctick rest, label = .step c →
    (kernel.cpu c).ops = .charge p ctick :: rest → ¬ (kernel.proc p).Drained

theorem Sound.step (sound : Sound strict kernel ghost)
    (ran : Proc.step kernel label = some next) (lists : ListsOnly kernel label)
    (sleeps : strict → SleepsWithTokens kernel label) :
    ∃ after : Ghost ncpu, Sound strict next after ∧
      after.waiting = recordStep kernel ghost.waiting label := by
  cases label with
  | step c =>
    simp only [Proc.step] at ran
    split at ran
    · rename_i op rest ops
      obtain ⟨after, preserved, records⟩ := sound.stepOp ops ran
        ⟨fun fails i bound same => lists c fails i rest bound rfl (by rw [ops, same]),
          fun isStrict p ctick same => sleeps isStrict c p ctick rest rfl (by rw [ops, same])⟩
      refine ⟨after, preserved, ?_⟩
      simp only [records, recordStep, ops]
    · cases ran
  | client c choice =>
    simp only [Proc.step] at ran
    split at ran
    · rename_i op rest ops
      exact ⟨ghost, sound.stepClient ops ran, rfl⟩
    · cases ran
  | syscall c call => exact ⟨ghost, sound.usertrap ran (disciplined_syscall call), rfl⟩
  | fault c =>
    refine ⟨ghost, sound.usertrap ran fun p => ?_, rfl⟩
    exact ⟨⟨p, rfl⟩, ⟨rfl, rfl, rfl⟩, disciplined_usertrapret p⟩
  | timer c =>
    refine ⟨ghost, sound.interrupt ran (fun p => ?_) ?_, rfl⟩
    · exact disciplined_clockintr ⟨rfl, rfl, rfl⟩
        ⟨⟨p, rfl⟩, rfl, ⟨p, rfl⟩, ⟨rfl, rfl, rfl⟩, ⟨rfl, rfl, rfl⟩, ⟨p, rfl⟩, rfl⟩
    · intro me mode ops calls obeys
      rw [List.append_assoc]
      exact disciplined_clockintr calls ⟨calls, calls, obeys⟩
  | device c k a =>
    refine ⟨ghost, sound.interrupt ran (fun p => ?_) ?_, rfl⟩
    · exact disciplined_wakeup rfl ⟨rfl, rfl, rfl⟩ (disciplined_usertrapret p)
    · intro me mode ops calls obeys
      exact disciplined_wakeup rfl calls ⟨calls, obeys⟩

/-- The ghost state at boot: nothing is in progress. -/
def Ghost.start (ncpu : Nat) : Ghost ncpu where
  mode := fun _ => .holding []
  child := fun _ => none
  waiting := fun _ => none

theorem Sound.boot (strict : Prop) (ncpu : Nat) : Sound strict (boot ncpu) (.start ncpu) where
  owner := by
    intro lk c
    constructor
    · intro owned
      cases owned
    · intro held
      cases held
  nodup := fun _ => List.nodup_nil
  interrupts := by
    intro c enabled
    cases enabled
  cpus := by
    intro c
    refine .running (.next ?_ rfl) (fun _ => rfl) fun p current => ?_
    · exact ⟨by simp [Ghost.start, Mode.holding], rfl, rfl⟩
    · cases current
  unique := by
    intro c d p current
    cases current
  running := by
    intro _ p isRunning
    by_cases first : p = initproc
    · simp [Proc.boot, first, firstProcess] at isRunning
    · simp [Proc.boot, first, Process.blank] at isRunning
  parked := by
    intro p live _
    obtain rfl | first := eq_or_ne p initproc
    · exact ⟨initproc, rfl, rfl, ⟨initproc, rfl⟩, rfl⟩
    · simp [Proc.boot, first, Process.blank, ProcState.Live] at live
  children := by
    intro p np isChild
    cases isChild
  distinct := by
    intro p q np isChild
    cases isChild
  fresh := fun _ _ => ⟨rfl, rfl⟩

theorem sound_of_runs {guard : Kernel ncpu → Label ncpu → Prop}
    (lists : ∀ kernel label, guard kernel label → ListsOnly kernel label)
    (sleeps : strict → ∀ kernel label, guard kernel label → SleepsWithTokens kernel label)
    (run : ((machine ncpu).restrict guard).Runs start labels kernel) :
    ∃ ghost, Sound strict kernel ghost := by
  have initial : ∀ kernel, ((machine ncpu).restrict guard).Initial kernel →
      ∃ ghost, Sound strict kernel ghost := by
    rintro _ rfl
    exact ⟨.start ncpu, .boot strict ncpu⟩
  apply run.invariant initial
  rintro kernel label next ⟨ghost, sound⟩ ⟨ran, allowed⟩
  obtain ⟨after, preserved, _⟩ := sound.step ran (lists _ _ allowed)
    fun isStrict => sleeps isStrict _ _ allowed
  exact ⟨after, preserved⟩

end Xv6.Proc
