import Xv6.Proc.ExitWait

/-!
# Exit and wait along runs

In every run in which `pslist` puts no process to sleep, each call of `exit` is
answered at most once, by the parent or by `init`, with the pid and status of the
process that made it, and a `ZOMBIE` stays until then. A `pslist` that runs out of
the tokens of a `ZOMBIE` puts it to sleep.
-/

namespace Xv6.Proc

open Function Xv6.Semantics

variable {ncpu : Nat} {kernel next : Kernel ncpu} {ghost : Ghost ncpu} {c : Fin ncpu}
  {history : List Event} {infant : Infants} {stage : Fin ncpu → Stage} {op : Op} {rest : List Op}

section Traps

variable (known : Kinship kernel history infant stage) (sound : Sound False kernel ghost)
include known sound

theorem Kinship.stepClient (ops : (kernel.cpu c).ops = op :: rest)
    (ran : Proc.stepClient kernel c rest op choice = some next) :
    Kinship next history infant stage := by
  unfold Proc.stepClient at ran
  split at ran <;> cases ran
  case h_5 =>
      exact known.calls sound ops (.of rfl) fun p ruled => by
        simpa [kin, Place.acquire, KilledCaller.kin] using ruled
  case h_4 =>
      have calls := (sound.head ops (.of rfl)).1.2.1
      have outside := known.outside sound (c := c) (by simp [calls.held])
      refine known.proceeds sound ops (.of rfl) (.goto rfl _) rfl rfl fun ruled => ?_
      simpa [kin, Stage.wakeup, outside] using ruled
  all_goals
    refine known.proceeds sound ops (.of rfl) (.goto rfl _) rfl rfl fun ruled => ?_
    simpa [kin, Place.acquire] using ruled

theorem Kinship.redirected
    (forward : ∀ currentTick p rest, (kernel.cpu c).ops ≠ .back currentTick p :: rest)
    (proc : cpu.proc = (kernel.cpu c).proc) (context : cpu.context = (kernel.cpu c).context)
    (ops : cpu.ops = push)
    (relates : Relates (kernel.cpu c).proc (kernel.cpu c).ops
        (placeOf history infant (stage c) (kernel.cpu c).proc) →
      Relates (kernel.cpu c).proc push (placeOf history infant (stage c) (kernel.cpu c).proc)) :
    Kinship (kernel.setCpu c cpu) history infant stage := by
  cases known.cpus c with
  | running before scheduler =>
    refine known.acts sound scheduler ⟨fun d other => ?_, ?_, ?_, ?_⟩ (.same rfl) known.family
      known.lock known.knows known.free (fun _ _ => rfl) (fun _ _ _ => ⟨rfl, rfl⟩) (relates before)
    · simp [other]
    · simpa using proc
    · simpa using context
    · simpa using ops
  | returning _ atBack _ _ => exact absurd atBack (forward _ _ _)

theorem Kinship.usertrap (ran : Proc.usertrap kernel c push = some next)
    (relates : ∀ p, Relates (some p) push (.elsewhere .outside)) :
    Kinship next history infant stage := by
  unfold Proc.usertrap at ran
  split at ran <;> cases ran
  rename_i user
  obtain ⟨_, ⟨p, mine⟩, _⟩ := sound.inUserMode user
  refine known.redirected sound (by simp [user]) rfl rfl rfl ?_
  rw [mine, user]
  intro ends
  rw [ends ⟨p, rfl⟩]
  exact relates p

theorem Kinship.interrupt (ran : Proc.interrupt kernel c user inKernel = some next)
    (fromUser : ∀ p, Relates (some p) user (.elsewhere .outside))
    (fromKernel : ∀ me ops place, place.stage = .outside → Relates me ops place →
      Relates me (inKernel ++ ops) place) :
    Kinship next history infant stage := by
  unfold Proc.interrupt at ran
  split at ran
  · rename_i enabled
    split at ran
    · exact known.usertrap sound ran fromUser
    rename_i op rest ops
    obtain ⟨obeys, calls, _⟩ := sound.interruptible (sound.interrupts c enabled)
    have outside := known.outside sound (c := c) (by simp [calls.held])
    cases ran
    refine known.redirected sound ?_ rfl rfl rfl fun relates => ?_
    · intro currentTick p behind atBack
      rw [atBack] at obeys
      exact obeys
    · rw [ops] at relates
      exact fromKernel _ _ _ (by rw [placeOf_stage, outside]) relates
  · cases ran

end Traps

section Handlers

variable {me : Option Slot} {place : Place} {ops : List Op}

theorem relates_clockintr (outside : place.stage = .outside) (relates : Relates me ops place) :
    Relates me (clockintr c ++ ops) place := by
  obtain ⟨exiting, infant, stage⟩ := place
  obtain rfl : stage = .outside := outside
  unfold clockintr
  split
  · simpa [kin, Place.acquire, Stage.wakeup] using relates
  · exact relates

theorem relates_deviceIntr (outside : place.stage = .outside)
    (relates : Relates me ops place) : Relates me (deviceIntr k a ++ ops) place := by
  obtain ⟨exiting, infant, stage⟩ := place
  obtain rfl : stage = .outside := outside
  simpa [deviceIntr, kin, Place.acquire, Stage.wakeup] using relates

theorem relates_syscall (call : Syscall) (p : Slot) : Relates (some p)
    ([.killedExit, .intrOn] ++ call.ops ++ [.killedExit, .usertrapret]) (.elsewhere .outside) := by
  cases call <;>
    simp [Syscall.ops, kin, Place.Free, Place.elsewhere, Ends, UptimeCaller.kin]

end Handlers

theorem Kinship.step (known : Kinship kernel history infant stage)
    (sound : Sound False kernel ghost)
    (ran : Proc.step kernel label = some next) (lists : ListsOnly kernel label) :
    ∃ infant stage, Kinship next (recordCall kernel history label) infant stage := by
  have ends : ∀ p, Relates (some p) [.killedExit, .usertrapret] (.elsewhere .outside) := by
    simp [kin, Place.Free, Place.elsewhere, Ends]
  cases label with
  | step c =>
    simp only [Proc.step] at ran
    split at ran
    · rename_i op rest ops
      simp only [recordCall, ops]
      exact known.stepOp sound ops ran fun fails i bound same =>
        lists c fails i rest bound rfl (by rw [ops, same])
    · cases ran
  | client c choice =>
    simp only [Proc.step] at ran
    split at ran
    · exact ⟨infant, stage, known.stepClient sound ‹_› ran⟩
    · cases ran
  | syscall c call => exact ⟨infant, stage, known.usertrap sound ran (relates_syscall call)⟩
  | fault c =>
    refine ⟨infant, stage, known.usertrap sound ran fun p => ?_⟩
    exact ends p
  | timer c =>
    refine ⟨infant, stage, known.interrupt sound ran (fun p => ?_) ?_⟩
    · exact relates_clockintr rfl (by simpa [kin] using ends p)
    · intro me ops place outside relates
      rw [List.append_assoc]
      exact relates_clockintr outside relates
  | device c k a =>
    refine ⟨infant, stage, known.interrupt sound ran (fun p => ?_) ?_⟩
    · exact relates_deviceIntr rfl (ends p)
    · intro me ops place outside relates
      exact relates_deviceIntr outside relates

theorem kinship_boot (ncpu : Nat) :
    Kinship (boot ncpu) [] (fun _ => none) (fun _ => .outside) where
  family :=
    { parents := by
        intro pp q isParent
        by_cases first : pp = initproc
        · simp [boot, first, firstProcess, Process.blank] at isParent
        · simp [boot, first, Process.blank] at isParent
      orphans := by
        intro pp published notInit
        simp [boot, notInit, Process.blank, ProcState.Alive] at published
      first := by simp [boot, firstProcess, ProcState.Alive]
      exits := by
        intro pp pid status exited
        cases exited
      zombies := by
        intro pp isZombie
        by_cases first : pp = initproc
        · simp [boot, first, firstProcess] at isZombie
        · simp [boot, first, Process.blank] at isZombie
      guardians := by
        refine ⟨rfl, fun pp q guards => ?_⟩
        cases guards
      answered := trivial
      infants := by
        intro p np named bears
        cases bears
      distinct := by
        intro p q np n m bears
        cases bears }
  lock := by simp [boot]
  knows := fun _ => trivial
  free := by
    intro _ p pp _ isParent
    by_cases first : pp = initproc
    · simp [boot, first, firstProcess, Process.blank] at isParent
    · simp [boot, first, Process.blank] at isParent
  cpus := by
    intro c
    refine .running ?_ ?_
    · simp [boot, bootCpu, kin, UptimeCaller.kin]
    · simp [boot, bootCpu]
  parked := by
    intro p live _
    by_cases first : p = initproc
    · simp [boot, first, firstProcess, kin, Ends, placeOf, exitOf, Place.elsewhere]
    · simp [boot, first, Process.blank, ProcState.Live] at live

section Zombies

variable (known : Kinship kernel history infant stage) (sound : Sound False kernel ghost)
include known sound

theorem Kinship.zombie_stepOp (ops : (kernel.cpu c).ops = op :: rest)
    (ran : Proc.stepOp kernel c rest op = some next)
    (lists : ∀ fails i (bound : i < nproc), op = .pslist fails i →
      ¬ (kernel.proc ⟨i, bound⟩).ListingSleeps) (isZombie : (kernel.proc pp).state = .zombie) :
    (next.proc pp).state = .zombie ∨ ∃ p, eventOf kernel c op =
      some (.reap p pp (kernel.proc pp).pid (kernel.proc pp).xstate) := by
  -- an entry that the step changes is no `ZOMBIE`, or keeps its state
  have update : ∀ {q : Slot} {process : Process}, ((kernel.proc q).state = .zombie →
      process.state = .zombie) → (update kernel.proc q process pp).state = .zombie := by
    intro q process keeps
    obtain rfl | same := eq_or_ne pp q
    · rw [update_self]
      exact keeps isZombie
    · rwa [update_of_ne same]
  have running : ∀ {q : Slot}, op.Plain → (kernel.cpu c).proc = some q →
      (ghost.mode c).leaving = false → (kernel.proc q).state ≠ .zombie := by
    intro q plain mine staying zombie
    rw [sound.running_of_staying ops plain mine staying] at zombie
    cases zombie
  cases op with
  | pick t p =>
    simp only [Proc.stepOp] at ran
    split at ran <;> cases ran
    · rename_i runnable
      exact .inl (update fun zombie => by simp [runnable] at zombie)
    · exact .inl isZombie
  | back t p =>
    cases ran
    exact .inl (update id)
  | charge p t =>
    cases ran
    simp only [Kernel.charge]
    split
    · exact .inl (update id)
    split
    · rename_i drained
      refine .inl ?_
      simp only [Kernel.switchOut, Kernel.goto_proc, Kernel.setProc_proc, update_idem]
      exact update fun zombie => by simp [drained.2] at zombie
    · exact .inl isZombie
  | tail p t =>
    cases ran
    refine .inl ?_
    simp only [Kernel.switchOut, Kernel.goto_proc, Kernel.setProc_proc, update_idem]
    exact update fun zombie => by simpa [settle] using zombie
  | setRunnable p =>
    obtain ⟨mine, calls, _⟩ := (sound.head ops (.of rfl)).1
    cases ran
    exact .inl (update fun zombie => absurd zombie (running (.of rfl) mine calls.staying))
  | sleepRelease p chan lk =>
    obtain ⟨mine, calls, _⟩ := (sound.head ops (.of rfl)).1
    simp only [Proc.stepOp] at ran
    split at ran <;> cases ran
    · rename_i released done
      obtain ⟨_, procs, _⟩ := Moves.releaseLock done rest
      rw [Kernel.goto_proc, Kernel.setProc_proc, procs]
      exact .inl (update fun zombie =>
        absurd zombie (running (.of rfl) mine calls.staying))
    · exact .inl isZombie
  | release lk =>
    simp only [Proc.stepOp] at ran
    split at ran <;> cases ran
    · rename_i released done
      obtain ⟨_, procs, _⟩ := Moves.releaseLock done rest
      rw [Kernel.goto_proc, procs]
      exact .inl isZombie
    · exact .inl isZombie
  | tidyUp p | markKilled p | forkTick p np ctime | setParent np p =>
    cases ran
    exact .inl (update id)
  | wake chan p =>
    simp only [Proc.stepOp] at ran
    split at ran <;> cases ran
    · rename_i hit
      exact .inl (update fun zombie => by simp [hit.1] at zombie)
    · exact .inl isZombie
  | killVisit pid p =>
    simp only [Proc.stepOp] at ran
    split at ran <;> cases ran
    · exact .inl (update fun zombie => by simp [zombie])
    · exact .inl isZombie
  | reparent p i =>
    simp only [Proc.stepOp] at ran
    repeat' split at ran
    all_goals cases ran
    · exact .inl (update id)
    all_goals exact .inl isZombie
  | becomeZombie p status =>
    cases ran
    exact .inl (update fun _ => rfl)
  | waitChild p fails q =>
    simp only [Proc.stepOp] at ran
    split at ran
    · rename_i zombie
      cases ran
      cases fails with
      | true => exact .inl isZombie
      | false =>
        obtain rfl | same := eq_or_ne pp q
        · exact .inr ⟨p, by simp [eventOf, zombie]⟩
        · refine .inl ?_
          simpa [same] using isZombie
    · cases ran
      exact .inl isZombie
  | allocInit p memory np pid =>
    obtain ⟨mine, _, _, found, _⟩ := (sound.head ops (.of rfl)).1
    have isUnused := (((sound.head ops (.of rfl)).2.2.2 p mine).found np found).1
    simp only [Proc.stepOp] at ran
    split at ran <;> cases ran <;>
      exact .inl (update fun zombie => by simp [isUnused] at zombie)
  | allocTick p memory np ctime =>
    have mine := (sound.head ops (.of rfl)).1.1
    have bears := ((known.head ops (.of rfl)).1).1.2.1
    rw [mine] at bears
    have isUsed := (known.family.infants p np false bears).2.1
    simp only [Proc.stepOp] at ran
    split at ran <;> cases ran <;>
      exact .inl (update fun zombie => by simp [isUsed] at zombie)
  | publish np =>
    have bears := (known.head ops (.of rfl)).1.1
    cases ran
    cases mine : (kernel.cpu c).proc with
    | none =>
      rw [mine] at bears
      cases bears
    | some p =>
      rw [mine] at bears
      have isUsed := (known.family.infants p np true bears).2.1
      exact .inl (update fun zombie => by simp [isUsed] at zombie)
  | pslist fails i =>
    simp only [Proc.stepOp] at ran
    split at ran
    · rename_i bound
      split at ran <;> cases ran
      · exact .inl isZombie
      · rename_i active
        refine .inl (update fun zombie => ?_)
        rw [state_listed _ active (lists fails i bound rfl), zombie]
    · cases ran
      exact .inl isZombie
  | _ =>
    simp only [Proc.stepOp] at ran
    repeat' split at ran
    all_goals cases ran
    all_goals
      first
      | exact .inl isZombie
      | exact .inl (by rwa [Kernel.withProc_proc])

theorem Kinship.keepsZombies
    (ran : recordedStep (kernel, history) label = some after) (lists : ListsOnly kernel label) :
    KeepsZombies (kernel, history) label after := by
  obtain ⟨next, steppedKernel, rfl⟩ := Option.map_eq_some_iff.mp ran
  refine ⟨fun pp isZombie => ?_, ?_⟩
  · cases label with
    | step c =>
      simp only [Proc.step] at steppedKernel
      split at steppedKernel
      · rename_i op rest ops
        rcases known.zombie_stepOp sound ops steppedKernel (fun fails i bound same =>
          lists c fails i rest bound rfl (by rw [ops, same])) isZombie with stays | ⟨p, reaps⟩
        · exact .inl stays
        · refine .inr ⟨p, ?_⟩
          simp only [recordCall, ops, reaps]
          rfl
      · cases steppedKernel
    | _ =>
      refine .inl ?_
      rw [proc_of_trap steppedKernel (by simp)]
      exact isZombie
  rintro c p pp rest rfl ops
  simp only [Proc.step] at steppedKernel
  rw [ops] at steppedKernel
  simp only [Proc.stepOp] at steppedKernel
  split at steppedKernel <;> cases steppedKernel <;> rfl

end Zombies

theorem Kinship.reaped (known : Kinship kernel history infant stage) :
    Reaped (kernel, history) where
  answered := known.family.answered
  stays := known.family.exits
  reapable := by
    intro pp isZombie
    refine ⟨known.family.zombies pp isZombie, ?_⟩
    have notInit : pp ≠ initproc := by
      rintro rfl
      exact known.family.first.ne_zombie isZombie
    obtain ⟨p, isParent⟩ :=
      Option.ne_none_iff_exists'.mp (known.family.orphans pp (.inr isZombie) notInit)
    exact ⟨p, isParent, (known.family.parents pp p isParent).1⟩
  awake := by
    intro unowned p pp isParent isZombie
    exact known.free unowned p pp id isParent isZombie

/-- The second entry of the process table, which the first `fork` takes. -/
def firstChild : Slot := ⟨1, one_lt_nproc⟩

/-- The CPU of a machine that has one. -/
def sole : Fin 1 := Fin.last 0

/-- The first process forks, its child exits after one tick of the clock, and the
first process calls `pslist`, which has listed the first entry. -/
def listsZombie : List (Label 1) :=
  [bootLabels, .syscall sole (.fork ⟨true, true, true⟩) :: steps sole 48,
    .timer sole :: steps sole 346, .client sole .finish :: steps sole 1,
    .syscall sole (.exit 7) :: steps sole 7,
    .client sole .finish :: steps sole 718, .syscall sole (.pslist none) :: steps sole 7].flatten

/-- What `pslist` does to the child. -/
def statesAround (state : Recorded 1) : Option (ProcState × ProcState × Bool) :=
  (recordedStep state (.step sole)).map fun next => ((state.1.proc firstChild).state,
    (next.1.proc firstChild).state, decide (next.2.length = state.2.length))

end Xv6.Proc
