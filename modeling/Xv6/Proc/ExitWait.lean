import Xv6.Proc.Sleep
import Xv6.Proc.Zombies

/-!
# The other operations and the families

The remaining operations keep the invariant of the families: the locks, the
context switches, and everything that does not concern relatives.
-/

namespace Xv6.Proc

open Function Xv6.Semantics

variable {ncpu : Nat} {kernel next : Kernel ncpu} {ghost : Ghost ncpu} {c : Fin ncpu}
  {history : List Event} {infant : Infants} {stage : Fin ncpu → Stage} {op : Op} {rest : List Op}

theorem Moves.releaseLock (done : kernel.releaseLock c lk = .ok released) (push : List Op) :
    Moves c push kernel (released.goto c push) ∧ released.proc = kernel.proc ∧
      released.owner = update kernel.owner lk none := by
  obtain ⟨cpu, same, rfl⟩ := Kernel.eq_of_releaseLock done
  refine ⟨⟨fun d other => ?_, ?_, ?_, ?_⟩, rfl, rfl⟩
  · simp [other]
  · simp [same]
  · simp [same]
  · simp

section Locks

variable (known : Kinship kernel history infant stage) (sound : Sound False kernel ghost)
include known sound

theorem Kinship.outside (free : .waitLock ∉ (ghost.mode c).held) : stage c = .outside := by
  by_contra inside
  exact free ((sound.owner _ c).mp ((known.lock c).mp inside))

theorem Kinship.steps_acquire : StaysKin kernel history (.acquire lk) := by
  intro c rest next ops ran
  have moves : ∀ push, Moves c push kernel
      ((kernel.setCpu c (kernel.cpu c).pushOff).goto c push) := fun push =>
    { cpus := fun d other => by simp [other]
      proc := by simp [Cpu.pushOff]
      context := by simp [Cpu.pushOff]
      ops := by simp }
  simp only [stepOp] at ran
  split at ran <;> cases ran
  · exact ⟨infant, stage, known.proceeds sound ops (.of rfl) (moves _) rfl rfl fun _ => trivial⟩
  · exact ⟨infant, stage, known.proceeds sound ops (.of rfl) (moves _) rfl rfl fun ruled => ruled⟩

theorem Kinship.steps_spin : StaysKin kernel history (.spin lk) := by
  intro c rest next ops ran
  have ruled := (known.head ops (.of rfl)).1
  simp only [stepOp] at ran
  split at ran <;> cases ran
  rename_i unowned
  have moves : Moves c rest kernel ((kernel.setOwner lk (some c)).goto c rest) :=
    .goto (kernel.setOwner_cpu lk (some c)) rest
  by_cases isWaitLock : lk = .waitLock
  · subst isWaitLock
    refine ⟨infant, _, known.takes sound ops (.of rfl) moves rfl unowned (by simp) ?_⟩
    simpa only [placeOf_enter] using ruled.2.2
  · refine ⟨infant, stage, known.proceeds sound ops (.of rfl) moves
      (by simp [Ne.symm isWaitLock]) rfl fun _ => ?_⟩
    simpa only [kin, Place.acquire, if_neg isWaitLock] using ruled

theorem Kinship.steps_release : StaysKin kernel history (.release lk) := by
  intro c rest next ops ran
  have ruled := (known.head ops (.of rfl)).1
  simp only [stepOp] at ran
  split at ran <;> cases ran
  · rename_i released done
    obtain ⟨moves, procs, owner⟩ := Moves.releaseLock done rest
    by_cases isWaitLock : lk = .waitLock
    · subst isWaitLock
      simp only [kin, if_true, placeOf_stage, placeOf_enter] at ruled
      obtain ⟨settled, relates⟩ := ruled
      have awake := (known.knows c).settled settled
      have inside : stage c ≠ .outside := by
        intro outside
        rw [outside] at settled
        exact settled
      refine ⟨infant, _, known.leaves sound ops (.of rfl) moves (.same procs) ?_ inside ?_ ?_ relates⟩
      · rw [Kernel.goto_proc, procs]
        exact known.family
      · rw [Kernel.goto_owner, owner, update_self]
      · rwa [Kernel.goto_proc, procs]
    · refine ⟨infant, stage, known.proceeds sound ops (.of rfl) moves ?_ procs fun _ => ?_⟩
      · rw [Kernel.goto_owner, owner, update_of_ne (Ne.symm isWaitLock)]
      · simpa only [kin, if_neg isWaitLock] using ruled
  · exact ⟨infant, stage, known.proceeds sound ops (.of rfl) (.goto rfl _) rfl rfl fun _ => trivial⟩

theorem Kinship.fallsAsleep
    (ops : (kernel.cpu c).ops = .sleepRelease p chan lk :: rest) (moves : Moves c rest kernel next)
    (owner : next.owner = update kernel.owner lk none)
    (table : next.proc = update kernel.proc p process)
    (pid : process.pid = (kernel.proc p).pid) (xstate : process.xstate = (kernel.proc p).xstate)
    (parent : process.parent = (kernel.proc p).parent) (state : process.state = .sleeping)
    (onChan : process.chan = chan) : ∃ infant stage, Kinship next history infant stage := by
  have ruled := (known.head ops (.of rfl)).1
  obtain ⟨mine, calls, _⟩ := (sound.head ops (.of rfl)).1
  have isRunning := sound.running_of_staying ops (.of rfl) mine calls.staying
  have remains : (kernel.proc p).Remains process :=
    .of_state pid xstate parent (.inr ⟨.inr (.inr isRunning), .inl state⟩)
  have others : ∀ q, q ≠ p → next.proc q = kernel.proc q := by
    intro q ne
    rw [table, update_of_ne ne]
  have parks : Parks c kernel next history infant := .update table fun notMine => absurd mine notMine
  have used : ∀ q, (kernel.proc q).state = .used → (next.proc q).state = .used ∧
      (next.proc q).parent = (kernel.proc q).parent := by
    intro q isUsed
    have ne : q ≠ p := by
      rintro rfl
      rw [isRunning] at isUsed
      cases isUsed
    rw [others q ne]
    exact ⟨isUsed, rfl⟩
  by_cases isWaitLock : lk = .waitLock
  · subst isWaitLock
    simp only [kin, if_true, placeOf_stage, placeOf_enter] at ruled
    obtain ⟨rfl, atStage, relates⟩ := ruled
    obtain ⟨awake, scanned⟩ : (Stage.scans p nproc).Knows kernel.proc := by
      have knows := known.knows c
      rwa [atStage] at knows
    refine ⟨infant, _, known.leaves sound ops (.of rfl) moves parks ?_ (by simp [atStage])
      (by rw [owner, update_self]) ?_ relates⟩
    · refine known.family.frame_used (fun q => ?_) used
      obtain rfl | same := eq_or_ne q p
      · rwa [table, update_self]
      · rw [others q same]
        exact (Process.Steady.refl _ q).toRemains
    -- every child of the sleeper has been looked at
    intro q pp notOwed childOf isZombie isAsleep
    rw [table, field_update Process.parent parent] at childOf
    have notMe : pp ≠ p := by
      rintro rfl
      rw [table, update_self, state] at isZombie
      cases isZombie
    rw [others pp notMe] at isZombie
    obtain rfl | same := eq_or_ne q p
    · exact scanned pp pp.isLt childOf isZombie
    · rw [others q same] at isAsleep
      exact awake q pp notOwed childOf isZombie isAsleep
  simp only [kin, if_neg isWaitLock] at ruled
  have steady : (kernel.proc p).Steady process p := by
    refine ⟨remains, fun isAsleep => ?_⟩
    exact absurd (onChan.symm.trans isAsleep.2) (ruled.1 p)
  refine ⟨infant, stage, known.goesOn sound ops (.of rfl) moves ?_ ⟨?_, used⟩ parks fun _ => ruled.2⟩
  · rw [owner, update_of_ne (Ne.symm isWaitLock)]
  · rw [table]
    exact .update steady

theorem Kinship.steps_sleepRelease : StaysKin kernel history (.sleepRelease p chan lk) := by
  intro c rest next ops ran
  simp only [stepOp] at ran
  split at ran <;> cases ran
  · rename_i released done
    obtain ⟨moves, procs, owner⟩ := Moves.releaseLock done rest
    have table : ((released.setProc p
        { released.proc p with chan := chan, state := .sleeping }).goto c rest).proc =
          update kernel.proc p { kernel.proc p with chan := chan, state := .sleeping } := by
      rw [Kernel.goto_proc, Kernel.setProc_proc, procs]
    exact known.fallsAsleep sound ops ⟨moves.cpus, moves.proc, moves.context, moves.ops⟩ owner table
      rfl rfl rfl rfl rfl
  · have forward : (Op.sleepRelease p chan lk).Forward := .of rfl
    exact ⟨infant, stage, known.proceeds sound ops forward (.goto rfl _) rfl rfl fun _ => trivial⟩

end Locks

/-- A process on its way to the scheduler does not hold `wait_lock`. -/
theorem Leaves.not_waitLock (leaves : Leaves False me p mode) : .waitLock ∉ mode.held := by
  simp [leaves.held]

/-- A switch of CPU `c` between its scheduler and a process. -/
theorem Kinship.switches (known : Kinship kernel history infant stage)
    (cpus : ∀ d, d ≠ c → next.cpu d = kernel.cpu d) (owner : next.owner = kernel.owner)
    (undisturbed : Undisturbed kernel.proc next.proc)
    (located : Located next history infant (stage c) c)
    (parked : ∀ q, (next.proc q).state.Live → ¬(next.cpu c).Executing q →
      ((kernel.proc q).state.Live ∧ (next.proc q).context = (kernel.proc q).context ∧
        ¬(kernel.cpu c).Executing q) ∨
      Relates (some q) (next.proc q).context (placeOf history infant .outside (some q))) :
    Kinship next history infant stage where
  family := known.family.frame_used undisturbed.steady.remains undisturbed.used
  lock := by
    rw [owner]
    exact known.lock
  knows := fun d => (known.knows d).frame undisturbed.steady
  free := by
    rw [owner]
    exact fun unowned => (known.free unowned).frame undisturbed.steady
  cpus := by
    intro d
    by_cases same : d = c
    · rw [same]
      exact located
    cases known.cpus d with
    | running relates scheduler =>
      rw [← cpus d same] at relates scheduler
      exact .running relates scheduler
    | returning current ops left relates =>
      rw [← cpus d same] at current ops
      exact .returning current ops left relates
  parked := by
    intro q live notExecuting
    rcases parked q live (notExecuting c) with ⟨wasLive, context, notHere⟩ | relates
    · rw [context]
      refine known.parked q wasLive fun d executing => ?_
      by_cases same : d = c
      · exact notHere (same ▸ executing)
      · exact notExecuting d (cpus d same ▸ executing)
    · exact relates

section Switches

variable (known : Kinship kernel history infant stage) (sound : Sound False kernel ghost)
include known sound

theorem Kinship.switchesIn (ops : (kernel.cpu c).ops = .pick currentTick p :: rest)
    (runnable : (kernel.proc p).state = .runnable)
    (cpus : ∀ d, d ≠ c → next.cpu d = kernel.cpu d) (proc : (next.cpu c).proc = some p)
    (context : (next.cpu c).context = .back currentTick p :: rest)
    (resumed : (next.cpu c).ops = (kernel.proc p).context)
    (owner : next.owner = kernel.owner) (table : next.proc = update kernel.proc p process)
    (process_eq : process = { kernel.proc p with state := .running }) :
    Kinship next history infant stage := by
  obtain ⟨idle, mode, _⟩ := (sound.head ops (.of rfl)).1
  have relates := (known.head ops (.of rfl)).1
  have outside := known.outside sound (c := c) (by simp [mode, Mode.holding])
  rw [idle, outside] at relates
  have notCurrent : ∀ d, (kernel.cpu d).proc ≠ some p :=
    sound.not_current ops (.of rfl) (by rw [mode]; rfl) (by simp [mode, Mode.holding])
      (by simp [runnable])
  have resumes := known.parked p (.inr (.inl runnable)) fun d executing =>
    notCurrent d executing.1
  have undisturbed : Undisturbed kernel.proc next.proc := by
    rw [table, process_eq]
    refine .update (.of_awake rfl rfl rfl (.inr (.inl runnable)) (.inr rfl)) fun isUsed => ?_
    rw [runnable] at isUsed
    cases isUsed
  refine known.switches cpus owner undisturbed (.running ?_ ?_) fun q live notExecuting => .inl ?_
  · rw [proc, resumed, outside]
    exact resumes
  · rw [proc, context]
    rintro q ⟨⟩
    exact ⟨currentTick, rest, rfl, relates⟩
  have ne : q ≠ p := by
    rintro rfl
    refine notExecuting ⟨proc, ?_⟩
    rw [resumed]
    exact resumes.ne_back
  rw [table, update_of_ne ne] at live ⊢
  refine ⟨live, rfl, fun executing => ?_⟩
  have current := executing.1
  rw [idle] at current
  cases current

theorem Kinship.switchesOut (ops : (kernel.cpu c).ops = op :: rest) (plain : op.Plain)
    (mine : (kernel.cpu c).proc = some p) (free : .waitLock ∉ (ghost.mode c).held)
    (cpus : next.cpu = update kernel.cpu c
      { kernel.cpu c with ops := (kernel.cpu c).context })
    (owner : next.owner = kernel.owner) (table : next.proc = update kernel.proc p process)
    (steady : (kernel.proc p).Steady process p)
    (used : (kernel.proc p).state = .used → process.state = .used ∧
      process.parent = (kernel.proc p).parent)
    (relates : Relates (some p) process.context (placeOf history infant .outside (some p))) :
    Kinship next history infant stage := by
  have undisturbed : Undisturbed kernel.proc next.proc := by
    rw [table]
    exact .update steady used
  obtain ⟨currentTick, back, context, scheduled⟩ := (known.head ops plain.2).2 p mine
  have current : (next.cpu c).proc = some p := by rw [cpus, update_self, mine]
  have atBack : (next.cpu c).ops = .back currentTick p :: back := by
    rw [cpus, update_self, context]
  refine known.switches (fun d other => ?_) owner undisturbed
    (.returning current atBack (known.outside sound free) scheduled) fun q live _ => ?_
  · rw [cpus, update_of_ne other]
  obtain rfl | same := eq_or_ne q p
  · rw [table, update_self]
    exact .inr relates
  rw [table, update_of_ne same] at live ⊢
  exact .inl ⟨live, rfl, fun executing => same (Option.some.inj (executing.1.symm.trans mine))⟩

omit sound in
theorem Kinship.switchedBack {currentTick : Nat} {p : Slot}
    (ops : (kernel.cpu c).ops = .back currentTick p :: rest)
    (ran : stepOp kernel c rest (.back currentTick p) = some next) :
    Kinship next history infant stage := by
  cases ran
  have table : ((kernel.setProc p (fatcatSched (kernel.proc p) currentTick)).setCpu c
      { kernel.cpu c with proc := none, ops := rest }).proc =
        update kernel.proc p (fatcatSched (kernel.proc p) currentTick) := rfl
  have undisturbed : Undisturbed kernel.proc
      (update kernel.proc p (fatcatSched (kernel.proc p) currentTick)) :=
    .update (.of_eq rfl rfl rfl rfl rfl) fun isUsed => ⟨isUsed, rfl⟩
  refine known.switches (c := c) (fun d other => ?_) rfl undisturbed ?_
    fun q live _ => .inl ⟨?_, ?_, fun executing => executing.2 currentTick p rest ops⟩
  · simp [other]
  · cases known.cpus c with
    | running relates _ =>
      rw [ops] at relates
      exact absurd rfl (relates.ne_back currentTick p rest)
    | returning current atBack left relates =>
      rw [ops] at atBack
      cases atBack
      refine .running ?_ ?_
      · simpa [placeOf, left] using relates
      · intro q current
        simp at current
  · rwa [table, field_update Process.state (by rfl)] at live
  · rw [table, field_update Process.context (by rfl)]

end Switches

theorem family_listed (process : Process) : (listed process).pid = process.pid ∧
    (listed process).xstate = process.xstate ∧ (listed process).parent = process.parent := by
  rw [listed_eq_ite]
  split <;> exact ⟨rfl, rfl, rfl⟩

section Operations

variable (known : Kinship kernel history infant stage) (sound : Sound False kernel ghost)
include known sound

theorem Kinship.steps_pick : StaysKin kernel history (.pick currentTick p) := by
  intro c rest next ops ran
  simp only [stepOp] at ran
  split at ran <;> cases ran
  · rename_i runnable
    refine ⟨infant, stage, known.switchesIn sound ops runnable (fun d other => ?_) ?_ ?_ ?_ rfl rfl
      rfl⟩
    · simp [Kernel.switchIn, other]
    · simp [Kernel.switchIn]
    · simp [Kernel.switchIn]
    · simp [Kernel.switchIn]
  · exact ⟨infant, stage, known.proceeds sound ops (.of rfl) (.goto rfl _) rfl rfl fun ruled => ruled⟩

theorem Kinship.steps_charge : StaysKin kernel history (.charge p ctick) := by
  intro c rest next ops ran
  have leaves := (sound.head ops (.of rfl)).1.1
  have outside := known.outside sound leaves.not_waitLock
  have ruled := (known.head ops (.of rfl)).1
  cases ran
  simp only [Kernel.charge]
  split
  · exact ⟨infant, stage, known.rewrites sound ops (.of rfl) (.assign _ _ _) rfl rfl rfl rfl rfl rfl
      rfl rfl fun ruled => ruled⟩
  split
  · rename_i drained
    rw [leaves.mine, outside] at ruled
    refine ⟨infant, stage, known.switchesOut sound ops (.of rfl) leaves.mine
      leaves.not_waitLock (by simp [Kernel.switchOut, Kernel.goto, Kernel.setCpu]) rfl
      (by simp [Kernel.switchOut]; rfl) ?_ ?_ ?_⟩
    · exact .of_awake rfl rfl rfl (.inl drained.2) (.inl rfl)
    · intro isUsed
      rw [drained.2] at isUsed
      cases isUsed
    · exact ruled
  · exact ⟨infant, stage, known.proceeds sound ops (.of rfl) (.goto rfl _) rfl rfl fun ruled => ruled⟩

theorem Kinship.steps_tail : StaysKin kernel history (.tail p ctick) := by
  intro c rest next ops ran
  have leaves := (sound.head ops (.of rfl)).1.1
  have outside := known.outside sound leaves.not_waitLock
  have ruled := (known.head ops (.of rfl)).1
  rw [leaves.mine, outside] at ruled
  cases ran
  refine ⟨infant, stage, known.switchesOut sound ops (.of rfl) leaves.mine
    leaves.not_waitLock (by simp [Kernel.switchOut, Kernel.goto, Kernel.setCpu]) rfl
    (by simp [Kernel.switchOut]; rfl) ?_ ?_ ?_⟩
  · exact .of_eq rfl rfl rfl rfl rfl
  · exact fun isUsed => ⟨isUsed, rfl⟩
  · exact ruled

section

variable (ops : (kernel.cpu c).ops = op :: rest) (forward : op.Forward)
include ops forward

theorem Kinship.calls (relates : ∀ p, Resumes (some p) op rest (body p ++ behind)
      (placeOf history infant (stage c) (some p))) :
    Kinship (kernel.withProc c behind body) history infant stage := by
  cases mine : (kernel.cpu c).proc with
  | none =>
    rw [show kernel.withProc c behind body = kernel.stops c "kerneltrap" behind by
      simp [Kernel.withProc, Kernel.myproc, mine]]
    exact known.proceeds sound ops forward (.goto rfl _) rfl rfl fun _ => trivial
  | some p =>
    rw [kernel.withProc_eq mine]
    refine known.proceeds sound ops forward (.goto rfl _) rfl rfl fun ruled => ?_
    rw [mine] at ruled ⊢
    exact relates p ruled

theorem Kinship.steps_call (next_eq : kernel.withProc c rest body = next)
    (noEvent : eventOf kernel c op = none)
    (relates : ∀ p, Resumes (some p) op rest (body p ++ rest)
      (placeOf history infant (stage c) (some p))) :
    KeepsKin kernel history c op next := by
  subst next_eq
  rw [KeepsKin, noEvent]
  exact ⟨infant, stage, known.calls sound ops forward relates⟩

theorem Kinship.replaces (next_eq : kernel.goto c push = next) (noEvent :
    eventOf kernel c op = none)
    (relates : Resumes (kernel.cpu c).proc op rest push
      (placeOf history infant (stage c) (kernel.cpu c).proc)) :
    KeepsKin kernel history c op next := by
  subst next_eq
  rw [KeepsKin, noEvent]
  exact ⟨infant, stage, known.proceeds sound ops forward (.goto rfl push) rfl rfl relates⟩

theorem Kinship.steps_cpu (next_eq : kernel.setCpu c cpu = next) (noEvent :
    eventOf kernel c op = none)
    (proc : cpu.proc = (kernel.cpu c).proc) (context : cpu.context = (kernel.cpu c).context)
    (relates : Resumes (kernel.cpu c).proc op rest cpu.ops
      (placeOf history infant (stage c) (kernel.cpu c).proc)) :
    KeepsKin kernel history c op next := by
  subst next_eq
  rw [KeepsKin, noEvent]
  refine ⟨infant, stage, known.proceeds sound ops forward ⟨fun d other => ?_, ?_, ?_, rfl⟩ rfl rfl ?_⟩
  · simp [other]
  · simpa using proc
  · simpa using context
  · simpa [Resumes] using relates

end

theorem Kinship.steps_readKilled : StaysKin kernel history (.readKilled p caller) := by
  intro c rest next ops ran
  have mine := (sound.head ops (.of rfl)).1.1
  apply known.replaces sound ops (.of rfl) (Option.some.inj ran) rfl
  rw [mine]
  intro ruled
  cases caller with
  | usertrap =>
    obtain ⟨free, relates⟩ := ruled
    cases (kernel.proc p).killed with
    | true => simpa [kin, KilledCaller.resume] using free
    | false => simpa [kin, KilledCaller.resume] using relates
  | sysSleep ticks0 n =>
    have relates : Relates (some p) rest (placeOf history infant (stage c) (some p)) := ruled
    cases (kernel.proc p).killed <;> simpa [kin, KilledCaller.resume] using relates
  | wait fails =>
    obtain ⟨staying, atStage, relates⟩ := ruled
    have notExiting : Option.map Prod.snd (exitOf p history) = none := staying
    rw [placeOf_stage] at atStage
    cases (kernel.proc p).killed with
    | true => simpa [kin, KilledCaller.resume, Stage.Settled, atStage] using relates
    | false => simpa [kin, KilledCaller.resume, atStage, placeOf, notExiting] using relates
  | client =>
    have relates : Relates (some p) rest (placeOf history infant (stage c) (some p)) := ruled
    simpa [kin, KilledCaller.resume] using relates

theorem Kinship.steps_killVisit : StaysKin kernel history (.killVisit pid p) := by
  intro c rest next ops ran
  simp only [stepOp] at ran
  split at ran <;> cases ran
  · by_cases isAsleep : (kernel.proc p).state = .sleeping
    · refine ⟨infant, stage, known.assigns sound ops (.of rfl) (.assign _ _ _) rfl rfl ?_ ?_ ?_
        fun ruled => by simpa [kin] using ruled⟩
      · exact .of_awake rfl rfl rfl (.inl isAsleep) (.inl (if_pos isAsleep))
      · exact fun _ _ => ⟨.inr (.inr isAsleep), rfl⟩
      · intro isUsed
        rw [isAsleep] at isUsed
        cases isUsed
    · exact ⟨infant, stage, known.rewrites sound ops (.of rfl) (.assign _ _ _) rfl rfl rfl rfl rfl
        (if_neg isAsleep) rfl rfl fun ruled => by simpa [kin] using ruled⟩
  · refine known.replaces sound ops (.of rfl) rfl rfl fun ruled => ?_
    simpa [kin] using ruled

theorem Kinship.steps_pslist (ops : (kernel.cpu c).ops = .pslist fails i :: rest)
    (ran : stepOp kernel c rest (.pslist fails i) = some next)
    (lists : ∀ bound : i < nproc, ¬ (kernel.proc ⟨i, bound⟩).ListingSleeps) :
    KeepsKin kernel history c (.pslist fails i) next := by
  simp only [stepOp] at ran
  split at ran
  · rename_i bound
    split at ran <;> cases ran
    · exact known.replaces sound ops (.of rfl) rfl rfl fun ruled => ruled
    rename_i active
    obtain ⟨pid, xstate, parent⟩ := family_listed (kernel.proc ⟨i, bound⟩)
    refine ⟨infant, stage, known.rewrites sound ops (.of rfl) (.assign _ _ _) rfl rfl pid xstate parent
      (state_listed _ active (lists bound)) (chan_listed _) (context_listed _) fun ruled => ?_⟩
    split <;> exact ruled
  · cases ran
    exact known.replaces sound ops (.of rfl) rfl rfl fun ruled => ruled

theorem Kinship.stepOp (ops : (kernel.cpu c).ops = op :: rest)
    (ran : Proc.stepOp kernel c rest op = some next)
    (lists : ∀ fails i (bound : i < nproc), op = .pslist fails i →
      ¬ (kernel.proc ⟨i, bound⟩).ListingSleeps) : KeepsKin kernel history c op next := by
  cases op with
  | acquire lk => exact known.steps_acquire sound ops ran
  | spin lk => exact known.steps_spin sound ops ran
  | release lk => exact known.steps_release sound ops ran
  | panic message => cases ran
  | enterLoop t =>
    have idle := (sound.head ops (.of rfl)).1.1
    exact known.steps_cpu sound ops (.of rfl) (Option.some.inj ran) rfl idle.symm
      rfl fun _ => trivial
  | loop t =>
    exact known.steps_cpu sound ops (.of rfl) (Option.some.inj ran) rfl rfl rfl
      fun _ => trivial
  | scan t i =>
    simp only [Proc.stepOp] at ran
    split at ran
    · exact known.replaces sound ops (.of rfl) (Option.some.inj ran) rfl
        fun _ => by simp [kin, Place.acquire]
    · exact known.replaces sound ops (.of rfl) (Option.some.inj ran) rfl
        fun _ => trivial
  | pick t p => exact known.steps_pick sound ops ran
  | back t p => exact ⟨infant, stage, known.switchedBack ops ran⟩
  | sched =>
    have panics : ∀ message, KeepsKin kernel history c .sched (kernel.stops c message rest) :=
      fun _ => known.replaces sound ops (.of rfl) rfl rfl fun _ => trivial
    simp only [Proc.stepOp] at ran
    repeat' split at ran
    all_goals cases ran
    all_goals first
      | exact panics _
      | exact known.replaces sound ops (.of rfl) rfl rfl fun ruled => ruled
  | charge p t => exact known.steps_charge sound ops ran
  | tail p t => exact known.steps_tail sound ops ran
  | restore _ | intrOn | usertrapret | iret =>
    exact known.steps_cpu sound ops (.of rfl) (Option.some.inj ran) rfl rfl rfl
      fun ruled => ruled
  | yield | setkilled | killedExit =>
    exact known.steps_call sound ops (.of rfl) (Option.some.inj ran) rfl
      fun p ruled => by simpa [kin, Place.acquire, yieldBody, KilledCaller.kin] using ruled
  | setRunnable p =>
    obtain ⟨mine, calls, _⟩ := (sound.head ops (.of rfl)).1
    have isRunning := sound.running_of_staying ops (.of rfl) mine calls.staying
    cases ran
    refine ⟨infant, stage, known.assigns sound ops (.of rfl) (.assign _ _ _) rfl rfl
      (.of_awake rfl rfl rfl (.inr (.inr isRunning)) (.inl rfl)) (fun notMine => absurd mine notMine)
      ?_ fun ruled => ruled⟩
    intro isUsed
    rw [isRunning] at isUsed
    cases isUsed
  | forkret | fork _ | sleepStart _ =>
    exact known.steps_call sound ops (.of rfl) (Option.some.inj ran) rfl
      fun p ruled => by simpa [kin] using ruled
  | sleep chan lk =>
    refine known.steps_call sound ops (.of rfl) (Option.some.inj ran) rfl
      fun p ruled => ?_
    by_cases isWaitLock : lk = .waitLock
    · subst isWaitLock
      simp only [kin, if_true, placeOf_stage, placeOf_enter] at ruled
      obtain ⟨⟨q, ⟨⟩, isChan, atStage⟩, relates⟩ := ruled
      simpa [kin, Place.acquire, sleepBody, isChan, atStage] using relates
    · simpa [kin, Place.acquire, sleepBody, isWaitLock] using ruled
  | sleepRelease p chan lk => exact known.steps_sleepRelease sound ops ran
  | tidyUp p =>
    cases ran
    refine ⟨infant, stage, known.assigns sound ops (.of rfl) (.assign _ _ _) rfl rfl
      ⟨.of_state rfl rfl rfl (.inl rfl), ?_⟩ (fun _ live => ⟨live, rfl⟩)
      (fun isUsed => ⟨isUsed, rfl⟩) fun ruled => ruled⟩
    rintro ⟨_, onChan⟩
    cases onChan
  | sleepReturn p =>
    exact known.replaces sound ops (.of rfl) (Option.some.inj ran) rfl
      fun ruled => ruled
  | wakeup chan i => exact known.steps_wakeup sound ops ran
  | wake chan p => exact known.steps_wake sound ops ran
  | kill _ _ | allocFound _ _ _ | sleepLoop _ _ _ =>
    simp only [Proc.stepOp] at ran
    split at ran
    all_goals
      exact known.replaces sound ops (.of rfl) (Option.some.inj ran) rfl
        fun ruled => by simpa [kin, Place.acquire, KilledCaller.kin] using ruled
  | killVisit pid p => exact known.steps_killVisit sound ops ran
  | markKilled p =>
    cases ran
    exact ⟨infant, stage, known.rewrites sound ops (.of rfl) (.assign _ _ _) rfl rfl rfl
      rfl rfl rfl rfl rfl fun ruled => ruled⟩
  | readKilled p caller => exact known.steps_readKilled sound ops ran
  | exit status => exact known.steps_exit sound ops ran
  | reparent p i => exact known.steps_reparent sound ops ran
  | wakeParent p => exact known.steps_wakeParent sound ops ran
  | becomeZombie p status => exact known.steps_becomeZombie sound ops ran
  | wait fails =>
    refine known.steps_call sound ops (.of rfl) (Option.some.inj ran) rfl
      fun p ruled => ?_
    obtain ⟨staying, atStage, relates⟩ := ruled
    have notExiting : Option.map Prod.snd (exitOf p history) = none := staying
    rw [placeOf_stage] at atStage
    simpa [kin, Place.acquire, atStage, placeOf, notExiting] using relates
  | waitScan p fails havekids i => exact known.steps_waitScan sound ops ran
  | waitChild p fails pp => exact known.steps_waitChild sound ops ran
  | allocproc p memory i =>
    simp only [Proc.stepOp] at ran
    split at ran
    · exact known.replaces sound ops (.of rfl) (Option.some.inj ran) rfl
        fun ruled => by simpa [kin, Place.acquire] using ruled
    · exact known.replaces sound ops (.of rfl) (Option.some.inj ran) rfl
        fun ruled => ruled.2
  | allocpid p memory np =>
    cases ran
    exact ⟨infant, stage, known.proceeds sound ops (.of rfl)
      (.goto (by rfl) _) rfl rfl fun ruled => by simpa [kin, Place.acquire] using ruled⟩
  | allocInit p memory np pid => exact known.steps_allocInit sound ops ran
  | allocTick p memory np ctime => exact known.steps_allocTick sound ops ran
  | forkTick p np ctime =>
    cases ran
    refine ⟨infant, stage, known.rewrites sound ops (.of rfl) (.assign _ _ _) rfl rfl
      rfl rfl rfl rfl rfl rfl fun ruled => ?_⟩
    obtain ⟨mine, ⟨staying, bears, atStage⟩, relates⟩ := ruled
    rw [mine] at staying bears relates ⊢
    rw [placeOf_stage] at atStage
    have notExiting : Option.map Prod.snd (exitOf p history) = none := staying
    have bears : infant p = some (np, false) := bears
    simpa [kin, Place.acquire, Place.Bears, forkTail, Stage.Settled, placeOf, atStage, notExiting,
      bears] using relates
  | setParent np p => exact known.steps_setParent sound ops ran
  | publish np => exact known.steps_publish sound ops ran
  | pslist fails i =>
    exact known.steps_pslist sound ops ran fun bound => lists fails i bound rfl
  | uptime _ | sysSleep _ =>
    exact known.replaces sound ops (.of rfl) (Option.some.inj ran) rfl
      fun ruled => by simpa [kin, Place.acquire] using ruled
  | readTicks caller =>
    refine known.replaces sound ops (.of rfl) (Option.some.inj ran) rfl
      fun ruled => ?_
    cases caller with
    | scheduler => exact trivial
    | _ => simpa [kin, UptimeCaller.kin, UptimeCaller.resume] using ruled
  | tick =>
    cases ran
    exact ⟨infant, stage, known.proceeds sound ops (.of rfl)
      (.goto (by rfl) _) rfl rfl fun ruled => ruled⟩
  | kerneltrapYield =>
    simp only [Proc.stepOp] at ran
    repeat' split at ran
    all_goals cases ran
    all_goals exact known.replaces sound ops (.of rfl) rfl rfl fun ruled => ruled
  | clients => cases ran
  | client k => cases ran

end Operations

end Xv6.Proc
