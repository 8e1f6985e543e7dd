import Xv6.Proc.Preservation

/-!
# Soundness is an invariant

Every admitted step of the machine leads from a sound state to a sound state, and
records in the ghost state which processes are inside `sleep`.
-/

namespace Xv6.Proc

open Xv6.Semantics

variable {ncpu : Nat} {strict : Prop} {kernel next : Kernel ncpu} {ghost : Ghost ncpu}
  {c : Fin ncpu} {rest : List Op}

/-- The effect of an operation on the `sleep` calls in progress. -/
def recordWait (waiting : Slot → Option (Option Chan × Lock)) :
    Op → Slot → Option (Option Chan × Lock)
  | .sleepRelease p chan lk => Function.update waiting p (some (chan, lk))
  | .sleepReturn p => Function.update waiting p none
  | _ => waiting

/-- The operations that keep the machine sound. -/
structure Admitted (strict : Prop) (kernel : Kernel ncpu) (op : Op) : Prop where
  listing : ∀ copyoutFails i (bound : i < nproc), op = .pslist copyoutFails i →
    ¬ (kernel.proc ⟨i, bound⟩).ListingSleeps
  drained : strict → ∀ p ctick, op = .charge p ctick → ¬ (kernel.proc p).Drained

/-- A step to a sound state, with the `sleep` calls recorded. -/
def Preserves (strict : Prop) (ghost : Ghost ncpu) (op : Op) (next : Kernel ncpu) : Prop :=
  ∃ after : Ghost ncpu, Sound strict next after ∧ after.waiting = recordWait ghost.waiting op

/-- From the state, the operation leads to sound states only. -/
def StaysSound (strict : Prop) (kernel : Kernel ncpu) (ghost : Ghost ncpu) (op : Op) : Prop :=
  ∀ {c rest next}, (kernel.cpu c).ops = op :: rest → stepOp kernel c rest op = some next →
    Preserves strict ghost op next

section Operations

variable {op : Op} (sound : Sound strict kernel ghost) (ops : (kernel.cpu c).ops = op :: rest)

include sound ops

section

variable (plain : op.Plain) (records : recordWait ghost.waiting op = ghost.waiting)
include plain records

theorem Sound.replaces
    (obeys : rule strict (kernel.cpu c).proc op (Disciplined strict (kernel.cpu c).proc rest)
      (ghost.mode c) → Disciplined strict (kernel.cpu c).proc push (ghost.mode c)) :
    Preserves strict ghost op (kernel.goto c push) :=
  ⟨ghost, sound.goesOn ops plain rfl rfl (fun _ => rfl) (fun _ => rfl) obeys, records.symm⟩

/-- An operation that also assigns to a field of a process other than its state and context. -/
theorem Sound.assigns (state : process.state = (kernel.proc q).state)
    (context : process.context = (kernel.proc q).context)
    (obeys : rule strict (kernel.cpu c).proc op (Disciplined strict (kernel.cpu c).proc rest)
      (ghost.mode c) → Disciplined strict (kernel.cpu c).proc push (ghost.mode c)) :
    Preserves strict ghost op ((kernel.setProc q process).goto c push) :=
  ⟨ghost, sound.goesOn ops plain rfl rfl (field_update Process.state state)
    (field_update Process.context context) obeys, records.symm⟩

theorem Sound.replacesCall (mine : ∃ p, (kernel.cpu c).proc = some p)
    (follows : ∀ p, rule strict (some p) op (Disciplined strict (some p) rest) (ghost.mode c) →
      Follows (rule strict (some p)) (Disciplined strict (some p) rest) (body p) (ghost.mode c)) :
    Preserves strict ghost op (kernel.withProc c rest body) :=
  ⟨ghost, sound.calls ops plain mine follows, records.symm⟩

end

end Operations

section Scheduler

variable (sound : Sound strict kernel ghost) {t : Nat} {p : Slot}

include sound

theorem Sound.steps_scan : StaysSound strict kernel ghost (.scan t i) := by
  intro c rest next ops ran
  simp only [stepOp] at ran
  split at ran
  · cases ran
    apply sound.replaces ops (.of rfl) rfl
    rintro ⟨idle, mode⟩
    rw [mode]
    exact ⟨by simp [Mode.holding], by simp [Mode.NoProc, Mode.holding], idle, rfl,
      by simp [Mode.holding], by simp [idle, Mode.holding], idle, by simp [Mode.holding]⟩
  · cases ran
    exact sound.replaces ops (.of rfl) rfl fun ruled => ruled

theorem Sound.steps_pick : StaysSound strict kernel ghost (.pick t p) := by
  intro c rest next ops ran
  simp only [stepOp] at ran
  split at ran
  · rename_i runnable
    cases ran
    refine ⟨_, sound.switchesIn ops runnable ?_ rfl rfl, rfl⟩
    simp [Kernel.switchIn]
  · cases ran
    exact sound.replaces ops (.of rfl) rfl fun ruled => ruled.2.2

theorem Sound.steps_sched : StaysSound strict kernel ghost .sched := by
  intro c rest next ops ran
  have stops : ∀ message, Preserves strict ghost .sched (kernel.stops c message rest) :=
    fun message => ⟨ghost, sound.stops ops (.of rfl) message, rfl⟩
  simp only [stepOp] at ran
  split at ran
  · cases ran
    exact stops _
  rename_i p current
  repeat (split at ran; · cases ran; exact stops _)
  cases ran
  apply sound.replaces ops (.of rfl) rfl
  rintro ⟨q, leaves, obeys⟩
  have same : q = p := Option.some.inj (leaves.mine.symm.trans current)
  subst same
  exact ⟨by simp [leaves.held], leaves, obeys⟩

/-- The thread that `sched` saves will hold its lock again when it resumes. -/
theorem Sound.resumes (ops : (kernel.cpu c).ops = op :: rest) (plain : op.Plain)
    (leaves : Leaves strict (kernel.cpu c).proc p (ghost.mode c))
    (obeys : Disciplined strict (kernel.cpu c).proc saved
      { ghost.mode c with leaving := false }) :
    Disciplined strict (some p) saved (.resumed p (ghost.child p) (ghost.waiting p)) := by
  have process := (sound.head ops plain).2.2.2 p leaves.mine
  rw [leaves.mine] at obeys
  simpa only [Mode.resumed, leaves.held, leaves.found, process.child, process.waiting]
    using obeys

theorem Sound.steps_tail : StaysSound strict kernel ghost (.tail p t) := by
  intro c rest next ops ran
  obtain ⟨⟨leaves, obeys⟩, _, _, process⟩ := sound.head ops (.of rfl)
  cases ran
  refine ⟨_, sound.switchesOut ops (.of rfl) leaves.mine leaves.held rfl rfl ?_ ?_ ?_ ?_, rfl⟩
  · intro q other
    simp [Kernel.switchOut, other]
  · left
    simp [Kernel.switchOut, settle]
  · intro isStrict
    have left := ((process p leaves.mine).leaving (leaves.leaving isStrict)).2 isStrict
    simpa [Kernel.switchOut, settle] using left
  · have saved : Disciplined strict (some p) (.restore (kernel.cpu c).intena :: rest)
        (.resumed p (ghost.child p) (ghost.waiting p)) := sound.resumes ops (.of rfl) leaves obeys
    simpa [Kernel.switchOut] using saved

theorem Sound.steps_charge (ops : (kernel.cpu c).ops = .charge p t :: rest)
    (ran : stepOp kernel c rest (.charge p t) = some next)
    (admitted : strict → ¬ (kernel.proc p).Drained) :
    Preserves strict ghost (.charge p t) next := by
  simp only [stepOp, Option.some.injEq] at ran
  subst ran
  unfold Kernel.charge
  simp only
  split
  · exact sound.assigns ops (.of rfl) rfl rfl rfl fun ruled => ruled
  split
  · -- the first of the two switches; the second one is in the saved context
    rename_i drained
    obtain ⟨⟨leaves, obeys⟩, _, _, _⟩ := sound.head ops (.of rfl)
    refine ⟨_, sound.switchesOut ops (.of rfl) leaves.mine leaves.held rfl rfl ?_ ?_ ?_ ?_, rfl⟩
    · intro q other
      simp [Kernel.switchOut, other]
    · right
      simp [Kernel.switchOut, wakeDrained, drained.2]
    · simp [Kernel.switchOut, wakeDrained]
    have again : Disciplined strict (kernel.cpu c).proc (.tail p t :: rest)
        { ghost.mode c with leaving := false } :=
      ⟨⟨leaves.mine, leaves.held, leaves.found, fun isStrict => absurd drained (admitted isStrict)⟩,
        obeys⟩
    have saved : Disciplined strict (some p)
        (.restore (kernel.cpu c).intena :: .tail p t :: rest)
        (.resumed p (ghost.child p) (ghost.waiting p)) := sound.resumes ops (.of rfl) leaves again
    simpa [Kernel.switchOut] using saved
  · exact sound.replaces ops (.of rfl) rfl fun ruled => ruled

end Scheduler

section Sleepers

variable (sound : Sound strict kernel ghost) {chan : Option Chan} {pid : Int} {p : Slot}

include sound

theorem Sound.steps_wakeup : StaysSound strict kernel ghost (.wakeup chan i) := by
  intro c rest next ops ran
  simp only [stepOp] at ran
  split at ran
  · split at ran
    · cases ran
      exact sound.replaces ops (.of rfl) rfl fun ruled => ruled
    cases ran
    apply sound.replaces ops (.of rfl) rfl
    rintro ⟨calls, guarded, obeys⟩
    refine follows_visit guarded.2 calls ?_ ⟨calls, guarded, obeys⟩
    intro P holds
    exact ⟨⟨rfl, calls.staying, calls.found⟩, by simp, holds⟩
  · cases ran
    exact sound.replaces ops (.of rfl) rfl fun ruled => ruled.2.2

theorem Sound.steps_wake : StaysSound strict kernel ghost (.wake chan p) := by
  intro c rest next ops ran
  simp only [stepOp] at ran
  split at ran
  · rename_i asleep
    obtain ⟨calls, locked, obeys⟩ := (sound.head ops (.of rfl)).1
    cases ran
    exact ⟨ghost, sound.changesOther ops (.of rfl) locked calls rfl (.inl ⟨asleep.1, rfl⟩) obeys,
      rfl⟩
  · cases ran
    exact sound.replaces ops (.of rfl) rfl fun ruled => ruled.2.2

theorem Sound.steps_kill : StaysSound strict kernel ghost (.kill pid i) := by
  intro c rest next ops ran
  simp only [stepOp] at ran
  split at ran
  · cases ran
    apply sound.replaces ops (.of rfl) rfl
    rintro ⟨calls, obeys⟩
    refine disciplined_acquire calls ⟨⟨rfl, calls.staying, calls.found⟩, ?_⟩
    rwa [← calls.held]
  · cases ran
    exact sound.replaces ops (.of rfl) rfl fun ruled => ruled.2

theorem Sound.steps_killVisit : StaysSound strict kernel ghost (.killVisit pid p) := by
  intro c rest next ops ran
  obtain ⟨calls, obeys⟩ := (sound.head ops (.of rfl)).1
  simp only [stepOp] at ran
  split at ran
  · cases ran
    by_cases asleep : (kernel.proc p).state = .sleeping
    · refine ⟨ghost, sound.changesOther ops (.of rfl) (by simp [calls.held])
        ⟨rfl, calls.staying, calls.found⟩ rfl (.inl ⟨asleep, by simp [asleep]⟩) ?_, rfl⟩
      exact disciplined_release calls obeys
    · exact sound.assigns ops (.of rfl) rfl (by simp [asleep]) rfl fun _ =>
        disciplined_release calls obeys
  · cases ran
    refine sound.replaces ops (.of rfl) rfl fun _ => disciplined_release calls ?_
    exact ⟨⟨rfl, calls.staying, calls.found⟩, obeys⟩

end Sleepers

section Exiting

variable (sound : Sound strict kernel ghost) {p : Slot}

include sound

theorem Sound.steps_exit : StaysSound strict kernel ghost (.exit status) := by
  intro c rest next ops ran
  simp only [stepOp] at ran
  split at ran
  · cases ran
    exact ⟨ghost, sound.stops ops (.of rfl) _, rfl⟩
  rename_i q current
  split at ran
  · cases ran
    exact ⟨ghost, sound.stops ops (.of rfl) _, rfl⟩
  cases ran
  apply sound.replaces ops (.of rfl) rfl
  rintro ⟨_, mode⟩
  rw [show (kernel.cpu c).proc = some q from current, mode, Disciplined, follows_append]
  exact follows_exitBody status

theorem Sound.steps_reparent : StaysSound strict kernel ghost (.reparent p i) := by
  intro c rest next ops ran
  simp only [stepOp] at ran
  split at ran
  · split at ran
    · cases ran
      refine sound.assigns ops (.of rfl) rfl rfl rfl ?_
      rintro ⟨calls, obeys⟩
      refine ⟨⟨rfl, calls.staying, calls.found⟩, ?_, calls, obeys⟩
      rw [calls.held]
      exact guarded_singleton rfl
    · cases ran
      exact sound.replaces ops (.of rfl) rfl fun ruled => ruled
  · cases ran
    exact sound.replaces ops (.of rfl) rfl fun ruled => ruled.2

theorem Sound.steps_wakeParent : StaysSound strict kernel ghost (.wakeParent p) := by
  intro c rest next ops ran
  cases ran
  apply sound.replaces ops (.of rfl) rfl
  rintro ⟨calls, obeys⟩
  refine ⟨⟨rfl, calls.staying, calls.found⟩, ?_, obeys⟩
  rw [calls.held]
  exact guarded_singleton rfl

theorem Sound.steps_becomeZombie : StaysSound strict kernel ghost (.becomeZombie p status) := by
  intro c rest next ops ran
  obtain ⟨⟨mine, mode, obeys⟩, _, _, process⟩ := sound.head ops (.of rfl)
  have processSound := process p mine
  cases ran
  refine ⟨_, sound.givesUp ops (.of rfl) mine (by simp [mode, Mode.holding]) ?_ (by simp) ?_ ?_, rfl⟩
  · rw [mode]
    exact ⟨rfl, rfl, rfl⟩
  · intro _
    rw [← processSound.child, ← processSound.waiting, mode]
    exact ⟨rfl, rfl⟩
  · rwa [mine] at obeys

theorem Sound.steps_waitScan : StaysSound strict kernel ghost (.waitScan p fails havekids i) := by
  intro c rest next ops ran
  simp only [stepOp] at ran
  split at ran
  · split at ran
    · cases ran
      apply sound.replaces ops (.of rfl) rfl
      rintro ⟨mine, calls, obeys⟩
      exact disciplined_acquire_proc rfl calls.toCalls
        ⟨mine, ⟨⟨rfl, calls.staying, calls.found⟩, calls.awake⟩, obeys⟩
    · cases ran
      exact sound.replaces ops (.of rfl) rfl fun ruled => ruled
  split at ran
  · cases ran
    apply sound.replaces ops (.of rfl) rfl
    rintro ⟨mine, calls, obeys⟩
    exact disciplined_acquire_proc rfl calls.toCalls
      ⟨mine, [.waitLock], ⟨rfl, calls.staying, calls.found⟩, noProc_singleton rfl, rfl,
        calls.awake, obeys⟩
  · cases ran
    apply sound.replaces ops (.of rfl) rfl
    rintro ⟨mine, calls, obeys⟩
    exact disciplined_release calls.toCalls obeys

theorem Sound.steps_waitChild : StaysSound strict kernel ghost (.waitChild p fails pp) := by
  intro c rest next ops ran
  obtain ⟨mine, calls, obeys⟩ := (sound.head ops (.of rfl)).1
  have unlocked : Disciplined strict (kernel.cpu c).proc
      (.release (.proc pp) :: .release .waitLock :: rest) (ghost.mode c) :=
    disciplined_release calls.toCalls (disciplined_release ⟨rfl, calls.staying, calls.found⟩ obeys)
  simp only [stepOp] at ran
  split at ran
  · rename_i zombie
    cases fails with
    | true =>
      cases ran
      exact sound.replaces ops (.of rfl) rfl fun _ => unlocked
    | false =>
      cases ran
      exact ⟨ghost, sound.changesOther ops (.of rfl) (by simp [calls.held])
        ⟨rfl, calls.staying, calls.found⟩ rfl (.inr ⟨zombie, rfl⟩) unlocked, rfl⟩
  · cases ran
    exact sound.replaces ops (.of rfl) rfl fun _ => disciplined_release calls.toCalls
      ⟨mine, ⟨⟨rfl, calls.staying, calls.found⟩, calls.awake⟩, obeys⟩

end Exiting

section Forking

variable (sound : Sound strict kernel ghost) {p np : Slot} {memory : ForkMemory}

include sound

theorem Sound.steps_allocproc : StaysSound strict kernel ghost (.allocproc p memory i) := by
  intro c rest next ops ran
  simp only [stepOp] at ran
  split at ran
  · cases ran
    apply sound.replaces ops (.of rfl) rfl
    rintro ⟨mine, calls, noChild, obeys⟩
    refine disciplined_acquire calls ⟨mine, ⟨rfl, calls.staying, calls.found⟩, noChild, ?_⟩
    rwa [← calls.held]
  · cases ran
    exact sound.replaces ops (.of rfl) rfl fun ruled => ruled.2.2.2

theorem Sound.steps_allocFound : StaysSound strict kernel ghost (.allocFound p memory np) := by
  intro c rest next ops ran
  obtain ⟨mine, calls, noChild, obeys⟩ := (sound.head ops (.of rfl)).1
  simp only [stepOp] at ran
  split at ran
  · rename_i unused
    cases ran
    refine ⟨_, sound.setsFound ops (.of rfl) (some np) mine rfl rfl (fun _ => rfl) (fun _ => rfl)
      ?_ ?_, rfl⟩
    · intro other found
      cases found
      exact ⟨unused, by simp [calls.held]⟩
    refine ⟨by simp [calls.held], by simp [Lock.isProc], rfl, by simp [calls.held], calls.staying,
      rfl, noChild, ?_⟩
    rw [mine] at obeys
    rw [calls.found] at obeys
    exact obeys
  · cases ran
    refine sound.replaces ops (.of rfl) rfl fun _ => disciplined_release calls ?_
    exact ⟨mine, ⟨rfl, calls.staying, calls.found⟩, noChild, obeys⟩

theorem Sound.steps_allocpid : StaysSound strict kernel ghost (.allocpid p memory np) := by
  intro c rest next ops ran
  cases ran
  refine ⟨ghost, sound.goesOn ops (.of rfl) rfl rfl (fun _ => rfl) (fun _ => rfl) ?_, rfl⟩
  rintro ⟨mine, held, staying, found, noChild, obeys⟩
  refine ⟨by simp [held], by simp, mine, by simp [held], staying, found, noChild, obeys⟩

theorem Sound.steps_allocInit : StaysSound strict kernel ghost (.allocInit p memory np pid) := by
  intro c rest next ops ran
  obtain ⟨⟨mine, held, staying, found, noChild, obeys⟩, _, _, process⟩ :=
    sound.head ops (.of rfl)
  rw [mine] at obeys
  simp only [stepOp] at ran
  split at ran
  · cases ran
    rw [noChild] at obeys
    refine ⟨_, sound.startsChild ops (.of rfl) mine staying found rfl rfl ?_, rfl⟩
    exact ⟨by simp [held], rfl, ⟨⟨held, staying, rfl⟩, rfl⟩, obeys⟩
  cases ran
  have unused := ((process p mine).found np found).1
  refine ⟨_, sound.setsFound ops (.of rfl) none mine rfl rfl
    (field_update Process.state (by simp [freeproc, unused]))
    (field_update Process.context rfl) ?_ ?_, rfl⟩
  · intro other found
    cases found
  · exact disciplined_release ⟨held, staying, rfl⟩ obeys

theorem Sound.steps_allocTick : StaysSound strict kernel ghost (.allocTick p memory np ctime) := by
  intro c rest next ops ran
  obtain ⟨mine, forks, obeys⟩ := (sound.head ops (.of rfl)).1
  simp only [stepOp] at ran
  split at ran
  · cases ran
    exact sound.assigns ops (.of rfl) rfl rfl rfl fun _ =>
      ⟨by simp [forks.held], mine, forks, obeys⟩
  · cases ran
    refine ⟨_, sound.endsChild ops (.of rfl) mine forks rfl (.inr rfl) ?_, rfl⟩
    rw [mine] at obeys
    exact disciplined_release ⟨forks.held, forks.staying, forks.found⟩ obeys

theorem Sound.steps_forkTick : StaysSound strict kernel ghost (.forkTick p np ctime) := by
  intro c rest next ops ran
  cases ran
  refine sound.assigns ops (.of rfl) rfl rfl rfl ?_
  rintro ⟨_, forks, obeys⟩
  exact follows_forkTail forks obeys

theorem Sound.steps_publish : StaysSound strict kernel ghost (.publish np) := by
  intro c rest next ops ran
  obtain ⟨⟨forks, obeys⟩, _, idle, _⟩ := sound.head ops (.of rfl)
  cases current : (kernel.cpu c).proc with
  | none =>
    have child := forks.child
    rw [idle current] at child
    cases child
  | some q =>
    cases ran
    refine ⟨_, sound.endsChild ops (.of rfl) current forks rfl (.inl rfl) ?_, rfl⟩
    rwa [current] at obeys

end Forking

section Calls

variable (sound : Sound strict kernel ghost) {p : Slot}

include sound

theorem Sound.steps_readTicks : StaysSound strict kernel ghost (.readTicks caller) := by
  intro c rest next ops ran
  cases ran
  apply sound.replaces ops (.of rfl) rfl
  rintro ⟨held, same, ruled⟩
  refine ⟨by simp [same], by simp, ?_⟩
  rw [same, List.erase_cons_head]
  cases caller with
  | scheduler => exact ruled
  | sched q => exact ruled
  | allocproc q memory np => exact ruled
  | fork q np => exact ruled
  | syscall => exact ruled

theorem Sound.steps_readKilled : StaysSound strict kernel ghost (.readKilled p caller) := by
  intro c rest next ops ran
  cases ran
  apply sound.replaces ops (.of rfl) rfl
  rintro ⟨mine, held, calls, _, ruled⟩
  apply disciplined_release calls
  have after : Calls held { ghost.mode c with held := held } := ⟨rfl, calls.staying, calls.found⟩
  cases caller with
  | usertrap =>
    obtain ⟨rfl, noChild, awake, obeys⟩ := ruled
    cases (kernel.proc p).killed with
    | false => exact obeys
    | true =>
      refine ⟨⟨p, mine⟩, ?_⟩
      rw [Mode.holding, Mode.mk.injEq]
      exact ⟨rfl, after.staying, after.found, noChild, awake⟩
  | sysSleep ticks0 n =>
    obtain ⟨rfl, awake, obeys⟩ := ruled
    cases (kernel.proc p).killed with
    | true => exact disciplined_release after obeys
    | false => exact ⟨⟨p, mine⟩, ⟨after, awake⟩, rfl, mine, ⟨after, awake⟩, obeys⟩
  | wait fails =>
    obtain ⟨rfl, awake, obeys⟩ := ruled
    cases (kernel.proc p).killed with
    | true => exact disciplined_release after obeys
    | false => exact ⟨⟨p, mine⟩, ⟨after, awake⟩, rfl, mine, ⟨after, awake⟩, obeys⟩
  | client => exact ruled

theorem Sound.steps_sleepLoop : StaysSound strict kernel ghost (.sleepLoop p ticks0 n) := by
  intro c rest next ops ran
  simp only [stepOp] at ran
  split at ran
  · cases ran
    apply sound.replaces ops (.of rfl) rfl
    rintro ⟨mine, calls, obeys⟩
    exact disciplined_acquire_proc rfl calls.toCalls
      ⟨mine, [.tickslock], ⟨rfl, calls.staying, calls.found⟩, noProc_singleton rfl, rfl,
        calls.awake, obeys⟩
  · cases ran
    apply sound.replaces ops (.of rfl) rfl
    rintro ⟨_, calls, obeys⟩
    exact disciplined_release calls.toCalls obeys

theorem Sound.steps_pslist (ops : (kernel.cpu c).ops = .pslist fails i :: rest)
    (ran : stepOp kernel c rest (.pslist fails i) = some next)
    (admitted : ∀ bound : i < nproc, ¬ (kernel.proc ⟨i, bound⟩).ListingSleeps) :
    Preserves strict ghost (.pslist fails i) next := by
  simp only [stepOp] at ran
  split at ran
  · rename_i bound
    split at ran
    · cases ran
      exact sound.replaces ops (.of rfl) rfl fun ruled => ruled
    rename_i active
    cases ran
    refine sound.assigns ops (.of rfl) rfl (state_listed _ active (admitted bound))
      (context_listed _) fun ruled => ?_
    split
    · exact ruled.2
    · exact ruled
  · cases ran
    exact sound.replaces ops (.of rfl) rfl fun ruled => ruled.2

theorem Sound.steps_kerneltrapYield : StaysSound strict kernel ghost .kerneltrapYield := by
  intro c rest next ops ran
  simp only [stepOp] at ran
  split at ran
  · cases ran
    exact sound.replaces ops (.of rfl) rfl fun ruled => ruled.2
  rename_i q current
  split at ran
  · cases ran
    exact sound.replaces ops (.of rfl) rfl fun ruled => ⟨⟨q, current⟩, ruled⟩
  · cases ran
    exact sound.replaces ops (.of rfl) rfl fun ruled => ruled.2

theorem Sound.steps_call (ops : (kernel.cpu c).ops = op :: rest)
    (ran : stepOp kernel c rest op = some next)
    (call : op = .yield ∨ op = .forkret ∨ (∃ chan lk, op = .sleep chan lk) ∨ op = .setkilled ∨
      (∃ fails, op = .wait fails) ∨ (∃ memory, op = .fork memory) ∨ (∃ n, op = .sleepStart n) ∨
      op = .killedExit) : Preserves strict ghost op next := by
  have mine : op.Plain → ∃ q, (kernel.cpu c).proc = some q := by
    intro plain
    have ruled := (sound.head ops plain).1
    rcases call with rfl | rfl | ⟨chan, lk, rfl⟩ | rfl | ⟨fails, rfl⟩ | ⟨memory, rfl⟩ | ⟨n, rfl⟩ | rfl
    · exact ruled.1
    · exact ⟨_, ruled.choose_spec.1⟩
    all_goals exact ruled.1
  rcases call with rfl | rfl | ⟨chan, lk, rfl⟩ | rfl | ⟨fails, rfl⟩ | ⟨memory, rfl⟩ | ⟨n, rfl⟩ | rfl
  all_goals
    cases ran
    apply sound.replacesCall ops (.of rfl) rfl (mine (.of rfl))
  · rintro q ⟨_, calls, obeys⟩
    exact follows_yieldBody calls obeys
  · rintro q ⟨r, same, mode, obeys⟩
    cases same
    rw [mode] at obeys ⊢
    exact ⟨by simp [Mode.holding], by simp [Mode.holding], ⟨q, rfl⟩,
      ⟨⟨by simp [Mode.holding], rfl, rfl⟩, rfl⟩, ⟨by simp [Mode.holding], rfl, rfl⟩,
      by simpa [Mode.holding] using obeys⟩
  · rintro q ⟨_, calls, client, obeys⟩
    exact follows_sleepBody calls client obeys
  · rintro q ⟨_, calls, obeys⟩
    refine follows_visit ?_ ⟨rfl, calls.staying, calls.found⟩ (fun holds => holds) obeys
    simp [Mode.NoProc, calls.held]
  · rintro q ⟨_, calls, obeys⟩
    refine ⟨by simp [calls.held], by simp [Lock.isProc], rfl,
      ⟨⟨by simp [calls.held], calls.staying, calls.found⟩, calls.awake⟩, ?_⟩
    rwa [← calls.held]
  · rintro q ⟨_, calls, noChild, obeys⟩
    exact ⟨rfl, calls, noChild, obeys⟩
  · rintro q ⟨_, calls, obeys⟩
    exact ⟨rfl, calls, obeys⟩
  · rintro q ⟨_, mode, obeys⟩
    rw [mode] at obeys ⊢
    exact ⟨by simp [Mode.holding], by simp [Mode.NoProc, Mode.holding], rfl, [],
      ⟨by simp [Mode.holding], rfl, rfl⟩, by simp [Mode.NoProc], rfl, rfl, rfl, obeys⟩

end Calls
end Xv6.Proc
