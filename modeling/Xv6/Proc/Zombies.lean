import Xv6.Proc.Reaping

/-!
# The steps of `fork`, `exit` and `wait`

One lemma for each operation that changes a parent field, a stage, or whether a
process is published, a `ZOMBIE` or asleep in `wait`.
-/

namespace Xv6.Proc

open Function Xv6.Semantics

variable {ncpu : Nat} {kernel next : Kernel ncpu} {ghost : Ghost ncpu} {c : Fin ncpu}
  {history : List Event} {infant : Infants} {stage : Fin ncpu → Stage} {op : Op} {rest : List Op}

/-- A step to a state with the invariant, with the call that the step makes recorded. -/
def KeepsKin (kernel : Kernel ncpu) (history : List Event) (c : Fin ncpu) (op : Op)
    (next : Kernel ncpu) : Prop :=
  ∃ infant stage, Kinship next ((eventOf kernel c op).toList ++ history) infant stage

/-- From the state, the operation leads only to states with the invariant. -/
def StaysKin (kernel : Kernel ncpu) (history : List Event) (op : Op) : Prop :=
  ∀ {c rest next}, (kernel.cpu c).ops = op :: rest → stepOp kernel c rest op = some next →
    KeepsKin kernel history c op next

theorem Moves.goto {changed : Kernel ncpu} (cpus : changed.cpu = kernel.cpu) (push : List Op) :
    Moves c push kernel (changed.goto c push) where
  cpus := fun d other => by simp [other, cpus]
  proc := by simp [cpus]
  context := by simp [cpus]
  ops := by simp

theorem Moves.assign (p : Slot) (process : Process) (push : List Op) :
    Moves c push kernel ((kernel.setProc p process).goto c push) :=
  .goto (kernel.setProc_cpu p process) push

section Steps

variable (known : Kinship kernel history infant stage) (sound : Sound False kernel ghost)
include known sound

/-- A step after which the thread is at another stage, on the same side of `wait_lock`. -/
theorem Kinship.passes (ops : (kernel.cpu c).ops = op :: rest) (forward : op.Forward)
    (moves : Moves c push kernel next)
    (owner : next.owner .waitLock = kernel.owner .waitLock)
    (undisturbed : Undisturbed kernel.proc next.proc) (parks : Parks c kernel next history infant)
    (entered : Stage) (same : stage c = .outside → entered = .outside)
    (holds : stage c ≠ .outside → entered ≠ .outside) (knows : entered.Knows next.proc)
    (relates : Relates (kernel.cpu c).proc push
      (placeOf history infant entered (kernel.cpu c).proc)) :
    ∃ infant stage, Kinship next history infant stage := by
  by_cases outside : stage c = .outside
  · obtain rfl := same outside
    refine ⟨infant, stage, known.goesOn sound ops forward moves owner undisturbed parks fun _ => ?_⟩
    rwa [outside]
  · obtain ⟨steady, used⟩ := undisturbed
    exact ⟨infant, _, known.turns sound ops forward moves owner parks
      (known.family.frame_used steady.remains used) outside (holds outside) knows
      (fun _ _ _ => ⟨rfl, rfl⟩) relates⟩

theorem Kinship.steps_wakeup : StaysKin kernel history (.wakeup chan i) := by
  intro c rest next ops ran
  have ruled := (known.head ops (.of rfl)).1
  simp only [kin, placeOf_stage, placeOf_enter] at ruled
  have knows := known.knows c
  have goesTo : ∀ push entered, (stage c = .outside → entered = .outside) →
      (stage c ≠ .outside → entered ≠ .outside) → entered.Knows kernel.proc →
      Relates (kernel.cpu c).proc push (placeOf history infant entered (kernel.cpu c).proc) →
      ∃ infant stage, Kinship (kernel.goto c push) history infant stage := fun push =>
    known.passes sound ops (.of rfl) (.goto rfl push) rfl (.refl _) (.same rfl)
  simp only [stepOp] at ran
  split at ran
  · rename_i bound
    have visits := Stage.wakeup_visit (q := ⟨i, bound⟩) ruled
    split at ran <;> cases ran
    · -- the caller is passed over: it is running
      rename_i mine
      have calls := (sound.head ops (.of rfl)).1.1
      have isRunning := sound.running_of_staying ops (.of rfl) mine calls.staying
      refine goesTo _ ((stage c).visited (i + 1)) ?_ Stage.visited_ne_outside ?_ ?_
      · intro outside
        rw [outside]
        rfl
      · refine knows.visit visits fun _ isAsleep => ?_
        rw [isAsleep.1] at isRunning
        cases isRunning
      · simpa only [relates_cons, kin, placeOf_stage, placeOf_enter]
          using Stage.wakeup_skip ruled
    · apply goesTo _ (stage c) id id knows
      simpa only [relates_cons, kin, Place.acquire, reduceCtorEq, if_false, placeOf_stage,
        placeOf_enter] using visits
  rename_i all
  cases ran
  refine goesTo _ (stage c).woken ?_ Stage.woken_ne_outside
    (knows.ended ruled (Nat.le_of_not_lt all)) (Stage.wakeup_end ruled)
  intro outside
  rw [outside]
  rfl

theorem Kinship.steps_wake : StaysKin kernel history (.wake chan q) := by
  intro c rest next ops ran
  have ruled := (known.head ops (.of rfl)).1
  simp only [kin, placeOf_stage, placeOf_enter] at ruled
  have outside : stage c = .outside → (stage c).visited (q.val + 1) = .outside := by
    intro isOutside
    rw [isOutside]
    rfl
  have relates := Stage.wake_visited ruled
  simp only [stepOp] at ran
  split at ran <;> cases ran
  · rename_i hit
    have undisturbed : Undisturbed kernel.proc
        (update kernel.proc q { kernel.proc q with state := .runnable }) := by
      refine .update (.of_awake rfl rfl rfl (.inl hit.1) (.inl rfl)) fun isUsed => ?_
      rw [hit.1] at isUsed
      cases isUsed
    refine known.passes sound ops (.of rfl) (.assign _ _ rest) rfl undisturbed
      (.update rfl fun _ _ => .inl ⟨.inr (.inr hit.1), rfl⟩) _ outside
      Stage.visited_ne_outside ?_ relates
    refine ((known.knows c).frame undisturbed.steady).visit ruled fun _ isAsleep => ?_
    simpa using isAsleep.1
  rename_i missed
  refine known.passes sound ops (.of rfl) (.goto rfl rest) rfl (.refl _) (.same rfl) _ outside
    Stage.visited_ne_outside ?_ relates
  refine (known.knows c).visit ruled fun sameChan isAsleep => missed ?_
  rw [sameChan]
  exact isAsleep

theorem Kinship.steps_exit : StaysKin kernel history (.exit status) := by
  intro c rest next ops ran
  obtain ⟨staying, childless, outside⟩ := (known.head ops (.of rfl)).1
  have panics : ∀ message, Kinship (kernel.stops c message rest) history infant stage := fun _ =>
    known.proceeds sound ops (.of rfl) (.goto rfl _) rfl rfl fun _ => trivial
  unfold KeepsKin
  simp only [stepOp, eventOf] at ran ⊢
  cases mine : kernel.myproc c with
  | none =>
    rw [mine] at ran
    cases ran
    exact ⟨infant, stage, panics _⟩
  | some p =>
    rw [mine] at ran
    simp only at ran ⊢
    split at ran
    · rename_i isInit
      cases ran
      rw [if_pos isInit]
      exact ⟨infant, stage, panics _⟩
    rename_i notInit
    cases ran
    rw [if_neg notInit]
    have mine : (kernel.cpu c).proc = some p := mine
    rw [mine] at staying childless
    rw [placeOf_stage] at outside
    have notExited : exitOf p history = none := Option.map_eq_none_iff.mp staying
    have mode := (sound.head ops (.of rfl)).1.2
    have isRunning := sound.running_of_staying ops (.of rfl) mine (by rw [mode]; rfl)
    refine ⟨infant, stage, known.acts sound (known.head ops (.of rfl)).2 (.goto rfl _) (.same rfl)
      (known.family.exits_of notExited notInit (.inr (.inr isRunning))) known.lock
      known.knows known.free (fun _ _ => rfl)
      (fun q notMine _ => ⟨exitOf_exit_of_ne (ne_current mine notMine).symm, rfl⟩) ?_⟩
    rw [mine, outside]
    have infantNone : infant p = none := childless
    simp [placeOf, exitBody, kin, Place.acquire, notInit, infantNone, Stage.Settled]

theorem Kinship.steps_reparent : StaysKin kernel history (.reparent p i) := by
  intro c rest next ops ran
  obtain ⟨mine, notInit, exiting, atStage, relates⟩ := (known.head ops (.of rfl)).1
  rw [mine] at exiting
  rw [placeOf_stage] at atStage
  rw [placeOf_enter] at relates
  have exited : exitOf p history ≠ none := fun staying => exiting (by simp [placeOf, staying])
  have inside : stage c ≠ .outside := by
    rcases atStage with ⟨_, isStage⟩ | isStage <;> simp [isStage]
  have knows : AllAwake kernel.proc ∧ ChildlessBelow kernel.proc p i := by
    have atLeast := known.knows c
    rcases atStage with ⟨rfl, isStage⟩ | isStage
    · rw [isStage] at atLeast
      exact ⟨atLeast, fun _ below => absurd below (by omega)⟩
    · rwa [isStage] at atLeast
  simp only [stepOp] at ran
  split at ran
  · rename_i bound
    split at ran <;> cases ran
    · rename_i isParent
      refine ⟨infant, _, known.turns sound ops (.of rfl) (.assign _ _ _) rfl
        (.update rfl fun _ live => .inl ⟨live, rfl⟩)
        (known.family.reparented isParent exited rfl rfl rfl rfl) inside Stage.noConfusion
        (AwakeBut.hands knows.1 knows.2 notInit bound rfl rfl rfl) (fun _ _ _ => ⟨rfl, rfl⟩) ?_⟩
      rw [mine] at relates ⊢
      simpa [kin, Stage.wakeup, notInit, placeOf, exited, eventOf] using relates
    rename_i notParent
    refine ⟨infant, _, known.learns sound ops (.of rfl) (.goto rfl _) rfl rfl inside
      (Stage.noConfusion : Stage.reparents p (i + 1) ≠ .outside) ⟨knows.1, ?_⟩ ?_⟩
    · intro pp below
      by_cases here : pp = ⟨i, bound⟩
      · rw [here]
        exact notParent
      · exact knows.2 pp (below_succ below here)
    · rw [mine] at relates ⊢
      simpa [kin, notInit, placeOf, exited] using relates
  cases ran
  refine ⟨infant, _, known.learns sound ops (.of rfl) (.goto rfl _) rfl rfl inside
    (Stage.noConfusion : Stage.childless p ≠ .outside) ⟨knows.1, fun pp below => knows.2 pp ?_⟩ relates⟩
  omega

theorem Kinship.steps_wakeParent : StaysKin kernel history (.wakeParent p) := by
  intro c rest next ops ran
  obtain ⟨mine, atStage, relates⟩ := (known.head ops (.of rfl)).1
  rw [placeOf_stage] at atStage
  have knows := known.knows c
  rw [atStage] at knows
  have calls := (sound.head ops (.of rfl)).1.1
  have isRunning := sound.running_of_staying ops (.of rfl) mine calls.staying
  cases ran
  refine ⟨infant, _, known.learns sound ops (.of rfl) (.goto rfl _) rfl rfl (by simp [atStage])
    (Stage.noConfusion : Stage.wakes p (kernel.proc p).parent 0 ≠ .outside)
    ⟨knows.1, knows.2, .inr (.inr isRunning), rfl, fun _ _ below => absurd below (by omega)⟩ ?_⟩
  simpa [kin, Stage.wakeup] using relates (kernel.proc p).parent

theorem Kinship.steps_becomeZombie : StaysKin kernel history (.becomeZombie p status) := by
  intro c rest next ops ran
  obtain ⟨notInit, exiting, noInfant, ⟨parent, atStage⟩, relates⟩ := (known.head ops (.of rfl)).1
  have mine := (sound.head ops (.of rfl)).1.1
  rw [mine] at exiting noInfant
  rw [placeOf_stage] at atStage
  rw [placeOf_enter] at relates
  have knows := known.knows c
  rw [atStage] at knows
  cases ran
  exact ⟨infant, _, known.turns sound ops (.of rfl) (.assign _ _ _) rfl
    (.update rfl fun notMine => absurd mine notMine)
    (known.family.zombie_of notInit exiting noInfant knows.2.2.1 knows.2.1 rfl rfl rfl rfl)
    (by simp [atStage]) (Stage.noConfusion : Stage.inside ≠ .outside)
    (AllAwake.zombie_of knows rfl) (fun _ _ _ => ⟨rfl, rfl⟩) relates⟩

theorem Kinship.steps_waitScan : StaysKin kernel history (.waitScan p fails havekids i) := by
  intro c rest next ops ran
  obtain ⟨mine, staying, atStage, relates⟩ := (known.head ops (.of rfl)).1
  rw [mine] at staying relates
  rw [placeOf_stage] at atStage
  have inside : stage c ≠ .outside := by
    rcases atStage with ⟨_, isStage⟩ | isStage <;> simp [isStage]
  have knows : AllAwake kernel.proc ∧ ScannedBelow kernel.proc p i := by
    have atLeast := known.knows c
    rcases atStage with ⟨rfl, isStage⟩ | isStage
    · rw [isStage] at atLeast
      exact ⟨atLeast, fun _ below => absurd below (by omega)⟩
    · rwa [isStage] at atLeast
  have goesTo : ∀ push entered, entered ≠ .outside → entered.Knows kernel.proc →
      Relates (some p) push (placeOf history infant entered (some p)) →
      ∃ infant stage, Kinship (kernel.goto c push) history infant stage :=
    fun push entered holds knows relates => ⟨infant, _, known.learns sound ops (.of rfl)
      (.goto rfl push) rfl rfl inside holds knows (by rwa [mine])⟩
  have notExiting : Option.map Prod.snd (exitOf p history) = none := staying
  simp only [stepOp] at ran
  split at ran
  · rename_i bound
    split at ran <;> cases ran
    · rename_i isParent
      apply goesTo _ (.visits p ⟨i, bound⟩) Stage.noConfusion ⟨knows.1, knows.2, fun _ => isParent⟩
      simpa [kin, Place.acquire, placeOf, notExiting] using relates
    rename_i notParent
    refine goesTo _ (.scans p (i + 1)) Stage.noConfusion ⟨knows.1, ?_⟩ ?_
    · intro pp below isParent
      have ne : pp ≠ ⟨i, bound⟩ := by
        rintro rfl
        exact notParent isParent
      exact knows.2 pp (below_succ below ne) isParent
    · simpa [kin, placeOf, notExiting] using relates
  have scanned : ScannedBelow kernel.proc p nproc := fun pp below => knows.2 pp (by omega)
  split at ran <;> cases ran
  · apply goesTo _ (.scans p nproc) Stage.noConfusion ⟨knows.1, scanned⟩
    simpa [kin, Place.acquire, KilledCaller.kin, placeOf, notExiting] using relates
  · apply goesTo _ (.scans p nproc) Stage.noConfusion ⟨knows.1, scanned⟩
    simpa [kin, Stage.Settled, placeOf] using relates

theorem Kinship.steps_waitChild : StaysKin kernel history (.waitChild p fails pp) := by
  intro c rest next ops ran
  obtain ⟨mine, staying, atStage, relates⟩ := (known.head ops (.of rfl)).1
  rw [mine] at staying relates
  rw [placeOf_stage] at atStage
  have inside : stage c ≠ .outside := by simp [atStage]
  obtain ⟨awake, scanned, isParent⟩ : (Stage.visits p pp).Knows kernel.proc := by
    have knows := known.knows c
    rwa [atStage] at knows
  have notExiting : Option.map Prod.snd (exitOf p history) = none := staying
  unfold KeepsKin
  simp only [stepOp, eventOf] at ran ⊢
  split at ran
  · rename_i isZombie
    cases ran
    cases fails with
    | true =>
      rw [if_pos rfl, if_neg (by simp)]
      refine ⟨infant, _, known.learns sound ops (.of rfl) (.goto rfl _) rfl rfl inside
        (Stage.noConfusion : Stage.inside ≠ .outside) awake ?_⟩
      rw [mine]
      simpa [kin, Stage.Settled, placeOf] using relates
    | false =>
      rw [if_neg Bool.false_ne_true, if_pos ⟨isZombie, rfl⟩]
      have calls := (sound.head ops (.of rfl)).1.2.1
      have isRunning := sound.running_of_staying ops (.of rfl) mine calls.staying
      have notMe : pp ≠ p := by
        rintro rfl
        rw [isZombie] at isRunning
        cases isRunning
      -- nobody executes the child: `wait` holds its lock
      have nowhere := sound.not_current ops (.of rfl) calls.staying (p := pp)
        (by simp [calls.held]) (by simp [isZombie])
      refine ⟨infant, _, known.turns sound ops (.of rfl) (.assign _ _ _) rfl (.update rfl ?_)
        (known.family.reaped isZombie (isParent isZombie) (Option.map_eq_none_iff.mp staying) rfl
          rfl) inside (Stage.noConfusion : Stage.inside ≠ .outside)
        (AllAwake.reaped awake rfl rfl) ?_ ?_⟩
      · intro _ live
        simp [freeproc, ProcState.Live] at live
      · intro q _ present
        have ne : pp ≠ q := by
          rintro rfl
          rcases present with ⟨d, current⟩ | live
          · exact nowhere d current
          · simp [freeproc, ProcState.Live] at live
        exact ⟨exitOf_reap_of_ne _ ne, rfl⟩
      · rw [mine]
        simpa [kin, Stage.Settled, placeOf, exitOf_reap_of_ne _ notMe] using relates
  rename_i notZombie
  cases ran
  rw [if_neg (by simp [notZombie])]
  refine ⟨infant, _, known.learns sound ops (.of rfl) (.goto rfl _) rfl rfl inside
    (Stage.noConfusion : Stage.scans p (pp.val + 1) ≠ .outside) ⟨awake, ?_⟩ ?_⟩
  · intro q below childOf
    by_cases same : q = pp
    · rw [same]
      exact notZombie
    · exact scanned q (below_succ below same) childOf
  · rw [mine]
    simpa [kin, placeOf, notExiting] using relates

variable {p : Slot}

/-- `allocproc` takes a free entry, or frees it again for want of memory. -/
theorem Kinship.steps_allocInit : StaysKin kernel history (.allocInit p memory np pid) := by
  intro c rest next ops ran
  obtain ⟨⟨staying, noInfant, outside⟩, relates⟩ := (known.head ops (.of rfl)).1
  obtain ⟨mine, _, stays, found, _⟩ := (sound.head ops (.of rfl)).1
  have isRunning := sound.running_of_staying ops (.of rfl) mine stays
  have isUnused := (((sound.head ops (.of rfl)).2.2.2 p mine).found np found).1
  rw [mine] at staying noInfant relates
  rw [placeOf_stage] at outside
  have notMe : np ≠ p := by
    rintro rfl
    rw [isUnused] at isRunning
    cases isRunning
  simp only [stepOp] at ran
  split at ran <;> cases ran
  · have steady : Steady kernel.proc (update kernel.proc np { kernel.proc np with
        pid := pid
        state := .used
        context := [.forkret]
        tokenBucket := 64 }) :=
      .update (.of_inert (.inl isUnused) (.inr (.inl rfl)) (.inl rfl))
    refine ⟨update infant p (some (np, false)), stage,
      known.acts sound (known.head ops (.of rfl)).2 (.assign _ _ _) (.update rfl ?_) ?_ known.lock
        (fun d => (known.knows d).frame steady) (fun unowned => (known.free unowned).frame steady)
        (fun _ _ => rfl) (fun q notMine _ => ⟨rfl, update_of_ne (ne_current mine notMine) _ _⟩) ?_⟩
    · intro _ _
      have notExited : exitOf np history = none := by
        by_contra called
        obtain ⟨⟨pid, status⟩, called⟩ := Option.ne_none_iff_exists'.mp called
        obtain ⟨_, alive | ⟨zombie, _⟩⟩ := known.family.exits np pid status called
        · exact alive.ne_unused isUnused
        · rw [isUnused] at zombie
          cases zombie
      have noChild : infant np = none := by
        by_contra bears
        obtain ⟨⟨child, named⟩, bears⟩ := Option.ne_none_iff_exists'.mp bears
        exact (known.family.infants np child named bears).1.ne_unused isUnused
      simp [kin, Ends, placeOf, Place.elsewhere, notMe, noChild, notExited, eventOf]
    · exact known.family.bears steady (.inr (.inr isRunning)) isUnused (by simp)
        fun q other => by simp [other]
    rw [mine]
    have notExiting : Option.map Prod.snd (exitOf p history) = none := staying
    have bare : infant p = none := noInfant
    simpa [kin, UptimeCaller.kin, Place.Bears, placeOf, outside, notExiting, bare,
      eventOf] using relates
  refine ⟨infant, stage, known.assigns sound ops (.of rfl) (.assign _ _ _) rfl rfl
    (.of_inert (.inl isUnused) (.inl rfl) (.inr rfl)) ?_ ?_ ?_⟩
  · intro _ live
    simp [freeproc, ProcState.Live] at live
  · intro isUsed
    rw [isUnused] at isUsed
    cases isUsed
  · intro _
    rw [mine]
    simpa [kin] using relates

theorem Kinship.steps_allocTick : StaysKin kernel history (.allocTick p memory np ctime) := by
  intro c rest next ops ran
  obtain ⟨⟨staying, bears, outside⟩, relates⟩ := (known.head ops (.of rfl)).1
  have mine := (sound.head ops (.of rfl)).1.1
  rw [mine] at staying bears relates
  rw [placeOf_stage] at outside
  have bears : infant p = some (np, false) := bears
  have isUsed := (known.family.infants p np false bears).2.1
  simp only [stepOp] at ran
  split at ran <;> cases ran
  · refine ⟨infant, stage, known.rewrites sound ops (.of rfl) (.assign _ _ _) rfl rfl rfl rfl rfl rfl
      rfl rfl fun _ => ?_⟩
    rw [mine]
    have notExiting : Option.map Prod.snd (exitOf p history) = none := staying
    simpa [kin, UptimeCaller.kin, Place.Bears, placeOf, notExiting, bears, outside] using relates
  have steady : Steady kernel.proc (update kernel.proc np (freeproc
      { kernel.proc np with
        lastScheduledTick := ctime
        ticks := 0
        tokenBucket := (kernel.proc p).tokenBucket })) :=
    .update (.of_inert (.inr isUsed) (.inl rfl) (.inr rfl))
  refine ⟨update infant p none, stage,
    known.acts sound (known.head ops (.of rfl)).2 (.assign _ _ _) (.update rfl ?_) ?_ known.lock
      (fun d => (known.knows d).frame steady) (fun unowned => (known.free unowned).frame steady)
      (fun _ _ => rfl) (fun q notMine _ => ⟨rfl, update_of_ne (ne_current mine notMine) _ _⟩) ?_⟩
  · intro _ live
    simp [freeproc, ProcState.Live] at live
  · exact known.family.buries steady bears fun q other => by simp [other]
  · rw [mine]
    simpa [kin, placeOf, eventOf] using relates

theorem Kinship.steps_setParent : StaysKin kernel history (.setParent np p) := by
  intro c rest next ops ran
  obtain ⟨mine, staying, bears, atStage, relates⟩ := (known.head ops (.of rfl)).1
  rw [mine] at staying bears relates
  rw [placeOf_stage] at atStage
  have calls := (sound.head ops (.of rfl)).1.1
  have isRunning := sound.running_of_staying ops (.of rfl) mine calls.staying
  have awake := known.knows c
  rw [atStage] at awake
  cases ran
  refine ⟨update infant p (some (np, true)), _, known.turns sound ops (.of rfl)
    (.assign _ _ _) rfl (.update rfl fun _ live => .inl ⟨live, rfl⟩)
    (known.family.adopts bears (Option.map_eq_none_iff.mp staying) (.inr (.inr isRunning)) rfl rfl)
    (by simp [atStage]) (Stage.noConfusion : Stage.inside ≠ .outside)
    (AllAwake.adopts awake (known.family.infants p np false bears).2.1 rfl rfl)
    (fun q notMine _ => ⟨rfl, update_of_ne (ne_current mine notMine) _ _⟩) ?_⟩
  rw [mine]
  simpa [placeOf, atStage, eventOf] using relates

theorem Kinship.steps_publish : StaysKin kernel history (.publish np) := by
  intro c rest next ops ran
  obtain ⟨bears, relates⟩ := (known.head ops (.of rfl)).1
  cases mine : (kernel.cpu c).proc with
  | none =>
    rw [mine] at bears
    cases bears
  | some p =>
    rw [mine] at bears relates
    obtain ⟨_, isUsed, named⟩ := known.family.infants p np true bears
    have steady : Steady kernel.proc
        (update kernel.proc np { kernel.proc np with state := .runnable }) :=
      .update (.of_inert (.inr isUsed) (.inr (.inr ⟨rfl, named rfl⟩)) (.inl rfl))
    cases ran
    refine ⟨update infant p none, stage,
      known.acts sound (known.head ops (.of rfl)).2 (.assign _ _ _)
        (.update rfl fun _ _ => .inl ⟨.inl isUsed, rfl⟩) ?_ known.lock
        (fun d => (known.knows d).frame steady) (fun unowned => (known.free unowned).frame steady)
        (fun _ _ => rfl) (fun q notMine _ => ⟨rfl, update_of_ne (ne_current mine notMine) _ _⟩) ?_⟩
    · exact known.family.buries steady bears fun q other => by simp [other]
    · rw [mine]
      simpa [placeOf, eventOf] using relates

end Steps

end Xv6.Proc
