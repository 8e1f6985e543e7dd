import Xv6.Proc.Relatives

/-!
# Threads and their families

Every thread follows the discipline of `kin` from a place that agrees with the
recorded calls, and the holder of `wait_lock` knows what its stage says. Frame
rules reduce a step of one CPU to what it does to its own thread and to the
process table.
-/

namespace Xv6.Proc

open Function Xv6.Semantics

variable {ncpu : Nat} {kernel next : Kernel ncpu} {ghost : Ghost ncpu} {c : Fin ncpu}
  {history after : List Event} {infant bears : Infants} {stage moved : Fin ncpu → Stage}
  {op : Op} {rest push : List Op}

/-- The operations that do not follow a switch to the scheduler. -/
def Op.Forward (op : Op) : Prop := ∀ currentTick p, op ≠ .back currentTick p

def Op.isBack : Op → Bool
  | .back .. => true
  | _ => false

theorem Op.Forward.of (notBack : op.isBack = false) : op.Forward := by
  rintro t p rfl
  cases notBack

/-- The place of a thread. -/
def placeOf (history : List Event) (infant : Infants) (stage : Stage) : Option Slot → Place
  | some p => ⟨(exitOf p history).map Prod.snd, infant p, stage⟩
  | none => .elsewhere stage

@[simp] theorem placeOf_stage (history : List Event) (infant : Infants) (stage : Stage)
    (me : Option Slot) : (placeOf history infant stage me).stage = stage := by
  cases me <;> rfl

@[simp] theorem placeOf_enter (history : List Event) (infant : Infants) (stage entered : Stage)
    (me : Option Slot) : { placeOf history infant stage me with stage := entered } =
      placeOf history infant entered me := by
  cases me <;> rfl

/-- A CPU executes a process or its scheduler, or has just been switched back to it. -/
inductive Located (kernel : Kernel ncpu) (history : List Event) (infant : Infants) (stage : Stage)
    (c : Fin ncpu) : Prop where
  | running (relates : Relates (kernel.cpu c).proc (kernel.cpu c).ops
        (placeOf history infant stage (kernel.cpu c).proc))
      (scheduler : ∀ p, (kernel.cpu c).proc = some p → ∃ currentTick rest,
        (kernel.cpu c).context = .back currentTick p :: rest ∧
          Relates none rest (.elsewhere .outside))
  | returning {currentTick p rest} (current : (kernel.cpu c).proc = some p)
      (ops : (kernel.cpu c).ops = .back currentTick p :: rest) (left : stage = .outside)
      (relates : Relates none rest (.elsewhere .outside))

/-- The invariant of `fork`, `exit` and `wait`. -/
structure Kinship (kernel : Kernel ncpu) (history : List Event) (infant : Infants)
    (stage : Fin ncpu → Stage) : Prop where
  family : Family kernel.proc history infant
  lock : ∀ c, stage c ≠ .outside ↔ kernel.owner .waitLock = some c
  knows : ∀ c, (stage c).Knows kernel.proc
  free : kernel.owner .waitLock = none → AllAwake kernel.proc
  cpus : ∀ c, Located kernel history infant (stage c) c
  parked : ∀ p, (kernel.proc p).state.Live → (∀ c, ¬ (kernel.cpu c).Executing p) →
    Relates (some p) (kernel.proc p).context (placeOf history infant .outside (some p))

/-- CPU `c` goes on with the operations `push` of the same thread. -/
structure Moves (c : Fin ncpu) (push : List Op) (kernel next : Kernel ncpu) : Prop where
  cpus : ∀ d, d ≠ c → next.cpu d = kernel.cpu d
  proc : (next.cpu c).proc = (kernel.cpu c).proc
  context : (next.cpu c).context = (kernel.cpu c).context
  ops : (next.cpu c).ops = push

theorem Relates.ne_back
    (relates : Relates me ops place) (currentTick : Nat) (p : Slot) (rest : List Op) :
    ops ≠ .back currentTick p :: rest := by
  rintro rfl
  exact relates

/-- What the thread `me` needs for going on with `push` in the place of `op`. -/
def Resumes (me : Option Slot) (op : Op) (rest push : List Op) (place : Place) : Prop :=
  kin me op (Relates me rest) place → Relates me push place

/-- A process that waits for a CPU after a step of CPU `c` did before, or relates to its place. -/
def Parks (c : Fin ncpu) (kernel next : Kernel ncpu) (after : List Event) (bears : Infants) : Prop :=
  ∀ q, (kernel.cpu c).proc ≠ some q → (next.proc q).state.Live →
    (kernel.proc q).state.Live ∧ (next.proc q).context = (kernel.proc q).context ∨
      Relates (some q) (next.proc q).context (placeOf after bears .outside (some q))

theorem Parks.same (procs : next.proc = kernel.proc) : Parks c kernel next after bears := by
  intro q _ live
  rw [procs] at live ⊢
  exact .inl ⟨live, rfl⟩

theorem Parks.update (procs : next.proc = Function.update kernel.proc p process)
    (changed : (kernel.cpu c).proc ≠ some p → process.state.Live →
      (kernel.proc p).state.Live ∧ process.context = (kernel.proc p).context ∨
        Relates (some p) process.context (placeOf after bears .outside (some p))) :
    Parks c kernel next after bears := by
  intro q notMine live
  rw [procs] at live ⊢
  obtain rfl | same := eq_or_ne q p
  · rw [update_self] at live ⊢
    exact changed notMine live
  · rw [update_of_ne same] at live ⊢
    exact .inl ⟨live, rfl⟩

/-- A change of the table that concerns neither the families nor an unpublished child. -/
structure Undisturbed (table changed : Table) : Prop where
  steady : Steady table changed
  used : ∀ p, (table p).state = .used →
    (changed p).state = .used ∧ (changed p).parent = (table p).parent

theorem Undisturbed.refl (table : Table) : Undisturbed table table :=
  ⟨.refl table, fun _ isUsed => ⟨isUsed, rfl⟩⟩

theorem Undisturbed.update (steady : (table p).Steady process p)
    (used : (table p).state = .used → process.state = .used ∧
      process.parent = (table p).parent) : Undisturbed table (update table p process) := by
  refine ⟨.update steady, fun q isUsed => ?_⟩
  obtain rfl | same := eq_or_ne q p
  · rw [update_self]
    exact used isUsed
  · rw [update_of_ne same]
    exact ⟨isUsed, rfl⟩

theorem ne_current (mine : (kernel.cpu c).proc = some p) (notMine : (kernel.cpu c).proc ≠ some q) :
    q ≠ p := by
  rintro rfl
  exact notMine mine

section

variable (known : Kinship kernel history infant stage)
include known

theorem Kinship.head (ops : (kernel.cpu c).ops = op :: rest) (forward : op.Forward) :
    kin (kernel.cpu c).proc op (Relates (kernel.cpu c).proc rest)
        (placeOf history infant (stage c) (kernel.cpu c).proc) ∧
      ∀ p, (kernel.cpu c).proc = some p → ∃ currentTick rest,
        (kernel.cpu c).context = .back currentTick p :: rest ∧
          Relates none rest (.elsewhere .outside) := by
  cases known.cpus c with
  | running relates scheduler =>
    rw [ops] at relates
    exact ⟨relates, scheduler⟩
  | returning _ atBack _ _ =>
    rw [ops] at atBack
    cases atBack
    exact absurd rfl (forward _ _)

theorem Kinship.others_outside (inside : stage c ≠ .outside) (other : d ≠ c) :
    stage d = .outside := by
  by_contra holding
  have held := (known.lock c).mp inside
  rw [(known.lock d).mp holding] at held
  exact other (Option.some.inj held)

variable (sound : Sound False kernel ghost)
include sound

theorem Kinship.acts
    (scheduler : ∀ p, (kernel.cpu c).proc = some p → ∃ currentTick rest,
      (kernel.cpu c).context = .back currentTick p :: rest ∧
        Relates none rest (.elsewhere .outside))
    (moves : Moves c push kernel next) (parks : Parks c kernel next after bears)
    (family : Family next.proc after bears)
    (lock : ∀ d, moved d ≠ .outside ↔ next.owner .waitLock = some d)
    (knows : ∀ d, (moved d).Knows next.proc)
    (free : next.owner .waitLock = none → AllAwake next.proc)
    (stages : ∀ d, d ≠ c → moved d = stage d)
    (places : ∀ q, (kernel.cpu c).proc ≠ some q →
      (∃ d, (kernel.cpu d).proc = some q) ∨ (next.proc q).state.Live →
        exitOf q after = exitOf q history ∧ bears q = infant q)
    (relates : Relates (kernel.cpu c).proc push
      (placeOf after bears (moved c) (kernel.cpu c).proc)) :
    Kinship next after bears moved where
  family := family
  lock := lock
  knows := knows
  free := free
  cpus := by
    intro d
    obtain rfl | same := eq_or_ne d c
    · refine .running ?_ ?_
      · rw [moves.proc, moves.ops]
        exact relates
      · rw [moves.proc, moves.context]
        exact scheduler
    have samePlace : placeOf after bears (moved d) (kernel.cpu d).proc =
        placeOf history infant (stage d) (kernel.cpu d).proc := by
      cases current : (kernel.cpu d).proc with
      | none => rw [placeOf, placeOf, stages d same]
      | some q =>
        have notMine : (kernel.cpu c).proc ≠ some q := fun mine =>
          same (sound.unique d c q current mine)
        obtain ⟨sameExit, sameInfant⟩ := places q notMine (.inl ⟨d, current⟩)
        rw [placeOf, placeOf, stages d same, sameExit, sameInfant]
    cases known.cpus d with
    | running relates scheduler =>
      refine .running ?_ ?_
      · rw [moves.cpus d same, samePlace]
        exact relates
      · rw [moves.cpus d same]
        exact scheduler
    | returning current ops left relates =>
      rw [← moves.cpus d same] at current ops
      exact .returning current ops ((stages d same).trans left) relates
  parked := by
    intro q live notExecuting
    have notMine : (kernel.cpu c).proc ≠ some q := by
      intro mine
      refine notExecuting c ⟨moves.proc.trans mine, fun currentTick p rest atBack => ?_⟩
      rw [moves.ops] at atBack
      exact relates.ne_back currentTick p rest atBack
    rcases parks q notMine live with ⟨wasLive, sameContext⟩ | relates
    · have parked := known.parked q wasLive fun d executing => ?_
      · obtain ⟨sameExit, sameInfant⟩ := places q notMine (.inr live)
        rw [sameContext, placeOf, sameExit, sameInfant]
        exact parked
      obtain rfl | same := eq_or_ne d c
      · exact notMine executing.1
      · apply notExecuting d
        rw [moves.cpus d same]
        exact executing
    · exact relates

variable (ops : (kernel.cpu c).ops = op :: rest) (forward : op.Forward)
  (moves : Moves c push kernel next)
include ops forward moves

theorem Kinship.takes (procs : next.proc = kernel.proc)
    (unowned : kernel.owner .waitLock = none) (owner : next.owner .waitLock = some c)
    (relates : Relates (kernel.cpu c).proc push
      (placeOf history infant .inside (kernel.cpu c).proc)) :
    Kinship next history infant (update stage c .inside) := by
  have others : ∀ d, stage d = .outside := by
    intro d
    by_contra holding
    rw [(known.lock d).mp holding] at unowned
    cases unowned
  refine known.acts sound (known.head ops forward).2 moves (.same procs) ?_ ?_ ?_ ?_
    (fun d other => update_of_ne other _ _) (fun _ _ _ => ⟨rfl, rfl⟩) ?_
  · rw [procs]
    exact known.family
  · intro d
    rw [owner]
    obtain rfl | same := eq_or_ne d c
    · simp
    · simp [same, others d, Ne.symm same]
  · intro d
    rw [procs]
    obtain rfl | same := eq_or_ne d c
    · rw [update_self]
      exact known.free unowned
    · rw [update_of_ne same]
      exact known.knows d
  · intro stillUnowned
    rw [owner] at stillUnowned
    cases stillUnowned
  · rwa [update_self]

/-- `wait_lock` is given back, when everyone is awake who should be. -/
theorem Kinship.leaves (parks : Parks c kernel next history infant)
    (family : Family next.proc history infant) (inside : stage c ≠ .outside)
    (owner : next.owner .waitLock = none) (awake : AllAwake next.proc)
    (relates : Relates (kernel.cpu c).proc push
      (placeOf history infant .outside (kernel.cpu c).proc)) :
    Kinship next history infant (update stage c .outside) := by
  have outside : ∀ d, update stage c .outside d = .outside := by
    intro d
    by_cases same : d = c
    · rw [same, update_self]
    · rw [update_of_ne same, known.others_outside inside same]
  refine known.acts sound (known.head ops forward).2 moves parks family ?_ ?_ (fun _ => awake)
    (fun d other => update_of_ne other _ _) (fun _ _ _ => ⟨rfl, rfl⟩) ?_
  · intro d
    simp [outside d, owner]
  · intro d
    rw [outside d]
    trivial
  · rwa [update_self]

variable (owner : next.owner .waitLock = kernel.owner .waitLock)
include owner

theorem Kinship.turns (parks : Parks c kernel next after bears)
    (family : Family next.proc after bears)
    (inside : stage c ≠ .outside) (holds : entered ≠ .outside) (knows : entered.Knows next.proc)
    (places : ∀ q, (kernel.cpu c).proc ≠ some q →
      (∃ d, (kernel.cpu d).proc = some q) ∨ (next.proc q).state.Live →
        exitOf q after = exitOf q history ∧ bears q = infant q)
    (relates : Relates (kernel.cpu c).proc push
      (placeOf after bears entered (kernel.cpu c).proc)) :
    Kinship next after bears (update stage c entered) := by
  have held := (known.lock c).mp inside
  refine known.acts sound (known.head ops forward).2 moves parks family ?_ ?_ ?_
    (fun d other => update_of_ne other _ _) places ?_
  · intro d
    rw [owner, held]
    obtain rfl | same := eq_or_ne d c
    · simpa using holds
    · simp [same, known.others_outside inside same, Ne.symm same]
  · intro d
    obtain rfl | same := eq_or_ne d c
    · rwa [update_self]
    · rw [update_of_ne same, known.others_outside inside same]
      trivial
  · intro unowned
    rw [owner, held] at unowned
    cases unowned
  · rwa [update_self]

theorem Kinship.learns (procs : next.proc = kernel.proc)
    (inside : stage c ≠ .outside) (holds : entered ≠ .outside)
    (knows : entered.Knows kernel.proc)
    (relates : Relates (kernel.cpu c).proc push
      (placeOf history infant entered (kernel.cpu c).proc)) :
    Kinship next history infant (update stage c entered) := by
  apply known.turns sound ops forward moves owner (.same procs) (by rw [procs]; exact known.family)
    inside holds (by rwa [procs]) (fun _ _ _ => ⟨rfl, rfl⟩) relates

/-- A step of the thread on CPU `c` that does not concern the families. -/
theorem Kinship.goesOn (undisturbed : Undisturbed kernel.proc next.proc)
    (parks : Parks c kernel next history infant)
    (relates : Resumes (kernel.cpu c).proc op rest push
      (placeOf history infant (stage c) (kernel.cpu c).proc)) :
    Kinship next history infant stage := by
  obtain ⟨steady, used⟩ := undisturbed
  obtain ⟨ruled, scheduler⟩ := known.head ops forward
  refine known.acts sound scheduler moves parks (known.family.frame_used steady.remains used)
    ?_ (fun d => (known.knows d).frame steady) ?_ (fun _ _ => rfl) (fun _ _ _ => ⟨rfl, rfl⟩)
    (relates ruled)
  · intro d
    rw [owner]
    exact known.lock d
  · intro unowned
    rw [owner] at unowned
    exact (known.free unowned).frame steady

theorem Kinship.proceeds (procs : next.proc = kernel.proc)
    (relates : Resumes (kernel.cpu c).proc op rest push
      (placeOf history infant (stage c) (kernel.cpu c).proc)) :
    Kinship next history infant stage := by
  refine known.goesOn sound ops forward moves owner ?_ (.same procs) relates
  rw [procs]
  exact .refl _

/-- A step that changes one entry, which stays published or unpublished as it is. -/
theorem Kinship.assigns (procs : next.proc = update kernel.proc p process)
    (steady : (kernel.proc p).Steady process p)
    (live : (kernel.cpu c).proc ≠ some p → process.state.Live →
      (kernel.proc p).state.Live ∧ process.context = (kernel.proc p).context)
    (used : (kernel.proc p).state = .used → process.state = .used ∧
      process.parent = (kernel.proc p).parent)
    (relates : Resumes (kernel.cpu c).proc op rest push
      (placeOf history infant (stage c) (kernel.cpu c).proc)) :
    Kinship next history infant stage := by
  refine known.goesOn sound ops forward moves owner ?_
    (.update procs fun notMine isLive => .inl (live notMine isLive)) relates
  rw [procs]
  exact .update steady used

/-- One entry gets another value of the fields that do not concern the families. -/
theorem Kinship.rewrites (procs : next.proc = update kernel.proc p process)
    (pid : process.pid = (kernel.proc p).pid) (xstate : process.xstate = (kernel.proc p).xstate)
    (parent : process.parent = (kernel.proc p).parent)
    (state : process.state = (kernel.proc p).state) (chan : process.chan = (kernel.proc p).chan)
    (context : process.context = (kernel.proc p).context)
    (relates : Resumes (kernel.cpu c).proc op rest push
      (placeOf history infant (stage c) (kernel.cpu c).proc)) :
    Kinship next history infant stage := by
  refine known.assigns sound ops forward moves owner procs
    (.of_eq pid xstate parent state chan) (fun _ live => ⟨state ▸ live, context⟩) ?_ relates
  intro isUsed
  exact ⟨state.trans isUsed, parent⟩

end

end Xv6.Proc
