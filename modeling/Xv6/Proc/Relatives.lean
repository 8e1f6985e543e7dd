import Xv6.Proc.Kinship
import Xv6.Proc.Local

/-!
# The families in the process table

What holds of the parent fields, the `ZOMBIE`s and the recorded calls in every
state, and what the holder of `wait_lock` knows besides. A step that changes no
parent of a published process, makes no `ZOMBIE` and puts nobody to sleep in
`wait` keeps all of it, whoever takes it.
-/

namespace Xv6.Proc

open Function Xv6.Semantics

variable {ncpu : Nat} {next : Kernel ncpu} 

/-- The process table. -/
abbrev Table := Slot → Process

/-- Nobody is asleep in `wait` beside a `ZOMBIE` child, with the exception of `owed`. -/
def AwakeBut (owed : Slot → Prop) (table : Table) : Prop :=
  ∀ p pp, ¬ owed p → (table pp).parent = some p → (table pp).state = .zombie →
    ¬ (table p).AsleepInWait p

/-- Nobody is asleep in `wait` beside a `ZOMBIE` child. -/
def AllAwake (table : Table) : Prop := AwakeBut (fun _ => False) table

/-- No entry below `i` is a child of `p`. -/
def ChildlessBelow (table : Table) (p : Slot) (i : Nat) : Prop :=
  ∀ pp : Slot, pp.val < i → (table pp).parent ≠ some p

/-- No child of `p` below `i` is a `ZOMBIE`. -/
def ScannedBelow (table : Table) (p : Slot) (i : Nat) : Prop :=
  ∀ pp : Slot, pp.val < i → (table pp).parent = some p → (table pp).state ≠ .zombie

/-- What is known at each stage. -/
def Stage.Knows (table : Table) : Stage → Prop
  | .outside => True
  | .inside => AllAwake table
  | .reparents p i => AllAwake table ∧ ChildlessBelow table p i
  | .hands p i j => AwakeBut (· = initproc) table ∧ ChildlessBelow table p i ∧
      (initproc.val < j → ¬ (table initproc).AsleepInWait initproc)
  | .childless p => AllAwake table ∧ ChildlessBelow table p nproc
  | .wakes p parent j => AllAwake table ∧ ChildlessBelow table p nproc ∧
      (table p).state.Alive ∧ (table p).parent = parent ∧
        ∀ q, parent = some q → q.val < j → ¬ (table q).AsleepInWait q
  | .scans p i => AllAwake table ∧ ScannedBelow table p i
  | .visits p pp => AllAwake table ∧ ScannedBelow table p pp.val ∧
      ((table pp).state = .zombie → (table pp).parent = some p)

theorem Stage.Knows.settled {stage : Stage} (knows : stage.Knows table)
    (settled : stage.Settled) : AllAwake table := by
  cases stage with
  | inside => exact knows
  | scans p i => exact knows.1
  | _ => cases settled

/-- The `wakeup` in progress has visited the entries below `j`. -/
def Stage.visited (j : Nat) : Stage → Stage
  | .hands p k _ => .hands p k j
  | .wakes p parent _ => .wakes p parent j
  | stage => stage

/-- The `wakeup` in progress has ended. -/
def Stage.woken : Stage → Stage
  | .hands p k _ => .reparents p k
  | .wakes p parent _ => .wakes p parent nproc
  | stage => stage

section Passes

variable {table : Table} {stage : Stage} {chan : Option Chan} {i j : Nat} {q : Slot}
  {next : Stage → Prop}

theorem Stage.visited_ne_outside (inside : stage ≠ .outside) : stage.visited j ≠ .outside := by
  cases stage <;> simp_all [Stage.visited]

theorem Stage.woken_ne_outside (inside : stage ≠ .outside) : stage.woken ≠ .outside := by
  cases stage <;> simp_all [Stage.woken]

theorem Stage.wakeup_skip (passes : stage.wakeup chan i next) :
    (stage.visited (i + 1)).wakeup chan (i + 1) next := by
  cases stage with
  | hands p k j => exact ⟨passes.1, rfl, passes.2.2⟩
  | wakes p parent j => exact ⟨passes.1, rfl, passes.2.2⟩
  | _ => exact passes

theorem Stage.wakeup_visit (passes : stage.wakeup chan q.val next) :
    stage.wake chan q (Stage.wakeup chan (q.val + 1) next) := by
  cases stage with
  | hands p k j => exact ⟨passes.1, passes.2.1, passes.1, rfl, passes.2.2⟩
  | wakes p parent j => exact ⟨passes.1, passes.2.1, passes.1, rfl, passes.2.2⟩
  | _ => exact passes

theorem Stage.wakeup_end (passes : stage.wakeup chan i next) : next stage.woken := by
  cases stage with
  | hands p k j => exact passes.2.2
  | wakes p parent j => exact passes.2.2
  | _ => exact passes

theorem Stage.wake_visited (visits : stage.wake chan q next) : next
    (stage.visited (q.val + 1)) := by
  cases stage with
  | hands p k j => exact visits.2.2
  | wakes p parent j => exact visits.2.2
  | _ => exact visits

theorem below_succ (below : p.val < q.val + 1) (ne : p ≠ q) : p.val < q.val := by
  have unequal : p.val ≠ q.val := fun equal => ne (Fin.ext equal)
  omega

/-- One more entry has been visited, and is not asleep on the channel. -/
theorem Stage.Knows.visit (knows : stage.Knows table) (visits : stage.wake chan q next)
    (awake : chan = some (.proc q) → ¬ (table q).AsleepInWait q) :
    (stage.visited (q.val + 1)).Knows table := by
  cases stage with
  | hands p k j =>
    obtain ⟨rfl, rfl, _⟩ := visits
    refine ⟨knows.1, knows.2.1, fun below => ?_⟩
    obtain rfl | here := eq_or_ne initproc q
    · exact awake rfl
    · exact knows.2.2 (below_succ below here)
  | wakes p parent j =>
    obtain ⟨rfl, rfl, _⟩ := visits
    obtain ⟨allAwake, childless, alive, isParent, woken⟩ := knows
    refine ⟨allAwake, childless, alive, isParent, fun r same below => ?_⟩
    obtain rfl | here := eq_or_ne r q
    · exact awake (by rw [same, Option.map_some])
    · exact woken r same (below_succ below here)
  | _ => exact knows

theorem Stage.Knows.ended (knows : stage.Knows table) (passes : stage.wakeup chan i next)
    (all : nproc ≤ i) : stage.woken.Knows table := by
  cases stage with
  | hands p k j =>
    obtain ⟨rfl, rfl, _⟩ := passes
    refine ⟨fun r pp _ isParent isZombie => ?_, knows.2.1⟩
    obtain rfl | owed := eq_or_ne r initproc
    · exact knows.2.2 (by have := initproc.isLt; omega)
    · exact knows.1 r pp owed isParent isZombie
  | wakes p parent j =>
    obtain ⟨rfl, rfl, _⟩ := passes
    obtain ⟨allAwake, childless, alive, isParent, woken⟩ := knows
    exact ⟨allAwake, childless, alive, isParent, fun r same _ => woken r same (by omega)⟩
  | _ => exact knows

end Passes

/-- The entries that `fork`s in progress have allocated, and whether their parent is set. -/
abbrev Infants := Slot → Option (Slot × Bool)

/-- The families, with the calls made so far. -/
structure Family (table : Table) (history : List Event) (infant : Infants) : Prop where
  parents : ∀ pp q, (table pp).parent = some q → (table q).state.Alive ∧
    (guardian pp history = some q ∨ guardian pp history = some initproc ∧ exitOf q history ≠ none)
  orphans : ∀ pp, (table pp).state.Alive ∨ (table pp).state = .zombie → pp ≠ initproc →
    (table pp).parent ≠ none
  first : (table initproc).state.Alive
  exits : ∀ pp pid status, exitOf pp history = some (pid, status) → (table pp).pid = pid ∧
    ((table pp).state.Alive ∨ (table pp).state = .zombie ∧ (table pp).xstate = status)
  zombies : ∀ pp, (table pp).state = .zombie → exitOf pp history ≠ none
  guardians : GuardiansStay history
  answered : Answered history
  infants : ∀ p np named, infant p = some (np, named) → (table p).state.Alive ∧
    (table np).state = .used ∧ (named = true → (table np).parent ≠ none)
  distinct : ∀ p q np n m, infant p = some (np, n) → infant q = some (np, m) → p = q

theorem ProcState.Alive.ne_zombie {state : ProcState} (alive : state.Alive) : state ≠ .zombie := by
  rintro rfl
  simp [ProcState.Alive] at alive

theorem ProcState.Alive.ne_used {state : ProcState} (alive : state.Alive) : state ≠ .used := by
  rintro rfl
  simp [ProcState.Alive] at alive

theorem ProcState.Alive.ne_unused {state : ProcState} (alive : state.Alive) : state ≠ .unused := by
  rintro rfl
  simp [ProcState.Alive] at alive

/-- An entry after a step that does not concern the families. An entry without a
published process may be freed, or published once it has a parent. -/
structure Process.Remains (process changed : Process) : Prop where
  zombie : changed.state = .zombie ↔ process.state = .zombie
  alive : process.state.Alive → changed.state.Alive
  born : changed.state.Alive → process.state.Alive ∨ changed.parent ≠ none
  kept : process.state.Alive ∨ process.state = .zombie →
    changed.pid = process.pid ∧ changed.xstate = process.xstate ∧ changed.parent = process.parent
  parent : changed.parent = process.parent ∨ changed.parent = none

/-- Besides, nobody begins to wait. -/
structure Process.Steady (process changed : Process) (p : Slot) : Prop extends
    process.Remains changed where
  asleep : changed.AsleepInWait p → process.AsleepInWait p

/-- The fields that matter stay, and the state changes among those of a published process. -/
theorem Process.Remains.of_state {process changed : Process} (pid : changed.pid = process.pid)
    (xstate : changed.xstate = process.xstate) (parent : changed.parent = process.parent)
    (state : changed.state = process.state ∨ process.state.Alive ∧ changed.state.Alive) :
    process.Remains changed where
  zombie := by
    rcases state with same | ⟨before, after⟩
    · rw [same]
    · exact ⟨fun isZombie => absurd isZombie after.ne_zombie,
        fun isZombie => absurd isZombie before.ne_zombie⟩
  alive := by
    rcases state with same | ⟨_, after⟩
    · rw [same]
      exact id
    · exact fun _ => after
  born := by
    rcases state with same | ⟨before, _⟩
    · rw [same]
      exact .inl
    · exact fun _ => .inl before
  kept := fun _ => ⟨pid, xstate, parent⟩
  parent := .inl parent

namespace Process.Steady

variable {process changed : Process} {p : Slot}

theorem refl (process : Process) (p : Slot) : process.Steady process p :=
  ⟨.of_state rfl rfl rfl (.inl rfl), id⟩

section

variable (pid : changed.pid = process.pid) (xstate : changed.xstate = process.xstate)
  (parent : changed.parent = process.parent)
include pid xstate parent

theorem of_eq (state : changed.state = process.state) (chan : changed.chan = process.chan) :
    process.Steady changed p := by
  refine ⟨.of_state pid xstate parent (.inl state), ?_⟩
  rintro ⟨isAsleep, onChan⟩
  exact ⟨state ▸ isAsleep, chan ▸ onChan⟩

theorem of_awake (before : process.state.Alive)
    (after : changed.state = .runnable ∨ changed.state = .running) : process.Steady changed p := by
  refine ⟨.of_state pid xstate parent (.inr ⟨before, .inr after⟩), ?_⟩
  rintro ⟨isAsleep, _⟩
  rcases after with turn | turn <;> rw [turn] at isAsleep <;> cases isAsleep

end

/-- An entry that is not published may be freed, taken, or published with a parent. -/
theorem of_inert (before : process.state = .unused ∨ process.state = .used)
    (after : changed.state = .unused ∨ changed.state = .used ∨
      changed.state = .runnable ∧ changed.parent ≠ none)
    (parent : changed.parent = process.parent ∨ changed.parent = none) :
    process.Steady changed p where
  zombie := by
    rcases before with before | before <;> rcases after with after | after | ⟨after, _⟩ <;>
      simp [before, after]
  alive := by
    rcases before with before | before <;> simp [before, ProcState.Alive]
  born := by
    rcases after with after | after | ⟨_, named⟩
    · simp [after, ProcState.Alive]
    · simp [after, ProcState.Alive]
    · exact fun _ => .inr named
  kept := by
    rintro (alive | isZombie)
    · rcases before with before | before
      · exact absurd before alive.ne_unused
      · exact absurd before alive.ne_used
    · rcases before with before | before <;> simp [before] at isZombie
  parent := parent
  asleep := by
    rintro ⟨isAsleep, _⟩
    rcases after with after | after | ⟨after, _⟩ <;> rw [after] at isAsleep <;> cases isAsleep

end Process.Steady

/-- A step that does not concern the families. -/
def Steady (table changed : Table) : Prop := ∀ p, (table p).Steady (changed p) p

theorem Steady.refl (table : Table) : Steady table table := fun p => .refl (table p) p

theorem Steady.update
    (steady : (table p).Steady process p) : Steady table (update table p process) := by
  intro q
  obtain rfl | same := eq_or_ne q p
  · rwa [update_self]
  · rw [update_of_ne same]
    exact .refl _ _

section Frame

variable {table changed : Table} (steady : Steady table changed)
include steady

theorem AwakeBut.frame (awake : AwakeBut owed table) : AwakeBut owed changed := by
  intro p pp notOwed isParent isZombie isAsleep
  have wasZombie := (steady pp).zombie.mp isZombie
  rw [((steady pp).kept (.inr wasZombie)).2.2] at isParent
  exact awake p pp notOwed isParent wasZombie ((steady p).asleep isAsleep)

theorem ChildlessBelow.frame (childless : ChildlessBelow table p i) :
    ChildlessBelow changed p i := by
  intro pp below isParent
  rcases (steady pp).parent with same | none
  · exact childless pp below (same ▸ isParent)
  · rw [none] at isParent
    cases isParent

theorem ScannedBelow.frame (scanned : ScannedBelow table p i) : ScannedBelow changed p i := by
  intro pp below isParent isZombie
  have wasZombie := (steady pp).zombie.mp isZombie
  rw [((steady pp).kept (.inr wasZombie)).2.2] at isParent
  exact scanned pp below isParent wasZombie

theorem Stage.Knows.frame {stage : Stage} (knows : stage.Knows table) : stage.Knows changed := by
  cases stage with
  | outside => trivial
  | inside => exact AwakeBut.frame steady knows
  | reparents p i => exact ⟨knows.1.frame steady, knows.2.frame steady⟩
  | hands p i j =>
    obtain ⟨awake, childless, woken⟩ := knows
    exact ⟨awake.frame steady, childless.frame steady,
      fun passed isAsleep => woken passed ((steady _).asleep isAsleep)⟩
  | childless p => exact ⟨knows.1.frame steady, knows.2.frame steady⟩
  | wakes p parent j =>
    obtain ⟨awake, childless, alive, isParent, woken⟩ := knows
    refine ⟨awake.frame steady, childless.frame steady, (steady p).alive alive, ?_,
      fun q same passed isAsleep => woken q same passed ((steady q).asleep isAsleep)⟩
    rw [((steady p).kept (.inl alive)).2.2, isParent]
  | scans p i => exact ⟨knows.1.frame steady, knows.2.frame steady⟩
  | visits p pp =>
    obtain ⟨awake, scanned, isParent⟩ := knows
    refine ⟨awake.frame steady, scanned.frame steady, fun isZombie => ?_⟩
    have wasZombie := (steady pp).zombie.mp isZombie
    rw [((steady pp).kept (.inr wasZombie)).2.2]
    exact isParent wasZombie

end Frame

section Families

variable {table changed : Table} {history : List Event} {infant changedInfant : Infants}
  (family : Family table history infant) (steady : ∀ p, (table p).Remains (changed p))
include family steady

theorem Family.frame
    (infants : ∀ p np named, changedInfant p = some (np, named) → (changed p).state.Alive ∧
      (changed np).state = .used ∧ (named = true → (changed np).parent ≠ none))
    (distinct : ∀ p q np n m, changedInfant p = some (np, n) → changedInfant q = some (np, m) →
      p = q) : Family changed history changedInfant where
  parents := by
    intro pp q isParent
    rcases (steady pp).parent with same | none
    · obtain ⟨alive, guards⟩ := family.parents pp q (same ▸ isParent)
      exact ⟨(steady q).alive alive, guards⟩
    · rw [none] at isParent
      cases isParent
  orphans := by
    intro pp published notInit
    have wasPublished : (table pp).state.Alive ∨ (table pp).state = .zombie →
        (changed pp).parent ≠ none := by
      intro before
      rw [((steady pp).kept before).2.2]
      exact family.orphans pp before notInit
    rcases published with alive | isZombie
    · exact ((steady pp).born alive).elim (fun before => wasPublished (.inl before)) id
    · exact wasPublished (.inr ((steady pp).zombie.mp isZombie))
  first := (steady _).alive family.first
  exits := by
    intro pp pid status exited
    obtain ⟨isPid, place⟩ := family.exits pp pid status exited
    have before : (table pp).state.Alive ∨ (table pp).state = .zombie := place.imp id And.left
    obtain ⟨samePid, sameXstate, _⟩ := (steady pp).kept before
    refine ⟨samePid.trans isPid, place.imp (steady pp).alive ?_⟩
    rintro ⟨isZombie, isStatus⟩
    exact ⟨(steady pp).zombie.mpr isZombie, sameXstate.trans isStatus⟩
  zombies := fun pp isZombie => family.zombies pp ((steady pp).zombie.mp isZombie)
  guardians := family.guardians
  answered := family.answered
  infants := infants
  distinct := distinct

/-- The families are not affected, and neither are the entries in allocation. -/
theorem Family.frame_used
    (used : ∀ p, (table p).state = .used → (changed p).state = .used ∧
      (changed p).parent = (table p).parent) : Family changed history infant := by
  refine family.frame steady ?_ family.distinct
  intro p np named isInfant
  obtain ⟨alive, isUsed, isNamed⟩ := family.infants p np named isInfant
  obtain ⟨stillUsed, sameParent⟩ := used np isUsed
  refine ⟨(steady p).alive alive, stillUsed, fun named => ?_⟩
  rw [sameParent]
  exact isNamed named

end Families

theorem Steady.remains (steady : Steady table changed) (p : Slot) : (table p).Remains (changed p) :=
  (steady p).toRemains

/-- After a child has been given to `init`, only `init` may have to be woken up. -/
theorem AwakeBut.hands (awake : AllAwake table)
    (childless : ChildlessBelow table p i) (notInit : p ≠ initproc) (bound : i < nproc) (given : process.parent = some initproc)
    (state : process.state = (table ⟨i, bound⟩).state)
    (chan : process.chan = (table ⟨i, bound⟩).chan) :
    (Stage.hands p (i + 1) 0).Knows (update table ⟨i, bound⟩ process) := by
  refine ⟨?_, ?_, fun below => absurd below (by omega)⟩
  · intro q pp notOwed isParent isZombie isAsleep
    have ne : pp ≠ ⟨i, bound⟩ := by
      rintro rfl
      rw [update_self, given] at isParent
      exact notOwed (Option.some.inj isParent).symm
    rw [update_of_ne ne] at isParent isZombie
    apply awake q pp id isParent isZombie
    unfold Process.AsleepInWait at isAsleep ⊢
    rwa [field_update Process.state state, field_update Process.chan chan] at isAsleep
  intro pp below isParent
  by_cases same : pp = ⟨i, bound⟩
  · subst same
    rw [update_self, given] at isParent
    exact notInit (Option.some.inj isParent).symm
  · rw [update_of_ne same] at isParent
    exact childless pp (below_succ below same) isParent

theorem AllAwake.zombie_of (knows : (Stage.wakes p parent nproc).Knows table)
    (sameParent : process.parent = (table p).parent) :
    AllAwake (update table p process) := by
  obtain ⟨awake, childless, _, isParent, woken⟩ := knows
  intro q pp notOwed childOf isZombie isAsleep
  rw [field_update Process.parent sameParent] at childOf
  have ne : q ≠ p := by
    rintro rfl
    exact childless pp pp.isLt childOf
  rw [update_of_ne ne] at isAsleep
  obtain rfl | same := eq_or_ne pp p
  · exact woken q (isParent.symm.trans childOf) q.isLt isAsleep
  · rw [update_of_ne same] at isZombie
    exact awake q pp notOwed childOf isZombie isAsleep

theorem AllAwake.reaped (awake : AllAwake table)
    (state : process.state = .unused) (noParent : process.parent = none) :
    AllAwake (update table pp process) := by
  intro q r notOwed childOf isZombie isAsleep
  have ne : r ≠ pp := by
    rintro rfl
    rw [update_self, noParent] at childOf
    cases childOf
  have notFreed : q ≠ pp := by
    rintro rfl
    rw [update_self] at isAsleep
    rw [isAsleep.1] at state
    cases state
  rw [update_of_ne ne] at childOf isZombie
  rw [update_of_ne notFreed] at isAsleep
  exact awake q r notOwed childOf isZombie isAsleep

theorem AllAwake.adopts (awake : AllAwake table)
    (isUsed : (table np).state = .used) (state : process.state = (table np).state)
    (chan : process.chan = (table np).chan) : AllAwake (update table np process) := by
  intro q r notOwed childOf isZombie isAsleep
  rw [field_update Process.state state] at isZombie
  have ne : r ≠ np := by
    rintro rfl
    rw [isUsed] at isZombie
    cases isZombie
  rw [update_of_ne ne] at childOf
  apply awake q r notOwed childOf isZombie
  unfold Process.AsleepInWait at isAsleep ⊢
  rwa [field_update Process.state state, field_update Process.chan chan] at isAsleep

section Calls

variable {table : Table} {history : List Event} {infant : Infants} {p : Slot}
  (family : Family table history infant)
include family

theorem Family.exits_of (staying : exitOf p history = none) (notInit : p ≠ initproc)
    (alive : (table p).state.Alive) :
    Family table (.exit p (table p).pid status :: history) infant where
  parents := by
    intro pp q isParent
    obtain ⟨isAlive, guards⟩ := family.parents pp q isParent
    refine ⟨isAlive, ?_⟩
    simp only [guardian]
    rcases guards with guards | ⟨guards, exited⟩
    · obtain rfl | same := eq_or_ne p q
      · exact .inr ⟨if_pos guards, by simp⟩
      · refine .inl ((if_neg fun isGuardian => same ?_).trans guards)
        rw [guards] at isGuardian
        exact (Option.some.inj isGuardian).symm
    refine .inr ⟨?_, fun answered => exited ?_⟩
    · rw [guards]
      simp
    · simp only [exitOf] at answered
      split at answered
      · cases answered
      · exact answered
  orphans := family.orphans
  first := family.first
  exits := by
    intro pp pid status exited
    simp only [exitOf] at exited
    split at exited
    · rename_i same
      cases exited
      rw [← same]
      exact ⟨rfl, .inl alive⟩
    · exact family.exits pp pid status exited
  zombies := by
    intro pp isZombie answered
    simp only [exitOf] at answered
    split at answered
    · cases answered
    · exact family.zombies pp isZombie answered
  guardians := family.guardians.exit notInit
  answered := ⟨staying, family.answered⟩
  infants := family.infants
  distinct := family.distinct

/-- `reparent` gives the child `pp` of a process that exits to `init`. -/
theorem Family.reparented (isParent : (table pp).parent = some p)
    (exited : exitOf p history ≠ none) (given : process.parent = some initproc)
    (state : process.state = (table pp).state) (pid : process.pid = (table pp).pid)
    (xstate : process.xstate = (table pp).xstate) :
    Family (update table pp process) history infant := by
  have sameState := field_update Process.state state
  have named : ∀ q, (table q).parent ≠ none → (update table pp process q).parent ≠ none := by
    intro q isNamed
    obtain rfl | same := eq_or_ne q pp
    · rw [update_self, given]
      exact Option.some_ne_none _
    · rwa [update_of_ne same]
  refine
    { family with
      parents := ?_
      orphans := ?_
      first := by
        rw [sameState]
        exact family.first
      exits := ?_
      zombies := ?_
      infants := ?_ }
  · intro q r childOf
    rw [sameState]
    obtain rfl | same := eq_or_ne q pp
    · rw [update_self, given] at childOf
      cases childOf
      refine ⟨family.first, .inl ?_⟩
      rcases (family.parents q p isParent).2 with guards | ⟨guards, _⟩
      · exact absurd (family.guardians.2 q p guards) exited
      · exact guards
    · rw [update_of_ne same] at childOf
      exact family.parents q r childOf
  · intro q published notInit
    rw [sameState] at published
    exact named q (family.orphans q published notInit)
  · intro q pid' status called
    rw [sameState, field_update Process.pid pid, field_update Process.xstate xstate]
    exact family.exits q pid' status called
  · intro q isZombie
    rw [sameState] at isZombie
    exact family.zombies q isZombie
  · intro q np isNamed bears
    rw [sameState, sameState]
    obtain ⟨alive, isUsed, hasParent⟩ := family.infants q np isNamed bears
    exact ⟨alive, isUsed, fun yes => named np (hasParent yes)⟩

theorem Family.zombie_of (notInit : p ≠ initproc)
    (exiting : (exitOf p history).map Prod.snd = some status) (noInfant : infant p = none)
    (alive : (table p).state.Alive) (childless : ChildlessBelow table p nproc)
    (state : process.state = .zombie) (xstate : process.xstate = status)
    (pid : process.pid = (table p).pid) (parent : process.parent = (table p).parent) :
    Family (update table p process) history infant := by
  refine
    { family with
      parents := ?_
      orphans := ?_
      first := by
        rw [update_of_ne (Ne.symm notInit)]
        exact family.first
      exits := ?_
      zombies := ?_
      infants := ?_ }
  · intro pp q isParent
    rw [field_update Process.parent parent] at isParent
    have ne : q ≠ p := by
      rintro rfl
      exact childless pp pp.isLt isParent
    rw [update_of_ne ne]
    exact family.parents pp q isParent
  · intro pp published notFirst
    rw [field_update Process.parent parent]
    refine family.orphans pp ?_ notFirst
    obtain rfl | same := eq_or_ne pp p
    · exact .inl alive
    · rwa [update_of_ne same] at published
  · intro pp pid' given called
    have before := family.exits pp pid' given called
    obtain rfl | same := eq_or_ne pp p
    · rw [called] at exiting
      cases exiting
      rw [update_self]
      exact ⟨pid.trans before.1, .inr ⟨state, xstate⟩⟩
    · rwa [update_of_ne same]
  · intro pp isZombie
    obtain rfl | same := eq_or_ne pp p
    · intro staying
      rw [staying] at exiting
      cases exiting
    · rw [update_of_ne same] at isZombie
      exact family.zombies pp isZombie
  intro q np named bears
  have notMe : q ≠ p := by
    rintro rfl
    rw [noInfant] at bears
    cases bears
  obtain ⟨isAlive, isUsed, hasParent⟩ := family.infants q np named bears
  have notInfant : np ≠ p := by
    rintro rfl
    exact alive.ne_used isUsed
  rw [update_of_ne notMe, update_of_ne notInfant]
  exact ⟨isAlive, isUsed, hasParent⟩

theorem Family.reaped (isZombie : (table pp).state = .zombie)
    (isParent : (table pp).parent = some p) (staying : exitOf p history = none)
    (state : process.state = .unused) (noParent : process.parent = none) :
    Family (update table pp process)
      (.reap p pp (table pp).pid (table pp).xstate :: history) infant := by
  have living : ∀ {q}, (table q).state.Alive → q ≠ pp := by
    rintro q alive rfl
    exact alive.ne_zombie isZombie
  have published : ∀ {q}, (update table pp process q).state.Alive ∨
      (update table pp process q).state = .zombie → q ≠ pp := by
    rintro q isPublished rfl
    rw [update_self, state] at isPublished
    rcases isPublished with alive | zombie
    · exact alive.ne_unused rfl
    · cases zombie
  obtain ⟨⟨pid, status⟩, called⟩ := Option.ne_none_iff_exists'.mp (family.zombies pp isZombie)
  refine
    { parents := ?_
      orphans := ?_
      first := by
        rw [update_of_ne (living family.first)]
        exact family.first
      exits := ?_
      zombies := ?_
      guardians := family.guardians.reap p
      answered := ⟨?_, ?_, family.answered⟩
      infants := ?_
      distinct := family.distinct }
  · intro q r childOf
    have ne : q ≠ pp := by
      rintro rfl
      rw [update_self, noParent] at childOf
      cases childOf
    rw [update_of_ne ne] at childOf
    obtain ⟨alive, guards⟩ := family.parents q r childOf
    rw [update_of_ne (living alive)]
    refine ⟨alive, ?_⟩
    rwa [exitOf_reap_of_ne _ (living alive).symm, guardian, if_neg ne.symm]
  · intro q isPublished notInit
    have ne := published isPublished
    rw [update_of_ne ne] at isPublished ⊢
    exact family.orphans q isPublished notInit
  · intro q pid status exited
    have ne : pp ≠ q := by
      rintro rfl
      rw [exitOf_reap_self] at exited
      cases exited
    rw [exitOf_reap_of_ne _ ne] at exited
    rw [update_of_ne ne.symm]
    exact family.exits q pid status exited
  · intro q zombie
    have ne := published (.inr zombie)
    rw [update_of_ne ne] at zombie
    rw [exitOf_reap_of_ne _ ne.symm]
    exact family.zombies q zombie
  · obtain ⟨isPid, alive | ⟨_, isStatus⟩⟩ := family.exits pp pid status called
    · exact absurd isZombie alive.ne_zombie
    · rw [called, isPid, isStatus]
  · rcases (family.parents pp p isParent).2 with guards | ⟨_, exited⟩
    · exact guards
    · exact absurd staying exited
  intro q np named bears
  obtain ⟨alive, isUsed, hasParent⟩ := family.infants q np named bears
  have notFreed : np ≠ pp := by
    rintro rfl
    rw [isZombie] at isUsed
    cases isUsed
  rw [update_of_ne (living alive), update_of_ne notFreed]
  exact ⟨alive, isUsed, hasParent⟩

theorem Family.bears (steady : Steady table changed)
    (alive : (table p).state.Alive) (isUnused : (table np).state = .unused)
    (isUsed : (changed np).state = .used) (others : ∀ q, q ≠ np → changed q = table q) :
    Family changed history (update infant p (some (np, false))) := by
  have notTaken : ∀ {q r named}, infant q = some (r, named) → r ≠ np := by
    rintro q r named bears rfl
    have used := (family.infants q r named bears).2.1
    rw [isUnused] at used
    cases used
  refine family.frame steady.remains ?_ ?_
  · intro q r named bears
    obtain rfl | same := eq_or_ne q p
    · rw [update_self] at bears
      cases bears
      exact ⟨(steady q).alive alive, isUsed, fun no => absurd no Bool.false_ne_true⟩
    rw [update_of_ne same] at bears
    obtain ⟨isAlive, used, hasParent⟩ := family.infants q r named bears
    refine ⟨(steady q).alive isAlive, ?_⟩
    rw [others r (notTaken bears)]
    exact ⟨used, hasParent⟩
  intro q r child n m first second
  obtain rfl | isMe := eq_or_ne q p
  · by_cases alsoMe : r = q
    · exact alsoMe.symm
    · rw [update_self] at first
      cases first
      rw [update_of_ne alsoMe] at second
      exact absurd rfl (notTaken second)
  rw [update_of_ne isMe] at first
  obtain rfl | alsoMe := eq_or_ne r p
  · rw [update_self] at second
    cases second
    exact absurd rfl (notTaken first)
  · rw [update_of_ne alsoMe] at second
    exact family.distinct q r child n m first second

theorem Family.buries (steady : Steady table changed)
    (bears : infant p = some (np, named)) (others : ∀ q, q ≠ np → changed q = table q) :
    Family changed history (update infant p none) := by
  have elsewhere : ∀ {q r}, update infant p none q = some r → q ≠ p ∧ infant q = some r := by
    intro q r isInfant
    obtain rfl | same := eq_or_ne q p
    · rw [update_self] at isInfant
      cases isInfant
    · rw [update_of_ne same] at isInfant
      exact ⟨same, isInfant⟩
  refine family.frame steady.remains ?_ ?_
  · intro q r isNamed isInfant
    obtain ⟨notMe, isInfant⟩ := elsewhere isInfant
    obtain ⟨isAlive, used, hasParent⟩ := family.infants q r isNamed isInfant
    have ne : r ≠ np := by
      rintro rfl
      exact notMe (family.distinct q p r _ _ isInfant bears)
    refine ⟨(steady q).alive isAlive, ?_⟩
    rw [others r ne]
    exact ⟨used, hasParent⟩
  · intro q r child n m first second
    exact family.distinct q r child n m (elsewhere first).2 (elsewhere second).2

theorem Family.adopts (bears : infant p = some (np, false))
    (staying : exitOf p history = none) (alive : (table p).state.Alive)
    (state : process.state = (table np).state) (isParent : process.parent = some p) :
    Family (update table np process) (.fork p np :: history)
      (update infant p (some (np, true))) := by
  have isUsed := (family.infants p np false bears).2.1
  have sameState := field_update Process.state state
  have published : ∀ {q}, (table q).state.Alive ∨ (table q).state = .zombie → q ≠ np := by
    rintro q isPublished rfl
    rw [isUsed] at isPublished
    rcases isPublished with isAlive | zombie
    · exact isAlive.ne_used rfl
    · cases zombie
  refine
    { parents := ?_
      orphans := ?_
      first := by
        rw [sameState]
        exact family.first
      exits := ?_
      zombies := ?_
      guardians := family.guardians.fork staying np
      answered := family.answered
      infants := ?_
      distinct := ?_ }
  · intro q r childOf
    rw [sameState]
    obtain rfl | same := eq_or_ne q np
    · rw [update_self, isParent] at childOf
      cases childOf
      exact ⟨alive, .inl (if_pos rfl)⟩
    · rw [update_of_ne same] at childOf
      rw [guardian, if_neg (Ne.symm same)]
      exact family.parents q r childOf
  · intro q isPublished notInit
    rw [sameState] at isPublished
    rw [update_of_ne (published isPublished)]
    exact family.orphans q isPublished notInit
  · intro q pid status called
    have before := family.exits q pid status called
    rwa [update_of_ne (published (before.2.imp id And.left))]
  · intro q zombie
    rw [sameState] at zombie
    exact family.zombies q zombie
  · intro q r named isInfant
    rw [sameState, sameState]
    obtain rfl | same := eq_or_ne q p
    · rw [update_self] at isInfant
      cases isInfant
      refine ⟨alive, isUsed, fun _ => ?_⟩
      rw [update_self, isParent]
      exact Option.some_ne_none _
    rw [update_of_ne same] at isInfant
    have ne : r ≠ np := by
      rintro rfl
      exact same (family.distinct q p r _ _ isInfant bears)
    rw [update_of_ne ne]
    exact family.infants q r named isInfant
  have before : ∀ {q r n}, update infant p (some (np, true)) q = some (r, n) →
      ∃ m, infant q = some (r, m) := by
    intro q r n isInfant
    obtain rfl | same := eq_or_ne q p
    · rw [update_self] at isInfant
      cases isInfant
      exact ⟨false, bears⟩
    · rw [update_of_ne same] at isInfant
      exact ⟨n, isInfant⟩
  intro q r child n m first second
  obtain ⟨_, first⟩ := before first
  obtain ⟨_, second⟩ := before second
  exact family.distinct q r child _ _ first second

end Calls

end Xv6.Proc
