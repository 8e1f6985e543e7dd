import Xv6.Proc.Sound

/-!
# Frame rules for soundness

A step of one CPU changes its own state, and an entry of the process table only
under that entry's lock, or as its current process. What the other CPUs execute
then stays sound, and what is left to show of a step concerns the CPU itself and
the entry it touched.
-/

namespace Xv6.Proc

open Function Xv6.Semantics

variable {ncpu : Nat} {strict : Prop} {kernel next : Kernel ncpu} {ghost after : Ghost ncpu}
  {c : Fin ncpu}

/-- The process states that a step of `c` changes: of entries whose lock it holds,
and of no process that runs elsewhere. -/
def Touches (kernel : Kernel ncpu) (ghost : Ghost ncpu) (c : Fin ncpu) (next : Kernel ncpu) : Prop :=
  ∀ p, (next.proc p).state = (kernel.proc p).state ∨
    (.proc p ∈ (ghost.mode c).held ∧
      ((kernel.proc p).state = .running → (kernel.cpu c).proc = some p))

theorem CpuSound.frame (sound : Sound strict kernel ghost) (touches : Touches kernel ghost c next)
    (other : d ≠ c) (sameCpu : next.cpu d = kernel.cpu d)
    (sameMode : after.mode d = ghost.mode d)
    (sameGhost : ∀ p, (kernel.cpu d).proc = some p →
      after.child p = ghost.child p ∧ after.waiting p = ghost.waiting p) :
    CpuSound strict next after d := by
  -- an entry locked by `d` is not one the step touches
  have unlocked : ∀ p, .proc p ∈ (ghost.mode d).held →
      (next.proc p).state = (kernel.proc p).state := by
    intro p held
    rcases touches p with same | ⟨byActor, _⟩
    · exact same
    · exact absurd held (sound.not_held byActor other)
  cases sound.cpus d with
  | running executes idle process =>
    rw [← sameCpu, ← sameMode] at executes idle
    refine .running executes idle fun p current => ?_
    rw [sameCpu] at current
    have processSound := process p current
    obtain ⟨sameChild, sameWaiting⟩ := sameGhost p current
    refine ⟨fun staying => ?_, fun leaving => ?_, fun np found => ?_, ?_, ?_, ?_⟩
    · rw [sameMode] at staying
      have isRunning := processSound.staying staying
      rcases touches p with same | ⟨_, mine⟩
      · rw [same, isRunning]
      · exact absurd (sound.unique d c p current (mine isRunning)) other
    · rw [sameMode] at leaving ⊢
      obtain ⟨held, left⟩ := processSound.leaving leaving
      rw [unlocked p held]
      exact ⟨held, left⟩
    · rw [sameMode] at found ⊢
      obtain ⟨isUnused, held⟩ := processSound.found np found
      rw [unlocked np held]
      exact ⟨isUnused, held⟩
    · rw [sameMode, sameChild]
      exact processSound.child
    · rw [sameMode, sameWaiting]
      exact processSound.waiting
    · rw [sameCpu]
      exact processSound.scheduler
  | @returning currentTick p rest current ops mode noff obeys left =>
    have held : .proc p ∈ (ghost.mode d).held := by
      rw [mode]
      exact List.mem_singleton.mpr rfl
    rw [← unlocked p held] at left
    rw [← sameCpu] at current ops noff
    rw [← sameMode] at mode
    exact .returning current ops mode noff obeys left

/-- What has to be shown of a step of `c`. -/
structure Advances (strict : Prop) (kernel : Kernel ncpu) (ghost : Ghost ncpu) (c : Fin ncpu)
    (next : Kernel ncpu) (after : Ghost ncpu) : Prop where
  touches : Touches kernel ghost c next
  cpus : ∀ d, d ≠ c → next.cpu d = kernel.cpu d
  modes : ∀ d, d ≠ c → after.mode d = ghost.mode d
  ghosts : ∀ d p, d ≠ c → (kernel.cpu d).proc = some p →
    after.child p = ghost.child p ∧ after.waiting p = ghost.waiting p
  owner : ∀ lk d, next.owner lk = some d ↔ lk ∈ (after.mode d).held
  nodup : (after.mode c).held.Nodup
  interrupts : (next.cpu c).intr = true → (next.cpu c).noff = 0
  own : CpuSound strict next after c
  unique : ∀ d p, d ≠ c → (next.cpu c).proc = some p → (kernel.cpu d).proc ≠ some p
  running : strict → ∀ p, (next.proc p).state = .running → ∃ d, (next.cpu d).proc = some p
  parked : ∀ p, (next.proc p).state.Live → (∀ d, ¬ (next.cpu d).Executing p) →
    Disciplined strict (some p) (next.proc p).context (.resumed p (after.child p) (after.waiting p))
  children : ∀ p np, after.child p = some np → (next.proc np).state = .used
  distinct : ∀ p q np, after.child p = some np → after.child q = some np → p = q
  fresh : ∀ p, (next.proc p).state.Inert → after.child p = none ∧ after.waiting p = none

theorem Sound.advance (sound : Sound strict kernel ghost)
    (advances : Advances strict kernel ghost c next after) : Sound strict next after where
  owner := advances.owner
  nodup := by
    intro d
    obtain rfl | same := eq_or_ne d c
    · exact advances.nodup
    · rw [advances.modes d same]
      exact sound.nodup d
  interrupts := by
    intro d
    obtain rfl | same := eq_or_ne d c
    · exact advances.interrupts
    · rw [advances.cpus d same]
      exact sound.interrupts d
  cpus := by
    intro d
    obtain rfl | same := eq_or_ne d c
    · exact advances.own
    · exact .frame sound advances.touches same (advances.cpus d same) (advances.modes d same)
        fun p => advances.ghosts d p same
  unique := by
    intro d e p first second
    by_cases dActs : d = c
    · by_cases eActs : e = c
      · rw [dActs, eActs]
      · subst dActs
        rw [advances.cpus e eActs] at second
        exact absurd second (advances.unique e p eActs first)
    rw [advances.cpus d dActs] at first
    obtain rfl | eActs := eq_or_ne e c
    · exact absurd first (advances.unique d p dActs second)
    · rw [advances.cpus e eActs] at second
      exact sound.unique d e p first second
  running := advances.running
  parked := advances.parked
  children := advances.children
  distinct := advances.distinct
  fresh := advances.fresh

/-- An operation that neither waits for a lock nor follows a switch to the scheduler. -/
def Op.Plain (op : Op) : Prop := (∀ lk, op ≠ .spin lk) ∧ ∀ currentTick p, op ≠ .back currentTick p

def Op.isPlain : Op → Bool
  | .spin _ | .back .. => false
  | _ => true

theorem Op.Plain.of {op : Op} (isPlain : op.isPlain = true) : op.Plain := by
  constructor <;> intros <;> rintro rfl <;> cases isPlain

theorem Sound.head (sound : Sound strict kernel ghost)
    (ops : (kernel.cpu c).ops = op :: rest) (plain : op.Plain) :
    rule strict (kernel.cpu c).proc op (Disciplined strict (kernel.cpu c).proc rest)
        (ghost.mode c) ∧
      (kernel.cpu c).noff = (ghost.mode c).held.length ∧
      ((kernel.cpu c).proc = none → ghost.mode c = .holding (ghost.mode c).held) ∧
      ∀ p, (kernel.cpu c).proc = some p → ProcessSound strict kernel ghost c p := by
  cases sound.cpus c with
  | running executes idle process =>
    cases executes with
    | next obeys noff =>
      rw [ops] at obeys
      exact ⟨obeys, noff, idle, process⟩
    | spins spinning _ _ =>
      rw [ops] at spinning
      cases spinning
      exact absurd rfl (plain.1 _)
  | returning _ atBack _ _ _ _ =>
    rw [ops] at atBack
    cases atBack
    exact absurd rfl (plain.2 _ _)

/-- The process that a CPU executes is `RUNNING` unless it is on its way to the scheduler. -/
theorem Sound.running_of_staying (sound : Sound strict kernel ghost)
    (ops : (kernel.cpu c).ops = op :: rest) (plain : op.Plain)
    (mine : (kernel.cpu c).proc = some p) (staying : (ghost.mode c).leaving = false) :
    (kernel.proc p).state = .running :=
  ((sound.head ops plain).2.2.2 p mine).staying staying

/-- A step that leaves the process states and the saved contexts alone. It may take
or give back locks, set `mode.found` and end a `sleep`. -/
structure Neutral (strict : Prop) (kernel : Kernel ncpu) (ghost : Ghost ncpu) (c : Fin ncpu)
    (next : Kernel ncpu) (after : Ghost ncpu) : Prop where
  cpus : ∀ d, d ≠ c → next.cpu d = kernel.cpu d
  owner : ∀ lk d, next.owner lk = some d ↔ lk ∈ (after.mode d).held
  nodup : (after.mode c).held.Nodup
  states : ∀ p, (next.proc p).state = (kernel.proc p).state
  contexts : ∀ p, (next.proc p).context = (kernel.proc p).context
  current : (next.cpu c).proc = (kernel.cpu c).proc
  context : (next.cpu c).context = (kernel.cpu c).context
  interrupts : (next.cpu c).intr = true → (next.cpu c).noff = 0
  modes : ∀ d, d ≠ c → after.mode d = ghost.mode d
  keeps : ∀ p, ((ghost.mode c).leaving = true ∧ (kernel.cpu c).proc = some p) ∨
    (ghost.mode c).found = some p → .proc p ∈ (ghost.mode c).held → .proc p ∈ (after.mode c).held
  leaving : (after.mode c).leaving = (ghost.mode c).leaving
  modeChild : (after.mode c).child = (ghost.mode c).child
  child : after.child = ghost.child
  found : ∀ np, (after.mode c).found = some np → (ghost.mode c).found = some np ∨
    ((kernel.proc np).state = .unused ∧ .proc np ∈ (after.mode c).held)
  waiting : ∀ p, (kernel.cpu c).proc ≠ some p → after.waiting p = ghost.waiting p
  modeWaiting : ∀ p, (kernel.cpu c).proc = some p → (after.mode c).waiting = after.waiting p
  awake : ∀ p, after.waiting p = ghost.waiting p ∨ after.waiting p = none
  executes : Executes strict (kernel.cpu c).proc (after.mode c) (next.cpu c)
  idle : (kernel.cpu c).proc = none → after.mode c = .holding (after.mode c).held

section

variable (sound : Sound strict kernel ghost)
include sound

theorem Sound.neutral
    (process : ∀ p, (kernel.cpu c).proc = some p → ProcessSound strict kernel ghost c p)
    (neutral : Neutral strict kernel ghost c next after) : Sound strict next after := by
  have sameProc : ∀ d, (next.cpu d).proc = (kernel.cpu d).proc := by
    intro d
    by_cases same : d = c
    · rw [same, neutral.current]
    · rw [neutral.cpus d same]
  refine sound.advance ⟨fun p => .inl (neutral.states p), neutral.cpus, neutral.modes, ?_,
    neutral.owner, neutral.nodup, neutral.interrupts, ?_, ?_, ?_, ?_, ?_, ?_, ?_⟩
  · intro d p other current
    rw [neutral.child]
    refine ⟨rfl, neutral.waiting p fun mine => other ?_⟩
    exact sound.unique d c p current mine
  · refine .running ?_ ?_ fun p current => ?_
    · rw [neutral.current]
      exact neutral.executes
    · rw [neutral.current]
      exact neutral.idle
    rw [neutral.current] at current
    have processSound := process p current
    refine ⟨fun staying => ?_, fun leaving => ?_, fun np found => ?_, ?_, ?_, ?_⟩
    · rw [neutral.states, processSound.staying (neutral.leaving ▸ staying)]
    · rw [neutral.leaving] at leaving
      obtain ⟨held, left⟩ := processSound.leaving leaving
      rw [neutral.states]
      exact ⟨neutral.keeps p (.inl ⟨leaving, current⟩) held, left⟩
    · rw [neutral.states]
      rcases neutral.found np found with before | unused
      · obtain ⟨isUnused, held⟩ := processSound.found np before
        exact ⟨isUnused, neutral.keeps np (.inr before) held⟩
      · exact unused
    · rw [neutral.modeChild, neutral.child]
      exact processSound.child
    · exact neutral.modeWaiting p current
    · rw [neutral.context]
      exact processSound.scheduler
  · intro d p other current
    rw [neutral.current] at current
    exact fun alsoCurrent => other (sound.unique d c p alsoCurrent current)
  · intro isStrict p isRunning
    rw [neutral.states] at isRunning
    obtain ⟨d, current⟩ := sound.running isStrict p isRunning
    exact ⟨d, by rw [sameProc, current]⟩
  · intro p live notExecuting
    rw [neutral.states] at live
    have parked := sound.parked p live fun d executing => notExecuting d ?_
    · have sameWaiting : after.waiting p = ghost.waiting p := by
        apply neutral.waiting
        intro current
        refine notExecuting c ⟨by rw [neutral.current, current], ?_⟩
        have executes := neutral.executes
        exact executes.ne_back
      rwa [neutral.contexts, neutral.child, sameWaiting]
    obtain rfl | same := eq_or_ne d c
    · refine ⟨by rw [neutral.current, executing.1], ?_⟩
      have executes := neutral.executes
      exact executes.ne_back
    · rw [neutral.cpus d same]
      exact executing
  · intro p np
    rw [neutral.child, neutral.states]
    exact sound.children p np
  · rw [neutral.child]
    exact sound.distinct
  intro p inert
  rw [neutral.states] at inert
  obtain ⟨noChild, notWaiting⟩ := sound.fresh p inert
  rw [neutral.child]
  refine ⟨noChild, ?_⟩
  rcases neutral.awake p with same | isNone
  · rw [same, notWaiting]
  · exact isNone

/-- A step that changes the CPU and nothing that its thread has in progress. -/
theorem Sound.replacesCpu
    (process : ∀ p, (kernel.cpu c).proc = some p → ProcessSound strict kernel ghost c p)
    (idle : (kernel.cpu c).proc = none → ghost.mode c = .holding (ghost.mode c).held)
    (cpus : next.cpu = update kernel.cpu c cpu) (owner : next.owner = kernel.owner)
    (states : ∀ p, (next.proc p).state = (kernel.proc p).state)
    (contexts : ∀ p, (next.proc p).context = (kernel.proc p).context)
    (current : cpu.proc = (kernel.cpu c).proc) (context : cpu.context = (kernel.cpu c).context)
    (interrupts : cpu.intr = true → cpu.noff = 0)
    (executes : Executes strict (kernel.cpu c).proc (ghost.mode c) cpu) :
    Sound strict next ghost := by
  have own : next.cpu c = cpu := by rw [cpus, update_self]
  exact sound.neutral process
    { cpus := fun d other => by rw [cpus, update_of_ne other]
      owner := owner ▸ sound.owner
      nodup := sound.nodup c
      states := states
      contexts := contexts
      current := own ▸ current
      context := own ▸ context
      interrupts := own ▸ interrupts
      modes := fun _ _ => rfl
      keeps := fun _ _ held => held
      leaving := rfl
      modeChild := rfl
      child := rfl
      found := fun _ found => .inl found
      waiting := fun _ _ => rfl
      modeWaiting := fun p current => (process p current).waiting
      awake := fun _ => .inl rfl
      executes := own ▸ executes
      idle := idle }

/-- The most frequent step: a plain operation is replaced by others, which follow
the discipline from the same mode. -/
theorem Sound.goesOn (ops : (kernel.cpu c).ops = op :: rest) (plain : op.Plain)
    (cpus : next.cpu = update kernel.cpu c { kernel.cpu c with ops := push })
    (owner : next.owner = kernel.owner) (states : ∀ p, (next.proc p).state = (kernel.proc p).state)
    (contexts : ∀ p, (next.proc p).context = (kernel.proc p).context)
    (obeys : rule strict (kernel.cpu c).proc op (Disciplined strict (kernel.cpu c).proc rest)
        (ghost.mode c) → Disciplined strict (kernel.cpu c).proc push (ghost.mode c)) :
    Sound strict next ghost := by
  obtain ⟨ruled, noff, idle, process⟩ := sound.head ops plain
  exact sound.replacesCpu process idle cpus owner states contexts rfl rfl (sound.interrupts c)
    (.next (obeys ruled) noff)

/-- A process whose lock `c` holds is current on no CPU, unless it is `RUNNING` or
about to leave `c`. -/
theorem Sound.not_current (ops : (kernel.cpu c).ops = op :: rest) (plain : op.Plain)
    (staying : (ghost.mode c).leaving = false) (held : .proc p ∈ (ghost.mode c).held)
    (notRunning : (kernel.proc p).state ≠ .running) (d : Fin ncpu) : (kernel.cpu d).proc ≠ some p := by
  intro current
  obtain rfl | same := eq_or_ne d c
  · exact notRunning (((sound.head ops plain).2.2.2 p current).staying staying)
  · rcases (sound.cpus d).running_or_held current with isRunning | heldThere
    · exact notRunning isRunning
    · exact sound.not_held held same heldThere

end

/-- A step that changes the entry `q` of a process that is not running, under its lock. -/
structure Changes (strict : Prop) (kernel : Kernel ncpu) (ghost : Ghost ncpu) (c : Fin ncpu)
    (q : Slot) (next : Kernel ncpu) (after : Ghost ncpu) : Prop where
  locked : .proc q ∈ (ghost.mode c).held
  notRunning : (kernel.proc q).state ≠ .running
  stillNot : (next.proc q).state ≠ .running
  cpus : ∀ d, d ≠ c → next.cpu d = kernel.cpu d
  owner : next.owner = kernel.owner
  others : ∀ p, p ≠ q → next.proc p = kernel.proc p
  current : (next.cpu c).proc = (kernel.cpu c).proc
  context : (next.cpu c).context = (kernel.cpu c).context
  interrupts : (next.cpu c).intr = true → (next.cpu c).noff = 0
  modes : ∀ d, d ≠ c → after.mode d = ghost.mode d
  held : (after.mode c).held = (ghost.mode c).held
  staying : (ghost.mode c).leaving = false
  stays : (after.mode c).leaving = false
  found : ∀ np, (after.mode c).found = some np → (ghost.mode c).found = some np ∧ np ≠ q
  child : ∀ p, (kernel.cpu c).proc ≠ some p → after.child p = ghost.child p
  modeChild : ∀ p, (kernel.cpu c).proc = some p → (after.mode c).child = after.child p
  waiting : after.waiting = ghost.waiting
  modeWaiting : (after.mode c).waiting = (ghost.mode c).waiting
  executes : Executes strict (kernel.cpu c).proc (after.mode c) (next.cpu c)
  idle : (kernel.cpu c).proc = none → after.mode c = .holding (after.mode c).held
  parked : (next.proc q).state.Live → Disciplined strict (some q) (next.proc q).context
    (.resumed q (ghost.child q) (ghost.waiting q))
  children : ∀ p np, after.child p = some np → (next.proc np).state = .used
  distinct : ∀ p r np, after.child p = some np → after.child r = some np → p = r
  fresh : (next.proc q).state.Inert → ghost.child q = none ∧ ghost.waiting q = none

theorem Sound.changes (sound : Sound strict kernel ghost)
    (ops : (kernel.cpu c).ops = op :: rest) (plain : op.Plain)
    (changes : Changes strict kernel ghost c q next after) : Sound strict next after := by
  obtain ⟨_, _, _, process⟩ := sound.head ops plain
  have notCurrent := sound.not_current ops plain changes.staying changes.locked changes.notRunning
  have sameProc : ∀ d, (next.cpu d).proc = (kernel.cpu d).proc := by
    intro d
    by_cases same : d = c
    · rw [same, changes.current]
    · rw [changes.cpus d same]
  have currentNe : ∀ p, (kernel.cpu c).proc = some p → p ≠ q := by
    rintro p current rfl
    exact notCurrent c current
  refine sound.advance ⟨fun p => ?_, changes.cpus, changes.modes, ?_, ?_, ?_, changes.interrupts,
    ?_, ?_, ?_, ?_, changes.children, changes.distinct, ?_⟩
  · obtain rfl | same := eq_or_ne p q
    · exact .inr ⟨changes.locked, fun isRunning => absurd isRunning changes.notRunning⟩
    · rw [changes.others p same]
      exact .inl rfl
  · intro d p other current
    rw [changes.waiting]
    refine ⟨changes.child p fun mine => other ?_, rfl⟩
    exact sound.unique d c p current mine
  · intro lk d
    rw [changes.owner]
    obtain rfl | same := eq_or_ne d c
    · rw [changes.held]
      exact sound.owner lk d
    · rw [changes.modes d same]
      exact sound.owner lk d
  · rw [changes.held]
    exact sound.nodup c
  · refine .running ?_ ?_ fun p current => ?_
    · rw [changes.current]
      exact changes.executes
    · rw [changes.current]
      exact changes.idle
    rw [changes.current] at current
    have processSound := process p current
    refine ⟨fun _ => ?_, fun leaving => ?_, fun np found => ?_, ?_, ?_, ?_⟩
    · rw [changes.others p (currentNe p current)]
      exact processSound.staying changes.staying
    · rw [changes.stays] at leaving
      cases leaving
    · obtain ⟨before, ne⟩ := changes.found np found
      rw [changes.others np ne, changes.held]
      exact processSound.found np before
    · exact changes.modeChild p current
    · rw [changes.modeWaiting, changes.waiting]
      exact processSound.waiting
    · rw [changes.context]
      exact processSound.scheduler
  · intro d p other current
    rw [changes.current] at current
    exact fun alsoCurrent => other (sound.unique d c p alsoCurrent current)
  · intro isStrict p isRunning
    have ne : p ≠ q := by
      rintro rfl
      exact changes.stillNot isRunning
    rw [changes.others p ne] at isRunning
    obtain ⟨d, current⟩ := sound.running isStrict p isRunning
    exact ⟨d, by rw [sameProc, current]⟩
  · intro p live notExecuting
    -- a process that could be resumed is not the one that acts
    have notMine : (kernel.cpu c).proc ≠ some p := by
      intro current
      refine notExecuting c ⟨by rw [changes.current, current], ?_⟩
      have executes := changes.executes
      exact executes.ne_back
    rw [changes.child p notMine, changes.waiting]
    obtain rfl | same := eq_or_ne p q
    · exact changes.parked live
    rw [changes.others p same] at live ⊢
    refine sound.parked p live fun d executing => ?_
    obtain rfl | acts := eq_or_ne d c
    · exact notMine executing.1
    · apply notExecuting d
      rw [changes.cpus d acts]
      exact executing
  intro p inert
  have notMine : (kernel.cpu c).proc ≠ some p := by
    intro current
    rw [changes.others p (currentNe p current), (process p current).staying changes.staying]
      at inert
    rcases inert with isUnused | isUsed | isZombie
    · cases isUnused
    · cases isUsed
    · cases isZombie
  rw [changes.child p notMine, changes.waiting]
  obtain rfl | same := eq_or_ne p q
  · exact changes.fresh inert
  · rw [changes.others p same] at inert
    exact sound.fresh p inert

variable {op : Op} {rest : List Op}

/-- The current process of `c` gives up the state `RUNNING` under its lock. -/
structure Departs (strict : Prop) (kernel : Kernel ncpu) (ghost : Ghost ncpu) (c : Fin ncpu)
    (p : Slot) (next : Kernel ncpu) (after : Ghost ncpu) : Prop where
  mine : (kernel.cpu c).proc = some p
  locked : .proc p ∈ (ghost.mode c).held
  stillLocked : .proc p ∈ (after.mode c).held
  departed : (next.proc p).state ≠ .running
  cpus : ∀ d, d ≠ c → next.cpu d = kernel.cpu d
  owner : ∀ lk d, next.owner lk = some d ↔ lk ∈ (after.mode d).held
  nodup : (after.mode c).held.Nodup
  others : ∀ q, q ≠ p → next.proc q = kernel.proc q
  current : (next.cpu c).proc = some p
  context : (next.cpu c).context = (kernel.cpu c).context
  interrupts : (next.cpu c).intr = true → (next.cpu c).noff = 0
  modes : ∀ d, d ≠ c → after.mode d = ghost.mode d
  leaving : (after.mode c).leaving = true
  found : (after.mode c).found = none
  staying : (ghost.mode c).leaving = false
  child : after.child = ghost.child
  modeChild : (after.mode c).child = (ghost.mode c).child
  waiting : ∀ q, q ≠ p → after.waiting q = ghost.waiting q
  modeWaiting : (after.mode c).waiting = after.waiting p
  executes : Executes strict (some p) (after.mode c) (next.cpu c)
  fresh : (next.proc p).state.Inert → ghost.child p = none ∧ after.waiting p = none

theorem Sound.departs (sound : Sound strict kernel ghost)
    (ops : (kernel.cpu c).ops = op :: rest) (plain : op.Plain)
    (departs : Departs strict kernel ghost c p next after) : Sound strict next after := by
  have processSound := (sound.head ops plain).2.2.2 p departs.mine
  have wasRunning := processSound.staying departs.staying
  have executing : (next.cpu c).Executing p := ⟨departs.current, departs.executes.ne_back⟩
  have elsewhere : ∀ d q, d ≠ c → (kernel.cpu d).proc = some q → q ≠ p := by
    rintro d q other current rfl
    exact other (sound.unique d c q current departs.mine)
  refine sound.advance ⟨fun q => ?_, departs.cpus, departs.modes, ?_, departs.owner, departs.nodup,
    departs.interrupts, ?_, ?_, ?_, ?_, ?_, ?_, ?_⟩
  · obtain rfl | same := eq_or_ne q p
    · exact .inr ⟨departs.locked, fun _ => departs.mine⟩
    · rw [departs.others q same]
      exact .inl rfl
  · intro d q other current
    rw [departs.child]
    exact ⟨rfl, departs.waiting q (elsewhere d q other current)⟩
  · refine .running ?_ (fun noProc => ?_) fun q current => ?_
    · rw [departs.current]
      exact departs.executes
    · rw [departs.current] at noProc
      cases noProc
    rw [departs.current] at current
    cases current
    refine ⟨fun staying => ?_, fun _ => ⟨departs.stillLocked, fun _ => departs.departed⟩,
      fun np found => ?_, ?_, departs.modeWaiting, ?_⟩
    · rw [departs.leaving] at staying
      cases staying
    · rw [departs.found] at found
      cases found
    · rw [departs.modeChild, departs.child]
      exact processSound.child
    · rw [departs.context]
      exact processSound.scheduler
  · intro d q other current alsoCurrent
    rw [departs.current] at current
    cases current
    exact elsewhere d p other alsoCurrent rfl
  · intro isStrict q isRunning
    have ne : q ≠ p := by
      rintro rfl
      exact departs.departed isRunning
    rw [departs.others q ne] at isRunning
    obtain ⟨d, current⟩ := sound.running isStrict q isRunning
    have other : d ≠ c := by
      rintro rfl
      rw [departs.mine] at current
      cases current
      exact ne rfl
    exact ⟨d, by rw [departs.cpus d other, current]⟩
  · intro q live notExecuting
    have ne : q ≠ p := by
      rintro rfl
      exact notExecuting c executing
    rw [departs.others q ne] at live ⊢
    rw [departs.child, departs.waiting q ne]
    refine sound.parked q live fun d isExecuting => ?_
    obtain rfl | same := eq_or_ne d c
    · have current := isExecuting.1
      rw [departs.mine] at current
      cases current
      exact ne rfl
    · apply notExecuting d
      rw [departs.cpus d same]
      exact isExecuting
  · intro q np isChild
    rw [departs.child] at isChild
    have isUsed := sound.children q np isChild
    have ne : np ≠ p := by
      rintro rfl
      rw [wasRunning] at isUsed
      cases isUsed
    rw [departs.others np ne, isUsed]
  · rw [departs.child]
    exact sound.distinct
  intro q inert
  rw [departs.child]
  obtain rfl | same := eq_or_ne q p
  · exact departs.fresh inert
  · rw [departs.others q same] at inert
    rw [departs.waiting q same]
    exact sound.fresh q inert

end Xv6.Proc
