import Xv6.Proc.Frame

/-!
# Context switches

The three places where a CPU changes threads: `scheduler` picks a runnable
process, `sched` saves a process and resumes the scheduler, and the scheduler
finishes with the process it was switched back from.
-/

namespace Xv6.Proc

open Function Xv6.Semantics

variable {ncpu : Nat} {strict : Prop} {kernel next : Kernel ncpu} {ghost : Ghost ncpu}
  {c : Fin ncpu} {p : Slot}

/-- The ghost state after the thread on `c` has got into another mode. -/
def Ghost.enter (ghost : Ghost ncpu) (c : Fin ncpu) (mode : Mode) : Ghost ncpu :=
  { ghost with mode := update ghost.mode c mode }

@[simp] theorem Ghost.enter_self (mode : Mode) : (ghost.enter c mode).mode c = mode :=
  update_self ..

theorem Ghost.enter_of_ne (other : d ≠ c) (mode : Mode) :
    (ghost.enter c mode).mode d = ghost.mode d :=
  update_of_ne other ..

@[simp] theorem Ghost.enter_child (mode : Mode) : (ghost.enter c mode).child = ghost.child := rfl

@[simp] theorem Ghost.enter_waiting (mode : Mode) :
    (ghost.enter c mode).waiting = ghost.waiting := rfl

section

variable (sound : Sound strict kernel ghost)
include sound

theorem Sound.owner_enter (held : mode.held = (ghost.mode c).held) (lk : Lock) (d : Fin ncpu) :
    kernel.owner lk = some d ↔ lk ∈ ((ghost.enter c mode).mode d).held := by
  obtain rfl | same := eq_or_ne d c
  · rw [Ghost.enter_self, held]
    exact sound.owner lk d
  · rw [Ghost.enter_of_ne same]
    exact sound.owner lk d

section

variable (ops : (kernel.cpu c).ops = .pick currentTick p :: rest)
  (runnable : (kernel.proc p).state = .runnable)
include ops runnable

theorem Sound.picked :
    Disciplined strict (some p) (kernel.proc p).context
      (.resumed p (ghost.child p) (ghost.waiting p)) := by
  obtain ⟨_, mode, _⟩ := (sound.head ops (.of rfl)).1
  have held : .proc p ∈ (ghost.mode c).held := by simp [mode, Mode.holding]
  have notCurrent : ∀ d, (kernel.cpu d).proc ≠ some p :=
    sound.not_current ops (.of rfl) (by rw [mode]; rfl) held (by simp [runnable])
  exact sound.parked p (.inr (.inl runnable)) fun d executing => notCurrent d executing.1

theorem Sound.switchesIn (cpus : next.cpu = update kernel.cpu c
      { kernel.cpu c with
        proc := some p
        context := .back currentTick p :: rest
        ops := (kernel.proc p).context }) (owner : next.owner = kernel.owner)
    (procs : next.proc = update kernel.proc p { kernel.proc p with state := .running }) :
    Sound strict next (ghost.enter c (.resumed p (ghost.child p) (ghost.waiting p))) := by
  obtain ⟨⟨idle, mode, obeys⟩, noff, _, _⟩ := sound.head ops (.of rfl)
  have held : .proc p ∈ (ghost.mode c).held := by simp [mode, Mode.holding]
  have notCurrent : ∀ d, (kernel.cpu d).proc ≠ some p :=
    sound.not_current ops (.of rfl) (by rw [mode]; rfl) held (by simp [runnable])
  have resumes := sound.picked ops runnable
  have other : ∀ q, q ≠ p → next.proc q = kernel.proc q := fun q ne => by
    rw [procs, update_of_ne ne]
  have itself : (next.proc p).state = .running := by rw [procs, update_self]
  have elsewhere : ∀ d, d ≠ c → next.cpu d = kernel.cpu d := fun d ne => by
    rw [cpus, update_of_ne ne]
  have here : (next.cpu c).proc = some p := by rw [cpus, update_self]
  rw [idle, mode] at obeys
  refine sound.advance ⟨fun q => ?_, elsewhere, fun d ne => Ghost.enter_of_ne ne _,
    fun _ _ _ _ => ⟨rfl, rfl⟩, ?_, ?_, ?_, ?_, ?_, ?_, ?_, ?_, sound.distinct, ?_⟩
  · obtain rfl | same := eq_or_ne q p
    · exact .inr ⟨held, fun isRunning => by rw [runnable] at isRunning; cases isRunning⟩
    · rw [other q same]
      exact .inl rfl
  · intro lk d
    rw [owner]
    exact sound.owner_enter (by rw [mode]; rfl) lk d
  · simp [Mode.resumed]
  · rw [cpus, update_self]
    exact sound.interrupts c
  · refine .running ?_ (fun noProc => ?_) fun q current => ?_
    · rw [here, Ghost.enter_self, cpus, update_self]
      refine .next resumes ?_
      rw [noff, mode]
      rfl
    · rw [here] at noProc
      cases noProc
    rw [here] at current
    cases current
    refine ⟨fun _ => itself, fun leaving => ?_, fun np found => ?_, ?_, ?_, ?_⟩
    · rw [Ghost.enter_self] at leaving
      cases leaving
    · rw [Ghost.enter_self] at found
      cases found
    · rw [Ghost.enter_self]
      rfl
    · rw [Ghost.enter_self]
      rfl
    · rw [cpus, update_self]
      exact ⟨currentTick, rest, rfl, obeys⟩
  · intro d q _ current
    rw [here] at current
    cases current
    exact notCurrent d
  · intro isStrict q isRunning
    by_cases same : q = p
    · exact ⟨c, by rw [here, same]⟩
    rw [other q same] at isRunning
    obtain ⟨d, current⟩ := sound.running isStrict q isRunning
    refine ⟨d, ?_⟩
    rw [elsewhere d, current]
    rintro rfl
    rw [idle] at current
    cases current
  · intro q live notExecuting
    obtain rfl | same := eq_or_ne q p
    · rw [itself] at live
      rcases live with impossible | impossible | impossible <;> cases impossible
    rw [other q same] at live ⊢
    refine sound.parked q live fun d executing => ?_
    obtain rfl | acts := eq_or_ne d c
    · have current := executing.1
      rw [idle] at current
      cases current
    · apply notExecuting d
      rw [elsewhere d acts]
      exact executing
  · intro q np isChild
    have isUsed := sound.children q np isChild
    rw [other np, isUsed]
    rintro rfl
    rw [runnable] at isUsed
    cases isUsed
  intro q inert
  obtain rfl | same := eq_or_ne q p
  · rw [itself] at inert
    rcases inert with impossible | impossible | impossible <;> cases impossible
  · rw [other q same] at inert
    exact sound.fresh q inert

end

theorem Sound.switchesOut (ops : (kernel.cpu c).ops = op :: rest) (plain : op.Plain)
    (mine : (kernel.cpu c).proc = some p) (held : (ghost.mode c).held = [.proc p])
    (cpus : next.cpu = update kernel.cpu c
      { kernel.cpu c with ops := (kernel.cpu c).context })
    (owner : next.owner = kernel.owner) (other : ∀ q, q ≠ p → next.proc q = kernel.proc q)
    (state : (next.proc p).state = (kernel.proc p).state ∨
      ((kernel.proc p).state = .sleeping ∧ (next.proc p).state = .runnable))
    (left : strict → (next.proc p).state ≠ .running)
    (resumes : Disciplined strict (some p) (next.proc p).context
      (.resumed p (ghost.child p) (ghost.waiting p))) :
    Sound strict next (ghost.enter c (.holding [.proc p])) := by
  obtain ⟨_, noff, _, process⟩ := sound.head ops plain
  have processSound := process p mine
  obtain ⟨currentTick, later, schedulerOps, obeys⟩ := processSound.scheduler
  have elsewhere : ∀ d, d ≠ c → next.cpu d = kernel.cpu d := fun d ne => by
    rw [cpus, update_of_ne ne]
  have here : (next.cpu c).proc = some p := by rw [cpus, update_self, mine]
  have atBack : (next.cpu c).ops = .back currentTick p :: later := by
    rw [cpus, update_self, schedulerOps]
  refine sound.advance ⟨fun q => ?_, elsewhere, fun d ne => Ghost.enter_of_ne ne _,
    fun _ _ _ _ => ⟨rfl, rfl⟩, ?_, ?_, ?_, ?_, ?_, ?_, ?_, ?_, sound.distinct, ?_⟩
  · obtain rfl | same := eq_or_ne q p
    · exact .inr ⟨by simp [held], fun _ => mine⟩
    · rw [other q same]
      exact .inl rfl
  · intro lk d
    rw [owner]
    exact sound.owner_enter held.symm lk d
  · simp [Mode.holding]
  · rw [cpus, update_self]
    exact sound.interrupts c
  · refine .returning here atBack (Ghost.enter_self _) ?_ obeys left
    rw [cpus, update_self, noff, held]
    rfl
  · intro d q ne current alsoCurrent
    rw [here] at current
    cases current
    exact ne (sound.unique d c p alsoCurrent mine)
  · intro isStrict q isRunning
    have ne : q ≠ p := by
      rintro rfl
      exact left isStrict isRunning
    rw [other q ne] at isRunning
    obtain ⟨d, current⟩ := sound.running isStrict q isRunning
    refine ⟨d, ?_⟩
    rw [elsewhere d, current]
    rintro rfl
    rw [mine] at current
    cases current
    exact ne rfl
  · intro q live notExecuting
    obtain rfl | same := eq_or_ne q p
    · exact resumes
    rw [other q same] at live ⊢
    refine sound.parked q live fun d executing => ?_
    obtain rfl | acts := eq_or_ne d c
    · have current := executing.1
      rw [mine] at current
      cases current
      exact same rfl
    · apply notExecuting d
      rw [elsewhere d acts]
      exact executing
  · intro q np isChild
    have isUsed := sound.children q np isChild
    obtain rfl | same := eq_or_ne np p
    · rcases state with unchanged | ⟨wasSleeping, _⟩
      · rw [unchanged, isUsed]
      · rw [isUsed] at wasSleeping
        cases wasSleeping
    · rw [other np same, isUsed]
  intro q inert
  obtain rfl | same := eq_or_ne q p
  · rcases state with unchanged | ⟨_, nowRunnable⟩
    · rw [unchanged] at inert
      exact sound.fresh q inert
    · rw [nowRunnable] at inert
      rcases inert with impossible | impossible | impossible <;> cases impossible
  · rw [other q same] at inert
    exact sound.fresh q inert

end

/-- The scheduler is done with the process it was switched back from. -/
theorem Sound.switchedBack (sound : Sound strict kernel ghost)
    (ops : (kernel.cpu c).ops = .back currentTick p :: rest)
    (cpus : next.cpu = update kernel.cpu c
      { kernel.cpu c with proc := none, ops := rest })
    (owner : next.owner = kernel.owner)
    (states : ∀ q, (next.proc q).state = (kernel.proc q).state)
    (contexts : ∀ q, (next.proc q).context = (kernel.proc q).context) :
    Sound strict next ghost := by
  have elsewhere : ∀ d, d ≠ c → next.cpu d = kernel.cpu d := fun d ne => by
    rw [cpus, update_of_ne ne]
  have idle : (next.cpu c).proc = none := by rw [cpus, update_self]
  cases sound.cpus c with
  | running executes _ _ =>
    exfalso
    cases executes with
    | next obeys _ =>
      rw [ops] at obeys
      exact obeys
    | spins spinning _ _ =>
      rw [ops] at spinning
      cases spinning
  | returning current atBack mode noff obeys left =>
    rw [ops] at atBack
    cases atBack
    refine sound.advance ⟨fun q => .inl (states q), elsewhere, fun _ _ => rfl,
      fun _ _ _ _ => ⟨rfl, rfl⟩, ?_, sound.nodup c, ?_, ?_, ?_, ?_, ?_, ?_, sound.distinct, ?_⟩
    · intro lk d
      rw [owner]
      exact sound.owner lk d
    · rw [cpus, update_self]
      exact sound.interrupts c
    · refine .running ?_ (fun _ => ?_) fun q isCurrent => ?_
      · rw [idle, mode, cpus, update_self]
        exact .next obeys noff
      · rw [mode]
        rfl
      · rw [idle] at isCurrent
        cases isCurrent
    · intro d q _ isCurrent
      rw [idle] at isCurrent
      cases isCurrent
    · intro isStrict q isRunning
      rw [states] at isRunning
      obtain ⟨d, isCurrent⟩ := sound.running isStrict q isRunning
      refine ⟨d, ?_⟩
      rw [elsewhere d, isCurrent]
      rintro rfl
      rw [current] at isCurrent
      cases isCurrent
      exact left isStrict isRunning
    · intro q live notExecuting
      rw [states] at live
      rw [contexts]
      refine sound.parked q live fun d executing => ?_
      obtain rfl | acts := eq_or_ne d c
      · exact executing.2 _ _ _ ops
      · apply notExecuting d
        rw [elsewhere d acts]
        exact executing
    · intro q np isChild
      rw [states]
      exact sound.children q np isChild
    · intro q inert
      rw [states] at inert
      exact sound.fresh q inert

end Xv6.Proc
