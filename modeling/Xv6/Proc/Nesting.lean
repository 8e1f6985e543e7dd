import Xv6.Proc.Watched

/-!
# The nesting of `push_off` and `pop_off`

`noff` and `intena` belong to a CPU, the nesting to a kernel thread. Here threads call
`acquire`, `release`, `push_off`, `pop_off` and `myproc` in any order and switch through `sched`
and `scheduler`; the clock and the process states, which decide when they do so, are left
open. A panic stops its CPU. The history says which calls of `push_off` have not been undone,
and how each thread found and left the interrupts.
-/

namespace Xv6.Proc

open Xv6.Semantics Function

variable {ncpu : Nat}

/-- The calls of `push_off` that a thread has not undone: how many, the interrupts before the first
of them, and whether the thread has switched to another one since. -/
structure Nest where
  depth : Nat
  before : Option Bool
  switched : Bool

/-- A thread that starts in `forkret`, where it undoes a `push_off` of the scheduler. -/
def Nest.forkret : Nest := ⟨1, none, false⟩

/-- What a thread (a process's, or the scheduler) did from its outermost `push_off` to the matching
`pop_off`: the interrupts before and after, and whether it switched. -/
structure Section where
  thread : Option Slot
  before : Bool
  after : Bool
  switched : Bool
  deriving DecidableEq

/-- A CPU, the history of the thread that it executes and of its scheduler while that waits for
a process, the calls made on it, and what threads have completed on it. -/
structure Core where
  cpu : Cpu
  nest : Nest
  scheduler : Nest
  pushes : Nat
  pops : Nat
  sections : List Section

/-- A thread that is switched out: the variable `intena`, if it is in `sched`, and whether the
last swtch of `sched` is still to come. -/
structure Parked where
  intena : Option Bool
  again : Bool
  nest : Nest

structure Cores (ncpu : Nat) where
  core : Fin ncpu → Core
  owner : Lock → Option (Fin ncpu)
  spinning : Fin ncpu → Option Lock
  parked : Slot → Option Parked

namespace Core

def pushOff (core : Core) : Core :=
  { core with
    cpu := core.cpu.pushOff
    nest :=
      if core.nest.depth = 0 then ⟨1, some core.cpu.intr, false⟩
      else { core.nest with depth := core.nest.depth + 1 }
    pushes := core.pushes + 1 }

def popOff (core : Core) : Option Core :=
  match core.cpu.popOff with
  | .error _ => none
  | .ok cpu => some
    { core with
      cpu
      nest := { core.nest with depth := core.nest.depth - 1 }
      pops := core.pops + 1
      sections :=
        if core.nest.depth = 1 then
          core.nest.before.toList.map (⟨cpu.proc, ·, cpu.intr, core.nest.switched⟩) ++ core.sections
        else core.sections }

/-- The scheduler resumes. -/
def leave (core : Core) : Core :=
  { core with cpu := { core.cpu with proc := none }, nest := core.scheduler }

/-- The thread of `p` resumes, in `sched` with `mycpu()->intena = intena`. -/
def enter (core : Core) (p : Slot) (thread : Parked) : Core :=
  { core with
    cpu := { core.cpu with proc := some p, intena := thread.intena.getD core.cpu.intena }
    nest := thread.nest
    scheduler := { core.nest with switched := true } }

/-- `intena = mycpu()->intena; swtch(&p->context, &mycpu()->context);`. -/
def park (core : Core) (again : Bool) : Parked := ⟨some core.cpu.intena, again, core.nest⟩

end Core

inductive Call where
  | pushOff
  | popOff
  | myproc
  | acquire (lk : Lock)
  | spin
  | release (lk : Lock)
  /-- `sched`; `drained` chooses the branch that has a swtch of its own. -/
  | sched (drained : Bool)
  /-- The swtch of `scheduler`. -/
  | switchTo (p : Slot)
  | allocproc (p : Slot)
  /-- `intr_on`, `intr_off` and traps. -/
  | setIntr (intr : Bool)

namespace Cores

def setCore (cores : Cores ncpu) (c : Fin ncpu) (core : Core) : Cores ncpu :=
  { cores with core := update cores.core c core }

def setParked (cores : Cores ncpu) (p : Slot) (thread : Option Parked) : Cores ncpu :=
  { cores with parked := update cores.parked p thread }

/-- A call by the thread that CPU `c` executes. -/
def perform (cores : Cores ncpu) (c : Fin ncpu) : Call → Option (Cores ncpu)
  | .pushOff => some (cores.setCore c (cores.core c).pushOff)
  | .popOff => (cores.core c).popOff.map (cores.setCore c)
  | .myproc => (cores.core c).pushOff.popOff.map (cores.setCore c)
  | .acquire lk =>
    if cores.owner lk = some c then none
    else some { cores.setCore c (cores.core c).pushOff with
      spinning := update cores.spinning c (some lk) }
  | .spin =>
    match cores.spinning c with
    | none => none
    | some lk =>
      if cores.owner lk = none then
        some { cores with
          owner := update cores.owner lk (some c)
          spinning := update cores.spinning c none }
      else none
  | .release lk =>
    if cores.owner lk = some c then
      (cores.core c).popOff.map ({ cores with owner := update cores.owner lk none }.setCore c)
    else none
  | .sched drained =>
    match (cores.core c).cpu.proc with
    | none => none
    | some p =>
      if cores.owner (.proc p) = some c ∧ (cores.core c).cpu.noff = 1 ∧
          (cores.core c).cpu.intr = false then
        some ((cores.setParked p ((cores.core c).park drained)).setCore c (cores.core c).leave)
      else none
  | .switchTo p =>
    match (cores.core c).cpu.proc, cores.parked p with
    | none, some thread =>
      -- `scheduler` holds `p->lock` alone.
      if cores.owner (.proc p) = some c ∧ (cores.core c).cpu.noff = 1 then
        let entered := (cores.core c).enter p thread
        if thread.again then
          some ((cores.setParked p (entered.park false)).setCore c entered.leave)
        else some ((cores.setParked p none).setCore c entered)
      else none
    | _, _ => none
  | .allocproc p =>
    if (cores.parked p).isSome then some (cores.setParked p (some ⟨none, false, .forkret⟩))
    else none
  | .setIntr intr =>
    let core := cores.core c
    if core.cpu.noff = 0 then some (cores.setCore c { core with cpu := { core.cpu with intr } })
    else none

/-- A step of a CPU. While it spins it does nothing else. -/
def step (cores : Cores ncpu) : Fin ncpu × Call → Option (Cores ncpu)
  | (c, .spin) => cores.perform c .spin
  | (c, call) => if cores.spinning c = none then cores.perform c call else none

/-- No thread has run yet; nothing is known about the interrupts. -/
def boot (intr : Fin ncpu → Bool) : Cores ncpu where
  core c := ⟨⟨none, [], 0, false, intr c, []⟩, ⟨0, none, false⟩, ⟨0, none, false⟩, 0, 0, []⟩
  owner _ := none
  spinning _ := none
  parked _ := some ⟨none, false, .forkret⟩

end Cores

/-- All sequences of calls. -/
def nesting (ncpu : Nat) : TransitionSystem (Cores ncpu) (Fin ncpu × Call) :=
  .ofStep (fun cores => ∃ intr, cores = .boot intr) Cores.step

/-! ## The invariant -/

/-- Of a process, and of a scheduler that has not switched, `intena` is what it has found. -/
structure Core.Nested (core : Core) : Prop where
  counted : core.cpu.noff + core.pops = core.pushes
  off : core.cpu.intr = true → core.cpu.noff = 0
  depth : core.nest.depth = core.cpu.noff
  saved : 0 < core.cpu.noff → (core.cpu.proc ≠ none ∨ core.nest.switched = false) →
    ∀ before, core.nest.before = some before → core.cpu.intena = before
  restores : ∀ done ∈ core.sections, (done.thread ≠ none ∨ done.switched = false) →
    done.after = done.before
  waits : core.cpu.proc ≠ none → core.scheduler.depth = 1 ∧ core.scheduler.switched = true

structure Parked.Nested (thread : Parked) : Prop where
  depth : thread.nest.depth = 1
  saved : ∀ before, thread.nest.before = some before → thread.intena = some before

namespace Core.Nested

variable {core next : Core} {p : Slot}

theorem pushOff (nested : core.Nested) : core.pushOff.Nested := by
  obtain ⟨counted, off, depth, saved, restores, waits⟩ := nested
  have counts : core.cpu.noff + 1 + core.pops = core.pushes + 1 := by omega
  by_cases outermost : core.nest.depth = 0
  · have unlocked : core.cpu.noff = 0 := by omega
    refine ⟨counts, nofun, ?_, ?_, restores, waits⟩
    · simp [Core.pushOff, Cpu.pushOff, outermost, unlocked]
    · simp [Core.pushOff, Cpu.pushOff, outermost, unlocked]
  · have locked : core.cpu.noff ≠ 0 := by omega
    refine ⟨counts, nofun, ?_, fun _ => ?_, restores, waits⟩
    · simp [Core.pushOff, Cpu.pushOff, depth, locked]
    · simpa [Core.pushOff, Cpu.pushOff, outermost, locked] using saved (by omega)

theorem popOff (nested : core.Nested) (popped : core.popOff = some next) : next.Nested := by
  obtain ⟨counted, off, depth, saved, restores, waits⟩ := nested
  unfold Core.popOff at popped
  split at popped
  case h_1 => cases popped
  case h_2 cpu ok =>
  unfold Cpu.popOff at ok
  split_ifs at ok with enabled unlocked
  cases ok
  cases popped
  refine ⟨?_, fun enabled => (of_decide_eq_true enabled).1, ?_, fun inner => ?_,
    fun done member trusted => ?_, waits⟩
  · simp only
    omega
  · simp only
    omega
  · exact saved (Nat.lt_of_lt_of_le inner (Nat.sub_le ..))
  · simp only at member
    split at member
    case isFalse => exact restores done member trusted
    case isTrue outermost =>
      rcases List.mem_append.mp member with new | old
      case inr => exact restores done old trusted
      obtain ⟨before, found, rfl⟩ := List.mem_map.mp new
      have same := saved (by omega) trusted before (Option.mem_toList.mp found)
      have last : core.cpu.noff - 1 = 0 := by omega
      simp [last, same]

theorem leave (nested : core.Nested) (current : core.cpu.proc ≠ none) (alone : core.cpu.noff = 1) :
    core.leave.Nested where
  counted := nested.counted
  off := nested.off
  depth := (nested.waits current).1.trans alone.symm
  saved _ trusted := by
    rcases trusted with process | unswitched
    · exact absurd rfl process
    · exact absurd ((nested.waits current).2.symm.trans unswitched) nofun
  restores := nested.restores
  waits process := absurd rfl process

theorem park (nested : core.Nested) (current : core.cpu.proc ≠ none) (alone : core.cpu.noff = 1)
    (again : Bool) : (core.park again).Nested where
  depth := nested.depth.trans alone
  saved before found := congrArg some (nested.saved (by omega) (.inl current) before found)

theorem enter (nested : core.Nested) {thread : Parked} (parked : thread.Nested) (p : Slot)
    (alone : core.cpu.noff = 1) : (core.enter p thread).Nested where
  counted := nested.counted
  off := nested.off
  depth := parked.depth.trans alone.symm
  saved _ _ before found := by simp [Core.enter, parked.saved before found]
  restores := nested.restores
  waits _ := ⟨nested.depth.trans alone, rfl⟩

end Core.Nested

/-- The invariant of every CPU and every thread that is switched out. -/
structure Cores.Nested (cores : Cores ncpu) : Prop where
  core : ∀ c, (cores.core c).Nested
  parked : ∀ p thread, cores.parked p = some thread → thread.Nested

namespace Cores.Nested

variable {cores next : Cores ncpu} {c : Fin ncpu} {p : Slot}

theorem setCore (nested : cores.Nested) {core : Core} (inside : core.Nested) :
    (cores.setCore c core).Nested :=
  ⟨(forall_update_iff _ fun _ => Core.Nested).mpr ⟨inside, fun d _ => nested.core d⟩,
    nested.parked⟩

theorem setParked (nested : cores.Nested) {thread : Option Parked}
    (inside : ∀ found, thread = some found → found.Nested) :
    (cores.setParked p thread).Nested :=
  ⟨nested.core, (forall_update_iff cores.parked fun _ thread => ∀ found, thread = some found →
    found.Nested).mpr ⟨inside, fun q _ => nested.parked q⟩⟩

theorem popped (nested : cores.Nested) {core : Core} (inside : core.Nested)
    (ran : core.popOff.map (cores.setCore c) = some next) : next.Nested := by
  obtain ⟨after, popped, rfl⟩ := Option.map_eq_some_iff.mp ran
  exact nested.setCore (inside.popOff popped)

theorem perform (nested : cores.Nested) {call : Call} (ran : cores.perform c call = some next) :
    next.Nested := by
  have inside := nested.core c
  cases call with
  | pushOff =>
    cases ran
    exact nested.setCore inside.pushOff
  | popOff => exact nested.popped inside ran
  | myproc => exact nested.popped inside.pushOff ran
  | acquire lk =>
    simp only [Cores.perform] at ran
    split_ifs at ran
    cases ran
    have pushed := nested.setCore (c := c) inside.pushOff
    exact ⟨pushed.core, pushed.parked⟩
  | spin =>
    simp only [Cores.perform] at ran
    split at ran
    · cases ran
    · split_ifs at ran
      cases ran
      exact ⟨nested.core, nested.parked⟩
  | release lk =>
    simp only [Cores.perform] at ran
    split_ifs at ran
    have freed : ({ cores with owner := update cores.owner lk none } : Cores ncpu).Nested :=
      ⟨nested.core, nested.parked⟩
    exact freed.popped inside ran
  | sched drained =>
    simp only [Cores.perform] at ran
    split at ran
    · cases ran
    case h_2 p current =>
      split_ifs at ran with allowed
      cases ran
      have process : (cores.core c).cpu.proc ≠ none := by simp [current]
      refine (nested.setParked ?_).setCore (inside.leave process allowed.2.1)
      rintro _ ⟨⟩
      exact inside.park process allowed.2.1 drained
  | switchTo p =>
    simp only [Cores.perform] at ran
    split at ran
    case h_2 => cases ran
    case h_1 thread _ found =>
      split_ifs at ran with allowed again
      · cases ran
        have entered := inside.enter (nested.parked p thread found) p allowed.2
        refine (nested.setParked ?_).setCore (entered.leave nofun allowed.2)
        rintro _ ⟨⟩
        exact entered.park nofun allowed.2 false
      · cases ran
        exact (nested.setParked fun _ none => by cases none).setCore
          (inside.enter (nested.parked p thread found) p allowed.2)
  | allocproc p =>
    simp only [Cores.perform] at ran
    split_ifs at ran
    cases ran
    apply nested.setParked
    rintro _ ⟨⟩
    exact ⟨rfl, nofun⟩
  | setIntr intr =>
    simp only [Cores.perform] at ran
    split_ifs at ran with unlocked
    cases ran
    apply nested.setCore
    exact ⟨inside.counted, fun _ => unlocked, inside.depth, inside.saved, inside.restores,
      inside.waits⟩

theorem step (nested : cores.Nested) {label : Fin ncpu × Call}
    (ran : cores.step label = some next) : next.Nested := by
  unfold Cores.step at ran
  split at ran
  · exact nested.perform ran
  · split_ifs at ran
    exact nested.perform ran

theorem boot (intr : Fin ncpu → Bool) : (Cores.boot intr).Nested := by
  refine ⟨fun c => ⟨rfl, fun _ => rfl, rfl, nofun, nofun, fun process => absurd rfl process⟩, ?_⟩
  rintro p _ ⟨⟩
  exact ⟨rfl, nofun⟩

end Cores.Nested

/-- The scheduler enables interrupts and runs a process, which is interrupted and yields. -/
def yieldCalls : List (Fin 1 × Call) :=
  [.setIntr true, .acquire (.proc initproc), .spin, .switchTo initproc, .release (.proc initproc),
    .setIntr false, .acquire (.proc initproc), .spin, .sched false, .release (.proc initproc)].map
    (⟨0, Nat.one_pos⟩, ·)

end Xv6.Proc
