import Mathlib.Data.List.FinRange
import Mathlib.Data.List.TakeWhile
import Xv6.Proc.Step

/-!
# The entries of the process table

What `fork`, `exit`, `wait` and `kill` do to the entries of `proc[]`. The calls are steps,
except that `allocproc` calls `allocpid` before it assigns the pid, and other calls may come
in between. A process may change its entry and its files in any way that leaves it in use with
its pid.
-/

namespace Xv6.Proc

open Function Xv6.Semantics Xv6.Semantics.TransitionSystem

/-- `p->ofile`, with the entries of the file table. -/
abbrev Files := Fin 16 → Option Nat

/-- `proc[]`, `nextpid`, and the pid in the hands of `allocproc` for an entry it has found. -/
structure ProcTable where
  proc : Slot → Process
  ofile : Slot → Files
  nextpid : Int
  taken : Slot → Option Int

/-- The entry as a successful `allocproc` leaves it. -/
def initialised (process : Process) (pid : Int) (ctime : Nat) : Process :=
  { process with
    pid := pid
    state := .used
    context := [.forkret]
    tokenBucket := 64
    lastScheduledTick := ctime }

/-- The entry of a child as `fork` leaves it. -/
def forked (process : Process) (p : Slot) (ctime : Nat) : Process :=
  { process with ticks := 0, lastScheduledTick := ctime, parent := some p, state := .runnable }

/-- The entry as `exit` leaves it, with the assignments of `sched`. -/
def exited (process : Process) (status : Int) (ctick : Nat) : Process :=
  settle { process with xstate := status, state := .zombie } ctick

/-- The entry of a process that `kill` has found. -/
def killedEntry (process : Process) : Process :=
  { process with
    killed := true
    state := if process.state = .sleeping then .runnable else process.state }

/-- The loop of `kill`. -/
def killLoop (pid : Int) (proc : Slot → Process) : List Slot → (Slot → Process) × Int
  | [] => (proc, -1)
  | p :: rest =>
    if (proc p).pid = pid then (update proc p (killedEntry (proc p)), 0)
    else killLoop pid proc rest

/-- `kill`. -/
def kill (pid : Int) (proc : Slot → Process) : (Slot → Process) × Int :=
  killLoop pid proc (List.finRange nproc)

/-- The states of a process between `fork` and `exit`. -/
def ProcState.active : ProcState → Bool
  | .sleeping | .runnable | .running => true
  | _ => false

/-- The steps; `memory` tells whether the allocations of the call succeed, and `switched` is
`FATCAT_SCHED` after the last `swtch` of a process. -/
inductive TableStep where
  | allocpid (np : Slot)
  | allocproc (np : Slot) (memory : Bool) (ctime : Nat)
  | fork (np p : Slot) (memory : Bool) (ctime : Nat)
  | runs (p : Slot) (process : Process) (ofile : Files)
  | exit (p : Slot) (status : Int) (ctick : Nat)
  | switched (p : Slot) (currentTick : Nat)
  | wait (pp : Slot)
  | kill (pid : Int)

namespace ProcTable

def set (table : ProcTable) (p : Slot) (process : Process) : ProcTable :=
  { table with proc := update table.proc p process }

/-- One step of the table. -/
def step (table : ProcTable) : TableStep → Option ProcTable
  | .allocpid np =>
    if (table.proc np).state = .unused ∧ table.taken np = none then
      some { table with
        nextpid := wrap32 (table.nextpid + 1)
        taken := update table.taken np (some table.nextpid) }
    else none
  | .allocproc np memory ctime =>
    if (table.proc np).state = .unused then
      (table.taken np).map fun pid =>
        { table.set np (if memory then initialised (table.proc np) pid ctime
            else freeproc { table.proc np with pid := pid, state := .used }) with
          taken := update table.taken np none }
    else none
  | .fork np p memory ctime =>
    if (table.proc np).state = .used then
      some (if memory then
        { table.set np (forked (table.proc np) p ctime) with
          ofile := update table.ofile np fun fd => (table.ofile p fd).or (table.ofile np fd) }
      else table.set np (freeproc (table.proc np)))
    else none
  | .runs p process ofile =>
    if ((table.proc p).state.active ∨ (table.proc p).state = .zombie) ∧ process.state.active ∧
        process.pid = (table.proc p).pid then
      some { table.set p process with ofile := update table.ofile p ofile }
    else none
  | .exit p status ctick =>
    if (table.proc p).state.active then
      some { table.set p (exited (table.proc p) status ctick) with
        ofile := update table.ofile p fun _ => none }
    else none
  | .switched p currentTick =>
    if (table.proc p).state = .zombie then
      some (table.set p (fatcatSched (table.proc p) currentTick))
    else none
  | .wait pp =>
    if (table.proc pp).state = .zombie then some (table.set pp (freeproc (table.proc pp)))
    else none
  | .kill pid => some { table with proc := (Proc.kill pid table.proc).1 }

/-- The table after `userinit`. -/
def boot : ProcTable where
  proc := update (fun _ => .blank) initproc firstProcess
  ofile := fun _ _ => none
  nextpid := 2
  taken := fun _ => none

end ProcTable

/-- The process table and its calls. -/
def procTable : TransitionSystem ProcTable TableStep := .ofStep (· = .boot) ProcTable.step

variable {table next : ProcTable} {proc : Slot → Process} {pid : Int} {p q : Slot}
  {label : TableStep}

/-! ## What `kill` does -/

/-- The first entry with a pid. -/
def entryOf (proc : Slot → Process) (pid : Int) : Option Slot :=
  (List.finRange nproc).find? fun p => (proc p).pid = pid

theorem kill_eq (pid : Int) (proc : Slot → Process) : kill pid proc =
    match entryOf proc pid with
    | some p => (update proc p (killedEntry (proc p)), 0)
    | none => (proc, -1) := by
  rw [kill, entryOf]
  induction List.finRange nproc with
  | nil => rfl
  | cons p rest ih =>
    rw [killLoop, List.find?_cons]
    by_cases same : (proc p).pid = pid
    · rw [if_pos same, decide_eq_true same]
    · rw [if_neg same, decide_eq_false same, ih]

/-- `kill` returns 0 if a process has the pid, and changes this process only, or nothing. -/
def KillExact (proc : Slot → Process) (pid : Int) : Prop :=
  ((kill pid proc).2 = 0 ↔ ∃ p, (proc p).state ≠ .unused ∧ (proc p).pid = pid) ∧
  ((kill pid proc).2 = 0 → ∃ p, (proc p).state ≠ .unused ∧ (proc p).pid = pid ∧
    (kill pid proc).1 = update proc p (killedEntry (proc p))) ∧
  ((kill pid proc).2 ≠ 0 → (kill pid proc).2 = -1 ∧ (kill pid proc).1 = proc)

/-- The first entry with the pid is in use. -/
def Aimed (proc : Slot → Process) (pid : Int) : Prop :=
  ∀ p, entryOf proc pid = some p → (proc p).state ≠ .unused

/-- What free entries are like as long as `kill` hits none of them. -/
def FreeClean (proc : Slot → Process) : Prop :=
  ∀ p, (proc p).state = .unused → (proc p).pid = 0 ∧ (proc p).killed = false

theorem entryOf_some (found : entryOf proc pid = some p) : (proc p).pid = pid := by
  simpa using List.find?_some found

theorem killExact_iff (clean : FreeClean proc) : KillExact proc pid ↔ Aimed proc pid := by
  rw [KillExact, Aimed, kill_eq]
  cases found : entryOf proc pid with
  | none =>
    have nobody : ∀ p, (proc p).pid ≠ pid := by
      intro p
      simpa using List.find?_eq_none.mp found p (List.mem_finRange p)
    simp [nobody]
  | some p =>
    have mine := entryOf_some found
    constructor
    · rintro ⟨_, changes, _⟩ q same isUnused
      cases same
      obtain ⟨r, inUse, _, same⟩ := changes rfl
      have ne : p ≠ r := fun same => inUse (same ▸ isUnused)
      have killed := congrArg (fun proc => (proc p).killed) same
      simp only [update_self, update_of_ne ne] at killed
      rw [(clean p isUnused).2] at killed
      cases killed
    · intro aimed
      have inUse := aimed p rfl
      exact ⟨⟨fun _ => ⟨p, inUse, mine⟩, fun _ => rfl⟩, fun _ => ⟨p, inUse, mine, rfl⟩, by simp⟩

theorem killedEntry_unused : (killedEntry process).state = .unused ↔ process.state = .unused := by
  simp only [killedEntry]
  split
  case isTrue asleep => simp [asleep]
  case isFalse => rfl

theorem active_inUse {state : ProcState} (active : state.active) : state ≠ .unused := by
  rintro rfl
  cases active

/-! ## What a step can do -/

/-- The pid of an entry in use, or the one that `allocproc` is about to give it. -/
def pidOf (table : ProcTable) (p : Slot) : Option Int :=
  if (table.proc p).state = .unused then table.taken p else some (table.proc p).pid

/-- A call changes the entry `p`: it leaves it free and cleared, or in use with the pid it had
or was about to get. -/
structure Alters (table next : ProcTable) (p : Slot) : Prop where
  others : ∀ q, q ≠ p → next.proc q = table.proc q ∧ next.ofile q = table.ofile q ∧
    next.taken q = table.taken q
  counter : next.nextpid = table.nextpid
  freed : (next.proc p).state = .unused → (next.proc p).pid = 0 ∧ (next.proc p).killed = false ∧
    (next.proc p).xstate = 0 ∧ (next.proc p).chan = none
  pid : (next.proc p).state ≠ .unused → pidOf table p = some (next.proc p).pid
  taken : next.taken p = none ∨ (table.proc p).state ≠ .unused ∧ next.taken p = table.taken p
  closed : (next.proc p).state.active = false → next.ofile p = (fun _ => none) ∨
    (table.proc p).state.active = false ∧ next.ofile p = table.ofile p

theorem Alters.of_set (inUse : (table.proc p).state ≠ .unused)
    (freed : process.state = .unused → process.pid = 0 ∧ process.killed = false ∧
      process.xstate = 0 ∧ process.chan = none)
    (pid : process.state ≠ .unused → process.pid = (table.proc p).pid)
    (closed : process.state.active = false → files = (fun _ => none) ∨
      (table.proc p).state.active = false ∧ files = table.ofile p) :
    Alters table { table.set p process with ofile := update table.ofile p files } p := by
  have kept (still : process.state ≠ .unused) : pidOf table p = some process.pid := by
    rw [pidOf, if_neg inUse, pid still]
  constructor <;> simp +contextual [ProcTable.set, inUse]
  case freed => simpa using freed
  case pid => exact kept
  case closed => exact closed

theorem Alters.of_setProc (inUse : (table.proc p).state ≠ .unused)
    (freed : process.state = .unused → process.pid = 0 ∧ process.killed = false ∧
      process.xstate = 0 ∧ process.chan = none)
    (pid : process.state ≠ .unused → process.pid = (table.proc p).pid)
    (inactive : (table.proc p).state.active = false) : Alters table (table.set p process) p := by
  have set : Alters table (ProcTable.set { table with ofile := update table.ofile p (table.ofile p) }
      p process) p :=
    Alters.of_set inUse freed pid fun _ => .inr ⟨inactive, rfl⟩
  rwa [update_eq_self] at set

theorem ProcTable.step_cases (ran : table.step label = some next) :
    (∃ np, label = .allocpid np ∧ (table.proc np).state = .unused ∧
      next = { table with
        nextpid := wrap32 (table.nextpid + 1)
        taken := update table.taken np (some table.nextpid) }) ∨
    (∃ pid, label = .kill pid ∧ next = { table with proc := (Proc.kill pid table.proc).1 }) ∨
    ∃ p, Alters table next p := by
  cases label with
  | allocpid np =>
    obtain ⟨⟨isUnused, _⟩, same⟩ := Option.ite_none_right_eq_some.mp ran
    exact .inl ⟨np, rfl, isUnused, (Option.some.inj same).symm⟩
  | kill pid => exact .inr (.inl ⟨pid, rfl, (Option.some.inj ran).symm⟩)
  | allocproc np memory ctime =>
    obtain ⟨isUnused, ran⟩ := Option.ite_none_right_eq_some.mp ran
    obtain ⟨pid, isTaken, rfl⟩ := Option.map_eq_some_iff.mp ran
    refine .inr (.inr ⟨np, ?_⟩)
    cases memory <;> constructor <;>
      simp +contextual [ProcTable.set, initialised, freeproc, pidOf, isUnused, isTaken,
        ProcState.active]
  | fork np p memory ctime =>
    obtain ⟨isUsed, same⟩ := Option.ite_none_right_eq_some.mp ran
    cases same
    refine .inr (.inr ⟨np, ?_⟩)
    cases memory with
    | true =>
      exact .of_set (by simp [isUsed]) (by simp [forked]) (fun _ => rfl)
        (by simp [forked, ProcState.active])
    | false =>
      exact .of_setProc (by simp [isUsed]) (by simp [freeproc]) (by simp [freeproc])
        (by simp [isUsed, ProcState.active])
  | runs p process ofile =>
    obtain ⟨⟨before, active, samePid⟩, same⟩ := Option.ite_none_right_eq_some.mp ran
    cases same
    refine .inr (.inr ⟨p, .of_set ?_ ?_ (fun _ => samePid) (by simp [active])⟩)
    · rcases before with active | isZombie
      · exact active_inUse active
      · simp [isZombie]
    · exact fun isUnused => absurd isUnused (active_inUse active)
  | exit p status ctick =>
    obtain ⟨active, same⟩ := Option.ite_none_right_eq_some.mp ran
    cases same
    exact .inr (.inr ⟨p, .of_set (active_inUse active) (by simp [exited, settle]) (fun _ => rfl)
      (fun _ => .inl rfl)⟩)
  | switched p currentTick =>
    obtain ⟨isZombie, same⟩ := Option.ite_none_right_eq_some.mp ran
    cases same
    exact .inr (.inr ⟨p, .of_setProc (by simp [isZombie]) (by simp [fatcatSched, isZombie])
      (fun _ => rfl) (by simp [isZombie, ProcState.active])⟩)
  | wait pp =>
    obtain ⟨isZombie, same⟩ := Option.ite_none_right_eq_some.mp ran
    cases same
    exact .inr (.inr ⟨pp, .of_setProc (by simp [isZombie]) (by simp [freeproc])
      (by simp [freeproc]) (by simp [isZombie, ProcState.active])⟩)

/-! ## What `kill` reaches -/

/-- The step is no `kill` that finds a free entry. -/
def KillsInUse (table : ProcTable) (label : TableStep) : Prop :=
  ∀ pid, label = .kill pid → Aimed table.proc pid

theorem FreeClean.step (clean : FreeClean table.proc) (aimed : KillsInUse table label)
    (ran : table.step label = some next) : FreeClean next.proc := by
  intro q isUnused
  rcases ProcTable.step_cases ran with ⟨np, -, -, rfl⟩ | ⟨pid, rfl, rfl⟩ | ⟨p, changes⟩
  · exact clean q isUnused
  · simp only [kill_eq] at isUnused ⊢
    cases found : entryOf table.proc pid with
    | none => exact clean q (by simpa [found] using isUnused)
    | some p =>
      simp only [found] at isUnused ⊢
      obtain rfl | same := eq_or_ne q p
      · rw [update_self, killedEntry_unused] at isUnused
        exact absurd isUnused (aimed pid rfl q found)
      · rw [update_of_ne same] at isUnused ⊢
        exact clean q isUnused
  · obtain rfl | same := eq_or_ne q p
    · obtain ⟨isFree, notKilled, _⟩ := changes.freed isUnused
      exact ⟨isFree, notKilled⟩
    · rw [(changes.others q same).1] at isUnused ⊢
      exact clean q isUnused

theorem FreeClean.boot : FreeClean ProcTable.boot.proc := by
  intro p isUnused
  obtain rfl | first := eq_or_ne p initproc
  · cases isUnused
  · simp [ProcTable.boot, update_of_ne first, Process.blank]

/-- As long as no `kill` finds a free entry, `kill` is exact for every pid but 0, and for 0
unless it finds a free entry, and a new process has not been killed. -/
theorem kill_exact_of_killsInUse {start : ProcTable} {labels : List TableStep}
    (run : (procTable.restrict KillsInUse).Runs start labels table) :
    (∀ pid, KillExact table.proc pid ↔ Aimed table.proc pid) ∧
      (∀ pid, pid ≠ 0 → Aimed table.proc pid) ∧
      ∀ np ctime next, table.step (.allocproc np true ctime) = some next →
        (next.proc np).killed = false := by
  have initial : ∀ table, (procTable.restrict KillsInUse).Initial table → FreeClean table.proc := by
    rintro _ rfl
    exact .boot
  have clean := run.invariant initial fun clean ran => FreeClean.step clean ran.2 ran.1
  refine ⟨fun pid => killExact_iff clean, fun pid nonzero p found isUnused => ?_, ?_⟩
  · rw [← entryOf_some found, (clean p isUnused).1] at nonzero
    exact nonzero rfl
  · intro np ctime next ran
    obtain ⟨isUnused, ran⟩ := Option.ite_none_right_eq_some.mp ran
    obtain ⟨pid, _, rfl⟩ := Option.map_eq_some_iff.mp ran
    simpa [ProcTable.set, initialised] using (clean np isUnused).2

/-- `kill` of the first process, by its pid. -/
theorem kill_exact_firstProcess : KillExact ProcTable.boot.proc 1 := by
  have run : (procTable.restrict KillsInUse).Runs ProcTable.boot [] ProcTable.boot := .initial rfl
  obtain ⟨exact_iff, aimed, _⟩ := kill_exact_of_killsInUse run
  exact (exact_iff 1).mpr (aimed 1 (by decide))

/-- The first free entry after `userinit`. -/
def child : Slot := ⟨1, one_lt_nproc⟩

/-- `kill(0)` returns 0 and marks a free entry; the next `fork` has a child that is killed
from the start. -/
theorem stray_kill_survives : ∃ table, procTable.Runs .boot
      [.kill 0, .allocpid child, .allocproc child true 0, .fork child initproc true 0] table ∧
    (kill 0 ProcTable.boot.proc).2 = 0 ∧ ¬KillExact ProcTable.boot.proc 0 ∧
    (table.proc child).state = .runnable ∧ (table.proc child).killed = true := by
  have found : entryOf ProcTable.boot.proc 0 = some child := by decide +kernel
  obtain ⟨table, run, fields⟩ : ∃ table, procTable.Runs .boot [.kill 0, .allocpid child,
      .allocproc child true 0, .fork child initproc true 0] table ∧
      (table.proc child).state = .runnable ∧ (table.proc child).killed = true :=
    exists_runs rfl (by decide +kernel)
  refine ⟨table, run, by rw [kill_eq, found], fun exactly => ?_, fields⟩
  exact (killExact_iff .boot).mp exactly child found rfl

/-! ## Process identifiers -/

/-- All pids are different, and those given out are behind the counter. -/
structure Pids (table : ProcTable) : Prop where
  small : table.nextpid < 2 ^ 31
  idle : ∀ p, (table.proc p).state ≠ .unused → table.taken p = none
  counted : ∀ p pid, pidOf table p = some pid →
    0 < pid ∧ (0 < table.nextpid → pid < table.nextpid)
  distinct : ∀ p q pid, pidOf table p = some pid → pidOf table q = some pid → p = q

/-- Pids may be given back, and go from `allocproc` to the entry. -/
theorem Pids.keeps (pids : Pids table) (counter : next.nextpid = table.nextpid)
    (idle : ∀ p, (next.proc p).state ≠ .unused → next.taken p = none)
    (fewer : ∀ p, pidOf next p = none ∨ pidOf next p = pidOf table p) : Pids next := by
  have before : ∀ {p pid}, pidOf next p = some pid → pidOf table p = some pid := by
    intro p pid has
    rcases fewer p with none | same
    · rw [none] at has
      cases has
    · rw [← same, has]
  refine ⟨counter ▸ pids.small, idle, fun p pid has => ?_, fun p q pid first second => ?_⟩
  · rw [counter]
    exact pids.counted p pid (before has)
  · exact pids.distinct p q pid (before first) (before second)

theorem pidOf_inUse (inUse : (table.proc p).state ≠ .unused) :
    pidOf table p = some (table.proc p).pid := if_neg inUse

/-- `allocpid` finds a positive counter. -/
def CountsUp (table : ProcTable) (label : TableStep) : Prop :=
  ∀ np, label = .allocpid np → 0 < table.nextpid

theorem Pids.allocpid (pids : Pids table) (isUnused : (table.proc np).state = .unused)
    (positive : 0 < table.nextpid) :
    Pids { table with
      nextpid := wrap32 (table.nextpid + 1)
      taken := update table.taken np (some table.nextpid) } := by
  have small := pids.small
  have counter : wrap32 (table.nextpid + 1) < 2 ^ 31 ∧
      (0 < wrap32 (table.nextpid + 1) → table.nextpid < wrap32 (table.nextpid + 1)) := by
    rw [wrap32, Int.bmod_def]
    split <;> omega
  have new : ∀ {p pid}, pidOf { table with taken := update table.taken np (some table.nextpid) } p =
      some pid → p = np ∧ pid = table.nextpid ∨ p ≠ np ∧ pidOf table p = some pid := by
    intro p pid has
    obtain rfl | same := eq_or_ne p np
    · rw [pidOf, if_pos isUnused] at has
      have given := (update_self p (some table.nextpid) table.taken).symm.trans has
      exact .inl ⟨rfl, (Option.some.inj given).symm⟩
    · simp only [pidOf, update_of_ne same] at has
      exact .inr ⟨same, has⟩
  constructor
  · exact counter.1
  · intro p inUse
    have other : p ≠ np := fun same => inUse (same ▸ isUnused)
    exact (update_of_ne other ..).trans (pids.idle p inUse)
  · intro p pid has
    rcases new has with ⟨_, rfl⟩ | ⟨_, before⟩
    · exact ⟨positive, counter.2⟩
    · obtain ⟨above, below⟩ := pids.counted p pid before
      exact ⟨above, fun still => (below positive).trans (counter.2 still)⟩
  · intro p q pid first second
    rcases new first with ⟨rfl, rfl⟩ | ⟨_, before⟩ <;> rcases new second with ⟨rfl, same⟩ | ⟨_, also⟩
    · rfl
    · exact absurd ((pids.counted q _ also).2 positive) (lt_irrefl _)
    · exact absurd ((pids.counted p _ before).2 positive) (same ▸ lt_irrefl _)
    · exact pids.distinct p q pid before also

theorem Pids.step (pids : Pids table) (counts : CountsUp table label)
    (ran : table.step label = some next) : Pids next := by
  rcases ProcTable.step_cases ran with ⟨np, rfl, isUnused, rfl⟩ | ⟨pid, rfl, rfl⟩ | ⟨p, changes⟩
  · exact pids.allocpid isUnused (counts np rfl)
  · rw [kill_eq]
    cases entryOf table.proc pid with
    | none => exact pids
    | some p =>
      have unused := @killedEntry_unused (table.proc p)
      refine pids.keeps rfl (fun q => ?_) fun q => .inr ?_ <;> by_cases same : q = p
      · subst same
        simpa [unused] using pids.idle q
      · simpa [same] using pids.idle q
      · subst same
        simp only [pidOf, update_self, unused]
        rfl
      · simp only [pidOf, update_of_ne same]
  refine pids.keeps changes.counter (fun q inUse => ?_) fun q => ?_ <;> by_cases same : q = p
  · subst same
    rcases changes.taken with none | ⟨before, kept⟩
    · exact none
    · exact kept.trans (pids.idle q before)
  · obtain ⟨proc, -, taken⟩ := changes.others q same
    exact taken.trans (pids.idle q (proc ▸ inUse))
  · subst same
    by_cases isUnused : (next.proc q).state = .unused
    · left
      rw [pidOf, if_pos isUnused]
      rcases changes.taken with none | ⟨before, kept⟩
      · exact none
      · exact kept.trans (pids.idle q before)
    · exact .inr ((pidOf_inUse isUnused).trans (changes.pid isUnused).symm)
  · obtain ⟨proc, -, taken⟩ := changes.others q same
    exact .inr (by simp only [pidOf, proc, taken])

theorem Pids.boot : Pids .boot where
  small := by decide
  idle _ _ := rfl
  counted p pid has := by
    obtain rfl | first := eq_or_ne p initproc
    · cases has
      decide
    · simp [pidOf, ProcTable.boot, first, Process.blank] at has
  distinct p q pid first second := by
    have only : ∀ r, pidOf .boot r = some pid → r = initproc := by
      intro r has
      by_contra other
      simp [pidOf, ProcTable.boot, other, Process.blank] at has
    rw [only p first, only q second]

/-- The table of `userinit` with another counter. -/
def bootAt (nextpid : Int) : ProcTable := { ProcTable.boot with nextpid := nextpid }

/-- A `fork` for which there is no memory uses up a pid. -/
theorem failedFork (n : Int) : exec ProcTable.step (bootAt n)
    [.allocpid child, .allocproc child false 0] = some (bootAt (wrap32 (n + 1))) := by
  have proc : update ProcTable.boot.proc child (freeproc { ProcTable.boot.proc child with
      pid := n, state := .used }) = ProcTable.boot.proc := update_eq_self ..
  have taken : update (update ProcTable.boot.taken child (some n)) child none =
      ProcTable.boot.taken := by
    rw [update_idem]
    exact update_eq_self ..
  have first : ProcTable.step (bootAt n) (.allocpid child) = some { bootAt (wrap32 (n + 1)) with
      taken := update ProcTable.boot.taken child (some n) } := rfl
  simp only [exec, first, Option.bind_some]
  have unused : (ProcTable.boot.proc child).state = .unused := rfl
  simp [ProcTable.step, ProcTable.set, bootAt, unused, proc, taken]

theorem failedForks (k : Nat) : exec ProcTable.step .boot
    (List.replicate k [.allocpid child, .allocproc child false 0]).flatten =
      some (bootAt (wrap32 (2 + k))) := by
  induction k with
  | zero => rfl
  | succ k ih =>
    rw [List.replicate_succ', List.flatten_append, List.flatten_singleton]
    apply exec_append ih
    rw [failedFork, wrap32, wrap32, Int.bmod_add_bmod, Nat.cast_succ, add_assoc]
    rfl

theorem fork_after_failedForks (k : Nat) : ∃ labels table, procTable.Runs .boot labels table ∧
    table.proc initproc = firstProcess ∧ (table.proc child).state = .used ∧
    (table.proc child).pid = wrap32 (2 + k) := by
  have ran (n : Int) : ∃ table, exec ProcTable.step (bootAt n)
      [.allocpid child, .allocproc child true 0] = some table ∧
      table.proc initproc = firstProcess ∧ (table.proc child).state = .used ∧
      (table.proc child).pid = n := ⟨_, rfl, rfl, rfl, rfl⟩
  obtain ⟨table, executed, facts⟩ := ran (wrap32 (2 + k))
  exact ⟨_, table, .of_exec rfl (exec_append (failedForks k) executed), facts⟩

/-- The fields of an entry that the process or others can see, and the files. -/
structure Observed where
  killed : Bool
  xstate : Int
  ticks : Int
  pticks : Int
  time : Int
  tokenBucket : Int
  avialableTokens : Int
  lastScheduledTick : Nat
  chan : Option Chan
  ofile : Files

def observe (table : ProcTable) (p : Slot) : Observed where
  killed := (table.proc p).killed
  xstate := (table.proc p).xstate
  ticks := (table.proc p).ticks
  pticks := (table.proc p).pticks
  time := (table.proc p).time
  tokenBucket := (table.proc p).tokenBucket
  avialableTokens := (table.proc p).avialableTokens
  lastScheduledTick := (table.proc p).lastScheduledTick
  chan := (table.proc p).chan
  ofile := table.ofile p

/-- A `fork` that succeeds, into the entry `np`. -/
def forkInto (np p : Slot) (alloctime ctime : Nat) : List TableStep :=
  [.allocpid np, .allocproc np true alloctime, .fork np p true ctime]

/-- What the calls clear in an entry before it is free. -/
structure Released (table : ProcTable) : Prop where
  closed : ∀ p, (table.proc p).state.active = false → table.ofile p = fun _ => none
  cleared : ∀ p, (table.proc p).state = .unused → (table.proc p).xstate = 0 ∧
    (table.proc p).chan = none

theorem Released.step (released : Released table) (ran : table.step label = some next) :
    Released next := by
  rcases ProcTable.step_cases ran with ⟨np, -, -, rfl⟩ | ⟨pid, rfl, rfl⟩ | ⟨p, changes⟩
  · exact ⟨released.closed, released.cleared⟩
  · rw [kill_eq]
    cases entryOf table.proc pid with
    | none => exact released
    | some p =>
      constructor <;> intro q <;> by_cases same : q = p
      · subst same
        simp only [update_self, killedEntry]
        split
        case isTrue => exact fun inactive => nomatch inactive
        case isFalse => exact released.closed q
      · simpa [same] using released.closed q
      · subst same
        simp only [update_self, killedEntry_unused]
        exact released.cleared q
      · simpa [same] using released.cleared q
  constructor <;> intro q <;> by_cases same : q = p
  · subst same
    intro inactive
    rcases changes.closed inactive with none | ⟨before, kept⟩
    · exact none
    · exact kept.trans (released.closed q before)
  · obtain ⟨proc, ofile, -⟩ := changes.others q same
    rw [proc, ofile]
    exact released.closed q
  · subst same
    exact fun isUnused => (changes.freed isUnused).2.2
  · rw [(changes.others q same).1]
    exact released.cleared q

theorem Released.boot : Released .boot where
  closed _ _ := rfl
  cleared p isUnused := by
    obtain rfl | first := eq_or_ne p initproc
    · cases isUnused
    · simp [ProcTable.boot, update_of_ne first, Process.blank]

/-- The fields of a free entry that neither `freeproc` nor `allocproc` nor `fork` assigns, and
`killed`. -/
def SameLeftovers (first second : Process) : Prop :=
  first.killed = second.killed ∧ first.pticks = second.pticks ∧ first.time = second.time ∧
    first.avialableTokens = second.avialableTokens

/-- The child that `fork` makes in a free entry. -/
theorem Released.forkInto (released : Released table)
    (free : (table.proc np).state = .unused ∧ table.taken np = none) (p : Slot)
    (alloctime ctime : Nat) :
    ∃ next, exec ProcTable.step table (forkInto np p alloctime ctime) = some next ∧
      observe next np =
        { killed := (table.proc np).killed
          xstate := 0
          ticks := 0
          pticks := (table.proc np).pticks
          time := (table.proc np).time
          tokenBucket := 64
          avialableTokens := (table.proc np).avialableTokens
          lastScheduledTick := ctime
          chan := none
          ofile := table.ofile p } := by
  obtain ⟨isUnused, notTaken⟩ := free
  obtain ⟨noStatus, noChan⟩ := released.cleared np isUnused
  have noFiles := released.closed np (by simp [isUnused, ProcState.active])
  refine ⟨_, by simp [Proc.forkInto, exec, ProcTable.step, ProcTable.set, isUnused, notTaken,
    initialised]; rfl, ?_⟩
  simp [observe, forked, noStatus, noChan, noFiles]

/-- A child that exits at the given tick and is waited for, then another one. -/
def exitsAt (ctick : Nat) : List TableStep :=
  forkInto child initproc 0 0 ++ [.exit child 0 ctick, .wait child] ++
    forkInto child initproc 10 10

end Xv6.Proc
