import Xv6.Proc.Bodies
import Xv6.Proc.Locking
import Xv6.Semantics.Update

/-!
# Every step preserves soundness

One lemma for each kind of operation that changes the process table, and the
theorem for a step of the machine. Two kinds of steps are left out: a `pslist`
that puts a process to sleep, and, under `strict`, a `sched` that wakes up a
sleeping process without tokens.
-/

namespace Xv6.Proc

open Function Xv6.Semantics

variable {ncpu : Nat} {strict : Prop} {kernel next : Kernel ncpu} {ghost : Ghost ncpu}
  {c : Fin ncpu} {rest : List Op} {p : Slot}

/-- `sched` finds the process asleep and without tokens. -/
def Process.Drained (process : Process) : Prop :=
  process.tokenBucket < 1 ∧ process.state = .sleeping

/-- `pslist` runs out of the process's available tokens and puts it to sleep. -/
def Process.ListingSleeps (process : Process) : Prop :=
  process.avialableTokens.toNat <
      (wrap32 (process.time + process.avialableTokens - process.lastScheduledTick)).toNat ∧
    process.state ≠ .unused ∧ process.state ≠ .sleeping

/-- The simulation writes into the process exactly when it runs out of tokens. -/
theorem listTicks_eq (count : Nat) (tokens : Int) (process : Process) :
    listTicks count tokens process =
      if count ≤ tokens.toNat then process
      else { process with state := .sleeping, avialableTokens := 64 } := by
  induction count generalizing tokens process with
  | zero => rw [listTicks, if_pos (Nat.zero_le _)]
  | succ count ih =>
    rw [listTicks]
    by_cases more : tokens > 0
    · rw [if_pos more, ih]
      have same : count ≤ (tokens - 1).toNat ↔ count + 1 ≤ tokens.toNat := by omega
      simp only [same]
    · rw [if_neg more, ih, if_neg (show ¬ count + 1 ≤ tokens.toNat by omega)]
      split <;> rfl

theorem listed_eq_ite (process : Process) : listed process =
    if (wrap32 (process.time + process.avialableTokens - process.lastScheduledTick)).toNat ≤
        process.avialableTokens.toNat then process
    else { process with state := .sleeping, avialableTokens := 64 } := by
  unfold listed
  simp only
  split
  · exact listTicks_eq _ _ _
  · rw [if_pos (by omega)]

theorem state_listed (process : Process) (active : process.state ≠ .unused)
    (awake : ¬ process.ListingSleeps) : (listed process).state = process.state := by
  rw [listed_eq_ite]
  split
  · rfl
  · rename_i more
    by_contra notAsleep
    exact awake ⟨Nat.lt_of_not_le more, active, Ne.symm notAsleep⟩

theorem context_listed (process : Process) : (listed process).context = process.context := by
  rw [listed_eq_ite]
  split <;> rfl

/-- An operation of a process: `myproc()` is the process whose thread it is. -/
theorem Kernel.withProc_eq (kernel : Kernel ncpu) (current : (kernel.cpu c).proc = some p) :
    kernel.withProc c rest body = kernel.goto c (body p ++ rest) := by
  simp [Kernel.withProc, Kernel.myproc, current]

section

variable (sound : Sound strict kernel ghost)
include sound

section

variable (ops : (kernel.cpu c).ops = op :: rest) (plain : op.Plain)
include ops plain

theorem Sound.calls (mine : ∃ p, (kernel.cpu c).proc = some p)
    (follows : ∀ p, rule strict (some p) op (Disciplined strict (some p) rest) (ghost.mode c) →
      Follows (rule strict (some p)) (Disciplined strict (some p) rest) (body p) (ghost.mode c)) :
    Sound strict (kernel.withProc c rest body) ghost := by
  obtain ⟨p, current⟩ := mine
  rw [kernel.withProc_eq current]
  refine sound.goesOn ops plain rfl rfl (fun _ => rfl) (fun _ => rfl) fun ruled => ?_
  rw [current] at ruled ⊢
  rw [Disciplined, follows_append]
  exact follows p ruled

theorem Sound.stops (message : String) : Sound strict (kernel.stops c message rest) ghost :=
  sound.goesOn ops plain rfl rfl (fun _ => rfl) (fun _ => rfl) fun _ => trivial

theorem Sound.givesUp (mine : (kernel.cpu c).proc = some p) (locked : .proc p ∈ (ghost.mode c).held)
    (calls : Calls (ghost.mode c).held (ghost.mode c)) (departed : process.state ≠ .running)
    (fresh : process.state.Inert → ghost.child p = none ∧ ghost.waiting p = none)
    (obeys : Disciplined strict (some p) rest { ghost.mode c with leaving := true }) :
    Sound strict ((kernel.setProc p process).goto c rest)
      (ghost.enter c { ghost.mode c with leaving := true }) := by
  obtain ⟨_, noff, _, processSound⟩ := sound.head ops plain
  refine sound.departs ops plain
    { mine := mine
      locked := locked
      stillLocked := by simpa using locked
      departed := by simpa using departed
      cpus := fun d other => by simp [other]
      owner := sound.owner_enter rfl
      nodup := by simpa using sound.nodup c
      others := fun q other => by simp [other]
      current := by simpa using mine
      context := by simp
      interrupts := by simpa using sound.interrupts c
      modes := fun d other => Ghost.enter_of_ne other _
      leaving := by simp
      found := by simpa using calls.found
      staying := calls.staying
      child := rfl
      modeChild := by simp
      waiting := fun _ _ => rfl
      modeWaiting := by simpa using (processSound p mine).waiting
      executes := ?_
      fresh := by simpa using fresh }
  rw [Ghost.enter_self]
  refine .next ?_ ?_
  · rw [Kernel.goto_cpu, update_self]
    exact obeys
  · simpa using noff

end

/-- `sleep` releases the lock of its caller and goes to sleep, in one step. -/
theorem Sound.fallsAsleep (ops : (kernel.cpu c).ops = .sleepRelease p chan lk :: rest)
    (ran : stepOp kernel c rest (.sleepRelease p chan lk) = some next) :
    Sound strict next
      { mode := update ghost.mode c
          { ghost.mode c with held := [.proc p], leaving := true, waiting := some (chan, lk) }
        child := ghost.child
        waiting := update ghost.waiting p (some (chan, lk)) } := by
  obtain ⟨⟨mine, calls, client, obeys⟩, noff, _, process⟩ :=
    sound.head ops (.of rfl)
  have held : lk ∈ (ghost.mode c).held := by simp [calls.held]
  have erased : (ghost.mode c).held.erase lk = [.proc p] := by
    simp [calls.held, Lock.proc_ne client]
  rw [mine] at obeys
  simp only [stepOp, sound.releaseLock_eq noff held, Option.some.injEq] at ran
  subst ran
  refine sound.departs ops (.of rfl)
    { mine := mine
      locked := by simp [calls.held]
      stillLocked := by simp
      departed := by simp
      cpus := fun d other => by simp [other]
      owner := sound.owner_erase held erased.symm
      nodup := by simp
      others := fun q other => by simp [other]
      current := by simpa using mine
      context := by simp
      interrupts := by simp [calls.held]
      modes := fun d other => by simp [other]
      leaving := by simp
      found := by simpa using calls.found
      staying := calls.staying
      child := rfl
      modeChild := by simp
      waiting := fun q other => by simp [other]
      modeWaiting := by simp
      executes := ?_
      fresh := ?_ }
  · refine .next ?_ ?_
    · simp only [Kernel.goto_cpu, update_self]
      exact obeys
    · simp [calls.held]
  · intro inert
    simp [ProcState.Inert] at inert

section

variable (ops : (kernel.cpu c).ops = op :: rest) (plain : op.Plain)
include ops plain

/-- `wakeup`, `kill` and `wait` change another process under its lock. -/
theorem Sound.changesOther (locked : .proc q ∈ (ghost.mode c).held)
    (calls : Calls (ghost.mode c).held (ghost.mode c))
    (context : process.context = (kernel.proc q).context)
    (transition : ((kernel.proc q).state = .sleeping ∧ process.state = .runnable) ∨
      ((kernel.proc q).state = .zombie ∧ process.state = .unused))
    (obeys : Disciplined strict (kernel.cpu c).proc push (ghost.mode c)) :
    Sound strict ((kernel.setProc q process).goto c push) ghost := by
  obtain ⟨_, noff, idle, processSound⟩ := sound.head ops plain
  have notRunning : (kernel.proc q).state ≠ .running := by
    rcases transition with ⟨before, _⟩ | ⟨before, _⟩ <;> simp [before]
  have notCurrent := sound.not_current ops plain calls.staying locked notRunning
  refine sound.changes ops plain
    { locked := locked
      notRunning := notRunning
      stillNot := by rcases transition with ⟨_, now⟩ | ⟨_, now⟩ <;> simp [now]
      cpus := fun d other => by simp [other]
      owner := rfl
      others := fun r other => by simp [other]
      current := by simp
      context := by simp
      interrupts := by simpa using sound.interrupts c
      modes := fun _ _ => rfl
      held := rfl
      staying := calls.staying
      stays := calls.staying
      found := fun np found => by
        rw [calls.found] at found
        cases found
      child := fun _ _ => rfl
      modeChild := fun r current => (processSound r current).child
      waiting := rfl
      modeWaiting := rfl
      executes := ?_
      idle := idle
      parked := ?_
      children := ?_
      distinct := sound.distinct
      fresh := ?_ }
  · refine .next ?_ ?_
    · rw [Kernel.goto_cpu, update_self]
      exact obeys
    · simpa using noff
  · intro live
    rw [Kernel.goto_proc, Kernel.setProc_proc, update_self] at live ⊢
    rw [context]
    rcases transition with ⟨asleep, _⟩ | ⟨_, unused⟩
    · exact sound.parked q (.inr (.inr asleep)) fun d executing => notCurrent d executing.1
    · simp [unused, ProcState.Live] at live
  · intro r np isChild
    have isUsed := sound.children r np isChild
    have ne : np ≠ q := by
      rintro rfl
      rcases transition with ⟨before, _⟩ | ⟨before, _⟩ <;> simp [before] at isUsed
    simp [ne, isUsed]
  intro inert
  rcases transition with ⟨_, runnable⟩ | ⟨zombie, _⟩
  · simp [runnable, ProcState.Inert] at inert
  · exact sound.fresh q (.inr (.inr zombie))

theorem Sound.startsChild (mine : (kernel.cpu c).proc = some p)
    (staying : (ghost.mode c).leaving = false) (found : (ghost.mode c).found = some np)
    (context : process.context = [.forkret]) (used : process.state = .used)
    (obeys : Disciplined strict (some p) push
      { ghost.mode c with found := none, child := some np }) :
    Sound strict ((kernel.setProc np process).goto c push)
      { mode := update ghost.mode c
          { ghost.mode c with found := none, child := some np }
        child := update ghost.child p (some np)
        waiting := ghost.waiting } := by
  obtain ⟨_, noff, _, processSound⟩ := sound.head ops plain
  obtain ⟨unused, locked⟩ := (processSound p mine).found np found
  have notRunning : (kernel.proc np).state ≠ .running := by simp [unused]
  have childless := sound.fresh np (.inl unused)
  have notChild : ∀ r, ghost.child r ≠ some np := by
    intro r isChild
    have isUsed := sound.children r np isChild
    rw [unused] at isUsed
    cases isUsed
  refine sound.changes ops plain
    { locked := locked
      notRunning := notRunning
      stillNot := by simp [used]
      cpus := fun d other => by simp [other]
      owner := rfl
      others := fun r other => by simp [other]
      current := by simp
      context := by simp
      interrupts := by simpa using sound.interrupts c
      modes := fun d other => by simp [other]
      held := by simp
      staying := staying
      stays := by simpa using staying
      found := by simp
      child := fun r other => by
        have ne : r ≠ p := by
          rintro rfl
          exact other mine
        simp [ne]
      modeChild := fun r current => by
        rw [mine] at current
        cases current
        simp
      waiting := rfl
      modeWaiting := by simp
      executes := ?_
      idle := fun noProc => by
        rw [mine] at noProc
        cases noProc
      parked := ?_
      children := ?_
      distinct := ?_
      fresh := fun _ => childless }
  · rw [mine]
    refine .next ?_ ?_
    · simp only [Kernel.goto_cpu, update_self]
      exact obeys
    · simpa using noff
  · intro _
    simp only [Kernel.goto_proc, Kernel.setProc_proc, update_self, context, childless]
    exact ⟨np, rfl, rfl, ⟨np, rfl⟩, rfl⟩
  · intro r other isChild
    obtain rfl | same := eq_or_ne r p
    · simp only [update_self, Option.some.injEq] at isChild
      subst isChild
      simp [used]
    simp only [update_of_ne same] at isChild
    have ne : other ≠ np := by
      rintro rfl
      exact notChild r isChild
    simp [ne, sound.children r other isChild]
  intro r s other first second
  by_cases rActs : r = p
  · by_cases sActs : s = p
    · rw [rActs, sActs]
    · subst rActs
      simp only [update_self, Option.some.injEq] at first
      simp only [update_of_ne sActs] at second
      exact absurd (first ▸ second) (notChild s)
  simp only [update_of_ne rActs] at first
  obtain rfl | sActs := eq_or_ne s p
  · simp only [update_self, Option.some.injEq] at second
    exact absurd (second ▸ first) (notChild r)
  · simp only [update_of_ne sActs] at second
    exact sound.distinct r s other first second

theorem Sound.endsChild (mine : (kernel.cpu c).proc = some p) (forks : Forks np (ghost.mode c))
    (context : process.context = (kernel.proc np).context)
    (ends : process.state = .runnable ∨ process.state = .unused)
    (obeys : Disciplined strict (some p) push { ghost.mode c with child := none }) :
    Sound strict ((kernel.setProc np process).goto c push)
      { mode := update ghost.mode c { ghost.mode c with child := none }
        child := update ghost.child p none
        waiting := ghost.waiting } := by
  obtain ⟨_, noff, _, processSound⟩ := sound.head ops plain
  have isChild : ghost.child p = some np := by rw [← (processSound p mine).child, forks.child]
  have used := sound.children p np isChild
  have locked : .proc np ∈ (ghost.mode c).held := by simp [forks.held]
  have notRunning : (kernel.proc np).state ≠ .running := by simp [used]
  have notCurrent := sound.not_current ops plain forks.staying locked notRunning
  refine sound.changes ops plain
    { locked := locked
      notRunning := notRunning
      stillNot := by rcases ends with now | now <;> simp [now]
      cpus := fun d other => by simp [other]
      owner := rfl
      others := fun r other => by simp [other]
      current := by simp
      context := by simp
      interrupts := by simpa using sound.interrupts c
      modes := fun d other => by simp [other]
      held := by simp
      staying := forks.staying
      stays := by simpa using forks.staying
      found := by simp [forks.found]
      child := fun r other => by
        have ne : r ≠ p := by
          rintro rfl
          exact other mine
        simp [ne]
      modeChild := fun r current => by
        rw [mine] at current
        cases current
        simp
      waiting := rfl
      modeWaiting := by simp
      executes := ?_
      idle := fun noProc => by
        rw [mine] at noProc
        cases noProc
      parked := ?_
      children := ?_
      distinct := ?_
      fresh := fun _ => sound.fresh np (.inr (.inl used)) }
  · rw [mine]
    refine .next ?_ ?_
    · simp only [Kernel.goto_cpu, update_self]
      exact obeys
    · simpa using noff
  · intro _
    rw [Kernel.goto_proc, Kernel.setProc_proc, update_self, context]
    exact sound.parked np (.inl used) fun d executing => notCurrent d executing.1
  · intro r other stillChild
    have notMine : r ≠ p := by
      rintro rfl
      simp at stillChild
    simp only [update_of_ne notMine] at stillChild
    have ne : other ≠ np := by
      rintro rfl
      exact notMine (sound.distinct r p other stillChild isChild)
    simp [ne, sound.children r other stillChild]
  intro r s other first second
  have rNot : r ≠ p := by
    rintro rfl
    simp at first
  have sNot : s ≠ p := by
    rintro rfl
    simp at second
  simp only [update_of_ne rNot] at first
  simp only [update_of_ne sNot] at second
  exact sound.distinct r s other first second

/-- A step that changes nothing but the CPU's own operations and interrupt flags. -/
theorem Sound.setsCpu (current : cpu.proc = (kernel.cpu c).proc)
    (context : cpu.context = (kernel.cpu c).context) (noff : cpu.noff = (kernel.cpu c).noff)
    (interrupts : cpu.intr = true → cpu.noff = 0)
    (obeys : rule strict (kernel.cpu c).proc op (Disciplined strict (kernel.cpu c).proc rest)
      (ghost.mode c) → Disciplined strict (kernel.cpu c).proc cpu.ops (ghost.mode c)) :
    Sound strict (kernel.setCpu c cpu) ghost := by
  obtain ⟨ruled, depth, idle, process⟩ := sound.head ops plain
  exact sound.replacesCpu process idle rfl rfl (fun _ => rfl) (fun _ => rfl) current context
    interrupts (.next (obeys ruled) (noff.trans depth))

theorem Sound.enables (unlocked : (ghost.mode c).held = [])
    (obeys : rule strict (kernel.cpu c).proc op (Disciplined strict (kernel.cpu c).proc rest)
      (ghost.mode c) → Disciplined strict (kernel.cpu c).proc push (ghost.mode c)) :
    Sound strict (kernel.setCpu c { kernel.cpu c with intr := true, ops := push }) ghost := by
  have noff := (sound.head ops plain).2.1
  rw [unlocked] at noff
  exact sound.setsCpu ops plain rfl rfl rfl (fun _ => noff) obeys

end

theorem Sound.wakesUp (ops : (kernel.cpu c).ops = .sleepReturn p :: rest) :
    Sound strict (kernel.goto c rest)
      { mode := update ghost.mode c { ghost.mode c with waiting := none }
        child := ghost.child
        waiting := update ghost.waiting p none } := by
  obtain ⟨⟨mine, _, obeys⟩, noff, _, process⟩ := sound.head ops (.of rfl)
  refine sound.neutral process
    { cpus := fun d other => by simp [other]
      owner := sound.owner_enter rfl
      nodup := by simpa using sound.nodup c
      states := fun _ => rfl
      contexts := fun _ => rfl
      current := by simp
      context := by simp
      interrupts := by simpa using sound.interrupts c
      modes := fun d other => by simp [other]
      keeps := fun _ _ held => by simpa using held
      leaving := by simp
      modeChild := by simp
      child := rfl
      found := fun _ found => .inl (by simpa using found)
      waiting := fun q other => by
        have ne : q ≠ p := by
          rintro rfl
          exact other mine
        simp [ne]
      modeWaiting := fun q current => by
        rw [mine] at current
        cases current
        simp
      awake := fun q => by
        by_cases same : q = p
        · exact .inr (by simp [same])
        · exact .inl (by simp [same])
      executes := ?_
      idle := fun noProc => by
        rw [mine] at noProc
        cases noProc }
  refine .next ?_ ?_
  · simp only [Kernel.goto_cpu, update_self]
    exact obeys
  · simpa using noff

end

/-- `allocproc` has found an `UNUSED` entry, or gives it back after a failed allocation. -/
theorem Sound.setsFound (sound : Sound strict kernel ghost)
    (ops : (kernel.cpu c).ops = op :: rest) (plain : op.Plain) (found : Option Slot) (mine : (kernel.cpu c).proc = some p)
    (cpus : next.cpu = update kernel.cpu c { kernel.cpu c with ops := push })
    (owner : next.owner = kernel.owner)
    (states : ∀ q, (next.proc q).state = (kernel.proc q).state)
    (contexts : ∀ q, (next.proc q).context = (kernel.proc q).context)
    (unused : ∀ np, found = some np →
      (kernel.proc np).state = .unused ∧ .proc np ∈ (ghost.mode c).held)
    (obeys : Disciplined strict (some p) push { ghost.mode c with found := found }) :
    Sound strict next (ghost.enter c { ghost.mode c with found := found }) := by
  obtain ⟨_, noff, _, process⟩ := sound.head ops plain
  refine sound.neutral process
    { cpus := fun d other => by rw [cpus, update_of_ne other]
      owner := by
        rw [owner]
        exact sound.owner_enter rfl
      nodup := by simpa using sound.nodup c
      states := states
      contexts := contexts
      current := by simp [cpus]
      context := by simp [cpus]
      interrupts := by simpa [cpus] using sound.interrupts c
      modes := fun d other => Ghost.enter_of_ne other _
      keeps := fun _ _ held => by simpa using held
      leaving := by simp
      modeChild := by simp
      child := rfl
      found := fun np isFound => .inr (by simpa using unused np (by simpa using isFound))
      waiting := fun _ _ => rfl
      modeWaiting := fun q current => by simpa using (process q current).waiting
      awake := fun _ => .inl rfl
      executes := ?_
      idle := fun noProc => by
        rw [mine] at noProc
        cases noProc }
  rw [mine, Ghost.enter_self, cpus, update_self]
  exact .next obeys noff

end Xv6.Proc
