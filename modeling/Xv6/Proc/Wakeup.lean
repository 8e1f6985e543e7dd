import Xv6.Proc.Sleep
import Xv6.Proc.Visits

/-!
# No lost wakeup

A `wakeup(chan)` made while holding `lk` comes to every process that waits for
`chan` with `lk`: nobody can begin to wait with `lk` while the caller holds it, so
the processes that the loop has passed have all been visited.
-/

namespace Xv6.Proc

open Function Xv6.Semantics

variable {ncpu : Nat} {kernel next : Kernel ncpu} {ghost : Ghost ncpu} {c : Fin ncpu}
  {rest : List Op} {waits : Slot → Option Wait}

/-- The `wakeup(chan)` of CPU `c` has come to every process below `i` that waits
for `chan` with a lock that the CPU holds. -/
def Reached (kernel : Kernel ncpu) (waits : Slot → Option Wait) (c : Fin ncpu)
    (chan : Option Chan) (i : Nat) : Prop :=
  ∀ p wait, waits p = some wait → kernel.owner wait.lk = some c → wait.chan = chan →
    p.val < i → (kernel.cpu c).proc ≠ some p → wait.woken = true

/-- A CPU is outside `wakeup`, or has come to everyone that it had to. -/
inductive Thorough (kernel : Kernel ncpu) (waits : Slot → Option Wait) (c : Fin ncpu) : Prop where
  | outside (clean : Clean (kernel.cpu c).ops)
  | inside {chan : Option Chan} {i : Nat} {rest : List Op}
      (waking : Waking chan rest i (kernel.cpu c).ops) (clean : Clean rest)
      (reached : Reached kernel waits c chan i)

/-- A recorded call was recorded before, or its process held the lock until now. -/
theorem recorded_before (sound : Sound True kernel ghost)
    (ops : (kernel.cpu c).ops = op :: rest)
    (records : recordSleep kernel waits op p = some wait) :
    (∃ old, waits p = some old ∧ old.chan = wait.chan ∧ old.lk = wait.lk ∧
      (old.woken = true → wait.woken = true)) ∨ kernel.owner wait.lk = some c := by
  cases op with
  | sleepRelease q chan lk =>
    obtain ⟨_, awake, _⟩ := (sound.head ops (.of rfl)).1
    obtain rfl | same := eq_or_ne p q
    · simp only [recordSleep, update_self, Option.some.injEq] at records
      subst records
      exact .inr ((sound.owner lk c).mpr (by simp [awake.held]))
    · simp only [recordSleep, update_of_ne same] at records
      exact .inl ⟨wait, records, rfl, rfl, id⟩
  | sleepReturn q =>
    obtain rfl | same := eq_or_ne p q
    · simp [recordSleep] at records
    · simp only [recordSleep, update_of_ne same] at records
      exact .inl ⟨wait, records, rfl, rfl, id⟩
  | wake chan q | killVisit pid q =>
    obtain rfl | same := eq_or_ne p q
    · simp only [recordSleep, update_self] at records
      obtain ⟨old, recorded, rfl⟩ := Option.map_eq_some_iff.mp records
      exact .inl ⟨old, recorded, rfl, rfl, fun woken => by simp [woken]⟩
    · simp only [recordSleep, update_of_ne same] at records
      exact .inl ⟨wait, records, rfl, rfl, id⟩
  | _ => exact .inl ⟨wait, records, rfl, rfl, id⟩

theorem Thorough.elsewhere (sound : Sound True kernel ghost)
    (ran : step kernel label = some next) (other : d ≠ label.cpu)
    (thorough : Thorough kernel waits d) : Thorough next (recordLabel kernel waits label) d := by
  have isLocal := Local.of_step ran
  have before : ∀ lk, next.owner lk = some d → kernel.owner lk = some d := fun lk owned =>
    (isLocal.owners lk d owned).resolve_right fun gained => other gained.1
  have recorded : ∀ {p wait}, recordLabel kernel waits label p = some wait →
      next.owner wait.lk = some d → ∃ old, waits p = some old ∧ old.chan = wait.chan ∧
        old.lk = wait.lk ∧ (old.woken = true → wait.woken = true) := by
    intro p wait records owned
    cases label with
    | step c =>
      simp only [recordLabel] at records
      cases ops : (kernel.cpu c).ops with
      | nil =>
        rw [ops] at records
        exact ⟨wait, records, rfl, rfl, id⟩
      | cons op rest =>
        rw [ops] at records
        rcases recorded_before sound ops records with old | mine
        · exact old
        · rw [before _ owned] at mine
          exact absurd (Option.some.inj mine) other
    | _ => exact ⟨wait, records, rfl, rfl, id⟩
  cases thorough with
  | outside clean => exact .outside (by rwa [isLocal.cpus d other])
  | inside waking clean reached =>
    rw [← isLocal.cpus d other] at waking
    refine .inside waking clean ?_
    intro p wait records owned sameChan below notMine
    obtain ⟨old, isOld, oldChan, oldLk, stays⟩ := recorded records owned
    rw [isLocal.cpus d other] at notMine
    exact stays (reached p old isOld (by rw [oldLk]; exact before _ owned)
      (oldChan.trans sameChan) below notMine)

section Loop

variable {chan : Option Chan} {i : Nat} {p : Slot}

/-- Nothing is taken back by a step that keeps the record, the current process and
the client locks of the CPU. -/
theorem Reached.mono (reached : Reached kernel waits c chan i)
    (current : (next.cpu c).proc = (kernel.cpu c).proc)
    (owners : ∀ lk, lk.isProc = false → next.owner lk = some c → kernel.owner lk = some c)
    (clients : ∀ q wait, waits q = some wait → wait.lk.isProc = false) :
    Reached next waits c chan i := by
  intro q wait records owned sameChan below notMine
  rw [current] at notMine
  exact reached q wait records (owners _ (clients q wait records) owned) sameChan below notMine

theorem Thorough.loops (reached : Reached kernel waits c chan i) (clean : Clean rest)
    (ran : stepOp kernel c rest (.wakeup chan i) = some next) : Thorough next waits c := by
  have same : ∀ ops, Reached (kernel.goto c ops) waits c chan i := by
    intro ops q wait records owned sameChan below notMine
    apply reached q wait records owned sameChan below
    simpa using notMine
  simp only [stepOp] at ran
  split at ran
  · rename_i bound
    split at ran <;> cases ran
    · -- the caller itself is passed over
      rename_i mine
      refine .inside (by simpa using Waking.next (i + 1)) clean ?_
      intro q wait records owned sameChan below notMine
      refine same _ q wait records owned sameChan ?_ notMine
      have ne : q.val ≠ i := by
        rintro rfl
        exact notMine (by simpa [Kernel.myproc] using mine)
      omega
    · have waking : Waking chan rest i _ := .asks ⟨i, bound⟩
      exact .inside (by simpa using waking) clean (same _)
  · cases ran
    exact .outside (by simpa using clean)

variable (sound : Sound True kernel ghost) (agrees : Agrees kernel ghost waits)
include sound agrees

theorem Thorough.visits (ops : (kernel.cpu c).ops = op :: rest)
    (waking : Waking chan behind i (op :: rest)) (clean : Clean behind)
    (reached : Reached kernel waits c chan i) (ran : stepOp kernel c rest op = some next) :
    Thorough next (recordSleep kernel waits op) c := by
  have clients : ∀ q wait, waits q = some wait → wait.lk.isProc = false := by
    intro q wait records
    have here := agrees.processes q
    rw [records] at here
    exact here.1
  cases waking with
  | next => exact .loops reached clean ran
  | asks p =>
    have free := (sound.head ops (.of rfl)).1.1
    have notMine : kernel.owner (.proc p) ≠ some c := fun owned =>
      free ((sound.owner _ c).mp owned)
    simp only [stepOp, if_neg notMine, Option.some.injEq] at ran
    subst ran
    exact .inside (by simpa using Waking.spins p) clean
      (reached.mono (by simp [Cpu.pushOff]) (fun _ _ owned => owned) clients)
  | spins p =>
    simp only [stepOp] at ran
    split at ran <;> cases ran
    refine .inside (by simpa using Waking.visits p) clean
      (reached.mono (by simp) (fun lk client owned => ?_) clients)
    have ne : lk ≠ .proc p := by
      rintro rfl
      cases client
    simpa [ne] using owned
  | visits p =>
    have moved : next.owner = kernel.owner ∧
        next.cpu = (kernel.goto c (.release (.proc p) :: .wakeup chan (p.val + 1) :: behind)).cpu := by
      simp only [stepOp] at ran
      split at ran <;> cases ran <;> exact ⟨rfl, rfl⟩
    refine .inside (by rw [moved.2]; simpa using Waking.leaves p) clean ?_
    intro q wait records owned sameChan below notMine
    rw [moved.1] at owned
    rw [moved.2] at notMine
    obtain rfl | same := eq_or_ne q p
    · simp only [recordSleep, update_self] at records
      obtain ⟨old, _, rfl⟩ := Option.map_eq_some_iff.mp records
      have hits : old.chan = chan := sameChan
      simp [hits]
    simp only [recordSleep, update_of_ne same] at records
    have earlier : q.val < p.val := by
      have ne : q.val ≠ p.val := fun equal => same (Fin.ext equal)
      omega
    exact reached q wait records owned sameChan earlier (by simpa using notMine)
  | leaves p =>
    obtain ⟨⟨held, _⟩, noff, _, _⟩ := sound.head ops (.of rfl)
    simp only [stepOp, sound.releaseLock_eq noff held, Option.some.injEq] at ran
    subst ran
    refine .inside (by simpa using Waking.next (p.val + 1)) clean
      (reached.mono (by simp) (fun lk client owned => ?_) clients)
    have ne : lk ≠ .proc p := by
      rintro rfl
      cases client
    simpa [ne] using owned

end Loop

theorem SavedClean.visits (saved : SavedClean kernel) (waking : Waking chan behind i (op :: rest))
    (ran : stepOp kernel c rest op = some next) : SavedClean next := by
  cases waking with
  | next =>
    simp only [stepOp] at ran
    repeat' split at ran
    all_goals cases ran
    all_goals exact saved.goto _
  | asks p =>
    simp only [stepOp] at ran
    have pushed : SavedClean (kernel.setCpu c (kernel.cpu c).pushOff) := saved.setCpu (saved.cpus c)
    split at ran <;> cases ran <;> exact pushed.goto _
  | spins p =>
    simp only [stepOp] at ran
    split at ran <;> cases ran
    exact (saved.setOwner _ _).goto _
  | visits p =>
    simp only [stepOp] at ran
    split at ran <;> cases ran
    · refine SavedClean.goto (saved.setProc ?_) _
      exact saved.procs p
    · exact saved.goto _
  | leaves p =>
    simp only [stepOp] at ran
    split at ran <;> cases ran
    · exact (saved.releaseLock ‹_›).goto _
    · exact saved.goto _

/-- Everything that is known of a machine with its record. -/
structure WatchedSound (state : Watched ncpu) (ghost : Ghost ncpu) : Prop where
  sound : Sound True state.1 ghost
  agrees : Agrees state.1 ghost state.2
  saved : SavedClean state.1
  thorough : ∀ c, Thorough state.1 state.2 c

theorem Thorough.stepOp (sound : Sound True kernel ghost) (agrees : Agrees kernel ghost waits)
    (saved : SavedClean kernel) (thorough : Thorough kernel waits c)
    (ops : (kernel.cpu c).ops = op :: rest) (ran : Proc.stepOp kernel c rest op = some next) :
    SavedClean next ∧ Thorough next (recordSleep kernel waits op) c := by
  cases thorough with
  | outside clean =>
    by_cases calls : ∃ chan i, op = .wakeup chan i
    · obtain ⟨chan, i, rfl⟩ := calls
      rw [ops, clean_cons] at clean
      obtain rfl : i = 0 := by simpa [Op.inWakeup] using clean.1
      have reached : Reached kernel waits c chan 0 := fun _ _ _ _ _ below => absurd below (by simp)
      exact ⟨saved.visits (.next 0) ran, .loops reached clean.2 ran⟩
    · have outside := Outside.stepOp ⟨saved, clean⟩ ops ran fun chan i same =>
        calls ⟨chan, i, same⟩
      exact ⟨outside.toSavedClean, .outside outside.ops⟩
  | inside waking clean reached =>
    rw [ops] at waking
    exact ⟨saved.visits waking ran, .visits sound agrees ops waking clean reached ran⟩

theorem Thorough.clean (sound : Sound True kernel ghost) (thorough : Thorough kernel waits c)
    (unlocked : (kernel.cpu c).noff = 0) : Clean (kernel.cpu c).ops := by
  cases thorough with
  | outside clean => exact clean
  | inside waking _ _ => exact absurd waking (sound.not_waking unlocked)

theorem Thorough.stepClient (saved : SavedClean kernel) (thorough : Thorough kernel waits c)
    (ops : (kernel.cpu c).ops = op :: rest)
    (ran : Proc.stepClient kernel c rest op choice = some next) : Outside next c := by
  have clean : Clean (kernel.cpu c).ops := by
    cases thorough with
    | outside clean => exact clean
    | inside waking _ _ =>
      rw [ops] at waking
      cases waking <;> simp [Proc.stepClient] at ran
  rw [ops, clean_cons] at clean
  simp only [Proc.stepClient] at ran
  split at ran <;> cases ran
  case h_5 => exact Outside.withProc saved (by simp [Op.inWakeup]) (by simp [Op.inWakeup, clean.2])
  all_goals exact Outside.goto saved (by simp [Op.inWakeup, clean.2])

theorem Outside.usertrap (saved : SavedClean kernel) (clean : Clean push)
    (ran : Proc.usertrap kernel c push = some next) : Outside next c := by
  simp only [Proc.usertrap] at ran
  split at ran <;> cases ran
  exact Outside.setCpu saved (saved.cpus c) clean

theorem Thorough.interrupt (sound : Sound True kernel ghost) (saved : SavedClean kernel)
    (thorough : Thorough kernel waits c) (cleanUser : Clean user)
    (cleanKernel : Clean inKernel) (ran : Proc.interrupt kernel c user inKernel = some next) :
    Outside next c := by
  simp only [Proc.interrupt] at ran
  split at ran
  · rename_i enabled
    have clean := thorough.clean sound (sound.interrupts c enabled)
    split at ran
    · exact Outside.usertrap saved cleanUser ran
    rename_i op rest ops
    rw [ops] at clean
    cases ran
    refine Outside.setCpu saved (saved.cpus c) ?_
    exact (clean_append _ _).mpr ⟨cleanKernel, clean⟩
  · cases ran

theorem Thorough.here (sound : Sound True kernel ghost) (agrees : Agrees kernel ghost waits)
    (saved : SavedClean kernel) (thorough : Thorough kernel waits label.cpu)
    (ran : step kernel label = some next) :
    SavedClean next ∧ Thorough next (recordLabel kernel waits label) label.cpu := by
  have outside : Outside next label.cpu → SavedClean next ∧
      Thorough next (recordLabel kernel waits label) label.cpu :=
    fun outside => ⟨outside.toSavedClean, .outside outside.ops⟩
  have clock := clean_clockintr label.cpu
  cases label with
  | step c =>
    simp only [step] at ran
    split at ran
    · rename_i op rest ops
      simp only [recordLabel, Label.cpu, ops]
      exact thorough.stepOp sound agrees saved ops ran
    · cases ran
  | client c choice =>
    simp only [step] at ran
    split at ran
    · exact outside (thorough.stepClient saved ‹_› ran)
    · cases ran
  | syscall c call =>
    exact outside (.usertrap saved (by simp [Op.inWakeup, clean_syscall]) ran)
  | fault c => exact outside (.usertrap saved (by simp [Op.inWakeup]) ran)
  | timer c =>
    refine outside (thorough.interrupt sound saved ?_ ?_ ran)
    · exact (clean_append _ _).mpr ⟨clock, by simp [Op.inWakeup]⟩
    · exact (clean_append _ _).mpr ⟨clock, by simp [Op.inWakeup]⟩
  | device c k a =>
    exact outside (thorough.interrupt sound saved (by simp [deviceIntr, Op.inWakeup])
      (by simp [deviceIntr, Op.inWakeup]) ran)

theorem WatchedSound.step
    (known : WatchedSound state ghost) (ran : watchedStep state label = some after)
    (keeps : KeepsTokens state.1 label) : ∃ ghost, WatchedSound after ghost := by
  obtain ⟨next, steppedKernel, rfl⟩ := Option.map_eq_some_iff.mp ran
  obtain ⟨ghost', sound', agrees'⟩ := known.agrees.step known.sound steppedKernel keeps
  have here := Thorough.here known.sound known.agrees known.saved (known.thorough label.cpu)
    steppedKernel
  refine ⟨ghost', sound', agrees', here.1, fun d => ?_⟩
  by_cases same : d = label.cpu
  · subst same
    exact here.2
  · exact (known.thorough d).elsewhere known.sound steppedKernel same

theorem watchedSound_boot (ncpu : Nat) :
    WatchedSound (boot ncpu, fun _ => none) (.start ncpu) where
  sound := .boot True ncpu
  agrees :=
    { processes := by
        intro p
        by_cases first : p = initproc
        · simp [boot, first, firstProcess, Process.Agrees]
        · simp [boot, first, Process.blank, Process.Agrees]
      calls := fun _ => rfl }
  saved :=
    { procs := by
        intro p
        by_cases first : p = initproc
        · simp [boot, first, firstProcess, Op.inWakeup]
        · simp [boot, first, Process.blank]
      cpus := fun _ => clean_nil }
  thorough := fun _ => .outside (by simp [boot, bootCpu, Op.inWakeup])

/-- The calls of `sleep` in progress: the process is asleep on its channel until a
`wakeup` or `kill` comes to it, and then runnable or running until `sleep` returns.
No process is asleep for any other reason, and a `wakeup` that ends has come to
every process that waits for its channel with a lock that its caller holds. -/
structure NoLostWakeup (state : Watched ncpu) : Prop where
  asleep : ∀ p wait, state.2 p = some wait → wait.woken = false →
    (state.1.proc p).state = .sleeping ∧ (state.1.proc p).chan = wait.chan
  awake : ∀ p wait, state.2 p = some wait → wait.woken = true →
    (state.1.proc p).state = .runnable ∨ ∃ c, (state.1.cpu c).proc = some p
  only : ∀ p, (state.1.proc p).state = .sleeping →
    ∃ wait, state.2 p = some wait ∧ wait.woken = false
  comes : ∀ c chan i rest, (state.1.cpu c).ops = .wakeup chan i :: rest → nproc ≤ i →
    ∀ p wait, state.2 p = some wait → wait.chan = chan → state.1.owner wait.lk = some c →
      wait.woken = true

theorem WatchedSound.noLostWakeup (known : WatchedSound state ghost) : NoLostWakeup state where
  asleep := by
    intro p wait records unwoken
    have here := known.agrees.processes p
    rw [records] at here
    have cases := here.2
    rwa [unwoken, if_neg (by simp)] at cases
  awake := by
    intro p wait records woken
    have here := known.agrees.processes p
    rw [records] at here
    have cases := here.2
    rw [if_pos woken] at cases
    exact cases.imp id (known.sound.running trivial p)
  only := by
    intro p asleep
    have here := known.agrees.processes p
    cases records : state.2 p with
    | none =>
      rw [records] at here
      exact absurd asleep here
    | some wait =>
      rw [records] at here
      refine ⟨wait, rfl, ?_⟩
      cases woken : wait.woken with
      | false => rfl
      | true =>
        have cases := here.2
        rw [if_pos woken, asleep] at cases
        simp at cases
  comes := by
    intro c chan i rest ops ended p wait records sameChan owned
    obtain ⟨calls, _, _⟩ := (known.sound.head ops (.of rfl)).1
    by_cases mine : (state.1.cpu c).proc = some p
    · -- the caller itself is running, so it has been woken up
      have isRunning := known.sound.running_of_staying ops (.of rfl) mine calls.staying
      have here := known.agrees.processes p
      rw [records] at here
      have cases := here.2
      by_contra unwoken
      rw [if_neg unwoken, isRunning] at cases
      cases cases.1
    cases known.thorough c with
    | outside clean =>
      rw [ops, clean_cons] at clean
      obtain rfl : i = 0 := by simpa [Op.inWakeup] using clean.1
      exact absurd ended (by decide)
    | inside waking _ reached =>
      rw [ops] at waking
      cases waking with
      | next => exact reached p wait records owned sameChan (by omega) mine

end Xv6.Proc
