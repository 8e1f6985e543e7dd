import Xv6.Proc.Elapsed
import Xv6.Proc.Watched
import Xv6.Proc.Tokens

/-!
# The ticks of a process are never counted twice

`sched`, `allocproc` and `fork` set `last_scheduled_tick` to a tick that they have read
under the lock of the process, so they never set it back. `FATCAT_SCHED` sets it to the
tick that the scheduler has read before its loop. As long as this is not before the
field's value, the intervals that `sched` charges follow one another, and the ticks of a
process are at most those since its creation. Otherwise the next charge starts at the
scheduler's old tick and counts ticks again that have been charged before.
-/

namespace Xv6.Proc

open Function Xv6.Semantics

variable {ncpu : Nat} {state next : Timed ncpu} {kernel : Kernel ncpu} {ghost : Ghost ncpu}
  {c d : Fin ncpu} {op : Op} {rest : List Op} {p q : Slot}

/-! ## Steps that touch one account -/

section

variable (dated : Dated state) (sound : Sound False state.1 ghost)
  (held : .proc p ∈ (ghost.mode c).held)
include dated sound held

/-- A step of CPU `c` touches the account of `p` alone. -/
theorem Dated.touches
    (cpus : ∀ d, d ≠ c → kernel.cpu d = state.1.cpu d) (clock : kernel.ticks = state.1.ticks)
    (proc : kernel.proc = update state.1.proc p process)
    (born : ∀ q, q ≠ p → ledger.born q = state.2.born q)
    (charges : ∀ q, q ≠ p → ledger.charges q = state.2.charges q)
    (stays : ∀ q, q ≠ p → (state.1.cpu c).Executing q → (kernel.cpu c).Executing q)
    (settles : ∀ q t rest, q ≠ p → (state.1.cpu c).ops ≠ .tail q t :: rest)
    (cpu : CpuDated kernel c) (touched : ProcDated (kernel, ledger) p) :
    Dated (kernel, ledger) := by
  have spares : Spares (· ≠ p) ghost c state (kernel, ledger) :=
    { cpus := cpus
      clock := clock.ge
      accounts := by
        intro q other
        simp only [proc, update_of_ne other]
        exact .refl _
      born := born
      charges := charges
      stays := stays
      settles := settles
      held := fun q isP => not_not.mp isP ▸ held }
  exact dated.frame sound spares cpu fun q isP => not_not.mp isP ▸ touched

/-- The charges of a process end at its `last_scheduled_tick`, or the holder of its lock
is about to store the tick at which they end. -/
theorem Dated.covered_cases :
    Covered state p (state.1.proc p).lastScheduledTick ∨
      ∃ t rest, (state.1.cpu c).ops = .tail p t :: rest ∧ Covered state p t := by
  rcases (dated.procs p).covered with covered | ⟨d, t, rest, ops, covered⟩
  · exact .inl covered
  have there : .proc p ∈ (ghost.mode d).held :=
    sound.held_of_assigns (dated.cpus d).tidy (ops ▸ List.mem_cons_self) rfl
  obtain rfl | isC := eq_or_ne d c
  · exact .inr ⟨t, rest, ops, covered⟩
  · exact absurd there (sound.not_held held isC)

theorem Dated.covered_of_held (notTail : ∀ t rest, (state.1.cpu c).ops ≠ .tail p t :: rest) :
    Covered state p (state.1.proc p).lastScheduledTick := by
  rcases dated.covered_cases sound held with covered | ⟨t, rest, ops, _⟩
  · exact covered
  · exact absurd ops (notTail t rest)

end

theorem wrap32_le (low : -2 ^ 31 ≤ value) : wrap32 value ≤ value := by
  by_cases high : value < 2 ^ 31
  · exact (wrap32_of_small low high).le
  · have := wrap32_lt value
    omega

theorem le_wrap32 (value : Int) : -2 ^ 31 ≤ wrap32 value := by
  have := Int.le_bmod (x := value) (m := 2 ^ 32) (by decide)
  unfold wrap32
  omega

section

variable (sound : Sound False state.1 ghost) (ops : (state.1.cpu c).ops = op :: rest)
  (plain : op.Plain)
include sound ops plain

theorem Sound.leaving (leaves : Leaves False (state.1.cpu c).proc p (ghost.mode c)) :
    .proc p ∈ (ghost.mode c).held ∧ (state.1.cpu c).proc = some p ∧
      ∀ s q later, (state.1.cpu c).context = .back s q :: later → q = p := by
  refine ⟨leaves.held ▸ List.mem_singleton.mpr rfl, leaves.mine, fun s q later isBack => ?_⟩
  obtain ⟨t, saved, context, _⟩ := ((sound.head ops plain).2.2.2 p leaves.mine).scheduler
  rw [isBack] at context
  cases context
  rfl

theorem Sound.locked_of_forks (mine : (state.1.cpu c).proc = some p)
    (forks : Forks np (ghost.mode c)) :
    .proc np ∈ (ghost.mode c).held ∧ (state.1.proc np).state = .used := by
  have process := (sound.head ops plain).2.2.2 p mine
  exact ⟨forks.held ▸ List.mem_singleton.mpr rfl,
    sound.children p np (process.child.symm.trans forks.child)⟩

end

section Touched

variable {process : Process} (dated : Dated state) (sound : Sound False state.1 ghost)
include dated sound

theorem Dated.returns (ops : (state.1.cpu c).ops = .back s p :: rest)
    (ran : stepOp state.1 c rest (.back s p) = some kernel)
    (forward : (state.1.proc p).lastScheduledTick ≤ s) : Dated (kernel, state.2) := by
  have locals := (Local.of_stepOp ran).cpus
  have here := dated.cpus c
  obtain ⟨settled, datedRest, carried⟩ := here.ready ops rfl
  have held := (sound.held_of_back ops).1
  have covered := dated.covered_of_held sound held (by simp [ops])
  obtain ⟨past, int, datedContext, parked, used, _, disjoint⟩ := dated.procs p
  have proc : kernel.proc = update state.1.proc p (fatcatSched (state.1.proc p) s) := by
    cases ran
    rfl
  have cpu : kernel.cpu c = { state.1.cpu c with proc := none, ops := rest } := by
    cases ran
    simp
  have clock : kernel.ticks = state.1.ticks := by
    cases ran
    rfl
  refine dated.touches sound held locals clock proc (by simp) (by simp)
    (fun q _ executing => absurd ops (executing.2 s p rest)) (by simp [ops])
    (here.settles clock.ge (by rw [cpu]) (by rwa [cpu]) ?_) ?_
  · rw [cpu, clock]
    exact datedRest
  constructor <;> (try simp only [proc, update_self, clock])
  case past => exact carried s rfl
  case int => exact int
  case dated => exact datedContext
  case parked =>
    intro stopped
    obtain ⟨tidy, shape⟩ := parked fun d executing => by
      obtain rfl | isC := eq_or_ne d c
      · exact executing.2 s p rest ops
      · exact stopped d (by rwa [locals d isC])
    refine ⟨tidy, fun op mem => (shape op mem).imp id ?_⟩
    rintro ⟨t, rfl, _⟩
    exact ⟨t, rfl, here.returning s p rest ops t mem⟩
  case used => exact used
  case covered =>
    left
    refine ⟨?_, fun interval mem => (covered.charges interval mem).trans forward⟩
    simpa [proc, fatcatSched] using (covered.mono forward).ticks
  case disjoint => exact disjoint

/-- `sched` charges the ticks since the last one, or goes on to store its tick. -/
theorem Dated.pays (ops : (state.1.cpu c).ops = .charge p t :: rest)
    (last : process.lastScheduledTick = (state.1.proc p).lastScheduledTick)
    (context : process.context = (state.1.proc p).context)
    (used : process.state = (state.1.proc p).state) (int : -2 ^ 31 ≤ process.ticks)
    (born : ledger.born = state.2.born)
    (charges : ∀ q, q ≠ p → ledger.charges q = state.2.charges q)
    (inTicks : process.ticks + ledger.born p ≤ t)
    (inCharges : ∀ interval ∈ ledger.charges p, interval.stop ≤ t)
    (disjoint : (ledger.charges p).Pairwise fun later earlier => earlier.stop ≤ later.start) :
    Dated ((state.1.setProc p process).goto c (.tail p t :: rest), ledger) := by
  have here := dated.cpus c
  obtain ⟨settled, datedRest, carried⟩ := here.ready ops rfl
  have order := here.pending _ (ops ▸ List.mem_cons_self) p t rfl
  obtain ⟨held, mine, _⟩ := sound.leaving ops (.of rfl) (sound.head ops (.of rfl)).1.1
  obtain ⟨past, _, datedContext, _, isUsed, _, _⟩ := dated.procs p
  refine dated.touches sound held (by simp +contextual) rfl rfl (by simp [born]) charges
    (fun q other executing => absurd (Option.some.inj (executing.1.symm.trans mine)) other)
    (by simp [ops]) ?_ ?_
  · refine here.renew le_rfl (by simp) ?_ ?_ ?_ ?_ ?_ <;> simp only [Kernel.goto_cpu, update_self]
    · exact .first settled
    · simp
    · exact datedRest.cons carried
    · refine List.forall_mem_cons.mpr ⟨?_, fun added mem q s assigns => ?_⟩
      · rintro q s ⟨⟩
        simpa [last] using order
      · rw [Op.assigns?_of_quiet (settled added mem)] at assigns
        cases assigns
    · intro q s mem
      rcases List.mem_cons.mp mem with isTail | mem
      · cases isTail
      · cases settled _ mem
  constructor <;> (try simp only [Kernel.goto_proc, Kernel.setProc_proc, update_self, last, context,
    used])
  case past => exact past
  case int => exact int
  case dated => exact datedContext
  case parked =>
    intro stopped
    exact absurd ⟨by simp [mine], by simp⟩ (stopped c)
  case used => exact isUsed
  case covered => exact .inr ⟨c, t, rest, by simp, by simpa using inTicks, inCharges⟩
  case disjoint => exact disjoint

theorem Dated.leaves (ops : (state.1.cpu c).ops = op :: rest) (plain : op.Plain)
    (leaves : Leaves False (state.1.cpu c).proc p (ghost.mode c))
    (notTail : ∀ q t, op = .tail q t → q = p)
    (past : process.lastScheduledTick ≤ state.1.ticks) (int : -2 ^ 31 ≤ process.ticks)
    (datedContext : DatedBy state.1.ticks saved) (tidy : Tidy saved)
    (shape : ∀ op ∈ saved, op.quiet = true ∨
      op = .tail p t ∧ process.lastScheduledTick ≤ t ∧
        ∀ s, .back s p ∈ (state.1.cpu c).context → s ≤ t)
    (used : process.state = .used → Settled saved)
    (inTicks : process.ticks + state.2.born p ≤ process.lastScheduledTick)
    (inCharges : ∀ interval ∈ state.2.charges p, interval.stop ≤ process.lastScheduledTick) :
    Dated ((state.1.setProc p process).switchOut c p saved, state.2) := by
  have here := dated.cpus c
  obtain ⟨held, mine, context⟩ := sound.leaving ops plain leaves
  have proc : ((state.1.setProc p process).switchOut c p saved).proc =
      update state.1.proc p { process with context := saved } := by simp [Kernel.switchOut]
  refine dated.touches sound held (by simp +contextual [Kernel.switchOut]) rfl proc (by simp) (by simp)
    (fun q other executing => absurd (Option.some.inj (executing.1.symm.trans mine)) other) ?_ ?_ ?_
  · intro q t later other isTail
    rw [ops] at isTail
    cases isTail
    exact other (notTail q t rfl)
  · refine here.switches ?_ (by simp [Kernel.switchOut]) (by simp [Kernel.switchOut]) ?_
    · rfl
    intro s q later isBack r mem
    obtain rfl := context s q later isBack
    rw [proc, update_self] at mem
    rcases shape _ mem with isQuiet | ⟨isTail, _, before⟩
    · cases isQuiet
    · cases isTail
      exact before s (isBack ▸ List.mem_cons_self)
  constructor <;> (try simp only [proc, update_self])
  case past => exact past
  case int => exact int
  case dated => exact datedContext
  case parked =>
    refine fun _ => ⟨tidy, fun op mem => (shape op mem).imp id ?_⟩
    rintro ⟨isTail, order, _⟩
    exact ⟨t, isTail, order⟩
  case used => exact used
  case covered => exact .inl ⟨by simpa [proc] using inTicks, inCharges⟩
  case disjoint => exact (dated.procs p).disjoint

theorem Dated.charges (ops : (state.1.cpu c).ops = .charge p t :: rest)
    (ran : stepOp state.1 c rest (.charge p t) = some kernel) :
    Dated (kernel, state.2.book state.1 (.charge p t)) := by
  have here := dated.cpus c
  obtain ⟨settled, datedRest, carried⟩ := here.ready ops rfl
  have order := here.pending _ (ops ▸ List.mem_cons_self) p t rfl
  have leaving := (sound.head ops (.of rfl)).1.1
  obtain ⟨held, mine, _⟩ := sound.leaving ops (.of rfl) leaving
  have covered := dated.covered_of_held sound held (by simp [ops])
  obtain ⟨past, int, _, _, _, _, disjoint⟩ := dated.procs p
  simp only [stepOp, Option.some.injEq, Kernel.charge] at ran
  simp only [Ledger.book]
  split at ran
  case isTrue paying =>
    subst ran
    rw [if_pos paying]
    have elapsed : tickDiff t (state.1.proc p) ≤ t - (state.1.proc p).lastScheduledTick :=
      wrap32_le (by omega)
    have added := covered.ticks
    have wraps : wrap32 ((state.1.proc p).ticks + tickDiff t (state.1.proc p)) ≤
        (state.1.proc p).ticks + tickDiff t (state.1.proc p) := wrap32_le (by omega)
    refine dated.pays sound ops rfl rfl rfl (le_wrap32 _) rfl (by simp +contextual) ?_ ?_ ?_
    · simp only [payTicks]
      omega
    · simpa using fun interval mem => (covered.charges interval mem).trans order
    · simpa using ⟨covered.charges, disjoint⟩
  case isFalse notPaying =>
    rw [if_neg notPaying]
    split at ran
    · subst ran
      refine dated.leaves (t := t) sound ops (.of rfl) leaving (by simp) past int
        (.quiet (datedRest.cons carried) rfl) (.second rfl (by simp) settled) ?_
        (fun isUsed => ProcState.noConfusion isUsed) covered.ticks covered.charges
      refine List.forall_mem_cons.mpr ⟨.inl rfl, List.forall_mem_cons.mpr ⟨.inr ⟨rfl, order, ?_⟩, ?_⟩⟩
      · exact fun s => here.charging p t (ops ▸ List.mem_cons_self) s p
      · exact fun added mem => .inl (settled added mem)
    · have same : state.1.goto c (.tail p t :: rest) =
          (state.1.setProc p (state.1.proc p)).goto c (.tail p t :: rest) := by simp [Kernel.setProc]
      subst ran
      rw [same]
      exact dated.pays sound ops rfl rfl rfl int rfl (by simp) (covered.mono order).ticks
        (covered.mono order).charges disjoint

theorem Dated.tails (ops : (state.1.cpu c).ops = .tail p t :: rest)
    (ran : stepOp state.1 c rest (.tail p t) = some kernel) : Dated (kernel, state.2) := by
  obtain ⟨settled, datedRest, carried⟩ := (dated.cpus c).ready ops rfl
  have order := (dated.cpus c).pending _ (ops ▸ List.mem_cons_self) p t rfl
  have leaving := (sound.head ops (.of rfl)).1.1
  obtain ⟨held, mine, _⟩ := sound.leaving ops (.of rfl) leaving
  have covered : Covered state p t := by
    rcases dated.covered_cases sound held with covered | ⟨s, later, isTail, covered⟩
    · exact covered.mono order
    · rw [ops] at isTail
      cases isTail
      exact covered
  have saved : Settled (.restore (state.1.cpu c).intena :: rest) := settled_cons rfl settled
  cases ran
  refine dated.leaves (t := t) sound ops (.of rfl) leaving ?_ (carried t rfl) (dated.procs p).int
    (datedRest.quiet rfl) saved.tidy (fun op mem => .inl (saved op mem)) (fun _ => saved)
    covered.ticks covered.charges
  intro q s isTail
  cases isTail
  rfl

theorem Dated.sets (ops : (state.1.cpu c).ops = op :: rest) (notTail : ∀ q t, op ≠ .tail q t)
    (held : .proc np ∈ (ghost.mode c).held)
    (settled : Settled push) (dates : DatedBy state.1.ticks push)
    (born : ∀ q, q ≠ np → ledger.born q = state.2.born q)
    (charges : ∀ q, q ≠ np → ledger.charges q = state.2.charges q)
    (past : process.lastScheduledTick ≤ state.1.ticks) (int : -2 ^ 31 ≤ process.ticks)
    (datedContext : DatedBy state.1.ticks process.context) (saved : Settled process.context)
    (inTicks : process.ticks + ledger.born np ≤ process.lastScheduledTick)
    (inCharges : ∀ interval ∈ ledger.charges np, interval.stop ≤ process.lastScheduledTick)
    (disjoint : (ledger.charges np).Pairwise fun later earlier => earlier.stop ≤ later.start) :
    Dated ((state.1.setProc np process).goto c push, ledger) := by
  refine dated.touches sound held (by simp +contextual) rfl rfl born charges ?_ (by simp [ops, notTail])
    ((dated.cpus c).settles le_rfl (by simp) (by simpa using settled) (by simpa using dates)) ?_
  · rintro q _ ⟨current, _⟩
    simp only [Kernel.goto_cpu, Kernel.setProc_cpu, update_self]
    exact ⟨current, settled.ne_back⟩
  constructor <;> (try simp only [Kernel.goto_proc, Kernel.setProc_proc, update_self])
  case past => exact past
  case int => exact int
  case dated => exact datedContext
  case parked => exact fun _ => ⟨saved.tidy, fun op mem => .inl (saved op mem)⟩
  case used => exact fun _ => saved
  case covered => exact .inl ⟨by simpa using inTicks, inCharges⟩
  case disjoint => exact disjoint

theorem Dated.allocInits (ops : (state.1.cpu c).ops = .allocInit p memory np pid :: rest)
    (ran : stepOp state.1 c rest (.allocInit p memory np pid) = some kernel) :
    Dated (kernel, state.2) := by
  have locals := (Local.of_stepOp ran).cpus
  obtain ⟨settled, datedRest, carried⟩ := (dated.cpus c).ready ops rfl
  have held : .proc np ∈ (ghost.mode c).held := by
    rw [(sound.head ops (.of rfl)).1.2.1]
    exact List.mem_singleton.mpr rfl
  have covered := dated.covered_of_held sound held (by simp [ops])
  obtain ⟨past, int, _, _, _, _, disjoint⟩ := dated.procs np
  simp only [stepOp] at ran
  split at ran <;> cases ran
  · exact dated.sets sound ops (by simp) held (settled_cons rfl settled) (datedRest.quiet rfl)
      (by simp) (by simp) past int (DatedBy.quiet (by simp [DatedBy]) rfl)
      (settled_cons rfl settled_nil) covered.ticks covered.charges disjoint
  refine dated.goesOn (c := c) sound locals le_rfl ?_ (by simp) (by simp) (by simp [ops]) ?_ ?_
  · intro q
    obtain rfl | isNp := eq_or_ne q np
    · refine sameAccount_of_state ?_ ?_ ?_ ?_ <;> simp [freeproc]
    · simpa [isNp] using SameAccount.refl _
  · simpa using settled_cons rfl settled
  · simpa using datedRest.quiet rfl

theorem Dated.allocTicks (ops : (state.1.cpu c).ops = .allocTick p memory np t :: rest)
    (ran : stepOp state.1 c rest (.allocTick p memory np t) = some kernel) :
    Dated (kernel, state.2.book state.1 (.allocTick p memory np t)) := by
  obtain ⟨settled, datedRest, carried⟩ := (dated.cpus c).ready ops rfl
  obtain ⟨mine, forks, _⟩ := (sound.head ops (.of rfl)).1
  obtain ⟨held, isUsed⟩ := sound.locked_of_forks ops (.of rfl) mine forks
  have saved := (dated.procs np).used isUsed
  have past : t ≤ state.1.ticks := carried t rfl
  simp only [stepOp] at ran
  split at ran <;> cases ran
  all_goals
    refine dated.sets sound ops (by simp) held (settled_cons rfl settled) (datedRest.quiet rfl)
      ?_ ?_ past ?_ (dated.procs np).dated saved ?_ ?_ ?_ <;>
      simp +contextual [Ledger.book, freeproc]

theorem Dated.forkTicks (ops : (state.1.cpu c).ops = .forkTick p np t :: rest)
    (ran : stepOp state.1 c rest (.forkTick p np t) = some kernel) : Dated (kernel, state.2) := by
  obtain ⟨settled, datedRest, carried⟩ := (dated.cpus c).ready ops rfl
  have order := (dated.cpus c).pending _ (ops ▸ List.mem_cons_self) np t rfl
  obtain ⟨mine, forks, _⟩ := (sound.head ops (.of rfl)).1
  obtain ⟨held, isUsed⟩ := sound.locked_of_forks ops (.of rfl) mine forks
  have covered := (dated.covered_of_held sound held (by simp [ops])).mono order
  have tail : ∀ op ∈ forkTail p np, op.quiet = true ∧ op.tick? = none := by
    simp [forkTail, Op.quiet, Op.tick?]
  cases ran
  refine dated.sets sound ops (by simp) held
    (Settled.append (fun op mem => (tail op mem).1) settled) ?_ (by simp) (by simp)
    (carried t rfl) (dated.procs np).int (dated.procs np).dated
    ((dated.procs np).used isUsed) covered.ticks covered.charges (dated.procs np).disjoint
  intro added mem s carries
  rcases List.mem_append.mp mem with inTail | mem
  · rw [(tail added inTail).2] at carries
    cases carries
  · exact datedRest added mem s carries

end Touched

/-! ## Every step -/

theorem Ledger.book_of_ordinary (ledger : Ledger) (ordinary : op.ordinary = true) :
    ledger.book kernel op = ledger := by
  cases op <;> first | rfl | cases ordinary

theorem Dated.stepOp (dated : Dated state) (sound : Sound False state.1 ghost)
    (ops : (state.1.cpu c).ops = op :: rest) (ran : stepOp state.1 c rest op = some kernel)
    (runs : op = .tick → state.1.ticks + 1 < 2 ^ 32)
    (forward : ∀ t p, op = .back t p → (state.1.proc p).lastScheduledTick ≤ t) :
    Dated (kernel, state.2.book state.1 op) := by
  by_cases ordinary : op.ordinary = true
  · rw [Ledger.book_of_ordinary _ ordinary]
    exact dated.ordinary sound ops ordinary (Local.of_stepOp ran).cpus
      (.of_ordinary ordinary ran)
  cases op <;> first | exact absurd rfl ordinary | skip
  case release => exact dated.releases sound ops ran
  case restore => exact dated.restores sound ops ran
  case enterLoop => exact dated.entersLoop sound ops ran
  case pick => exact dated.picks sound ops ran
  case back => exact dated.returns sound ops ran (forward _ _ rfl)
  case charge => exact dated.charges sound ops ran
  case tail => exact dated.tails sound ops ran
  case allocInit => exact dated.allocInits sound ops ran
  case allocTick => exact dated.allocTicks sound ops ran
  case forkTick => exact dated.forkTicks sound ops ran
  case readTicks => exact dated.readsTicks sound ops ran
  case tick => exact dated.ticks sound ops ran (runs rfl)

theorem plain_clockintr (c : Fin ncpu) (plain : ∀ op ∈ rest, op.quiet = true ∧ op.tick? = none) :
    ∀ op ∈ clockintr c ++ rest, op.quiet = true ∧ op.tick? = none := by
  intro op mem
  rcases List.mem_append.mp mem with handler | mem
  · unfold clockintr at handler
    split at handler
    · simp only [List.mem_cons, List.not_mem_nil, or_false] at handler
      rcases handler with rfl | rfl | rfl | rfl <;> exact ⟨rfl, rfl⟩
    · cases handler
  · exact plain op mem

theorem Dated.step (dated : Dated state) (sound : Sound False state.1 ghost)
    (ran : step state.1 label = some kernel) (runs : ClockRuns state.1 label)
    (forward : SetsForward state.1 label) : Dated (kernel, state.2.record state.1 label) := by
  cases label with
  | step c =>
    simp only [Proc.step] at ran
    split at ran
    · rename_i op rest ops
      simp only [Ledger.record, ops]
      exact dated.stepOp sound ops ran (fun isTick => runs c rest rfl (isTick ▸ ops))
        fun t p isBack => forward c t p rest rfl (isBack ▸ ops)
    · cases ran
  | client c choice =>
    have locals := (Local.of_step ran).cpus
    simp only [Proc.step] at ran
    split at ran
    · rename_i op rest ops
      obtain ⟨ordinary, continues⟩ := Continues.of_stepClient ran
      exact dated.ordinary sound ops ordinary locals continues
    · cases ran
  | syscall c call =>
    apply dated.usertraps sound ran
    cases call <;> simp [Syscall.ops, Op.quiet, Op.tick?]
  | fault c => exact dated.usertraps sound ran (by simp [Op.quiet, Op.tick?])
  | timer c =>
    refine dated.interrupts sound ran (plain_clockintr c ?_) (plain_clockintr c ?_) <;>
      simp [Op.quiet, Op.tick?]
  | device c k a =>
    refine dated.interrupts sound ran ?_ ?_ <;> simp [deviceIntr, Op.quiet, Op.tick?]

/-! ## Runs -/

theorem Dated.boot (ncpu : Nat) : Dated ((boot ncpu, .start) : Timed ncpu) := by
  have blank : ∀ q, ((Proc.boot ncpu).proc q).lastScheduledTick = 0 ∧
      ((Proc.boot ncpu).proc q).ticks = 0 ∧
      (((Proc.boot ncpu).proc q).context = [] ∨ ((Proc.boot ncpu).proc q).context = [.forkret]) := by
    intro q
    by_cases first : q = initproc
    · simp [Proc.boot, first, firstProcess, Process.blank]
    · simp [Proc.boot, first, Process.blank]
  constructor
  · intro d
    constructor <;> simp [Proc.boot, bootCpu, DatedBy, Settled, Op.tick?, Op.assigns?]
    exact .first settled_nil
  intro q
  obtain ⟨last, ticks, context⟩ := blank q
  have settled : Settled ((Proc.boot ncpu).proc q).context := by
    rcases context with isNil | isForkret
    · exact isNil ▸ settled_nil
    · exact isForkret ▸ settled_cons rfl settled_nil
  constructor
  case past => exact last.le
  case int => simp [ticks]
  case dated =>
    rcases context with isNil | isForkret
    · simp [isNil, DatedBy]
    · simp [isForkret, DatedBy, Op.tick?]
  case parked => exact fun _ => ⟨settled.tidy, fun op mem => .inl (settled op mem)⟩
  case used => exact fun _ => settled
  case covered => exact .inl ⟨by simp [ticks, last, Ledger.start], by simp [Ledger.start]⟩
  case disjoint => exact .nil

theorem last_stepOp (ran : stepOp kernel c rest op = some after)
    (q : Slot) : (after.proc q).lastScheduledTick = (kernel.proc q).lastScheduledTick ∨
      (∃ t, op.assigns? = some (q, t) ∧ (after.proc q).lastScheduledTick = t) ∨
      ∃ t, op = .back t q ∧ (after.proc q).lastScheduledTick = t := by
  have kept : ∀ {p : Slot} {process : Process},
      process.lastScheduledTick = (kernel.proc p).lastScheduledTick →
      (update kernel.proc p process q).lastScheduledTick =
        (kernel.proc q).lastScheduledTick :=
    fun same => field_update Process.lastScheduledTick same q
  by_cases ordinary : op.ordinary = true
  · exact .inl ((Continues.of_ordinary ordinary ran).accounts q).last
  cases op <;> first | exact absurd rfl ordinary | simp only [stepOp] at ran
  case release lk =>
    split at ran <;> cases ran
    · rename_i done
      obtain ⟨cpu, _, rfl⟩ := Kernel.eq_of_releaseLock done
      exact .inl rfl
    · exact .inl rfl
  case restore | enterLoop | readTicks | tick =>
    cases ran
    exact .inl rfl
  case pick t p =>
    split at ran <;> cases ran
    · exact .inl (kept rfl)
    · exact .inl rfl
  case charge p t =>
    cases ran
    obtain ⟨context, charged⟩ := kernel.charge_proc c p t rest
    rw [charged]
    refine .inl (kept ?_)
    unfold Proc.charged
    split
    · rfl
    · split <;> rfl
  case allocInit p memory np pid =>
    split at ran <;> cases ran <;> exact .inl (kept rfl)
  case back t p =>
    cases ran
    obtain rfl | isP := eq_or_ne q p
    · exact .inr (.inr ⟨t, rfl, by simp [fatcatSched]⟩)
    · exact .inl (by simp [isP])
  case tail p t =>
    cases ran
    obtain rfl | isP := eq_or_ne q p
    · exact .inr (.inl ⟨t, rfl, by simp [Kernel.switchOut, settle]⟩)
    · exact .inl (by simp [Kernel.switchOut, isP])
  case allocTick p memory np t =>
    split at ran <;> cases ran
    all_goals
      obtain rfl | isNp := eq_or_ne q np
      · exact .inr (.inl ⟨t, rfl, by simp [freeproc]⟩)
      · exact .inl (by simp [isNp])
  case forkTick p np t =>
    cases ran
    obtain rfl | isNp := eq_or_ne q np
    · exact .inr (.inl ⟨t, rfl, by simp⟩)
    · exact .inl (by simp [isNp])

/-- No step but one of `FATCAT_SCHED` sets `last_scheduled_tick` back. -/
theorem Dated.last_le_iff (dated : Dated state) (ran : Proc.step state.1 label = some kernel) :
    (∀ q, (state.1.proc q).lastScheduledTick ≤ (kernel.proc q).lastScheduledTick) ↔
      SetsForward state.1 label := by
  constructor
  · rintro monotone c t p rest rfl ops
    have moved := monotone p
    simp only [Proc.step, ops, Proc.stepOp, Option.some.injEq] at ran
    subst ran
    simpa [fatcatSched] using moved
  intro forward q
  cases label with
  | step c =>
    simp only [Proc.step] at ran
    split at ran
    · rename_i op rest ops
      rcases last_stepOp ran q with same | ⟨t, assigns, assigned⟩ | ⟨t, rfl, assigned⟩
      · exact same.ge
      · rw [assigned]
        exact (dated.cpus c).pending op (ops ▸ List.mem_cons_self) q t assigns
      · rw [assigned]
        exact forward c t q rest rfl ops
    · cases ran
  | client c choice | syscall c call | fault c | timer c | device c k a =>
    rw [proc_of_trap ran (by simp)]

/-- The ticks of a process have elapsed since it was created, the intervals charged to
it do not overlap, and no step sets `last_scheduled_tick` back unless it is one of
`FATCAT_SCHED` with an older tick. -/
structure WellCharged (state : Timed ncpu) : Prop where
  bounded : ∀ p, (state.1.proc p).ticks ≤ (state.1.ticks : Int) - state.2.born p
  apart : ∀ p, (state.2.charges p).Pairwise fun later earlier => earlier.stop ≤ later.start
  forward : ∀ label next, (timed ncpu).Step state label next →
    ((∀ p, (state.1.proc p).lastScheduledTick ≤ (next.1.proc p).lastScheduledTick) ↔
      SetsForward state.1 label)

/-- Steps in which `FATCAT_SCHED` sets no process back, the clock does not wrap around
and `pslist` puts nobody to sleep. -/
def KeepsTime (state : Timed ncpu) (label : Label ncpu) : Prop :=
  SetsForward state.1 label ∧ ClockRuns state.1 label ∧ ListsOnly state.1 label

theorem Dated.wellCharged (dated : Dated state) : WellCharged state where
  bounded := by
    intro p
    obtain ⟨past, _, _, _, _, covered, _⟩ := dated.procs p
    rcases covered with covered | ⟨d, t, rest, ops, covered⟩
    · have := covered.ticks
      omega
    · have now := (dated.cpus d).dated (.tail p t) (ops ▸ List.mem_cons_self) t rfl
      have := covered.ticks
      omega
  apart := fun p => (dated.procs p).disjoint
  forward := by
    intro label next stepped
    obtain ⟨kernel, ran, rfl⟩ := Option.map_eq_some_iff.mp stepped
    exact dated.last_le_iff ran

/-- The ticks of the first process, the clock, and the intervals charged to the process. -/
def accountOf (state : Timed 1) : Int × Nat × Nat × List (Nat × Nat) :=
  ((state.1.proc initproc).ticks, state.1.ticks, state.2.born initproc,
    (state.2.charges initproc).map fun interval => (interval.start, interval.stop))

end Xv6.Proc
