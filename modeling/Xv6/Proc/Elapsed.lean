import Xv6.Proc.Ledger

/-!
# Charged ticks have elapsed

The invariant behind the accounting of ticks. No operation that is still to be executed
carries a tick of the future. Where a thread is about to set `last_scheduled_tick`, the
tick that it has read is not before the field's value: it holds the lock of the process,
so nobody else sets the field in between. What a process has been charged ends at its
`last_scheduled_tick`, or at the tick that `sched` is about to store there.
-/

namespace Xv6.Proc

open Function Xv6.Semantics

variable {ncpu : Nat} {state next : Timed ncpu} {ghost : Ghost ncpu} {c d : Fin ncpu} {op : Op}
  {rest : List Op} {p q : Slot}

/-- No operation carries a tick after `now`. -/
def DatedBy (now : Nat) (ops : List Op) : Prop := ∀ op ∈ ops, ∀ t, op.tick? = some t → t ≤ now

theorem DatedBy.mono (dated : DatedBy now ops) (order : now ≤ later) : DatedBy later ops :=
  fun op mem t carries => (dated op mem t carries).trans order

theorem DatedBy.later (dated : DatedBy now (op :: rest)) : DatedBy now rest :=
  fun added mem => dated added (List.mem_cons_of_mem _ mem)

theorem DatedBy.cons (dated : DatedBy now rest) (carried : ∀ t, op.tick? = some t → t ≤ now) :
    DatedBy now (op :: rest) := List.forall_mem_cons.mpr ⟨carried, dated⟩

theorem DatedBy.quiet (dated : DatedBy now rest) (noTick : op.tick? = none) :
    DatedBy now (op :: rest) :=
  dated.cons (by simp [noTick])

/-- The ticks of `p` and the intervals charged to it end at `bound`. -/
structure Covered (state : Timed ncpu) (p : Slot) (bound : Nat) : Prop where
  ticks : (state.1.proc p).ticks + state.2.born p ≤ bound
  charges : ∀ interval ∈ state.2.charges p, interval.stop ≤ bound

theorem Covered.mono (covered : Covered state p bound) (order : bound ≤ later) :
    Covered state p later where
  ticks := covered.ticks.trans (by omega)
  charges := fun interval mem => (covered.charges interval mem).trans order

/-- The ticks that a CPU carries. -/
structure CpuDated (kernel : Kernel ncpu) (d : Fin ncpu) : Prop where
  tidy : Tidy (kernel.cpu d).ops
  saved : ∀ op ∈ (kernel.cpu d).context, op.quiet = true ∨ ∃ s q, op = .back s q
  settled : Settled (kernel.cpu d).context.tail
  dated : DatedBy kernel.ticks (kernel.cpu d).ops
  datedContext : DatedBy kernel.ticks (kernel.cpu d).context
  /-- An assignment in progress does not set the field back. -/
  pending : ∀ op ∈ (kernel.cpu d).ops, ∀ p t, op.assigns? = some (p, t) →
    (kernel.proc p).lastScheduledTick ≤ t
  /-- `sched` has read its tick after the scheduler has read its own. -/
  charging : ∀ p t, .charge p t ∈ (kernel.cpu d).ops →
    ∀ s q, .back s q ∈ (kernel.cpu d).context → s ≤ t
  returning : ∀ s q rest, (kernel.cpu d).ops = .back s q :: rest →
    ∀ t, .tail q t ∈ (kernel.proc q).context → s ≤ t

/-- The account of a process. -/
structure ProcDated (state : Timed ncpu) (q : Slot) : Prop where
  past : (state.1.proc q).lastScheduledTick ≤ state.1.ticks
  int : -2 ^ 31 ≤ (state.1.proc q).ticks
  dated : DatedBy state.1.ticks (state.1.proc q).context
  /-- A thread that has been saved in the middle of `sched` sets the field when it resumes. -/
  parked : (∀ c, ¬ (state.1.cpu c).Executing q) → Tidy (state.1.proc q).context ∧
    ∀ op ∈ (state.1.proc q).context, op.quiet = true ∨
      ∃ t, op = .tail q t ∧ (state.1.proc q).lastScheduledTick ≤ t
  used : (state.1.proc q).state = .used → Settled (state.1.proc q).context
  covered : Covered state q (state.1.proc q).lastScheduledTick ∨
    ∃ c t rest, (state.1.cpu c).ops = .tail q t :: rest ∧ Covered state q t
  disjoint : (state.2.charges q).Pairwise fun later earlier => earlier.stop ≤ later.start

/-- The invariant. -/
structure Dated (state : Timed ncpu) : Prop where
  cpus : ∀ d, CpuDated state.1 d
  procs : ∀ q, ProcDated state q

theorem CpuDated.ready {kernel : Kernel ncpu} (here : CpuDated kernel c)
    (ops : (kernel.cpu c).ops = op :: rest) (closes : op.opens = false) :
    Settled rest ∧ DatedBy kernel.ticks rest ∧ ∀ t, op.tick? = some t → t ≤ kernel.ticks := by
  have dates : DatedBy kernel.ticks (op :: rest) := ops ▸ here.dated
  exact ⟨(ops ▸ here.tidy).settled closes, dates.later, dates op List.mem_cons_self⟩

/-! ## Who assigns holds the lock -/

/-- A thread that is about to set `last_scheduled_tick` holds the lock of the process. -/
theorem Sound.held_of_assigns (sound : Sound False kernel ghost)
    (tidy : Tidy (kernel.cpu d).ops) (mem : op ∈ (kernel.cpu d).ops)
    (assigns : op.assigns? = some (p, t)) : .proc p ∈ (ghost.mode d).held := by
  have notQuiet : ∀ {ops : List Op}, Settled ops → op ∉ ops := by
    intro ops settled inOps
    rw [Op.assigns?_of_quiet (settled op inOps)] at assigns
    cases assigns
  -- The discipline of the assignment itself, in the mode in which it is executed.
  have locks : ∀ {me : Option Slot} {later : List Op} {mode : Mode},
      Disciplined False me (op :: later) mode → .proc p ∈ mode.held := by
    intro me later mode obeys
    cases op <;> cases assigns
    · exact obeys.1.held ▸ List.mem_singleton.mpr rfl
    · exact obeys.1.held ▸ List.mem_singleton.mpr rfl
    · exact obeys.2.1.held ▸ List.mem_singleton.mpr rfl
    · exact obeys.2.1.held ▸ List.mem_singleton.mpr rfl
  obtain ⟨ops, ops_eq⟩ : ∃ ops, (kernel.cpu d).ops = ops := ⟨_, rfl⟩
  rw [ops_eq] at tidy mem
  cases tidy with
  | nil => cases mem
  | first settled =>
    rcases List.mem_cons.mp mem with rfl | later
    · refine locks (sound.head ops_eq ?_).1
      cases op <;> first | cases assigns; done | simp [Op.Plain]
    · exact absurd later (notQuiet settled)
  | @second front assignment later opens forward settled =>
    have isSecond : op = assignment := by
      rcases List.mem_cons.mp mem with rfl | mem
      · rw [Op.assigns?_of_opens opens] at assigns
        cases assigns
      · rcases List.mem_cons.mp mem with same | mem
        · exact same
        · exact absurd mem (notQuiet settled)
    subst isSecond
    rcases Op.opens_cases opens with rfl | ⟨intena, rfl⟩
    · exact List.mem_of_mem_erase (locks (sound.head ops_eq (.of rfl)).1.2.2)
    · exact locks (sound.head ops_eq (.of rfl)).1

/-- A CPU that returns from `p` to its scheduler holds the lock of `p`. -/
theorem Sound.held_of_back (sound : Sound False kernel ghost)
    (ops : (kernel.cpu d).ops = .back s p :: rest) :
    .proc p ∈ (ghost.mode d).held ∧ (kernel.cpu d).proc = some p := by
  cases sound.cpus d with
  | running executes _ _ => exact absurd ops (executes.ne_back _ _ _)
  | returning current atBack mode _ _ _ =>
    rw [ops] at atBack
    cases atBack
    rw [mode]
    exact ⟨List.mem_singleton.mpr rfl, current⟩

/-! ## Frames -/

/-- A step of CPU `c` that leaves the accounts of the kept processes alone, and holds
the locks of the others. -/
structure Spares (kept : Slot → Prop) (ghost : Ghost ncpu) (c : Fin ncpu)
    (state next : Timed ncpu) : Prop where
  cpus : ∀ d, d ≠ c → next.1.cpu d = state.1.cpu d
  clock : state.1.ticks ≤ next.1.ticks
  accounts : ∀ q, kept q → SameAccount (state.1.proc q) (next.1.proc q)
  born : ∀ q, kept q → next.2.born q = state.2.born q
  charges : ∀ q, kept q → next.2.charges q = state.2.charges q
  stays : ∀ q, kept q → (state.1.cpu c).Executing q → (next.1.cpu c).Executing q
  settles : ∀ q t rest, kept q → (state.1.cpu c).ops ≠ .tail q t :: rest
  held : ∀ q, ¬ kept q → .proc q ∈ (ghost.mode c).held

section Frame

variable {kept : Slot → Prop} (sound : Sound False state.1 ghost)
  (spares : Spares kept ghost c state next)
include spares

include sound in
theorem CpuDated.frame (dated : CpuDated state.1 d) (other : d ≠ c) : CpuDated next.1 d := by
  have keeps : ∀ q, .proc q ∈ (ghost.mode d).held → kept q := by
    intro q held
    by_contra notKept
    exact sound.not_held (spares.held q notKept) other held
  obtain ⟨tidy, saved, settled, datedOps, datedContext, pending, charging, returning⟩ := dated
  constructor <;> rw [spares.cpus d other]
  case tidy => exact tidy
  case saved => exact saved
  case settled => exact settled
  case dated => exact datedOps.mono spares.clock
  case datedContext => exact datedContext.mono spares.clock
  case pending =>
    intro op mem q t assigns
    rw [(spares.accounts q (keeps q (sound.held_of_assigns tidy mem assigns))).last]
    exact pending op mem q t assigns
  case charging => exact charging
  case returning =>
    intro s q rest ops t mem
    rw [(spares.accounts q (keeps q (sound.held_of_back ops).1)).context] at mem
    exact returning s q rest ops t mem

theorem ProcDated.frame (dated : ProcDated state q) (isKept : kept q) : ProcDated next q := by
  obtain ⟨last, ticks, context, used⟩ := spares.accounts q isKept
  have covers : ∀ {bound}, Covered state q bound → Covered next q bound := by
    rintro bound ⟨inTicks, inCharges⟩
    refine ⟨?_, ?_⟩
    · rwa [ticks, spares.born q isKept]
    · rwa [spares.charges q isKept]
  constructor
  case past =>
    rw [last]
    exact dated.past.trans spares.clock
  case int =>
    rw [ticks]
    exact dated.int
  case dated =>
    rw [context]
    exact dated.dated.mono spares.clock
  case parked =>
    intro parked
    rw [context, last]
    refine dated.parked fun d executing => parked d ?_
    obtain rfl | isC := eq_or_ne d c
    · exact spares.stays q isKept executing
    · rwa [spares.cpus d isC]
  case used =>
    intro isUsed
    rw [context]
    exact dated.used (used isUsed)
  case covered =>
    rcases dated.covered with covered | ⟨d, t, rest, ops, covered⟩
    · left
      rw [last]
      exact covers covered
    right
    have other : d ≠ c := by
      rintro rfl
      exact spares.settles q t rest isKept ops
    exact ⟨d, t, rest, by rw [spares.cpus d other, ops], covers covered⟩
  case disjoint =>
    rw [spares.charges q isKept]
    exact dated.disjoint

include sound in
theorem Dated.frame (dated : Dated state) (cpu : CpuDated next.1 c)
    (procs : ∀ q, ¬ kept q → ProcDated next q) : Dated next where
  cpus := by
    intro d
    by_cases isC : d = c
    · exact isC ▸ cpu
    · exact (dated.cpus d).frame sound spares isC
  procs := by
    intro q
    by_cases isKept : kept q
    · exact (dated.procs q).frame spares isKept
    · exact procs q isKept

end Frame

/-! ## The CPU that takes the step -/

section Stepping

variable {kernel after : Kernel ncpu} (here : CpuDated kernel c)
include here

section

variable (clock : kernel.ticks ≤ after.ticks)
  (context : (after.cpu c).context = (kernel.cpu c).context)
include clock context

theorem CpuDated.renew (tidy : Tidy (after.cpu c).ops)
    (forward : ∀ s q rest, (after.cpu c).ops ≠ .back s q :: rest)
    (datedOps : DatedBy after.ticks (after.cpu c).ops)
    (pending : ∀ op ∈ (after.cpu c).ops, ∀ p t, op.assigns? = some (p, t) →
      (after.proc p).lastScheduledTick ≤ t) (charging : ∀ p t, .charge p t ∈ (after.cpu c).ops →
      ∀ s q, .back s q ∈ (kernel.cpu c).context → s ≤ t) : CpuDated after c where
  tidy := tidy
  saved := context ▸ here.saved
  settled := context ▸ here.settled
  dated := datedOps
  datedContext := context ▸ here.datedContext.mono clock
  pending := pending
  charging := context ▸ charging
  returning := fun s q rest ops => absurd ops (forward s q rest)

theorem CpuDated.settles (settled : Settled (after.cpu c).ops)
    (datedOps : DatedBy after.ticks (after.cpu c).ops) : CpuDated after c := by
  refine here.renew clock context settled.tidy settled.ne_back datedOps ?_ ?_
  · intro op mem p t assigns
    rw [Op.assigns?_of_quiet (settled op mem)] at assigns
    cases assigns
  · intro p t mem
    cases settled _ mem

end

theorem CpuDated.switches (clock : kernel.ticks = after.ticks)
    (context : (after.cpu c).context = (kernel.cpu c).context)
    (ops : (after.cpu c).ops = (kernel.cpu c).context)
    (returning : ∀ s q rest, (kernel.cpu c).context = .back s q :: rest →
      ∀ t, .tail q t ∈ (after.proc q).context → s ≤ t) : CpuDated after c := by
  constructor <;> (try rw [context]) <;> (try rw [ops])
  case tidy =>
    have settled := here.settled
    cases saved : (kernel.cpu c).context with
    | nil => exact .nil
    | cons op rest =>
      rw [saved] at settled
      exact .first settled
  case saved => exact here.saved
  case settled => exact here.settled
  case dated => exact clock ▸ here.datedContext
  case datedContext => exact clock ▸ here.datedContext
  case pending =>
    intro op mem p t assigns
    rcases here.saved op mem with isQuiet | ⟨s, q, rfl⟩
    · rw [Op.assigns?_of_quiet isQuiet] at assigns
      cases assigns
    · cases assigns
  case charging =>
    intro p t mem
    rcases here.saved _ mem with isQuiet | ⟨s, q, isBack⟩
    · cases isQuiet
    · cases isBack
  case returning => exact returning

end Stepping

/-! ## Steps that touch no account -/

section Untouched

variable {kernel : Kernel ncpu} (dated : Dated state) (sound : Sound False state.1 ghost)
include dated sound

section

variable (cpus : ∀ d, d ≠ c → kernel.cpu d = state.1.cpu d) (clock : state.1.ticks ≤ kernel.ticks)
  (accounts : ∀ q, SameAccount (state.1.proc q) (kernel.proc q))
include cpus clock accounts

theorem Dated.keeps (proc : ∀ q, (state.1.cpu c).proc = some q → (kernel.cpu c).proc = some q)
    (notTail : ∀ q t rest, (state.1.cpu c).ops ≠ .tail q t :: rest)
    (forward : ∀ s q rest, (kernel.cpu c).ops ≠ .back s q :: rest)
    (cpu : CpuDated kernel c) : Dated (kernel, state.2) := by
  have spares : Spares (fun _ => True) ghost c state (kernel, state.2) :=
    { cpus := cpus
      clock := clock
      accounts := fun q _ => accounts q
      born := fun _ _ => rfl
      charges := fun _ _ => rfl
      stays := fun q _ executing => ⟨proc q executing.1, forward⟩
      settles := fun q t rest _ => notTail q t rest
      held := fun q notKept => absurd trivial notKept }
  exact dated.frame sound spares cpu fun q notKept => absurd trivial notKept

section

variable (context : (kernel.cpu c).context = (state.1.cpu c).context)
  (proc : ∀ q, (state.1.cpu c).proc = some q → (kernel.cpu c).proc = some q)
  (notTail : ∀ q t rest, (state.1.cpu c).ops ≠ .tail q t :: rest)
include context proc notTail

theorem Dated.moves (tidy : Tidy (kernel.cpu c).ops)
    (forward : ∀ s q rest, (kernel.cpu c).ops ≠ .back s q :: rest)
    (datedOps : DatedBy kernel.ticks (kernel.cpu c).ops)
    (pending : ∀ op ∈ (kernel.cpu c).ops, ∀ p t, op.assigns? = some (p, t) →
      (state.1.proc p).lastScheduledTick ≤ t) (charging : ∀ p t, .charge p t ∈ (kernel.cpu c).ops →
      ∀ s q, .back s q ∈ (state.1.cpu c).context → s ≤ t) : Dated (kernel, state.2) := by
  refine dated.keeps sound cpus clock accounts proc notTail forward
    ((dated.cpus c).renew clock context tidy forward datedOps ?_ charging)
  intro op mem q t assigns
  rw [(accounts q).last]
  exact pending op mem q t assigns

theorem Dated.goesOn (settled : Settled (kernel.cpu c).ops)
    (datedOps : DatedBy kernel.ticks (kernel.cpu c).ops) : Dated (kernel, state.2) :=
  dated.keeps sound cpus clock accounts proc notTail settled.ne_back
    ((dated.cpus c).settles clock context settled datedOps)

end

end

theorem Dated.ordinary (ops : (state.1.cpu c).ops = op :: rest) (ordinary : op.ordinary = true)
    (cpus : ∀ d, d ≠ c → kernel.cpu d = state.1.cpu d)
    (continues : Continues c op rest state.1 kernel) : Dated (kernel, state.2) := by
  have here := dated.cpus c
  have closes : op.opens = false := by
    cases opens : op.opens with
    | false => rfl
    | true => rcases Op.opens_cases opens with rfl | ⟨intena, rfl⟩ <;> cases ordinary
  have settled : Settled rest := (ops ▸ here.tidy).settled closes
  refine dated.goesOn sound cpus continues.clock.ge continues.accounts
    continues.context (fun q current => continues.proc.trans current) ?_
    (continues.ops.settled settled) ?_
  · intro q t later isTail
    rw [ops] at isTail
    cases isTail
    cases ordinary
  intro added mem t carries
  rw [continues.clock]
  rcases continues.ops added mem with inRest | ⟨_, noTick | sameTick⟩
  · exact here.dated added (ops ▸ List.mem_cons_of_mem _ inRest) t carries
  · rw [noTick] at carries
    cases carries
  · exact here.dated op (ops ▸ List.mem_cons_self) t (sameTick ▸ carries)

theorem Dated.proceeds (ops : (state.1.cpu c).ops = op :: rest)
    (notTail : ∀ q t, op ≠ .tail q t) (same : Untouched c state.1 kernel)
    (cpus : ∀ d, d ≠ c → kernel.cpu d = state.1.cpu d) (after : (kernel.cpu c).ops = rest) :
    Dated (kernel, state.2) := by
  have here := dated.cpus c
  have tidy := (ops ▸ here.tidy).after
  have inside : ∀ added ∈ rest, added ∈ (state.1.cpu c).ops :=
    fun added mem => ops ▸ List.mem_cons_of_mem _ mem
  refine dated.moves sound cpus same.clock.ge same.accounts same.context
    (fun q current => same.proc.trans current) (by simp [ops, notTail]) (after ▸ tidy.1)
    (after ▸ tidy.2) ?_ ?_ ?_
  · rw [after, same.clock]
    exact fun added mem => here.dated added (inside added mem)
  · rw [after]
    exact fun added mem => here.pending added (inside added mem)
  · rw [after]
    exact fun q t mem => here.charging q t (inside _ mem)

theorem Dated.releases (ops : (state.1.cpu c).ops = .release lk :: rest)
    (ran : stepOp state.1 c rest (.release lk) = some kernel) : Dated (kernel, state.2) := by
  obtain ⟨⟨held, _⟩, noff, _⟩ := sound.head ops (.of rfl)
  have locals := (Local.of_stepOp ran).cpus
  simp only [stepOp, sound.releaseLock_eq noff held, Option.some.injEq] at ran
  subst ran
  refine dated.proceeds sound ops (by simp) (.goto ?_ rest) locals (by simp)
  exact ((Untouched.refl c state.1).setOwner lk none).setCpu rfl rfl

theorem Dated.restores (ops : (state.1.cpu c).ops = .restore intena :: rest)
    (ran : stepOp state.1 c rest (.restore intena) = some kernel) : Dated (kernel, state.2) := by
  have locals := (Local.of_stepOp ran).cpus
  cases ran
  exact dated.proceeds sound ops (by simp) ((Untouched.refl c state.1).setCpu rfl rfl) locals
    (by simp)

theorem Dated.entersLoop (ops : (state.1.cpu c).ops = .enterLoop t :: rest)
    (ran : stepOp state.1 c rest (.enterLoop t) = some kernel) : Dated (kernel, state.2) := by
  have locals := (Local.of_stepOp ran).cpus
  obtain ⟨settled, datedRest, carried⟩ := (dated.cpus c).ready ops rfl
  obtain ⟨⟨idle, _⟩, _⟩ := sound.head ops (.of rfl)
  cases ran
  refine dated.goesOn sound locals le_rfl (fun _ => .refl _) (by simp) (by simp [idle])
    (by simp [ops]) ?_ ?_
  · simpa using settled_cons rfl settled
  · have dates : DatedBy state.1.ticks (.loop t :: rest) := datedRest.cons carried
    simpa using dates

theorem Dated.ticks (ops : (state.1.cpu c).ops = .tick :: rest)
    (ran : stepOp state.1 c rest .tick = some kernel) (small : state.1.ticks + 1 < 2 ^ 32) :
    Dated (kernel, state.2) := by
  have locals := (Local.of_stepOp ran).cpus
  obtain ⟨settled, datedRest, _⟩ := (dated.cpus c).ready ops rfl
  cases ran
  have later : state.1.ticks ≤ (state.1.ticks + 1) % 2 ^ 32 := by
    rw [Nat.mod_eq_of_lt small]
    exact Nat.le_succ _
  refine dated.goesOn sound locals later (fun _ => .refl _) (by simp) (by simp) (by simp [ops]) ?_ ?_
  · simpa using settled
  · simpa using datedRest.mono later

/-- `sys_uptime` returns to a caller that will set `last_scheduled_tick`. -/
theorem Dated.reads (ops : (state.1.cpu c).ops = .readTicks caller :: rest)
    (assigns : assignment.assigns? = some (p, state.1.ticks))
    (carries : assignment.tick? = some state.1.ticks) :
    Dated (state.1.goto c (.release .tickslock :: assignment :: rest), state.2) := by
  obtain ⟨settled, datedRest, _⟩ := (dated.cpus c).ready ops rfl
  -- Of the three parts of the list only the assignment is not quiet.
  have only : ∀ added ∈ Op.release .tickslock :: assignment :: rest, added = assignment ∨
      added.quiet = true := by
    refine List.forall_mem_cons.mpr ⟨.inr rfl, List.forall_mem_cons.mpr ⟨.inl rfl, ?_⟩⟩
    exact fun added mem => .inr (settled added mem)
  refine dated.moves (c := c) sound (by simp +contextual) le_rfl (fun _ => .refl _) (by simp) (by simp)
    (by simp [ops]) ?_ (by simp) ?_ ?_ ?_ <;> simp only [Kernel.goto_cpu, update_self]
  · refine .second rfl ?_ settled
    rintro t q rfl
    cases assigns
  · refine (datedRest.cons fun t also => ?_).quiet rfl
    exact (Option.some.inj (carries.symm.trans also)).ge
  · intro added mem q t sets
    rcases only added mem with rfl | isQuiet
    · cases assigns.symm.trans sets
      exact (dated.procs p).past
    · rw [Op.assigns?_of_quiet isQuiet] at sets
      cases sets
  intro q t mem s r saved
  rcases only _ mem with rfl | isQuiet
  · cases assigns
    exact (dated.cpus c).datedContext _ saved s rfl
  · cases isQuiet

theorem Dated.readsTicks (ops : (state.1.cpu c).ops = .readTicks caller :: rest)
    (ran : stepOp state.1 c rest (.readTicks caller) = some kernel) :
    Dated (kernel, state.2) := by
  obtain ⟨settled, datedRest, _⟩ := (dated.cpus c).ready ops rfl
  cases ran
  cases caller with
  | sched q => exact dated.reads sound ops rfl rfl
  | allocproc q memory np => exact dated.reads sound ops rfl rfl
  | fork q np => exact dated.reads sound ops rfl rfl
  | scheduler =>
    refine dated.goesOn (c := c) sound (by simp +contextual) le_rfl (fun _ => .refl _) (by simp) (by simp)
      (by simp [ops]) ?_ ?_ <;> simp only [Kernel.goto_cpu, update_self]
    · exact settled_cons rfl (settled_cons rfl settled)
    · refine (datedRest.cons fun t carries => ?_).quiet rfl
      cases carries
      exact le_rfl
  | syscall =>
    refine dated.goesOn (c := c) sound (by simp +contextual) le_rfl (fun _ => .refl _) (by simp) (by simp)
      (by simp [ops]) ?_ ?_ <;> simp only [Kernel.goto_cpu, update_self]
    · exact settled_cons rfl settled
    · exact datedRest.quiet rfl

/-- The scheduler switches to a process, which resumes where it has been saved. -/
theorem Dated.picks (ops : (state.1.cpu c).ops = .pick t p :: rest)
    (ran : stepOp state.1 c rest (.pick t p) = some kernel) : Dated (kernel, state.2) := by
  have locals := (Local.of_stepOp ran).cpus
  obtain ⟨settled, datedRest, carried⟩ := (dated.cpus c).ready ops rfl
  obtain ⟨⟨idle, mode, _⟩, _⟩ := sound.head ops (.of rfl)
  simp only [stepOp] at ran
  split at ran
  · rename_i runnable
    have notCurrent : ∀ d, (state.1.cpu d).proc ≠ some p :=
      sound.not_current ops (.of rfl) (by rw [mode]; rfl) (by simp [mode, Mode.holding])
        (by simp [runnable])
    obtain ⟨tidy, shape⟩ := (dated.procs p).parked fun d executing => notCurrent d executing.1
    cases ran
    have spares : Spares (fun _ => True) ghost c state
        (((state.1.setProc p { state.1.proc p with state := .running }).setCpu c
          { state.1.cpu c with proc := some p }).switchIn c p (.back t p :: rest), state.2) :=
      { cpus := locals
        clock := le_rfl
        accounts := by
          intro q _
          obtain rfl | isP := eq_or_ne q p
          · refine sameAccount_of_state ?_ ?_ ?_ ?_ <;> simp [Kernel.switchIn]
          · simpa [Kernel.switchIn, isP] using SameAccount.refl _
        born := fun _ _ => rfl
        charges := fun _ _ => rfl
        stays := by simp [Cpu.Executing, idle]
        settles := by simp [ops]
        held := fun q notKept => absurd trivial notKept }
    refine dated.frame sound spares ?_ fun q notKept => absurd trivial notKept
    constructor <;> simp only [Kernel.switchIn, Kernel.setCpu_cpu, Kernel.setCpu_proc,
      Kernel.setProc_proc, Kernel.setCpu_ticks, Kernel.setProc_ticks, update_self]
    case tidy => exact tidy
    case saved =>
      exact List.forall_mem_cons.mpr ⟨.inr ⟨t, p, rfl⟩, fun op mem => .inl (settled op mem)⟩
    case settled => exact settled
    case dated => exact (dated.procs p).dated
    case datedContext => exact datedRest.cons carried
    case pending =>
      intro op mem q s assigns
      rcases shape op mem with isQuiet | ⟨_, rfl, order⟩
      · rw [Op.assigns?_of_quiet isQuiet] at assigns
        cases assigns
      · cases assigns
        simpa using order
    case charging =>
      intro q s mem
      rcases shape _ mem with isQuiet | ⟨_, isTail, _⟩
      · cases isQuiet
      · cases isTail
    case returning =>
      intro s q later isBack
      rcases shape (.back s q) (isBack ▸ List.mem_cons_self) with isQuiet | ⟨_, isTail, _⟩
      · cases isQuiet
      · cases isTail
  cases ran
  refine dated.goesOn (c := c) sound locals le_rfl (fun _ => .refl _) (by simp) (by simp)
    (by simp [ops]) ?_ ?_ <;> simp only [Kernel.goto_cpu, update_self]
  · exact settled
  · exact datedRest

theorem Dated.settled_of_unlocked (unlocked : (state.1.cpu c).noff = 0) :
    Settled (state.1.cpu c).ops := by
  have here := dated.cpus c
  have none : (ghost.mode c).held = [] := (sound.interruptible unlocked).2.1.held
  intro op mem
  apply Op.quiet_of_assigns?
  · cases assigns : op.assigns? with
    | none => rfl
    | some pair =>
      have held := sound.held_of_assigns here.tidy mem assigns
      rw [none] at held
      cases held
  rintro s q rfl
  obtain ⟨later, ops⟩ := here.tidy.back_first mem
  have held := (sound.held_of_back ops).1
  rw [none] at held
  cases held

theorem Dated.traps (unlocked : (state.1.cpu c).noff = 0)
    (plain : ∀ op ∈ push, op.quiet = true ∧ op.tick? = none) :
    Dated (state.1.setCpu c { state.1.cpu c with
      intr := false, ops := push ++ (state.1.cpu c).ops }, state.2) := by
  have settled := dated.settled_of_unlocked sound unlocked
  refine dated.goesOn (c := c) sound (by simp +contextual) le_rfl (fun _ => .refl _) (by simp)
    (by simp) ?_ ?_ ?_
  · intro q t later isTail
    cases settled (.tail q t) (isTail ▸ List.mem_cons_self)
  · simpa using Settled.append (fun op mem => (plain op mem).1) settled
  simp only [Kernel.setCpu_cpu, update_self, Kernel.setCpu_ticks]
  intro added mem t carries
  rcases List.mem_append.mp mem with inPush | inOps
  · rw [(plain added inPush).2] at carries
    cases carries
  · exact (dated.cpus c).dated added inOps t carries

theorem Dated.usertraps (ran : usertrap state.1 c push = some kernel)
    (plain : ∀ op ∈ push, op.quiet = true ∧ op.tick? = none) : Dated (kernel, state.2) := by
  simp only [usertrap] at ran
  split at ran <;> cases ran
  rename_i user
  have trapped := dated.traps sound (sound.inUserMode user).1 plain
  rwa [user, List.append_nil] at trapped

theorem Dated.interrupts (ran : interrupt state.1 c user inKernel = some kernel)
    (fromUser : ∀ op ∈ user, op.quiet = true ∧ op.tick? = none)
    (fromKernel : ∀ op ∈ inKernel, op.quiet = true ∧ op.tick? = none) : Dated (kernel, state.2) := by
  simp only [interrupt] at ran
  split at ran
  · rename_i enabled
    split at ran
    · exact dated.usertraps sound ran fromUser
    · rename_i op rest ops
      cases ran
      have trapped := dated.traps sound (sound.interrupts c enabled) fromKernel
      rwa [ops] at trapped
  · cases ran

end Untouched

end Xv6.Proc
