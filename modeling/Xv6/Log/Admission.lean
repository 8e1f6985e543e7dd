import Mathlib.Algebra.BigOperators.Fin
import Mathlib.Algebra.Order.BigOperators.Group.Finset
import Xv6.Log.Operations

/-!
# Admission of operations to the log

The admission test of `begin_op` counts a full reservation for every outstanding
operation. The accounting holds up: recorded blocks and unused reservations
together never exceed `logSize`. It is `log_write` that disagrees, since it
refuses to fill the last block the test has promised.
-/

namespace Xv6.Log

open Function Xv6.Semantics

variable {Pid : Type} [DecidableEq Pid]

/-- The blocks an operation has logged stay recorded, whichever process moves on. -/
theorem recorded_update {phase : Pid → Phase} {blocks later : List Nat}
    (recorded : ∀ other logged, phase other = .inOp logged → ∀ blockno ∈ logged, blockno ∈ blocks)
    (grows : ∀ blockno ∈ blocks, blockno ∈ later)
    (own : ∀ logged, next = .inOp logged → ∀ blockno ∈ logged, blockno ∈ later)
    (other : Pid) (logged : List Nat) (inOp : update phase pid next other = .inOp logged) :
    ∀ blockno ∈ logged, blockno ∈ later := by
  obtain ⟨-, inOp⟩ | ⟨-, inOp⟩ := update_cases inOp
  · exact own logged inOp
  · exact fun blockno mem => grows blockno (recorded other logged inOp blockno mem)

/-- A process that is not in `commit()` after its step leaves the committing ones as they were. -/
theorem committing_of_update {phase : Pid → Phase} (outside : ∀ pending, next ≠ .committing pending)
    (inCommit : update phase pid next other = .committing pending) :
    other ≠ pid ∧ phase other = .committing pending :=
  (update_cases inCommit).resolve_left fun own => outside pending own.2

section Reservations

variable [Fintype Pid]

/-- A sum over all processes changes at the one process whose phase changes. -/
theorem sum_update (weight : Phase → Nat) (phase : Pid → Phase) (pid : Pid) (next : Phase) :
    (∑ other, weight (update phase pid next other)) + weight (phase pid) =
      (∑ other, weight (phase other)) + weight next := by
  have balance := sum_add_of_eq_off pid fun other ne =>
    congrArg weight (update_of_ne ne next phase)
  rwa [update_self] at balance

/-- The number of processes between `begin_op` and `end_op`. -/
def OpState.operations (state : OpState Pid) : Nat := ∑ pid, (state.phase pid).operations

/-- The unused reservations of the outstanding operations. -/
def OpState.unused (state : OpState Pid) : Nat := ∑ pid, (state.phase pid).unused

theorem OpState.operations_update {state next : OpState Pid} {phase : Phase}
    (moved : next.phase = update state.phase pid phase) :
    next.operations + (state.phase pid).operations = state.operations + phase.operations := by
  rw [OpState.operations, moved]
  exact sum_update Phase.operations state.phase pid phase

theorem OpState.unused_update {state next : OpState Pid} {phase : Phase}
    (moved : next.phase = update state.phase pid phase) :
    next.unused + (state.phase pid).unused = state.unused + phase.unused := by
  rw [OpState.unused, moved]
  exact sum_update Phase.unused state.phase pid phase

omit [DecidableEq Pid] in
/-- The unused reservations never exceed a full reservation for each operation. -/
theorem OpState.unused_le (state : OpState Pid) :
    state.unused ≤ state.operations * maxOpBlocks := by
  unfold OpState.unused OpState.operations
  rw [Finset.sum_mul]
  apply Finset.sum_le_sum
  intro pid _
  cases state.phase pid with
  | idle => simp
  | inOp logged => simp
  | committing pending => simp

omit [DecidableEq Pid] in
theorem OpState.one_le_operations {state : OpState Pid} {pid : Pid} {logged : List Nat}
    (inOp : state.phase pid = .inOp logged) : 1 ≤ state.operations := by
  have single := Finset.single_le_sum (f := fun other => (state.phase other).operations)
    (fun _ _ => Nat.zero_le _) (Finset.mem_univ pid)
  rw [inOp, Phase.operations_inOp] at single
  exact single

/-- What holds after every run that stays within the log's capacity. -/
structure Consistent (labels : List (OpLabel Pid)) (state : OpState Pid) : Prop where
  start : state.log.start = mkfsLogStart
  size : state.log.size = logSize
  logged : state.log.lh.blocks = openTransaction labels
  room : state.log.lh.n < logSize
  outstanding : state.log.outstanding = state.operations
  reserved : state.log.lh.n + state.unused ≤ logSize
  recorded : ∀ pid logged, state.phase pid = .inOp logged →
    ∀ blockno ∈ logged, blockno ∈ state.log.lh.blocks
  marked : ∀ pid pending, state.phase pid = .committing pending → state.log.committing = true
  exclusive : state.log.committing = true → state.operations = 0
  single : ∀ first second pending later, state.phase first = .committing pending →
    state.phase second = .committing later → first = second

omit [DecidableEq Pid] in
theorem Consistent.initial (state : OpState Pid) (initial : OpInitial state) :
    Consistent [] state := by
  obtain ⟨disk, rfl⟩ := initial
  refine ⟨rfl, rfl, rfl, ?_, ?_, ?_, ?_, ?_, ?_, ?_⟩
  · show 0 < logSize
    decide
  · simp [OpState.operations, initlog, recoverFromLog, clearHeader, readHead, bootLog]
  · simp [OpState.unused, initlog, recoverFromLog]
  · intro pid logged inOp
    cases inOp
  · intro pid pending inCommit
    cases inCommit
  · intro committing
    cases committing
  · intro first second pending later inCommit
    cases inCommit

variable {labels : List (OpLabel Pid)} {state next : OpState Pid} {pid : Pid} {log : LogState}

section

variable (consistent : Consistent labels state)
include consistent

theorem Consistent.begun (idle : state.phase pid = .idle) (admitted : beginOp state.log = some log)
    (atLog : next.log = log) (moved : next.phase = update state.phase pid (.inOp [])) :
    Consistent (labels ++ [.beginOp pid]) next := by
  obtain ⟨quiet, fits, rfl⟩ := beginOp_some admitted
  have counted := OpState.operations_update moved
  have reserve := OpState.unused_update moved
  have outstanding := consistent.outstanding
  simp only [idle, Phase.operations_idle, Phase.operations_inOp, Phase.unused_idle,
    Phase.unused_inOp, List.length_nil, Nat.sub_zero] at counted reserve
  have budget : state.log.lh.n + next.unused ≤ logSize := by
    -- the new reservation is what `begin_op` tested for
    have bounded := state.unused_le
    rw [outstanding] at fits
    have tested : state.log.lh.n + (state.operations + 1) * maxOpBlocks ≤ logSize := by
      exact_mod_cast fits
    rw [Nat.succ_mul] at tested
    omega
  refine ⟨?_, ?_, ?_, ?_, ?_, ?_, ?_, ?_, ?_, ?_⟩ <;> simp only [atLog, moved]
  · exact consistent.start
  · exact consistent.size
  · rw [openTransaction_snoc]
    exact consistent.logged
  · exact consistent.room
  · omega
  · exact budget
  · exact recorded_update consistent.recorded (fun _ mem => mem)
      fun logged same blockno mem => by cases same; cases mem
  · intro other pending inCommit
    exact consistent.marked other pending (committing_of_update (by simp) inCommit).2
  · intro committing
    rw [quiet] at committing
    cases committing
  · intro first second pending later firstCommit secondCommit
    exact consistent.single first second pending later
      (committing_of_update (by simp) firstCommit).2 (committing_of_update (by simp) secondCommit).2

theorem Consistent.recordedBlock {logged : List Nat} (inOp : state.phase pid = .inOp logged)
    (within : (recordOnce logged blockno).length ≤ maxOpBlocks)
    (room : state.log.lh.n < logSize - 1)
    (atLog : next.log = { state.log with lh := recordBlock state.log.lh blockno })
    (moved : next.phase = update state.phase pid (.inOp (recordOnce logged blockno))) :
    Consistent (labels ++ [.logWrite pid blockno data]) next := by
  have counted := OpState.operations_update moved
  have reserve := OpState.unused_update moved
  have blocks := blocks_recordBlock state.log.lh blockno
  have count : (recordBlock state.log.lh blockno).n =
      if blockno ∈ state.log.lh.blocks then state.log.lh.n else state.log.lh.n + 1 := by
    rw [← LogHeader.length_blocks, blocks, length_recordOnce, LogHeader.length_blocks]
  have outstanding := consistent.outstanding
  simp only [inOp, Phase.operations_inOp, Phase.unused_inOp] at counted reserve
  have budget : (recordBlock state.log.lh blockno).n + next.unused ≤ logSize := by
    -- a block that is new to the log is new to the operation, which pays for it
    have paid : blockno ∉ state.log.lh.blocks → blockno ∉ logged := fun fresh mem =>
      fresh (consistent.recorded pid logged inOp blockno mem)
    have size := length_recordOnce logged blockno
    have previous := consistent.reserved
    rw [count]
    by_cases absorbed : blockno ∈ state.log.lh.blocks
    · rw [if_pos absorbed]
      split at size <;> omega
    · rw [if_neg absorbed]
      rw [if_neg (paid absorbed)] at size
      omega
  refine ⟨?_, ?_, ?_, ?_, ?_, ?_, ?_, ?_, ?_, ?_⟩ <;> simp only [atLog, moved]
  · exact consistent.start
  · exact consistent.size
  · rw [openTransaction_snoc, blocks, consistent.logged]
  · rw [count]
    split <;> omega
  · omega
  · exact budget
  · refine recorded_update consistent.recorded (fun other mem => ?_) fun now same other mem => ?_
    · rw [blocks, mem_recordOnce]
      exact .inl mem
    cases same
    rw [blocks, mem_recordOnce]
    rcases mem_recordOnce.mp mem with old | new
    · exact .inl (consistent.recorded pid logged inOp other old)
    · exact .inr new
  · intro other pending inCommit
    exact consistent.marked other pending (committing_of_update (by simp) inCommit).2
  · intro committing
    have none := consistent.exclusive committing
    omega
  · intro first second pending later firstCommit secondCommit
    exact consistent.single first second pending later
      (committing_of_update (by simp) firstCommit).2 (committing_of_update (by simp) secondCommit).2

/-- Both exits of `end_op`: the operation ends, and its process is idle or commits. -/
theorem Consistent.ended {logged : List Nat} (inOp : state.phase pid = .inOp logged)
    (last : endOp state.log = .ok (log, doCommit))
    (outside : ∀ blocks, phase ≠ .inOp blocks)
    (committing : ∀ pending, phase = .committing pending → doCommit = true)
    (atLog : next.log = log) (moved : next.phase = update state.phase pid phase) :
    Consistent (labels ++ [.endOp pid]) next := by
  obtain ⟨quiet, final, rfl⟩ := endOp_ok last
  have counted := OpState.operations_update moved
  have reserve := OpState.unused_update moved
  have outstanding := consistent.outstanding
  have previous := consistent.reserved
  have released : phase.operations = 0 ∧ phase.unused = 0 := by
    cases phase with
    | idle => exact ⟨rfl, rfl⟩
    | inOp blocks => exact absurd rfl (outside blocks)
    | committing pending => exact ⟨rfl, rfl⟩
  simp only [inOp, Phase.operations_inOp, released] at counted reserve
  have alone : ∀ other pending, state.phase other ≠ .committing pending := by
    intro other pending inCommit
    have marked := consistent.marked other pending inCommit
    rw [quiet] at marked
    cases marked
  refine ⟨?_, ?_, ?_, ?_, ?_, ?_, ?_, ?_, ?_, ?_⟩ <;> simp only [atLog, moved]
  · exact consistent.start
  · exact consistent.size
  · rw [openTransaction_snoc]
    exact consistent.logged
  · exact consistent.room
  · omega
  · omega
  · exact recorded_update consistent.recorded (fun _ mem => mem)
      fun blocks same => absurd same (outside blocks)
  · intro other pending inCommit
    obtain ⟨-, inCommit⟩ | ⟨-, inCommit⟩ := update_cases inCommit
    · exact committing pending inCommit
    · exact absurd inCommit (alone other pending)
  · intro doCommits
    have zero := final.mp doCommits
    omega
  intro first second pending later firstCommit secondCommit
  have isPid : ∀ {other : Pid} {writes : List (Nat × Block)},
      update state.phase pid phase other = .committing writes → other = pid := by
    intro other writes inCommit
    by_contra ne
    rw [update_of_ne ne] at inCommit
    exact alone other writes inCommit
  rw [isPid firstCommit, isPid secondCommit]

theorem Consistent.written (inCommit : state.phase pid = .committing (write :: pending))
    (atLog : next.log = state.log)
    (moved : next.phase = update state.phase pid (.committing pending)) :
    Consistent (labels ++ [.diskWrite pid]) next := by
  have counted := OpState.operations_update moved
  have reserve := OpState.unused_update moved
  have outstanding := consistent.outstanding
  have previous := consistent.reserved
  simp only [inCommit, Phase.operations_committing, Phase.unused_committing] at counted reserve
  -- a process in `commit()` stays there, so nothing is new for the others
  have before : ∀ {other : Pid} {writes : List (Nat × Block)},
      update state.phase pid (.committing pending) other = .committing writes →
        ∃ earlier, state.phase other = .committing earlier := by
    intro other writes now
    by_cases same : other = pid
    · exact ⟨_, same ▸ inCommit⟩
    · rw [update_of_ne same] at now
      exact ⟨_, now⟩
  refine ⟨?_, ?_, ?_, ?_, ?_, ?_, ?_, ?_, ?_, ?_⟩ <;> simp only [atLog, moved]
  · exact consistent.start
  · exact consistent.size
  · rw [openTransaction_snoc]
    exact consistent.logged
  · exact consistent.room
  · omega
  · omega
  · exact recorded_update consistent.recorded (fun _ mem => mem) fun blocks same => by cases same
  · intro other writes now
    obtain ⟨earlier, wasCommitting⟩ := before now
    exact consistent.marked other earlier wasCommitting
  · intro committing
    have none := consistent.exclusive committing
    omega
  · intro first second writes later firstCommit secondCommit
    obtain ⟨_, firstBefore⟩ := before firstCommit
    obtain ⟨_, secondBefore⟩ := before secondCommit
    exact consistent.single first second _ _ firstBefore secondBefore

theorem Consistent.committed (inCommit : state.phase pid = .committing [])
    (atLog : next.log = endCommit (clearHeader state.log))
    (moved : next.phase = update state.phase pid .idle) :
    Consistent (labels ++ [.endCommit pid]) next := by
  have counted := OpState.operations_update moved
  have reserve := OpState.unused_update moved
  have outstanding := consistent.outstanding
  have none := consistent.exclusive (consistent.marked pid [] inCommit)
  have bounded := next.unused_le
  simp only [inCommit, Phase.operations_committing, Phase.operations_idle] at counted reserve
  have empty : next.operations = 0 := by omega
  have noOp : ∀ other logged, next.phase other ≠ .inOp logged := by
    intro other logged inOp
    have some := OpState.one_le_operations inOp
    omega
  -- the committing process was the only one, and it is idle now
  have noCommit : ∀ other pending, next.phase other ≠ .committing pending := by
    intro other pending now
    rw [moved] at now
    obtain ⟨ne, earlier⟩ := committing_of_update (by simp) now
    exact ne (consistent.single other pid pending [] earlier inCommit)
  refine ⟨?_, ?_, ?_, ?_, ?_, ?_, ?_, ?_, ?_, ?_⟩
  · rw [atLog]
    exact consistent.start
  · rw [atLog]
    exact consistent.size
  · rw [atLog, openTransaction_snoc]
    rfl
  · rw [atLog]
    exact Nat.lt_of_le_of_lt (Nat.zero_le _) consistent.room
  · rw [atLog]
    show state.log.outstanding = next.operations
    omega
  · rw [empty, Nat.zero_mul] at bounded
    rw [atLog]
    show 0 + next.unused ≤ logSize
    omega
  · intro other logged inOp
    exact absurd inOp (noOp other logged)
  · intro other pending now
    exact absurd now (noCommit other pending)
  · intro _
    exact empty
  · intro first second pending later now
    exact absurd now (noCommit first pending)

end

/-- After any run the log is as the admission test intends, or a `log_write` found
it full and panicked. -/
def Accounted (labels : List (OpLabel Pid)) (state : OpState Pid) : Prop :=
  (state.panicked = none ∧ WithinCapacity labels ∧ Consistent labels state) ∨
    (state.panicked = some "too big a transaction" ∧ ¬ WithinCapacity labels)

theorem Accounted.step (accounted : Accounted labels state)
    (ran : opStep state label = some next) : Accounted (labels ++ [label]) next := by
  obtain ⟨running, outcome⟩ := opStep_cases ran
  rcases accounted with ⟨_, within, consistent⟩ | ⟨stopped, _⟩
  swap
  · rw [running] at stopped
    cases stopped
  have outstanding := consistent.outstanding
  cases outcome with
  | begun idle admitted =>
    exact .inl ⟨running, withinCapacity_of_not_logWrite within (by simp),
      consistent.begun idle admitted rfl rfl⟩
  | @recorded pid blockno data logged log inOp reservation accepted =>
    by_cases room : state.log.lh.n < logSize - 1
    · refine .inl ⟨running, ?_, ?_⟩
      · rw [withinCapacity_snoc, ← consistent.logged, LogHeader.length_blocks]
        exact ⟨within, fun _ _ _ _ => room⟩
      · exact consistent.recordedBlock inOp reservation room (logWrite_ok accepted) rfl
    · rw [logWrite_refuses consistent.size room] at accepted
      cases accepted
  | @refused pid blockno data logged message inOp refusal =>
    by_cases room : state.log.lh.n < logSize - 1
    · have some := OpState.one_le_operations inOp
      rw [logWrite_accepts consistent.size room (by omega)] at refusal
      cases refusal
    rw [logWrite_refuses consistent.size room] at refusal
    cases refusal
    refine .inr ⟨rfl, fun capacity => room ?_⟩
    have last := ((withinCapacity_snoc labels _).mp capacity).2 pid blockno data rfl
    rwa [← consistent.logged, LogHeader.length_blocks] at last
  | ended inOp last =>
    exact .inl ⟨running, withinCapacity_of_not_logWrite within (by simp),
      consistent.ended inOp last (by simp) (by simp) rfl rfl⟩
  | commits inOp last =>
    exact .inl ⟨running, withinCapacity_of_not_logWrite within (by simp),
      consistent.ended inOp last (by simp) (by simp) rfl rfl⟩
  | @overlapped pid logged message inOp refusal =>
    have none := consistent.exclusive (endOp_error refusal)
    have some := OpState.one_le_operations inOp
    omega
  | written inCommit =>
    exact .inl ⟨running, withinCapacity_of_not_logWrite within (by simp),
      consistent.written inCommit rfl rfl⟩
  | committed inCommit =>
    exact .inl ⟨running, withinCapacity_of_not_logWrite within (by simp),
      consistent.committed inCommit (congrArg endCommit (commit_fst _ _)) rfl⟩

/-- What the admission test of `begin_op` is for: no panic, the reservations fit
in the log, `commit` runs alone, and `write_log` stays inside the log area. -/
structure Admitted (state : OpState Pid) : Prop where
  noPanic : state.panicked = none
  reserved : state.log.lh.n + state.unused ≤ logSize
  exclusive : ∀ pid pending, state.phase pid = .committing pending →
    state.log.outstanding = 0 ∧ ∀ other logged, state.phase other ≠ .inOp logged
  inside : ∀ write ∈ logCopies state.log state.device,
    mkfsLogStart ≤ write.1 ∧ write.1 < mkfsLogStart + mkfsNlog

omit [DecidableEq Pid] in
theorem Consistent.admitted (consistent : Consistent labels state)
    (running : state.panicked = none) : Admitted state where
  noPanic := running
  reserved := consistent.reserved
  exclusive := by
    intro pid pending inCommit
    have none := consistent.exclusive (consistent.marked pid pending inCommit)
    have outstanding := consistent.outstanding
    refine ⟨by omega, fun other logged inOp => ?_⟩
    have some := OpState.one_le_operations inOp
    omega
  inside := by
    intro write mem
    obtain ⟨tail, tailMember, rfl⟩ := List.mem_map.mp mem
    have bound := List.mem_range.mp tailMember
    have room := consistent.room
    simp only [consistent.start, mkfsNlog]
    omega

/-- Admission to the log, with operations that keep to their reservation: the
intended properties hold after a run exactly if every `log_write` of the run was
made while fewer than `logSize - 1` distinct blocks were logged in its transaction. -/
theorem admitted_iff_withinCapacity {start : OpState Pid}
    (run : operations.Runs start labels state) : Admitted state ↔ WithinCapacity labels := by
  have accounted : Accounted labels state :=
    run.traceInvariant
      (fun _ initial => .inl ⟨by obtain ⟨_, rfl⟩ := initial; rfl, by simp [WithinCapacity],
        .initial _ initial⟩)
      Accounted.step
  rcases accounted with ⟨running, within, consistent⟩ | ⟨stopped, exceeded⟩
  · exact ⟨fun _ => within, fun _ => consistent.admitted running⟩
  · refine ⟨fun admitted => ?_, fun within => absurd within exceeded⟩
    rw [admitted.noPanic] at stopped
    cases stopped

end Reservations

/-- Three operations begin, and log ten distinct blocks each, one operation after the other. -/
def threeFullOperations : List (OpLabel (Fin 3)) :=
  [.beginOp 0, .beginOp 1, .beginOp 2] ++
    (List.finRange 3).flatMap fun pid =>
      (List.range maxOpBlocks).map fun i => .logWrite pid (100 + maxOpBlocks * pid + i) fun _ => 0

/-- The state of three idle processes after `initlog` on a blank disk. -/
def blankStart : OpState (Fin 3) where
  log := (initlog mkfsLogStart mkfsNlog fun _ _ => 0).1
  device := (initlog mkfsLogStart mkfsNlog fun _ _ => 0).2
  phase := fun _ => .idle
  panicked := none

/-- The last of the thirty blocks that `begin_op` has admitted makes `log_write` panic. -/
theorem threeFullOperations_panics : ∃ state : OpState (Fin 3),
    operations.Runs blankStart threeFullOperations state ∧
      state.panicked = some "too big a transaction" ∧ ¬ Admitted state := by
  obtain ⟨state, run, stopped⟩ : ∃ state, operations.Runs blankStart threeFullOperations state ∧
      state.panicked = some "too big a transaction" :=
    TransitionSystem.exists_runs ⟨_, rfl⟩ (by decide +kernel)
  refine ⟨state, run, stopped, fun admitted => ?_⟩
  rw [admitted.noPanic] at stopped
  cases stopped

/-- One operation that logs one block, from `begin_op` to the end of its commit. -/
def oneOperation : List (OpLabel (Fin 3)) :=
  [.beginOp 0, .logWrite 0 100 fun _ => 7, .endOp 0, .diskWrite 0, .diskWrite 0, .diskWrite 0,
    .diskWrite 0, .endCommit 0]

theorem admitted_iff_withinCapacity_oneOperation : ∃ state : OpState (Fin 3),
    operations.Runs blankStart oneOperation state ∧
      (Admitted state ↔ WithinCapacity oneOperation) := by
  obtain ⟨state, run, -⟩ : ∃ state, operations.Runs blankStart oneOperation state ∧ True :=
    TransitionSystem.exists_runs ⟨_, rfl⟩ (by decide +kernel)
  exact ⟨state, run, admitted_iff_withinCapacity run⟩

/-- No commit divides an operation: until its `end_op` every block that it has logged is in the
header of the open transaction, and nobody commits. -/
theorem operation_undivided [Fintype Pid] {start state : OpState Pid} {labels : List (OpLabel Pid)}
    {logged : List Nat} (run : operations.Runs start labels state) (running : state.panicked = none)
    (pid : Pid) (inOp : state.phase pid = .inOp logged) :
    logged ⊆ state.log.lh.blocks ∧ ∀ other pending, state.phase other ≠ .committing pending := by
  have accounted : Accounted labels state :=
    run.traceInvariant
      (fun _ initial => .inl ⟨by obtain ⟨_, rfl⟩ := initial; rfl, by simp [WithinCapacity],
        .initial _ initial⟩)
      Accounted.step
  rcases accounted with ⟨_, _, consistent⟩ | ⟨stopped, _⟩
  · refine ⟨consistent.recorded pid logged inOp, fun other pending inCommit => ?_⟩
    have none := consistent.exclusive (consistent.marked other pending inCommit)
    have some := OpState.one_le_operations inOp
    omega
  · rw [running] at stopped
    cases stopped

theorem operation_undivided_logsOne : ∃ state : OpState (Fin 3),
    operations.Runs blankStart (oneOperation.take 2) state ∧ [100] ⊆ state.log.lh.blocks := by
  have run : operations.Runs blankStart (oneOperation.take 2) _ := .of_exec ⟨_, rfl⟩ rfl
  exact ⟨_, run, (operation_undivided run rfl 0 rfl).1⟩

end Xv6.Log
