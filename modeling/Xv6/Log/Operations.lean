import Xv6.Log.Recovery
import Xv6.Semantics.Execution
import Xv6.Semantics.Update

/-!
# Operations on the log

Any number of processes run `begin_op`, `log_write` and `end_op` concurrently.
Each of these is one step, since it runs under `log.lock`; the disk writes of
`commit`, which runs without the lock, are separate steps. A process that
`begin_op` puts to sleep takes its step later, when the test succeeds.

Operations are assumed to keep to their reservation of `maxOpBlocks` distinct
blocks. The superblock is the one `mkfs` writes.
-/

namespace Xv6.Log

open Function Xv6.Semantics

/-- `sb.logstart` as written by `mkfs`. -/
def mkfsLogStart : Nat := 2

/-- `nlog` of `mkfs`, which becomes `sb.nlog` and then `log.size`. -/
def mkfsNlog : Nat := logSize

/-- Add a block number to a list of distinct ones. -/
def recordOnce (blocks : List Nat) (blockno : Nat) : List Nat :=
  if blockno ∈ blocks then blocks else blocks ++ [blockno]

theorem length_recordOnce (blocks : List Nat) (blockno : Nat) :
    (recordOnce blocks blockno).length =
      if blockno ∈ blocks then blocks.length else blocks.length + 1 := by
  unfold recordOnce
  split <;> simp

theorem mem_recordOnce : other ∈ recordOnce blocks blockno ↔ other ∈ blocks ∨ other = blockno := by
  unfold recordOnce
  split
  · rename_i present
    constructor
    · exact .inl
    · rintro (old | rfl)
      · exact old
      · exact present
  · simp

/-- The header lists the blocks of the open transaction in the order of their
first `log_write`. -/
theorem blocks_recordBlock (header : LogHeader) (blockno : Nat) :
    (recordBlock header blockno).blocks = recordOnce header.blocks blockno := by
  unfold recordOnce
  split
  · rename_i recorded
    exact blocks_recordBlock_of_mem recorded
  · rename_i fresh
    exact blocks_recordBlock_of_not_mem fresh

/-- An accepted `log_write` records the block and changes nothing else. -/
theorem logWrite_ok (accepted : logWrite log blockno = .ok next) :
    next = { log with lh := recordBlock log.lh blockno } := by
  unfold logWrite at accepted
  split at accepted
  · cases accepted
  split at accepted
  · cases accepted
  · cases accepted
    rfl

/-- With room in the log and an outstanding operation, `log_write` accepts. -/
theorem logWrite_accepts (size : log.size = logSize)
    (room : log.lh.n < logSize - 1) (outstanding : 1 ≤ log.outstanding) :
    logWrite log blockno = .ok { log with lh := recordBlock log.lh blockno } := by
  have notFull : ¬ (log.lh.n ≥ logSize ∨ log.lh.n ≥ log.size - 1) := by
    omega
  rw [logWrite, if_neg notFull, if_neg (by omega)]

/-- A full log makes `log_write` panic, even for a block it already holds. -/
theorem logWrite_refuses (size : log.size = logSize)
    (full : ¬ log.lh.n < logSize - 1) : logWrite log blockno = .error "too big a transaction" := by
  have isFull : log.lh.n ≥ logSize ∨ log.lh.n ≥ log.size - 1 := by
    omega
  rw [logWrite, if_pos isFull]

/-- Where a process is with respect to the log. -/
inductive Phase where
  | idle
  /-- Between `begin_op` and `end_op`, with the distinct blocks logged so far. -/
  | inOp (logged : List Nat)
  /-- Inside `commit()`, with the disk writes still to be issued. -/
  | committing (pending : List (Nat × Block))

namespace Phase

/-- Whether the process counts as an outstanding operation. -/
def operations : Phase → Nat
  | .inOp _ => 1
  | _ => 0

/-- The part of the process's reservation that it has not used. -/
def unused : Phase → Nat
  | .inOp logged => maxOpBlocks - logged.length
  | _ => 0

@[simp] theorem operations_idle : Phase.idle.operations = 0 := rfl
@[simp] theorem operations_inOp (logged : List Nat) : (Phase.inOp logged).operations = 1 := rfl
@[simp] theorem operations_committing (pending : List (Nat × Block)) :
    (Phase.committing pending).operations = 0 := rfl
@[simp] theorem unused_idle : Phase.idle.unused = 0 := rfl
@[simp] theorem unused_inOp (logged : List Nat) :
    (Phase.inOp logged).unused = maxOpBlocks - logged.length := rfl
@[simp] theorem unused_committing (pending : List (Nat × Block)) :
    (Phase.committing pending).unused = 0 := rfl

end Phase

/-- The log shared by the processes, and where each of them is. -/
structure OpState (Pid : Type) where
  log : LogState
  device : Device
  phase : Pid → Phase
  panicked : Option String

/-- The steps of the processes. -/
inductive OpLabel (Pid : Type) where
  | beginOp (pid : Pid)
  | logWrite (pid : Pid) (blockno : Nat) (data : Block)
  | endOp (pid : Pid)
  | diskWrite (pid : Pid)
  | endCommit (pid : Pid)

variable {Pid : Type}

/-- The distinct blocks logged since the last commit ended, read off the labels of a run. -/
def openTransaction (labels : List (OpLabel Pid)) : List Nat :=
  labels.foldl
    (fun logged label =>
      match label with
      | .logWrite _ blockno _ => recordOnce logged blockno
      | .endCommit _ => []
      | _ => logged) []

/-- Every `log_write` of the run is made while fewer than `logSize - 1` distinct
blocks have been logged in its transaction. -/
def WithinCapacity (labels : List (OpLabel Pid)) : Prop :=
  ∀ (index : Nat) (pid : Pid) (blockno : Nat) (data : Block),
    labels[index]? = some (.logWrite pid blockno data) →
      (openTransaction (labels.take index)).length < logSize - 1

@[simp] theorem openTransaction_snoc (labels : List (OpLabel Pid)) (label : OpLabel Pid) :
    openTransaction (labels ++ [label]) =
      match label with
      | .logWrite _ blockno _ => recordOnce (openTransaction labels) blockno
      | .endCommit _ => []
      | _ => openTransaction labels := by
  simp only [openTransaction, List.foldl_append, List.foldl_cons, List.foldl_nil]

/-- Capacity along a run extended by one step is decided at that step. -/
theorem withinCapacity_snoc (labels : List (OpLabel Pid)) (label : OpLabel Pid) :
    WithinCapacity (labels ++ [label]) ↔ WithinCapacity labels ∧
      ∀ pid blockno data, label = .logWrite pid blockno data →
        (openTransaction labels).length < logSize - 1 := by
  constructor
  · intro within
    refine ⟨fun index pid blockno data at_index => ?_, fun pid blockno data same => ?_⟩
    · have bound : index < labels.length := (List.getElem?_eq_some_iff.mp at_index).1
      have room := within index pid blockno data (by rwa [List.getElem?_append_left bound])
      rwa [List.take_append_of_le_length (Nat.le_of_lt bound)] at room
    · have room := within labels.length pid blockno data (by simp [same])
      rwa [List.take_append_of_le_length (Nat.le_refl _), List.take_length] at room
  rintro ⟨earlier, last⟩ index pid blockno data at_index
  by_cases bound : index < labels.length
  · rw [List.getElem?_append_left bound] at at_index
    rw [List.take_append_of_le_length (Nat.le_of_lt bound)]
    exact earlier index pid blockno data at_index
  have here : index = labels.length := by
    have upper := (List.getElem?_eq_some_iff.mp at_index).1
    simp only [List.length_append, List.length_singleton] at upper
    omega
  subst here
  rw [List.take_append_of_le_length (Nat.le_refl _), List.take_length]
  exact last pid blockno data (by simpa using at_index)

theorem withinCapacity_of_not_logWrite {labels : List (OpLabel Pid)}
    (within : WithinCapacity labels)
    (other : ∀ pid blockno data, label ≠ .logWrite pid blockno data) :
    WithinCapacity (labels ++ [label]) := by
  rw [withinCapacity_snoc]
  exact ⟨within, fun pid blockno data same => absurd same (other pid blockno data)⟩

variable [DecidableEq Pid]

/-- One step of one process; `none` when the process is not at that point, has
to sleep, or would exceed its reservation. A panic stops the machine. -/
def opStep (state : OpState Pid) (label : OpLabel Pid) : Option (OpState Pid) :=
  if state.panicked.isSome then none
  else match label with
  | .beginOp pid =>
    match state.phase pid, beginOp state.log with
    | .idle, some log =>
      some { state with log := log, phase := update state.phase pid (.inOp []) }
    | _, _ => none
  | .logWrite pid blockno data =>
    match state.phase pid with
    | .inOp logged =>
      if (recordOnce logged blockno).length ≤ maxOpBlocks then
        match logWrite state.log blockno with
        | .ok log => some
            { state with
              log := log
              device := state.device.modify blockno data
              phase := update state.phase pid (.inOp (recordOnce logged blockno)) }
        | .error message => some { state with panicked := some message }
      else none
    | _ => none
  | .endOp pid =>
    match state.phase pid with
    | .inOp _ =>
      match endOp state.log with
      | .ok (log, true) => some
          { state with
            log := log
            phase := update state.phase pid
              (.committing (commitWrites log state.device)) }
      | .ok (log, false) =>
        some { state with log := log, phase := update state.phase pid .idle }
      | .error message => some { state with panicked := some message }
    | _ => none
  | .diskWrite pid =>
    match state.phase pid with
    | .committing (write :: pending) => some
        { state with
          device := state.device.bwrite write.1 write.2
          phase := update state.phase pid (.committing pending) }
    | _ => none
  | .endCommit pid =>
    match state.phase pid with
    | .committing [] => some
        { state with
          log := endCommit (commit state.log state.device).1
          phase := update state.phase pid .idle }
    | _ => none

/-- Every process is idle and `initlog` has just run on some disk with the
superblock of `mkfs`. -/
def OpInitial (state : OpState Pid) : Prop :=
  ∃ disk : Disk, state =
    { log := (initlog mkfsLogStart mkfsNlog disk).1
      device := (initlog mkfsLogStart mkfsNlog disk).2
      phase := fun _ => .idle
      panicked := none }

/-- The log used by any number of processes. -/
def operations : TransitionSystem (OpState Pid) (OpLabel Pid) :=
  .ofStep OpInitial opStep

/-- What a step can do, one case for each outcome of the code. -/
inductive OpOutcome (state : OpState Pid) : OpLabel Pid → OpState Pid → Prop where
  | begun {pid log} (idle : state.phase pid = .idle) (admitted : beginOp state.log = some log) :
      OpOutcome state (.beginOp pid)
        { state with log := log, phase := update state.phase pid (.inOp []) }
  | recorded {pid blockno data logged log} (inOp : state.phase pid = .inOp logged)
      (within : (recordOnce logged blockno).length ≤ maxOpBlocks)
      (accepted : logWrite state.log blockno = .ok log) :
      OpOutcome state (.logWrite pid blockno data)
        { state with
          log := log
          device := state.device.modify blockno data
          phase := update state.phase pid (.inOp (recordOnce logged blockno)) }
  | refused {pid blockno data logged message} (inOp : state.phase pid = .inOp logged)
      (refusal : logWrite state.log blockno = .error message) :
      OpOutcome state (.logWrite pid blockno data) { state with panicked := some message }
  | ended {pid logged log} (inOp : state.phase pid = .inOp logged)
      (last : endOp state.log = .ok (log, false)) :
      OpOutcome state (.endOp pid)
        { state with log := log, phase := update state.phase pid .idle }
  | commits {pid logged log} (inOp : state.phase pid = .inOp logged)
      (last : endOp state.log = .ok (log, true)) :
      OpOutcome state (.endOp pid)
        { state with
          log := log
          phase := update state.phase pid (.committing (commitWrites log state.device)) }
  | overlapped {pid logged message} (inOp : state.phase pid = .inOp logged)
      (refusal : endOp state.log = .error message) :
      OpOutcome state (.endOp pid) { state with panicked := some message }
  | written {pid write pending} (inCommit : state.phase pid = .committing (write :: pending)) :
      OpOutcome state (.diskWrite pid)
        { state with
          device := state.device.bwrite write.1 write.2
          phase := update state.phase pid (.committing pending) }
  | committed {pid} (inCommit : state.phase pid = .committing []) :
      OpOutcome state (.endCommit pid)
        { state with
          log := endCommit (commit state.log state.device).1
          phase := update state.phase pid .idle }

theorem opStep_cases {state next : OpState Pid} (ran : opStep state label = some next) :
    state.panicked = none ∧ OpOutcome state label next := by
  unfold opStep at ran
  split at ran
  · cases ran
  rename_i running
  refine ⟨by simpa using running, ?_⟩
  cases label with
  | beginOp pid =>
    simp only at ran
    split at ran
    · rename_i log idle admitted
      cases ran
      exact .begun idle admitted
    · cases ran
  | logWrite pid blockno data =>
    simp only at ran
    split at ran
    · rename_i logged inOp
      split at ran
      · rename_i within
        split at ran
        · rename_i log accepted
          cases ran
          exact .recorded inOp within accepted
        · rename_i message refusal
          cases ran
          exact .refused inOp refusal
      · cases ran
    · cases ran
  | endOp pid =>
    simp only at ran
    split at ran
    · rename_i logged inOp
      split at ran
      · rename_i log last
        cases ran
        exact .commits inOp last
      · rename_i log last
        cases ran
        exact .ended inOp last
      · rename_i message refusal
        cases ran
        exact .overlapped inOp refusal
    · cases ran
  | diskWrite pid =>
    simp only at ran
    split at ran
    · rename_i write pending inCommit
      cases ran
      exact .written inCommit
    · cases ran
  | endCommit pid =>
    simp only at ran
    split at ran
    · rename_i inCommit
      cases ran
      exact .committed inCommit
    · cases ran

/-! ## The invariant of admission -/

/-- `begin_op` admits an operation only when its whole reservation fits. -/
theorem beginOp_some (admitted : beginOp log = some next) :
    log.committing = false ∧ log.lh.n + (log.outstanding + 1) * maxOpBlocks ≤ logSize ∧
      next = { log with outstanding := log.outstanding + 1 } := by
  unfold beginOp at admitted
  split at admitted
  · cases admitted
  split at admitted
  · cases admitted
  · rename_i idle fits
    cases admitted
    exact ⟨by simpa using idle, by omega, rfl⟩

/-- `end_op` commits exactly when it ends the last outstanding operation. -/
theorem endOp_ok (ended : endOp log = .ok (next, doCommit)) :
    log.committing = false ∧ (doCommit = true ↔ log.outstanding - 1 = 0) ∧
      next = { log with outstanding := log.outstanding - 1, committing := doCommit } := by
  unfold endOp at ended
  simp only at ended
  split at ended
  · cases ended
  rename_i idle
  have quiet : log.committing = false := by simpa using idle
  split at ended
  all_goals
    rename_i last
    cases ended
    simp [quiet, last]

theorem endOp_error (ended : endOp log = .error message) : log.committing = true := by
  unfold endOp at ended
  simp only at ended
  split at ended
  · assumption
  split at ended <;> cases ended

theorem commit_fst (log : LogState) (device : Device) :
    (commit log device).1 = clearHeader log := by
  unfold commit
  split
  · rfl
  have none : log.lh.n = 0 := by omega
  simp only [clearHeader] at none ⊢
  simp [← none]

end Xv6.Log
