import Xv6.Log.Device

/-!
# Crash atomicity of the log

A commit issues one disk write per logged block, the header write that commits
the transaction, one write per home block, and the header write that erases the
transaction. The disk left by a crash is described by three phases: the header
is still empty and no home block has changed, the header and the log blocks
hold the transaction, or everything is installed and the header is empty again.
Recovery, crashed or completed, moves only forward through them.
-/

namespace Xv6.Log

open Xv6.Semantics

theorem applyWrites_of_copies {cell : Nat → Nat} {content : Nat → Block}
    (copies : writes ⊆ (List.range n).map fun tail => (cell tail, content tail))
    (other : ∀ tail, tail < n → cell tail ≠ blockno) :
    applyWrites disk writes blockno = disk blockno := by
  apply applyWrites_of_forall_ne
  intro write mem
  obtain ⟨tail, tailMember, rfl⟩ := List.mem_map.mp (copies mem)
  exact other tail (List.mem_range.mp tailMember)

/-- The loop copies the original contents of its sources when it never
overwrites a block that it still has to read. -/
theorem copyBlocks_eq
    (separate : ∀ first second, first < count → second < count → target first ≠ source second) :
    copyBlocks source target count device = device.bwriteAll
      ((List.range count).map fun tail => (target tail, device.bread (source tail))) := by
  induction count with
  | zero => rfl
  | succ count ih =>
    have earlier := ih fun first second firstBound secondBound =>
      separate first second (by omega) (by omega)
    have untouched : (device.bwriteAll
        ((List.range count).map fun tail => (target tail, device.bread (source tail)))).bread
          (source count) = device.bread (source count) := by
      rw [Device.bread_bwriteAll]
      exact applyWrites_of_copies (List.Subset.refl _) fun tail bound =>
        separate tail count (by omega) (by omega)
    unfold copyBlocks at earlier ⊢
    rw [List.range_succ, List.foldl_append, earlier, List.map_append, Device.bwriteAll_append]
    simp only [List.foldl_cons, List.foldl_nil, untouched]
    rfl

/-- A block of the log area: the header block, or one of the `size` blocks from `start` on. -/
def InLogArea (log : LogState) (blockno : Nat) : Prop :=
  blockno = log.start ∨ (log.start ≤ blockno ∧ blockno < log.start + log.size)

/-- The in-memory header is one that `log_write` builds from blocks outside the
log area: distinct home blocks, and as many as there are log blocks for them. -/
structure Batch (log : LogState) : Prop where
  distinct : log.lh.blocks.Nodup
  home : ∀ blockno ∈ log.lh.blocks, ¬ InLogArea log blockno
  fits : log.lh.n = 0 ∨ log.lh.n < log.size

/-- The on-disk log header is empty. -/
def HeaderEmpty (start : Nat) (disk : Disk) : Prop := disk start 0 = 0

section Commit

variable {log : LogState} {device : Device}

/-- What the cache holds for the `tail`-th block of the batch. -/
def batchContent (log : LogState) (device : Device) (tail : Nat) : Block :=
  device.bread (log.lh.block tail)

/-- The writes `write_log` issues. -/
def logCopies (log : LogState) (device : Device) : List (Nat × Block) :=
  (List.range log.lh.n).map fun tail => (log.start + tail + 1, batchContent log device tail)

/-- The writes `install_trans` issues. -/
def homeCopies (log : LogState) (device : Device) : List (Nat × Block) :=
  (List.range log.lh.n).map fun tail => (log.lh.block tail, batchContent log device tail)

/-- The disk after the whole batch: every block of the batch holds its cached contents. -/
def afterBatch (log : LogState) (device : Device) : Disk :=
  applyWrites device.disk (homeCopies log device)

theorem mem_blocks (bound : tail < log.lh.n) : log.lh.block tail ∈ log.lh.blocks :=
  List.mem_map_of_mem (List.mem_range.mpr bound)

theorem Batch.logBlock_ne (batch : Batch log) (outside : ¬InLogArea log blockno)
    (bound : tail < log.lh.n) : log.start + tail + 1 ≠ blockno := by
  intro same
  have room := batch.fits
  exact outside (.inr (by omega))

theorem Batch.block_ne_logBlock (batch : Batch log) (bound : first < log.lh.n)
    (inLog : second < log.lh.n) : log.lh.block first ≠ log.start + second + 1 :=
  (batch.logBlock_ne (batch.home _ (mem_blocks bound)) inLog).symm

theorem Batch.block_ne_start (batch : Batch log) (bound : tail < log.lh.n) :
    log.lh.block tail ≠ log.start :=
  fun same => batch.home _ (mem_blocks bound) (.inl same)

theorem fst_logCopies (log : LogState) (device : Device) :
    (logCopies log device).map Prod.fst = (List.range log.lh.n).map fun tail => log.start + tail + 1 := by
  simp [logCopies, Function.comp_def]

theorem fst_homeCopies (log : LogState) (device : Device) :
    (homeCopies log device).map Prod.fst = log.lh.blocks := by
  simp [homeCopies, LogHeader.blocks, Function.comp_def]

theorem nodup_logCopies (log : LogState) (device : Device) :
    ((logCopies log device).map Prod.fst).Nodup := by
  rw [fst_logCopies]
  exact List.nodup_range.map fun first second same => by simpa using same

theorem Batch.nodup_homeCopies (batch : Batch log) (device : Device) :
    ((homeCopies log device).map Prod.fst).Nodup := by
  rw [fst_homeCopies]
  exact batch.distinct

/-- The single-block disk writes issued by `commit`, in order. -/
def commitWrites (log : LogState) (device : Device) : List (Nat × Block) :=
  (commit log { device with writes := [] }).2.writes

/-- The header block that commits the transaction. -/
def commitHead (log : LogState) (device : Device) : Block :=
  headBlock log.lh (device.bread log.start)

/-- The header block that erases the transaction. -/
def eraseHead (log : LogState) (device : Device) : Block :=
  headBlock (clearHeader log).lh (commitHead log device)

/-- After the log blocks and the header are written, each log block has the contents that
`write_log` put there. -/
theorem applyWrites_logBlock (disk : Disk) (bound : tail < log.lh.n) :
    applyWrites disk (logCopies log device ++ [(log.start, commitHead log device)])
      (log.start + tail + 1) = batchContent log device tail := by
  have header : log.start ≠ log.start + tail + 1 := by omega
  rw [applyWrites_append, applyWrites_of_forall_ne (List.forall_mem_singleton.mpr header)]
  exact applyWrites_of_mem (nodup_logCopies log device)
    (List.mem_map_of_mem (List.mem_range.mpr bound))

/-- `write_head` after `write_log` starts from the header buffer as it was. -/
theorem writeHead_writeLog (batch : Batch log) :
    writeHead log (writeLog log device) =
      device.bwriteAll (logCopies log device ++ [(log.start, commitHead log device)]) := by
  have copied : writeLog log device = device.bwriteAll (logCopies log device) :=
    copyBlocks_eq fun _ _ firstBound secondBound =>
      (batch.block_ne_logBlock secondBound firstBound).symm
  have header : (device.bwriteAll (logCopies log device)).bread log.start =
      device.bread log.start := by
    rw [Device.bread_bwriteAll]
    exact applyWrites_of_copies (List.Subset.refl _) fun tail _ => by omega
  rw [copied, Device.bwriteAll_append]
  simp only [writeHead, header]
  rfl

/-- `commit` issues the log copies, the committing header, the home copies and
the erasing header, in this order. -/
theorem commit_device (batch : Batch log) (nonempty : 0 < log.lh.n) :
    (commit log device).2 = device.bwriteAll
      (logCopies log device ++ [(log.start, commitHead log device)] ++ homeCopies log device ++
        [(log.start, eraseHead log device)]) := by
  have installed : installTrans log (writeHead log (writeLog log device)) =
      device.bwriteAll (logCopies log device ++ [(log.start, commitHead log device)] ++
        homeCopies log device) := by
    rw [writeHead_writeLog batch, Device.bwriteAll_append _ _ (homeCopies log device)]
    rw [installTrans, copyBlocks_eq fun _ _ firstBound secondBound =>
      batch.block_ne_logBlock firstBound secondBound]
    congr 1
    apply List.map_congr_left
    intro tail mem
    rw [Device.bread_bwriteAll, applyWrites_logBlock _ (List.mem_range.mp mem)]
  have header : (device.bwriteAll (logCopies log device ++ [(log.start, commitHead log device)] ++
      homeCopies log device)).bread log.start = commitHead log device := by
    rw [Device.bread_bwriteAll, applyWrites_append, applyWrites_append, homeCopies,
      applyWrites_of_copies (List.Subset.refl _) fun _ => batch.block_ne_start]
    simp
  rw [commit, if_pos nonempty]
  simp only [installed]
  rw [writeHead, clearHeader_start, header, Device.bwriteAll_append _ _ [_]]
  rfl

theorem commitWrites_eq (batch : Batch log) (nonempty : 0 < log.lh.n) :
    commitWrites log device =
      logCopies log device ++ [(log.start, commitHead log device)] ++ homeCopies log device ++
        [(log.start, eraseHead log device)] := by
  rw [commitWrites, commit_device batch nonempty, Device.writes_bwriteAll]
  rfl

theorem commitWrites_of_empty (empty : log.lh.n = 0) : commitWrites log device = [] := by
  simp [commitWrites, commit, empty]

end Commit

/-! ## Recovery -/

/-- The single-block disk writes issued by recovery after a boot from `disk`, in order. -/
def recoveryWrites (start size : Nat) (disk : Disk) : List (Nat × Block) :=
  (initlog start size disk).2.writes

/-- The disk left by a run of recovery that crashes after `count` writes. -/
def crashedRecovery (start size : Nat) (disk : Disk) (count : Nat) : Disk :=
  applyWrites disk ((recoveryWrites start size disk).take count)

/-- The disk left by a completed run of recovery. -/
def recovered (start size : Nat) (disk : Disk) : Disk :=
  (initlog start size disk).2.disk

section

variable (empty : HeaderEmpty start disk)
include empty

theorem initlog_of_headerEmpty :
    (initlog start size disk).2 = (Device.boot disk).bwriteAll [(start, disk start)] := by
  have header : headBlock { n := 0, block := fun i => if i < disk start 0 then disk start (i + 1)
      else 0 } (disk start) = disk start := by
    funext word
    by_cases first : word = 0
    · simp [headBlock, first, show disk start 0 = 0 from empty]
    · simp [headBlock, first]
  simp only [initlog, recoverFromLog, readHead, installTrans, copyBlocks, clearHeader, writeHead,
    Device.bread_boot, show disk start 0 = 0 from empty, List.range_zero, List.foldl_nil, bootLog]
  simp only [show disk start 0 = 0 from empty] at header
  rw [header]
  rfl

theorem crashedRecovery_of_headerEmpty (count : Nat) :
    crashedRecovery start size disk count = disk := by
  rw [crashedRecovery, recoveryWrites, initlog_of_headerEmpty empty, Device.writes_bwriteAll]
  cases count with
  | zero => rfl
  | succ count => simp [Device.boot]

theorem recovered_of_headerEmpty : recovered start size disk = disk := by
  rw [recovered, initlog_of_headerEmpty empty, Device.disk_bwriteAll]
  simp [Device.boot]

end

/-- A completed recovery leaves an empty header, whatever the disk held. -/
theorem headerEmpty_recovered (start size : Nat) (disk : Disk) :
    HeaderEmpty start (recovered start size disk) := by
  simp [HeaderEmpty, recovered, initlog, recoverFromLog, writeHead, Device.bwrite, headBlock]

/-! ## Phases of a crashed commit -/

section Phases

variable (log : LogState) (device : Device)

/-- The transaction has not committed: no home block has changed. -/
structure Uncommitted (disk : Disk) : Prop where
  header : HeaderEmpty log.start disk
  home : ∀ blockno, ¬ InLogArea log blockno → disk blockno = device.disk blockno

/-- The header and the log blocks hold the transaction. Blocks of the batch may
be installed or not. -/
structure Committed (disk : Disk) : Prop where
  count : disk log.start 0 = log.lh.n
  header : ∀ tail, tail < log.lh.n → disk log.start (tail + 1) = log.lh.block tail
  logged : ∀ tail, tail < log.lh.n → disk (log.start + tail + 1) = batchContent log device tail
  home : ∀ blockno, ¬ InLogArea log blockno → blockno ∉ log.lh.blocks →
    disk blockno = device.disk blockno

/-- The transaction is installed and erased from the log. -/
structure Installed (disk : Disk) : Prop where
  header : HeaderEmpty log.start disk
  home : ∀ blockno, ¬ InLogArea log blockno → disk blockno = afterBatch log device blockno

variable {log device}

section

variable (batch : Batch log)
include batch

/-- Writing any prefix of the log copies leaves the transaction uncommitted. -/
theorem uncommitted_logCopies (empty : HeaderEmpty log.start device.disk)
    (count : Nat) :
    Uncommitted log device (applyWrites device.disk ((logCopies log device).take count)) where
  header := by
    rw [HeaderEmpty, logCopies,
      applyWrites_of_copies (List.take_subset ..) fun tail _ => by omega]
    exact empty
  home := by
    intro blockno outside
    exact applyWrites_of_copies (List.take_subset ..) fun tail => batch.logBlock_ne outside

section

variable (committed : Committed log device disk)
include committed

/-- Installing any prefix of the batch keeps a committed transaction committed. -/
theorem Committed.install (count : Nat) :
    Committed log device (applyWrites disk ((homeCopies log device).take count)) := by
  have untouched : ∀ blockno, (∀ tail, tail < log.lh.n → log.lh.block tail ≠ blockno) →
      applyWrites disk ((homeCopies log device).take count) blockno = disk blockno := by
    exact fun blockno => applyWrites_of_copies (List.take_subset ..)
  have start := untouched log.start fun tail bound => batch.block_ne_start bound
  refine ⟨?_, ?_, ?_, ?_⟩
  · rw [start]
    exact committed.count
  · intro tail bound
    rw [start]
    exact committed.header tail bound
  · intro tail bound
    rw [untouched _ fun other otherBound => batch.block_ne_logBlock otherBound bound]
    exact committed.logged tail bound
  intro blockno outside absent
  have other : ∀ tail, tail < log.lh.n → log.lh.block tail ≠ blockno := by
    intro tail bound same
    exact absent (same ▸ mem_blocks bound)
  rw [untouched _ other]
  exact committed.home blockno outside absent

/-- Installing the whole batch and erasing the header finishes the transaction. -/
theorem Committed.finish (empty : erased 0 = 0) :
    Installed log device
      (applyWrites disk (homeCopies log device ++ [(log.start, erased)])) where
  header := by
    rw [applyWrites_append]
    simpa [HeaderEmpty] using empty
  home := by
    intro blockno outside
    have header : log.start ≠ blockno := fun same => outside (.inl same.symm)
    rw [applyWrites_append, applyWrites_of_forall_ne (List.forall_mem_singleton.mpr header),
      afterBatch]
    by_cases mem : blockno ∈ log.lh.blocks
    · -- both disks hold the batch's contents for this block
      obtain ⟨tail, tailMember, rfl⟩ := List.mem_map.mp mem
      have copied : (log.lh.block tail, batchContent log device tail) ∈ homeCopies log device :=
        List.mem_map_of_mem tailMember
      have distinct := batch.nodup_homeCopies device
      rw [show log.lh.block tail = (log.lh.block tail, batchContent log device tail).1 from rfl,
        applyWrites_of_mem distinct copied, applyWrites_of_mem distinct copied]
    have other : ∀ write ∈ homeCopies log device, write.1 ≠ blockno := by
      intro write writeMember same
      have cell := List.mem_map_of_mem (f := Prod.fst) writeMember
      rw [fst_homeCopies, same] at cell
      exact mem cell
    rw [applyWrites_of_forall_ne other, applyWrites_of_forall_ne other]
    exact committed.home blockno outside mem

/-- Recovery from a committed transaction installs the batch and erases the header. -/
theorem Committed.recovery :
    ∃ erased : Block, erased 0 = 0 ∧ (initlog log.start log.size disk).2 =
      (Device.boot disk).bwriteAll (homeCopies log device ++ [(log.start, erased)]) := by
  have header : (readHead (bootLog log.start log.size) (Device.boot disk)).lh.n = log.lh.n :=
    committed.count
  have blocks : ∀ tail, tail < log.lh.n →
      (readHead (bootLog log.start log.size) (Device.boot disk)).lh.block tail =
        log.lh.block tail := by
    intro tail bound
    simp [readHead, committed.count, bound, committed.header tail bound]
  have installed : installTrans (readHead (bootLog log.start log.size) (Device.boot disk))
      (Device.boot disk) = (Device.boot disk).bwriteAll (homeCopies log device) := by
    rw [installTrans, header, readHead_start, bootLog_start, copyBlocks_eq]
    · congr 1
      apply List.map_congr_left
      intro tail mem
      have bound : tail < log.lh.n := List.mem_range.mp mem
      rw [blocks tail bound, Device.bread_boot, committed.logged tail bound]
    · intro first second firstBound secondBound
      rw [blocks first firstBound]
      exact batch.block_ne_logBlock firstBound secondBound
  refine ⟨headBlock (clearHeader (readHead (bootLog log.start log.size) (Device.boot disk))).lh
      (((Device.boot disk).bwriteAll (homeCopies log device)).bread log.start), ?_, ?_⟩
  · simp [headBlock]
  · rw [Device.bwriteAll_append, initlog, recoverFromLog]
    simp only [installed]
    rfl

/-- Redoing a prefix of the installation and of the erasing header write, from
a committed transaction. -/
theorem Committed.redo (empty : erased 0 = 0) (count : Nat) :
    Committed log device
        (applyWrites disk ((homeCopies log device ++ [(log.start, erased)]).take count)) ∨
      Installed log device
        (applyWrites disk ((homeCopies log device ++ [(log.start, erased)]).take count)) := by
  by_cases partly : count ≤ (homeCopies log device).length
  · left
    rw [List.take_append_of_le_length partly]
    exact committed.install batch count
  · right
    rw [List.take_of_length_le (by simp only [List.length_append, List.length_singleton]; omega)]
    exact committed.finish batch empty

end

/-- The committing header write turns complete log copies into a committed transaction. -/
theorem committed_writeHead :
    Committed log device
      (applyWrites device.disk (logCopies log device ++ [(log.start, commitHead log device)])) := by
  have header : applyWrites device.disk
      (logCopies log device ++ [(log.start, commitHead log device)]) log.start =
        commitHead log device := by
    simp [applyWrites_append]
  have other : ∀ blockno, blockno ≠ log.start → applyWrites device.disk
      (logCopies log device ++ [(log.start, commitHead log device)]) blockno =
        applyWrites device.disk (logCopies log device) blockno := by
    intro blockno ne
    simp [applyWrites_append, ne]
  refine ⟨?_, ?_, ?_, ?_⟩
  · rw [header]
    rfl
  · intro tail bound
    rw [header]
    simp [commitHead, headBlock, Nat.succ_le_of_lt bound]
  · exact fun tail bound => applyWrites_logBlock device.disk bound
  intro blockno outside _
  rw [other _ fun same => outside (.inl same)]
  exact applyWrites_of_copies (List.Subset.refl _) fun tail => batch.logBlock_ne outside

/-- Where a crash of `commit` after `crashPoint` disk writes leaves the disk. The
first header write is the one after the `n` log copies. -/
theorem crash_phase (empty : HeaderEmpty log.start device.disk)
    (nonempty : 0 < log.lh.n) (crashPoint : Nat) :
    (crashPoint ≤ log.lh.n ∧ Uncommitted log device
        (applyWrites device.disk ((commitWrites log device).take crashPoint))) ∨
      Committed log device
        (applyWrites device.disk ((commitWrites log device).take crashPoint)) ∨
      Installed log device
        (applyWrites device.disk ((commitWrites log device).take crashPoint)) := by
  have logLength : (logCopies log device).length = log.lh.n := by simp [logCopies]
  rw [commitWrites_eq batch nonempty, List.append_assoc]
  by_cases early : crashPoint ≤ log.lh.n
  · refine .inl ⟨early, ?_⟩
    rw [List.append_assoc, List.take_append_of_le_length (by omega)]
    exact uncommitted_logCopies batch empty crashPoint
  right
  have headLength : (logCopies log device ++ [(log.start, commitHead log device)]).length =
      log.lh.n + 1 := by simp [logLength]
  rw [List.take_append, List.take_of_length_le (by omega), applyWrites_append]
  exact (committed_writeHead batch).redo batch (by simp [eraseHead, headBlock]) _

/-- Crashed runs of recovery keep an uncommitted or an installed disk as it is,
and move a committed one at most to installed. -/
theorem Committed.recoveries (recoveries : List Nat)
    (phase : Committed log device disk ∨ Installed log device disk) :
    Committed log device (recoveries.foldl (crashedRecovery log.start log.size) disk) ∨
      Installed log device (recoveries.foldl (crashedRecovery log.start log.size) disk) := by
  induction recoveries generalizing disk with
  | nil => exact phase
  | cons count rest ih =>
    apply ih
    rcases phase with committed | installed
    · obtain ⟨erased, empty, device⟩ := committed.recovery batch
      rw [crashedRecovery, recoveryWrites, device, Device.writes_bwriteAll]
      exact committed.redo batch empty count
    · rw [crashedRecovery_of_headerEmpty installed.header]
      exact .inr installed

end

theorem recoveries_of_headerEmpty (empty : HeaderEmpty start disk) (recoveries : List Nat) :
    recoveries.foldl (crashedRecovery start size) disk = disk := by
  induction recoveries with
  | nil => rfl
  | cons count rest ih =>
    rw [List.foldl_cons, crashedRecovery_of_headerEmpty empty, ih]

theorem Committed.recovered (batch : Batch log)
    (phase : Committed log device disk ∨ Installed log device disk) :
    Installed log device (recovered log.start log.size disk) := by
  rcases phase with committed | installed
  · obtain ⟨erased, empty, device⟩ := committed.recovery batch
    rw [Log.recovered, device, Device.disk_bwriteAll]
    exact committed.finish batch empty
  · rw [recovered_of_headerEmpty installed.header]
    exact installed

end Phases

/-! ## Mounted file systems -/

/-- The log and device states of a running kernel: recovery has completed on
some disk, and since then buffers outside the log area were modified and passed
to `log_write` within operations, and transactions were committed. -/
inductive Mounted (start size : Nat) : LogState → Device → Prop where
  | initlog (disk : Disk) :
      Mounted start size (initlog start size disk).1 (initlog start size disk).2
  | beginOp {log next device} (prior : Mounted start size log device)
      (admitted : beginOp log = some next) : Mounted start size next device
  | logWrite {log next device blockno} (data : Block) (prior : Mounted start size log device)
      (home : ¬ InLogArea log blockno) (recorded : logWrite log blockno = .ok next) :
      Mounted start size next (device.modify blockno data)
  | endOp {log next device doCommit} (prior : Mounted start size log device)
      (ended : endOp log = .ok (next, doCommit)) : Mounted start size next device
  | commit {log device} (prior : Mounted start size log device)
      (committing : log.committing = true) :
      Mounted start size (endCommit (commit log device).1) (commit log device).2

/-- What every mounted state guarantees to the next commit. -/
structure Ready (start size : Nat) (log : LogState) (device : Device) : Prop where
  start : log.start = start
  size : log.size = size
  batch : Batch log
  header : HeaderEmpty log.start device.disk

/-- `log_write` extends a batch by at most one block for which the log has room. -/
theorem Batch.logWrite (batch : Batch log)
    (home : ¬ InLogArea log blockno) (recorded : logWrite log blockno = .ok next) :
    Batch next := by
  unfold Log.logWrite at recorded
  split at recorded
  · cases recorded
  split at recorded
  · cases recorded
  cases recorded
  by_cases absorbed : blockno ∈ log.lh.blocks
  · have same := blocks_recordBlock_of_mem absorbed
    refine ⟨?_, ?_, ?_⟩
    · rw [same]
      exact batch.distinct
    · rw [same]
      exact batch.home
    · rw [← LogHeader.length_blocks, same, LogHeader.length_blocks]
      exact batch.fits
  have added := blocks_recordBlock_of_not_mem absorbed
  refine ⟨?_, ?_, ?_⟩
  · rw [added]
    exact batch.distinct.append (List.nodup_singleton _) (by simpa using absorbed)
  · rw [added]
    exact List.forall_mem_append.mpr ⟨batch.home, List.forall_mem_singleton.mpr home⟩
  · right
    rw [← LogHeader.length_blocks, added, List.length_append, LogHeader.length_blocks]
    simp only [List.length_singleton]
    omega

theorem commit_clears (batch : Batch log) (header : HeaderEmpty log.start device.disk) :
    (commit log device).1.lh.n = 0 ∧ (commit log device).1.start = log.start ∧
      (commit log device).1.size = log.size ∧
      HeaderEmpty log.start (commit log device).2.disk := by
  by_cases nonempty : 0 < log.lh.n
  · have erased : HeaderEmpty log.start (commit log device).2.disk := by
      rw [commit_device batch nonempty, Device.disk_bwriteAll, applyWrites_append]
      simp [HeaderEmpty, eraseHead, headBlock]
    refine ⟨?_, ?_, ?_, erased⟩ <;> simp [commit, nonempty]
  · simp only [commit, nonempty, if_false]
    exact ⟨by omega, trivial, trivial, header⟩

theorem Batch.of_empty (empty : log.lh.n = 0) : Batch log := by
  have none : log.lh.blocks = [] := by simp [LogHeader.blocks, empty]
  exact ⟨by simp [none], by simp [none], .inl empty⟩

theorem Mounted.ready (mounted : Mounted start size log device) : Ready start size log device := by
  induction mounted with
  | initlog disk =>
    exact ⟨rfl, rfl, Batch.of_empty rfl, headerEmpty_recovered start size disk⟩
  | beginOp _ admitted ih =>
    unfold Log.beginOp at admitted
    split at admitted
    · cases admitted
    split at admitted
    · cases admitted
    · cases admitted
      exact ⟨ih.start, ih.size, ⟨ih.batch.distinct,
        ih.batch.home, ih.batch.fits⟩, ih.header⟩
  | logWrite data _ home recorded ih =>
    have batch := ih.batch.logWrite home recorded
    unfold Log.logWrite at recorded
    split at recorded
    · cases recorded
    split at recorded
    · cases recorded
    · cases recorded
      exact ⟨ih.start, ih.size, batch,
        ih.header⟩
  | endOp _ ended ih =>
    have batch := ih.batch
    unfold Log.endOp at ended
    simp only at ended
    split at ended
    · cases ended
    split at ended
    all_goals
      cases ended
      exact ⟨ih.start, ih.size,
        ⟨batch.distinct, batch.home, batch.fits⟩, ih.header⟩
  | commit _ _ ih =>
    obtain ⟨empty, sameStart, sameSize, header⟩ :=
      commit_clears ih.batch ih.header
    refine ⟨sameStart.trans ih.start, sameSize.trans ih.size,
      Batch.of_empty empty, ?_⟩
    rw [endCommit, sameStart]
    exact header

/-- The disk after a crash of `commit`, crashed recoveries and a completed one:
uncommitted only if the crash came before the first header write. -/
theorem crash_outcome (batch : Batch log)
    (header : HeaderEmpty log.start device.disk) (crashPoint : Nat) (recoveries : List Nat)
    (atCrash : crashed = applyWrites device.disk ((commitWrites log device).take crashPoint))
    (atEnd : final = recovered log.start log.size
      (recoveries.foldl (crashedRecovery log.start log.size) crashed)) :
    (crashPoint ≤ log.lh.n ∧ Uncommitted log device final) ∨ Installed log device final := by
  have settled : HeaderEmpty log.start crashed → final = crashed := by
    intro empty
    rw [atEnd, recoveries_of_headerEmpty empty, recovered_of_headerEmpty empty]
  by_cases nonempty : 0 < log.lh.n
  · rcases crash_phase batch header nonempty crashPoint with ⟨early, uncommitted⟩ | committed
    · rw [← atCrash] at uncommitted
      refine .inl ⟨early, ?_⟩
      rw [settled uncommitted.header]
      exact uncommitted
    · rw [← atCrash] at committed
      right
      rw [atEnd]
      exact Committed.recovered batch (Committed.recoveries batch recoveries committed)
  -- nothing was logged: `commit` wrote nothing and the batch changes nothing
  have none : log.lh.n = 0 := by omega
  rw [commitWrites_of_empty none, List.take_nil, applyWrites_nil] at atCrash
  right
  rw [settled (atCrash ▸ header), atCrash]
  exact ⟨header, fun blockno _ => by simp [afterBatch, homeCopies, none]⟩

/-- Crash atomicity. Cut the disk writes of a commit after any number of them,
reboot, cut any number of recoveries short, and complete one: the home blocks
are all as before the batch, or all as after it, and certainly the latter when
the first header write, which follows the `n` log copies, was among the writes
that reached the disk. The header is then empty. -/
theorem commit_crash_atomic {start size : Nat} {log : LogState} {device : Device}
    (mounted : Mounted start size log device) (crashPoint : Nat) (recoveries : List Nat) :
    let crashed := applyWrites device.disk ((commitWrites log device).take crashPoint)
    let final := recovered start size (recoveries.foldl (crashedRecovery start size) crashed)
    ((∀ blockno, ¬ InLogArea log blockno → final blockno = device.disk blockno) ∨
      (∀ blockno, ¬ InLogArea log blockno → final blockno = afterBatch log device blockno)) ∧
    (log.lh.n < crashPoint →
      ∀ blockno, ¬ InLogArea log blockno → final blockno = afterBatch log device blockno) ∧
    HeaderEmpty start final := by
  intro crashed final
  obtain ⟨rfl, rfl, batch, header⟩ := mounted.ready
  have outcome : (crashPoint ≤ log.lh.n ∧ Uncommitted log device final) ∨
      Installed log device final :=
    crash_outcome batch header crashPoint recoveries rfl rfl
  refine ⟨?_, ?_, headerEmpty_recovered _ _ _⟩
  · rcases outcome with ⟨_, uncommitted⟩ | installed
    · exact .inl uncommitted.home
    · exact .inr installed.home
  · intro headWritten
    rcases outcome with ⟨early, _⟩ | installed
    · omega
    · exact installed.home

variable {device : Device}

/-- One block of a fresh file system is logged; the crash comes right after the
header write, and the block is installed by whatever recoveries follow. -/
theorem commit_crash_atomic_oneBlock :
    ∃ log device, Mounted 2 logSize log device ∧ log.lh.blocks = [40] ∧
      ∀ recoveries : List Nat, recovered 2 logSize (recoveries.foldl (crashedRecovery 2 logSize)
        (applyWrites device.disk ((commitWrites log device).take 2))) 40 =
          afterBatch log device 40 := by
  have opened : Mounted 2 logSize { (initlog 2 logSize fun _ _ => 0).1 with outstanding := 1 }
      (initlog 2 logSize fun _ _ => 0).2 := .beginOp (.initlog fun _ _ => 0) rfl
  have home : ¬ InLogArea { (initlog 2 logSize fun _ _ => 0).1 with outstanding := 1 } 40 := by
    rintro (same | ⟨_, below⟩)
    · exact absurd same (by decide)
    · exact absurd below (by decide)
  have mounted := Mounted.logWrite (fun _ => 7) opened home rfl
  refine ⟨_, _, mounted, rfl, fun recoveries => ?_⟩
  exact (commit_crash_atomic mounted 2 recoveries).2.1 (by decide) 40 home

end Xv6.Log
