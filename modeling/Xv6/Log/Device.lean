import Xv6.Param
import Xv6.Semantics.Writes

/-!
# The log layer

`log.c` over a buffer cache. A block is the sequence of its 32-bit words, so
that the header block can be read as `struct logheader`: word `0` is `n` and
word `i + 1` is `block[i]`. Every `bwrite` is one single-block disk write, and
the device keeps the writes issued since boot in order: a crash keeps a prefix
of them and loses the cache.
-/

namespace Xv6.Log

open Function Xv6.Semantics

/-- The contents of a disk block, word by word. -/
abbrev Block := Nat → Nat

/-- What is on the disk, by block number. -/
abbrev Disk := Nat → Block

/-- `struct logheader`. -/
structure LogHeader where
  n : Nat
  block : Nat → Nat

/-- The block numbers recorded in the header, in log order. -/
def LogHeader.blocks (header : LogHeader) : List Nat :=
  (List.range header.n).map header.block

/-- `struct log` without its spinlock and device number. -/
structure LogState where
  start : Nat
  size : Nat
  outstanding : Int
  committing : Bool
  lh : LogHeader

/-- A disk behind the buffer cache. A cached buffer is `some` content; clean
buffers need not be recorded, since reading them gives what the disk holds. -/
structure Device where
  disk : Disk
  cache : Nat → Option Block
  writes : List (Nat × Block)

namespace Device

/-- A freshly booted machine: nothing cached, nothing written. -/
def boot (disk : Disk) : Device where
  disk := disk
  cache := fun _ => none
  writes := []

/-- `bread`: the cached buffer, or the block read from the disk. -/
def bread (device : Device) (blockno : Nat) : Block :=
  (device.cache blockno).getD (device.disk blockno)

/-- A caller of `bread` stores new contents in the buffer, which stays in the cache. -/
def modify (device : Device) (blockno : Nat) (data : Block) : Device :=
  { device with cache := update device.cache blockno (some data) }

/-- `bwrite` of a buffer holding `data`. -/
def bwrite (device : Device) (blockno : Nat) (data : Block) : Device where
  disk := update device.disk blockno data
  cache := update device.cache blockno (some data)
  writes := device.writes ++ [(blockno, data)]

theorem bread_bwrite (device : Device) (blockno : Nat) (data : Block) :
    (device.bwrite blockno data).bread = update device.bread blockno data := by
  funext other
  by_cases same : other = blockno
  · simp [bread, bwrite, same]
  · simp [bread, bwrite, same]

/-- A sequence of `bwrite`s. -/
def bwriteAll (device : Device) (writes : List (Nat × Block)) : Device :=
  writes.foldl (fun device write => device.bwrite write.1 write.2) device

theorem bwriteAll_append (device : Device) (first second : List (Nat × Block)) :
    device.bwriteAll (first ++ second) = (device.bwriteAll first).bwriteAll second := by
  simp [bwriteAll, List.foldl_append]

section

variable (device : Device) (writes : List (Nat × Block))
include device writes

/-- The disk after a sequence of `bwrite`s holds the writes in order. -/
theorem disk_bwriteAll :
    (device.bwriteAll writes).disk = applyWrites device.disk writes := by
  induction writes generalizing device with
  | nil => rfl
  | cons write rest ih => exact ih (device.bwrite write.1 write.2)

theorem bread_bwriteAll :
    (device.bwriteAll writes).bread = applyWrites device.bread writes := by
  induction writes generalizing device with
  | nil => rfl
  | cons write rest ih =>
    rw [applyWrites_cons, ← bread_bwrite]
    exact ih (device.bwrite write.1 write.2)

theorem writes_bwriteAll :
    (device.bwriteAll writes).writes = device.writes ++ writes := by
  induction writes generalizing device with
  | nil => simp [bwriteAll]
  | cons write rest ih =>
    rw [show device.bwriteAll (write :: rest) =
      (device.bwrite write.1 write.2).bwriteAll rest from rfl, ih]
    simp [bwrite]

end

@[simp] theorem bread_boot (disk : Disk) (blockno : Nat) :
    (boot disk).bread blockno = disk blockno := rfl

end Device

/-- The loop of `log_write` looking for the block: its index in the header, or `n`. -/
def absorbIndex (header : LogHeader) (blockno : Nat) : Nat :=
  ((List.range header.n).find? fun i => header.block i == blockno).getD header.n

/-- Log absorption: an already recorded block keeps its slot, a new one is added. -/
def recordBlock (header : LogHeader) (blockno : Nat) : LogHeader where
  n := if absorbIndex header blockno = header.n then header.n + 1 else header.n
  block := update header.block (absorbIndex header blockno) blockno

/-- `log_write`, with the panics it can reach. -/
def logWrite (log : LogState) (blockno : Nat) : Except String LogState :=
  if log.lh.n ≥ logSize ∨ log.lh.n ≥ log.size - 1 then
    .error "too big a transaction"
  else if log.outstanding < 1 then
    .error "log_write outside of trans"
  else
    .ok { log with lh := recordBlock log.lh blockno }

/-- One pass of `begin_op`'s loop: `none` when the caller has to sleep. -/
def beginOp (log : LogState) : Option LogState :=
  if log.committing then
    none
  else if log.lh.n + (log.outstanding + 1) * maxOpBlocks > logSize then
    -- this op might exhaust log space; wait for commit.
    none
  else
    some { log with outstanding := log.outstanding + 1 }

/-- `end_op` up to its release of `log.lock`; the flag is `do_commit`. -/
def endOp (log : LogState) : Except String (LogState × Bool) :=
  let log := { log with outstanding := log.outstanding - 1 }
  if log.committing then
    .error "log.committing"
  else if log.outstanding = 0 then
    .ok ({ log with committing := true }, true)
  else
    .ok (log, false)

/-- `end_op` after `commit()` has returned. -/
def endCommit (log : LogState) : LogState := { log with committing := false }

/-- The loop shared by `write_log` and `install_trans`: for each `tail` below
`count`, copy block `source tail` over block `target tail` and write it to disk. -/
def copyBlocks (source target : Nat → Nat) (count : Nat) (device : Device) : Device :=
  (List.range count).foldl
    (fun device tail => device.bwrite (target tail) (device.bread (source tail))) device

/-- `write_log`: copy modified blocks from the cache to the log. -/
def writeLog (log : LogState) (device : Device) : Device :=
  copyBlocks (fun tail => log.lh.block tail) (fun tail => log.start + tail + 1) log.lh.n device

/-- The header block `write_head` stores over the previous contents of its buffer:
words past the first `n` block numbers are left as they were. -/
def headBlock (header : LogHeader) (old : Block) : Block := fun word =>
  if word = 0 then header.n
  else if word ≤ header.n then header.block (word - 1)
  else old word

/-- `write_head`: write the in-memory log header to disk. -/
def writeHead (log : LogState) (device : Device) : Device :=
  device.bwrite log.start (headBlock log.lh (device.bread log.start))

/-- `install_trans`: copy committed blocks from the log to their home location.
`recovering` only decides whether the buffer is unpinned. -/
def installTrans (log : LogState) (device : Device) : Device :=
  copyBlocks (fun tail => log.start + tail + 1) (fun tail => log.lh.block tail) log.lh.n device

/-- `read_head`: read the log header from disk into the in-memory log header. -/
def readHead (log : LogState) (device : Device) : LogState :=
  let header := device.bread log.start
  { log with lh :=
    { n := header 0
      block := fun i => if i < header 0 then header (i + 1) else log.lh.block i } }

/-- `log.lh.n = 0`. -/
def clearHeader (log : LogState) : LogState := { log with lh := { log.lh with n := 0 } }

/-- `commit`. -/
def commit (log : LogState) (device : Device) : LogState × Device :=
  if log.lh.n > 0 then
    let device := writeLog log device
    let device := writeHead log device
    let device := installTrans log device
    (clearHeader log, writeHead (clearHeader log) device)
  else
    (log, device)

/-- `recover_from_log`. -/
def recoverFromLog (log : LogState) (device : Device) : LogState × Device :=
  let log := readHead log device
  let device := installTrans log device
  (clearHeader log, writeHead (clearHeader log) device)

/-- The zeroed `log` after `initlog` has copied the superblock's fields. -/
def bootLog (start size : Nat) : LogState where
  start := start
  size := size
  outstanding := 0
  committing := false
  lh := { n := 0, block := fun _ => 0 }

/-- `initlog` on a freshly booted machine. -/
def initlog (start size : Nat) (disk : Disk) : LogState × Device :=
  recoverFromLog (bootLog start size) (.boot disk)

@[simp] theorem clearHeader_start (log : LogState) : (clearHeader log).start = log.start := rfl
@[simp] theorem clearHeader_size (log : LogState) : (clearHeader log).size = log.size := rfl
@[simp] theorem clearHeader_n (log : LogState) : (clearHeader log).lh.n = 0 := rfl
@[simp] theorem readHead_start (log : LogState) (device : Device) :
    (readHead log device).start = log.start := rfl
@[simp] theorem bootLog_start (start size : Nat) : (bootLog start size).start = start := rfl

/-- The absorption loop stops at `n` exactly for a block that is not recorded yet. -/
theorem absorbIndex_eq_n_iff (header : LogHeader) (blockno : Nat) :
    absorbIndex header blockno = header.n ↔ blockno ∉ header.blocks := by
  unfold absorbIndex LogHeader.blocks
  cases found : (List.range header.n).find? fun i => header.block i == blockno with
  | none =>
    rw [List.find?_eq_none] at found
    simp only [Option.getD_none, true_iff, List.mem_map, not_exists, not_and]
    intro i mem same
    exact found i mem (by simp [same])
  | some i =>
    have bound : i < header.n := List.mem_range.mp (List.mem_of_find?_eq_some found)
    have same : header.block i = blockno := by simpa using List.find?_some found
    simp only [Option.getD_some, List.mem_map, not_exists, not_and]
    constructor
    · intro equal
      omega
    · intro absent
      exact absurd same (absent i (List.mem_range.mpr bound))

theorem blocks_recordBlock_of_not_mem (fresh : blockno ∉ header.blocks) :
    (recordBlock header blockno).blocks = header.blocks ++ [blockno] := by
  have index := (absorbIndex_eq_n_iff header blockno).mpr fresh
  simp only [recordBlock, LogHeader.blocks, index, if_true, List.range_succ, List.map_append,
    List.map_cons, List.map_nil, update_self]
  congr 1
  apply List.map_congr_left
  intro i mem
  have below : i < header.n := List.mem_range.mp mem
  rw [update_of_ne (Nat.ne_of_lt below)]

theorem blocks_recordBlock_of_mem (recorded : blockno ∈ header.blocks) :
    (recordBlock header blockno).blocks = header.blocks := by
  have index : absorbIndex header blockno ≠ header.n := fun equal =>
    (absorbIndex_eq_n_iff header blockno).mp equal recorded
  have slot : header.block (absorbIndex header blockno) = blockno := by
    unfold absorbIndex at index ⊢
    cases found : (List.range header.n).find? fun i => header.block i == blockno with
    | none => simp [found] at index
    | some i => simpa using List.find?_some found
  have same : update header.block (absorbIndex header blockno) blockno = header.block := by
    rw [update_eq_self_iff]
    exact slot.symm
  simp only [recordBlock, LogHeader.blocks, index, if_false, same]

@[simp] theorem LogHeader.length_blocks (header : LogHeader) :
    header.blocks.length = header.n := by
  simp [LogHeader.blocks]

end Xv6.Log
