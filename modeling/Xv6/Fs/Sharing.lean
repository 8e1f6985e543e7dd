import Xv6.Fs.Inode
import Xv6.Semantics.Execution

/-!
# The inode table, step by step

`iget`, `idup`, `ilock`, `iunlock`, `iupdate`, `ialloc` and `iput` of several
processes. What is done under `itable.lock`, or while a buffer of the disk is held,
is one step; the sleep-lock of an entry is taken and given back in steps of their
own, and the part of `iput` that frees an inode is as many steps as it has
statements, since it runs without `itable.lock`.
-/

namespace Xv6.Fs

open Function Xv6.Semantics

/-- The next statement of `iput` while it frees the inode: `itrunc`, which ends with
an `iupdate`, `type = 0`, `iupdate`, `valid = 0` and `releasesleep`. -/
inductive Stage where
  | truncates
  | updates
  | clears
  | writes
  | invalidates
  | releases
  deriving DecidableEq

/-- Where a process is in the calls on inodes. -/
inductive Task where
  | outside
  /-- `ialloc(dev, type)` looks at this inode. -/
  | allocates (dev : Nat) (type : FileType) (inum : Nat)
  /-- `iget(dev, inum)`. -/
  | gets (dev inum : Nat)
  /-- `ilock` waits for the sleep-lock. -/
  | sleeps (s : Slot)
  /-- `ilock` has the sleep-lock. -/
  | loads (s : Slot)
  /-- `iput` frees the inode. -/
  | frees (stage : Stage) (s : Slot)
  /-- `iput` has freed the inode. -/
  | drops (s : Slot)
  /-- `ilock` has panicked: the inode that it has loaded has no type. -/
  | noType (s : Slot)
  | panicked
  deriving DecidableEq

/-- The inode table with the disk and the processes. -/
structure Inodes where
  table : Itable
  disk : Nat → Nat → Dinode
  /-- `sb.ninodes`. -/
  ninodes : Nat
  task : Proc → Task
  /-- A process has panicked while it held `itable.lock`. -/
  stuck : Bool

namespace Inodes

def setInode (state : Inodes) (s : Slot) (inode : Inode) : Inodes :=
  { state with table := update state.table s inode }

def setTask (state : Inodes) (p : Proc) (task : Task) : Inodes :=
  { state with task := update state.task p task }

def setDisk (state : Inodes) (dev inum : Nat) (dinode : Dinode) : Inodes :=
  { state with disk := fun d i => if d = dev ∧ i = inum then dinode else state.disk d i }

/-- `iupdate`. -/
def iupdate (state : Inodes) (s : Slot) : Inodes :=
  state.setDisk (state.table s).dev (state.table s).inum (state.table s).copy

end Inodes

/-- What the callers of the functions do: they enter them, and they change the fields of
an entry that they have locked. The other steps go on with a call. -/
inductive Call where
  | ialloc (p : Proc) (dev : Nat) (type : FileType)
  | scan (p : Proc)
  | iget (p : Proc) (dev inum : Nat)
  | get (p : Proc)
  | idup (p : Proc) (s : Slot)
  | ilock (p : Proc) (s : Slot)
  | acquiresleep (p : Proc)
  | load (p : Proc)
  | iunlock (p : Proc) (s : Slot)
  | change (p : Proc) (s : Slot) (copy : Dinode)
  | iupdate (p : Proc) (s : Slot)
  | iput (p : Proc) (s : Slot)
  | free (p : Proc)
  | drop (p : Proc)

/-- A statement of `iput` while it frees the inode. -/
def freeStep (state : Inodes) (p : Proc) (s : Slot) : Stage → Inodes
  | .truncates =>
    let copy := { (state.table s).copy with size := 0, addrs := fun _ => 0 }
    (state.setInode s { state.table s with copy := copy }).setTask p (.frees .updates s)
  | .updates => (state.iupdate s).setTask p (.frees .clears s)
  | .clears =>
    let copy := { (state.table s).copy with type := .free }
    (state.setInode s { state.table s with copy := copy }).setTask p (.frees .writes s)
  | .writes => (state.iupdate s).setTask p (.frees .invalidates s)
  | .invalidates =>
    (state.setInode s { state.table s with valid := false }).setTask p (.frees .releases s)
  | .releases => (state.setInode s { state.table s with lock := none }).setTask p (.drops s)

/-- `ip->ref--` under `itable.lock`. -/
def dropRef (state : Inodes) (p : Proc) (s : Slot) : Inodes :=
  (state.setInode s { state.table s with ref := (state.table s).ref - 1 }).setTask p .outside

/-- One step. The result is `none` where the process has to wait, or is elsewhere. -/
def inodeStep (state : Inodes) : Call → Option Inodes
  | .ialloc p dev type =>
    if state.task p ≠ .outside then none else some (state.setTask p (.allocates dev type 1))
  | .scan p =>
    match state.task p with
    | .allocates dev type inum =>
      if inum < state.ninodes then
        if (state.disk dev inum).type = .free then
          some ((state.setDisk dev inum (.fresh type)).setTask p (.gets dev inum))
        else some (state.setTask p (.allocates dev type (inum + 1)))
      else some (state.setTask p .outside)
    | _ => none
  | .iget p dev inum =>
    if state.task p ≠ .outside then none else some (state.setTask p (.gets dev inum))
  | .get p =>
    match state.task p with
    | .gets dev inum =>
      if state.stuck then none
      else match state.table.iget dev inum with
      | some (_, table) => some { state.setTask p .outside with table := table }
      | none => some { state.setTask p .panicked with stuck := true }
    | _ => none
  | .idup p s =>
    if state.stuck ∨ state.task p ≠ .outside then none
    else some (state.setInode s { state.table s with ref := (state.table s).ref + 1 })
  | .ilock p s =>
    if state.task p ≠ .outside then none
    else if (state.table s).ref < 1 then some (state.setTask p .panicked)
    else some (state.setTask p (.sleeps s))
  | .acquiresleep p =>
    match state.task p with
    | .sleeps s =>
      if (state.table s).lock = none then
        some ((state.setInode s { state.table s with lock := some p }).setTask p (.loads s))
      else none
    | _ => none
  | .load p =>
    match state.task p with
    | .loads s =>
      let inode := state.table s
      if inode.valid then some (state.setTask p .outside)
      else
        let dinode := state.disk inode.dev inode.inum
        let loaded := state.setInode s { inode with copy := dinode, valid := true }
        some (loaded.setTask p (if dinode.type = .free then .noType s else .outside))
    | _ => none
  | .iunlock p s =>
    if state.task p ≠ .outside then none
    else if (state.table s).lock ≠ some p ∨ (state.table s).ref < 1 then
      some (state.setTask p .panicked)
    else some (state.setInode s { state.table s with lock := none })
  | .change p s copy =>
    if state.task p ≠ .outside then none
    else some (state.setInode s { state.table s with copy := copy })
  | .iupdate p s => if state.task p ≠ .outside then none else some (state.iupdate s)
  | .iput p s =>
    if state.stuck ∨ state.task p ≠ .outside then none
    else if (state.table s).ref = 1 ∧ (state.table s).valid ∧ (state.table s).copy.nlink = 0 then
      -- It would sleep with `itable.lock` held, and `sched` panics.
      if (state.table s).lock ≠ none then some { state.setTask p .panicked with stuck := true }
      else
        some ((state.setInode s { state.table s with lock := some p }).setTask p
          (.frees .truncates s))
    else some (dropRef state p s)
  | .free p =>
    match state.task p with
    | .frees stage s => some (freeStep state p s stage)
    | _ => none
  | .drop p =>
    match state.task p with
    | .drops s => if state.stuck then none else some (dropRef state p s)
    | _ => none

/-- Zeroed memory on any disk. -/
def Inodes.Initial (state : Inodes) : Prop :=
  (∀ s, (state.table s).ref = 0 ∧ (state.table s).lock = none ∧ (state.table s).valid = false) ∧
    (∀ p, state.task p = .outside) ∧ state.stuck = false

/-- The references of the processes, and the entries that have been changed since they
were loaded or written by `iupdate`. -/
structure Possession where
  holds : Proc → Slot → Nat
  changed : Slot → Bool

namespace Possession

def setHolds (record : Possession) (p : Proc) (s : Slot) (count : Nat) : Possession :=
  { record with holds := update record.holds p (update (record.holds p) s count) }

def setChanged (record : Possession) (s : Slot) (changed : Bool) : Possession :=
  { record with changed := update record.changed s changed }

end Possession

/-- The record after a step. -/
def possess (state : Inodes) (record : Possession) : Call → Possession
  | .get p =>
    match state.task p with
    | .gets dev inum =>
      match state.table.iget dev inum with
      | some (s, _) => record.setHolds p s (record.holds p s + 1)
      | none => record
    | _ => record
  | .idup p s => record.setHolds p s (record.holds p s + 1)
  | .load p =>
    match state.task p with
    | .loads s => if (state.table s).valid then record else record.setChanged s false
    | _ => record
  | .change _ s _ => record.setChanged s true
  | .iupdate _ s => record.setChanged s false
  | .iput p s =>
    if (state.table s).ref = 1 ∧ (state.table s).valid ∧ (state.table s).copy.nlink = 0 then record
    else record.setHolds p s (record.holds p s - 1)
  | .free p =>
    match state.task p with
    | .frees .truncates s => record.setChanged s true
    | .frees .clears s => record.setChanged s true
    | .frees .updates s => record.setChanged s false
    | .frees .writes s => record.setChanged s false
    | _ => record
  | .drop p =>
    match state.task p with
    | .drops s => record.setHolds p s (record.holds p s - 1)
    | _ => record
  | _ => record

/-- The inode table with the record of its callers. -/
abbrev Shared := Inodes × Possession

def sharedStep (state : Shared) (call : Call) : Option Shared :=
  (inodeStep state.1 call).map fun next => (next, possess state.1 state.2 call)

def Shared.Initial (state : Shared) : Prop :=
  state.1.Initial ∧ (∀ p s, state.2.holds p s = 0) ∧ ∀ s, state.2.changed s = false

/-- The inode table. -/
def itable : TransitionSystem Shared Call := .ofStep Shared.Initial sharedStep

/-- The callers use an entry as long as they have a reference to it, and keep one as
long as they have locked it. They change and write entries that they have locked, and
leave the type to `ialloc` and `iput`. -/
def Careful (state : Shared) : Call → Prop
  | .ialloc _ _ type => type ≠ .free
  | .idup p s => 0 < state.2.holds p s
  | .ilock p s => 0 < state.2.holds p s
  | .change p s copy =>
    (state.1.table s).lock = some p ∧ copy.type = (state.1.table s).copy.type
  | .iupdate p s => (state.1.table s).lock = some p
  | .iput p s =>
    0 < state.2.holds p s ∧ ((state.1.table s).lock = some p → 1 < state.2.holds p s)
  | _ => True

instance (state : Shared) (call : Call) : Decidable (Careful state call) := by
  cases call <;> unfold Careful <;> infer_instance

end Xv6.Fs
