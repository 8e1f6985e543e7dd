import Mathlib.Data.List.FinRange
import Xv6.Param

/-!
# Inodes

The on-disk inode of `fs.h`, the inode table of `fs.c`, and the functions that act on
the table under `itable.lock`. An entry counts the references to it; every reference
is that of an open file, of a current directory, of the vault or of a call in
progress, so `ref` is far from the bounds of an `int`.
-/

namespace Xv6.Fs

/-- `NDIRECT`. -/
def ndirect : Nat := 12

/-- The values of `type`, `free` for 0. -/
inductive FileType where
  | free
  | dir
  | file
  | device
  deriving DecidableEq, Repr

/-- `struct dinode`. -/
structure Dinode where
  type : FileType
  major : BitVec 16
  minor : BitVec 16
  nlink : BitVec 16
  size : Nat
  addrs : Fin (ndirect + 1) → Nat

/-- The `dinode` of `memset(dip, 0, sizeof(*dip)); dip->type = type`. -/
def Dinode.fresh (type : FileType) : Dinode where
  type := type
  major := 0
  minor := 0
  nlink := 0
  size := 0
  addrs := fun _ => 0

/-- A process. -/
abbrev Proc := Fin nproc

/-- An entry of `itable.inode`. -/
abbrev Slot := Fin ninode

/-- `struct inode`. `lock` is the process that holds the sleep-lock, and `copy` the
part of the entry that is a copy of the disk inode. -/
structure Inode where
  dev : Nat
  inum : Nat
  ref : Int
  lock : Option Proc
  valid : Bool
  isVault : Bool
  vaultId : Nat
  vaultOpen : Bool
  copy : Dinode

/-- `itable`. -/
abbrev Itable := Slot → Inode

/-- The entry is for this inode, and in use. -/
def Inode.Serves (inode : Inode) (dev inum : Nat) : Prop :=
  0 < inode.ref ∧ inode.dev = dev ∧ inode.inum = inum

instance (inode : Inode) (dev inum : Nat) : Decidable (inode.Serves dev inum) :=
  inferInstanceAs (Decidable (_ ∧ _))

namespace Itable

/-- The entry of an inode that is in the table. -/
def active (table : Itable) (dev inum : Nat) : Option Slot :=
  (List.finRange ninode).find? fun s => (table s).Serves dev inum

/-- The first empty entry. -/
def empty (table : Itable) : Option Slot :=
  (List.finRange ninode).find? fun s => (table s).ref = 0

/-- `iget`: one pass looks for the inode and remembers the first empty entry. The
result is `none` where it panics. -/
def iget (table : Itable) (dev inum : Nat) : Option (Slot × Itable) :=
  match table.active dev inum with
  | some s => some (s, Function.update table s { table s with ref := (table s).ref + 1 })
  | none =>
    match table.empty with
    | some s =>
      some (s, Function.update table s
        { table s with dev := dev, inum := inum, ref := 1, valid := false })
    | none => none

variable {table : Itable} {dev inum : Nat} {s : Slot}

theorem serves_of_active (found : table.active dev inum = some s) : (table s).Serves dev inum := by
  simpa using List.find?_some found

theorem not_serves_of_not_active (notFound : table.active dev inum = none) (s : Slot) :
    ¬(table s).Serves dev inum := by
  simpa using List.find?_eq_none.mp notFound s (List.mem_finRange s)

theorem ref_of_empty (found : table.empty = some s) : (table s).ref = 0 := by
  simpa using List.find?_some found

theorem active_eq (serves : (table s).Serves dev inum)
    (single : ∀ c, (table c).Serves dev inum → c = s) : table.active dev inum = some s := by
  cases found : table.active dev inum with
  | none => exact absurd serves (not_serves_of_not_active found s)
  | some c => rw [single c (serves_of_active found)]

end Itable
end Xv6.Fs
