import Mathlib.Data.List.FinRange
import Xv6.Disk.Writing

/-!
# The vault system calls

`sys_mkvault`, `sys_openvault` and `sys_closevault` work on two globals: `mkv`, whose
`inode` is the entry of the inode table that the last `mkvault` has marked, and `st`,
the one `struct stat` that all vaults share. `namei` is not part of the model; the calls
get what it has found. A computation without a result is one that ends in `panic`, or in
a fault when `mkv` has not been allocated yet.
-/

namespace Xv6.Vault

open Xv6.Semantics Xv6.Disk

/-- An entry of `itable.inode`. -/
abbrev Slot := Fin ninode

/-- `struct inode`. -/
structure Entry extends Disk.Inode where
  dev : Nat
  ref : Nat
  vaultId : Nat

/-- `struct stat`. -/
structure Stat where
  dev : Nat
  ino : Nat
  type : Nat
  nlink : Nat
  size : Nat
  isVault : Bool
  vaultId : Nat
  vaultOpen : Bool

/-- The words of a page as `kalloc` fills it. -/
def junk : Nat := 0x05050505

/-- `struct stat` in a page that `kalloc` has filled with junk. -/
def Stat.junk : Stat where
  dev := Vault.junk
  ino := Vault.junk
  type := Vault.junk % 2 ^ 16
  nlink := Vault.junk % 2 ^ 16
  size := Vault.junk * 2 ^ 32 + Vault.junk
  isVault := true
  vaultId := Vault.junk
  vaultOpen := true

/-- The state that the calls work on. -/
structure Kernel where
  store : Store
  table : Slot → Entry
  /-- `mkv->inode`, if `mkv` is not null. -/
  mkv : Option Slot
  /-- `*st`, if `st` is not null; `mkv->st` is `st` when there is an `mkv`. -/
  st : Option Stat
  /-- The number of free pages. -/
  pages : Nat

namespace Kernel

def setEntry (kernel : Kernel) (s : Slot) (entry : Entry) : Kernel :=
  { kernel with table := Function.update kernel.table s entry }

/-- `kalloc`, whose failure is answered by a panic. -/
def kalloc (kernel : Kernel) : Option Kernel :=
  if kernel.pages = 0 then none else some { kernel with pages := kernel.pages - 1 }

/-- `if (mkv == 0) mkv = kalloc()`. -/
def allocMkv (kernel : Kernel) : Option Kernel :=
  if kernel.mkv = none then kernel.kalloc else some kernel

/-- `if (st == 0) st = kalloc()`. -/
def allocSt (kernel : Kernel) : Option (Kernel × Stat) :=
  match kernel.st with
  | some st => some (kernel, st)
  | none => kernel.kalloc.map fun kernel => (kernel, Stat.junk)

end Kernel

/-! ## The functions below the calls -/

/-- `stati`. -/
def stati (entry : Entry) (st : Stat) : Stat :=
  { st with
    dev := entry.dev
    ino := entry.inum
    type := entry.type
    nlink := entry.nlink
    size := entry.size
    isVault := entry.isVault
    vaultId := entry.vaultId }

/-- The loop of `isdirempty`. -/
def emptyLoop (sb : Superblock) : (fuel : Nat) → Store → Disk.Inode → (off : Nat) →
    Option (Store × Disk.Inode × Int)
  | 0, _, _, _ => none
  | fuel + 1, store, dp, off =>
    if off < dp.size then
      (readi sb (fun _ => true) store dp (fun _ => 0) 0 off direntSize).bind
        fun (transfer, count) =>
          let dp := { dp with addrs := transfer.addrs }
          if count ≠ direntSize then none
          else if direntInum transfer.memory ≠ 0 then some (transfer.store, dp, 0)
          else emptyLoop sb fuel transfer.store dp (off + direntSize)
    else some (store, dp, 1)

/-- `isdirempty`. -/
def isdirempty (sb : Superblock) (store : Store) (dp : Disk.Inode) :
    Option (Store × Disk.Inode × Int) :=
  emptyLoop sb (dp.size + 1) store dp (2 * direntSize)

/-- `begin_op`, when it does not have to wait. -/
def beginOp (store : Store) : Store :=
  { store with log := { store.log with outstanding := store.log.outstanding + 1 } }

/-- `end_op`: the last operation commits. -/
def endOp (store : Store) : Store :=
  { store with log :=
    { outstanding := store.log.outstanding - 1
      block := if store.log.outstanding - 1 = 0 then [] else store.log.block } }

/-- `iget`: the result is `none` where it panics. -/
def iget (table : Slot → Entry) (dev inum : Nat) : Option (Slot × (Slot → Entry)) :=
  match (List.finRange ninode).find? fun s =>
      0 < (table s).ref ∧ (table s).dev = dev ∧ (table s).inum = inum with
  | some s => some (s, Function.update table s { table s with ref := (table s).ref + 1 })
  | none =>
    ((List.finRange ninode).find? fun s => (table s).ref = 0).map fun s =>
      (s, Function.update table s
        { table s with dev := dev, inum := inum, ref := 1, valid := false })

/-- `ialloc`: the first free inode, with a type. The callers panic when there is none. -/
def ialloc (sb : Superblock) (kernel : Kernel) (dev type : Nat) : Option (Kernel × Slot) :=
  ((List.range sb.ninodes).find? fun inum =>
    1 ≤ inum ∧ dinodeType (inodeAt sb kernel.store.image inum) = 0).bind fun inum =>
      let block := iblock inum sb
      (logWrite sb kernel.store block (copy (bread kernel.store.image block)
        (dinodeSize * (inum % ipb)) dinodeSize (setType (fun _ => 0) type))).bind fun store =>
          (iget kernel.table dev inum).map fun (s, table) =>
            ({ kernel with store := store, table := table }, s)

/-! ## The calls -/

/-- `ROOTDEV`. -/
def rootdev : Nat := 1

/-- `mkvault`. -/
def mkvault (sb : Superblock) (kernel : Kernel) : Option (Kernel × Int) :=
  kernel.mkv.bind fun s =>
    (isdirempty sb kernel.store (kernel.table s).toInode).bind fun (store, dp, empty) =>
      let kernel := { kernel.setEntry s { kernel.table s with toInode := dp } with store := store }
      if empty = -1 then some (kernel, -1)
      else
        kernel.allocSt.map fun (kernel, st) =>
          let entry := { kernel.table s with isVault := true, vaultId := (kernel.table s).inum }
          let st := stati entry { st with isVault := true, vaultId := entry.inum }
          ({ kernel.setEntry s entry with st := some st }, 0)

/-- What `argstr` and `namei` make of the argument of a call. -/
inductive Lookup where
  /-- The string cannot be copied from the user. -/
  | unreadable
  /-- There is no such path. -/
  | missing
  /-- `namei` has returned this entry. -/
  | found (s : Slot)

/-- `sys_mkvault`. -/
def sysMkvault (sb : Superblock) (kernel : Kernel) : Lookup → Option (Kernel × Int)
  | .unreadable => some (kernel, -1)
  | .missing =>
    kernel.allocMkv.bind fun kernel =>
      (ialloc sb { kernel with store := beginOp kernel.store } rootdev tDir).bind
        fun (kernel, s) =>
          mkvault sb { kernel with store := endOp kernel.store, mkv := some s }
  | .found s =>
    kernel.allocMkv.bind fun kernel =>
      kernel.allocSt.bind fun (kernel, st) =>
        mkvault sb { kernel with mkv := some s, st := some (stati (kernel.table s) st) }

/-- `openvault`, or `closevault` for `false`: they differ in the value they test for and
set. Neither looks at its path. -/
def setVaultOpen (sb : Superblock) (kernel : Kernel) (value : Bool) : Option (Kernel × Int) :=
  kernel.mkv.bind fun s =>
    kernel.st.bind fun st =>
      if st.isVault ∧ st.vaultOpen ≠ value then
        (iupdate sb kernel.store (kernel.table s).toInode).map fun store =>
          ({ kernel with store := store, st := some { st with vaultOpen := value } }, 0)
      else some (kernel, -1)

/-- `openvault`. -/
def openvault (sb : Superblock) (kernel : Kernel) : Option (Kernel × Int) :=
  setVaultOpen sb kernel true

/-- `closevault`. -/
def closevault (sb : Superblock) (kernel : Kernel) : Option (Kernel × Int) :=
  setVaultOpen sb kernel false

/-- `sys_openvault`; `argstr` may fail. -/
def sysOpenvault (sb : Superblock) (kernel : Kernel) (readable : Bool) : Option (Kernel × Int) :=
  if readable then openvault sb kernel else some (kernel, -1)

/-- `sys_closevault`; `argstr` may fail. -/
def sysClosevault (sb : Superblock) (kernel : Kernel) (readable : Bool) : Option (Kernel × Int) :=
  if readable then closevault sb kernel else some (kernel, -1)

end Xv6.Vault
