import Mathlib.Algebra.Order.Ring.Int

/-!
# Kernel constants

The bounds of `param.h` that the modelled code reads.
-/

namespace Xv6

/-- `NPROC`: maximum number of processes. -/
def nproc : Nat := 64

theorem zero_lt_nproc : 0 < nproc := by decide

theorem one_lt_nproc : 1 < nproc := by decide

theorem two_lt_nproc : 2 < nproc := by decide

/-- `NINODE`: maximum number of active inodes. -/
def ninode : Nat := 50

/-- `MAXOPBLOCKS`: maximum number of blocks any file-system operation writes. -/
def maxOpBlocks : Nat := 10

/-- `NBUF`: size of the disk block cache. -/
def nbuf : Nat := maxOpBlocks * 3

/-- `LOGSIZE`: maximum number of data blocks in the on-disk log. -/
def logSize : Nat := maxOpBlocks * 3

/-- `FSSIZE`: size of the file system in blocks. -/
def fssize : Nat := 2000

instance : NeZero ninode := ⟨by decide⟩

instance : NeZero nbuf := ⟨by decide⟩

end Xv6
