import Xv6.Semantics.Bytes

/-!
# The on-disk format

`fs.h` is included by the kernel and by `mkfs`. The structures of the disk are the
bytes they are made of, and their fields are words at fixed offsets.
-/

namespace Xv6.Disk

open Xv6.Semantics

/-- `BSIZE`: the bytes of a block. -/
def bsize : Nat := 1024

/-- `NDIRECT`. -/
def ndirect : Nat := 12

/-- `NINDIRECT`. -/
def nindirect : Nat := bsize / 4

/-- `MAXFILE`: the blocks of the largest file. -/
def maxfile : Nat := ndirect + nindirect

/-- `ROOTINO`. -/
def rootino : Nat := 1

/-- `T_DIR`. -/
def tDir : Nat := 1

/-- `T_FILE`. -/
def tFile : Nat := 2

/-- `sizeof(struct dinode)`. -/
def dinodeSize : Nat := 64

/-- `IPB`: inodes per block. -/
def ipb : Nat := bsize / dinodeSize

/-- `BPB`: bitmap bits per block. -/
def bpb : Nat := bsize * 8

/-- `DIRSIZ`. -/
def dirsiz : Nat := 14

/-- `sizeof(struct dirent)`. -/
def direntSize : Nat := 16

/-- `struct superblock`. -/
structure Superblock where
  magic : Nat
  size : Nat
  nblocks : Nat
  ninodes : Nat
  nlog : Nat
  logstart : Nat
  inodestart : Nat
  bmapstart : Nat
  deriving DecidableEq

/-- The bytes of a superblock. -/
def Superblock.bytes (sb : Superblock) : Bytes :=
  let fields := [sb.magic, sb.size, sb.nblocks, sb.ninodes, sb.nlog, sb.logstart, sb.inodestart,
    sb.bmapstart]
  fun offset => wordBytes (fields.getD (offset / 4) 0) (offset % 4)

/-- `sizeof(struct superblock)`. -/
def superblockSize : Nat := 32

/-- `FSMAGIC`. -/
def fsmagic : Nat := 0x10203040

/-- `IBLOCK`: the block of an inode. -/
def iblock (inum : Nat) (sb : Superblock) : Nat := inum / ipb + sb.inodestart

/-- `BBLOCK`: the bitmap block of a block. -/
def bblock (b : Nat) (sb : Superblock) : Nat := b / bpb + sb.bmapstart

/-! ## `struct dinode` -/

/-- `dip->type`. -/
def dinodeType (dinode : Bytes) : Nat := word 2 dinode 0

/-- `dip->major`. -/
def dinodeMajor (dinode : Bytes) : Nat := word 2 dinode 2

/-- `dip->minor`. -/
def dinodeMinor (dinode : Bytes) : Nat := word 2 dinode 4

/-- `dip->nlink`. -/
def nlink (dinode : Bytes) : Nat := word 2 dinode 6

/-- `dip->size`. -/
def fileSize (dinode : Bytes) : Nat := word 4 dinode 8

/-- `dip->addrs[i]`. -/
def addr (dinode : Bytes) (i : Nat) : Nat := word 4 dinode (12 + 4 * i)

def setType (dinode : Bytes) (type : Nat) : Bytes := setWord 2 dinode 0 type

def setNlink (dinode : Bytes) (count : Nat) : Bytes := setWord 2 dinode 6 count

def setSize (dinode : Bytes) (size : Nat) : Bytes := setWord 4 dinode 8 size

def setAddr (dinode : Bytes) (i block : Nat) : Bytes := setWord 4 dinode (12 + 4 * i) block

/-- A word of an array of `uint`. -/
def entry (block : Bytes) (i : Nat) : Nat := word 4 block (4 * i)

def setEntry (block : Bytes) (i value : Nat) : Bytes := setWord 4 block (4 * i) value

/-- Where the block number of an index of a file, or of its indirect block, is found. -/
def pointer (image : Bytes) (addrs : Nat → Nat) : Option Nat → Nat
  | none => addrs ndirect
  | some bn =>
    if bn < ndirect then addrs bn
    else if bn < maxfile ∧ addrs ndirect ≠ 0 then
      entry (dropBytes image (addrs ndirect * bsize)) (bn - ndirect)
    else 0

/-- The inode with a number. -/
def inodeAt (sb : Superblock) (image : Bytes) (inum : Nat) : Bytes :=
  dropBytes image (iblock inum sb * bsize + dinodeSize * (inum % ipb))

/-! ## `struct dirent` -/

/-- `de.inum`. -/
def direntInum (dirent : Bytes) : Nat := word 2 dirent 0

/-- `de.name[i]`. -/
def direntName (dirent : Bytes) (i : Nat) : UInt8 := dirent (2 + i)

/-- Bytes from a list, and zeros behind it. -/
def ofList (list : List UInt8) : Bytes := fun i => list.getD i 0

/-- A `dirent` with an inode number and a name copied by `strncpy`. -/
def dirent (inum : Nat) (name : List UInt8) : Bytes :=
  copy (setWord 2 (fun _ => 0) 0 inum) 2 dirsiz (ofList name)

end Xv6.Disk
