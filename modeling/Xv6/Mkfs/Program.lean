import Mathlib.Logic.Function.Basic
import Xv6.Disk.Format
import Xv6.Param

/-!
# `mkfs`

The program builds an image of `FSSIZE` blocks. Its state is the image and the two
counters from which inodes and blocks are handed out. A computation without a
result is one that ends in `die` or at a failed assertion; a sector behind the end
of the image cannot be read, and every sector that is written has been read before
or lies in front of the data blocks.

The host stores words like the kernel does, the least significant byte first, so
`xint` and `xshort` change nothing.
-/

namespace Xv6.Mkfs

open Xv6.Semantics Xv6.Disk

/-- `NINODES`. -/
def ninodes : Nat := 200

/-- `nbitmap`. -/
def nbitmap : Nat := fssize / (bsize * 8) + 1

/-- `ninodeblocks`. -/
def ninodeblocks : Nat := ninodes / ipb + 1

/-- `nmeta`. -/
def nmeta : Nat := 2 + logSize + ninodeblocks + nbitmap

/-- `sb`. -/
def sb : Superblock where
  magic := fsmagic
  size := fssize
  nblocks := fssize - nmeta
  ninodes := ninodes
  nlog := logSize
  logstart := 2
  inodestart := 2 + logSize
  bmapstart := 2 + logSize + ninodeblocks

/-- The image file and the static counters. -/
structure State where
  image : Bytes
  freeinode : Nat
  freeblock : Nat

/-- A condition that ends the program when it does not hold. -/
def check (condition : Bool) : Option Unit := if condition then some () else none

/-- `rsect`. -/
def rsect (image : Bytes) (sec : Nat) : Option Bytes :=
  if sec < fssize then some (dropBytes image (sec * bsize)) else none

/-- `wsect`. -/
def wsect (image : Bytes) (sec : Nat) (buf : Bytes) : Bytes := copy image (sec * bsize) bsize buf

/-- `winode`. -/
def winode (state : State) (inum : Nat) (din : Bytes) : Option State := do
  let bn := iblock inum sb
  let buf ← rsect state.image bn
  return { state with
    image := wsect state.image bn (copy buf (dinodeSize * (inum % ipb)) dinodeSize din) }

/-- `rinode`. -/
def rinode (state : State) (inum : Nat) : Option Bytes := do
  let buf ← rsect state.image (iblock inum sb)
  return dropBytes buf (dinodeSize * (inum % ipb))

/-- `ialloc`. -/
def ialloc (state : State) (type : Nat) : Option (State × Nat) := do
  let inum := state.freeinode
  let din := setSize (setNlink (setType (fun _ => 0) type) 1) 0
  let state ← winode { state with freeinode := inum + 1 } inum din
  return (state, inum)

/-- A block number from the counter. -/
def nextBlock (state : State) : State := { state with freeblock := state.freeblock + 1 }

/-- The part of the loop of `iappend` that finds or makes a direct block. -/
def directBlock (state : State) (din : Bytes) (fbn : Nat) : State × Bytes × Nat :=
  let (state, din) :=
    if addr din fbn = 0 then (nextBlock state, setAddr din fbn state.freeblock) else (state, din)
  (state, din, addr din fbn)

/-- The indirect block, which is made when it is missing. -/
def makeIndirect (state : State) (din : Bytes) : State × Bytes :=
  if addr din ndirect = 0 then (nextBlock state, setAddr din ndirect state.freeblock)
  else (state, din)

/-- The block that the indirect block names, or a new one. -/
def entryBlock (state : State) (din : Bytes) (fbn : Nat) : Option (State × Bytes × Nat) := do
  let indirect ← rsect state.image (addr din ndirect)
  if entry indirect (fbn - ndirect) = 0 then
    let indirect := setEntry indirect (fbn - ndirect) state.freeblock
    let image := wsect state.image (addr din ndirect) indirect
    return ({ nextBlock state with image := image }, din, entry indirect (fbn - ndirect))
  else return (state, din, entry indirect (fbn - ndirect))

/-- The part that finds or makes a block behind the direct ones. -/
def indirectBlock (state : State) (din : Bytes) (fbn : Nat) : Option (State × Bytes × Nat) :=
  let (state, din) := makeIndirect state din
  entryBlock state din fbn

/-- The block for an index of the file. -/
def blockAt (state : State) (din : Bytes) (fbn : Nat) : Option (State × Bytes × Nat) :=
  if fbn < ndirect then some (directBlock state din fbn) else indirectBlock state din fbn

/-- One round of the loop of `iappend`: how much it has copied. -/
def appendRound (state : State) (din : Bytes) (off : Nat) (p : List UInt8) :
    Option (State × Bytes × Nat) := do
  let fbn := off / bsize
  check (fbn < maxfile)
  let (state, din, x) ← blockAt state din fbn
  let n1 := min p.length ((fbn + 1) * bsize - off)
  let buf ← rsect state.image x
  let image := wsect state.image x (copy buf (off - fbn * bsize) n1 (ofList p))
  return ({ state with image := image }, din, n1)

/-- The loop of `iappend`; every round copies at least one byte. -/
def appendLoop : (fuel : Nat) → State → Bytes → (off : Nat) → List UInt8 →
    Option (State × Bytes × Nat)
  | _, state, din, off, [] => some (state, din, off)
  | 0, _, _, _, _ :: _ => none
  | fuel + 1, state, din, off, byte :: rest => do
    let (state, din, n1) ← appendRound state din off (byte :: rest)
    appendLoop fuel state din (off + n1) ((byte :: rest).drop n1)

/-- `iappend`. -/
def iappend (state : State) (inum : Nat) (p : List UInt8) : Option State := do
  let din ← rinode state inum
  let (state, din, off) ← appendLoop p.length state din (fileSize din) p
  winode state inum (setSize din off)

/-- The bit of a block in the bitmap that `balloc` builds, byte by byte. -/
def bitmap (used : Nat) : Bytes :=
  (List.range used).foldl (fun buf i =>
    Function.update buf (i / 8) (buf (i / 8) ||| UInt8.ofNat (2 ^ (i % 8)))) fun _ => 0

/-- `balloc`. -/
def balloc (state : State) (used : Nat) : Option State := do
  check (used < bsize * 8)
  return { state with image := wsect state.image sb.bmapstart (bitmap used) }

/-- An argument of the program: the name and, if the file can be opened, what the
calls of `read` return one after the other. -/
structure File where
  argument : List UInt8
  terminated : ∀ c ∈ argument, c ≠ 0
  chunks : Option (List (List UInt8))

/-- The name without a leading `user/`. -/
def withoutUser (argument : List UInt8) : List UInt8 :=
  let user : List UInt8 := [117, 115, 101, 114, 47]
  if user.isPrefixOf argument then argument.drop 5 else argument

/-- `shortname` as it is written to the directory. -/
def File.shortname (file : File) : List UInt8 :=
  let shortname := withoutUser file.argument
  if shortname.head? = some 95 then shortname.drop 1 else shortname

/-- The bytes of a directory entry. -/
def direntBytes (inum : Nat) (name : List UInt8) : List UInt8 :=
  (List.range direntSize).map (dirent inum name)

/-- The chunks of one file. -/
def appendAll (state : State) (inum : Nat) (chunks : List (List UInt8)) : Option State :=
  chunks.foldlM (fun state chunk => iappend state inum chunk) state

/-- One round of the loop of `main` over its arguments. -/
def addFile (state : State) (file : File) : Option State := do
  check (!(withoutUser file.argument).contains 47)
  let chunks ← file.chunks
  let (state, inum) ← ialloc state tFile
  let state ← iappend state rootino (direntBytes inum file.shortname)
  appendAll state inum chunks

/-- The zeroed image with its superblock. -/
def blank : State where
  image := wsect (fun _ => 0) 1 (copy (fun _ => 0) 0 superblockSize sb.bytes)
  freeinode := 1
  freeblock := nmeta

/-- The root directory with its first two entries. -/
def makeRoot : Option State := do
  let (state, root) ← ialloc blank tDir
  check (root = rootino)
  let state ← iappend state root (direntBytes root [46])
  iappend state root (direntBytes root [46, 46])

/-- The end of `main`: the size of the root directory and the bitmap. -/
def finish (state : State) : Option State := do
  let din ← rinode state rootino
  let off := (fileSize din / bsize + 1) * bsize
  let state ← winode state rootino (setSize din off)
  balloc state state.freeblock

/-- `main`, from its arguments to the finished image. -/
def main (files : List File) : Option State := do
  let state ← makeRoot
  let state ← files.foldlM addFile state
  finish state

end Xv6.Mkfs
