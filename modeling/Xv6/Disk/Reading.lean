import Mathlib.Algebra.Order.Ring.Nat
import Mathlib.Data.List.TakeWhile
import Mathlib.Logic.Function.Basic
import Xv6.Disk.Format
import Xv6.Param

/-!
# Reading files in the kernel

The functions of `fs.c` that find the bytes of a file, down to `readi`. A block of
the image stands for what `bread` returns, so a block that has been written is seen
at once; the log knows which blocks the transaction has written. A computation
without a result is one that ends in `panic`.
-/

namespace Xv6.Disk

open Xv6.Semantics

/-! ## Blocks -/

/-- `bread`: the data of a block. -/
def bread (image : Bytes) (blockno : Nat) : Bytes := dropBytes image (blockno * bsize)

/-- The image when a buffer has other data. -/
def bwrite (image : Bytes) (blockno : Nat) (data : Bytes) : Bytes :=
  copy image (blockno * bsize) bsize data

/-- `log.outstanding`, and `log.lh.block` up to `log.lh.n`. -/
structure Log where
  outstanding : Nat
  block : List Nat

/-- The blocks and the log. -/
structure Store where
  image : Bytes
  log : Log

/-- `log_write` has reached its panics: the transaction is too big, or there is none. -/
def Log.Refuses (sb : Superblock) (log : Log) : Prop :=
  log.block.length ≥ logSize ∨ log.block.length ≥ sb.nlog - 1 ∨ log.outstanding < 1

instance (sb : Superblock) (log : Log) : Decidable (log.Refuses sb) :=
  inferInstanceAs (Decidable (_ ∨ _))

/-- The log with a block, which is absorbed if it is there. -/
def Log.add (log : Log) (blockno : Nat) : Log :=
  if blockno ∈ log.block then log else { log with block := log.block ++ [blockno] }

/-- `log_write` of a buffer that has been given other data. -/
def logWrite (sb : Superblock) (store : Store) (blockno : Nat) (data : Bytes) : Option Store :=
  if store.log.Refuses sb then none
  else some ⟨bwrite store.image blockno data, store.log.add blockno⟩

/-- `readsb`. -/
def readsb (image : Bytes) : Superblock :=
  let data := bread image 1
  { magic := entry data 0
    size := entry data 1
    nblocks := entry data 2
    ninodes := entry data 3
    nlog := entry data 4
    logstart := entry data 5
    inodestart := entry data 6
    bmapstart := entry data 7 }

/-- `fsinit`, up to the recovery of the log. -/
def fsinit (image : Bytes) : Option Superblock :=
  if (readsb image).magic = fsmagic then some (readsb image) else none

/-- The bit of a block in its byte of the bitmap. -/
def bitmask (b : Nat) : UInt8 := UInt8.ofNat (2 ^ (b % bpb % 8))

/-- The bit of a block in the bitmap is clear. -/
def isFree (sb : Superblock) (image : Bytes) (b : Nat) : Bool :=
  bread image (bblock b sb) (b % bpb / 8) &&& bitmask b = 0

/-- `bzero`. -/
def bzero (sb : Superblock) (store : Store) (bno : Nat) : Option Store :=
  logWrite sb store bno fun _ => 0

/-- The bitmap block of a block, with its bit set. -/
def marked (sb : Superblock) (image : Bytes) (b : Nat) : Bytes :=
  let data := bread image (bblock b sb)
  Function.update data (b % bpb / 8) (data (b % bpb / 8) ||| bitmask b)

/-- `balloc`: the first free block, marked and zeroed, or 0. The two loops run over
the blocks in order. -/
def balloc (sb : Superblock) (store : Store) : Option (Store × Nat) :=
  match (List.range sb.size).find? (isFree sb store.image) with
  | none => some (store, 0)
  | some b => do
    let store ← logWrite sb store (bblock b sb) (marked sb store.image b)
    let store ← bzero sb store b
    return (store, b)

/-! ## Inodes -/

/-- The fields of `struct inode` that reading and writing use. -/
structure Inode where
  inum : Nat
  valid : Bool
  isVault : Bool
  vaultOpen : Bool
  type : Nat
  major : Nat
  minor : Nat
  nlink : Nat
  size : Nat
  addrs : Nat → Nat

/-- The entry of the table as `iget` recycles it for an inode. -/
def iget (entry : Inode) (inum : Nat) : Inode := { entry with inum := inum, valid := false }

/-- `ilock`: the inode is read from the disk if necessary. -/
def ilock (sb : Superblock) (image : Bytes) (ip : Inode) : Option Inode :=
  if ip.valid then some ip
  else
    let dip := dropBytes (bread image (iblock ip.inum sb)) (dinodeSize * (ip.inum % ipb))
    if dinodeType dip = 0 then none
    else some { ip with
      valid := true
      type := dinodeType dip
      major := dinodeMajor dip
      minor := dinodeMinor dip
      nlink := nlink dip
      size := fileSize dip
      addrs := addr dip }

/-- An address of the inode, which is allocated when there is none. -/
def addrOrBalloc (sb : Superblock) (store : Store) (addrs : Nat → Nat) (i : Nat) :
    Option (Store × (Nat → Nat) × Nat) :=
  if addrs i = 0 then
    (balloc sb store).map fun (store, addr) =>
      (store, if addr = 0 then addrs else Function.update addrs i addr, addr)
  else some (store, addrs, addrs i)

/-- A word of the indirect block, which is allocated when it is 0. -/
def entryOrBalloc (sb : Superblock) (store : Store) (indirect bn : Nat) : Option (Store × Nat) :=
  let a := bread store.image indirect
  if entry a bn = 0 then
    (balloc sb store).bind fun (store, addr) =>
      if addr = 0 then some (store, 0)
      else (logWrite sb store indirect (setEntry a bn addr)).map fun store => (store, addr)
  else some (store, entry a bn)

/-- The blocks of `bmap` behind the direct ones. -/
def bmapIndirect (sb : Superblock) (store : Store) (addrs : Nat → Nat) (bn : Nat) :
    Option (Store × (Nat → Nat) × Nat) :=
  (addrOrBalloc sb store addrs ndirect).bind fun (store, addrs, indirect) =>
    if indirect = 0 then some (store, addrs, 0)
    else (entryOrBalloc sb store indirect bn).map fun (store, addr) => (store, addrs, addr)

/-- `bmap`: the block with the index `bn`, 0 if there is no room for it. -/
def bmap (sb : Superblock) (store : Store) (addrs : Nat → Nat) (bn : Nat) :
    Option (Store × (Nat → Nat) × Nat) :=
  if bn < ndirect then addrOrBalloc sb store addrs bn
  else if bn - ndirect < nindirect then bmapIndirect sb store addrs (bn - ndirect)
  else none

/-! ## `readi` -/

/-- `either_copyout`: page by page up to the first address that is not mapped. At
kernel addresses nothing is missing. -/
def eitherCopyout (mapped : Nat → Bool) (memory : Bytes) (dst : Nat) (src : Bytes) (len : Nat) :
    Bytes × Bool :=
  let copied := ((List.range len).takeWhile fun i => mapped (dst + i)).length
  (copy memory dst copied src, copied = len)

/-- What `readi` changes: the blocks and the addresses, when `bmap` allocates, and the
memory of the destination. -/
structure Transfer where
  store : Store
  addrs : Nat → Nat
  memory : Bytes

/-- A `uint` that is returned as an `int`. -/
def asInt (value : Nat) : Int := (BitVec.ofNat 32 value).toInt

/-- The loop of `readi`. -/
def readLoop (sb : Superblock) (mapped : Nat → Bool) (n : Nat) :
    (fuel : Nat) → Transfer → (tot off dst : Nat) → Option (Transfer × Int)
  | 0, _, _, _, _ => none
  | fuel + 1, state, tot, off, dst =>
    if tot < n then do
      let (store, addrs, addr) ← bmap sb state.store state.addrs (off / bsize)
      let m := min (n - tot) (bsize - off % bsize)
      let (memory, copied) := eitherCopyout mapped state.memory dst
        (dropBytes (bread store.image addr) (off % bsize)) m
      if addr = 0 then some (⟨store, addrs, state.memory⟩, asInt tot)
      else if copied then
        readLoop sb mapped n fuel ⟨store, addrs, memory⟩ (tot + m) (off + m) (dst + m)
      else some (⟨store, addrs, memory⟩, -1)
    else some (state, asInt tot)

/-- `readi`, with `off` and `n` below `2 ^ 32`. A round of its loop reads at least one
byte. -/
def readi (sb : Superblock) (mapped : Nat → Bool) (store : Store) (ip : Inode) (memory : Bytes)
    (dst off n : Nat) : Option (Transfer × Int) :=
  let state : Transfer := ⟨store, ip.addrs, memory⟩
  if ip.isVault && !ip.vaultOpen then some (state, -1)
  else if off > ip.size ∨ (off + n) % 2 ^ 32 < off then some (state, 0)
  else
    let n := if off + n > ip.size then ip.size - off else n
    readLoop sb mapped n (n + 1) state 0 off dst

/-! ## What is read -/

variable {sb : Superblock} {store : Store} {memory content : Bytes} {addrs : Nat → Nat} {mapped : Nat → Bool}
  {bn n tot off dst len left fuel : Nat}

theorem asInt_of_lt (small : n < 2 ^ 31) : asInt n = n := by
  have same : (BitVec.ofNat 32 n).toNat = n := by
    exact Nat.mod_eq_of_lt (by omega)
  rw [asInt, BitVec.toInt_eq_toNat_of_lt (by rw [same]; omega), same]

theorem addrOrBalloc_of_ne (made : addrs i ≠ 0) :
    addrOrBalloc sb store addrs i = some (store, addrs, addrs i) := if_neg made

theorem bmap_of_ne (points : pointer store.image addrs (some bn) ≠ 0) :
    bmap sb store addrs bn = some (store, addrs, pointer store.image addrs (some bn)) := by
  by_cases direct : bn < ndirect
  · rw [pointer, if_pos direct] at points ⊢
    rw [bmap, if_pos direct, addrOrBalloc_of_ne points]
  rw [pointer, if_neg direct] at points ⊢
  by_cases made : bn < maxfile ∧ addrs ndirect ≠ 0
  · have small : bn - ndirect < nindirect := by
      have := made.1
      rw [maxfile] at this
      omega
    rw [if_pos made] at points ⊢
    have found : entryOrBalloc sb store (addrs ndirect) (bn - ndirect) =
      some (store, entry (bread store.image (addrs ndirect)) (bn - ndirect)) := if_neg points
    simp only [bmap, if_neg direct, if_pos small, bmapIndirect, addrOrBalloc_of_ne made.2,
      Option.bind_some, if_neg made.2, found]
    rfl
  · rw [if_neg made] at points
    exact absurd rfl points

theorem eitherCopyout_of_mapped (isMapped : ∀ i < len, mapped (dst + i) = true) (src : Bytes) :
    eitherCopyout mapped memory dst src len = (copy memory dst len src, true) := by
  have all : ((List.range len).takeWhile fun i => mapped (dst + i)).length = len := by
    rw [List.takeWhile_eq_self_iff.mpr fun i mem => isMapped i (List.mem_range.mp mem),
      List.length_range]
  rw [eitherCopyout, all, decide_eq_true rfl]

/-- A file has the bytes of `content` in its blocks, between two offsets. -/
def Backed (image : Bytes) (addrs : Nat → Nat) (content : Bytes) (low high : Nat) : Prop :=
  ∀ pos, low ≤ pos → pos < high →
    pointer image addrs (some (pos / bsize)) ≠ 0 ∧
      image (pointer image addrs (some (pos / bsize)) * bsize + pos % bsize) = content pos

theorem readLoop_eq (backed : Backed store.image addrs content off (off + left))
    (isMapped : ∀ i < left, mapped (dst + i) = true) (enough : left < fuel)
    (total : tot + left = n) :
    readLoop sb mapped n fuel ⟨store, addrs, memory⟩ tot off dst =
      some (⟨store, addrs, copy memory dst left (dropBytes content off)⟩, asInt n) := by
  induction fuel generalizing memory tot off dst left with
  | zero => exact absurd enough (Nat.not_lt_zero _)
  | succ fuel ih =>
    rw [readLoop]
    by_cases more : tot < n
    · obtain ⟨m, m_eq⟩ : ∃ m, m = min (n - tot) (bsize - off % bsize) := ⟨_, rfl⟩
      have inBlock : off % bsize < bsize := Nat.mod_lt _ (by decide)
      have here : off = off / bsize * bsize + off % bsize := (Nat.div_add_mod' off bsize).symm
      have part : m ≤ left ∧ 0 < m ∧ off % bsize + m ≤ bsize := by omega
      obtain ⟨points, -⟩ := backed off le_rfl (by omega)
      have block : copy memory dst m (dropBytes (bread store.image
          (pointer store.image addrs (some (off / bsize)))) (off % bsize)) =
            copy memory dst m (dropBytes content off) := by
        apply copy_congr
        intro offset inside
        have sameBlock : (off + offset) / bsize = off / bsize := by
          rw [Nat.div_eq_iff (by decide)]
          omega
        have offsetInBlock : (off + offset) % bsize = off % bsize + offset := by
          have := Nat.div_add_mod' (off + offset) bsize
          rw [sameBlock] at this
          omega
        have byte := (backed (off + offset) (by omega) (by omega)).2
        rw [sameBlock, offsetInBlock] at byte
        rw [bread, dropBytes_dropBytes, dropBytes, dropBytes, Nat.add_assoc, byte]
      have restBacked : Backed store.image addrs content (off + m) (off + m + (left - m)) :=
        fun pos low high => backed pos (by omega) (by omega)
      have restMapped : ∀ i < left - m, mapped (dst + m + i) = true := by
        intro i inside
        rw [Nat.add_assoc]
        exact isMapped (m + i) (by omega)
      rw [if_pos more, bmap_of_ne points]
      simp only [Option.bind_eq_bind, Option.bind_some, ← m_eq, if_neg points,
        eitherCopyout_of_mapped fun i inside => isMapped i (Nat.lt_of_lt_of_le inside part.1),
        block, if_true]
      rw [ih restBacked restMapped (by omega) (by omega),
        ← dropBytes_dropBytes, copy_copy, Nat.add_sub_cancel' part.1]
    · have done : left = 0 := by omega
      rw [if_neg more, done, copy_zero, show tot = n by omega]

/-- `readi` copies the bytes between the offset and the end of the file. -/
theorem readi_eq (opened : ip.isVault = true → ip.vaultOpen = true)
    (backed : Backed store.image ip.addrs content off (min (off + n) ip.size))
    (isMapped : ∀ i < min n (ip.size - off), mapped (dst + i) = true) (small : off + n < 2 ^ 32) :
    readi sb mapped store ip memory dst off n =
      some (⟨store, ip.addrs, copy memory dst (min n (ip.size - off)) (dropBytes content off)⟩,
        asInt (min n (ip.size - off))) := by
  have notClosed : (ip.isVault && !ip.vaultOpen) = false := by
    cases isVault : ip.isVault with
    | false => rfl
    | true => rw [opened isVault]; rfl
  rw [readi, notClosed]
  by_cases behind : off > ip.size
  · rw [if_neg Bool.false_ne_true, if_pos (.inl behind), Nat.sub_eq_zero_of_le behind.le,
      Nat.min_zero, copy_zero]
    rfl
  have clamp : (if off + n > ip.size then ip.size - off else n) = min n (ip.size - off) := by
    split <;> omega
  rw [if_neg Bool.false_ne_true, Nat.mod_eq_of_lt small, if_neg (by omega)]
  simp only [clamp]
  apply readLoop_eq
  · exact fun pos low high => backed pos low (by omega)
  · exact isMapped
  · exact Nat.lt_succ_self _
  · exact Nat.zero_add _

end Xv6.Disk
