import Xv6.Disk.Writing

/-!
# Files as arrays of bytes

A file without holes is an array of bytes: `readi` returns a range of it, and `writei`
replaces a range of it and may append to it, if the transaction has room in the log. A
`writei` that stops early has put more into the blocks than it reports when the copy of
a piece has failed in the middle.
-/

namespace Xv6.Disk

open Xv6.Semantics

variable {sb : Superblock} {image changed source : Bytes} {store store' : Store}
  {addrs : Nat → Nat} {mapped : Nat → Bool} {ip ip' : Inode} {src off n : Nat}

/-! ## The block of the inode -/

/-- The blocks of a file, and the bitmap, are as they were. -/
structure Keeps (sb : Superblock) (image changed : Bytes) (addrs : Nat → Nat) : Prop where
  pointer_eq : ∀ ref, pointer changed addrs ref = pointer image addrs ref
  isFree_eq : ∀ b < sb.size, isFree sb changed b = isFree sb image b
  fileByte_eq : ∀ pos, fileByte changed addrs pos = fileByte image addrs pos

theorem Placed.keeps_front (placed : Placed sb image addrs) (front : b < sb.bmapstart)
    (data : Bytes) : Keeps sb image (Disk.bwrite image b data) addrs := by
  have different : ∀ ref, pointer image addrs ref ≠ 0 → pointer image addrs ref ≠ b := by
    intro ref points
    have data : sb.bmapstart ≤ dataStart sb := (Nat.le_add_right _ _).trans (Nat.le_succ _)
    have := (placed.inRange ref points).1
    omega
  have same : ∀ ref, pointer (Disk.bwrite image b data) addrs ref = pointer image addrs ref :=
    fun ref => pointer_congr rfl fun made => bwrite_other (different none made)
  constructor
  case pointer_eq => exact same
  case isFree_eq =>
    intro c _
    apply isFree_congr
    exact bwrite_other (front.trans_le (Nat.le_add_left _ _)).ne'
  case fileByte_eq =>
    intro pos
    rw [fileByte, fileByte, same]
    split
    · rfl
    · rename_i points
      exact bwrite_other (different _ points) _ (Nat.mod_lt _ (by decide))

theorem Keeps.placed (keeps : Keeps sb image changed addrs) (placed : Placed sb image addrs) :
    Placed sb changed addrs where
  words := placed.words
  inRange := by
    intro ref points
    rw [keeps.pointer_eq] at points ⊢
    exact placed.inRange ref points
  taken := by
    intro ref points
    rw [keeps.pointer_eq] at points ⊢
    rw [keeps.isFree_eq _ (placed.inRange ref points).2]
    exact placed.taken ref points
  distinct := by
    intro ref other points same
    rw [keeps.pointer_eq] at points
    rw [keeps.pointer_eq, keeps.pointer_eq] at same
    exact placed.distinct ref other points same
  free := by
    intro b small isFreeB
    rw [keeps.isFree_eq b small] at isFreeB
    exact placed.free b small isFreeB

/-! ## `writei` -/

/-- The inode at the end of `writei`. -/
def Written.inode (written : Written) (ip : Inode) : Inode :=
  { ip with addrs := written.addrs, size := max ip.size written.off }

theorem Written.size_eq (written : Written) (ip : Inode) :
    (if written.off > ip.size then written.off else ip.size) = max ip.size written.off := by
  split <;> omega

/-- The ranges that `writei` accepts. -/
def Accepts (ip : Inode) (off n : Nat) : Prop := off ≤ ip.size ∧ off + n ≤ maxfile * bsize

theorem writei_of_not_accepts (offWord : off < 2 ^ 32) (nWord : n < 2 ^ 32)
    (refused : ¬ Accepts ip off n) :
    writei sb mapped source store ip src off n = some (store, ip, -1) := by
  have cases : (off > ip.size ∨ (off + n) % 2 ^ 32 < off) ∨
      ¬ (off > ip.size ∨ (off + n) % 2 ^ 32 < off) ∧ (off + n) % 2 ^ 32 > maxfile * bsize := by
    rw [Accepts] at refused
    omega
  rw [writei]
  rcases cases with first | ⟨notFirst, second⟩
  · rw [if_pos first]
  · rw [if_neg notFirst, if_pos second]

theorem writei_of_accepts (accepts : Accepts ip off n) :
    writei sb mapped source store ip src off n =
      (writeLoop sb mapped source n (n + 1) store ip.addrs 0 off src).bind fun written =>
        (iupdate sb written.store (written.inode ip)).map fun store =>
          (store, written.inode ip, asInt written.tot) := by
  have largest : maxfile * bsize < 2 ^ 31 := by decide
  obtain ⟨low, high⟩ := accepts
  have small : (off + n) % 2 ^ 32 = off + n := Nat.mod_eq_of_lt (by omega)
  rw [writei, small, if_neg (by omega), if_neg (by omega)]
  simp only [Written.size_eq, Written.inode]

/-- What `writei` leaves behind when it has accepted the range and returned. -/
theorem writei_wrote (placed : Placed sb store.image ip.addrs)
    (front : iblock ip.inum sb < sb.bmapstart) (accepts : Accepts ip off n)
    (ran : writei sb mapped source store ip src off n = some (store', ip', result)) :
    ∃ written k, Wrote sb mapped source n store.image ip.addrs 0 off src written k ∧
      ip' = written.inode ip ∧ result = written.tot ∧
      Keeps sb written.store.image store'.image written.addrs := by
  have largest : maxfile * bsize < 2 ^ 31 := by decide
  rw [writei_of_accepts accepts] at ran
  obtain ⟨written, looped, rest⟩ := Option.bind_eq_some_iff.mp ran
  obtain ⟨updated, logged, same⟩ := Option.map_eq_some_iff.mp rest
  cases same
  obtain ⟨k, wrote⟩ := writeLoop_wrote placed (Nat.zero_le n) looped
  have := wrote.progress.2.1
  have := accepts.2
  refine ⟨written, k, wrote, rfl, asInt_of_lt (by omega), ?_⟩
  unfold iupdate logWrite at logged
  split at logged
  · cases logged
  · cases logged
    exact wrote.placed.keeps_front front _

/-- The number of blocks of the bitmap. -/
def nbitmap (sb : Superblock) : Nat := sb.size / bpb + 1

/-- The transaction has room in the log for the blocks of a range, the bitmap, the
indirect block and the block of the inode. -/
def RoomFor (sb : Superblock) (log : Log) (off n : Nat) : Prop :=
  1 ≤ log.outstanding ∧
    log.block.length + (blocksOf off n).card + nbitmap sb + 2 < logRoom sb

/-- The blocks that a transaction writes again and again. -/
def recurringBlocks (sb : Superblock) (ip : Inode) : Finset Nat :=
  Finset.Ico sb.bmapstart (sb.bmapstart + nbitmap sb) ∪
    insert (iblock ip.inum sb) (if ip.addrs ndirect = 0 then ∅ else {ip.addrs ndirect})

theorem RoomFor.budget (ip : Inode) (room : RoomFor sb store.log off n) :
    Budget sb (recurringBlocks sb ip) store.log ip.addrs (blocksOf off n).card where
  outstanding := room.1
  bitmaps := by
    intro b small
    have inBitmap : bblock b sb < sb.bmapstart + nbitmap sb := bblock_lt small
    rw [recurringBlocks, Finset.mem_union, Finset.mem_Ico]
    exact .inl ⟨Nat.le_add_left _ _, inBitmap⟩
  indirect := by
    intro made
    rw [recurringBlocks, if_neg made]
    simp
  room := by
    have cost := store.log.cost_le (recurringBlocks sb ip)
    have bitmaps := Finset.card_union_le (Finset.Ico sb.bmapstart (sb.bmapstart + nbitmap sb))
      (insert (iblock ip.inum sb) (if ip.addrs ndirect = 0 then ∅ else {ip.addrs ndirect}))
    have others := Finset.card_insert_le (iblock ip.inum sb)
      (if ip.addrs ndirect = 0 then ∅ else {ip.addrs ndirect})
    rw [Nat.card_Ico, ← recurringBlocks] at bitmaps
    have enough := room.2
    split
    · rename_i unmade
      rw [if_pos unmade, Finset.card_empty] at others
      rw [if_pos unmade] at bitmaps
      omega
    · rename_i made
      rw [if_neg made, Finset.card_singleton] at others
      rw [if_neg made] at bitmaps
      omega

/-- `writei` returns the length of a range that it accepts when the source is mapped
and there is room on the disk and in the log. -/
theorem writei_returns (source : Bytes) (placed : Placed sb store.image ip.addrs)
    (accepts : Accepts ip off n) (isMapped : ∀ i < n, mapped (src + i) = true)
    (enough : Enough sb store.image ip.addrs (neededFor off n)) (room : RoomFor sb store.log off n) :
    ∃ store' ip', writei sb mapped source store ip src off n = some (store', ip', (n : Int)) := by
  have largest : maxfile * bsize < 2 ^ 31 := by decide
  have loop : ∃ written,
      writeLoop sb mapped source n (n + 1) store ip.addrs 0 off src = some written ∧
        written.tot = n ∧ Budget sb (recurringBlocks sb ip) written.store.log written.addrs 0 :=
    writeLoop_returns placed (room.budget ip) enough (fun bn => placesOf_subset_neededFor)
      accepts.2 isMapped (Nat.lt_succ_self n) (Nat.zero_add n)
  obtain ⟨written, looped, all, left⟩ := loop
  have inRange := accepts.2
  rw [writei_of_accepts accepts, looped, Option.bind_some, iupdate, logWrite,
    if_neg left.not_refuses, all, asInt_of_lt (by omega)]
  exact ⟨_, _, rfl⟩

/-! ## Arrays of bytes -/

/-- An inode that has a block for each of its bytes. -/
structure HoleFree (sb : Superblock) (image : Bytes) (ip : Inode) : Prop where
  placed : Placed sb image ip.addrs
  size_le : ip.size ≤ maxfile * bsize
  front : iblock ip.inum sb < sb.bmapstart
  points : ∀ pos < ip.size, pointer image ip.addrs (some (pos / bsize)) ≠ 0

/-- How many bytes `readi` returns. -/
def readable (size off n : Nat) : Nat :=
  if off > size ∨ off + n ≥ 2 ^ 32 then 0 else min (off + n) size - off

/-- `readi` of any range returns the bytes of an array as long as the file. -/
def ReadsAs (sb : Superblock) (store : Store) (ip : Inode) (content : Bytes) : Prop :=
  ∀ mapped memory dst off n, off < 2 ^ 32 → n < 2 ^ 32 →
    (∀ i < readable ip.size off n, mapped (dst + i) = true) →
    readi sb mapped store ip memory dst off n =
      some (⟨store, ip.addrs, copy memory dst (readable ip.size off n) (dropBytes content off)⟩,
        (readable ip.size off n : Int))

theorem HoleFree.readsAs (file : HoleFree sb store.image ip)
    (opened : ip.isVault = true → ip.vaultOpen = true) :
    ReadsAs sb store ip (fileByte store.image ip.addrs) := by
  have largest : maxfile * bsize < 2 ^ 31 := by decide
  have size := file.size_le
  intro mapped memory dst off n offWord nWord isMapped
  by_cases small : off + n < 2 ^ 32
  · have count : readable ip.size off n = min n (ip.size - off) := by
      rw [readable]
      split <;> omega
    have backed : Backed store.image ip.addrs (fileByte store.image ip.addrs) off
        (min (off + n) ip.size) := by
      intro pos low high
      have points := file.points pos (by omega)
      exact ⟨points, (if_neg points).symm⟩
    rw [count] at isMapped ⊢
    rw [readi_eq opened backed isMapped small, asInt_of_lt (by omega)]
  have none : readable ip.size off n = 0 := if_pos (.inr (by omega))
  have notClosed : (ip.isVault && !ip.vaultOpen) = false := by
    cases isVault : ip.isVault with
    | false => rfl
    | true => rw [opened isVault]; rfl
  rw [none, copy_zero, readi, notClosed, if_neg Bool.false_ne_true, if_pos (.inr (by omega))]
  rfl

/-- A disk of 100 blocks with one block of inodes. -/
def smallDisk : Superblock := ⟨fsmagic, 100, 66, 16, 30, 2, 32, 33⟩

/-- The bitmap marks the first 64 blocks, and block 46 is the indirect block of the file. -/
def smallImage : Bytes := fun address =>
  if address / bsize = 33 ∧ address % bsize < 8 then 255
  else if address / bsize = 46 ∧ address % bsize < 4 * 17 ∧ address % 4 = 0 then
    UInt8.ofNat (47 + address % bsize / 4)
  else 0

/-- The blocks 34 to 63, with the indirect block among them. -/
def longFile : Inode where
  inum := 2
  valid := true
  isVault := false
  vaultOpen := false
  type := tFile
  major := 0
  minor := 0
  nlink := 1
  size := 29 * bsize
  addrs := fun i => 34 + i

theorem pointer_longFile (bn : Nat) : pointer smallImage longFile.addrs (some bn) =
    if bn < 12 then 34 + bn else if bn < 29 then 35 + bn else 0 := by
  have table : ∀ bn < maxfile, pointer smallImage longFile.addrs (some bn) =
      if bn < 12 then 34 + bn else if bn < 29 then 35 + bn else 0 := by decide +kernel
  by_cases small : bn < maxfile
  · exact table bn small
  · have : 29 ≤ maxfile := by decide
    rw [pointer_large (Nat.not_lt.mp small), if_neg (by omega), if_neg (by omega)]

theorem isFree_smallImage : ∀ b < 100, isFree smallDisk smallImage b = decide (64 ≤ b) := by
  decide +kernel

theorem longFile_placed : Placed smallDisk smallImage longFile.addrs := by
  have indirect : pointer smallImage longFile.addrs none = 46 := rfl
  have inRange : ∀ ref, pointer smallImage longFile.addrs ref ≠ 0 →
      34 ≤ pointer smallImage longFile.addrs ref ∧ pointer smallImage longFile.addrs ref < 64 := by
    intro ref points
    cases ref with
    | none => decide
    | some bn =>
      rw [pointer_longFile] at points ⊢
      grind
  constructor
  case words => decide
  case inRange =>
    intro ref points
    have := inRange ref points
    have start : dataStart smallDisk = 34 := rfl
    have size : smallDisk.size = 100 := rfl
    omega
  case taken =>
    intro ref points
    have := inRange ref points
    rw [isFree_smallImage _ (by omega)]
    exact decide_eq_false (by omega)
  case distinct =>
    intro ref other points same
    cases ref with
    | none =>
      cases other with
      | none => rfl
      | some bn =>
        rw [indirect, pointer_longFile] at same
        grind
    | some bn =>
      cases other with
      | none =>
        rw [indirect, pointer_longFile] at same
        grind
      | some k =>
        rw [pointer_longFile] at points
        rw [pointer_longFile, pointer_longFile] at same
        grind
  case free =>
    intro b small free
    have start : dataStart smallDisk = 34 := rfl
    rw [isFree_smallImage b small, decide_eq_true_eq] at free
    omega

theorem longFile_holeFree : HoleFree smallDisk smallImage longFile where
  placed := longFile_placed
  size_le := by decide
  front := by decide
  points := by
    intro pos inside
    have : pos / bsize < 29 := Nat.div_lt_of_lt_mul (Nat.mul_comm 29 bsize ▸ inside)
    rw [pointer_longFile]
    grind

theorem longFile_enough (inside : off + n ≤ 29 * bsize) :
    Enough smallDisk smallImage longFile.addrs (neededFor off n) := by
  apply enough_of_points
  intro pos _ high
  apply longFile_holeFree.points
  change pos < 29 * bsize
  omega

end Xv6.Disk
