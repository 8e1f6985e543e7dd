import Mathlib.Algebra.BigOperators.Group.Finset.Basic
import Xv6.Mkfs.Layout
import Xv6.Semantics.Outcome

/-!
# `iappend`

`iappend` works on a copy of an inode and writes it back at its end. A round of its
loop finds or makes the block at the end of the file and copies bytes into it.
-/

namespace Xv6.Mkfs

open Function Xv6.Semantics Xv6.Disk

/-- The inodes that fit in the inode blocks. -/
def inodeCapacity : Nat := ninodeblocks * ipb

/-- The data blocks of a file of some length. -/
def blocksFor (length : Nat) : Nat := (length + (bsize - 1)) / bsize

/-- The blocks of a file of some length, with its indirect block. -/
def need (length : Nat) : Nat := blocksFor length + if ndirect * bsize < length then 1 else 0

/-- A file that has the blocks it needs. -/
def tight (content : List UInt8) : FileMap where
  blocks := blocksFor content.length
  indirect := decide (ndirect * bsize < content.length)
  content := content

/-- The block addresses of the inodes, with a copy for one of them. -/
def rows (image : Bytes) (inum : Nat) (din : Bytes) (other i : Nat) : Nat :=
  if other = inum then addr din i else addr (inodeAt sb image other) i

/-- The block addresses of the inodes on the disk. -/
def diskRows (image : Bytes) (inum i : Nat) : Nat := addr (inodeAt sb image inum) i

/-! ## Sectors and inodes -/

theorem wsect_copy (fits : offset + n ≤ bsize) :
    wsect image sec (copy (dropBytes image (sec * bsize)) offset n source) =
      copy image (sec * bsize + offset) n source := by
  funext a
  by_cases inSector : sec * bsize ≤ a ∧ a < sec * bsize + bsize
  · rw [wsect, copy_inside inSector.1 inSector.2]
    by_cases written : sec * bsize + offset ≤ a ∧ a < sec * bsize + offset + n
    · rw [copy_inside (by omega) (by omega), copy_inside written.1 written.2, Nat.sub_sub]
    · rw [copy_outside (by omega), copy_outside (by omega), dropBytes,
        Nat.add_sub_cancel' inSector.1]
  · rw [wsect, copy_outside (by omega), copy_outside (by omega)]

/-- The address of an inode in the image. -/
def inodeAddress (inum : Nat) : Nat := sb.inodestart * bsize + dinodeSize * inum

theorem iblock_mul (inum : Nat) :
    iblock inum sb * bsize + dinodeSize * (inum % ipb) = inodeAddress inum := by
  simp only [iblock, inodeAddress, sb, bsize, dinodeSize, ipb, logSize, maxOpBlocks]
  omega

theorem inodeAt_eq (image : Bytes) (inum : Nat) :
    inodeAt sb image inum = dropBytes image (inodeAddress inum) := by
  rw [inodeAt, iblock_mul]

section

variable (small : inum < inodeCapacity)
include small

theorem iblock_lt : iblock inum sb < fssize := by
  simp only [inodeCapacity, ninodeblocks, ninodes, iblock, sb, bsize, dinodeSize, ipb, logSize,
    maxOpBlocks, fssize] at small ⊢
  omega

theorem winode_eq : winode state inum din =
      some { state with image := copy state.image (inodeAddress inum) dinodeSize din } := by
  have fits : dinodeSize * (inum % ipb) + dinodeSize ≤ bsize := by
    simp only [dinodeSize, ipb, bsize]
    omega
  simp only [winode, rsect, if_pos (iblock_lt small), Option.bind_eq_bind, Option.bind_some,
    wsect_copy fits, iblock_mul]
  rfl

theorem rinode_eq : rinode state inum = some (inodeAt sb state.image inum) := by
  simp only [rinode, rsect, if_pos (iblock_lt small), Option.bind_eq_bind, Option.bind_some]
  refine congrArg some (funext fun i => ?_)
  simp only [dropBytes, inodeAt, Nat.add_assoc]

theorem inodeAddress_lt (inside : offset < dinodeSize) :
    inodeAddress inum + offset < sb.bmapstart * bsize := by
  simp only [inodeCapacity, ninodeblocks, ninodes, inodeAddress, sb, bsize, dinodeSize, ipb,
    logSize, maxOpBlocks] at small inside ⊢
  omega

theorem word_inodeAt_congr (inside : offset + width ≤ dinodeSize)
    (same : ∀ a < sb.bmapstart * bsize, changed a = image a) :
    word width (inodeAt sb changed inum) offset = word width (inodeAt sb image inum) offset := by
  rw [inodeAt_eq, inodeAt_eq]
  apply word_congr
  intro k kSmall
  exact same _ (inodeAddress_lt small (by omega))

end

theorem addr_inside (small : i ≤ ndirect) : 12 + 4 * i + 4 ≤ dinodeSize := by
  simp only [ndirect, dinodeSize] at small ⊢
  omega

theorem word_inodeAt_copy (inside : offset + width ≤ dinodeSize) :
    word width (inodeAt sb (copy image (inodeAddress inum) dinodeSize din) other) offset =
      if other = inum then word width din offset
      else word width (inodeAt sb image other) offset := by
  rw [inodeAt_eq, inodeAt_eq, ← word_dropBytes, ← word_dropBytes]
  obtain rfl | same := eq_or_ne other inum
  · rw [if_pos rfl, word_copy_inside (by omega) (by omega), Nat.add_sub_cancel_left]
  · rw [if_neg same, word_copy_outside]
    simp only [inodeAddress, dinodeSize] at inside ⊢
    omega

/-! ## A round of the loop -/

/-- `iappend` is at work on a copy of an inode. -/
structure Appending (state : State) (din : Bytes) (inum : Nat) (contents : Nat → List UInt8) :
    Prop where
  laid : Laid state.image state.freeblock state.freeinode (rows state.image inum din)
    fun i => tight (contents i)
  inside : inum < state.freeinode
  capacity : state.freeinode ≤ inodeCapacity
  bounded : state.freeblock ≤ fssize

/-- The file while a round has found its block and not yet copied. -/
def midRound (content : List UInt8) (fbn : Nat) : FileMap where
  blocks := fbn + 1
  indirect := decide (ndirect ≤ fbn)
  content := content

/-- The block at the end of the file has been found or made. -/
structure Located (before after : State) (din : Bytes) (inum : Nat)
    (contents : Nat → List UInt8) (fbn x : Nat) : Prop where
  laid : Laid after.image after.freeblock after.freeinode (rows after.image inum din)
    (update (fun i => tight (contents i)) inum (midRound (contents inum) fbn))
  block : x = pointers after.image (rows after.image inum din) (inum, some fbn)
  freeinode : after.freeinode = before.freeinode
  kept : ∀ a < nmeta * bsize, after.image a = before.image a
  count : after.freeblock + need (contents inum).length =
    before.freeblock + need ((contents inum).length + 1)
  newest : after.freeblock = before.freeblock ∨ after.freeblock = x + 1

section Round

variable {state : State} {din : Bytes} {inum off fbn : Nat} {contents : Nat → List UInt8}
  {p : List UInt8}

theorem blocksFor_of_mod (mod : length % bsize = 0) :
    blocksFor length = length / bsize := by
  simp only [blocksFor, bsize] at mod ⊢
  omega

theorem blocksFor_of_mod_ne (mod : length % bsize ≠ 0) :
    blocksFor length = length / bsize + 1 := by
  simp only [blocksFor, bsize] at mod ⊢
  omega

theorem blocksFor_succ (length : Nat) : blocksFor (length + 1) = length / bsize + 1 := by
  simp only [blocksFor, bsize]
  omega

theorem need_direct (direct : length / bsize < ndirect) :
    ¬ ndirect * bsize < length ∧ need length = blocksFor length ∧
      need (length + 1) = length / bsize + 1 := by
  have short : ¬ ndirect * bsize < length := by
    simp only [ndirect, bsize] at direct ⊢
    omega
  have shortSucc : ¬ ndirect * bsize < length + 1 := by
    simp only [ndirect, bsize] at direct ⊢
    omega
  rw [need, if_neg short, need, if_neg shortSucc, blocksFor_succ]
  exact ⟨short, rfl, rfl⟩

theorem need_indirect (behind : ndirect ≤ length / bsize) :
    need (length + 1) = length / bsize + 2 := by
  have long : ndirect * bsize < length + 1 := by
    simp only [ndirect, bsize] at behind ⊢
    omega
  rw [need, if_pos long, blocksFor_succ]

theorem need_succ_of_mod_ne (mod : length % bsize ≠ 0) :
    need (length + 1) = need length := by
  have long : ndirect * bsize < length + 1 ↔ ndirect * bsize < length := by
    simp only [ndirect, bsize] at mod ⊢
    omega
  simp only [need, blocksFor_succ, blocksFor_of_mod_ne mod, long]

theorem addr_setAddr (small : value < 2 ^ 32) :
    addr (setAddr din i value) k = if k = i then value else addr din k := by
  by_cases same : k = i
  · rw [if_pos same, same, addr, setAddr, word_setWord_self]
    exact Nat.mod_eq_of_lt small
  · rw [if_neg same, addr, setAddr, word_setWord_other (by omega)]
    rfl

theorem rows_setAddr (image din : Bytes) (inum : Nat) (small : value < 2 ^ 32) :
    rows image inum (setAddr din i value) other k =
      if other = inum ∧ k = i then value else rows image inum din other k := by
  by_cases isInum : other = inum
  · simp only [rows, isInum, if_true, true_and, addr_setAddr small]
  · simp only [rows, isInum, if_false, false_and]

section

variable (appending : Appending state din inum contents)
include appending

/-- A block behind the last one of a file that ends with its last block. -/
theorem addr_eq_zero (direct : fbn < ndirect)
    (empty : (tight (contents inum)).blocks ≤ fbn) : addr din fbn = 0 := by
  by_contra points
  have row : pointers state.image (rows state.image inum din) (inum, some fbn) = addr din fbn := by
    rw [pointers_direct direct, rows, if_pos rfl]
  rw [← row] at points
  exact absurd ((appending.laid.data inum appending.inside fbn).mp points) empty.not_gt

theorem Appending.located (isEnd : fbn = (contents inum).length / bsize) (mod :
    (contents inum).length % bsize ≠ 0) :
    Located state state din inum contents fbn
      (pointers state.image (rows state.image inum din) (inum, some fbn)) := by
  have blocks : blocksFor (contents inum).length = fbn + 1 := by
    rw [isEnd]
    exact blocksFor_of_mod_ne mod
  have long : ndirect * bsize < (contents inum).length ↔ ndirect ≤ fbn := by
    simp only [isEnd, ndirect, bsize] at mod ⊢
    omega
  constructor
  case laid =>
    have same : midRound (contents inum) fbn = tight (contents inum) := by
      simp only [midRound, tight, blocks, long]
    rw [same, update_eq_self inum (fun i => tight (contents i))]
    exact appending.laid
  case block => rfl
  case freeinode => rfl
  case kept => exact fun _ _ => rfl
  case count =>
    rw [need_succ_of_mod_ne mod]
  case newest => exact .inl rfl

theorem directBlock_located (isEnd : fbn = (contents inum).length / bsize) (direct :
    fbn < ndirect) :
    Located state (directBlock state din fbn).1 (directBlock state din fbn).2.1 inum contents fbn
      (directBlock state din fbn).2.2 := by
  have small : state.freeblock < 2 ^ 32 := lt_of_le_of_lt appending.bounded (by decide)
  obtain ⟨short, need_len, need_succ⟩ := need_direct (isEnd ▸ direct)
  have row : ∀ din, pointers state.image (rows state.image inum din) (inum, some fbn) =
      addr din fbn := by
    intro din
    rw [pointers_direct direct, rows, if_pos rfl]
  by_cases mod : (contents inum).length % bsize = 0
  · have blocks : (tight (contents inum)).blocks = fbn := (blocksFor_of_mod mod).trans isEnd.symm
    have empty := addr_eq_zero appending direct blocks.le
    simp only [directBlock, empty, if_true]
    constructor
    case laid =>
      have grown := appending.laid.allocDirect appending.inside direct blocks.symm
        (by rw [rows, if_pos rfl, empty])
        (fun other _ k _ => rows_setAddr state.image din inum small)
      have same : (tight (contents inum)).grow (some fbn) = midRound (contents inum) fbn := by
        simp only [FileMap.grow, midRound, blocks]
        simp only [tight, short, direct.not_ge]
      rw [same] at grown
      exact grown
    case block => exact (row _).symm
    case freeinode => rfl
    case kept => exact fun _ _ => rfl
    case count =>
      rw [need_len, need_succ, blocksFor_of_mod mod, ← isEnd]
      simp only [nextBlock]
      omega
    case newest =>
      right
      rw [addr_setAddr small, if_pos rfl]
      rfl
  have blocks : (tight (contents inum)).blocks = fbn + 1 := by
    rw [isEnd]
    exact blocksFor_of_mod_ne mod
  have points : addr din fbn ≠ 0 := by
    rw [← row]
    exact (appending.laid.data inum appending.inside fbn).mpr (blocks ▸ Nat.lt_succ_self _)
  simp only [directBlock, points, if_false]
  rw [← row]
  exact appending.located isEnd mod

end

theorem entry_eq (behind : ndirect ≤ fbn) (small : fbn < maxfile) (made : addr din ndirect ≠ 0) :
    entry (dropBytes image (addr din ndirect * bsize)) (fbn - ndirect) =
      pointers image (rows image inum din) (inum, some fbn) := by
  have row : rows image inum din inum ndirect = addr din ndirect := if_pos rfl
  rw [pointers_indirect behind small (row ▸ made), row]

theorem rows_congr (small : other < inodeCapacity)
    (inside : i ≤ ndirect) (same : ∀ a < nmeta * bsize, changed a = image a) :
    rows changed inum din other i = rows image inum din other i := by
  by_cases isInum : other = inum
  · simp only [rows, if_pos isInum]
  simp only [rows, if_neg isInum]
  apply word_inodeAt_congr small (addr_inside inside)
  intro a low
  apply same
  have : sb.bmapstart ≤ nmeta := by decide
  exact low.trans_le (Nat.mul_le_mul_right _ this)

theorem entryBlock_located
    (laid : Laid state.image state.freeblock state.freeinode (rows state.image inum din) files)
    (inside : inum < state.freeinode) (capacity : state.freeinode ≤ inodeCapacity)
    (behind : ndirect ≤ fbn) (small : fbn < maxfile) (made : addr din ndirect ≠ 0)
    (last : fbn = (files inum).blocks)
    (grown : update files inum ((files inum).grow (some fbn)) =
      update (fun i => tight (contents i)) inum (midRound (contents inum) fbn))
    (readable : addr din ndirect < fssize) (bounded : state.freeblock < 2 ^ 32)
    (image : state.image = before.image) (freeinode : state.freeinode = before.freeinode)
    (count : state.freeblock + 1 + need (contents inum).length =
      before.freeblock + need ((contents inum).length + 1)) :
    Outcome full (fun result => Located before result.1 result.2.1 inum contents fbn result.2.2)
      (entryBlock state din fbn) := by
  have row : rows state.image inum din inum ndirect = addr din ndirect := if_pos rfl
  have fits : 4 * (fbn - ndirect) + 4 ≤ bsize := by
    simp only [maxfile, nindirect, ndirect, bsize] at small behind ⊢
    omega
  have empty : entry (dropBytes state.image (addr din ndirect * bsize)) (fbn - ndirect) = 0 := by
    rw [entry_eq behind small made]
    by_contra points
    exact absurd ((laid.data inum inside fbn).mp points) last.ge.not_gt
  obtain ⟨changed, changed_eq⟩ : ∃ changed, changed = setWord 4 state.image
    (addr din ndirect * bsize + 4 * (fbn - ndirect)) state.freeblock := ⟨_, rfl⟩
  have written : wsect state.image (addr din ndirect)
      (setEntry (dropBytes state.image (addr din ndirect * bsize)) (fbn - ndirect)
        state.freeblock) = changed := by
    rw [changed_eq]
    exact wsect_copy fits
  have value : entry (setEntry (dropBytes state.image (addr din ndirect * bsize)) (fbn - ndirect)
      state.freeblock) (fbn - ndirect) = state.freeblock := by
    rw [entry, setEntry, word_setWord_self]
    exact Nat.mod_eq_of_lt bounded
  have rowMade : rows state.image inum din inum ndirect ≠ 0 := row.trans_ne made
  have range := laid.lt_freeblock (inum, none) inside rowMade
  rw [pointers_none, row] at range
  have kept : ∀ a < nmeta * bsize, changed a = state.image a := by
    intro a aLow
    rw [changed_eq]
    apply copy_outside
    have := Nat.mul_le_mul_right bsize range.1
    omega
  have entered := laid.allocEntry inside behind small last rowMade bounded
  rw [row, grown, ← changed_eq] at entered
  simp only [entryBlock, rsect, if_pos readable, Option.bind_eq_bind, Option.bind_some, empty,
    if_true, written, value]
  refine .some ?_
  constructor
  case laid =>
    exact entered.congr (fun other otherInside i iSmall =>
      rows_congr (otherInside.trans_le capacity) iSmall kept) fun _ _ => rfl
  case block =>
    rw [← entry_eq behind small made, entry, ← word_dropBytes, changed_eq, word_setWord_self]
    exact (Nat.mod_eq_of_lt bounded).symm
  case freeinode => exact freeinode
  case kept =>
    intro a aLow
    rw [← image]
    exact kept a aLow
  case count => exact count
  case newest => exact .inr rfl

/-- The part behind the direct blocks fails only when no block is left for the
indirect block. -/
theorem indirectBlock_located (appending : Appending state din inum contents)
    (isEnd : fbn = (contents inum).length / bsize) (behind : ndirect ≤ fbn)
    (small : fbn < maxfile) :
    Outcome
      (fssize + need (contents inum).length < state.freeblock + need ((contents inum).length + 1))
      (fun result => Located state result.1 result.2.1 inum contents fbn result.2.2)
      (indirectBlock state din fbn) := by
  have bounded := appending.bounded
  have needSucc := need_indirect (isEnd ▸ behind)
  have row : rows state.image inum din inum ndirect = addr din ndirect := if_pos rfl
  have indirect := appending.laid.indirect inum appending.inside
  rw [pointers_none, row] at indirect
  simp only [tight, decide_eq_true_eq] at indirect
  rw [indirectBlock, makeIndirect]
  by_cases made : addr din ndirect = 0
  · -- the file fills its direct blocks and has no indirect block
    have length : (contents inum).length = ndirect * bsize := by
      have short : ¬ ndirect * bsize < (contents inum).length := fun long => indirect.mpr long made
      simp only [isEnd, ndirect, bsize] at behind short ⊢
      omega
    have blocks : blocksFor (contents inum).length = fbn := by
      rw [isEnd, length]
      rfl
    have needLen : need (contents inum).length = fbn := by
      rw [need, blocks, length, if_neg (lt_irrefl _), Nat.add_zero]
    have small32 : state.freeblock < 2 ^ 32 := lt_of_le_of_lt bounded (by decide)
    have address : addr (setAddr din ndirect state.freeblock) ndirect = state.freeblock := by
      rw [addr_setAddr small32, if_pos rfl]
    have nonzero : state.freeblock ≠ 0 := by
      have := appending.laid.low
      simp only [nmeta] at this
      omega
    rw [if_pos made]
    change Outcome _ _ (entryBlock (nextBlock state) (setAddr din ndirect state.freeblock) fbn)
    by_cases readable : state.freeblock < fssize
    · have grown := appending.laid.allocIndirect appending.inside (row.trans made)
        (fun other _ k _ => rows_setAddr state.image din inum small32)
      have next : state.freeblock + 1 < 2 ^ 32 := lt_of_le_of_lt readable (by decide)
      apply entryBlock_located
      case laid => exact grown
      case inside => exact appending.inside
      case capacity => exact appending.capacity
      case behind => exact behind
      case small => exact small
      case made => exact address.trans_ne nonzero
      case last =>
        rw [update_self]
        exact blocks.symm
      case grown =>
        rw [update_self, update_idem]
        simp only [FileMap.grow, tight, midRound, blocks, behind, decide_true]
      case readable => exact address.trans_lt readable
      case bounded => exact next
      case image => rfl
      case freeinode => rfl
      case count =>
        simp only [nextBlock]
        omega
    · rw [entryBlock, rsect, address, if_neg readable]
      refine .none ?_
      omega
  have range := appending.laid.lt_freeblock (inum, none) appending.inside (row.trans_ne made)
  rw [pointers_none, row] at range
  have readable : addr din ndirect < fssize := range.2.trans_le bounded
  have long := indirect.mp made
  rw [if_neg made]
  change Outcome _ _ (entryBlock state din fbn)
  by_cases mod : (contents inum).length % bsize = 0
  · have blocks : blocksFor (contents inum).length = fbn := (blocksFor_of_mod mod).trans isEnd.symm
    apply entryBlock_located appending.laid appending.inside appending.capacity behind small made
    case last => exact blocks.symm
    case grown =>
      simp only [FileMap.grow, tight, midRound, blocks, behind, long]
    case readable => exact readable
    case bounded => exact lt_of_le_of_lt bounded (by decide)
    case image => rfl
    case freeinode => rfl
    case count =>
      rw [needSucc, ← isEnd, need, if_pos long, blocks]
      omega
  have blocks : (tight (contents inum)).blocks = fbn + 1 := by
    rw [isEnd]
    exact blocksFor_of_mod_ne mod
  have points := (appending.laid.data inum appending.inside fbn).mpr
    (blocks ▸ Nat.lt_succ_self _)
  rw [← entry_eq behind small made] at points
  simp only [entryBlock, rsect, if_pos readable, Option.bind_eq_bind, Option.bind_some, points,
    if_false]
  rw [entry_eq behind small made]
  exact .some (appending.located isEnd mod)

/-- What has been appended to one file, and what it took. -/
structure Appended (before after : State) (din : Bytes) (inum : Nat)
    (contents : Nat → List UInt8) (bytes : List UInt8) : Prop where
  appending : Appending after din inum
    (update contents inum (contents inum ++ bytes))
  freeinode : after.freeinode = before.freeinode
  kept : ∀ a < nmeta * bsize, after.image a = before.image a
  count : after.freeblock + need (contents inum).length =
    before.freeblock + need ((contents inum).length + bytes.length)
  small : (contents inum).length + bytes.length ≤ maxfile * bsize

/-- There is no room for a file of some length in the place of the one there is. -/
def Full (state : State) (inum : Nat) (contents : Nat → List UInt8) (length : Nat) : Prop :=
  maxfile * bsize < length ∨
    fssize + need (contents inum).length < state.freeblock + need length

theorem blockAt_located (appending : Appending state din inum contents)
    (isEnd : fbn = (contents inum).length / bsize) (small : fbn < maxfile) :
    Outcome (Full state inum contents ((contents inum).length + 1))
      (fun result => Located state result.1 result.2.1 inum contents fbn result.2.2)
      (blockAt state din fbn) := by
  rw [blockAt]
  by_cases direct : fbn < ndirect
  · rw [if_pos direct]
    exact .some (directBlock_located appending isEnd direct)
  · rw [if_neg direct]
    exact (indirectBlock_located appending isEnd (Nat.not_lt.mp direct) small).mono .inr
      fun _ located => located

theorem need_in_block (positive : 0 < n) (fits : n ≤ (length / bsize + 1) * bsize - length) :
    need (length + n) = need (length + 1) ∧ blocksFor (length + n) = length / bsize + 1 ∧
      (ndirect * bsize < length + n ↔ ndirect ≤ length / bsize) := by
  have long : ndirect * bsize < length + n ↔ ndirect * bsize < length + 1 := by
    simp only [ndirect, bsize] at fits ⊢
    omega
  have blocks : blocksFor (length + n) = length / bsize + 1 := by
    simp only [blocksFor, bsize] at fits ⊢
    omega
  refine ⟨?_, blocks, ?_⟩
  · simp only [need, blocks, blocksFor_succ, long]
  · simp only [ndirect, bsize] at fits ⊢
    omega

theorem Located.range
    (located : Located state after changed inum contents fbn x) (inside : inum < after.freeinode) :
    nmeta ≤ x ∧ x < after.freeblock := by
  have mine : fbn < (update (fun i => tight (contents i)) inum
      (midRound (contents inum) fbn) inum).blocks := by
    rw [update_self]
    exact Nat.lt_succ_self fbn
  rw [located.block]
  exact located.laid.lt_freeblock (inum, some fbn) inside
    ((located.laid.data inum inside fbn).mpr mine)

theorem Located.append (located : Located state after changed inum contents fbn x)
    (appending : Appending state din inum contents)
    (isEnd : fbn = (contents inum).length / bsize) (small : fbn < maxfile) (readable : x < fssize)
    (positive : 0 < n) (enough : n ≤ p.length)
    (fits : n ≤ (fbn + 1) * bsize - (contents inum).length)
    (copied : image = copy after.image (x * bsize + ((contents inum).length - fbn * bsize)) n
      (ofList p)) :
    Appended state { after with image := image } changed inum contents (p.take n) := by
  have inside : inum < after.freeinode := located.freeinode ▸ appending.inside
  have capacity : after.freeinode ≤ inodeCapacity := located.freeinode ▸ appending.capacity
  have taken : (p.take n).length = n := by
    rw [List.length_take]
    omega
  obtain ⟨needSame, blocks, long⟩ := need_in_block positive (isEnd ▸ fits)
  have length : (contents inum).length = fbn * bsize + ((contents inum).length - fbn * bsize) := by
    simp only [isEnd, bsize]
    omega
  have inBlock : (contents inum).length - fbn * bsize + n ≤ bsize := by
    simp only [isEnd, bsize] at fits ⊢
    omega
  have mid : update (fun i => tight (contents i)) inum (midRound (contents inum) fbn) inum =
      midRound (contents inum) fbn := update_self ..
  have mine : fbn < (update (fun i => tight (contents i)) inum
      (midRound (contents inum) fbn) inum).blocks := by
    rw [mid]
    exact Nat.lt_succ_self fbn
  have range := located.range inside
  have kept : ∀ a < nmeta * bsize, image a = after.image a := by
    intro a low
    rw [copied]
    apply copy_outside
    have := Nat.mul_le_mul_right bsize range.1
    omega
  constructor
  case appending =>
    constructor
    case laid =>
      have appended := located.laid.append inside mine (by rw [mid]; exact length) inBlock enough
      have files : update (fun i => tight (contents i)) inum
          { midRound (contents inum) fbn with content := contents inum ++ p.take n } =
          fun i => tight (update contents inum (contents inum ++ p.take n) i) := by
        funext i
        obtain rfl | isInum := eq_or_ne i inum
        · rw [update_self, update_self]
          simp only [tight, midRound, List.length_append, taken, blocks, long, isEnd]
        · rw [update_of_ne isInum, update_of_ne isInum]
      rw [← located.block, ← copied, mid, update_idem] at appended
      rw [← files]
      exact appended.congr (fun other otherInside i iSmall =>
        rows_congr (otherInside.trans_le capacity) iSmall kept) fun _ _ => rfl
    case inside => exact inside
    case capacity => exact capacity
    case bounded =>
      rcases located.newest with same | newest
      · exact same.le.trans appending.bounded
      · exact newest.le.trans readable
  case freeinode => exact located.freeinode
  case kept => exact fun a low => (kept a low).trans (located.kept a low)
  case count =>
    rw [taken, needSame]
    exact located.count
  case small =>
    have := Nat.mul_le_mul_right bsize (Nat.succ_le_of_lt small)
    simp only [bsize] at fits this ⊢
    omega

theorem appendRound_outcome (appending : Appending state din inum contents) (nonempty : p ≠ []) :
    Outcome (Full state inum contents ((contents inum).length + 1))
      (fun result => 0 < result.2.2 ∧ result.2.2 ≤ p.length ∧
        Appended state result.1 result.2.1 inum contents (p.take result.2.2))
      (appendRound state din (contents inum).length p) := by
  have positive : 0 < p.length := List.length_pos_iff.mpr nonempty
  rw [appendRound]
  by_cases small : (contents inum).length / bsize < maxfile
  · rw [check, if_pos (decide_eq_true small)]
    refine (blockAt_located appending rfl small).bind id ?_
    rintro ⟨after, changed, x⟩ (located : Located state after changed inum contents _ x)
    have fits : min p.length (((contents inum).length / bsize + 1) * bsize -
        (contents inum).length) ≤
          ((contents inum).length / bsize + 1) * bsize - (contents inum).length := min_le_right ..
    have some_byte : 0 < min p.length (((contents inum).length / bsize + 1) * bsize -
        (contents inum).length) := by
      simp only [bsize]
      omega
    have inBlock : (contents inum).length - (contents inum).length / bsize * bsize +
        min p.length (((contents inum).length / bsize + 1) * bsize - (contents inum).length) ≤
          bsize := by
      simp only [bsize] at fits ⊢
      omega
    by_cases readable : x < fssize
    · simp only [rsect, if_pos readable, Option.bind_eq_bind, Option.bind_some]
      refine .some ⟨some_byte, min_le_left .., ?_⟩
      exact located.append appending rfl small readable some_byte (min_le_left ..) fits
        (wsect_copy inBlock)
    simp only [rsect, if_neg readable, Option.bind_eq_bind, Option.bind_none]
    refine .none (.inr ?_)
    have count := located.count
    have range := located.range (located.freeinode ▸ appending.inside)
    omega
  · rw [check, if_neg (by simpa using small)]
    refine .none (.inl ?_)
    simp only [maxfile, nindirect, ndirect, bsize] at small ⊢
    omega

/-! ## What `iappend` leaves alone -/

/-- The counter of inodes, and the front of the copy of the inode. -/
def Frames (before : State) (din : Bytes) (after : State) (changed : Bytes) : Prop :=
  after.freeinode = before.freeinode ∧ ∀ offset < 12, changed offset = din offset

theorem Frames.setAddr (state : State) (din : Bytes) (i value : Nat) :
    Frames state din (nextBlock state) (setAddr din i value) :=
  ⟨rfl, fun _ front => copy_outside (.inl (by omega))⟩

theorem Frames.refl (state : State) (din : Bytes) : Frames state din state din :=
  ⟨rfl, fun _ _ => rfl⟩

theorem Frames.trans
    (one : Frames state din middle first) (other : Frames middle first after second) :
    Frames state din after second :=
  ⟨other.1.trans one.1, fun offset front => (other.2 offset front).trans (one.2 offset front)⟩

theorem rsect_outcome (image : Bytes) (sec : Nat) : Outcome True (fun _ => True)
    (rsect image sec) := by
  rw [rsect]
  split
  · exact .some trivial
  · exact .none trivial

theorem blockAt_frames (state : State) (din : Bytes) (fbn : Nat) :
    Outcome True (fun result => Frames state din result.1 result.2.1) (blockAt state din fbn) := by
  rw [blockAt]
  split
  · refine .some ?_
    by_cases empty : addr din fbn = 0
    · simp only [directBlock, if_pos empty]
      exact .setAddr state din fbn _
    · simp only [directBlock, if_neg empty]
      exact .refl state din
  have made : Frames state din (makeIndirect state din).1 (makeIndirect state din).2 := by
    rw [makeIndirect]
    split
    · exact .setAddr state din ndirect _
    · exact .refl state din
  refine (rsect_outcome _ _).bind id fun indirect _ => ?_
  split
  · exact .some ⟨made.1, made.2⟩
  · exact .some made

theorem appendRound_frames (state : State) (din : Bytes) (off : Nat) (p : List UInt8) :
    Outcome True (fun result => Frames state din result.1 result.2.1)
      (appendRound state din off p) := by
  have checked : Outcome True (fun _ => True) (check (off / bsize < maxfile)) := by
    rw [check]
    split
    · exact .some trivial
    · exact .none trivial
  refine checked.bind id fun _ _ => (blockAt_frames state din _).bind id ?_
  rintro ⟨after, changed, x⟩ frames
  refine (rsect_outcome _ _).bind id fun buf _ => ?_
  exact .some frames

theorem appendLoop_frames (fuel : Nat) (state : State) (din : Bytes) (off : Nat) (p : List UInt8) :
    Outcome True (fun result => Frames state din result.1 result.2.1)
      (appendLoop fuel state din off p) := by
  induction fuel generalizing state din off p with
  | zero =>
    cases p with
    | nil => exact .some (.refl state din)
    | cons => exact .none trivial
  | succ fuel ih =>
    cases p with
    | nil => exact .some (.refl state din)
    | cons byte rest =>
      refine (appendRound_frames state din off (byte :: rest)).bind id ?_
      rintro ⟨middle, changed, n⟩ first
      refine (ih middle changed (off + n) _).mono id ?_
      exact fun result second => first.trans second

end Round

end Xv6.Mkfs
