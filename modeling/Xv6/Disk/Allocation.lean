import Mathlib.Data.Finset.Card
import Xv6.Disk.Reading

/-!
# Allocating the blocks of a file

`bmap` gives a file the blocks it does not have yet. What it does to the image is a
few steps that each assign a free block, filled with zeros, to a place that held 0: an
address of the inode or a word of its indirect block. Such a step keeps the blocks of
the file apart and changes no byte of it, since a missing block reads as zeros.
-/

namespace Xv6.Disk

open Function Xv6.Semantics

variable {sb : Superblock} {image changed : Bytes} {addrs addrs' : Nat → Nat} {b c bn : Nat}
  {ref : Option Nat}

/-! ## Blocks -/

/-- A block has the same bytes in two images. -/
def SameBlock (image changed : Bytes) (b : Nat) : Prop :=
  ∀ j < bsize, changed (b * bsize + j) = image (b * bsize + j)

theorem bwrite_self (inside : j < bsize) :
    bwrite image b data (b * bsize + j) = data j := copy_add j inside

theorem bwrite_other (ne : c ≠ b) : SameBlock image (bwrite image b data) c := by
  intro j inside
  apply copy_outside
  simp only [bsize] at inside ⊢
  omega

theorem SameBlock.trans (first : SameBlock image changed b)
    (second : SameBlock changed final b) : SameBlock image final b :=
  fun j inside => (second j inside).trans (first j inside)

theorem bread_congr (same : SameBlock image changed b) (inside : j < bsize) :
    bread changed b j = bread image b j := same j inside

theorem entry_congr (same : SameBlock image changed b) (small : i < nindirect) :
    entry (bread changed b) i = entry (bread image b) i := by
  apply word_congr
  intro offset inside
  apply same
  simp only [nindirect, bsize] at small ⊢
  omega

theorem entry_bwrite (small : i < nindirect) :
    entry (bread (bwrite image b data) b) i = entry data i := by
  apply word_congr
  intro offset inside
  apply bwrite_self
  simp only [nindirect, bsize] at small ⊢
  omega

theorem entry_setEntry (word : value < 2 ^ 32) :
    entry (setEntry block j value) i = if i = j then value else entry block i := by
  rw [entry, setEntry]
  by_cases same : i = j
  · rw [if_pos same, same, word_setWord_self]
    exact Nat.mod_eq_of_lt word
  · rw [if_neg same, word_setWord_other (by omega)]
    rfl

/-! ## The places for block numbers -/

theorem pointer_none : pointer image addrs none = addrs ndirect := rfl

theorem pointer_direct (direct : bn < ndirect) : pointer image addrs (some bn) = addrs bn :=
  if_pos direct

theorem pointer_indirect (behind : ndirect ≤ bn) (small : bn < maxfile)
    (made : addrs ndirect ≠ 0) :
    pointer image addrs (some bn) = entry (bread image (addrs ndirect)) (bn - ndirect) := by
  rw [pointer, if_neg (Nat.not_lt.mpr behind), if_pos ⟨small, made⟩]
  rfl

theorem pointer_unmade (behind : ndirect ≤ bn) (unmade : addrs ndirect = 0) :
    pointer image addrs (some bn) = 0 := by
  rw [pointer, if_neg (Nat.not_lt.mpr behind), if_neg fun made => made.2 unmade]

theorem pointer_large (large : maxfile ≤ bn) : pointer image addrs (some bn) = 0 := by
  have behind : ¬ bn < ndirect := by
    have : ndirect ≤ maxfile := by decide
    omega
  rw [pointer, if_neg behind, if_neg fun made => Nat.not_lt.mpr large made.1]

/-- The address of the inode that a block number is found in or through. -/
def slotOf : Option Nat → Nat
  | none => ndirect
  | some bn => min bn ndirect

/-- A block number of a file depends on one of its addresses and on its indirect block. -/
theorem pointer_congr (same : addrs' (slotOf ref) = addrs (slotOf ref))
    (block : addrs ndirect ≠ 0 → SameBlock image changed (addrs ndirect)) :
    pointer changed addrs' ref = pointer image addrs ref := by
  cases ref with
  | none => exact same
  | some bn =>
    by_cases direct : bn < ndirect
    · rw [slotOf, Nat.min_eq_left direct.le] at same
      rw [pointer_direct direct, pointer_direct direct, same]
    have behind := Nat.not_lt.mp direct
    rw [slotOf, Nat.min_eq_right behind] at same
    by_cases made : addrs ndirect = 0
    · rw [pointer_unmade behind made, pointer_unmade behind (same.trans made)]
    by_cases small : bn < maxfile
    · rw [pointer_indirect behind small made,
        pointer_indirect behind small (same.trans_ne made), same]
      apply entry_congr (block made)
      rw [maxfile] at small
      omega
    · rw [pointer_large (Nat.not_lt.mp small), pointer_large (Nat.not_lt.mp small)]

/-! ## The bitmap -/

/-- The first block behind the bitmap. -/
def dataStart (sb : Superblock) : Nat := sb.bmapstart + sb.size / bpb + 1

theorem bblock_lt (small : b < sb.size) : bblock b sb < dataStart sb := by
  have := Nat.div_le_div_right (c := bpb) small.le
  rw [bblock, dataStart]
  omega

theorem isFree_congr (same : SameBlock image changed (bblock b sb)) :
    isFree sb changed b = isFree sb image b := by
  have inside : b % bpb / 8 < bsize := by
    simp only [bpb, bsize]
    omega
  rw [isFree, isFree, bread_congr same inside]

theorem bitmask_and (ne : b % 8 ≠ c % 8) : bitmask b &&& bitmask c = 0 := by
  have reduce : ∀ n, n % bpb % 8 = n % 8 := by
    simp only [bpb, bsize]
    omega
  have masks : ∀ i < 8, ∀ j < 8, i ≠ j → UInt8.ofNat (2 ^ i) &&& UInt8.ofNat (2 ^ j) = 0 := by
    decide
  rw [bitmask, bitmask, reduce, reduce]
  exact masks _ (Nat.mod_lt _ (by decide)) _ (Nat.mod_lt _ (by decide)) ne

theorem bitmask_and_self (b : Nat) : bitmask b &&& bitmask b ≠ 0 := by
  have masks : ∀ i < 8, UInt8.ofNat (2 ^ i) &&& UInt8.ofNat (2 ^ i) ≠ 0 := by decide
  exact masks _ (Nat.mod_lt _ (by decide))

theorem or_and (x y mask : UInt8) : (x ||| y) &&& mask = (x &&& mask) ||| (y &&& mask) := by
  apply UInt8.toBitVec_inj.mp
  ext i
  simp [Bool.and_or_distrib_right]

/-- The image in which a block has been marked and zeroed. -/
def allocate (sb : Superblock) (image : Bytes) (b : Nat) : Bytes :=
  bwrite (bwrite image (bblock b sb) (marked sb image b)) b fun _ => 0

theorem allocate_zero (inside : j < bsize) :
    allocate sb image b (b * bsize + j) = 0 := bwrite_self inside

theorem allocate_other (ne : c ≠ b) (notBitmap : c ≠ bblock b sb) :
    SameBlock image (allocate sb image b) c :=
  (bwrite_other notBitmap).trans (bwrite_other ne)

theorem isFree_allocate (data : dataStart sb ≤ b) (inRange : c < sb.size) :
    isFree sb (allocate sb image b) c = if c = b then false else isFree sb image c := by
  have mapOther : bblock c sb ≠ b := (Nat.lt_of_lt_of_le (bblock_lt inRange) data).ne
  rw [allocate, isFree_congr (bwrite_other mapOther)]
  by_cases sameMap : bblock c sb = bblock b sb
  · have inside : c % bpb / 8 < bsize := by
      simp only [bpb, bsize]
      omega
    have read : bread (bwrite image (bblock b sb) (marked sb image b)) (bblock c sb) (c % bpb / 8) =
        marked sb image b (c % bpb / 8) := by
      rw [sameMap]
      exact bwrite_self inside
    have quotient : c / bpb = b / bpb := by
      rw [bblock, bblock] at sameMap
      omega
    rw [isFree, read, marked]
    by_cases sameByte : c % bpb / 8 = b % bpb / 8
    · simp only [sameByte, update_self, or_and, UInt8.or_eq_zero_iff]
      by_cases same : c = b
      · rw [if_pos same, same]
        exact decide_eq_false fun both => bitmask_and_self b both.2
      have differentBit : b % 8 ≠ c % 8 := by
        intro sameBit
        have first := Nat.div_add_mod c bpb
        simp only [bpb, bsize] at *
        omega
      simp only [bitmask_and differentBit, and_true, if_neg same, isFree, sameMap, sameByte]
    · have different : c ≠ b := fun same => sameByte (by rw [same])
      simp only [update_of_ne sameByte, if_neg different, isFree, sameMap]
  · have different : c ≠ b := fun same => sameMap (by rw [same])
    rw [if_neg different]
    exact isFree_congr (bwrite_other sameMap)

/-! ## A file and its blocks -/

/-- The blocks of a file are data blocks that are marked in the bitmap, each in one
place, and the bitmap marks all blocks in front of the data blocks. -/
structure Placed (sb : Superblock) (image : Bytes) (addrs : Nat → Nat) : Prop where
  words : sb.size ≤ 2 ^ 32
  inRange : ∀ ref, pointer image addrs ref ≠ 0 →
    dataStart sb ≤ pointer image addrs ref ∧ pointer image addrs ref < sb.size
  taken : ∀ ref, pointer image addrs ref ≠ 0 → isFree sb image (pointer image addrs ref) = false
  distinct : ∀ ref other, pointer image addrs ref ≠ 0 →
    pointer image addrs ref = pointer image addrs other → ref = other
  free : ∀ b < sb.size, isFree sb image b = true → dataStart sb ≤ b

/-- A byte of a file; a missing block holds zeros. -/
def fileByte (image : Bytes) (addrs : Nat → Nat) (pos : Nat) : UInt8 :=
  if pointer image addrs (some (pos / bsize)) = 0 then 0
  else image (pointer image addrs (some (pos / bsize)) * bsize + pos % bsize)

/-- The blocks that `balloc` can return. -/
def freeBlocks (sb : Superblock) (image : Bytes) : Finset Nat :=
  (Finset.range sb.size).filter fun b => isFree sb image b = true

/-- A free block is assigned to a place that held 0. -/
structure Assigns (sb : Superblock) (image : Bytes) (addrs : Nat → Nat) (ref : Option Nat) (b : Nat)
    (changed : Bytes) (addrs' : Nat → Nat) : Prop where
  small : b < sb.size
  free : isFree sb image b = true
  empty : pointer image addrs ref = 0
  self : pointer changed addrs' ref = b
  others : ∀ other, other ≠ ref → pointer changed addrs' other = pointer image addrs other
  bitmap : ∀ c < sb.size, isFree sb changed c = if c = b then false else isFree sb image c
  zero : ∀ j < bsize, changed (b * bsize + j) = 0
  data : ∀ bn, pointer image addrs (some bn) ≠ 0 →
    SameBlock image changed (pointer image addrs (some bn))

namespace Assigns

variable (assigns : Assigns sb image addrs ref b changed addrs')
include assigns

theorem ne_of_points (placed : Placed sb image addrs)
    (points : pointer image addrs other ≠ 0) : pointer image addrs other ≠ b := by
  intro same
  have taken := placed.taken other points
  rw [same, assigns.free] at taken
  cases taken

theorem placed (placed : Placed sb image addrs) : Placed sb changed addrs' where
  words := placed.words
  inRange := by
    intro other points
    by_cases isRef : other = ref
    · rw [isRef, assigns.self]
      exact ⟨placed.free b assigns.small assigns.free, assigns.small⟩
    · rw [assigns.others other isRef] at points ⊢
      exact placed.inRange other points
  taken := by
    intro other points
    by_cases isRef : other = ref
    · rw [isRef, assigns.self, assigns.bitmap b assigns.small, if_pos rfl]
    rw [assigns.others other isRef] at points ⊢
    rw [assigns.bitmap _ (placed.inRange other points).2]
    split
    · rfl
    · exact placed.taken other points
  distinct := by
    intro first second points same
    by_cases firstRef : first = ref
    · by_cases secondRef : second = ref
      · rw [firstRef, secondRef]
      · rw [firstRef, assigns.self] at points same
        rw [assigns.others second secondRef] at same
        exact absurd same.symm (assigns.ne_of_points placed (same ▸ points))
    rw [assigns.others first firstRef] at points same
    by_cases secondRef : second = ref
    · rw [secondRef, assigns.self] at same
      exact absurd same (assigns.ne_of_points placed points)
    · rw [assigns.others second secondRef] at same
      exact placed.distinct first second points same
  free := by
    intro c small isFreeC
    rw [assigns.bitmap c small] at isFreeC
    split at isFreeC
    · cases isFreeC
    · exact placed.free c small isFreeC

theorem fileByte_eq (placed : Placed sb image addrs) (pos : Nat) :
    fileByte changed addrs' pos = fileByte image addrs pos := by
  rw [fileByte, fileByte]
  by_cases isRef : some (pos / bsize) = ref
  · have nonzero : b ≠ 0 := by
      have data := placed.free b assigns.small assigns.free
      exact (Nat.lt_of_lt_of_le (Nat.succ_pos _) data).ne'
    rw [isRef, assigns.self, assigns.empty, if_neg nonzero, if_pos rfl]
    exact assigns.zero _ (Nat.mod_lt _ (by decide))
  rw [assigns.others _ isRef]
  split
  · rfl
  · rename_i points
    exact assigns.data _ points _ (Nat.mod_lt _ (by decide))

theorem freeBlocks_eq : freeBlocks sb changed = (freeBlocks sb image).erase b := by
  ext c
  simp only [freeBlocks, Finset.mem_filter, Finset.mem_range, Finset.mem_erase]
  constructor
  · rintro ⟨small, isFreeC⟩
    rw [assigns.bitmap c small] at isFreeC
    split at isFreeC
    · cases isFreeC
    · rename_i ne
      exact ⟨ne, small, isFreeC⟩
  · rintro ⟨ne, small, isFreeC⟩
    rw [assigns.bitmap c small, if_neg ne]
    exact ⟨small, isFreeC⟩

theorem mem_freeBlocks : b ∈ freeBlocks sb image := by
  rw [freeBlocks, Finset.mem_filter, Finset.mem_range]
  exact ⟨assigns.small, assigns.free⟩

end Assigns

/-! ## The three places -/

section Places

variable (placed : Placed sb image addrs) (small : b < sb.size) (free : isFree sb image b = true)
include placed small free

theorem Placed.sameBlock (points : pointer image addrs ref ≠ 0) :
    SameBlock image (allocate sb image b) (pointer image addrs ref) := by
  have taken := placed.taken ref points
  apply allocate_other
  · intro same
    rw [same, free] at taken
    cases taken
  · exact (Nat.lt_of_lt_of_le (bblock_lt small) (placed.inRange ref points).1).ne'

theorem Placed.sameIndirect (made : addrs ndirect ≠ 0) :
    SameBlock image (allocate sb image b) (addrs ndirect) := by
  have points : pointer image addrs none ≠ 0 := made
  have same := placed.sameBlock small free points
  rwa [pointer_none] at same

theorem Placed.isFree_allocate (c : Nat) (inRange : c < sb.size) :
    isFree sb (allocate sb image b) c = if c = b then false else isFree sb image c :=
  Disk.isFree_allocate (placed.free b small free) inRange

theorem Placed.assignsDirect (direct : bn < ndirect) (empty : addrs bn = 0) :
    Assigns sb image addrs (some bn) b (allocate sb image b) (update addrs bn b) where
  small := small
  free := free
  empty := (pointer_direct direct).trans empty
  self := by rw [pointer_direct direct, update_self]
  others := by
    intro other ne
    apply pointer_congr
    · rw [update_of_ne]
      intro same
      cases other with
      | none =>
        rw [slotOf] at same
        omega
      | some k =>
        rw [slotOf] at same
        exact ne (congrArg some (by omega))
    · exact placed.sameIndirect small free
  bitmap := placed.isFree_allocate small free
  zero := fun j inside => allocate_zero inside
  data := fun _ points => placed.sameBlock small free points

theorem Placed.assignsIndirect (empty : addrs ndirect = 0) :
    Assigns sb image addrs none b (allocate sb image b) (update addrs ndirect b) where
  small := small
  free := free
  empty := empty
  self := by rw [pointer_none, update_self]
  others := by
    intro other different
    cases other with
    | none => exact absurd rfl different
    | some k =>
      by_cases direct : k < ndirect
      · rw [pointer_direct direct, pointer_direct direct, update_of_ne direct.ne]
      -- the new indirect block holds zeros
      have behind := Nat.not_lt.mp direct
      rw [pointer_unmade behind empty]
      by_cases large : maxfile ≤ k
      · exact pointer_large large
      have nonzero : b ≠ 0 :=
        (Nat.lt_of_lt_of_le (Nat.succ_pos _) (placed.free b small free)).ne'
      rw [pointer_indirect behind (Nat.not_le.mp large)
        (by rw [update_self]; exact nonzero), update_self]
      apply word_eq_zero
      intro offset inside
      apply allocate_zero
      simp only [maxfile, nindirect, ndirect, bsize] at large behind ⊢
      omega
  bitmap := placed.isFree_allocate small free
  zero := fun j inside => allocate_zero inside
  data := fun _ points => placed.sameBlock small free points

theorem Placed.assignsEntry (behind : ndirect ≤ bn) (inside : bn < maxfile)
    (made : addrs ndirect ≠ 0) (empty : entry (bread image (addrs ndirect)) (bn - ndirect) = 0) :
    Assigns sb image addrs (some bn) b (bwrite (allocate sb image b) (addrs ndirect)
      (setEntry (bread image (addrs ndirect)) (bn - ndirect) b)) addrs where
  small := small
  free := free
  empty := (pointer_indirect behind inside made).trans empty
  self := by
    have word : b < 2 ^ 32 := Nat.lt_of_lt_of_le small placed.words
    have index : bn - ndirect < nindirect := by
      rw [maxfile] at inside
      omega
    rw [pointer_indirect behind inside made, entry_bwrite index, entry_setEntry word, if_pos rfl]
  others := by
    intro other different
    cases other with
    | none => rfl
    | some k =>
      by_cases direct : k < ndirect
      · rw [pointer_direct direct, pointer_direct direct]
      have behindToo := Nat.not_lt.mp direct
      by_cases large : maxfile ≤ k
      · rw [pointer_large large, pointer_large large]
      have word : b < 2 ^ 32 := Nat.lt_of_lt_of_le small placed.words
      have index : k - ndirect < nindirect := by
        rw [maxfile] at large
        omega
      have notSame : k - ndirect ≠ bn - ndirect := by
        intro same
        exact different (congrArg some (by omega))
      rw [pointer_indirect behindToo (Nat.not_le.mp large) made,
        pointer_indirect behindToo (Nat.not_le.mp large) made, entry_bwrite index,
        entry_setEntry word, if_neg notSame]
  bitmap := by
    intro c inRange
    have notMap : bblock c sb ≠ addrs ndirect :=
      (Nat.lt_of_lt_of_le (bblock_lt inRange) (placed.inRange none made).1).ne
    rw [isFree_congr (bwrite_other notMap)]
    exact placed.isFree_allocate small free c inRange
  zero := by
    intro j inBlock
    have different : b ≠ addrs ndirect := by
      intro same
      have taken : isFree sb image (addrs ndirect) = false := placed.taken none made
      rw [← same, free] at taken
      cases taken
    rw [bwrite_other different j inBlock]
    exact allocate_zero inBlock
  data := by
    intro k points
    have different : pointer image addrs (some k) ≠ addrs ndirect := fun same =>
      absurd (placed.distinct (some k) none points same) (by simp)
    exact (placed.sameBlock small free points).trans (bwrite_other different)

end Places

/-! ## What `bmap` does -/

/-- Free blocks have been assigned to some of the allowed places. -/
inductive Assigned (sb : Superblock) (allowed : Option Nat → Prop) (image : Bytes)
    (addrs : Nat → Nat) : Bytes → (Nat → Nat) → Prop where
  | refl : Assigned sb allowed image addrs image addrs
  | step {middle last : Bytes} {before after : Nat → Nat} {ref : Option Nat} {b : Nat}
      (prior : Assigned sb allowed image addrs middle before)
      (assigns : Assigns sb middle before ref b last after) (isAllowed : allowed ref) :
      Assigned sb allowed image addrs last after

namespace Assigned

variable {allowed : Option Nat → Prop} (assigned : Assigned sb allowed image addrs changed addrs')
include assigned

theorem placed (placed : Placed sb image addrs) : Placed sb changed addrs' := by
  induction assigned with
  | refl => exact placed
  | step _ assigns _ ih => exact assigns.placed ih

theorem fileByte_eq (placed : Placed sb image addrs) (pos : Nat) :
    fileByte changed addrs' pos = fileByte image addrs pos := by
  induction assigned with
  | refl => rfl
  | step prior assigns _ ih =>
    rw [assigns.fileByte_eq (prior.placed placed), ih]

theorem pointer_eq (points : pointer image addrs ref ≠ 0) :
    pointer changed addrs' ref = pointer image addrs ref := by
  induction assigned with
  | refl => rfl
  | @step middle last before after place b _ assigns _ ih =>
    have ne : ref ≠ place := by
      rintro rfl
      exact points (ih ▸ assigns.empty)
    rw [assigns.others ref ne, ih]

theorem trans (more : Assigned sb allowed changed addrs' last after) :
    Assigned sb allowed image addrs last after := by
  induction more with
  | refl => exact assigned
  | step _ assigns isAllowed ih =>
    exact .step ih assigns isAllowed

theorem mono (implies : ∀ ref, allowed ref → weaker ref) :
    Assigned sb weaker image addrs changed addrs' := by
  induction assigned with
  | refl => exact .refl
  | step _ assigns isAllowed ih =>
    exact .step ih assigns (implies _ isAllowed)

end Assigned

theorem balloc_cases (ran : balloc sb store = some (store', b)) :
    store' = store ∧ b = 0 ∧ freeBlocks sb store.image = ∅ ∨
      b < sb.size ∧ isFree sb store.image b = true ∧
        store' = ⟨allocate sb store.image b, (store.log.add (bblock b sb)).add b⟩ := by
  unfold balloc at ran
  split at ran
  · rename_i none
    cases ran
    refine .inl ⟨rfl, rfl, Finset.filter_eq_empty_iff.mpr fun c small => ?_⟩
    have taken := List.find?_eq_none.mp none c (List.mem_range.mpr (Finset.mem_range.mp small))
    simpa using taken
  rename_i found foundEq
  have isFound := List.find?_some foundEq
  have mem := List.mem_range.mp (List.mem_of_find?_eq_some foundEq)
  right
  simp only [bzero, logWrite, Option.bind_eq_bind] at ran
  split at ran
  · cases ran
  rw [Option.bind_some] at ran
  split at ran
  · cases ran
  · cases ran
    exact ⟨mem, isFound, rfl⟩

/-- The place of an address of the inode. -/
def refOf (i : Nat) : Option Nat := if i < ndirect then some i else none

/-- The places in which `bmap` looks for a block. -/
def placesOf (bn : Nat) : Finset (Option Nat) := if bn < ndirect then {some bn} else {none, some bn}

theorem some_mem_placesOf (bn : Nat) : some bn ∈ placesOf bn := by
  rw [placesOf]
  split <;> simp

theorem none_mem_placesOf : none ∈ placesOf bn ↔ ndirect ≤ bn := by
  rw [placesOf]
  split <;> simp <;> omega

section Effect

variable {store store' : Store} {addr i : Nat}

section

variable (placed : Placed sb image addrs) (small : b < sb.size) (free : isFree sb image b = true)
include placed small free

theorem Placed.ne_zero : b ≠ 0 :=
  (Nat.lt_of_lt_of_le (Nat.succ_pos _) (placed.free b small free)).ne'

theorem Placed.assignsAddr (inside : i ≤ ndirect) (empty : addrs i = 0) :
    Assigns sb image addrs (refOf i) b (allocate sb image b) (update addrs i b) := by
  rw [refOf]
  by_cases direct : i < ndirect
  · rw [if_pos direct]
    exact placed.assignsDirect small free direct empty
  · obtain rfl : i = ndirect := by omega
    exact placed.assignsIndirect small free empty

end

section

variable (placed : Placed sb store.image addrs)
include placed

theorem addrOrBalloc_cases (inside : i ≤ ndirect)
    (ran : addrOrBalloc sb store addrs i = some (store', addrs', addr)) :
    addr = addrs' i ∧ Assigned sb (· = refOf i) store.image addrs store'.image addrs' ∧
      (addr = 0 → freeBlocks sb store'.image = ∅) := by
  unfold addrOrBalloc at ran
  split at ran
  · rename_i empty
    obtain ⟨⟨middle, b⟩, allocated, result⟩ := Option.map_eq_some_iff.mp ran
    cases result
    rcases balloc_cases allocated with ⟨rfl, rfl, noneFree⟩ | ⟨small, free, rfl⟩
    · rw [if_pos rfl]
      exact ⟨empty.symm, .refl, fun _ => noneFree⟩
    · have nonzero := placed.ne_zero small free
      rw [if_neg nonzero, update_self]
      exact ⟨rfl, .step .refl (placed.assignsAddr small free inside empty) rfl,
        fun zero => absurd zero nonzero⟩
  · rename_i made
    cases ran
    exact ⟨rfl, .refl, fun zero => absurd zero made⟩

theorem entryOrBalloc_cases (behind : ndirect ≤ bn) (inside : bn < maxfile)
    (made : addrs ndirect ≠ 0)
    (ran : entryOrBalloc sb store (addrs ndirect) (bn - ndirect) = some (store', addr)) :
    addr = pointer store'.image addrs (some bn) ∧
      Assigned sb (· = some bn) store.image addrs store'.image addrs ∧
      (addr = 0 → freeBlocks sb store'.image = ∅) := by
  unfold entryOrBalloc at ran
  simp only at ran
  split at ran
  · rename_i empty
    obtain ⟨⟨middle, b⟩, allocated, rest⟩ := Option.bind_eq_some_iff.mp ran
    rcases balloc_cases allocated with ⟨rfl, rfl, noneFree⟩ | ⟨small, free, rfl⟩
    · rw [if_pos rfl] at rest
      cases rest
      exact ⟨((pointer_indirect behind inside made).trans empty).symm, .refl, fun _ => noneFree⟩
    have nonzero := placed.ne_zero small free
    rw [if_neg nonzero] at rest
    obtain ⟨last, written, result⟩ := Option.map_eq_some_iff.mp rest
    cases result
    unfold logWrite at written
    split at written
    · cases written
    · cases written
      have assigns := placed.assignsEntry small free behind inside made empty
      exact ⟨assigns.self.symm, .step .refl assigns rfl, fun zero => absurd zero nonzero⟩
  · rename_i points
    cases ran
    exact ⟨(pointer_indirect behind inside made).symm, .refl, fun zero => absurd zero points⟩

/-- `bmap` returns what is in the place for the block when it has assigned free blocks
to it and to the place for the indirect block. It returns 0 when no block is free. -/
theorem bmap_cases (ran : bmap sb store addrs bn = some (store', addrs', addr)) :
    bn < maxfile ∧ addr = pointer store'.image addrs' (some bn) ∧
      Assigned sb (· ∈ placesOf bn) store.image addrs store'.image addrs' ∧
      (addr = 0 → freeBlocks sb store'.image = ∅) := by
  unfold bmap at ran
  split at ran
  · rename_i direct
    obtain ⟨isAddr, assigned, noneFree⟩ := addrOrBalloc_cases placed direct.le ran
    rw [pointer_direct direct]
    refine ⟨direct.trans_le (Nat.le_add_right _ _), isAddr, assigned.mono ?_, noneFree⟩
    rintro ref rfl
    rw [refOf, if_pos direct]
    exact some_mem_placesOf bn
  rename_i notDirect
  have behind := Nat.not_lt.mp notDirect
  split at ran
  · rename_i index
    have inside : bn < maxfile := by
      rw [maxfile]
      omega
    obtain ⟨⟨middle, before, indirect⟩, first, rest⟩ := Option.bind_eq_some_iff.mp ran
    obtain ⟨isIndirect, assigned, noIndirect⟩ := addrOrBalloc_cases placed le_rfl first
    have allowed : Assigned sb (· ∈ placesOf bn) store.image addrs middle.image before := by
      apply assigned.mono
      rintro ref rfl
      exact none_mem_placesOf.mpr behind
    simp only at rest
    split at rest
    · rename_i unmade
      cases rest
      have noneFree := noIndirect unmade
      rw [isIndirect] at unmade
      exact ⟨inside, (pointer_unmade behind unmade).symm, allowed, fun _ => noneFree⟩
    rename_i made
    obtain ⟨⟨last, found⟩, second, result⟩ := Option.map_eq_some_iff.mp rest
    cases result
    rw [isIndirect] at made second
    obtain ⟨isFound, more, noneFree⟩ := entryOrBalloc_cases (assigned.placed placed) behind
      inside made second
    have place : ∀ ref, ref = some bn → ref ∈ placesOf bn := by
      rintro ref rfl
      exact some_mem_placesOf bn
    exact ⟨inside, isFound, allowed.trans (more.mono place), noneFree⟩
  · cases ran

end

end Effect

end Xv6.Disk
