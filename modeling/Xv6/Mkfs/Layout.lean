import Mathlib.Algebra.Order.Ring.Nat
import Mathlib.Data.List.GetD
import Xv6.Mkfs.Program
import Xv6.Semantics.Bump
import Xv6.Semantics.Update

/-!
# The blocks of an image

`Laid` relates the image to the files it holds: the block numbers in the inodes and
in the indirect blocks are those that the counter has handed out, each of them once;
a file has the blocks it needs, with its bytes in them and zeros behind; and what
has not been handed out is zero. The inodes enter only through their block
addresses, since `iappend` works on a copy of one of them.
-/

namespace Xv6.Mkfs

open Function Xv6.Semantics Xv6.Disk

/-- What is known about a file: how many data blocks it has, whether it has an
indirect block, and its bytes. -/
structure FileMap where
  blocks : Nat
  indirect : Bool
  content : List UInt8

/-- A file with one more data block, or with its indirect block. -/
def FileMap.grow (file : FileMap) : Option Nat → FileMap
  | none => { file with indirect := true }
  | some _ => { file with blocks := file.blocks + 1 }

/-- A place for a block number: an inode and an index in it, or its indirect block. -/
abbrev Ref := Nat × Option Nat

/-- The block numbers of an image. -/
def pointers (image : Bytes) (addrs : Nat → Nat → Nat) (ref : Ref) : Nat :=
  pointer image (addrs ref.1) ref.2

/-- The image holds the files. -/
structure Laid (image : Bytes) (freeblock inodes : Nat) (addrs : Nat → Nat → Nat)
    (files : Nat → FileMap) : Prop where
  low : nmeta ≤ freeblock
  bump : Bump (fun ref => ref.1 < inodes) (pointers image addrs) nmeta freeblock
  data : ∀ inum < inodes, ∀ bn,
    pointers image addrs (inum, some bn) ≠ 0 ↔ bn < (files inum).blocks
  indirect : ∀ inum < inodes, pointers image addrs (inum, none) ≠ 0 ↔ (files inum).indirect = true
  room : ∀ inum < inodes, (files inum).content.length ≤ (files inum).blocks * bsize
  content : ∀ inum < inodes, ∀ bn < (files inum).blocks, ∀ j < bsize,
    image (pointers image addrs (inum, some bn) * bsize + j) =
      (files inum).content.getD (bn * bsize + j) 0
  fresh : ∀ b, freeblock ≤ b → ∀ j < bsize, image (b * bsize + j) = 0

variable {image changed : Bytes} {freeblock inodes inum bn i : Nat} {addrs addrs' : Nat → Nat → Nat}
  {files : Nat → FileMap}

/-! ## Block numbers -/

theorem pointers_none : pointers image addrs (inum, none) = addrs inum ndirect := rfl

theorem pointers_direct (direct : bn < ndirect) :
    pointers image addrs (inum, some bn) = addrs inum bn := if_pos direct

theorem pointers_indirect (behind : ndirect ≤ bn) (small : bn < maxfile)
    (made : addrs inum ndirect ≠ 0) :
    pointers image addrs (inum, some bn) =
      entry (dropBytes image (addrs inum ndirect * bsize)) (bn - ndirect) := by
  rw [pointers, pointer, if_neg (Nat.not_lt.mpr behind), if_pos ⟨small, made⟩]

theorem pointers_unmade (behind : ndirect ≤ bn) (unmade : addrs inum ndirect = 0) :
    pointers image addrs (inum, some bn) = 0 := by
  rw [pointers, pointer, if_neg (Nat.not_lt.mpr behind), if_neg fun made => made.2 unmade]

theorem pointers_large (large : maxfile ≤ bn) : pointers image addrs (inum, some bn) = 0 := by
  have behind : ¬ bn < ndirect := by
    have : ndirect ≤ maxfile := by decide
    omega
  rw [pointers, pointer, if_neg behind, if_neg fun made => Nat.not_lt.mpr large made.1]

/-- The block numbers of a file depend on its addresses and its indirect block. -/
theorem pointers_congr (ref : Ref) (same : ∀ i ≤ ndirect, addrs' ref.1 i = addrs ref.1 i)
    (block : addrs ref.1 ndirect ≠ 0 → ∀ j < bsize,
      changed (addrs ref.1 ndirect * bsize + j) = image (addrs ref.1 ndirect * bsize + j)) :
    pointers changed addrs' ref = pointers image addrs ref := by
  obtain ⟨inum, _ | bn⟩ := ref
  · exact same ndirect le_rfl
  by_cases direct : bn < ndirect
  · rw [pointers_direct direct, pointers_direct direct]
    exact same bn direct.le
  have behind := Nat.not_lt.mp direct
  by_cases made : addrs inum ndirect = 0
  · rw [pointers_unmade behind made, pointers_unmade behind ((same _ le_rfl).trans made)]
  by_cases small : bn < maxfile
  · rw [pointers_indirect behind small made,
      pointers_indirect behind small ((same _ le_rfl).trans_ne made), same _ le_rfl]
    apply word_congr
    intro offset inside
    apply block made
    simp only [maxfile, nindirect, ndirect, bsize] at small behind ⊢
    omega
  · rw [pointers_large (Nat.not_lt.mp small), pointers_large (Nat.not_lt.mp small)]

theorem getD_append_take {content p : List UInt8} (enough : n ≤ p.length) (k : Nat) :
    (content ++ p.take n).getD k 0 =
      if content.length ≤ k ∧ k < content.length + n then p.getD (k - content.length) 0
      else content.getD k 0 := by
  by_cases old : k < content.length
  · rw [if_neg (by omega), List.getD_append _ _ _ _ old]
  have behind := Nat.not_lt.mp old
  rw [List.getD_append_right _ _ _ _ behind]
  by_cases new : k < content.length + n
  · rw [if_pos ⟨behind, new⟩, List.getD_eq_getElem?_getD, List.getD_eq_getElem?_getD,
      List.getElem?_take_of_lt (by omega)]
  · rw [if_neg fun both => new both.2, List.getD_eq_default _ _ behind,
      List.getD_eq_default]
    rw [List.length_take]
    omega

theorem copy_block (ne : x ≠ y) (fits : offset + n ≤ bsize) (inside : k < bsize) :
    copy image (x * bsize + offset) n source (y * bsize + k) = image (y * bsize + k) := by
  apply copy_outside
  simp only [bsize] at fits inside ⊢
  omega

namespace Laid

section

variable (laid : Laid image freeblock inodes addrs files)
include laid

theorem lt_freeblock (ref : Ref)
    (inside : ref.1 < inodes) (points : pointers image addrs ref ≠ 0) :
    nmeta ≤ pointers image addrs ref ∧ pointers image addrs ref < freeblock :=
  laid.bump.inRange inside points

theorem ne_of_ne (ref other : Ref)
    (inside : ref.1 < inodes) (otherInside : other.1 < inodes)
    (points : pointers image addrs ref ≠ 0) (ne : ref ≠ other) :
    pointers image addrs ref ≠ pointers image addrs other :=
  fun same => ne (laid.bump.injective inside otherInside points same)

theorem getD_eq_zero (inside : inum < inodes)
    (behind : (files inum).blocks ≤ bn) (j : Nat) :
    (files inum).content.getD (bn * bsize + j) 0 = 0 := by
  apply List.getD_eq_default
  have := laid.room inum inside
  have := Nat.mul_le_mul_right bsize behind
  omega

theorem congr (same : ∀ inum < inodes, ∀ i ≤ ndirect, addrs' inum i = addrs inum i)
    (data : ∀ a, nmeta * bsize ≤ a → changed a = image a) :
    Laid changed freeblock inodes addrs' files := by
  have agree : ∀ ref : Ref, ref.1 < inodes →
      pointers changed addrs' ref = pointers image addrs ref := by
    intro ref inside
    apply pointers_congr ref (same ref.1 inside)
    intro made j _
    have low := (laid.lt_freeblock (ref.1, none) inside made).1
    apply data
    have := Nat.mul_le_mul_right bsize low
    exact this.trans (Nat.le_add_right _ _)
  constructor
  case low => exact laid.low
  case bump => exact laid.bump.congr agree
  case data =>
    intro inum inside bn
    rw [agree _ inside]
    exact laid.data inum inside bn
  case indirect =>
    intro inum inside
    rw [agree _ inside]
    exact laid.indirect inum inside
  case room => exact laid.room
  case content =>
    intro inum inside bn small j jSmall
    rw [agree _ inside, data]
    · exact laid.content inum inside bn small j jSmall
    · have points := (laid.data inum inside bn).mpr small
      have := Nat.mul_le_mul_right bsize (laid.lt_freeblock (inum, some bn) inside points).1
      exact this.trans (Nat.le_add_right _ _)
  case fresh =>
    intro b high j jSmall
    rw [data]
    · exact laid.fresh b high j jSmall
    · have := Nat.mul_le_mul_right bsize (laid.low.trans high)
      exact this.trans (Nat.le_add_right _ _)

theorem grow (zero : ∀ i ≤ ndirect, addrs inodes i = 0) (none : files inodes = ⟨0, false, []⟩) :
    Laid image freeblock (inodes + 1) addrs files := by
  have empty : ∀ place, pointers image addrs (inodes, place) = 0 := by
    intro place
    cases place with
    | none => exact zero ndirect le_rfl
    | some bn =>
      by_cases direct : bn < ndirect
      · rw [pointers_direct direct, zero bn direct.le]
      · exact pointers_unmade (Nat.not_lt.mp direct) (zero ndirect le_rfl)
  have last : ∀ {inum}, inum < inodes + 1 → ¬ inum < inodes → inum = inodes := fun _ _ => by omega
  constructor
  case low => exact laid.low
  case bump =>
    apply laid.bump.grow (fun ref inside => Nat.lt_succ_of_lt inside)
    rintro ⟨inum, place⟩ inside notOld
    obtain rfl := last inside notOld
    exact empty place
  case data =>
    intro inum inside bn
    by_cases old : inum < inodes
    · exact laid.data inum old bn
    · obtain rfl := last inside old
      rw [empty, none]
      exact iff_of_false (fun nonzero => nonzero rfl) (Nat.not_lt_zero _)
  case indirect =>
    intro inum inside
    by_cases old : inum < inodes
    · exact laid.indirect inum old
    · obtain rfl := last inside old
      rw [empty, none]
      exact iff_of_false (fun nonzero => nonzero rfl) Bool.false_ne_true
  case room =>
    intro inum inside
    by_cases old : inum < inodes
    · exact laid.room inum old
    · obtain rfl := last inside old
      rw [none]
      exact Nat.zero_le _
  case content =>
    intro inum inside bn small
    by_cases old : inum < inodes
    · exact laid.content inum old bn small
    · obtain rfl := last inside old
      rw [none] at small
      cases small
  case fresh => exact laid.fresh

/-! ## What `iappend` does to the blocks -/

section

variable (inside : inum < inodes)
include inside

theorem alloc (next : ∀ bn ∈ place, bn = (files inum).blocks)
    (empty : pointers image addrs (inum, place) = 0)
    (given : pointers changed addrs' (inum, place) = freeblock)
    (same : ∀ other : Ref, other.1 < inodes → other ≠ (inum, place) →
      pointers changed addrs' other = pointers image addrs other)
    (kept : ∀ other < inodes, ∀ bn, pointers image addrs (other, some bn) ≠ 0 → ∀ j < bsize,
      changed (pointers image addrs (other, some bn) * bsize + j) =
        image (pointers image addrs (other, some bn) * bsize + j))
    (fresh : ∀ b, freeblock ≤ b → ∀ j < bsize, changed (b * bsize + j) = image (b * bsize + j)) :
    Laid changed (freeblock + 1) inodes addrs'
      (update files inum ((files inum).grow place)) := by
  have nonzero : freeblock ≠ 0 := by
    have := laid.low
    simp only [nmeta] at this
    omega
  have blocks {other bn : Nat} (old : (other, some bn) ≠ (inum, place)) :
      bn < (update files inum ((files inum).grow place) other).blocks ↔
        bn < (files other).blocks := by
    obtain rfl | isInum := eq_or_ne other inum
    · rw [update_self]
      cases place with
      | none => rfl
      | some last =>
        have ne : bn ≠ last := fun equal => old (by rw [equal])
        have := next last rfl
        simp only [FileMap.grow]
        omega
    · rw [update_of_ne isInum]
  constructor
  case low => exact laid.low.trans (Nat.le_succ _)
  case bump => exact laid.bump.alloc (by decide) laid.low inside empty given same
  case data =>
    intro other otherInside bn
    by_cases isPlace : (other, some bn) = (inum, place)
    · obtain ⟨rfl, rfl⟩ := Prod.mk.inj isPlace
      obtain rfl := next bn rfl
      rw [given, update_self]
      exact iff_of_true nonzero (Nat.lt_succ_self _)
    rw [same _ otherInside isPlace, laid.data other otherInside bn, blocks isPlace]
  case indirect =>
    intro other otherInside
    by_cases isPlace : (other, none) = (inum, place)
    · obtain ⟨rfl, rfl⟩ := Prod.mk.inj isPlace
      rw [given, update_self]
      exact iff_of_true nonzero rfl
    rw [same _ otherInside isPlace, laid.indirect other otherInside]
    obtain rfl | isInum := eq_or_ne other inum
    · rw [update_self]
      cases place with
      | none => exact absurd rfl isPlace
      | some last => rfl
    · rw [update_of_ne isInum]
  case room =>
    intro other otherInside
    have room := laid.room other otherInside
    obtain rfl | isInum := eq_or_ne other inum
    · rw [update_self]
      cases place with
      | none => exact room
      | some last => exact room.trans (Nat.mul_le_mul_right _ (Nat.le_succ _))
    · rwa [update_of_ne isInum]
  case content =>
    intro other otherInside bn small j jSmall
    rw [field_update FileMap.content (by cases place <;> rfl)]
    by_cases isPlace : (other, some bn) = (inum, place)
    · obtain ⟨rfl, rfl⟩ := Prod.mk.inj isPlace
      rw [given, fresh freeblock le_rfl j jSmall, laid.fresh freeblock le_rfl j jSmall,
        laid.getD_eq_zero otherInside (next bn rfl).ge]
    have old := (blocks isPlace).mp small
    rw [same _ otherInside isPlace,
      kept other otherInside bn ((laid.data other otherInside bn).mpr old) j jSmall]
    exact laid.content other otherInside bn old j jSmall
  case fresh =>
    intro b high j jSmall
    rw [fresh b ((Nat.le_succ _).trans high) j jSmall]
    exact laid.fresh b ((Nat.le_succ _).trans high) j jSmall

theorem allocDirect (direct : bn < ndirect) (last : bn = (files inum).blocks)
    (empty : addrs inum bn = 0) (set : ∀ other < inodes, ∀ k ≤ ndirect,
      addrs' other k = if other = inum ∧ k = bn then freeblock else addrs other k) :
    Laid image (freeblock + 1) inodes addrs'
      (update files inum ((files inum).grow (some bn))) := by
  apply laid.alloc inside
  case next =>
    rintro _ ⟨⟩
    exact last
  case empty => rw [pointers_direct direct, empty]
  case given =>
    rw [pointers_direct direct, set inum inside bn direct.le, if_pos ⟨rfl, rfl⟩]
  case same =>
    rintro ⟨other, place⟩ otherInside different
    have indirect : addrs' other ndirect = addrs other ndirect := by
      rw [set other otherInside ndirect le_rfl, if_neg fun both => direct.ne both.2.symm]
    cases place with
    | none => exact indirect
    | some k =>
      by_cases kDirect : k < ndirect
      · rw [pointers_direct kDirect, pointers_direct kDirect, set other otherInside k kDirect.le,
          if_neg fun both => different (by rw [both.1, both.2])]
      · simp only [pointers, pointer, if_neg kDirect, indirect]
  case kept => exact fun _ _ _ _ _ _ => rfl
  case fresh => exact fun _ _ _ _ => rfl

theorem allocIndirect (empty : addrs inum ndirect = 0) (set : ∀ other < inodes, ∀ k ≤ ndirect,
      addrs' other k = if other = inum ∧ k = ndirect then freeblock else addrs other k) :
    Laid image (freeblock + 1) inodes addrs'
      (update files inum ((files inum).grow none)) := by
  apply laid.alloc inside
  case next => exact fun _ impossible => nomatch impossible
  case empty => exact empty
  case given => rw [pointers_none, set inum inside ndirect le_rfl, if_pos ⟨rfl, rfl⟩]
  case same =>
    rintro ⟨other, place⟩ otherInside different
    obtain rfl | isInum := eq_or_ne other inum
    · cases place with
      | none => exact absurd rfl different
      | some k =>
        by_cases direct : k < ndirect
        · rw [pointers_direct direct, pointers_direct direct, set other inside k direct.le,
            if_neg fun both => direct.ne both.2]
        -- the new indirect block is all zeros
        have behind := Nat.not_lt.mp direct
        rw [pointers_unmade behind empty, pointers, pointer, if_neg direct]
        split
        case isTrue small =>
          rw [set other inside ndirect le_rfl, if_pos ⟨rfl, rfl⟩]
          apply word_eq_zero
          intro offset offsetSmall
          apply laid.fresh freeblock le_rfl
          simp only [maxfile, nindirect, ndirect, bsize] at small ⊢
          omega
        case isFalse => rfl
    · apply pointers_congr (other, place)
      · intro k small
        rw [set other otherInside k small, if_neg fun both => isInum both.1]
      · exact fun _ _ _ => rfl
  case kept => exact fun _ _ _ _ _ _ => rfl
  case fresh => exact fun _ _ _ _ => rfl

theorem allocEntry (behind : ndirect ≤ bn) (small : bn < maxfile) (last : bn = (files inum).blocks)
    (made : addrs inum ndirect ≠ 0) (bounded : freeblock < 2 ^ 32) :
    Laid (setWord 4 image (addrs inum ndirect * bsize + 4 * (bn - ndirect)) freeblock)
      (freeblock + 1) inodes addrs
      (update files inum ((files inum).grow (some bn))) := by
  have fits : 4 * (bn - ndirect) + 4 ≤ bsize := by
    simp only [maxfile, nindirect, ndirect, bsize] at small behind ⊢
    omega
  have elsewhere : ∀ {b}, b ≠ addrs inum ndirect → ∀ j < bsize,
      setWord 4 image (addrs inum ndirect * bsize + 4 * (bn - ndirect)) freeblock (b * bsize + j) =
        image (b * bsize + j) := fun different j jSmall =>
    copy_block different.symm fits jSmall
  have empty : pointers image addrs (inum, some bn) = 0 := by
    by_contra points
    exact absurd ((laid.data inum inside bn).mp points) last.ge.not_gt
  have indirect := laid.lt_freeblock (inum, none) inside made
  apply laid.alloc inside
  case next =>
    rintro _ ⟨⟩
    exact last
  case empty => exact empty
  case given =>
    rw [pointers_indirect behind small made, entry, ← word_dropBytes, word_setWord_self]
    exact Nat.mod_eq_of_lt bounded
  case same =>
    rintro ⟨other, place⟩ otherInside different
    obtain rfl | isInum := eq_or_ne other inum
    · cases place with
      | none => rfl
      | some k =>
        by_cases direct : k < ndirect
        · rw [pointers_direct direct, pointers_direct direct]
        by_cases kSmall : k < maxfile
        · have kBehind := Nat.not_lt.mp direct
          have notSame : k ≠ bn := fun same => different (by rw [same])
          rw [pointers_indirect kBehind kSmall made, pointers_indirect kBehind kSmall made,
            entry, entry, ← word_dropBytes, ← word_dropBytes]
          exact word_setWord_other (by omega)
        · have large := Nat.not_lt.mp kSmall
          rw [pointers_large large, pointers_large large]
    apply pointers_congr (other, place) (fun _ _ => rfl)
    intro otherMade j jSmall
    refine elsewhere ?_ j jSmall
    exact laid.ne_of_ne (other, none) (inum, none) otherInside inside otherMade
      fun same => isInum (Prod.mk.inj same).1
  case kept =>
    intro other otherInside k points j jSmall
    refine elsewhere (laid.ne_of_ne (other, some k) (inum, none) otherInside inside points ?_) j jSmall
    exact fun same => nomatch (Prod.mk.inj same).2
  case fresh =>
    intro b high j jSmall
    exact elsewhere (indirect.2.trans_le high).ne' j jSmall

theorem append (mine : bn < (files inum).blocks)
    (length : (files inum).content.length = bn * bsize + offset) (fits : offset + n ≤ bsize)
    (enough : n ≤ p.length) :
    Laid (copy image (pointers image addrs (inum, some bn) * bsize + offset) n (ofList p))
      freeblock inodes addrs (update files inum
        { files inum with content := (files inum).content ++ p.take n }) := by
  have points := (laid.data inum inside bn).mpr mine
  have x := laid.lt_freeblock (inum, some bn) inside points
  have same : ∀ ref : Ref, ref.1 < inodes →
      pointers (copy image (pointers image addrs (inum, some bn) * bsize + offset) n (ofList p))
        addrs ref = pointers image addrs ref := by
    intro ref refInside
    apply pointers_congr ref (fun _ _ => rfl)
    intro made j jSmall
    refine copy_block ?_ fits jSmall
    exact laid.ne_of_ne (inum, some bn) (ref.1, none) inside refInside points
      fun equal => nomatch (Prod.mk.inj equal).2
  constructor
  case low => exact laid.low
  case bump => exact laid.bump.congr same
  case data =>
    intro other otherInside k
    rw [same _ otherInside, laid.data other otherInside k, field_update FileMap.blocks (by rfl)]
  case indirect =>
    intro other otherInside
    rw [same _ otherInside, laid.indirect other otherInside, field_update FileMap.indirect (by rfl)]
  case room =>
    intro other otherInside
    by_cases isInum : other = inum
    · rw [isInum, update_self]
      have := Nat.mul_le_mul_right bsize (Nat.succ_le_of_lt mine)
      simp only [List.length_append, List.length_take, length]
      simp only [bsize] at fits this ⊢
      omega
    · rw [update_of_ne isInum]
      exact laid.room other otherInside
  case content =>
    intro other otherInside k small j jSmall
    rw [same _ otherInside]
    obtain rfl | isInum := eq_or_ne other inum
    · rw [update_self] at small ⊢
      have old := laid.content other inside k small j jSmall
      rw [getD_append_take enough, length]
      obtain rfl | isBlock := eq_or_ne k bn
      · by_cases written : offset ≤ j ∧ j < offset + n
        · rw [copy_inside (by omega) (by omega), if_pos (by omega), ofList,
            Nat.add_sub_add_left, Nat.add_sub_add_left]
        · rw [copy_outside (by omega), if_neg (by omega), old]
      have different := laid.ne_of_ne (other, some bn) (other, some k) inside inside points
        fun equal => isBlock (by cases equal; rfl)
      have outside : ¬ (bn * bsize + offset ≤ k * bsize + j ∧
          k * bsize + j < bn * bsize + offset + n) := by
        simp only [bsize] at fits jSmall ⊢
        omega
      rw [copy_block different fits jSmall, old, if_neg outside]
    rw [update_of_ne isInum] at small ⊢
    rw [copy_block _ fits jSmall]
    · exact laid.content other otherInside k small j jSmall
    · exact laid.ne_of_ne (inum, some bn) (other, some k) inside otherInside points
        fun equal => isInum (Prod.mk.inj equal).1.symm
  case fresh =>
    intro b high j jSmall
    rw [copy_block (x.2.trans_le high).ne fits jSmall]
    exact laid.fresh b high j jSmall

end

end

end Laid

end Xv6.Mkfs
