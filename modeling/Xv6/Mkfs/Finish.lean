import Xv6.Mkfs.Image

/-!
# The finished image

At its end `main` rounds the size of the root directory up and writes the bitmap.
-/

namespace Xv6.Mkfs

open Xv6.Semantics Xv6.Disk

variable {state : State} {files : List File}

/-- The image that `main` leaves behind. -/
structure Finished (state : State) (files : List File) : Prop where
  laid : Laid state.image state.freeblock state.freeinode (diskRows state.image)
    fun inum => tight (contentsOf files inum)
  sizes : ∀ inum < state.freeinode, inum ≠ rootino →
    fileSize (inodeAt sb state.image inum) = (contentsOf files inum).length
  types : ∀ inum, 0 < inum → inum < state.freeinode →
    dinodeType (inodeAt sb state.image inum) = typeOf inum
  rootSize : fileSize (inodeAt sb state.image rootino) =
    ((contentsOf files rootino).length / bsize + 1) * bsize
  small : ∀ inum < state.freeinode, (contentsOf files inum).length ≤ maxfile * bsize
  count : state.freeinode = files.length + 2
  bounded : state.freeblock ≤ fssize
  front : ∀ a < sb.inodestart * bsize, state.image a = blank.image a
  bitmap : ∀ j < bsize, state.image (sb.bmapstart * bsize + j) = bitmap state.freeblock j

theorem finish_finished (holds : Holds state (contentsOf files))
    (count : state.freeinode = files.length + 2) :
    ∃ after, finish state = some after ∧ Finished after files := by
  have inside : rootino < state.freeinode := by
    rw [count, rootino]
    omega
  have small : rootino < inodeCapacity := by decide
  obtain ⟨din, din_eq⟩ : ∃ din, din = setSize (inodeAt sb state.image rootino)
    (((contentsOf files rootino).length / bsize + 1) * bsize) := ⟨_, rfl⟩
  obtain ⟨sized, sized_eq⟩ : ∃ sized, sized =
    copy state.image (inodeAddress rootino) dinodeSize din := ⟨_, rfl⟩
  obtain ⟨image, image_eq⟩ : ∃ image, image =
    copy sized (sb.bmapstart * bsize) bsize (bitmap state.freeblock) := ⟨_, rfl⟩
  have ran : finish state = some ⟨image, state.freeinode, state.freeblock⟩ := by
    have bits : state.freeblock < bsize * 8 := holds.bounded.trans_lt (by decide)
    rw [finish, rinode_eq small]
    simp only [Option.bind_eq_bind, Option.bind_some, holds.sizes rootino inside, ← din_eq,
      winode_eq small, ← sized_eq, balloc, check, bits, decide_true, if_true, image_eq]
    rfl
  have low : inodeAddress rootino + dinodeSize ≤ sb.bmapstart * bsize := by decide
  have order : sb.bmapstart * bsize + bsize ≤ nmeta * bsize := by decide
  have inode : ∀ {other width offset}, other < inodeCapacity → offset + width ≤ dinodeSize →
      word width (inodeAt sb image other) offset =
        if other = rootino then word width din offset
        else word width (inodeAt sb state.image other) offset := by
    intro other width offset otherSmall fits
    have front : ∀ a < sb.bmapstart * bsize, image a = sized a := by
      intro a aLow
      rw [image_eq, copy_outside (.inl aLow)]
    rw [word_inodeAt_congr otherSmall fits front, sized_eq]
    exact word_inodeAt_copy fits
  refine ⟨_, ran, ?_⟩
  constructor
  case laid =>
    refine holds.laid.congr (fun other otherInside i iSmall => ?_) fun a high => ?_
    · rw [diskRows, addr, inode (otherInside.trans_le holds.capacity) (addr_inside iSmall)]
      by_cases isRoot : other = rootino
      · rw [if_pos isRoot, din_eq, setSize, word_setWord_other (by omega), isRoot]
        rfl
      · rw [if_neg isRoot]
        rfl
    · change image a = _
      rw [image_eq, copy_outside (by omega), sized_eq, copy_outside (by omega)]
  case sizes =>
    intro other otherInside notRoot
    rw [fileSize, inode (otherInside.trans_le holds.capacity) (by decide), if_neg notRoot]
    exact holds.sizes other otherInside
  case types =>
    intro other positive otherInside
    rw [← holds.types other positive otherInside, dinodeType,
      inode (otherInside.trans_le holds.capacity) (by decide)]
    by_cases isRoot : other = rootino
    · rw [if_pos isRoot, isRoot, din_eq, setSize, word_setWord_other (by omega)]
      rfl
    · rw [if_neg isRoot]
      rfl
  case rootSize =>
    rw [fileSize, inode small (by decide), if_pos rfl, din_eq, setSize, word_setWord_self]
    have bound := holds.small rootino inside
    simp only [maxfile, nindirect, ndirect, bsize] at bound ⊢
    omega
  case small => exact holds.small
  case count => exact count
  case bounded => exact holds.bounded
  case front =>
    intro a aLow
    have first : sb.inodestart * bsize ≤ inodeAddress rootino := by decide
    change image a = _
    rw [image_eq, copy_outside (.inl (by omega)), sized_eq, copy_outside (.inl (by omega))]
    exact holds.front a aLow
  case bitmap =>
    intro j jSmall
    change image _ = _
    rw [image_eq, copy_add j jSmall]

/-- `main` builds the image of all its arguments when they fit in the inode blocks,
unless one is refused or there is no room. -/
theorem main_outcome (room : files.length + 2 ≤ inodeCapacity) :
    Outcome (Refused files) (fun state => Finished state files) (main files) := by
  obtain ⟨root, made, rootHolds, rootCount⟩ := makeRoot_holds
  have added : Outcome (Refused ([] ++ files))
      (fun after => Holds after (contentsOf ([] ++ files)) ∧
        after.freeinode = ([] ++ files).length + 2) (files.foldlM addFile root) :=
    addFiles_outcome rootHolds rootCount room
  rw [main, made]
  apply added.bind id
  rintro state ⟨holds, count⟩
  obtain ⟨after, finished, image⟩ := finish_finished holds count
  rw [finished]
  exact .some image

end Xv6.Mkfs
