import Xv6.Disk.Reading
import Xv6.Mkfs.Finish

/-!
# The kernel reads what `mkfs` has written

The two programs share the structures of `fs.h` and nothing else. The kernel finds the
superblock, the inode of each file and its bytes where `mkfs` has put them.
-/

namespace Xv6.Mkfs

open Xv6.Semantics Xv6.Disk

variable {state : State} {files : List File} {inum : Nat} {entry : Inode}

/-! ## The superblock and the inodes -/

theorem fsinit_blank : fsinit blank.image = some sb := by decide +kernel

theorem Finished.fsinit (finished : Finished state files) : fsinit state.image = some sb := by
  have same : readsb state.image = readsb blank.image := by
    have field : ∀ i < 8, Disk.entry (bread state.image 1) i = Disk.entry (bread blank.image 1) i := by
      intro i small
      apply word_congr
      intro offset inside
      apply finished.front
      have : sb.inodestart * bsize = 32768 := by decide
      rw [this, bsize]
      omega
    simp only [readsb, field 0 (by decide), field 1 (by decide), field 2 (by decide),
      field 3 (by decide), field 4 (by decide), field 5 (by decide), field 6 (by decide),
      field 7 (by decide)]
  rw [Disk.fsinit, same]
  exact fsinit_blank

/-- The inode of a file in the memory of the kernel. -/
def loaded (entry : Inode) (image : Bytes) (inum : Nat) : Inode where
  inum := inum
  valid := true
  isVault := entry.isVault
  vaultOpen := entry.vaultOpen
  type := dinodeType (inodeAt sb image inum)
  major := dinodeMajor (inodeAt sb image inum)
  minor := dinodeMinor (inodeAt sb image inum)
  nlink := nlink (inodeAt sb image inum)
  size := fileSize (inodeAt sb image inum)
  addrs := diskRows image inum

theorem Finished.ilock (finished : Finished state files) (positive : 0 < inum)
    (inside : inum < state.freeinode) :
    ilock sb state.image (iget entry inum) = some (loaded entry state.image inum) := by
  have typed : dinodeType (inodeAt sb state.image inum) ≠ 0 := by
    rw [finished.types inum positive inside, typeOf]
    split <;> decide
  have found : dropBytes (bread state.image (iblock inum sb)) (dinodeSize * (inum % ipb)) =
      inodeAt sb state.image inum := dropBytes_dropBytes _ _
  simp only [Disk.ilock, iget, Bool.false_eq_true, if_false, found, if_neg typed]
  rfl

/-! ## The bytes -/

theorem Finished.backed (finished : Finished state files) (inside : inum < state.freeinode)
    (within : high ≤ (contentsOf files inum).length) :
    Backed state.image (diskRows state.image inum) (ofList (contentsOf files inum)) low high := by
  intro pos _ below
  have index : pos / bsize < blocksFor (contentsOf files inum).length := by
    simp only [blocksFor, bsize]
    omega
  refine ⟨(finished.laid.data inum inside _).mpr index, ?_⟩
  have byte := finished.laid.content inum inside _ index (pos % bsize) (Nat.mod_lt _ (by decide))
  rw [Nat.div_add_mod'] at byte
  exact byte

/-- The bytes of a file from an offset on, as many as there are. -/
def window (content : List UInt8) (off n : Nat) : List UInt8 := (content.drop off).take n

/-- `readi` returns the bytes of the file at every offset, into memory that is mapped,
and changes nothing else. -/
def Reads (image : Bytes) (ip : Inode) (content : List UInt8) : Prop :=
  ∀ log mapped memory dst off n, off + n < 2 ^ 32 → (∀ i < n, mapped (dst + i) = true) →
    readi sb mapped ⟨image, log⟩ ip memory dst off n =
      some ((⟨⟨image, log⟩, ip.addrs, copy memory dst (window content off n).length
        (ofList (window content off n))⟩ : Transfer), ((window content off n).length : Int))

theorem window_length (content : List UInt8) (off n : Nat) :
    (window content off n).length = min n (content.length - off) := by
  rw [window, List.length_take, List.length_drop]

theorem copy_window (content : List UInt8) (off n : Nat) :
    copy memory dst (min n (content.length - off)) (dropBytes (ofList content) off) =
      copy memory dst (window content off n).length (ofList (window content off n)) := by
  rw [window_length]
  apply copy_congr
  intro offset inside
  rw [dropBytes, ofList, ofList, window, List.getD_eq_getElem?_getD, List.getD_eq_getElem?_getD,
    List.getElem?_take_of_lt (by omega), List.getElem?_drop]

theorem Finished.reads (finished : Finished state files) (inside : inum < state.freeinode)
    (notRoot : inum ≠ rootino) (opened : entry.isVault = true → entry.vaultOpen = true) :
    Reads state.image (loaded entry state.image inum) (contentsOf files inum) := by
  intro log mapped memory dst off n fits isMapped
  have size : (loaded entry state.image inum).size = (contentsOf files inum).length :=
    finished.sizes inum inside notRoot
  have short : (window (contentsOf files inum) off n).length < 2 ^ 31 := by
    have := finished.small inum inside
    rw [window_length]
    simp only [maxfile, ndirect, nindirect, bsize] at this
    omega
  have backed : Backed (Store.mk state.image log).image (loaded entry state.image inum).addrs
      (ofList (contentsOf files inum)) off (min (off + n) (loaded entry state.image inum).size) :=
    finished.backed inside (by omega)
  have notClosed : (loaded entry state.image inum).isVault = true →
    (loaded entry state.image inum).vaultOpen = true := opened
  rw [readi_eq notClosed backed (fun i inside => isMapped i (by omega)) fits, size, copy_window, ← window_length, asInt_of_lt short]

/-! ## The root directory -/

theorem rootContent_getD {names : List (List UInt8)} (inside : k < names.length)
    (small : j < direntSize) :
    (rootContent names).getD (direntSize * k + j) 0 = dirent (max k 1) (names.getD k []) j := by
  induction names using List.reverseRecOn with
  | nil => exact absurd inside (Nat.not_lt_zero _)
  | append_singleton names name ih =>
    rw [rootContent_append]
    by_cases old : k < names.length
    · have before : direntSize * k + j < (rootContent names).length := by
        rw [rootContent_length]
        exact Nat.lt_of_lt_of_le (Nat.add_lt_add_left small _)
          (Nat.mul_le_mul_left direntSize old)
      rw [List.getD_append _ _ _ _ before, List.getD_append _ _ _ _ old]
      exact ih old
    rw [List.length_append, List.length_singleton] at inside
    have last : k = names.length := by omega
    rw [List.getD_append_right _ _ _ _ (by rw [rootContent_length, last]; omega),
      rootContent_length, last, Nat.add_sub_cancel_left,
      List.getD_append_right _ _ _ _ le_rfl, Nat.sub_self, direntBytes,
      List.getD_eq_getElem?_getD, List.getElem?_map, List.getElem?_range small]
    rfl

/-- The entry that the kernel reads in the root directory for an argument. -/
theorem Finished.readi_root (finished : Finished state files)
    (opened : entry.isVault = true → entry.vaultOpen = true)
    (argument : files[i]? = some file) (log : Log) (memory : Bytes) (dst : Nat) :
    readi sb (fun _ => true) ⟨state.image, log⟩ (loaded entry state.image rootino) memory dst
        (direntSize * (i + 2)) direntSize =
      some (⟨⟨state.image, log⟩, (loaded entry state.image rootino).addrs,
        copy memory dst direntSize (dirent (i + 2) file.shortname)⟩, asInt direntSize) := by
  have small : i < files.length := (List.getElem?_eq_some_iff.mp argument).1
  have rootInside : rootino < state.freeinode := by
    rw [finished.count, rootino]
    omega
  have length : (contentsOf files rootino).length = direntSize * (files.length + 2) := by
    rw [contentsOf_root, rootContent_length, names_length]
  have within : direntSize * (i + 2) + direntSize ≤ (contentsOf files rootino).length := by
    rw [length, direntSize]
    omega
  have size : (contentsOf files rootino).length ≤ (loaded entry state.image rootino).size := by
    change _ ≤ fileSize (inodeAt sb state.image rootino)
    rw [finished.rootSize, bsize]
    omega
  have bound := finished.small rootino rootInside
  simp only [maxfile, ndirect, nindirect, bsize] at bound
  have backed : Backed (Store.mk state.image log).image (loaded entry state.image rootino).addrs
      (ofList (contentsOf files rootino)) (direntSize * (i + 2))
      (min (direntSize * (i + 2) + direntSize) (loaded entry state.image rootino).size) :=
    finished.backed rootInside ((Nat.min_le_left _ _).trans within)
  have notClosed : (loaded entry state.image rootino).isVault = true →
    (loaded entry state.image rootino).vaultOpen = true := opened
  rw [readi_eq notClosed backed (fun _ _ => rfl) (by omega),
    Nat.min_eq_left (by omega)]
  congr 3
  apply copy_congr
  intro j inside
  have name : (names files).getD (i + 2) [] = file.shortname := by
    simp [names, argument]
  rw [dropBytes, ofList, contentsOf_root, rootContent_getD (by rw [names_length]; omega) inside,
    name, Nat.max_eq_left (by omega)]

/-- The kernel reads what `mkfs` has written: the root directory names the inode of
each argument, whose size is the number of bytes that were appended to it, and `readi`
returns these bytes at every offset. -/
theorem readi_of_main (files : List File) (room : files.length + 2 ≤ inodeCapacity)
    (entry : Inode) (opened : entry.isVault = true → entry.vaultOpen = true) :
    Outcome (Refused files) (fun state =>
      fsinit state.image = some sb ∧
      ∃ root, ilock sb state.image (iget entry rootino) = some root ∧
      ∀ i file, files[i]? = some file →
        (∀ log memory dst, readi sb (fun _ => true) ⟨state.image, log⟩ root memory dst
          (direntSize * (i + 2)) direntSize =
            some (⟨⟨state.image, log⟩, root.addrs,
              copy memory dst direntSize (dirent (i + 2) file.shortname)⟩, asInt direntSize)) ∧
        ∃ ip, ilock sb state.image (iget entry (i + 2)) = some ip ∧
          ip.size = file.content.length ∧ Reads state.image ip file.content)
      (main files) := by
  refine (main_outcome room).mono id fun state finished => ?_
  have rootInside : rootino < state.freeinode := by
    rw [finished.count, rootino]
    omega
  refine ⟨finished.fsinit, _, finished.ilock (by decide) rootInside, ?_⟩
  intro i file argument
  have inside : i + 2 < state.freeinode := by
    have small : i < files.length := (List.getElem?_eq_some_iff.mp argument).1
    rw [finished.count]
    omega
  have notRoot : i + 2 ≠ rootino := by
    rw [rootino]
    omega
  have content : contentsOf files (i + 2) = file.content := by
    rw [contentsOf, if_neg notRoot, if_pos (by omega), Nat.add_sub_cancel, argument]
    rfl
  refine ⟨finished.readi_root opened argument, _, finished.ilock (by omega) inside, ?_, ?_⟩
  · rw [← content]
    exact finished.sizes _ inside notRoot
  · rw [← content]
    exact finished.reads inside notRoot opened

/-- A file of three bytes that is read in two parts. -/
def note : File where
  argument := [110, 111, 116, 101]
  terminated := by decide +kernel
  chunks := some [[65], [66, 67]]

/-- An entry of the inode table that has not been used. -/
def unused : Inode := ⟨0, false, false, false, 0, 0, 0, 0, 0, fun _ => 0⟩

theorem readi_of_main_note : ∃ state, main [note] = some state ∧
    ∃ ip, ilock sb state.image (iget unused 2) = some ip ∧ ip.size = 3 ∧
      readi sb (fun _ => true) ⟨state.image, ⟨0, []⟩⟩ ip (fun _ => 0) 0 1 7 =
        some (⟨⟨state.image, ⟨0, []⟩⟩, ip.addrs, copy (fun _ => 0) 0 2 (ofList [66, 67])⟩, 2) := by
  have accepted : ¬ Refused [note] := by decide +kernel
  obtain ⟨state, made, -, root, -, read⟩ :=
    (readi_of_main [note] (by decide) unused (by decide)).returns accepted
  obtain ⟨-, ip, loaded, size, reads⟩ := read 0 note rfl
  exact ⟨state, made, ip, loaded, size, reads _ _ _ 0 1 7 (by decide) fun _ _ => rfl⟩

/-- An offset and a length whose sum does not fit in a `uint`: `readi` returns nothing
although there are two bytes behind the offset. -/
theorem readi_overflow : ∃ state, main [note] = some state ∧
    ∃ ip, ilock sb state.image (iget unused 2) = some ip ∧
      readi sb (fun _ => true) ⟨state.image, ⟨0, []⟩⟩ ip (fun _ => 0) 0 1 (2 ^ 32 - 1) =
        some (⟨⟨state.image, ⟨0, []⟩⟩, ip.addrs, fun _ => 0⟩, 0) ∧
      window note.content 1 (2 ^ 32 - 1) = [66, 67] := by
  have accepted : ¬ Refused [note] := by decide +kernel
  obtain ⟨state, made, finished⟩ := (main_outcome (show [note].length + 2 ≤ inodeCapacity by
    decide)).returns accepted
  have inside : 2 < state.freeinode := by
    rw [finished.count]
    decide
  refine ⟨state, made, _, finished.ilock (by decide) inside, ?_, by decide +kernel⟩
  have notClosed : ¬ (false && !false) = true := by decide
  have overflows : (1 + (2 ^ 32 - 1)) % 2 ^ 32 < 1 := by decide
  rw [readi, loaded, unused, if_neg notClosed, if_pos (.inr overflows)]

end Xv6.Mkfs
