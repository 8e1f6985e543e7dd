import Xv6.Vault.Calls

/-!
# What `mkvault` checks

`mkvault` compares the result of `isdirempty` with -1, which `isdirempty` never
returns. So every path that exists is marked, or the kernel panics: nothing is ever
refused.
-/

namespace Xv6.Vault

open Xv6.Semantics Xv6.Disk

variable {sb : Superblock} {store store' : Store} {dp dp' : Disk.Inode} {kernel kernel' : Kernel}
  {s : Slot} {fuel off : Nat} {result : Int}

/-! ## Directories -/

/-- The name of a directory entry. -/
def HasName (dirent : Bytes) (name : List UInt8) : Prop :=
  ∀ i < dirsiz, direntName dirent i = ofList name i

/-- A directory with no entries besides "." and "..". -/
def EmptyDirectory (sb : Superblock) (image : Bytes) (inum : Nat) : Prop :=
  let dip := inodeAt sb image inum
  dinodeType dip = tDir ∧
    ∀ k, direntSize * k < fileSize dip →
      let dirent := dropBytes (fileByte image (addr dip)) (direntSize * k)
      direntInum dirent ≠ 0 → HasName dirent [46] ∨ HasName dirent [46, 46]

/-! ## The calls -/

theorem emptyLoop_result (ran : emptyLoop sb fuel store dp off = some (store', dp', result)) :
    result = 0 ∨ result = 1 := by
  induction fuel generalizing store dp off with
  | zero => cases ran
  | succ fuel ih =>
    rw [emptyLoop] at ran
    split at ran
    · obtain ⟨⟨transfer, count⟩, -, rest⟩ := Option.bind_eq_some_iff.mp ran
      simp only at rest
      split at rest
      · cases rest
      · split at rest
        · cases rest
          exact .inl rfl
        · exact ih rest
    · cases ran
      exact .inr rfl

theorem mkvault_result (isInode : kernel.mkv = some s)
    (ran : mkvault sb kernel = some (kernel', result)) :
    result = 0 ∧ (kernel'.table s).isVault = true := by
  unfold mkvault at ran
  rw [isInode, Option.bind_some] at ran
  obtain ⟨⟨store, dp, empty⟩, checked, rest⟩ := Option.bind_eq_some_iff.mp ran
  have notFailed : empty ≠ -1 := by
    rcases emptyLoop_result checked with rfl | rfl <;> decide
  simp only [if_neg notFailed] at rest
  obtain ⟨⟨kernel, st⟩, -, same⟩ := Option.map_eq_some_iff.mp rest
  cases same
  exact ⟨rfl, by simp [Kernel.setEntry]⟩

theorem sysMkvault_found (ran : sysMkvault sb kernel (.found s) = some (kernel', result)) :
    result = 0 ∧ (kernel'.table s).isVault = true := by
  obtain ⟨first, -, rest⟩ := Option.bind_eq_some_iff.mp ran
  obtain ⟨⟨second, st⟩, -, last⟩ := Option.bind_eq_some_iff.mp rest
  exact mkvault_result rfl last

/-! ## The check -/

/-- The marks of an entry and the inodes on the disk are as before. -/
structure Untouched (sb : Superblock) (kernel kernel' : Kernel) (s : Slot) : Prop where
  isVault : (kernel'.table s).isVault = (kernel.table s).isVault
  vaultId : (kernel'.table s).vaultId = (kernel.table s).vaultId
  vaultOpen : (kernel'.table s).vaultOpen = (kernel.table s).vaultOpen
  disk : ∀ inum, ∀ j < dinodeSize,
    inodeAt sb kernel'.store.image inum j = inodeAt sb kernel.store.image inum j

/-- `sys_mkvault` marks empty directories only, and refuses everything else. -/
def ChecksDirectory (sb : Superblock) (kernel : Kernel) (s : Slot) : Prop :=
  (∀ kernel', sysMkvault sb kernel (.found s) = some (kernel', 0) →
    (kernel'.table s).isVault = true →
      EmptyDirectory sb kernel.store.image (kernel.table s).inum) ∧
  (¬ EmptyDirectory sb kernel.store.image (kernel.table s).inum →
    ∃ kernel', sysMkvault sb kernel (.found s) = some (kernel', -1) ∧
      Untouched sb kernel kernel' s)

/-- The check is met by the empty directories alone. -/
theorem checksDirectory_iff (sb : Superblock) (kernel : Kernel) (s : Slot) :
    ChecksDirectory sb kernel s ↔
      EmptyDirectory sb kernel.store.image (kernel.table s).inum := by
  constructor
  · rintro ⟨-, refuses⟩
    by_contra notEmpty
    obtain ⟨kernel', ran, -⟩ := refuses notEmpty
    obtain ⟨isZero, -⟩ := sysMkvault_found ran
    cases isZero
  · intro empty
    exact ⟨fun _ _ _ => empty, fun notEmpty => absurd empty notEmpty⟩

/-! ## A file -/

/-- A disk on which the only inode is a file of five bytes with the number 2. -/
def fileImage : Bytes :=
  copy (fun _ => 0) (32 * bsize + 2 * dinodeSize) dinodeSize
    (setSize (setNlink (setType (fun _ => 0) tFile) 1) 5)

/-- A disk of 100 blocks. -/
def fileDisk : Superblock := ⟨fsmagic, 100, 66, 16, 30, 2, 32, 33⟩

/-- The entry of the file, loaded from the disk. -/
def fileEntry : Entry where
  inum := 2
  valid := true
  isVault := false
  vaultOpen := false
  type := tFile
  major := 0
  minor := 0
  nlink := 1
  size := 5
  addrs := fun _ => 0
  dev := rootdev
  ref := 1
  vaultId := 0

/-- The kernel with the file in the first entry and nothing in the others. -/
def fileKernel : Kernel where
  store := ⟨fileImage, ⟨0, []⟩⟩
  table := fun s => { fileEntry with ref := if s = 0 then 1 else 0 }
  mkv := none
  st := none
  pages := 2

/-- A file is marked as a vault, and 0 is returned. -/
theorem sysMkvault_file :
    dinodeType (inodeAt fileDisk fileKernel.store.image fileEntry.inum) = tFile ∧
    ∃ kernel', sysMkvault fileDisk fileKernel (.found 0) = some (kernel', 0) ∧
      (kernel'.table 0).isVault = true ∧ ¬ ChecksDirectory fileDisk fileKernel 0 := by
  have isFile : dinodeType (inodeAt fileDisk fileKernel.store.image fileEntry.inum) = tFile := by
    decide +kernel
  have returns : (sysMkvault fileDisk fileKernel (.found 0)).isSome = true := by decide +kernel
  obtain ⟨⟨kernel', result⟩, ran⟩ := Option.isSome_iff_exists.mp returns
  obtain ⟨rfl, marked⟩ := sysMkvault_found ran
  refine ⟨isFile, kernel', ran, marked, fun checks => ?_⟩
  have isDirectory := (checks.1 kernel' ran marked).1
  change dinodeType (inodeAt fileDisk fileKernel.store.image fileEntry.inum) = tDir at isDirectory
  cases isDirectory

end Xv6.Vault
