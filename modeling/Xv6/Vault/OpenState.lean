import Xv6.Vault.Calls

/-!
# The open state of vaults

`openvault` and `closevault` set the flag of the one `struct stat`, whatever their path
is, and write the entry of the vault of the last `mkvault` back to the disk, without
having loaded it. They act on the named vault, and leave the disk alone, if the path
names that vault and its entry holds what is on the disk.
-/

namespace Xv6.Vault

open Xv6.Semantics Xv6.Disk

variable {sb : Superblock} {kernel kernel' : Kernel} {s : Slot} {st : Stat} {value : Bool}
  {named : Option Nat}

/-! ## Vaults -/

/-- An inode is marked as a vault in the inode table. -/
def Kernel.Marked (kernel : Kernel) (inum : Nat) : Prop :=
  ∃ s, 0 < (kernel.table s).ref ∧ (kernel.table s).inum = inum ∧ (kernel.table s).isVault = true

/-- The open state of a vault: what `st` says of the vault that it is about. -/
def Kernel.IsOpen (kernel : Kernel) (inum : Nat) : Prop :=
  ∃ s st, kernel.mkv = some s ∧ (kernel.table s).inum = inum ∧ kernel.st = some st ∧
    st.vaultOpen = true

/-- The type, size, link count and addresses of every inode on the disk are the same. -/
structure SameInodes (sb : Superblock) (image changed : Bytes) : Prop where
  type : ∀ inum, dinodeType (inodeAt sb changed inum) = dinodeType (inodeAt sb image inum)
  size : ∀ inum, fileSize (inodeAt sb changed inum) = fileSize (inodeAt sb image inum)
  nlink : ∀ inum, nlink (inodeAt sb changed inum) = nlink (inodeAt sb image inum)
  addrs : ∀ inum, ∀ i ≤ ndirect,
    addr (inodeAt sb changed inum) i = addr (inodeAt sb image inum) i

/-- An entry of the table holds what is on the disk. -/
structure InSync (sb : Superblock) (image : Bytes) (ip : Disk.Inode) : Prop where
  type : ip.type % 2 ^ 16 = dinodeType (inodeAt sb image ip.inum)
  size : ip.size % 2 ^ 32 = fileSize (inodeAt sb image ip.inum)
  nlink : ip.nlink % 2 ^ 16 = Disk.nlink (inodeAt sb image ip.inum)
  addrs : ∀ i ≤ ndirect, ip.addrs i % 2 ^ 32 = addr (inodeAt sb image ip.inum) i

/-- A field of the inodes is the same after `iupdate` if it has nothing new to write there. -/
theorem field_same_iff
    (ran : iupdate sb store ip = some store') (inside : offset + width ≤ dinodeSize) :
    (∀ inum, word width (inodeAt sb store'.image inum) offset =
        word width (inodeAt sb store.image inum) offset) ↔
      word width (dinodeBytes ip) offset = word width (inodeAt sb store.image ip.inum) offset := by
  constructor
  · intro same
    rw [← same, word_inodeAt_iupdate ran inside, if_pos rfl]
  intro sync inum
  rw [word_inodeAt_iupdate ran inside]
  split
  · rename_i isInum
    rw [sync, isInum]
  · rfl

/-- `iupdate` leaves the inodes on the disk alone if it has nothing new to write. -/
theorem sameInodes_iff (ran : iupdate sb store ip = some store') :
    SameInodes sb store.image store'.image ↔ InSync sb store.image ip := by
  have inside {i : Nat} (small : i ≤ ndirect) : 12 + 4 * i + 4 ≤ dinodeSize := by
    simp only [ndirect, dinodeSize] at small ⊢
    omega
  constructor
  · intro same
    constructor
    case type =>
      exact (dinodeType_dinodeBytes ip).symm.trans ((field_same_iff ran (by decide)).mp same.type)
    case size =>
      exact (fileSize_dinodeBytes ip).symm.trans ((field_same_iff ran (by decide)).mp same.size)
    case nlink =>
      exact (nlink_dinodeBytes ip).symm.trans ((field_same_iff ran (by decide)).mp same.nlink)
    case addrs =>
      intro i small
      exact (addr_dinodeBytes ip small).symm.trans
        ((field_same_iff ran (inside small)).mp fun inum => same.addrs inum i small)
  intro sync
  constructor
  case type =>
    exact (field_same_iff ran (by decide)).mpr ((dinodeType_dinodeBytes ip).trans sync.type)
  case size =>
    exact (field_same_iff ran (by decide)).mpr ((fileSize_dinodeBytes ip).trans sync.size)
  case nlink =>
    exact (field_same_iff ran (by decide)).mpr ((nlink_dinodeBytes ip).trans sync.nlink)
  case addrs =>
    intro inum i small
    exact (field_same_iff ran (inside small)).mpr
      ((addr_dinodeBytes ip small).trans (sync.addrs i small)) inum

/-! ## The calls -/

/-- A call of the vault interface. The path of `openvault` and of `closevault` names an
inode, or nothing, and may be unreadable. -/
inductive Command where
  | mkvault (path : Lookup)
  | openvault (readable : Bool) (named : Option Nat)
  | closevault (readable : Bool) (named : Option Nat)

/-- The result of a call. -/
def Command.run (sb : Superblock) (kernel : Kernel) : Command → Option (Kernel × Int)
  | .mkvault path => sysMkvault sb kernel path
  | .openvault readable _ => sysOpenvault sb kernel readable
  | .closevault readable _ => sysClosevault sb kernel readable

/-- A predicate holds of each call of a sequence in the state that the call finds. -/
def AtEachCall (sb : Superblock) (holds : Kernel → Command → Prop) : Kernel → List Command → Prop
  | _, [] => True
  | kernel, command :: rest =>
    holds kernel command ∧
      ∀ kernel' result, command.run sb kernel = some (kernel', result) →
        AtEachCall sb holds kernel' rest

/-- A call that sets the open state acts on the vault it names: it returns; if it is
successful, the state of that vault has changed to the value and that of no other vault
has; it returns -1 and changes nothing if its path is not a vault or has the value
already; and it does not change the inodes on the disk. -/
def ActsOnNamed (sb : Superblock) (kernel : Kernel) (outcome : Option (Kernel × Int))
    (named : Option Nat) (value : Bool) : Prop :=
  ∃ kernel' result, outcome = some (kernel', result) ∧
    (result = 0 → ∃ inum, named = some inum ∧ kernel.Marked inum ∧
      ¬ (kernel.IsOpen inum ↔ value = true) ∧ (kernel'.IsOpen inum ↔ value = true) ∧
      ∀ other, other ≠ inum → kernel.Marked other → (kernel'.IsOpen other ↔ kernel.IsOpen other)) ∧
    ((∀ inum, named = some inum → ¬ kernel.Marked inum ∨ (kernel.IsOpen inum ↔ value = true)) →
      result = -1 ∧ kernel' = kernel) ∧
    SameInodes sb kernel.store.image kernel'.store.image

/-- The call finds the state it asks for, or its path names the vault of the last
`mkvault`, whose entry holds what is on the disk, and there is a transaction. -/
def Safe (sb : Superblock) (kernel : Kernel) (named : Option Nat) (value : Bool) : Prop :=
  ∃ s st, kernel.mkv = some s ∧ kernel.st = some st ∧
    (st.isVault = true → st.vaultOpen ≠ value →
      named = some (kernel.table s).inum ∧ kernel.Marked (kernel.table s).inum ∧
        ¬ kernel.store.log.Refuses sb ∧ InSync sb kernel.store.image (kernel.table s).toInode)

theorem actsOnNamed_unchanged :
    ActsOnNamed sb kernel (some (kernel, -1)) named value := by
  refine ⟨kernel, -1, rfl, ?_, fun _ => ⟨rfl, rfl⟩, ?_⟩
  · intro isZero
    cases isZero
  · exact ⟨fun _ => rfl, fun _ => rfl, fun _ => rfl, fun _ _ _ => rfl⟩

section

variable (isInode : kernel.mkv = some s)
include isInode

theorem isOpen_iff (isStat : kernel.st = some st) (inum : Nat) :
    kernel.IsOpen inum ↔ (kernel.table s).inum = inum ∧ st.vaultOpen = true := by
  constructor
  · rintro ⟨c, other, isC, isInum, isOther, isOpen⟩
    rw [isInode] at isC
    rw [isStat] at isOther
    cases isC
    cases isOther
    exact ⟨isInum, isOpen⟩
  · rintro ⟨isInum, isOpen⟩
    exact ⟨s, st, isInode, isInum, isStat, isOpen⟩

theorem isOpen_set_iff (store : Store) (st : Stat) (value : Bool)
    (inum : Nat) :
    Kernel.IsOpen { kernel with store := store, st := some { st with vaultOpen := value } } inum ↔
      (kernel.table s).inum = inum ∧ value = true :=
  isOpen_iff (show Kernel.mkv { kernel with store := store, st := _ } = some s from isInode) rfl inum

theorem actsOnNamed_acts_iff (isStat : kernel.st = some st)
    (isVault : st.isVault = true) (differs : st.vaultOpen ≠ value) :
    ActsOnNamed sb kernel (setVaultOpen sb kernel value) named value ↔
      named = some (kernel.table s).inum ∧ kernel.Marked (kernel.table s).inum ∧
        ¬ kernel.store.log.Refuses sb ∧ InSync sb kernel.store.image (kernel.table s).toInode := by
  have before := isOpen_iff isInode isStat
  have eval : setVaultOpen sb kernel value =
      (iupdate sb kernel.store (kernel.table s).toInode).map fun store =>
        ({ kernel with store := store, st := some { st with vaultOpen := value } }, 0) := by
    rw [setVaultOpen, isInode, isStat]
    exact if_pos ⟨isVault, differs⟩
  rw [eval]
  constructor
  · rintro ⟨kernel', result, ran, success, -, same⟩
    obtain ⟨store, updated, isKernel⟩ := Option.map_eq_some_iff.mp ran
    cases isKernel
    have notRefused : ¬ kernel.store.log.Refuses sb := by
      intro refuses
      rw [iupdate, logWrite, if_pos refuses] at updated
      cases updated
    obtain ⟨inum, isNamed, marked, changes, becomes, -⟩ := success rfl
    have isInum : (kernel.table s).inum = inum := by
      -- the flag says nothing about another vault, so its state cannot have changed
      rw [isOpen_set_iff isInode] at becomes
      rw [before] at changes
      tauto
    rw [isInum]
    exact ⟨isNamed, marked, notRefused, (sameInodes_iff updated).mp same⟩
  rintro ⟨isNamed, marked, notRefused, sync⟩
  obtain ⟨store, updated⟩ : ∃ store,
      iupdate sb kernel.store (kernel.table s).toInode = some store := ⟨_, if_neg notRefused⟩
  rw [updated]
  refine ⟨_, 0, rfl, fun _ => ⟨_, isNamed, marked, ?_, ?_, ?_⟩, ?_,
    (sameInodes_iff updated).mpr sync⟩
  · rw [before]
    simpa using differs
  · rw [isOpen_set_iff isInode]
    simp
  · intro other ne _
    rw [isOpen_set_iff isInode, before]
    simp [Ne.symm ne]
  intro already
  rcases already _ isNamed with notMarked | same
  · exact absurd marked notMarked
  · rw [before] at same
    simp only [true_and] at same
    exact absurd (Bool.eq_iff_iff.mpr same) differs

theorem safe_iff (isStat : kernel.st = some st) :
    Safe sb kernel named value ↔ (st.isVault = true → st.vaultOpen ≠ value →
      named = some (kernel.table s).inum ∧ kernel.Marked (kernel.table s).inum ∧
        ¬ kernel.store.log.Refuses sb ∧
        InSync sb kernel.store.image (kernel.table s).toInode) := by
  constructor
  · rintro ⟨c, other, isC, isOther, safe⟩
    rw [isInode] at isC
    rw [isStat] at isOther
    cases isC
    cases isOther
    exact safe
  · exact fun safe => ⟨s, st, isInode, isStat, safe⟩

end

theorem setVaultOpen_iff (sb : Superblock) (kernel : Kernel) (named : Option Nat) (value : Bool) :
    ActsOnNamed sb kernel (setVaultOpen sb kernel value) named value ↔
      Safe sb kernel named value := by
  cases isInode : kernel.mkv with
  | none =>
    rw [ActsOnNamed, Safe, setVaultOpen, isInode]
    simp
  | some s =>
    cases isStat : kernel.st with
    | none =>
      rw [ActsOnNamed, Safe, setVaultOpen, isInode, isStat]
      simp
    | some st =>
      rw [safe_iff isInode isStat]
      by_cases acts : st.isVault = true ∧ st.vaultOpen ≠ value
      · rw [actsOnNamed_acts_iff isInode isStat acts.1 acts.2]
        exact ⟨fun holds _ _ => holds, fun holds => holds acts.1 acts.2⟩
      have eval : setVaultOpen sb kernel value = some (kernel, -1) := by
        rw [setVaultOpen, isInode, isStat]
        exact if_neg acts
      rw [eval]
      exact ⟨fun _ isVault differs => absurd ⟨isVault, differs⟩ acts,
        fun _ => actsOnNamed_unchanged⟩

/-! ## Sequences of calls -/

/-- What is asked of a call. -/
def Command.Acts (sb : Superblock) (kernel : Kernel) : Command → Prop
  | .mkvault _ => True
  | .openvault readable named =>
    ActsOnNamed sb kernel (sysOpenvault sb kernel readable) named true
  | .closevault readable named =>
    ActsOnNamed sb kernel (sysClosevault sb kernel readable) named false

/-- When a call does it. -/
def Command.Safe (sb : Superblock) (kernel : Kernel) : Command → Prop
  | .mkvault _ => True
  | .openvault readable named => readable = true → Vault.Safe sb kernel named true
  | .closevault readable named => readable = true → Vault.Safe sb kernel named false

theorem Command.acts_iff (sb : Superblock) (kernel : Kernel) (command : Command) :
    command.Acts sb kernel ↔ command.Safe sb kernel := by
  cases command with
  | mkvault path => rfl
  | openvault readable named =>
    cases readable with
    | false => simp [Acts, Safe, sysOpenvault, actsOnNamed_unchanged]
    | true => simpa [Acts, Safe, sysOpenvault, Vault.openvault] using setVaultOpen_iff sb kernel named true
  | closevault readable named =>
    cases readable with
    | false => simp [Acts, Safe, sysClosevault, actsOnNamed_unchanged]
    | true => simpa [Acts, Safe, sysClosevault, Vault.closevault] using setVaultOpen_iff sb kernel named false

/-- A disk of 100 blocks. -/
def vaultDisk : Superblock := ⟨fsmagic, 100, 66, 16, 30, 2, 32, 33⟩

/-- Two directories with the numbers 2 and 3, both in the table and loaded, while some
operation is in a transaction. -/
def twoDirectories : Kernel where
  store := ⟨fun address =>
    if 32 * bsize + 2 * dinodeSize ≤ address ∧ address < 32 * bsize + 4 * dinodeSize then
      setSize (setNlink (setType (fun _ => 0) tDir) 1) 32 (address % dinodeSize)
    else 0, ⟨1, []⟩⟩
  table := fun s =>
    { inum := s.val + 2
      valid := true
      isVault := false
      vaultOpen := false
      type := tDir
      major := 0
      minor := 0
      nlink := 1
      size := 32
      addrs := fun _ => 0
      dev := rootdev
      ref := if s.val < 2 then 1 else 0
      vaultId := 0 }
  mkv := none
  st := none
  pages := 2

end Xv6.Vault
