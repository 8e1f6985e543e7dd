import Xv6.Vault.OpenState

/-!
# Reading from vaults

`readi` tests the flag `vault_open` of the inode, and the vault calls set the flag of
`*st`. Nothing sets the flag of an inode, so a vault stays closed to `readi` for ever:
the reads are what the history of the calls asks for as long as no `openvault` is the
last successful call.
-/

namespace Xv6.Vault

open Xv6.Semantics Xv6.Disk

variable {sb : Superblock} {kernel kernel' : Kernel} {s : Slot} {result : Int}

/-! ## Histories -/

/-- The three calls. -/
inductive Kind where
  | mkvault
  | openvault
  | closevault
  deriving DecidableEq

/-- A call, or a read of some bytes through an entry of the table. -/
inductive Action where
  | call (command : Command)
  | read (s : Slot) (mapped : Nat → Bool) (memory : Bytes) (dst off n : Nat)

/-- The kernel with the most recent successful call on each inode. -/
structure History where
  kernel : Kernel
  last : Nat → Option Kind

def Command.kind : Command → Kind
  | .mkvault _ => .mkvault
  | .openvault _ _ => .openvault
  | .closevault _ _ => .closevault

/-- The inode that a call is about; `mkvault` leaves it in `mkv`. -/
def Command.target (kernel : Kernel) : Command → Option Nat
  | .mkvault _ => kernel.mkv.map fun s => (kernel.table s).inum
  | .openvault _ named => named
  | .closevault _ named => named

/-- A call enters the history if it has been successful. -/
def History.after (history : History) (command : Command) (kernel : Kernel) (result : Int) :
    History where
  kernel := kernel
  last := fun inum =>
    if result = 0 ∧ command.target kernel = some inum then some command.kind else history.last inum

/-- One action. -/
def History.step (sb : Superblock) (history : History) : Action → Option History
  | .call command =>
    (command.run sb history.kernel).map fun (kernel, result) =>
      history.after command kernel result
  | .read s mapped memory dst off n =>
    (readi sb mapped history.kernel.store (history.kernel.table s).toInode memory dst off n).map
      fun (transfer, _) =>
        { history with kernel :=
          { history.kernel.setEntry s { history.kernel.table s with addrs := transfer.addrs } with
            store := transfer.store } }

/-- A sequence of actions. -/
def History.run (sb : Superblock) : History → List Action → Option History
  | history, [] => some history
  | history, action :: rest => (history.step sb action).bind fun history => history.run sb rest

/-! ## The law -/

/-- A read through the entry returns -1 and copies nothing. -/
def Refuses (sb : Superblock) (kernel : Kernel) (s : Slot) : Prop :=
  ∀ mapped memory dst off n,
    readi sb mapped kernel.store (kernel.table s).toInode memory dst off n =
      some (⟨kernel.store, (kernel.table s).addrs, memory⟩, -1)

/-- A read through the entry is a read of an inode that is not a vault. -/
def ReadsNormally (sb : Superblock) (kernel : Kernel) (s : Slot) : Prop :=
  ∀ mapped memory dst off n,
    readi sb mapped kernel.store (kernel.table s).toInode memory dst off n =
      readi sb mapped kernel.store { (kernel.table s).toInode with isVault := false } memory dst
        off n

/-- Every vault is read as its history says. -/
def History.Respected (sb : Superblock) (history : History) : Prop :=
  ∀ s, (history.kernel.table s).isVault = true →
    let last := history.last (history.kernel.table s).inum
    (Refuses sb history.kernel s ↔ last = some .mkvault ∨ last = some .closevault) ∧
      (last = some .openvault → ReadsNormally sb history.kernel s)

/-! ## The flag of the inodes -/

/-- No inode has its flag set. -/
def Unopened (table : Slot → Entry) : Prop := ∀ s, (table s).vaultOpen = false

theorem Unopened.update {entry : Entry} (unopened : Unopened table)
    (closed : entry.vaultOpen = false) : Unopened (Function.update table s entry) := by
  intro c
  by_cases same : c = s
  · rw [same, Function.update_self]
    exact closed
  · rw [Function.update_of_ne same]
    exact unopened c

theorem emptyLoop_vaultOpen (ran : emptyLoop sb fuel store dp off = some (store', dp', result)) :
    dp'.vaultOpen = dp.vaultOpen := by
  induction fuel generalizing store dp off with
  | zero => cases ran
  | succ fuel ih =>
    rw [emptyLoop] at ran
    split at ran
    · obtain ⟨⟨transfer, count⟩, -, rest⟩ := Option.bind_eq_some_iff.mp ran
      simp only at rest
      split at rest
      · cases rest
      · split at rest
        · cases rest
          rfl
        · rw [ih rest]
    · cases ran
      rfl

theorem kalloc_table (ran : kernel.kalloc = some kernel') : kernel'.table = kernel.table := by
  unfold Kernel.kalloc at ran
  split at ran
  · cases ran
  · cases ran
    rfl

theorem allocSt_table (ran : kernel.allocSt = some (kernel', st)) :
    kernel'.table = kernel.table := by
  unfold Kernel.allocSt at ran
  split at ran
  · cases ran
    rfl
  · obtain ⟨middle, allocated, same⟩ := Option.map_eq_some_iff.mp ran
    cases same
    exact kalloc_table allocated

theorem allocMkv_table (ran : kernel.allocMkv = some kernel') : kernel'.table = kernel.table := by
  unfold Kernel.allocMkv at ran
  split at ran
  · exact kalloc_table ran
  · cases ran
    rfl

theorem mkvault_unopened (unopened : Unopened kernel.table)
    (ran : mkvault sb kernel = some (kernel', result)) : Unopened kernel'.table := by
  obtain ⟨s, -, checks⟩ := Option.bind_eq_some_iff.mp ran
  obtain ⟨⟨store, dp, empty⟩, checked, rest⟩ := Option.bind_eq_some_iff.mp checks
  have closed : dp.vaultOpen = false := (emptyLoop_vaultOpen checked).trans (unopened s)
  simp only at rest
  split at rest
  · cases rest
    exact unopened.update closed
  obtain ⟨⟨next, st⟩, allocated, same⟩ := Option.map_eq_some_iff.mp rest
  cases same
  have unopenedNext : Unopened next.table := by
    rw [allocSt_table allocated]
    exact unopened.update closed
  exact unopenedNext.update (unopenedNext s)

theorem iget_unopened (unopened : Unopened table)
    (ran : iget table dev inum = some (s, table')) : Unopened table' := by
  unfold iget at ran
  split at ran
  · rename_i c _
    cases ran
    exact unopened.update (unopened s)
  · obtain ⟨c, -, same⟩ := Option.map_eq_some_iff.mp ran
    cases same
    exact unopened.update (unopened s)

theorem ialloc_unopened (unopened : Unopened kernel.table)
    (ran : ialloc sb kernel dev type = some (kernel', s)) : Unopened kernel'.table := by
  obtain ⟨inum, -, writes⟩ := Option.bind_eq_some_iff.mp ran
  obtain ⟨store, -, gets⟩ := Option.bind_eq_some_iff.mp writes
  obtain ⟨⟨c, table⟩, got, same⟩ := Option.map_eq_some_iff.mp gets
  cases same
  exact iget_unopened unopened got

theorem sysMkvault_unopened (unopened : Unopened kernel.table)
    (ran : sysMkvault sb kernel path = some (kernel', result)) : Unopened kernel'.table := by
  cases path with
  | unreadable =>
    cases ran
    exact unopened
  | missing =>
    obtain ⟨first, allocated, rest⟩ := Option.bind_eq_some_iff.mp ran
    obtain ⟨⟨second, s⟩, made, last⟩ := Option.bind_eq_some_iff.mp rest
    have unopenedFirst : Unopened first.table := (allocMkv_table allocated).symm ▸ unopened
    have unopenedSecond : Unopened second.table := by
      refine ialloc_unopened ?_ made
      exact unopenedFirst
    refine mkvault_unopened ?_ last
    exact unopenedSecond
  | found s =>
    obtain ⟨first, allocated, rest⟩ := Option.bind_eq_some_iff.mp ran
    obtain ⟨⟨second, st⟩, allocatedSt, last⟩ := Option.bind_eq_some_iff.mp rest
    have unopenedSecond : Unopened second.table := by
      rw [allocSt_table allocatedSt, allocMkv_table allocated]
      exact unopened
    refine mkvault_unopened ?_ last
    exact unopenedSecond

theorem setVaultOpen_table (ran : setVaultOpen sb kernel value = some (kernel', result)) :
    kernel'.table = kernel.table := by
  obtain ⟨s, -, rest⟩ := Option.bind_eq_some_iff.mp ran
  obtain ⟨st, -, last⟩ := Option.bind_eq_some_iff.mp rest
  split at last
  · obtain ⟨store, -, same⟩ := Option.map_eq_some_iff.mp last
    cases same
    rfl
  · cases last
    rfl

theorem run_unopened {command : Command} (unopened : Unopened kernel.table)
    (ran : command.run sb kernel = some (kernel', result)) : Unopened kernel'.table := by
  cases command with
  | mkvault path => exact sysMkvault_unopened unopened ran
  | openvault readable named =>
    change (if readable = true then _ else _) = _ at ran
    split at ran
    · exact (setVaultOpen_table ran).symm ▸ unopened
    · cases ran
      exact unopened
  | closevault readable named =>
    change (if readable = true then _ else _) = _ at ran
    split at ran
    · exact (setVaultOpen_table ran).symm ▸ unopened
    · cases ran
      exact unopened

theorem History.step_unopened {history history' : History}
    (unopened : Unopened history.kernel.table) (ran : history.step sb action = some history') :
    Unopened history'.kernel.table := by
  cases action with
  | call command =>
    obtain ⟨⟨kernel, result⟩, called, same⟩ := Option.map_eq_some_iff.mp ran
    cases same
    exact run_unopened unopened called
  | read s mapped memory dst off n =>
    obtain ⟨⟨transfer, count⟩, -, same⟩ := Option.map_eq_some_iff.mp ran
    cases same
    exact unopened.update (unopened s)

theorem History.run_unopened {history history' : History}
    (unopened : Unopened history.kernel.table) (ran : history.run sb actions = some history') :
    Unopened history'.kernel.table := by
  induction actions generalizing history with
  | nil =>
    cases ran
    exact unopened
  | cons action rest ih =>
    obtain ⟨middle, stepped, onward⟩ := Option.bind_eq_some_iff.mp ran
    exact ih (step_unopened unopened stepped) onward

/-! ## The reads -/

theorem refuses_of_unopened (unopened : Unopened kernel.table)
    (isVault : (kernel.table s).isVault = true) : Refuses sb kernel s := by
  intro mapped memory dst off n
  have closed : ((kernel.table s).isVault && !(kernel.table s).vaultOpen) = true := by
    rw [isVault, unopened s]
    rfl
  exact if_pos closed

/-- A read that is refused is not a normal one: a read of no bytes would return 0. -/
theorem not_readsNormally (refuses : Refuses sb kernel s) : ¬ ReadsNormally sb kernel s := by
  intro normal
  have refused := refuses (fun _ => true) (fun _ => 0) 0 0 0
  rw [normal] at refused
  unfold readi at refused
  simp [readLoop, asInt] at refused

/-- From boot on, the reads from the vaults are as the history of the calls asks for
exactly in the states in which the last successful call on every vault is `mkvault` or
`closevault`. -/
theorem respected_iff {history history' : History} {actions : List Action}
    (boot : Unopened history.kernel.table) (ran : history.run sb actions = some history') :
    history'.Respected sb ↔ ∀ s, (history'.kernel.table s).isVault = true →
      history'.last (history'.kernel.table s).inum = some .mkvault ∨
        history'.last (history'.kernel.table s).inum = some .closevault := by
  have unopened := History.run_unopened boot ran
  constructor
  · intro respected s isVault
    exact (respected s isVault).1.mp (refuses_of_unopened unopened isVault)
  intro last s isVault
  refine ⟨⟨fun _ => last s isVault, fun _ => refuses_of_unopened unopened isVault⟩, ?_⟩
  intro opened
  rcases last s isVault with isLast | isLast
  · rw [isLast] at opened
    cases opened
  · rw [isLast] at opened
    cases opened

/-- The first of the two directories is marked, and then nothing else happens. -/
theorem respected_iff_marked :
    ∃ history', (History.mk twoDirectories fun _ => none).run vaultDisk
        [.call (.mkvault (.found 0))] = some history' ∧
      (history'.Respected vaultDisk ↔ ∀ s, (history'.kernel.table s).isVault = true →
        history'.last (history'.kernel.table s).inum = some .mkvault ∨
          history'.last (history'.kernel.table s).inum = some .closevault) := by
  obtain ⟨history', ran⟩ : ∃ history', (History.mk twoDirectories fun _ => none).run vaultDisk
    [.call (.mkvault (.found 0))] = some history' := ⟨_, rfl⟩
  refine ⟨history', ran, respected_iff ?_ ran⟩
  exact fun _ => rfl

/-- A vault that has been closed and opened again is still closed to `readi`. -/
theorem opened_vault_refuses :
    ∃ history', (History.mk twoDirectories fun _ => none).run vaultDisk
        [.call (.mkvault (.found 0)), .call (.closevault true (some 2)),
          .call (.openvault true (some 2))] = some history' ∧
      (history'.kernel.table 0).isVault = true ∧
      history'.last (history'.kernel.table 0).inum = some .openvault ∧
      Refuses vaultDisk history'.kernel 0 ∧ ¬ history'.Respected vaultDisk := by
  have run : ∃ history', (History.mk twoDirectories fun _ => none).run vaultDisk
        [.call (.mkvault (.found 0)), .call (.closevault true (some 2)),
          .call (.openvault true (some 2))] = some history' ∧
      (history'.kernel.table 0).isVault = true ∧
      history'.last (history'.kernel.table 0).inum = some .openvault := ⟨_, rfl, rfl, rfl⟩
  obtain ⟨history', ran, isVault, isLast⟩ := run
  have refuses : Refuses vaultDisk history'.kernel 0 := by
    apply refuses_of_unopened (History.run_unopened _ ran) isVault
    exact fun _ => rfl
  refine ⟨history', ran, isVault, isLast, refuses, fun respected => ?_⟩
  exact not_readsNormally refuses ((respected 0 isVault).2 isLast)

end Xv6.Vault
