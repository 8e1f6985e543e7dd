import Mathlib.Data.List.Basic
import Xv6.Disk.Reading

/-!
# Directories

A directory is a file of `dirent`s, and an entry is free when its inode number is 0. A
name fills its field or ends at a NUL. The loops of `dirlookup` and `dirlink` read one
entry after another and differ in where they stop.
-/

namespace Xv6.Disk

open Xv6.Semantics

/-- `strncmp`. -/
def strncmp : (n : Nat) → (p q : Bytes) → Int
  | 0, _, _ => 0
  | n + 1, p, q =>
    if p 0 ≠ 0 ∧ p 0 = q 0 then strncmp n (dropBytes p 1) (dropBytes q 1)
    else (p 0).toNat - (q 0).toNat

/-- `namecmp`. -/
def namecmp (s t : Bytes) : Int := strncmp dirsiz s t

/-- The loops over the entries: the offset at which a loop stops, with the entry there in
`de`, the memory of the transfer. -/
def scan (sb : Superblock) (ip : Inode) (stops : Bytes → Bool) :
    (fuel : Nat) → Transfer → (off : Nat) → Option (Transfer × Option Nat)
  | 0, _, _ => none
  | fuel + 1, state, off =>
    if off < ip.size then
      (readi sb (fun _ => true) state.store { ip with addrs := state.addrs } state.memory 0 off
        direntSize).bind fun (state, count) =>
        if count ≠ direntSize then none
        else if stops state.memory then some (state, some off)
        else scan sb ip stops fuel state ((off + direntSize) % 2 ^ 32)
    else some (state, none)

/-- A loop from the first entry on. -/
def scanAll (sb : Superblock) (store : Store) (ip : Inode) (stops : Bytes → Bool) :
    Option (Transfer × Option Nat) :=
  scan sb ip stops (ip.size / direntSize + 2) ⟨store, ip.addrs, fun _ => 0⟩ 0

/-- `dirlookup`: the inode number and the offset of the entry with a name. -/
def dirlookup (sb : Superblock) (store : Store) (ip : Inode) (name : Bytes) :
    Option (Transfer × Option (Nat × Nat)) :=
  if ip.type ≠ tDir then none
  else
    (scanAll sb store ip fun de => direntInum de ≠ 0 ∧ namecmp name (direntName de) = 0).map
      fun (state, off) => (state, off.map fun off => (direntInum state.memory, off))

/-! ## Names -/

/-- The name in a field of `n` bytes: those before the first NUL. -/
def nameIn : (n : Nat) → Bytes → List UInt8
  | 0, _ => []
  | n + 1, bytes => if bytes 0 = 0 then [] else bytes 0 :: nameIn n (dropBytes bytes 1)

theorem strncmp_eq_zero_iff (n : Nat) (p q : Bytes) :
    strncmp n p q = 0 ↔ nameIn n p = nameIn n q := by
  induction n generalizing p q with
  | zero => exact ⟨fun _ => rfl, fun _ => rfl⟩
  | succ n ih =>
    have differ : ((p 0).toNat - (q 0).toNat : Int) = 0 ↔ p 0 = q 0 := by
      rw [← UInt8.toNat_inj]
      omega
    rw [strncmp, nameIn, nameIn]
    by_cases same : p 0 = q 0
    · by_cases ends : q 0 = 0 <;> simp [same, ends, ih]
    · rw [if_neg fun both => same both.2, differ]
      by_cases ends : p 0 = 0 <;> by_cases other : q 0 = 0 <;> simp_all

theorem nameIn_eq (noNul : 0 ∉ name)
    (short : name.length ≤ n) (same : ∀ i < name.length, bytes i = ofList name i)
    (ends : name.length < n → bytes name.length = 0) : nameIn n bytes = name := by
  induction name generalizing n bytes with
  | nil =>
    cases n with
    | zero => rfl
    | succ n => exact if_pos (ends (Nat.zero_lt_succ n))
  | cons byte name ih =>
    cases n with
    | zero => exact absurd short (Nat.not_succ_le_zero _)
    | succ n =>
      rw [List.mem_cons, not_or] at noNul
      have first : bytes 0 = byte := same 0 (Nat.zero_lt_succ _)
      have rest : nameIn n (dropBytes bytes 1) = name := by
        apply ih noNul.2 (Nat.le_of_succ_le_succ short)
        · intro i inside
          rw [dropBytes, Nat.add_comm, same (i + 1) (Nat.succ_lt_succ inside)]
          rfl
        · intro room
          rw [dropBytes, Nat.add_comm]
          exact ends (Nat.succ_lt_succ room)
      rw [nameIn, first, if_neg (Ne.symm noNul.1), rest]

/-! ## Entries -/

/-- An entry of a directory, as it is read into a `struct dirent`. -/
def slot (content : Bytes) (k : Nat) : Bytes :=
  copy (fun _ => 0) 0 direntSize (dropBytes content (direntSize * k))

/-- An inode is a directory of so many entries, which are found in `content`. -/
structure Directory (image : Bytes) (ip : Inode) (content : Bytes) (count : Nat) : Prop where
  type : ip.type = tDir
  plain : ip.isVault = false
  size : ip.size = direntSize * count
  small : ip.size ≤ maxfile * bsize
  backed : Backed image ip.addrs content 0 ip.size

/-- The first live entry with a name. -/
def entryNamed (content : Bytes) (count : Nat) (name : List UInt8) : Option Nat :=
  (List.range count).find? fun k =>
    direntInum (slot content k) ≠ 0 ∧ nameIn dirsiz (direntName (slot content k)) = name

variable {sb : Superblock} {store : Store} {ip : Inode} {content : Bytes} {count : Nat}

section

variable (directory : Directory store.image ip content count)
include directory

theorem Directory.readi_slot (sb : Superblock) (de : Bytes) (inside : k < count) :
    readi sb (fun _ => true) store ip de 0 (direntSize * k) direntSize =
      some ((⟨store, ip.addrs, copy de 0 direntSize (dropBytes content (direntSize * k))⟩ :
        Transfer), (direntSize : Int)) := by
  have size := directory.size
  have small : ip.size ≤ 274432 := directory.small
  have all : min direntSize (ip.size - direntSize * k) = direntSize := by
    simp only [direntSize] at size ⊢
    omega
  have backed : Backed store.image ip.addrs content (direntSize * k)
      (min (direntSize * k + direntSize) ip.size) :=
    fun pos _ high => directory.backed pos (Nat.zero_le _) (by omega)
  have opened : ip.isVault = true → ip.vaultOpen = true := by
    intro isVault
    rw [directory.plain] at isVault
    cases isVault
  rw [readi_eq opened backed (fun _ _ => rfl), all]
  · rfl
  · simp only [direntSize] at size ⊢
    omega

theorem Directory.scan_eq (stops : Bytes → Bool) (total : k + left = count) (enough : left < fuel)
    (blank : ∀ bytes, copy de 0 direntSize bytes = copy (fun _ => 0) 0 direntSize bytes) :
    ∃ de', scan sb ip stops fuel ⟨store, ip.addrs, de⟩ (direntSize * k) =
        some (⟨store, ip.addrs, de'⟩,
          ((List.range' k left).find? fun k => stops (slot content k)).map (direntSize * ·)) ∧
      ∀ k', (List.range' k left).find? (fun k => stops (slot content k)) = some k' →
        de' = slot content k' := by
  have size := directory.size
  have small : ip.size ≤ 274432 := directory.small
  rw [direntSize] at size
  induction left generalizing fuel k de with
  | zero =>
    obtain ⟨fuel, rfl⟩ : ∃ more, fuel = more + 1 := ⟨fuel - 1, by omega⟩
    have done : ¬ direntSize * k < ip.size := by
      rw [direntSize]
      omega
    rw [scan, if_neg done]
    exact ⟨de, rfl, fun _ found => nomatch found⟩
  | succ left ih =>
    obtain ⟨fuel, rfl⟩ : ∃ more, fuel = more + 1 := ⟨fuel - 1, by omega⟩
    have more : direntSize * k < ip.size := by
      rw [direntSize]
      omega
    have next : (direntSize * k + direntSize) % 2 ^ 32 = direntSize * (k + 1) := by
      simp only [direntSize] at more ⊢
      omega
    have read := directory.readi_slot sb de (by omega : k < count)
    rw [blank] at read
    rw [scan, if_pos more, List.range'_succ, List.find?_cons]
    simp only [read, Option.bind_some, ne_eq, not_true_eq_false, if_false, next]
    cases stop : stops (slot content k) with
    | true => exact ⟨_, if_pos stop, fun k' found => by cases found; rfl⟩
    | false =>
      rw [if_neg (by rw [← slot, stop]; exact Bool.false_ne_true)]
      exact ih (by omega) (by omega) fun bytes => by
        funext address
        simp only [copy]
        split <;> rfl

theorem Directory.scanAll_eq (sb : Superblock) (stops : Bytes → Bool) :
    ∃ de, scanAll sb store ip stops = some (⟨store, ip.addrs, de⟩,
        ((List.range count).find? fun k => stops (slot content k)).map (direntSize * ·)) ∧
      ∀ k, (List.range count).find? (fun k => stops (slot content k)) = some k →
        de = slot content k := by
  rw [List.range_eq_range']
  apply directory.scan_eq stops (Nat.zero_add count) _ fun _ => rfl
  rw [directory.size, Nat.mul_div_cancel_left _ (by decide)]
  omega

/-- `dirlookup` finds the first live entry with the name in the buffer. -/
theorem Directory.dirlookup_eq (sb : Superblock) (name : Bytes) :
    ∃ de, dirlookup sb store ip name = some (⟨store, ip.addrs, de⟩,
      (entryNamed content count (nameIn dirsiz name)).map fun k =>
        (direntInum (slot content k), direntSize * k)) := by
  obtain ⟨de, scanned, found⟩ := directory.scanAll_eq sb fun de =>
    direntInum de ≠ 0 ∧ namecmp name (direntName de) = 0
  have same : ((List.range count).find? fun k => decide (direntInum (slot content k) ≠ 0 ∧
      namecmp name (direntName (slot content k)) = 0)) =
        entryNamed content count (nameIn dirsiz name) := by
    simp only [namecmp, strncmp_eq_zero_iff, entryNamed, @eq_comm _ (nameIn dirsiz name)]
  rw [same] at scanned found
  refine ⟨de, ?_⟩
  rw [dirlookup, if_neg (not_not_intro directory.type), scanned]
  cases entry : entryNamed content count (nameIn dirsiz name) with
  | none => rfl
  | some k => rw [found k entry]; rfl

end

end Xv6.Disk
