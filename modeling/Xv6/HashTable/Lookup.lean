import Xv6.Memory.Page
import Xv6.Semantics.Returns

/-!
# The hash table of `table.c`

The functions work on memory words through the kernel page table, so that an index
past the end of an array reaches what lies behind it, and an access to an address that
the kernel does not map is a page fault. Output is left out, and so are the function
pointers of `ht`, which nothing here reads.
-/

namespace Xv6.HashTable

open Xv6.Semantics Xv6.Memory

/-- `HASH_TABLE_MAX_SIZE`. -/
def hashTableMaxSize : Nat := 4096

/-- `ENTRIES`. -/
def entries : Nat := 512

/-- `UART0`. -/
def uart0 : Nat := 0x10000000

/-- `VIRTIO0`. -/
def virtio0 : Nat := 0x10001000

/-- `PLIC`. -/
def plic : Nat := 0x0c000000

/-- `NPROC`. -/
def nproc : Nat := 64

/-- `KSTACK`. -/
def kstack (p : Nat) : Nat := trampolineVa - (p + 1) * 2 * pgsize

/-- `sizeof(struct hash_table_entry)`: three arrays and a pointer, aligned to `ENTRIES`. -/
def sizeofEntry : Nat := 12800

/-- Addresses the linker assigns: `etext`, `hash_entry_table`, `ht` and the static `size`
of `table.c`. The data of the kernel lies between `etext` and `PHYSTOP`. -/
class Layout where
  etext : Nat
  hashEntryTable : Nat
  ht : Nat
  size : Nat
  kernbase_le : kernbase ≤ etext
  etext_le : etext ≤ hashEntryTable ∧ etext ≤ ht
  within : hashEntryTable + 2 * sizeofEntry ≤ phystop ∧ ht + 8 ≤ phystop
  apart : ht + 8 ≤ hashEntryTable ∨ hashEntryTable + 2 * sizeofEntry ≤ ht

section Kernel

variable [Layout]

/-- The addresses that `kvmmake` maps for writing. -/
def writable (a : Nat) : Bool :=
  (uart0 ≤ a ∧ a < uart0 + pgsize) ∨ (virtio0 ≤ a ∧ a < virtio0 + pgsize) ∨
    (plic ≤ a ∧ a < plic + 0x400000) ∨ (Layout.etext ≤ a ∧ a < phystop) ∨
    ∃ p < nproc, kstack p ≤ a ∧ a < kstack p + pgsize

/-- The addresses that `kvmmake` maps for reading. -/
def readable (a : Nat) : Bool :=
  writable a ∨ (kernbase ≤ a ∧ a < Layout.etext) ∨ (trampolineVa ≤ a ∧ a < maxva)

/-- Kernel memory by words, and the static `size`. -/
structure State where
  word : Nat → UInt64
  size : Nat

/-- Code that works on kernel memory. -/
abbrev M := StateT State (Except Halt)

def load (a : Nat) : M UInt64 := do
  if readable a then return (← get).word a else throw .pageFault

def store (a : Nat) (word : UInt64) : M Unit := do
  if writable a then modify fun state => { state with word := Function.update state.word a word }
  else throw .pageFault

/-- An address at a distance from a pointer. -/
def address (pointer : UInt64) (offset : Nat) : Nat := (pointer.toNat + offset) % 2 ^ 64

/-- `&table->entries[i]`. -/
def entriesAt (table : UInt64) (i : Nat) : Nat := address table (8 * i)

/-- `&entry->key[i]`. -/
def keyAt (entry : UInt64) (i : Nat) : Nat := address entry (8 * entries + 8 * i)

/-- `&entry->val[i]`. -/
def valAt (entry : UInt64) (i : Nat) : Nat := address entry (16 * entries + 8 * i)

/-- `&table->size`. -/
def sizeAt (table : UInt64) : Nat := address table (24 * entries)

/-- The static `curr_map`, which nothing changes. -/
def currMap : Nat := 0

/-- `&hash_entry_table[1]`. -/
def table : UInt64 := .ofNat (Layout.hashEntryTable + sizeofEntry)

/-- `table_alloc`. The array `hash_entry_table[1].entries` is compared with the null pointer. -/
def tableAlloc (malloc : Nat → M UInt64) : M Unit := do
  if entriesAt table 0 = 0 then do
    let block ← malloc sizeofEntry
    store (entriesAt table 0) block
  else pure ()
  if (← load Layout.ht) = 0 then store Layout.ht table else pure ()

/-- The loop of `getIndex` from `i` on, where `left` indices are left. -/
def search (table key : UInt64) : (left i : Nat) → M (Option Nat)
  | 0, _ => return none
  | left + 1, i => do
    let entry ← load (entriesAt table currMap)
    if (← load (keyAt entry i)) = key then return some i else search table key left (i + 1)

/-- `getIndex`; -1 is `none`. -/
def getIndex (table key : UInt64) : M (Option Nat) := search table key hashTableMaxSize 0

/-- `insert`. -/
def insert (table key value : UInt64) : M Unit := do
  match ← getIndex table key with
  | some _ => return
  | none => do
    let size := (← get).size
    if size < hashTableMaxSize then do
      store (keyAt (← load (entriesAt table size)) size) key
      store (valAt (← load (entriesAt table size)) size) value
      modify fun state => { state with size := size + 1 }
      store (sizeAt table) (.ofNat Layout.size)
    else return

/-- `getVal`. -/
def getVal (table key : UInt64) : M UInt64 := do
  match ← getIndex table key with
  | none => return -1
  | some index => load (valAt (← load (entriesAt table currMap)) index)

/-- `getKey`. -/
def getKey (table key : UInt64) : M UInt64 := do
  match ← getIndex table key with
  | none => return -1
  | some index => load (keyAt (← load (entriesAt table currMap)) index)

/-! ## A finite map -/

/-- Insert pairs one after the other. The result is the list of those that were accepted. -/
def insertAll (table : UInt64) : List (UInt64 × UInt64) → M (List (UInt64 × UInt64))
  | [] => return []
  | (key, value) :: rest => do
    let before := (← get).size
    insert table key value
    let accepted := if (← get).size = before then [] else [(key, value)]
    return accepted ++ (← insertAll table rest)

/-- The call returns this value. -/
def Answers (call : M UInt64) (state : State) (value : UInt64) : Prop :=
  ∃ final, call.run state = .ok (value, final)

/-- The table answers as the finite map of the pairs that were accepted. -/
structure Represents (table : UInt64) (state : State)
    (accepted inserted : List (UInt64 × UInt64)) : Prop where
  found : ∀ key value, accepted.lookup key = some value →
    Answers (getVal table key) state value ∧ Answers (getKey table key) state key
  missing : ∀ key, key ∉ inserted.map Prod.fst →
    Answers (getVal table key) state (-1) ∧ Answers (getKey table key) state (-1)
  size : state.size = (accepted.map Prod.fst).dedup.length

/-- The table refines a finite map under these calls of `insert`, and under one more for
any key. -/
def Refines (table : UInt64) (start : State) (inserted : List (UInt64 × UInt64)) : Prop :=
  ∃ accepted state, (insertAll table inserted).run start = .ok (accepted, state) ∧
    Represents table state accepted inserted ∧
    ∀ key value, ∃ next, (insert table key value).run state = .ok ((), next) ∧
      ∀ other ≠ key, ∀ answer,
        Answers (getVal table other) state answer ↔ Answers (getVal table other) next answer

/-! ## What `table_alloc` leaves -/

theorem address_table (offset : Nat) (bound : offset < sizeofEntry) :
    address table offset = Layout.hashEntryTable + sizeofEntry + offset := by
  have within := Layout.within.1
  simp only [address, table, phystop_eq, sizeofEntry] at within bound ⊢
  rw [UInt64.toNat_ofNat']
  omega

theorem readable_data (low : Layout.etext ≤ a) (high : a < phystop) :
    readable a = true := by
  simp only [readable, writable, decide_eq_true_eq]
  exact .inl (.inr (.inr (.inr (.inl ⟨low, high⟩))))

theorem not_readable_low (low : a < plic) : readable a = false := by
  have base := Layout.kernbase_le
  rw [Bool.eq_false_iff]
  intro mapped
  rcases of_decide_eq_true mapped with data | text | trampoline
  · rcases of_decide_eq_true data with device | device | device | data | ⟨p, bound, above, _⟩
    · simp only [uart0, plic] at device low
      omega
    · simp only [virtio0, plic] at device low
      omega
    · omega
    · simp only [kernbase, plic] at base low
      omega
    · simp only [kstack, trampolineVa, maxva, pgsize, nproc, plic] at bound above low
      omega
  · simp only [kernbase, plic] at text low
    omega
  · simp only [trampolineVa, maxva, pgsize, plic] at trampoline low
    omega

/-- No entry of the table has been allocated. -/
def Unallocated (state : State) : Prop := ∀ i < entries, state.word (entriesAt table i) = 0

theorem load_run (allowed : readable a = true) (state : State) :
    (load a).run state = .ok (state.word a, state) := by
  rw [load, if_pos allowed]
  rfl

theorem load_fault (refused : readable a = false) (state : State) :
    (load a).run state = .error .pageFault := by
  rw [load, if_neg (Bool.eq_false_iff.mp refused)]
  rfl

theorem store_run (allowed : writable a = true) (word : UInt64) (state : State) :
    (store a word).run state =
      .ok ((), { state with word := Function.update state.word a word }) := by
  rw [store, if_pos allowed]
  rfl

theorem writable_data (low : Layout.etext ≤ a) (high : a < phystop) :
    writable a = true := by
  simp only [writable, decide_eq_true_eq]
  exact .inr (.inr (.inr (.inl ⟨low, high⟩)))

/-- The entries of the table are an array in the data of the kernel. -/
theorem entriesAt_table (bound : i < entries) :
    entriesAt table i = Layout.hashEntryTable + sizeofEntry + 8 * i := by
  apply address_table
  simp only [entries, sizeofEntry] at bound ⊢
  omega

theorem tableAlloc_run (malloc : Nat → M UInt64) (zeroed : Unallocated boot) :
    ∃ state, (tableAlloc malloc).run boot = .ok ((), state) ∧ Unallocated state := by
  obtain ⟨lowTable, lowHt⟩ := Layout.etext_le
  have high := Layout.within.2
  have base := Layout.kernbase_le
  have array : entriesAt table 0 ≠ 0 := by
    rw [entriesAt_table (by decide)]
    simp only [kernbase] at base
    omega
  have readHt := load_run (readable_data lowHt (by omega)) boot
  have writeHt := store_run (writable_data lowHt (by omega)) table boot
  rw [tableAlloc, if_neg array]
  rw [run_bind_of_run readHt]
  split
  · refine ⟨_, writeHt, fun i bound => ?_⟩
    have apart := Layout.apart
    have ne : entriesAt table i ≠ Layout.ht := by
      rw [entriesAt_table bound]
      simp only [entries, sizeofEntry] at bound apart ⊢
      omega
    exact (Function.update_of_ne ne ..).trans (zeroed i bound)
  · exact ⟨boot, rfl, zeroed⟩

section

variable (unallocated : Unallocated state)
include unallocated

/-- The first access to an entry is an access to `key[0]` of the null pointer. -/
theorem getIndex_faults (key : UInt64) : (getIndex table key).run state = .error .pageFault := by
  obtain ⟨lowTable, _⟩ := Layout.etext_le
  have within := Layout.within.1
  have place : entriesAt table currMap = Layout.hashEntryTable + sizeofEntry :=
    entriesAt_table (by decide)
  have inData : readable (entriesAt table currMap) = true := by
    apply readable_data
    · omega
    · rw [place]
      simp only [sizeofEntry] at within ⊢
      omega
  have readEntry := load_run inData state
  rw [unallocated currMap (by decide)] at readEntry
  rw [getIndex, show hashTableMaxSize = 4095 + 1 from rfl, search, run_bind_of_run readEntry]
  exact run_bind_of_halt (load_fault (not_readable_low (by decide)) state)

theorem insert_faults (key value : UInt64) :
    (insert table key value).run state = .error .pageFault := by
  exact run_bind_of_halt (getIndex_faults unallocated key)

theorem getVal_faults (key : UInt64) : (getVal table key).run state = .error .pageFault := by
  exact run_bind_of_halt (getIndex_faults unallocated key)

theorem insertAll_reaches (inserts : (insertAll table inserted).run state = .ok (accepted, reached)) :
    inserted = [] ∧ reached = state := by
  cases inserted with
  | nil =>
    cases inserts
    exact ⟨rfl, rfl⟩
  | cons pair rest =>
    rw [insertAll, run_bind_of_run rfl, run_bind_of_halt (insert_faults unallocated ..)] at inserts
    cases inserts

end

/-- `table->entries[map]` exists, and its arrays have an element `index`. -/
def EntryInBounds (table : UInt64) (state : State) (map index : Nat) : Prop :=
  map < entries ∧ state.word (entriesAt table map) ≠ 0 ∧ index < entries

/-- The accesses of the loop of `getIndex` from `i` on, which goes on until it finds the key. -/
def SearchInBounds (table key : UInt64) (state : State) : (left i : Nat) → Prop
  | 0, _ => True
  | left + 1, i =>
    EntryInBounds table state currMap i ∧
      (state.word (keyAt (state.word (entriesAt table currMap)) i) ≠ key →
        SearchInBounds table key state left (i + 1))

/-- The accesses of `getIndex`, of `insert` after a search that fails, and of `getVal` and
`getKey` after one that succeeds. -/
structure InBounds (table : UInt64) (state : State) (key : UInt64) : Prop where
  getIndex : SearchInBounds table key state hashTableMaxSize 0
  insert : ∀ next, (HashTable.getIndex table key).run state = .ok (none, next) →
    next.size < hashTableMaxSize → EntryInBounds table next next.size next.size
  getVal : ∀ index next, (HashTable.getIndex table key).run state = .ok (some index, next) →
    EntryInBounds table next currMap index

/-- Whatever has been inserted after `table_alloc`, the search for any key follows the null
pointer in `entries[0]`. -/
theorem table_never_inBounds (malloc : Nat → M UInt64) {boot : State}
    (zeroed : Unallocated boot) :
    ∃ state, (tableAlloc malloc).run boot = .ok ((), state) ∧
      ∀ inserted accepted reached, (insertAll table inserted).run state = .ok (accepted, reached) →
        ∀ key, ¬InBounds table reached key := by
  obtain ⟨state, ran, unallocated⟩ := tableAlloc_run malloc zeroed
  refine ⟨state, ran, fun inserted accepted reached inserts key bounds => ?_⟩
  obtain ⟨-, rfl⟩ := insertAll_reaches unallocated inserts
  have first : EntryInBounds table reached currMap 0 := bounds.getIndex.1
  exact first.2.1 (unallocated currMap (by decide))

end Kernel

/-! ## A machine -/

/-- A kernel whose text ends at 0x80008000. -/
@[reducible] def smallLayout : Layout where
  etext := 0x80008000
  hashEntryTable := 0x80010000
  ht := 0x80020000
  size := 0x80020400
  kernbase_le := by decide
  etext_le := by decide
  within := by decide
  apart := by decide

/-- Its data before the first call. -/
def zeroedData : State := ⟨fun _ => 0, 0⟩

theorem table_never_inBounds_seven : letI := smallLayout
    Unallocated zeroedData ∧
      ∃ state, (tableAlloc fun _ => pure 0x80030000).run zeroedData = .ok ((), state) ∧
        ¬InBounds table state 7 := by
  let := smallLayout
  have zeroed : Unallocated zeroedData := fun _ _ => rfl
  obtain ⟨state, ran, never⟩ := table_never_inBounds (fun _ => pure 0x80030000) zeroed
  exact ⟨zeroed, state, ran, never [] [] state rfl 7⟩

/-- After `table_alloc`, the search for the key 7 follows a null pointer. -/
theorem first_search_follows_null : letI := smallLayout
    ∃ state, (tableAlloc fun _ => pure 0x80030000).run zeroedData = .ok ((), state) ∧
      state.word (entriesAt table currMap) = 0 ∧ ¬InBounds table state 7 := by
  let := smallLayout
  have zeroed : Unallocated zeroedData := fun _ _ => rfl
  obtain ⟨state, ran, unallocated⟩ := tableAlloc_run (fun _ => pure 0x80030000) zeroed
  have null := unallocated currMap (by decide)
  exact ⟨state, ran, null, fun bounds => bounds.getIndex.1.2.1 null⟩

end Xv6.HashTable
