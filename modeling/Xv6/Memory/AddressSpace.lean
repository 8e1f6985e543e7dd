import Xv6.Memory.Walk

/-!
# Address spaces

An address space is a page table whose user part maps a set of virtual pages,
each to a page of its own. The functions of `vm.c` move pages between the free
list, the page table, the mapped pages and the pages held elsewhere; every
specification below says so by keeping the account, and says that the contents
of pages held elsewhere stay the same.

Virtual pages are named by their number. The user part ends below `TEXT`, the
lowest of the pages that have a fixed place.
-/

namespace Xv6.Memory

open Xv6.Semantics

/-- The page-table pages of a page table. -/
def tablePages (memory : Ram) (pagetable : Nat) : Multiset Nat :=
  pteFormat.nodes memory.word 2 pagetable

/-- The page-table entry of a virtual page. -/
def entry (memory : Ram) (pagetable v : Nat) : Nat := pteFormat.leaf memory.word 2 pagetable v

/-- The pages that a set of virtual pages is mapped to. -/
def userPages (memory : Ram) (pagetable : Nat) (mapped : Finset Nat) : Multiset Nat :=
  ∑ v ∈ mapped, {ptePage (entry memory pagetable v)}

/-- The number of the first virtual page above the user part. -/
def userTop : Nat := text / pgsize

/-! ## Entries -/

theorem or_pteV (perm : Nat) : perm ||| pteV = perm / 2 * 2 + 1 := by
  have half : (perm ||| 1) / 2 = perm / 2 := by simp [Nat.or_div_two]
  have odd : (perm ||| 1) % 2 = 1 := by simp [Nat.or_mod_two_eq_one]
  rw [pteV]
  omega

theorem mkPte_eq (pa perm : Nat) : mkPte pa perm = pa / 4096 * 1024 + (perm / 2 * 2 + 1) := by
  rw [mkPte, or_pteV, pa2pte]
  rfl

/-- Permissions of a leaf entry: flag bits, one of `PTE_R`, `PTE_W`, `PTE_X` among them. -/
def LeafPerm (perm : Nat) : Prop := perm < 1024 ∧ perm / 2 % 8 ≠ 0

theorem isValid_mkPte (pa perm : Nat) : isValid (mkPte pa perm) = true := by
  simp only [isValid, mkPte_eq, decide_eq_true_eq]
  omega

theorem isLeaf_mkPte (leaf : LeafPerm perm) : isLeaf (mkPte pa perm) = true := by
  obtain ⟨bound, flags⟩ := leaf
  simp only [isLeaf, mkPte_eq, decide_eq_true_eq]
  omega

theorem ptePage_mkPte (leaf : LeafPerm perm) : ptePage (mkPte (page * pgsize) perm) = page := by
  obtain ⟨bound, -⟩ := leaf
  simp only [ptePage, mkPte_eq, pgsize]
  omega

theorem child_mkPte (leaf : LeafPerm perm) : pteFormat.child (mkPte pa perm) = none :=
  child_of_isLeaf (isLeaf_mkPte leaf)

theorem leafPerm_pteFlags (leaf : isLeaf pte = true) : LeafPerm (pteFlags pte) := by
  simp only [isLeaf, decide_eq_true_eq] at leaf
  simp only [LeafPerm, pteFlags]
  omega

theorem pteFlags_ne_pteV (leaf : isLeaf pte = true) : pteFlags pte ≠ pteV := by
  simp only [isLeaf, decide_eq_true_eq] at leaf
  simp only [pteFlags, pteV]
  omega

theorem isValid_zero : isValid 0 = false := rfl

theorem child_zero : pteFormat.child 0 = none := child_of_not_valid isValid_zero

/-! ## A page table and its account -/

theorem slot_of_used (used : isValid (entry memory pagetable v) = true) :
    ∃ last, pteFormat.slot memory.word 2 pagetable v = some last ∧
      memory.word last (v % 512) = entry memory pagetable v := by
  simp only [entry, Radix.Format.leaf] at used ⊢
  cases reached : pteFormat.slot memory.word 2 pagetable v with
  | none => simp [reached, isValid_zero] at used
  | some last => exact ⟨last, rfl, by simp⟩

theorem isLeaf_entry (shaped : pteFormat.Shaped memory.word 2 pagetable)
    (used : isValid (entry memory pagetable v) = true) :
    isLeaf (entry memory pagetable v) = true := by
  by_contra notLeaf
  have points := Radix.Format.child_leaf shaped v
  have child : pteFormat.child (entry memory pagetable v) =
      some (ptePage (entry memory pagetable v)) :=
    child_eq_some_iff.mpr ⟨used, by simpa using notLeaf, rfl⟩
  rw [entry] at child
  rw [child] at points
  cases points

section Apart

variable {memory next : Ram} {pagetable : Nat} {held : Multiset Nat}

section

variable (keeps : Keeps held memory next) (apart : tablePages memory pagetable ⊆ held)
include keeps apart

/-- A page table among the pages that keep their contents stays what it is. -/
theorem tablePages_of_keeps :
    tablePages next pagetable = tablePages memory pagetable :=
  Radix.Format.nodes_congr (keeps.mono apart)

theorem entry_of_keeps (v : Nat) :
    entry next pagetable v = entry memory pagetable v :=
  Radix.Format.leaf_congr (keeps.mono apart) v

theorem shaped_of_keeps (shaped : pteFormat.Shaped memory.word 2 pagetable) :
    pteFormat.Shaped next.word 2 pagetable :=
  Radix.Format.shaped_congr (keeps.mono apart) shaped

end

end Apart

theorem tablePages_write (distinct : (tablePages memory pagetable).Nodup)
    (reached : pteFormat.slot memory.word 2 pagetable v = some last) (word : Nat) :
    tablePages (memory.write last (v % 512) word) pagetable = tablePages memory pagetable := by
  have tables : pteFormat.nodes (Radix.Format.write memory.word last (v % pteFormat.fanout) word)
      2 pagetable = tablePages memory pagetable := Radix.Format.nodes_write distinct reached
  rwa [pteFormat_fanout] at tables

section Pool

variable [Image]

/-- A page table of three levels, in a memory where the remaining pages are free or
`held` elsewhere. -/
structure Formed (pool : PagePool) (memory : Ram) (pagetable : Nat) (held : Multiset Nat) :
    Prop where
  accounts : Accounts pool memory (tablePages memory pagetable + held)
  linked : pteFormat.Linked memory.word 2 pagetable

namespace Formed

variable {pool : PagePool} {memory : Ram} {pagetable : Nat} {held : Multiset Nat}

section

variable (formed : Formed pool memory pagetable held)
include formed

theorem nodup : (tablePages memory pagetable).Nodup :=
  Multiset.nodup_of_le (Multiset.le_add_right _ _) formed.accounts.nodup_held

theorem notMem_tablePages (mem : page ∈ held) : page ∉ tablePages memory pagetable := by
  have distinct := (Multiset.nodup_add.mp formed.accounts.nodup_held).2.2
  exact fun inTable => Multiset.disjoint_left.mp distinct inTable mem

/-- A memory with the same page-table pages holds the same page table. -/
theorem of_agree (agree : Keeps (tablePages memory pagetable) memory next)
    (accounts : Accounts pool next (tablePages memory pagetable + others)) :
    Formed pool next pagetable others ∧ ∀ v, entry next pagetable v = entry memory pagetable v := by
  refine ⟨⟨?_, Radix.Format.linked_congr agree formed.linked⟩, Radix.Format.leaf_congr agree⟩
  rwa [tablePages, Radix.Format.nodes_congr agree]

theorem walk_run (bound : va < maxva) : (walk pagetable va false).run memory =
      .ok (pteFormat.slot memory.word 2 pagetable (va / pgsize), memory) := by
  rw [walk, if_neg (Nat.not_le.mpr bound)]
  exact walkLevels_run va formed.linked

theorem walk_returns (bound : va < maxva) :
    Returns (walk pagetable va true) memory fun found next =>
      Formed pool next pagetable held ∧ Keeps held memory next ∧
        (∀ v, entry next pagetable v = entry memory pagetable v) ∧
        memory.freelist.length ≤ next.freelist.length + 2 ∧
        match found with
        | none => memory.freelist.length < 2
        | some last => pteFormat.slot next.word 2 pagetable (va / pgsize) = some last := by
  rw [walk, if_neg (Nat.not_le.mpr bound)]
  refine (walkLevels_reaches formed.accounts formed.linked).mono fun found next reached => ?_
  obtain ⟨extended, result⟩ := reached
  exact ⟨⟨extended.accounts, extended.linked⟩, extended.keeps, extended.leaf, extended.taken,
    result⟩

/-- A word written where `walk` finds the entry of `v` is the new entry of `v`. -/
theorem write (word : Nat) (reached : pteFormat.slot memory.word 2 pagetable v = some last)
    (bound : v < maxva / pgsize) :
    Formed pool (memory.write last (v % 512) word) pagetable held ∧
      Keeps held memory (memory.write last (v % 512) word) ∧
      (∀ other, entry (memory.write last (v % 512) word) pagetable other = word ∨
        entry (memory.write last (v % 512) word) pagetable other = entry memory pagetable other) ∧
      ∀ other < maxva / pgsize, entry (memory.write last (v % 512) word) pagetable other =
        if other = v then word else entry memory pagetable other := by
  have inTable : last ∈ tablePages memory pagetable := Radix.Format.slot_mem_nodes reached
  have small {k : Nat} (below : k < maxva / pgsize) : k % 512 ^ 3 = k := by
    refine Nat.mod_eq_of_lt (lt_of_lt_of_le below ?_)
    simp [maxva, pgsize]
  have linked : pteFormat.Linked
      (Radix.Format.write memory.word last (v % pteFormat.fanout) word) 2 pagetable :=
    Radix.Format.linked_write formed.nodup reached formed.linked
  have written (other : Nat) : entry (memory.write last (v % pteFormat.fanout) word) pagetable
      other = if other % pteFormat.fanout ^ 3 = v % pteFormat.fanout ^ 3 then word
      else entry memory pagetable other :=
    Radix.Format.leaf_write formed.nodup reached other
  rw [pteFormat_fanout] at linked
  simp only [pteFormat_fanout, small bound] at written
  refine ⟨⟨?_, linked⟩, ?_, fun other => ?_, fun other below => ?_⟩
  · rw [tablePages_write formed.nodup reached]
    exact formed.accounts
  · exact Keeps.write fun mem => formed.notMem_tablePages mem inTable
  · rw [written]
    split
    · exact .inl rfl
    · exact .inr rfl
  · rw [written, small below]

end

theorem kfree_returns (formed : Formed pool memory pagetable (page ::ₘ held)) :
    Returns (kfree (page * pgsize)) memory fun _ next =>
      Formed pool next pagetable held ∧ Keeps (tablePages memory pagetable + held) memory next ∧
        ∀ v, entry next pagetable v = entry memory pagetable v := by
  have accounts := formed.accounts
  rw [Multiset.add_cons] at accounts
  refine accounts.kfree_returns.mono fun _ next freed => ?_
  obtain ⟨freedAccounts, keeps⟩ := freed
  obtain ⟨moved, entries⟩ := formed.of_agree
    (keeps.mono (Multiset.subset_of_le (Multiset.le_add_right _ _))) freedAccounts
  exact ⟨moved, keeps, entries⟩

end Formed

/-- A well-formed page table whose entries in use are leaves. -/
structure Table (pool : PagePool) (memory : Ram) (pagetable : Nat) (held : Multiset Nat) :
    Prop where
  accounts : Accounts pool memory (tablePages memory pagetable + held)
  shaped : pteFormat.Shaped memory.word 2 pagetable

namespace Table

variable {pool : PagePool} {memory : Ram} {pagetable word : Nat} {held : Multiset Nat}

section

variable (table : Table pool memory pagetable held)
include table

theorem formed : Formed pool memory pagetable held := ⟨table.accounts, table.shaped.linked⟩

/-- The entries of a page table stay leaves when one of them becomes a leaf or is cleared. -/
theorem alter (formed : Formed pool next pagetable others) (value : pteFormat.child word = none)
    (values : ∀ v, entry next pagetable v = word ∨
      entry next pagetable v = entry memory pagetable v) :
    Table pool next pagetable others := by
  refine ⟨formed.accounts, Radix.Format.shaped_of_linked formed.linked fun v => ?_⟩
  rcases values v with new | same
  · exact (congrArg pteFormat.child new).trans value
  · exact (congrArg pteFormat.child same).trans (Radix.Format.child_leaf table.shaped v)

theorem alike (formed : Formed pool next pagetable others)
    (entries : ∀ v, entry next pagetable v = entry memory pagetable v) :
    Table pool next pagetable others :=
  table.alter formed child_zero fun v => .inr (entries v)

theorem fill (mem : page ∈ held) (contents : Nat → Nat) :
    Table pool (memory.fill page contents) pagetable held ∧
      ∀ v, entry (memory.fill page contents) pagetable v = entry memory pagetable v := by
  obtain ⟨formed, entries⟩ := table.formed.of_agree
    (Keeps.fill (table.formed.notMem_tablePages mem)) table.accounts
  exact ⟨table.alike formed entries, entries⟩

theorem kalloc_returns :
    Returns kalloc memory fun found next =>
      match found with
      | none => memory.freelist = [] ∧ next = memory
      | some page => Table pool next pagetable (page ::ₘ held) ∧ Keeps held memory next ∧
          (∀ v, entry next pagetable v = entry memory pagetable v) ∧
          next.freelist.length + 1 = memory.freelist.length ∧
          ∀ i, next.word page i = junkAllocated := by
  refine table.accounts.kalloc_returns.mono fun found next allocated => ?_
  cases found with
  | none => exact allocated
  | some page =>
    obtain ⟨accounts, keeps, shorter, junk⟩ := allocated
    rw [← Multiset.add_cons] at accounts
    obtain ⟨formed, entries⟩ := table.formed.of_agree
      (keeps.mono (Multiset.subset_of_le (Multiset.le_add_right _ _))) accounts
    exact ⟨table.alike formed entries,
      keeps.mono (Multiset.subset_of_le (Multiset.le_add_left _ _)), entries, shorter, junk⟩

theorem walk_returns (bound : va < maxva) :
    Returns (walk pagetable va true) memory fun found next =>
      Table pool next pagetable held ∧ Keeps held memory next ∧
        (∀ v, entry next pagetable v = entry memory pagetable v) ∧
        memory.freelist.length ≤ next.freelist.length + 2 ∧
        match found with
        | none => memory.freelist.length < 2
        | some last => pteFormat.slot next.word 2 pagetable (va / pgsize) = some last := by
  refine (table.formed.walk_returns bound).mono fun found next walked => ?_
  obtain ⟨formed, keeps, entries, result⟩ := walked
  exact ⟨table.alike formed entries, keeps, entries, result⟩

theorem write (reached : pteFormat.slot memory.word 2 pagetable v = some last)
    (value : pteFormat.child word = none) (bound : v < maxva / pgsize) :
    Table pool (memory.write last (v % 512) word) pagetable held ∧
      Keeps held memory (memory.write last (v % 512) word) ∧
      ∀ other < maxva / pgsize, entry (memory.write last (v % 512) word) pagetable other =
        if other = v then word else entry memory pagetable other := by
  obtain ⟨formed, keeps, values, entries⟩ := table.formed.write word reached bound
  exact ⟨table.alter formed value values, keeps, entries⟩

end

theorem kfree_returns (table : Table pool memory pagetable (page ::ₘ held)) :
    Returns (kfree (page * pgsize)) memory fun _ next =>
      Table pool next pagetable held ∧ Keeps (tablePages memory pagetable + held) memory next ∧
        ∀ v, entry next pagetable v = entry memory pagetable v := by
  refine table.formed.kfree_returns.mono fun _ next freed => ?_
  obtain ⟨formed, keeps, entries⟩ := freed
  exact ⟨table.alike formed entries, keeps, entries⟩

end Table
end Pool
end Xv6.Memory
