import Xv6.Memory.Isolation

/-!
# `uvmcopy` duplicates an address space

`uvmcopy` can fail at any page, for want of a page to copy to or of a page for the page
table of the child. Either every page of the parent has a copy of its own in the child,
or the child maps nothing and only the pages of its page table are missing from the free
list.
-/

namespace Xv6.Memory

open Xv6.Semantics

theorem userPages_eq_map (memory : Ram) (pagetable : Nat) (mapped : Finset Nat) :
    userPages memory pagetable mapped =
      mapped.val.map fun v => ptePage (entry memory pagetable v) := by
  rw [userPages, ← Multiset.sum_map_singleton (Multiset.map _ mapped.val), Multiset.map_map]
  rfl

theorem mem_userPages (mem : v ∈ mapped) :
    ptePage (entry memory pagetable v) ∈ userPages memory pagetable mapped := by
  rw [userPages_eq_map]
  exact Multiset.mem_map_of_mem _ mem

/-- `uvmcopy` returned 0: the first `n` virtual pages of `new` are copies of those of `old`,
in pages of their own that were free. -/
structure Duplicated (memory next : Ram) (old new n : Nat) (held : Multiset Nat) : Prop where
  mapped : ∀ v < n, isValid (entry next new v) = true
  copied : ∀ v < n, Space.Copied memory next old new v
  distinct : ∀ v < n, ∀ w < n, ptePage (entry next new v) = ptePage (entry next new w) → v = w
  apart : ∀ v < n, ptePage (entry next new v) ∉
    (next.freelist : Multiset Nat) + (tablePages next new + held)

/-- `uvmcopy` returned -1: nothing is mapped, and what was taken for data is free again. -/
structure Undone (memory next : Ram) (new n : Nat) : Prop where
  unmapped : ∀ v < n, isValid (entry next new v) = false
  returned : ∀ page ∈ memory.freelist, page ∈ next.freelist ∨ page ∈ tablePages next new

section Pool

variable [Image]

namespace Space

variable {pool : PagePool} {memory next : Ram} {pagetable : Nat} {mapped : Finset Nat}
  {held : Multiset Nat}

section

variable (space : Space pool memory pagetable mapped held)
include space

/-- The pages of an address space are apart from the free pages, the page table and the pages
held elsewhere. -/
theorem notMem_of_mapped (mem : v ∈ mapped) : ptePage (entry memory pagetable v) ∉
      (memory.freelist : Multiset Nat) + (tablePages memory pagetable + held) := by
  have nodup : (userPages memory pagetable mapped + ((memory.freelist : Multiset Nat) +
      (tablePages memory pagetable + held))).Nodup := by
    rw [add_left_comm, add_left_comm (userPages _ _ _)]
    exact space.table.accounts ▸ pool.nodup
  exact Multiset.disjoint_left.mp (Multiset.nodup_add.mp nodup).2.2 (mem_userPages mem)

theorem page_injective (vMember : v ∈ mapped) (wMember : w ∈ mapped)
    (same : ptePage (entry memory pagetable v) = ptePage (entry memory pagetable w)) : v = w := by
  have nodup : (userPages memory pagetable mapped).Nodup :=
    Multiset.nodup_of_le ((Multiset.le_add_right _ _).trans (Multiset.le_add_left _ _))
      space.table.accounts.nodup_held
  rw [userPages_eq_map] at nodup
  exact Multiset.inj_on_of_nodup_map nodup v vMember w wMember same

section

variable (after : Space pool next pagetable mapped held)
  (same : userPages next pagetable mapped = userPages memory pagetable mapped)
include after same

/-- With the same pages mapped and held, the free pages and the page table share the same
pages among them. -/
theorem free_add_tables :
    (next.freelist : Multiset Nat) + tablePages next pagetable =
      (memory.freelist : Multiset Nat) + tablePages memory pagetable := by
  have before := space.table.accounts
  have now := after.table.accounts
  rw [Accounts, ← add_assoc] at before now
  rw [same, ← before] at now
  exact add_right_cancel now

theorem mem_free_or_table (free : page ∈ memory.freelist) :
    page ∈ next.freelist ∨ page ∈ tablePages next pagetable := by
  have mem : page ∈ (memory.freelist : Multiset Nat) + tablePages memory pagetable :=
    Multiset.mem_add.mpr (.inl (Multiset.mem_coe.mpr free))
  rw [← space.free_add_tables after same] at mem
  simpa using mem

end

end

end Space

variable {pool : PagePool} {memory : Ram} {old new sz : Nat} {held : Multiset Nat}

/-- `uvmcopy` copies the first `PGROUNDUP(sz) / PGSIZE` pages into an address space that maps
no user page: all of them, or none. The pages of the parent stay as they are. -/
theorem uvmcopy_duplicates
    (child : Space pool memory new ∅
      (tablePages memory old + (userPages memory old (Finset.range (pages sz)) + held)))
    (parent : pteFormat.Shaped memory.word 2 old)
    (mapped : ∀ v < pages sz, isValid (entry memory old v) = true) :
    Returns (uvmcopy old new sz) memory fun done next =>
      Keeps (tablePages memory old + userPages memory old (Finset.range (pages sz))) memory next ∧
        if done then Duplicated memory next old new (pages sz)
          (tablePages memory old + (userPages memory old (Finset.range (pages sz)) + held))
        else Undone memory next new (pages sz) := by
  set parents := tablePages memory old + (userPages memory old (Finset.range (pages sz)) + held)
    with parentsDef
  have apart : tablePages memory old ⊆ parents := Multiset.subset_of_le (Multiset.le_add_right _ _)
  have elsewhere (v : Nat) (below : v < pages sz) : ptePage (entry memory old v) ∈ parents := by
    refine Multiset.mem_add.mpr (.inr (Multiset.mem_add.mpr (.inl ?_)))
    exact mem_userPages (Finset.mem_range.mpr (by omega))
  have bound : pages sz ≤ userTop := by
    have card := congrArg Multiset.card child.table.accounts
    simp only [parentsDef, Multiset.card_add, card_userPages, Finset.card_range] at card
    have size := pool.card_le
    have top : 32768 ≤ userTop := by decide
    omega
  refine (child.uvmcopy_returns parent apart mapped).mono fun done next after => ?_
  obtain ⟨preserves, outcome⟩ := after
  refine ⟨preserves.keeps_held.mono (Multiset.subset_of_le ?_), ?_⟩
  · rw [parentsDef, ← add_assoc]
    exact Multiset.le_add_right _ _
  cases done with
  | true =>
    obtain ⟨space, copied⟩ : Space pool next new (Finset.range (pages sz)) parents ∧ _ := outcome
    constructor
    case mapped => exact fun v below => (space.user v (Finset.mem_range.mpr below)).2
    case copied => exact copied elsewhere
    case distinct =>
      intro v vBelow w wBelow same
      exact space.page_injective (Finset.mem_range.mpr vBelow) (Finset.mem_range.mpr wBelow) same
    case apart => exact fun v below => space.notMem_of_mapped (Finset.mem_range.mpr below)
  | false =>
    have space : Space pool next new ∅ parents := outcome
    constructor
    case unmapped =>
      exact fun v below => space.clear v (lt_of_lt_of_le below bound) (Finset.notMem_empty v)
    case returned => exact fun page free => child.mem_free_or_table space (by simp [userPages]) free

/-- While `fork` copies, the pages of the parent are held beside the new address space. -/
theorem MemorySound.child_space (sound : MemorySound pool kernel) (differ : np ≠ p)
    (oldTable : (kernel.proc p).pagetable = some old)
    (newTable : (kernel.proc np).pagetable = some new) (zero : (kernel.proc np).sz = 0) :
    (∃ held, Space pool kernel.memory new ∅ (tablePages kernel.memory old +
      (userPages kernel.memory old (Finset.range (pages (kernel.proc p).sz)) + held))) ∧
      pteFormat.Shaped kernel.memory.word 2 old ∧
      ∀ v < pages (kernel.proc p).sz, isValid (entry kernel.memory old v) = true := by
  obtain ⟨source, -, oldSpace, -⟩ := sound.space oldTable
  obtain ⟨target, -, newSpace, -⟩ := sound.space newTable
  have present (v : Nat) (below : v < pages (kernel.proc p).sz) :
      isValid (entry kernel.memory old v) = true :=
    (oldSpace.user v (Finset.mem_range.mpr below)).2
  have within : tablePages kernel.memory old +
      userPages kernel.memory old (Finset.range (pages (kernel.proc p).sz)) ≤
      target ::ₘ kernel.outside np := by
    refine le_trans ?_ (Multiset.le_cons_self _ _)
    refine le_trans ?_ (owned_le_outside kernel differ.symm)
    rw [Process.owned, oldTable, spacePages, mappedPages_eq present]
    exact Multiset.le_add_right _ _
  obtain ⟨held, rest⟩ := Multiset.le_iff_exists_add.mp within
  rw [zero, rest, add_assoc] at newSpace
  exact ⟨⟨held, newSpace⟩, oldSpace.table.shaped, present⟩

end Pool

/-- The first `fork` after boot, about to copy the one page of the first process. -/
theorem uvmcopy_duplicates_firstFork : ∃ kernel,
    ((@system smallImage).restrict Coherent).Runs smallBoot [.userinit fun _ => 0, .fork slot0]
      kernel ∧ pages (kernel.proc slot0).sz = 1 ∧ ∃ old new held,
      (kernel.proc slot0).pagetable = some old ∧ (kernel.proc slot1).pagetable = some new ∧
      Returns (@uvmcopy smallImage old new (kernel.proc slot0).sz) kernel.memory fun done next =>
        Keeps (tablePages kernel.memory old + userPages kernel.memory old
          (Finset.range (pages (kernel.proc slot0).sz))) kernel.memory next ∧
          if done then Duplicated kernel.memory next old new (pages (kernel.proc slot0).sz)
            (tablePages kernel.memory old + (userPages kernel.memory old
              (Finset.range (pages (kernel.proc slot0).sz)) + held))
          else Undone kernel.memory next new (pages (kernel.proc slot0).sz) := by
  let _ : Image := smallImage
  obtain ⟨kernel, run, size, zero, oldTable, newTable⟩ : ∃ kernel,
      (system.restrict Coherent).Runs smallBoot [.userinit fun _ => 0, .fork slot0] kernel ∧
      (kernel.proc slot0).sz = 4096 ∧ (kernel.proc slot1).sz = 0 ∧
      (kernel.proc slot0).pagetable = some 524545 ∧ (kernel.proc slot1).pagetable = some 524552 :=
    TransitionSystem.exists_runs_restrict booted_smallBoot (by decide +kernel)
  obtain ⟨pool, -, sound⟩ := sound_of_runs run
  obtain ⟨⟨held, child⟩, parent, mapped⟩ := sound.memory.child_space
    (show slot1 ≠ slot0 by decide) oldTable newTable zero
  exact ⟨kernel, run, by rw [size]; rfl, _, _, held, oldTable, newTable,
    uvmcopy_duplicates child parent mapped⟩

end Xv6.Memory
