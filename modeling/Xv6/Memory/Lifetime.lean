import Mathlib.Algebra.BigOperators.Intervals
import Xv6.Memory.Sizing

/-!
# Creating and tearing down page tables

`freewalk` gives back every page-table page of a tree and nothing else, so
`proc_freepagetable` gives back exactly what an address space owns.
`proc_pagetable` either creates an address space with the trampoline and the
trapframe mapped, or leaves the account as it was.
-/

namespace Xv6.Memory

open Xv6.Semantics

/-- The virtual page of the trampoline. -/
def trampolineV : Nat := maxva / pgsize - 1

/-- The virtual page of the trapframe. -/
def trapframeV : Nat := maxva / pgsize - 2

theorem trampolineV_lt : trampolineV < maxva / pgsize := by
  simp [trampolineV, maxva, pgsize]

theorem trapframeV_lt : trapframeV < maxva / pgsize := by
  simp [trapframeV, maxva, pgsize]

theorem userTop_le_trampolineV : userTop ≤ trampolineV := by
  simp [userTop, text, data, guardPage, stack, heap, shrimp, fry, trapframeVa, trampolineVa,
    trampolineV, maxva, pgsize]

theorem userTop_le_trapframeV : userTop ≤ trapframeV := by
  simp [userTop, text, data, guardPage, stack, heap, shrimp, fry, trapframeVa, trampolineVa,
    trapframeV, maxva, pgsize]

theorem trapframeV_ne_trampolineV : trapframeV ≠ trampolineV := by
  simp [trapframeV, trampolineV, maxva, pgsize]

theorem leafPerm_trampoline : LeafPerm (pteR ||| pteX) := ⟨by decide, by decide⟩

theorem leafPerm_trapframe : LeafPerm (pteR ||| pteW) := ⟨by decide, by decide⟩

/-! ## `freewalk` -/

/-- `freewalk` skips a page whose entries point to no page-table page. -/
theorem freeLoop_run
    (leaves : ∀ j, i ≤ j → j < i + count → pteFormat.child (memory.word pagetable j) = none) :
    (freeLoop free pagetable count i).run memory = .ok ((), memory) := by
  induction count generalizing i with
  | zero => rfl
  | succ count ih =>
    have leaf := leaves i le_rfl (by omega)
    have skipped : ¬(isValid (memory.word pagetable i) = true ∧
        ¬isLeaf (memory.word pagetable i) = true) := by
      intro points
      have child := child_eq_some_iff.mpr ⟨points.1, points.2, rfl⟩
      rw [leaf] at child
      cases child
    have rest := ih (i := i + 1) fun j low high => leaves j (by omega) (by omega)
    show (StateT.run (if isValid (memory.word pagetable i) = true ∧
      ¬isLeaf (memory.word pagetable i) = true then _ else _) memory) = _
    rw [if_neg skipped]
    exact rest

/-- What lies below the entries of a page-table page from `i` on. -/
def remaining (memory : Ram) (level pagetable i : Nat) : Multiset Nat :=
  ∑ j ∈ Finset.Ico i 512, pteFormat.below memory.word level (memory.word pagetable j)

theorem remaining_eq (bound : i < 512) :
    remaining memory level pagetable i =
      pteFormat.below memory.word level (memory.word pagetable i) +
        remaining memory level pagetable (i + 1) :=
  Finset.sum_eq_sum_Ico_succ_bot bound _

theorem below_le_remaining (low : i ≤ j) (bound : j < 512) :
    pteFormat.below memory.word level (memory.word pagetable j) ≤
      remaining memory level pagetable i := by
  rw [remaining, ← Finset.add_sum_erase _ _ (Finset.mem_Ico.mpr ⟨low, bound⟩)]
  exact Multiset.le_add_right _ _

section Pool

variable [Image]

/-- What a function that frees page tables of one level does. -/
def Frees (pool : PagePool) (level : Nat) (free : Nat → M Unit) : Prop :=
  ∀ {pagetable : Nat} {held : Multiset Nat} {memory : Ram},
    Accounts pool memory (pteFormat.nodes memory.word level pagetable + held) →
    pteFormat.Shaped memory.word level pagetable →
    Returns (free pagetable) memory fun _ next => Accounts pool next held ∧ Keeps held memory next

/-- The loop of `freewalk` frees what lies below the remaining entries. -/
theorem freeLoop_returns (frees : Frees pool level free) (ends : i + count = 512)
    (accounts : Accounts pool memory
      (pagetable ::ₘ (remaining memory level pagetable i + held)))
    (shaped : ∀ j, i ≤ j → j < 512 → ∀ child,
      pteFormat.child (memory.word pagetable j) = some child →
      pteFormat.Shaped memory.word level child) :
    Returns (freeLoop free pagetable count i) memory fun _ next =>
      Accounts pool next (pagetable ::ₘ held) ∧ Keeps held memory next := by
  induction count generalizing i memory with
  | zero =>
    obtain rfl : i = 512 := ends
    rw [remaining, Finset.Ico_self, Finset.sum_empty, zero_add] at accounts
    exact .pure ⟨accounts, .refl _ _⟩
  | succ count ih =>
    have bound : i < 512 := by omega
    rw [remaining_eq bound] at accounts
    apply returns_load
    split
    · rename_i points
      have child := child_eq_some_iff.mpr ⟨points.1, points.2, rfl⟩
      rw [Radix.Format.below_of_child child, add_assoc, ← Multiset.add_cons] at accounts
      have distinct := Multiset.nodup_of_le (Multiset.le_add_left _ _) accounts.nodup_held
      have fresh := (Multiset.nodup_cons.mp distinct).1
      refine (frees accounts (shaped i le_rfl bound _ child)).bind fun _ next freed => ?_
      obtain ⟨freedAccounts, keeps⟩ := freed
      apply returns_store
      -- The entry is cleared; the entries after it and what lies below them are untouched.
      have entries (j : Nat) (later : i + 1 ≤ j) :
          (next.write pagetable i 0).word pagetable j = memory.word pagetable j := by
        rw [Ram.write_word, Radix.Format.write_self, Function.update_of_ne (by omega),
          keeps pagetable (Multiset.mem_cons_self _ _)]
      have unchanged : Keeps (remaining memory level pagetable (i + 1) + held) memory
          (next.write pagetable i 0) := by
        intro other mem
        rw [Ram.write_word, Radix.Format.write_of_ne,
          keeps other (Multiset.mem_cons_of_mem mem)]
        rintro rfl
        exact fresh mem
      have below (j : Nat) (later : i + 1 ≤ j) (small : j < 512) :
          Keeps (pteFormat.below memory.word level (memory.word pagetable j)) memory
            (next.write pagetable i 0) :=
        unchanged.mono (Multiset.subset_of_le
          ((below_le_remaining later small).trans (Multiset.le_add_right _ _)))
      have same : remaining (next.write pagetable i 0) level pagetable (i + 1) =
          remaining memory level pagetable (i + 1) := by
        refine Finset.sum_congr rfl fun j mem => ?_
        obtain ⟨later, small⟩ := Finset.mem_Ico.mp mem
        rw [entries j later, Radix.Format.below_congr (below j later small)]
      refine (ih (by omega) ?_ fun j later small next points => ?_).mono
        fun _ last after => ⟨after.1, ?_⟩
      · rw [same]
        exact freedAccounts
      · rw [entries j later] at points
        have inside := below j later small
        rw [Radix.Format.below_of_child points] at inside
        exact Radix.Format.shaped_congr inside (shaped j (by omega) small next points)
      · exact (unchanged.mono (Multiset.subset_of_le (Multiset.le_add_left _ _))).trans after.2
    rename_i leaf
    have points : pteFormat.child (memory.word pagetable i) = none := by
      by_contra some
      obtain ⟨child, points⟩ := Option.ne_none_iff_exists'.mp some
      obtain ⟨used, inner, -⟩ := child_eq_some_iff.mp points
      exact leaf ⟨used, inner⟩
    rw [Radix.Format.below_of_none points, zero_add] at accounts
    exact ih (by omega) accounts fun j later => shaped j (by omega)

theorem frees_freewalk (pool : PagePool) (level : Nat) :
    Frees pool level (freewalk (level + 1)) := by
  induction level with
  | zero =>
    intro pagetable held memory accounts shaped
    refine .bind_run (freeLoop_run fun j _ bound => shaped j (by simpa using bound)) ?_
    exact Accounts.kfree_returns accounts
  | succ level ih =>
    intro pagetable held memory accounts shaped
    have nodes : pteFormat.nodes memory.word (level + 1) pagetable =
        pagetable ::ₘ remaining memory level pagetable 0 := by
      rw [Radix.Format.nodes, remaining, pteFormat_fanout, Finset.range_eq_Ico]
      rfl
    rw [nodes, Multiset.cons_add] at accounts
    have inside : ∀ j, 0 ≤ j → j < 512 → ∀ child,
        pteFormat.child (memory.word pagetable j) = some child →
        pteFormat.Shaped memory.word level child := by
      intro j _ bound child points
      obtain ⟨found, foundPoints, continued⟩ :=
        shaped j (by simpa using bound) (pteFormat.valid_of_child points)
      obtain rfl : found = child := Option.some_injective _ (foundPoints.symm.trans points)
      exact continued
    refine (freeLoop_returns ih rfl accounts inside).bind fun _ next after => ?_
    refine after.1.kfree_returns.mono fun _ last freed => ?_
    exact ⟨freed.1, after.2.trans freed.2⟩

/-! ## Whole address spaces -/

namespace Space

variable {pool : PagePool} {memory : Ram} {pagetable : Nat} {mapped : Finset Nat}
  {held : Multiset Nat}

theorem uvmfree_returns (space : Space pool memory pagetable (Finset.range (pages sz)) held) :
    Returns (uvmfree pagetable sz) memory fun _ next =>
      Accounts pool next held ∧ Keeps held memory next := by
  have emptied : Returns (if 0 < sz then uvmunmap pagetable 0 (pgRoundUp sz / pgsize) true
      else pure ()) memory fun _ next =>
        Space pool next pagetable ∅ held ∧ Keeps held memory next := by
    split
    · have all : Finset.Ico 0 (0 + pages sz) ⊆ Finset.range (pages sz) := by
        rw [Nat.zero_add, Finset.range_eq_Ico]
      refine (space.unmapLoop_returns all).mono fun _ next after => ?_
      rw [Nat.zero_add, ← Finset.range_eq_Ico, Finset.sdiff_self] at after
      exact ⟨after.1, after.2.1.keeps_held⟩
    · rename_i empty
      obtain rfl : sz = 0 := by omega
      exact .pure ⟨space, .refl _ _⟩
  refine emptied.bind fun _ next after => ?_
  have accounts := after.1.table.accounts
  rw [userPages, Finset.sum_empty, zero_add] at accounts
  refine (frees_freewalk pool 2 accounts after.1.table.shaped).mono fun _ last freed => ?_
  exact ⟨freed.1, after.2.trans freed.2⟩

/-- `uvmunmap` of one virtual page above the user part, whose page stays. -/
theorem unmapHigh_returns (space : Space pool memory pagetable mapped held)
    (high : userTop ≤ v) (bound : v < maxva / pgsize)
    (used : isValid (entry memory pagetable v) = true) :
    Returns (uvmunmap pagetable (v * pgsize) 1 false) memory fun _ next =>
      Space pool next pagetable mapped held ∧ Keeps held memory next ∧
        ∀ other < maxva / pgsize, entry next pagetable other =
          if other = v then 0 else entry memory pagetable other := by
  have table : Table pool memory pagetable
      ((if false then {ptePage (entry memory pagetable v)} else 0) +
        (userPages memory pagetable mapped + held)) := by
    rw [if_neg Bool.false_ne_true, zero_add]
    exact space.table
  rw [uvmunmap_mul]
  refine table.unmapLoop_succ bound used fun next after keeps _ entries => ?_
  refine .pure ⟨space.of_table after fun other below => ?_,
    keeps.mono (Multiset.subset_of_le (Multiset.le_add_left _ _)), entries⟩
  rw [entries other (below.trans userTop_lt), if_neg (by omega)]

/-- `proc_freepagetable` gives back everything the address space owns. -/
theorem procFreepagetable_returns
    (space : Space pool memory pagetable (Finset.range (pages sz)) held)
    (trampoline : isValid (entry memory pagetable trampolineV) = true)
    (trapframe : isValid (entry memory pagetable trapframeV) = true) :
    Returns (procFreepagetable pagetable sz) memory fun _ next =>
      Accounts pool next held ∧ Keeps held memory next := by
  refine (space.unmapHigh_returns userTop_le_trampolineV trampolineV_lt trampoline).bind
    fun _ first after => ?_
  obtain ⟨firstSpace, firstKeeps, entries⟩ := after
  have stillUsed : isValid (entry first pagetable trapframeV) = true := by
    rw [entries _ trapframeV_lt, if_neg trapframeV_ne_trampolineV]
    exact trapframe
  refine (firstSpace.unmapHigh_returns userTop_le_trapframeV trapframeV_lt stillUsed).bind
    fun _ second after => ?_
  obtain ⟨secondSpace, secondKeeps, -⟩ := after
  refine secondSpace.uvmfree_returns.mono fun _ last freed => ?_
  exact ⟨freed.1, (firstKeeps.trans secondKeeps).trans freed.2⟩

/-- `mappages` of one virtual page above the user part, at an unused entry. -/
theorem mapHigh_returns (space : Space pool memory pagetable mapped held)
    (high : userTop ≤ v) (bound : v < maxva / pgsize)
    (unused : isValid (entry memory pagetable v) = false) (leaf : LeafPerm perm) :
    Returns (mappages pagetable (v * pgsize) pgsize pa perm) memory fun done next =>
      Space pool next pagetable mapped held ∧ Keeps held memory next ∧
        (∀ other < maxva / pgsize, entry next pagetable other =
          if done = true ∧ other = v then mkPte pa perm else entry memory pagetable other) ∧
        memory.freelist.length ≤ next.freelist.length + 2 ∧
        (done = false → memory.freelist.length < 2) := by
  refine (space.table.mappages_returns bound unused leaf).mono fun done next result => ?_
  obtain ⟨table, keeps, entries, taken, failed⟩ := result
  refine ⟨space.of_table table fun other below => ?_,
    keeps.mono (Multiset.subset_of_le (Multiset.le_add_left _ _)), entries, taken, failed⟩
  rw [entries other (below.trans userTop_lt), if_neg]
  omega

end Space

theorem uvmcreate_returns (accounts : Accounts pool memory held) :
    Returns uvmcreate memory fun found next =>
      match found with
      | none => memory.freelist = [] ∧ next = memory
      | some pagetable => Space pool next pagetable ∅ held ∧ Keeps held memory next ∧
          (∀ v, entry next pagetable v = 0) ∧
          next.freelist.length + 1 = memory.freelist.length := by
  refine accounts.kalloc_returns.bind fun found taken allocated => ?_
  cases found with
  | none => exact .pure allocated
  | some pagetable =>
    obtain ⟨takenAccounts, keeps, shorter, -⟩ := allocated
    have fresh := (Multiset.nodup_cons.mp takenAccounts.nodup_held).1
    refine returns_fill (.pure ?_)
    have cleared : ∀ i, (taken.fill pagetable fun _ => 0).word pagetable i =
        pteFormat.empty := by simp
    have entries (v : Nat) : entry (taken.fill pagetable fun _ => 0) pagetable v = 0 :=
      (Radix.Format.leaf_of_empty cleared 2 v).trans pteFormat_empty
    refine ⟨⟨⟨?_, Radix.Format.shaped_of_empty cleared 2⟩, ?_, ?_⟩,
      keeps.trans (Keeps.fill fresh), entries, shorter⟩
    · rw [tablePages, Radix.Format.nodes_of_empty cleared, userPages, Finset.sum_empty, zero_add,
        Multiset.singleton_add]
      exact takenAccounts
    · exact fun v mem => by simp at mem
    · exact fun v _ _ => by rw [entries, isValid_zero]

variable {memory : Ram} {pagetable : Nat}

/-- What `proc_pagetable` returns: nothing, and the account as it was, or a new
address space that maps the trampoline and the trapframe only. -/
def Created (pool : PagePool) (trapframe : Nat) (held : Multiset Nat) (memory : Ram)
    (found : Option Nat) (next : Ram) : Prop :=
  Keeps held memory next ∧
    match found with
    | none => Accounts pool next held ∧ memory.freelist.length < 5
    | some pagetable => Space pool next pagetable ∅ held ∧
        (∀ v < maxva / pgsize, entry next pagetable v =
          if v = trapframeV then mkPte (trapframe * pgsize) (pteR ||| pteW)
          else if v = trampolineV then mkPte Image.trampoline (pteR ||| pteX) else 0) ∧
        memory.freelist.length ≤ next.freelist.length + 5

theorem procPagetable_returns (accounts : Accounts pool memory held) (trapframe : Nat) :
    Returns (procPagetable trapframe) memory (Created pool trapframe held memory) := by
  refine (uvmcreate_returns accounts).bind fun found created result => ?_
  cases found with
  | none =>
    obtain ⟨empty, rfl⟩ := result
    exact .pure ⟨.refl _ _, accounts, by simp [empty]⟩
  | some pagetable =>
    obtain ⟨space, keeps, entries, shorter⟩ := result
    have noUser (next : Ram) (after : Space pool next pagetable ∅ held) :
        Space pool next pagetable (Finset.range (pages 0)) held := after
    refine (space.mapHigh_returns userTop_le_trampolineV trampolineV_lt (by rw [entries]; rfl)
      leafPerm_trampoline).bind fun done first mapped => ?_
    obtain ⟨firstSpace, firstKeeps, firstEntries, firstTaken, firstFailed⟩ := mapped
    cases done with
    | false =>
      refine (noUser _ firstSpace).uvmfree_returns.bind fun _ last freed => ?_
      have few := firstFailed rfl
      exact .pure ⟨(keeps.trans firstKeeps).trans freed.2, freed.1, by omega⟩
    | true =>
      have unused : isValid (entry first pagetable trapframeV) = false := by
        rw [firstEntries _ trapframeV_lt, if_neg (by simp [trapframeV_ne_trampolineV]), entries]
        rfl
      refine (firstSpace.mapHigh_returns userTop_le_trapframeV trapframeV_lt unused
        leafPerm_trapframe).bind fun done second mapped => ?_
      obtain ⟨secondSpace, secondKeeps, secondEntries, secondTaken, secondFailed⟩ := mapped
      have untilSecond := (keeps.trans firstKeeps).trans secondKeeps
      cases done with
      | true =>
        refine .pure ⟨untilSecond, secondSpace, fun v bound => ?_, by omega⟩
        rw [secondEntries v bound, firstEntries v bound, entries]
        simp
      | false =>
        have used : isValid (entry second pagetable trampolineV) = true := by
          rw [secondEntries _ trampolineV_lt, if_neg (by simp),
            firstEntries _ trampolineV_lt, if_pos (by simp)]
          exact isValid_mkPte _ _
        refine (secondSpace.unmapHigh_returns userTop_le_trampolineV trampolineV_lt used).bind
          fun _ third after => ?_
        obtain ⟨thirdSpace, thirdKeeps, -⟩ := after
        refine (noUser _ thirdSpace).uvmfree_returns.bind fun _ last freed => ?_
        have few := secondFailed rfl
        exact .pure ⟨(untilSecond.trans thirdKeeps).trans freed.2, freed.1, by omega⟩

end Pool
end Xv6.Memory
