import Mathlib.Order.Interval.Finset.Nat
import Xv6.Memory.AddressSpace

/-!
# Mapping and unmapping pages

`mappages` and `uvmunmap` on a well-formed page table, and the address space:
a page table whose user part maps a known set of virtual pages, each to a page
that nothing else refers to.
-/

namespace Xv6.Memory

open Xv6.Semantics

theorem pgRoundDown_mul (v : Nat) : pgRoundDown (v * pgsize) = v * pgsize := by
  simp only [pgRoundDown, pgsize]
  omega

theorem pgRoundDown_last (v : Nat) : pgRoundDown (v * pgsize + pgsize - 1) = v * pgsize := by
  simp only [pgRoundDown, pgsize]
  omega

theorem mul_pgsize_div (v : Nat) : v * pgsize / pgsize = v := Nat.mul_div_cancel v (by decide)

theorem mul_pgsize_lt (bound : v < maxva / pgsize) : v * pgsize < maxva := by
  simp only [maxva, pgsize] at bound ⊢
  omega

theorem px_zero_mul (v : Nat) : px 0 (v * pgsize) = v % 512 := by
  rw [px_zero, mul_pgsize_div, pteFormat_fanout]

theorem word_of_slot (reached : pteFormat.slot memory.word 2 pagetable v = some last) :
    memory.word last (v % 512) = entry memory pagetable v := by
  simp [entry, Radix.Format.leaf, reached]

theorem userTop_lt : userTop < maxva / pgsize := by
  simp [userTop, text, data, guardPage, stack, heap, shrimp, fry, trapframeVa, trampolineVa, maxva,
    pgsize]

section UserPages

variable {memory next : Ram} {pagetable v : Nat} {mapped fewer : Finset Nat}

theorem userPages_congr
    (entries : ∀ v ∈ mapped, entry next pagetable v = entry memory pagetable v) :
    userPages next pagetable mapped = userPages memory pagetable mapped :=
  Finset.sum_congr rfl fun v mem => by rw [entries v mem]

theorem userPages_insert (fresh : v ∉ mapped) :
    userPages memory pagetable (insert v mapped) =
      ptePage (entry memory pagetable v) ::ₘ userPages memory pagetable mapped := by
  rw [userPages, Finset.sum_insert fresh, Multiset.singleton_add, userPages]

theorem userPages_erase (mem : v ∈ mapped) :
    userPages memory pagetable mapped =
      ptePage (entry memory pagetable v) ::ₘ userPages memory pagetable (mapped.erase v) := by
  rw [← userPages_insert (Finset.notMem_erase v mapped), Finset.insert_erase mem]

theorem userPages_mono (subset : fewer ⊆ mapped) :
    userPages memory pagetable fewer ≤ userPages memory pagetable mapped := by
  rw [userPages, userPages, ← Finset.sum_sdiff subset]
  exact Multiset.le_add_left _ _

theorem card_userPages : (userPages memory pagetable mapped).card = mapped.card := by
  simp [userPages]

end UserPages

/-- The virtual pages `mapped` and those above the user part keep their entries,
and the mapped pages and the pages held elsewhere keep their contents. -/
structure Preserves (pagetable : Nat) (mapped : Finset Nat) (held : Multiset Nat)
    (memory next : Ram) : Prop where
  entries : ∀ v < maxva / pgsize, v ∈ mapped ∨ userTop ≤ v →
    entry next pagetable v = entry memory pagetable v
  keeps : Keeps (userPages memory pagetable mapped + held) memory next

namespace Preserves

variable {pagetable : Nat} {mapped : Finset Nat} {held : Multiset Nat} {memory middle next : Ram}

theorem refl : Preserves pagetable mapped held memory memory := ⟨fun _ _ _ => rfl, .refl _ _⟩

theorem userPages_eq (preserves : Preserves pagetable mapped held memory next)
    (user : ∀ v ∈ mapped, v < userTop) :
    userPages next pagetable mapped = userPages memory pagetable mapped :=
  userPages_congr fun v mem =>
    preserves.entries v ((user v mem).trans userTop_lt) (.inl mem)

theorem trans (first : Preserves pagetable mapped held memory middle)
    (second : Preserves pagetable mapped held middle next) (user : ∀ v ∈ mapped, v < userTop) :
    Preserves pagetable mapped held memory next := by
  constructor
  · intro v bound fixed
    rw [second.entries v bound fixed, first.entries v bound fixed]
  · have keeps := second.keeps
    rw [first.userPages_eq user] at keeps
    exact first.keeps.trans keeps

theorem mono (preserves : Preserves pagetable mapped held memory next) (subset : fewer ⊆ mapped)
    (included : part ≤ held) :
    Preserves pagetable fewer part memory next := by
  constructor
  · exact fun v bound fixed => preserves.entries v bound (fixed.imp_left fun mem => subset mem)
  · exact preserves.keeps.mono
      (Multiset.subset_of_le (add_le_add (userPages_mono subset) included))

theorem high (preserves : Preserves pagetable mapped held memory next) :
    Preserves pagetable ∅ held memory next :=
  preserves.mono (Finset.empty_subset _) le_rfl

theorem trans_high (first : Preserves pagetable ∅ held memory middle)
    (second : Preserves pagetable ∅ held middle next) :
    Preserves pagetable ∅ held memory next :=
  first.trans second fun v mem => absurd mem (Finset.notMem_empty v)

theorem keeps_held (preserves : Preserves pagetable mapped held memory next) :
    Keeps held memory next :=
  preserves.keeps.mono (Multiset.subset_of_le (Multiset.le_add_left _ _))

end Preserves

theorem card_le_of_bounds {pages : Multiset Nat} (low high : Nat) (distinct : pages.Nodup)
    (bounds : ∀ page ∈ pages, low ≤ page ∧ page < high) : pages.card ≤ high - low := by
  have subset : pages ≤ (Finset.Ico low high).val :=
    (Multiset.le_iff_subset distinct).mpr fun page mem => Finset.mem_Ico.mpr (bounds page mem)
  exact (Multiset.card_le_card subset).trans_eq (Nat.card_Ico low high)

section Pool

variable [Image]

/-- Distinct pages between `KERNBASE` and `PHYSTOP` are at most this many. -/
theorem PagePool.card_le (pool : PagePool) : pool.pages.card ≤ 32768 := by
  have bounds : ∀ page ∈ pool.pages, 0x80000 ≤ page ∧ page < 0x88000 := by
    intro page mem
    obtain ⟨low, high⟩ := pool.managed page mem
    have base := Image.kernbase_le
    simp only [kernbase, phystop_eq, pgsize] at low high base
    omega
  exact card_le_of_bounds 0x80000 0x88000 pool.nodup bounds

theorem uvmunmap_mul (pagetable v npages : Nat) (doFree : Bool) :
    uvmunmap pagetable (v * pgsize) npages doFree =
      unmapLoop npages pagetable (v * pgsize) doFree := by
  rw [uvmunmap, if_neg (by simp [Nat.mul_mod_left])]

namespace Formed

variable {pool : PagePool} {memory : Ram} {pagetable : Nat} {held : Multiset Nat}

/-- One round of the loop of `mappages`, at an unused entry. It fails only when fewer than two
pages are free. -/
theorem mapLoop_succ (formed : Formed pool memory pagetable held) (bound : v < maxva / pgsize)
    (unused : isValid (entry memory pagetable v) = false)
    (failed : ∀ next, Formed pool next pagetable held → Keeps held memory next →
      memory.freelist.length ≤ next.freelist.length + 2 → memory.freelist.length < 2 →
      (∀ other, entry next pagetable other = entry memory pagetable other) → post false next)
    (continued : ∀ next, Formed pool next pagetable held → Keeps held memory next →
      memory.freelist.length ≤ next.freelist.length + 2 →
      (∀ other, entry next pagetable other = mkPte pa perm ∨
        entry next pagetable other = entry memory pagetable other) →
      (∀ other < maxva / pgsize, entry next pagetable other =
        if other = v then mkPte pa perm else entry memory pagetable other) →
      Returns (if v * pgsize = last then pure true
        else mapLoop fuel pagetable ((v + 1) * pgsize) last (pa + pgsize) perm) next post) :
    Returns (mapLoop (fuel + 1) pagetable (v * pgsize) last pa perm) memory post := by
  refine (formed.walk_returns (mul_pgsize_lt bound)).bind fun found middle walked => ?_
  obtain ⟨grown, keeps, entries, taken, result⟩ := walked
  cases found with
  | none => exact .pure (failed _ grown keeps taken result entries)
  | some table =>
    rw [mul_pgsize_div] at result
    apply returns_load
    rw [px_zero_mul, word_of_slot result, entries, unused]
    obtain ⟨written, writtenKeeps, values, writtenEntries⟩ := grown.write (mkPte pa perm) result bound
    simp only [entries] at values writtenEntries
    rw [show v * pgsize + pgsize = (v + 1) * pgsize from (Nat.succ_mul ..).symm]
    exact continued _ written (keeps.trans writtenKeeps) taken values writtenEntries

/-- One round of the loop of `uvmunmap`. -/
theorem unmapLoop_succ (formed : Formed pool memory pagetable
      ((if doFree then {ptePage (entry memory pagetable v)} else 0) + held))
    (bound : v < maxva / pgsize) (used : isValid (entry memory pagetable v) = true)
    (flags : pteFlags (entry memory pagetable v) ≠ pteV)
    (continued : ∀ next, Formed pool next pagetable held → Keeps held memory next →
      tablePages next pagetable = tablePages memory pagetable →
      (∀ other, entry next pagetable other = 0 ∨
        entry next pagetable other = entry memory pagetable other) →
      (∀ other < maxva / pgsize, entry next pagetable other =
        if other = v then 0 else entry memory pagetable other) →
      Returns (unmapLoop n pagetable ((v + 1) * pgsize) doFree) next post) :
    Returns (unmapLoop (n + 1) pagetable (v * pgsize) doFree) memory post := by
  obtain ⟨last, reached, word⟩ := slot_of_used used
  refine .bind_run (formed.walk_run (mul_pgsize_lt bound)) ?_
  rw [mul_pgsize_div, reached]
  apply returns_load
  rw [px_zero_mul, word, if_neg (by simp [used]), if_neg flags]
  have freed : Returns (if doFree then kfree (pte2pa (entry memory pagetable v)) else pure ())
      memory fun _ next => Formed pool next pagetable held ∧
        Keeps (tablePages memory pagetable + held) memory next := by
    cases doFree with
    | false =>
      rw [if_neg Bool.false_ne_true, zero_add] at formed
      exact .pure ⟨formed, .refl _ _⟩
    | true => exact formed.kfree_returns.mono fun _ next after => ⟨after.1, after.2.1⟩
  refine freed.bind fun _ next after => ?_
  obtain ⟨freedFormed, keeps⟩ := after
  have kept : Keeps (tablePages memory pagetable) memory next :=
    keeps.mono (Multiset.subset_of_le (Multiset.le_add_right _ _))
  have slot : pteFormat.slot next.word 2 pagetable v = some last :=
    (Radix.Format.slot_congr kept v).trans reached
  obtain ⟨written, writtenKeeps, values, entries⟩ := freedFormed.write 0 slot bound
  simp only [entry_of_keeps kept (Multiset.Subset.refl _)] at values entries
  rw [show v * pgsize + pgsize = (v + 1) * pgsize by rw [Nat.succ_mul]]
  refine returns_store (continued _ written ?_ ?_ values entries)
  · exact (keeps.mono (Multiset.subset_of_le (Multiset.le_add_left _ _))).trans writtenKeeps
  · rw [tablePages_write freedFormed.nodup slot, tablePages_of_keeps kept (Multiset.Subset.refl _)]

end Formed

namespace Table

variable {pool : PagePool} {memory : Ram} {pagetable : Nat} {held : Multiset Nat}

/-- `mappages` of one page at an unused entry. -/
theorem mappages_returns (table : Table pool memory pagetable held)
    (bound : v < maxva / pgsize) (unused : isValid (entry memory pagetable v) = false)
    (leaf : LeafPerm perm) :
    Returns (mappages pagetable (v * pgsize) pgsize pa perm) memory fun done next =>
      Table pool next pagetable held ∧ Keeps held memory next ∧
        (∀ other < maxva / pgsize, entry next pagetable other =
          if done = true ∧ other = v then mkPte pa perm else entry memory pagetable other) ∧
        memory.freelist.length ≤ next.freelist.length + 2 ∧
        (done = false → memory.freelist.length < 2) := by
  rw [mappages, if_neg (by decide), pgRoundDown_mul, pgRoundDown_last]
  apply table.formed.mapLoop_succ bound unused
  · intro next formed keeps taken few entries
    exact ⟨table.alike formed entries, keeps, by simp [entries], taken, fun _ => few⟩
  intro next formed keeps taken values entries
  rw [if_pos rfl]
  exact .pure ⟨table.alter formed (child_mkPte leaf) values, keeps, by simpa using entries, taken,
    nofun⟩

theorem unmapLoop_succ (table : Table pool memory pagetable
      ((if doFree then {ptePage (entry memory pagetable v)} else 0) + held))
    (bound : v < maxva / pgsize) (used : isValid (entry memory pagetable v) = true)
    (continued : ∀ next, Table pool next pagetable held → Keeps held memory next →
      tablePages next pagetable = tablePages memory pagetable →
      (∀ other < maxva / pgsize, entry next pagetable other =
        if other = v then 0 else entry memory pagetable other) →
      Returns (unmapLoop n pagetable ((v + 1) * pgsize) doFree) next post) :
    Returns (unmapLoop (n + 1) pagetable (v * pgsize) doFree) memory post := by
  have flags := pteFlags_ne_pteV (isLeaf_entry table.shaped used)
  apply table.formed.unmapLoop_succ bound used flags
  intro next formed keeps tables values entries
  exact continued next (table.alter formed child_zero values) keeps tables entries

end Table

/-! ## Address spaces -/

/-- An address space that maps the virtual pages `mapped`, each to a page of
its own, in a memory where the remaining pages are free or `held` elsewhere. -/
structure Space (pool : PagePool) (memory : Ram) (pagetable : Nat) (mapped : Finset Nat)
    (held : Multiset Nat) : Prop where
  table : Table pool memory pagetable (userPages memory pagetable mapped + held)
  user : ∀ v ∈ mapped, v < userTop ∧ isValid (entry memory pagetable v) = true
  clear : ∀ v < userTop, v ∉ mapped → isValid (entry memory pagetable v) = false

namespace Space

variable {pool : PagePool} {memory : Ram} {pagetable : Nat} {mapped : Finset Nat}
  {held : Multiset Nat}

theorem card_mapped_le (space : Space pool memory pagetable mapped held) :
    mapped.card ≤ 32768 := by
  have accounts := congrArg Multiset.card space.table.accounts
  simp only [Multiset.card_add, card_userPages] at accounts
  have bound := pool.card_le
  omega

/-- A memory with the same page table and the same user entries holds the same space. -/
theorem of_table (space : Space pool memory pagetable mapped held)
    (table : Table pool next pagetable (userPages memory pagetable mapped + others))
    (entries : ∀ v < userTop, entry next pagetable v = entry memory pagetable v) :
    Space pool next pagetable mapped others := by
  have same : userPages next pagetable mapped = userPages memory pagetable mapped :=
    userPages_congr fun v mem => entries v (space.user v mem).1
  refine ⟨?_, fun v mem => ?_, fun v below notMapped => ?_⟩
  · rwa [same]
  · rw [entries v (space.user v mem).1]
    exact space.user v mem
  · rw [entries v below]
    exact space.clear v below notMapped

/-- A page held so far becomes the page of an unmapped virtual page. -/
theorem map {word : Nat} (space : Space pool memory pagetable mapped (page ::ₘ held))
    (below : v < userTop) (fresh : v ∉ mapped)
    (table : Table pool next pagetable (userPages memory pagetable mapped + (page ::ₘ held)))
    (entries : ∀ other < maxva / pgsize, entry next pagetable other =
      if other = v then word else entry memory pagetable other)
    (valid : isValid word = true) (refers : ptePage word = page) :
    Space pool next pagetable (insert v mapped) held := by
  have own : entry next pagetable v = word := by
    rw [entries v (below.trans userTop_lt), if_pos rfl]
  have rest {other : Nat} (inside : other < userTop) (differ : other ≠ v) :
      entry next pagetable other = entry memory pagetable other := by
    rw [entries other (inside.trans userTop_lt), if_neg differ]
  have differ {other : Nat} (mem : other ∈ mapped) : other ≠ v := by
    rintro rfl
    exact fresh mem
  have same : userPages next pagetable mapped = userPages memory pagetable mapped :=
    userPages_congr fun other mem => rest (space.user other mem).1 (differ mem)
  refine ⟨?_, fun other mem => ?_, fun other inside notMapped => ?_⟩
  · rw [userPages_insert fresh, own, refers, same, Multiset.cons_add, ← Multiset.add_cons]
    exact table
  · rcases Finset.mem_insert.mp mem with rfl | mem
    · exact ⟨below, own ▸ valid⟩
    · rw [rest (space.user other mem).1 (differ mem)]
      exact space.user other mem
  · rw [Finset.mem_insert, not_or] at notMapped
    rw [rest inside notMapped.1]
    exact space.clear other inside notMapped.2

/-- A virtual page is unmapped, and its page is held elsewhere or free. -/
theorem unmap (space : Space pool memory pagetable mapped held) (mem : v ∈ mapped)
    (table : Table pool next pagetable (userPages memory pagetable (mapped.erase v) + others))
    (entries : ∀ other < maxva / pgsize, entry next pagetable other =
      if other = v then 0 else entry memory pagetable other) :
    Space pool next pagetable (mapped.erase v) others := by
  have rest {other : Nat} (inside : other < userTop) (differ : other ≠ v) :
      entry next pagetable other = entry memory pagetable other := by
    rw [entries other (inside.trans userTop_lt), if_neg differ]
  have same : userPages next pagetable (mapped.erase v) =
      userPages memory pagetable (mapped.erase v) := by
    refine userPages_congr fun other inErase => ?_
    obtain ⟨differ, inMapped⟩ := Finset.mem_erase.mp inErase
    exact rest (space.user other inMapped).1 differ
  refine ⟨?_, fun other inErase => ?_, fun other inside notMapped => ?_⟩
  · rwa [same]
  · obtain ⟨differ, inMapped⟩ := Finset.mem_erase.mp inErase
    rw [rest (space.user other inMapped).1 differ]
    exact space.user other inMapped
  rcases eq_or_ne other v with rfl | differ
  · rw [entries other (inside.trans userTop_lt), if_pos rfl]
    exact isValid_zero
  · rw [rest inside differ]
    exact space.clear other inside fun inMapped =>
      notMapped (Finset.mem_erase.mpr ⟨differ, inMapped⟩)

theorem kalloc_returns (space : Space pool memory pagetable mapped held) :
    Returns kalloc memory fun found next =>
      match found with
      | none => memory.freelist = [] ∧ next = memory
      | some page => Space pool next pagetable mapped (page ::ₘ held) ∧
          Preserves pagetable mapped held memory next ∧
          next.freelist.length + 1 = memory.freelist.length ∧
          ∀ i, next.word page i = junkAllocated := by
  refine space.table.kalloc_returns.mono fun found next allocated => ?_
  cases found with
  | none => exact allocated
  | some page =>
    obtain ⟨table, keeps, entries, shorter, junk⟩ := allocated
    rw [← Multiset.add_cons] at table
    exact ⟨space.of_table table fun v _ => entries v, ⟨fun v _ _ => entries v, keeps⟩, shorter,
      junk⟩

section

variable (space : Space pool memory pagetable mapped (page ::ₘ held))
include space

theorem kfree_returns :
    Returns (kfree (page * pgsize)) memory fun _ next =>
      Space pool next pagetable mapped held ∧ Preserves pagetable mapped held memory next := by
  have table := space.table
  rw [Multiset.add_cons] at table
  refine table.kfree_returns.mono fun _ next freed => ?_
  obtain ⟨freedTable, keeps, entries⟩ := freed
  exact ⟨space.of_table freedTable fun v _ => entries v, fun v _ _ => entries v,
    keeps.mono (Multiset.subset_of_le (Multiset.le_add_left _ _))⟩

theorem fill (contents : Nat → Nat) :
    Space pool (memory.fill page contents) pagetable mapped (page ::ₘ held) ∧
      Preserves pagetable mapped held memory (memory.fill page contents) := by
  have mem : page ∈ userPages memory pagetable mapped + (page ::ₘ held) :=
    Multiset.mem_add.mpr (.inr (Multiset.mem_cons_self _ _))
  obtain ⟨table, entries⟩ := space.table.fill mem contents
  refine ⟨space.of_table table fun v _ => entries v, fun v _ _ => entries v, Keeps.fill ?_⟩
  have distinct := Multiset.nodup_of_le (Multiset.le_add_left _ _) space.table.accounts.nodup_held
  rw [Multiset.add_cons] at distinct
  exact (Multiset.nodup_cons.mp distinct).1

theorem mappages_returns (below : v < userTop) (fresh : v ∉ mapped) (leaf : LeafPerm perm) :
    Returns (mappages pagetable (v * pgsize) pgsize (page * pgsize) perm) memory fun done next =>
      Preserves pagetable mapped (page ::ₘ held) memory next ∧
        (if done then Space pool next pagetable (insert v mapped) held
        else Space pool next pagetable mapped (page ::ₘ held)) ∧
        memory.freelist.length ≤ next.freelist.length + 2 ∧
        (done = false → memory.freelist.length < 2) := by
  have bound := below.trans userTop_lt
  refine (space.table.mappages_returns bound (space.clear v below fresh) leaf).mono
    fun done next result => ?_
  obtain ⟨table, keeps, entries, taken, failed⟩ := result
  refine ⟨⟨fun other inside fixed => ?_, keeps⟩, ?_, taken, failed⟩
  · rw [entries other inside, if_neg]
    rintro ⟨-, rfl⟩
    rcases fixed with mem | high
    · exact fresh mem
    · omega
  cases done with
  | false =>
    exact space.of_table table fun other inside => by
      simpa using entries other (inside.trans userTop_lt)
  | true =>
    exact space.map below fresh table (by simpa using entries) (isValid_mkPte _ _)
      (ptePage_mkPte leaf)

end

/-- The loop of `uvmunmap` that frees the pages of consecutive virtual pages. -/
theorem unmapLoop_returns (space : Space pool memory pagetable mapped held)
    (all : Finset.Ico v (v + n) ⊆ mapped) :
    Returns (unmapLoop n pagetable (v * pgsize) true) memory fun _ next =>
      Space pool next pagetable (mapped \ Finset.Ico v (v + n)) held ∧
        Preserves pagetable (mapped \ Finset.Ico v (v + n)) held memory next ∧
        tablePages next pagetable = tablePages memory pagetable := by
  induction n generalizing v mapped memory with
  | zero =>
    rw [Nat.add_zero, Finset.Ico_self, Finset.sdiff_empty]
    exact .pure ⟨space, .refl, rfl⟩
  | succ n ih =>
    have first : v ∈ mapped := all (Finset.mem_Ico.mpr (by omega))
    obtain ⟨below, used⟩ := space.user v first
    have table : Table pool memory pagetable
        ((if true then {ptePage (entry memory pagetable v)} else 0) +
          (userPages memory pagetable (mapped.erase v) + held)) := by
      rw [if_pos rfl, ← add_assoc, Multiset.singleton_add, ← userPages_erase first]
      exact space.table
    refine table.unmapLoop_succ (below.trans userTop_lt) used
      fun next nextTable keeps tables entries => ?_
    have smaller := space.unmap first nextTable entries
    have rest : Finset.Ico (v + 1) (v + 1 + n) ⊆ mapped.erase v := by
      intro other mem
      obtain ⟨low, high⟩ := Finset.mem_Ico.mp mem
      exact Finset.mem_erase.mpr ⟨by omega, all (Finset.mem_Ico.mpr (by omega))⟩
    have remaining : mapped.erase v \ Finset.Ico (v + 1) (v + 1 + n) =
        mapped \ Finset.Ico v (v + (n + 1)) := by
      ext other
      simp only [Finset.mem_sdiff, Finset.mem_erase, Finset.mem_Ico]
      constructor
      · rintro ⟨⟨differ, inMapped⟩, outside⟩
        exact ⟨inMapped, by omega⟩
      · rintro ⟨inMapped, outside⟩
        exact ⟨⟨by omega, inMapped⟩, by omega⟩
    have step : Preserves pagetable (mapped.erase v) held memory next := by
      refine ⟨fun other bound fixed => ?_, keeps⟩
      rw [entries other bound, if_neg]
      rintro rfl
      rcases fixed with mem | high
      · exact Finset.notMem_erase other mapped mem
      · omega
    refine (ih smaller rest).mono fun _ last after => ?_
    rw [remaining] at after
    obtain ⟨last, preserves, lastTables⟩ := after
    refine ⟨last, (step.mono ?_ le_rfl).trans preserves ?_, lastTables.trans tables⟩
    · rw [← remaining]
      exact Finset.sdiff_subset
    · exact fun other mem => (last.user other mem).1

end Space
end Pool
end Xv6.Memory
