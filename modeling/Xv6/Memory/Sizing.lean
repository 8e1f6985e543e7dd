import Xv6.Memory.Mapping

/-!
# Growing, shrinking and copying user memory

A process of size `sz` maps exactly the virtual pages below `pages sz`. The
specifications of `uvmdealloc`, `uvmalloc` and `uvmcopy` follow from those of
`mappages` and `uvmunmap` by induction on the pages their loops visit. On the
paths on which memory runs out, what was allocated goes back to the free list.

`uvmalloc` and `uvmcopy` take a page from the free list, give it its contents and map
it, page after page. The pages mapped earlier keep their contents while later ones are
mapped, so at the end every page holds what it was given: zeros in one case, a copy of
a page of the parent in the other.
-/

namespace Xv6.Memory

open Xv6.Semantics

/-- The number of pages of a process of size `sz`. -/
def pages (sz : Nat) : Nat := pgRoundUp sz / pgsize

theorem pages_eq (sz : Nat) : pages sz = (sz + 4095) / 4096 := by
  simp only [pages, pgRoundUp, pgsize]
  omega

theorem pgRoundUp_eq (sz : Nat) : pgRoundUp sz = pages sz * pgsize := by
  simp only [pages_eq, pgRoundUp, pgsize]

theorem pages_mul (n : Nat) : pages (n * pgsize) = n := by
  simp only [pages_eq, pgsize]
  omega

theorem pages_mono (le : small ≤ large) : pages small ≤ pages large := by
  simp only [pages_eq]
  omega

/-! ## What is taken from the free list -/

section Taken

variable {memory : Ram}

theorem kalloc_ensures : Ensures kalloc memory fun found next =>
    (found = none → next = memory) ∧
      ∀ page, found = some page → memory.freelist = page :: next.freelist := by
  intro found next ran
  obtain ⟨freelist, word⟩ := memory
  cases freelist with
  | nil =>
    cases ran
    exact ⟨fun _ => rfl, nofun⟩
  | cons first others =>
    cases ran
    refine ⟨nofun, fun page same => ?_⟩
    cases same
    rfl

theorem kalloc_taken : Ensures kalloc memory fun _ next => next.freelist <:+ memory.freelist := by
  refine kalloc_ensures.mono fun found next after => ?_
  cases found with
  | none => rw [after.1 rfl]
  | some page =>
    rw [after.2 page rfl]
    exact List.suffix_cons page next.freelist

theorem walkLevels_taken (level pagetable va : Nat) (alloc : Bool) :
    Ensures (walkLevels level pagetable va alloc) memory fun _ next =>
      next.freelist <:+ memory.freelist := by
  induction level generalizing pagetable memory with
  | zero => exact .pure List.suffix_rfl
  | succ level ih =>
    refine .bind_run rfl ?_
    split
    · exact ih _
    split
    · refine kalloc_taken.bind fun found taken after => ?_
      cases found with
      | none => exact .pure after
      | some page =>
        exact (ih page).mono fun _ next further => further.trans after
    · exact .pure List.suffix_rfl

theorem walk_taken (pagetable va : Nat) (alloc : Bool) :
    Ensures (walk pagetable va alloc) memory fun _ next => next.freelist <:+ memory.freelist := by
  rw [walk]
  split
  · exact .throw
  · exact walkLevels_taken 2 pagetable va alloc

theorem mapLoop_taken (fuel pagetable a last pa perm : Nat) :
    Ensures (mapLoop fuel pagetable a last pa perm) memory fun _ next =>
      next.freelist <:+ memory.freelist := by
  induction fuel generalizing memory a pa with
  | zero => exact .throw
  | succ fuel ih =>
    refine (walk_taken pagetable a true).bind fun found middle after => ?_
    cases found with
    | none => exact .pure after
    | some table =>
      refine .bind_run rfl ?_
      split
      · exact .throw
      · refine .bind_run rfl ?_
        split
        · exact .pure after
        · exact (ih _ _).mono fun _ next further => further.trans after

theorem mappages_taken (pagetable va size pa perm : Nat) :
    Ensures (mappages pagetable va size pa perm) memory fun _ next =>
      next.freelist <:+ memory.freelist := by
  rw [mappages]
  split
  · exact .throw
  · exact mapLoop_taken _ _ _ _ _ _

end Taken

theorem pteFlags_mkPte_pteFlags (valid : isValid pte = true) :
    pteFlags (mkPte (page * pgsize) (pteFlags pte)) = pteFlags pte := by
  simp only [isValid, decide_eq_true_eq] at valid
  simp only [pteFlags, mkPte_eq, pgsize]
  omega

section Pool

variable [Image]

namespace Space

variable {pool : PagePool} {memory : Ram} {pagetable : Nat} {held : Multiset Nat}

theorem lt_userTop (space : Space pool memory pagetable (Finset.range n) held) : n < userTop := by
  have bound := space.card_mapped_le
  rw [Finset.card_range] at bound
  apply lt_of_le_of_lt bound
  simp [userTop, text, data, guardPage, stack, heap, shrimp, fry, trapframeVa, trampolineVa, maxva,
    pgsize]

theorem uvmdealloc_returns
    (space : Space pool memory pagetable (Finset.range (pages oldsz)) held) (newsz : Nat) :
    Returns (uvmdealloc pagetable oldsz newsz) memory fun sz next =>
      sz = min oldsz newsz ∧ Space pool next pagetable (Finset.range (pages sz)) held ∧
        Preserves pagetable (Finset.range (pages sz)) held memory next ∧
        tablePages next pagetable = tablePages memory pagetable := by
  rw [uvmdealloc]
  split
  · next larger => exact .pure ⟨(min_eq_left larger).symm, space, .refl, rfl⟩
  have least : newsz = min oldsz newsz := (min_eq_right (by omega)).symm
  have fewer : pages newsz ≤ pages oldsz := pages_mono (by omega)
  split
  · rename_i removes
    show Returns (uvmunmap pagetable (pgRoundUp newsz)
      ((pgRoundUp oldsz - pgRoundUp newsz) / pgsize) true >>= fun _ => pure newsz) memory _
    rw [pgRoundUp_eq, pgRoundUp_eq, ← Nat.sub_mul, mul_pgsize_div, uvmunmap_mul]
    have covered : Finset.Ico (pages newsz) (pages newsz + (pages oldsz - pages newsz)) ⊆
        Finset.range (pages oldsz) := by
      intro v mem
      have := Finset.mem_Ico.mp mem
      exact Finset.mem_range.mpr (by omega)
    have remaining : Finset.range (pages oldsz) \
        Finset.Ico (pages newsz) (pages newsz + (pages oldsz - pages newsz)) =
        Finset.range (pages newsz) := by
      ext v
      simp only [Finset.mem_sdiff, Finset.mem_range, Finset.mem_Ico]
      omega
    refine (space.unmapLoop_returns covered).bind fun _ next after => ?_
    rw [remaining] at after
    exact .pure ⟨least, after⟩
  rename_i keeps
  have same : pages newsz = pages oldsz := by
    rw [pgRoundUp_eq, pgRoundUp_eq] at keeps
    simp only [pgsize] at keeps
    omega
  rw [← same] at space
  exact .pure ⟨least, space, .refl, rfl⟩

/-- What `uvmalloc` returns from the page `k` on, when it began at the page `o`:
the size asked for, or 0 and the address space it began with. -/
def Enlarged (pool : PagePool) (pagetable o n newsz : Nat) (held : Multiset Nat) (memory : Ram)
    (sz : Nat) (next : Ram) : Prop :=
  Preserves pagetable (Finset.range o) held memory next ∧
    ((sz = newsz ∧ Space pool next pagetable (Finset.range n) held) ∨
      (sz = 0 ∧ o < n ∧ Space pool next pagetable (Finset.range o) held))

theorem giveUp_returns (began : o ≤ k) (unfinished : k < n)
    (space : Space pool memory pagetable (Finset.range k) held) (newsz : Nat) :
    Returns (do let _ ← uvmdealloc pagetable (k * pgsize) (o * pgsize); return 0) memory
      fun sz next => Enlarged pool pagetable o n newsz held memory sz next ∧ sz = 0 := by
  rw [← pages_mul k] at space
  refine (space.uvmdealloc_returns (o * pgsize)).bind fun sz next after => ?_
  obtain ⟨size, smaller, preserves, -⟩ := after
  have least : sz = o * pgsize := by
    rw [size]
    exact min_eq_right (Nat.mul_le_mul_right _ began)
  rw [least, pages_mul] at smaller preserves
  exact .pure ⟨⟨preserves, .inr ⟨rfl, by omega, smaller⟩⟩, rfl⟩

/-- The page that `mappages` installs behind the pages mapped so far. -/
structure Installed (pool : PagePool) (pagetable k page perm : Nat) (held : Multiset Nat)
    (memory next : Ram) : Prop where
  space : Space pool next pagetable (Finset.range (k + 1)) held
  preserves : Preserves pagetable (Finset.range k) held memory next
  entry : entry next pagetable k = mkPte (page * pgsize) perm
  contents : next.word page = memory.word page
  taken : next.freelist <:+ memory.freelist

/-- A page taken from the free list gets its contents and is mapped behind the pages so far. -/
theorem furnish_returns
    (space : Space pool taken pagetable (Finset.range k) (page ::ₘ held))
    (soFar : Preserves pagetable (Finset.range k) held memory taken) (leaf : LeafPerm perm)
    (contents : Nat → Nat) :
    Returns (mappages pagetable (k * pgsize) pgsize (page * pgsize) perm)
      (taken.fill page contents) fun done next =>
        Preserves pagetable (Finset.range k) held memory next ∧
          if done then Installed pool pagetable k page perm held (taken.fill page contents) next
          else Space pool next pagetable (Finset.range k) (page ::ₘ held) := by
  obtain ⟨filled, filledPreserves⟩ := space.fill contents
  have user : ∀ v ∈ Finset.range k, v < userTop := fun v member => (space.user v member).1
  have below := filled.lt_userTop
  have bound := below.trans userTop_lt
  have unused := filled.clear k below Finset.notMem_range_self
  have mapped := (filled.mappages_returns below Finset.notMem_range_self leaf).and
    (.of_returns (filled.table.mappages_returns bound unused leaf))
  refine (mapped.and (mappages_taken _ _ _ _ _)).mono fun done next after => ?_
  obtain ⟨⟨⟨preserves, outcome, -⟩, -, keeps, entries, -⟩, fewer⟩ := after
  have kept := preserves.mono subset_rfl (Multiset.le_cons_self held page)
  refine ⟨(soFar.trans filledPreserves user).trans kept user, ?_⟩
  cases done with
  | false => exact outcome
  | true =>
    rw [if_pos rfl, ← Finset.range_add_one] at outcome
    constructor
    case space => exact outcome
    case preserves => exact kept
    case entry => rw [entries k bound, if_pos ⟨rfl, rfl⟩]
    case contents =>
      apply keeps
      exact Multiset.mem_add.mpr (.inr (Multiset.mem_cons_self _ _))
    case taken => exact fewer

/-- A page mapped behind the pages so far keeps its entry and its contents while more pages
are mapped. -/
theorem Installed.stays
    (installed : Installed pool pagetable k page perm held memory next) (leaf : LeafPerm perm)
    (later : Preserves pagetable (Finset.range (k + 1)) held next last) :
    Memory.entry last pagetable k = mkPte (page * pgsize) perm ∧
      last.word page = memory.word page := by
  have mem : k ∈ Finset.range (k + 1) := Finset.self_mem_range_succ k
  have below := (installed.space.user k mem).1.trans userTop_lt
  constructor
  · rw [later.entries k below (.inl mem), installed.entry]
  rw [← installed.contents]
  apply later.keeps
  refine Multiset.mem_add.mpr (.inl ?_)
  rw [userPages, Multiset.mem_sum]
  refine ⟨k, mem, ?_⟩
  rw [installed.entry, ptePage_mkPte leaf]
  exact Multiset.mem_singleton_self page

theorem allocLoop_returns (began : o ≤ k) (leaf : LeafPerm (pteR ||| pteU ||| xperm))
    (space : Space pool memory pagetable (Finset.range k) held) :
    Returns (allocLoop npages pagetable (k * pgsize) (o * pgsize) newsz xperm) memory
      fun sz next => Enlarged pool pagetable o (k + npages) newsz held memory sz next ∧
        (sz = 0 ∨ Preserves pagetable (Finset.range k) held memory next ∧
          ∀ v, k ≤ v → v < k + npages →
            ∀ i, next.word (ptePage (entry next pagetable v)) i = 0) := by
  induction npages generalizing k memory with
  | zero =>
    refine .pure ⟨⟨.refl, .inl ⟨rfl, space⟩⟩, .inr ⟨.refl, fun v low high => ?_⟩⟩
    omega
  | succ npages ih =>
    have unfinished : k < k + (npages + 1) := by omega
    have subset : Finset.range o ⊆ Finset.range k := Finset.range_subset_range.mpr began
    have allUser : ∀ v ∈ Finset.range k, v < userTop := fun v member => (space.user v member).1
    have user : ∀ v ∈ Finset.range o, v < userTop := fun v member => allUser v (subset member)
    refine space.kalloc_returns.bind fun found taken allocated => ?_
    cases found with
    | none =>
      obtain ⟨-, rfl⟩ := allocated
      exact (space.giveUp_returns began unfinished newsz).mono fun sz next after =>
        ⟨after.1, .inl after.2⟩
    | some mem =>
      obtain ⟨takenSpace, takenPreserves, -, -⟩ := allocated
      refine returns_fill ((takenSpace.furnish_returns takenPreserves leaf _).bind
        fun done middle result => ?_)
      obtain ⟨untilMapped, outcome⟩ := result
      cases done with
      | true =>
        have installed : Installed pool pagetable k mem _ held _ middle := outcome
        rw [show k * pgsize + pgsize = (k + 1) * pgsize by rw [Nat.succ_mul]]
        refine (ih (Nat.le_succ_of_le began) installed.space).mono fun sz last after => ?_
        obtain ⟨⟨preserves, ends⟩, contents⟩ := after
        rw [show k + 1 + npages = k + (npages + 1) by omega] at ends
        refine ⟨⟨(untilMapped.mono subset le_rfl).trans preserves user, ends⟩,
          contents.imp_right fun grown => ?_⟩
        obtain ⟨later, zeros⟩ := grown
        obtain ⟨kept, same⟩ := installed.stays leaf later
        refine ⟨untilMapped.trans
          (later.mono (Finset.range_subset_range.mpr (Nat.le_succ k)) le_rfl) allUser, ?_⟩
        intro v low high i
        rcases eq_or_ne v k with rfl | differ
        · rw [kept, ptePage_mkPte leaf, same]
          simp
        · exact zeros v (by omega) (by omega) i
      | false =>
        have failed : Space pool middle pagetable (Finset.range k) (mem ::ₘ held) := outcome
        refine failed.kfree_returns.bind fun _ freed after => ?_
        obtain ⟨freedSpace, freedPreserves⟩ := after
        refine (freedSpace.giveUp_returns began unfinished newsz).mono fun sz last after => ?_
        obtain ⟨⟨preserves, ends⟩, gaveUp⟩ := after
        have untilFreed := untilMapped.trans freedPreserves allUser
        exact ⟨⟨(untilFreed.mono subset le_rfl).trans preserves user, ends⟩, .inl gaveUp⟩

/-- `uvmalloc`: the larger of the two sizes, or 0 if memory ran out on the way. -/
theorem uvmalloc_returns (leaf : LeafPerm (pteR ||| pteU ||| xperm))
    (space : Space pool memory pagetable (Finset.range (pages oldsz)) held) :
    Returns (uvmalloc pagetable oldsz newsz xperm) memory fun sz next =>
      Preserves pagetable (Finset.range (pages oldsz)) held memory next ∧
        ((sz = max oldsz newsz ∧ Space pool next pagetable (Finset.range (pages sz)) held) ∨
          (sz = 0 ∧ oldsz < newsz ∧
            Space pool next pagetable (Finset.range (pages oldsz)) held)) := by
  rw [uvmalloc]
  split
  · next smaller => exact .pure ⟨.refl, .inl ⟨(max_eq_left (by omega)).symm, space⟩⟩
  have count : pages oldsz + (newsz - pgRoundUp oldsz + (pgsize - 1)) / pgsize =
      pages newsz := by
    simp only [pgRoundUp_eq, pages_eq, pgsize]
    omega
  rw [pgRoundUp_eq] at count ⊢
  refine (space.allocLoop_returns le_rfl leaf).mono fun sz next after => ?_
  obtain ⟨⟨preserves, ends⟩, -⟩ := after
  rw [count] at ends
  refine ⟨preserves, ends.imp ?_ ?_⟩
  · rintro ⟨rfl, grown⟩
    exact ⟨(max_eq_right (by omega)).symm, grown⟩
  rintro ⟨failed, more, same⟩
  refine ⟨failed, ?_, same⟩
  by_contra equal
  have : newsz = oldsz := by omega
  rw [this] at more
  omega

/-- A page of `new` is a copy of the page of `old` in a page that was free. -/
structure Copied (memory next : Ram) (old new v : Nat) : Prop where
  flags : pteFlags (Memory.entry next new v) = pteFlags (Memory.entry memory old v)
  contents : next.word (ptePage (Memory.entry next new v)) =
    memory.word (ptePage (Memory.entry memory old v))
  fresh : ptePage (Memory.entry next new v) ∈ memory.freelist

/-- The loop of `uvmcopy`, which stops at the page it has no memory for. The
page table copied from lies among the pages held elsewhere; if the pages it maps
do too, every page is copied. -/
theorem copyLoop_returns (space : Space pool memory pagetable (Finset.range k) held)
    (source : pteFormat.Shaped memory.word 2 old) (apart : tablePages memory old ⊆ held)
    (present : ∀ v < k + npages, isValid (entry memory old v) = true) :
    Returns (copyLoop npages old pagetable (k * pgsize)) memory fun failed next =>
      Preserves pagetable (Finset.range k) held memory next ∧
        match failed with
        | none => Space pool next pagetable (Finset.range (k + npages)) held ∧
            ((∀ v < k + npages, ptePage (entry memory old v) ∈ held) →
              ∀ v, k ≤ v → v < k + npages → Copied memory next old pagetable v)
        | some i => ∃ n, i = n * pgsize ∧ Space pool next pagetable (Finset.range n) held := by
  induction npages generalizing k memory with
  | zero =>
    refine .pure ⟨.refl, space, fun _ v low high => ?_⟩
    omega
  | succ npages ih =>
    have used := present k (by omega)
    obtain ⟨last, reached, word⟩ := slot_of_used used
    have inside : k * pgsize < maxva := mul_pgsize_lt (space.lt_userTop.trans userTop_lt)
    have walked : (walk old (k * pgsize) false).run memory = .ok (some last, memory) := by
      rw [walk, if_neg (Nat.not_le.mpr inside), walkLevels_run _ source.linked, mul_pgsize_div,
        reached]
    refine .bind_run walked (returns_load ?_)
    rw [px_zero_mul, word, if_neg (by simp [used])]
    refine (space.kalloc_returns.and kalloc_ensures).bind fun found taken allocated => ?_
    cases found with
    | none =>
      obtain ⟨⟨-, rfl⟩, -⟩ := allocated
      exact .pure ⟨.refl, k, rfl, space⟩
    | some mem =>
      obtain ⟨⟨takenSpace, takenPreserves, -, -⟩, -, head⟩ := allocated
      have user : ∀ v ∈ Finset.range k, v < userTop := fun v member => (space.user v member).1
      have perm := leafPerm_pteFlags (isLeaf_entry source used)
      refine returns_get (returns_fill ((takenSpace.furnish_returns takenPreserves perm _).bind
        fun done middle result => ?_))
      obtain ⟨untilMapped, outcome⟩ := result
      have keeps := untilMapped.keeps_held
      have sameEntry := entry_of_keeps keeps apart
      cases done with
      | true =>
        have installed : Installed pool pagetable k mem _ held _ middle := outcome
        have count : k + 1 + npages = k + (npages + 1) := by omega
        rw [show k * pgsize + pgsize = (k + 1) * pgsize by rw [Nat.succ_mul]]
        refine (ih installed.space (shaped_of_keeps keeps apart source) ?_ ?_).mono
          fun failed final after => ?_
        · rwa [tablePages_of_keeps keeps apart]
        · intro v below
          rw [sameEntry]
          exact present v (by omega)
        obtain ⟨preserves, ends⟩ := after
        refine ⟨untilMapped.trans
          (preserves.mono (Finset.range_subset_range.mpr (Nat.le_succ k)) le_rfl) user, ?_⟩
        cases failed with
        | some i => exact ends
        | none =>
          obtain ⟨grown, copies⟩ := ends
          rw [count] at grown copies
          refine ⟨grown, fun elsewhere v low high => ?_⟩
          rcases eq_or_ne v k with rfl | differ
          · obtain ⟨kept, contents⟩ := installed.stays perm preserves
            constructor
            case flags => rw [kept, pteFlags_mkPte_pteFlags used]
            case contents =>
              rw [kept, ptePage_mkPte perm, contents, Ram.fill_word, Function.update_self]
              exact takenPreserves.keeps_held _ (elsewhere v (by omega))
            case fresh =>
              rw [kept, ptePage_mkPte perm, head mem rfl]
              exact List.mem_cons_self
          have later := copies (fun v below => by rw [sameEntry]; exact elsewhere v below)
            v (by omega) high
          constructor
          case flags => rw [later.flags, sameEntry]
          case contents =>
            rw [later.contents, sameEntry]
            exact keeps _ (elsewhere v high)
          case fresh =>
            rw [head mem rfl]
            exact List.mem_cons_of_mem _ (installed.taken.subset later.fresh)
      | false =>
        have failed : Space pool middle pagetable (Finset.range k) (mem ::ₘ held) := outcome
        refine failed.kfree_returns.bind fun _ freed after => ?_
        obtain ⟨freedSpace, freedPreserves⟩ := after
        exact .pure ⟨untilMapped.trans freedPreserves user, k, rfl, freedSpace⟩

theorem uvmcopy_returns (space : Space pool memory pagetable ∅ held)
    (source : pteFormat.Shaped memory.word 2 old) (apart : tablePages memory old ⊆ held)
    (present : ∀ v < pages sz, isValid (entry memory old v) = true) :
    Returns (uvmcopy old pagetable sz) memory fun done next =>
      Preserves pagetable ∅ held memory next ∧
        if done then Space pool next pagetable (Finset.range (pages sz)) held ∧
          ((∀ v < pages sz, ptePage (entry memory old v) ∈ held) →
            ∀ v < pages sz, Copied memory next old pagetable v)
        else Space pool next pagetable ∅ held := by
  have nothing : ∀ v ∈ (∅ : Finset Nat), v < userTop := fun v mem => by simp at mem
  have fresh : Space pool memory pagetable (Finset.range 0) held := space
  have all : ∀ v < 0 + pages sz, isValid (entry memory old v) = true := by
    rwa [Nat.zero_add]
  have copied := fresh.copyLoop_returns source apart all
  rw [Nat.zero_mul, Nat.zero_add] at copied
  refine copied.bind fun failed next after => ?_
  obtain ⟨preserves, result⟩ := after
  cases failed with
  | none =>
    obtain ⟨grown, copies⟩ := result
    exact .pure ⟨preserves, grown, fun elsewhere v => copies elsewhere v (Nat.zero_le v)⟩
  | some i =>
    obtain ⟨n, rfl, partly⟩ := result
    have all : Finset.Ico 0 (0 + n) ⊆ Finset.range n := by
      rw [Nat.zero_add, Finset.range_eq_Ico]
    show Returns (uvmunmap pagetable 0 (n * pgsize / pgsize) true >>= fun _ => pure false) _ _
    rw [mul_pgsize_div, ← Nat.zero_mul pgsize, uvmunmap_mul]
    refine (partly.unmapLoop_returns all).bind fun _ last removed => ?_
    rw [Nat.zero_add, ← Finset.range_eq_Ico, Finset.sdiff_self] at removed
    exact .pure ⟨preserves.trans removed.2.1 nothing, removed.1⟩

end Space
end Pool
end Xv6.Memory
