import Xv6.Memory.Vm

/-!
# What `walk` does to a page table

A page table is a radix tree of level 2 whose keys are virtual page numbers.
Every page of the allocator is accounted for: the free pages, the pages of the
table at hand and the pages `held` by anyone else make up a fixed pool in which
no page occurs twice. A function that keeps this account and leaves the
contents of held pages alone cannot disturb another page table.
-/

namespace Xv6.Memory

open Function Xv6.Semantics

/-! ## Nat-table entries -/

/-- Nat-table pages as nodes of a radix tree. -/
def pteFormat : Radix.Format Nat Nat where
  fanout := 512
  fanout_pos := by decide
  empty := 0
  valid := isValid
  child pte := if isValid pte ∧ ¬isLeaf pte then some (ptePage pte) else none
  valid_empty := by decide
  valid_of_child := by
    intro word node points
    split at points
    · exact ‹isValid word = true ∧ _›.1
    · cases points

@[simp] theorem pteFormat_fanout : pteFormat.fanout = 512 := rfl
@[simp] theorem pteFormat_empty : pteFormat.empty = 0 := rfl
@[simp] theorem pteFormat_valid : pteFormat.valid = isValid := rfl

theorem child_eq_some_iff :
    pteFormat.child pte = some page ↔ isValid pte ∧ ¬isLeaf pte ∧ ptePage pte = page := by
  simp only [pteFormat]
  split <;> simp_all

theorem child_of_not_valid (unused : isValid pte = false) : pteFormat.child pte = none := by
  simp [pteFormat, unused]

theorem child_of_isLeaf (leaf : isLeaf pte = true) : pteFormat.child pte = none := by
  simp [pteFormat, leaf]

theorem px_eq_digit (level va : Nat) : px level va = pteFormat.digit level (va / pgsize) := by
  have power : (512 : Nat) ^ level = 2 ^ (9 * level) := by
    rw [pow_mul]
    rfl
  have size : (4096 : Nat) = 2 ^ 12 := rfl
  simp only [px, Radix.Format.digit, pteFormat, pgsize]
  rw [power, pow_add, Nat.div_div_eq_div_mul, size]

theorem px_zero (va : Nat) : px 0 va = va / pgsize % pteFormat.fanout := by
  simp [px, pteFormat, pgsize]

/-- The entry by which `walk` points to a new page-table page. -/
def tablePte (page : Nat) : Nat := pa2pte (page * pgsize) + pteV

theorem tablePte_eq (page : Nat) : tablePte page = page * 1024 + 1 := by
  simp only [tablePte, pa2pte, pgsize, pteV]
  omega

theorem child_tablePte (page : Nat) : pteFormat.child (tablePte page) = some page := by
  rw [child_eq_some_iff, tablePte_eq]
  refine ⟨?_, ?_, ?_⟩ <;> simp only [isValid, isLeaf, ptePage, decide_eq_true_eq] <;> omega

attribute [irreducible] pteFormat

/-! ## Rules for single accesses -/

section Rules

variable {Result : Type} {memory : Ram} {word : Nat} {post : Result → Ram → Prop}

/-- Memory after one word of a page was written. -/
def Ram.write (memory : Ram) (page : Nat) (i : Nat) (word : Nat) : Ram :=
  { memory with word := Radix.Format.write memory.word page i word }

/-- Memory after the contents of a page were replaced. -/
def Ram.fill (memory : Ram) (page : Nat) (contents : Nat → Nat) : Ram :=
  { memory with word := fun other => if other = page then contents else memory.word other }

@[simp] theorem Ram.write_word {page i word : Nat} :
    (memory.write page i word).word = Radix.Format.write memory.word page i word := rfl
@[simp] theorem Ram.write_freelist {page i word : Nat} :
    (memory.write page i word).freelist = memory.freelist := rfl
@[simp] theorem Ram.fill_word :
    (memory.fill page contents).word = update memory.word page contents := by
  ext other
  rw [update_apply, Ram.fill]
@[simp] theorem Ram.fill_freelist : (memory.fill page contents).freelist = memory.freelist := rfl

theorem returns_load (continued : Returns (rest (memory.word page i)) memory post) :
    Returns (load page i >>= rest) memory post := continued

theorem returns_store (continued : Returns (rest ()) (memory.write page i word) post) :
    Returns (store page i word >>= rest) memory post := continued

theorem returns_fill (continued : Returns (rest ()) (memory.fill page contents) post) :
    Returns (fill page contents >>= rest) memory post := continued

end Rules

/-! ## Reading a page table -/

theorem walkLevels_run (va : Nat) (linked : pteFormat.Linked memory.word level pagetable) :
    (walkLevels level pagetable va false).run memory =
      .ok (pteFormat.slot memory.word level pagetable (va / pgsize), memory) := by
  induction level generalizing pagetable with
  | zero => rfl
  | succ level ih =>
    have bound := pteFormat.digit_lt (level + 1) (va / pgsize)
    have entry := linked _ bound
    have opened : (walkLevels (level + 1) pagetable va false).run memory =
        (if isValid (memory.word pagetable (px (level + 1) va)) then
          walkLevels level (ptePage (memory.word pagetable (px (level + 1) va))) va false
        else return none).run memory := rfl
    rw [opened, px_eq_digit]
    rw [← px_eq_digit] at entry ⊢
    split
    · rename_i used
      obtain ⟨next, points, below⟩ := entry (by rwa [pteFormat_valid])
      obtain ⟨-, -, rfl⟩ := child_eq_some_iff.mp points
      rw [ih below, Radix.Format.slot_of_child]
      rw [← px_eq_digit, points]
    rename_i unused
    have points := child_of_not_valid (Bool.eq_false_iff.mpr unused)
    have missing : pteFormat.slot memory.word (level + 1) pagetable (va / pgsize) = none := by
      rw [Radix.Format.slot, ← px_eq_digit, points]
      rfl
    rw [missing]
    rfl

/-! ## The pool of pages -/

/-- The contents of the held pages stay the same. -/
def Keeps (held : Multiset Nat) (memory next : Ram) : Prop :=
  ∀ page ∈ held, next.word page = memory.word page

theorem Keeps.refl (held : Multiset Nat) (memory : Ram) : Keeps held memory memory :=
  fun _ _ => rfl

theorem Keeps.trans (first : Keeps held memory middle) (second : Keeps held middle next) :
    Keeps held memory next :=
  fun page mem => (second page mem).trans (first page mem)

theorem Keeps.mono (keeps : Keeps held memory next)
    (subset : fewer ⊆ held) : Keeps fewer memory next :=
  fun page mem => keeps page (subset mem)

theorem Keeps.fill (fresh : page ∉ held) : Keeps held memory (memory.fill page contents) := by
  intro other mem
  apply if_neg
  rintro rfl
  exact fresh mem

theorem Keeps.write {word : Nat} (fresh : page ∉ held) :
    Keeps held memory (memory.write page i word) := by
  intro other mem
  apply Radix.Format.write_of_ne
  rintro rfl
  exact fresh mem

section Pool

variable [Image]

/-- The pages the allocator works with: distinct, and accepted by `kfree`. -/
structure PagePool where
  pages : Multiset Nat
  nodup : pages.Nodup
  managed : ∀ page ∈ pages, Image.endAddr ≤ page * pgsize ∧ page * pgsize < phystop

/-- The free pages and the pages somebody holds make up the pool. -/
def Accounts (pool : PagePool) (memory : Ram) (held : Multiset Nat) : Prop :=
  (memory.freelist : Multiset Nat) + held = pool.pages

namespace Accounts

variable {pool : PagePool} {memory : Ram} {held : Multiset Nat}

section

variable (accounts : Accounts pool memory held)
include accounts

theorem nodup_held : held.Nodup :=
  Multiset.nodup_of_le (accounts ▸ Multiset.le_add_left _ _) pool.nodup

theorem managed (mem : page ∈ held) : Image.endAddr ≤ page * pgsize ∧ page * pgsize < phystop :=
  pool.managed page (accounts ▸ Multiset.mem_add.mpr (.inr mem))

theorem take (head : memory.freelist = page :: free) :
    Accounts pool { memory with freelist := free } (page ::ₘ held) := by
  rw [Accounts, head] at accounts
  rw [Accounts, Multiset.add_cons, ← accounts, ← Multiset.cons_coe, Multiset.cons_add]

theorem fresh (head : memory.freelist = page :: free) : page ∉ held :=
  (Multiset.nodup_cons.mp (accounts.take head).nodup_held).1

end

/-- What `kalloc` returns: a page of the pool that nobody held, filled with junk. -/
def Allocated (pool : PagePool) (held : Multiset Nat) (memory : Ram) (found : Option Nat)
    (next : Ram) : Prop :=
  match found with
  | none => memory.freelist = [] ∧ next = memory
  | some page => Accounts pool next (page ::ₘ held) ∧ Keeps held memory next ∧
      next.freelist.length + 1 = memory.freelist.length ∧ ∀ i, next.word page i = junkAllocated

theorem kalloc_returns (accounts : Accounts pool memory held) :
    Returns kalloc memory (Allocated pool held memory) := by
  cases head : memory.freelist with
  | nil =>
    refine ⟨none, memory, ?_, head, rfl⟩
    obtain ⟨freelist, word⟩ := memory
    cases head
    rfl
  | cons page free =>
    have fresh := accounts.fresh head
    refine ⟨some page, Ram.fill { memory with freelist := free } page fun _ => junkAllocated, ?_,
      accounts.take head, Keeps.fill fresh, ?_, ?_⟩
    · obtain ⟨freelist, word⟩ := memory
      cases head
      rfl
    · simp [head]
    · simp

theorem kfree_returns (accounts : Accounts pool memory (page ::ₘ held)) :
    Returns (kfree (page * pgsize)) memory fun _ next =>
      Accounts pool next held ∧ Keeps held memory next := by
  obtain ⟨low, high⟩ := accounts.managed (Multiset.mem_cons_self page held)
  have fresh := (Multiset.nodup_cons.mp accounts.nodup_held).1
  have number : page * pgsize / pgsize = page := Nat.mul_div_cancel page (by decide)
  have aligned : page * pgsize % pgsize = 0 := Nat.mul_mod_left page pgsize
  have allowed : ¬(page * pgsize % pgsize ≠ 0 ∨ page * pgsize < Image.endAddr ∨
      phystop ≤ page * pgsize) := by
    omega
  refine ⟨(), { memory.fill page (fun i =>
    if i = 0 then memory.freelist.head?.getD 0 * pgsize else junkFreed) with
    freelist := page :: memory.freelist }, ?_, ?_, ?_⟩
  · rw [kfree, if_neg allowed, number]
    rfl
  · rw [Accounts, Multiset.add_cons] at accounts
    rw [Accounts, ← accounts, ← Multiset.cons_coe, Multiset.cons_add]
  · exact Keeps.fill fresh

end Accounts

/-! ## Extending a page table -/

/-- What `walk` with allocation leaves: new page-table pages may have joined
the tree, and every key has the word it had. -/
structure Extended (pool : PagePool) (level pagetable : Nat) (held : Multiset Nat)
    (memory next : Ram) : Prop where
  accounts : Accounts pool next (pteFormat.nodes next.word level pagetable + held)
  linked : pteFormat.Linked next.word level pagetable
  leaf : ∀ key, pteFormat.leaf next.word level pagetable key =
    pteFormat.leaf memory.word level pagetable key
  keeps : Keeps held memory next
  taken : memory.freelist.length ≤ next.freelist.length + level

/-- What the allocating walk of one level leaves, from what it leaves one level down. -/
theorem Extended.graft
    (accounts : Accounts pool memory (pteFormat.nodes memory.word (level + 1) pagetable + held))
    (linked : pteFormat.Linked memory.word (level + 1) pagetable)
    (grafts : pteFormat.Grafts memory.word next.word level pagetable
      (pteFormat.digit (level + 1) key))
    (points : pteFormat.child (next.word pagetable (pteFormat.digit (level + 1) key)) = some child)
    (below : Accounts pool next (pteFormat.nodes next.word level child +
      (pteFormat.others memory.word level pagetable (pteFormat.digit (level + 1) key) + held)))
    (belowLinked : pteFormat.Linked next.word level child)
    (leaf : ∀ other, pteFormat.digit (level + 1) other = pteFormat.digit (level + 1) key →
      pteFormat.leaf next.word level child other =
        pteFormat.leaf memory.word (level + 1) pagetable other)
    (keeps : Keeps held memory next)
    (taken : memory.freelist.length ≤ next.freelist.length + (level + 1)) :
    Extended pool (level + 1) pagetable held memory next := by
  have distinct : (pteFormat.nodes memory.word (level + 1) pagetable).Nodup :=
    Multiset.nodup_of_le (Multiset.le_add_right _ _) accounts.nodup_held
  have bound := pteFormat.digit_lt (level + 1) key
  refine ⟨?_, grafts.linked distinct linked points belowLinked, ?_, keeps, taken⟩
  · rw [grafts.nodes_eq distinct bound, Radix.Format.below_of_child points]
    rwa [← add_assoc, add_comm (pteFormat.nodes _ _ _)] at below
  intro other
  by_cases same : pteFormat.digit (level + 1) other = pteFormat.digit (level + 1) key
  · have otherPoints : pteFormat.child
        (next.word pagetable (pteFormat.digit (level + 1) other)) = some child := by
      rw [same, points]
    rw [← leaf other same, Radix.Format.leaf_of_child otherPoints]
  · exact grafts.leaf_of_ne distinct same

/-- What `walk` with allocation returns: it fails only when there are fewer
free pages than levels to build. -/
def Reached (pool : PagePool) (level pagetable va : Nat) (held : Multiset Nat) (memory : Ram)
    (found : Option Nat) (next : Ram) : Prop :=
  Extended pool level pagetable held memory next ∧
    match found with
    | none => memory.freelist.length < level
    | some last => pteFormat.slot next.word level pagetable (va / pgsize) = some last

/-- The entry of `va` is in use: the walk goes on in the page it points to. -/
theorem Reached.descend
    (accounts : Accounts pool memory (pteFormat.nodes memory.word (level + 1) pagetable + held))
    (linked : pteFormat.Linked memory.word (level + 1) pagetable)
    (points : pteFormat.child (memory.word pagetable (pteFormat.digit (level + 1) (va / pgsize))) =
      some child)
    (reached : Reached pool level child va (pteFormat.others memory.word level pagetable
      (pteFormat.digit (level + 1) (va / pgsize)) + held) memory found next) :
    Reached pool (level + 1) pagetable va held memory found next := by
  obtain ⟨extended, result⟩ := reached
  have rootKept : next.word pagetable = memory.word pagetable :=
    extended.keeps pagetable (Multiset.mem_add.mpr (.inl (Multiset.mem_cons_self _ _)))
  have grafts : pteFormat.Grafts memory.word next.word level pagetable
      (pteFormat.digit (level + 1) (va / pgsize)) :=
    ⟨fun i _ => congrFun rootKept i,
      fun other mem _ => extended.keeps other (Multiset.mem_add.mpr (.inl mem))⟩
  rw [← rootKept] at points
  refine ⟨.graft accounts linked grafts points extended.accounts extended.linked ?_
    (extended.keeps.mono (Multiset.subset_of_le (Multiset.le_add_left _ _)))
    (le_trans extended.taken (by omega)), ?_⟩
  · intro other same
    rw [extended.leaf, Radix.Format.leaf_of_child]
    rw [same, ← rootKept, points]
  · cases found with
    | none => exact Nat.lt_succ_of_lt result
    | some last => exact (Radix.Format.slot_of_child points).trans result

/-- The entry of `va` is empty: the walk goes on in a new, zeroed page. -/
theorem Reached.link
    (accounts : Accounts pool memory (pteFormat.nodes memory.word (level + 1) pagetable + held))
    (linked : pteFormat.Linked memory.word (level + 1) pagetable)
    (points : pteFormat.child (memory.word pagetable (pteFormat.digit (level + 1) (va / pgsize))) =
      none)
    (shorter : joined.freelist.length + 1 = memory.freelist.length)
    (entry : joined.word pagetable = update (memory.word pagetable)
      (pteFormat.digit (level + 1) (va / pgsize)) (tablePte page))
    (cleared : ∀ i, joined.word page i = 0)
    (same : ∀ other ∈ pteFormat.nodes memory.word (level + 1) pagetable + held,
      other ≠ pagetable → joined.word other = memory.word other)
    (reached : Reached pool level page va (pteFormat.others memory.word level pagetable
      (pteFormat.digit (level + 1) (va / pgsize)) + held) joined found next) :
    Reached pool (level + 1) pagetable va held memory found next := by
  obtain ⟨extended, result⟩ := reached
  have bound := pteFormat.digit_lt (level + 1) (va / pgsize)
  rw [Radix.Format.nodes_split bound, Radix.Format.below_of_none points, add_zero] at same
  have rootKept : next.word pagetable = joined.word pagetable :=
    extended.keeps pagetable (Multiset.mem_add.mpr (.inl (Multiset.mem_cons_self _ _)))
  have grafts : pteFormat.Grafts memory.word next.word level pagetable
      (pteFormat.digit (level + 1) (va / pgsize)) := by
    constructor
    · intro i differ
      rw [rootKept, entry, update_of_ne differ]
    · intro other mem differ
      rw [extended.keeps other (Multiset.mem_add.mpr (.inl mem)),
        same other (Multiset.mem_add.mpr (.inl mem)) differ]
  have newPoints : pteFormat.child
      (next.word pagetable (pteFormat.digit (level + 1) (va / pgsize))) = some page := by
    rw [rootKept, entry, update_self, child_tablePte]
  have keeps : Keeps held memory next := by
    intro other mem
    have differs : other ≠ pagetable := by
      rintro rfl
      have distinct := Multiset.nodup_add.mp accounts.nodup_held
      exact Multiset.disjoint_left.mp distinct.2.2 (Radix.Format.self_mem_nodes _ _) mem
    rw [extended.keeps other (Multiset.mem_add.mpr (.inr mem)),
      same other (Multiset.mem_add.mpr (.inr mem)) differs]
  refine ⟨.graft accounts linked grafts newPoints extended.accounts extended.linked ?_ keeps
    (by have taken := extended.taken; omega), ?_⟩
  · intro other sameDigit
    rw [extended.leaf, Radix.Format.leaf_of_empty (by simpa using cleared),
      Radix.Format.leaf_of_none]
    rw [sameDigit, points]
  cases found with
  | none =>
    omega
  | some last => exact (Radix.Format.slot_of_child newPoints).trans result

/-- `walk` with allocation extends the tree to the entry of `va`, or runs out of pages. -/
theorem walkLevels_reaches
    (accounts : Accounts pool memory (pteFormat.nodes memory.word level pagetable + held))
    (linked : pteFormat.Linked memory.word level pagetable) :
    Returns (walkLevels level pagetable va true) memory
      (Reached pool level pagetable va held memory) := by
  induction level generalizing pagetable held memory with
  | zero =>
    exact .pure ⟨⟨accounts, linked, fun _ => rfl, .refl _ _, Nat.le_refl _⟩, rfl⟩
  | succ level ih =>
    have bound := pteFormat.digit_lt (level + 1) (va / pgsize)
    apply returns_load
    rw [px_eq_digit]
    split
    · rename_i used
      obtain ⟨child, points, below⟩ := linked _ bound (by rwa [pteFormat_valid])
      obtain ⟨-, -, page⟩ := child_eq_some_iff.mp points
      rw [page]
      rw [Radix.Format.nodes_split bound, Radix.Format.below_of_child points,
        add_comm (pteFormat.others _ _ _ _), add_assoc] at accounts
      refine (ih accounts below).mono fun found next reached => ?_
      refine reached.descend ?_ linked points
      rwa [Radix.Format.nodes_split bound, Radix.Format.below_of_child points,
        add_comm (pteFormat.others _ _ _ _), add_assoc]
    rename_i unused
    have points := child_of_not_valid (Bool.eq_false_iff.mpr unused)
    refine accounts.kalloc_returns.bind fun allocated taken kalloced => ?_
    cases allocated with
    | none =>
      obtain ⟨empty, rfl⟩ := kalloced
      refine .pure ⟨⟨accounts, linked, fun _ => rfl, .refl _ _, by omega⟩, ?_⟩
      simp [empty]
    | some page =>
      obtain ⟨takenAccounts, keeps, shorter, -⟩ := kalloced
      refine returns_fill (returns_store ?_)
      have fresh := (Multiset.nodup_cons.mp takenAccounts.nodup_held).1
      have root : pagetable ∈ pteFormat.nodes memory.word (level + 1) pagetable :=
        Radix.Format.self_mem_nodes _ _
      have differs : pagetable ≠ page := by
        rintro rfl
        exact fresh (Multiset.mem_add.mpr (.inl root))
      set joined : Ram := Ram.write _ pagetable _ _ with joinedDef
      have cleared (i : Nat) : joined.word page i = 0 := by
        rw [joinedDef, Ram.write_word, Radix.Format.write_of_ne differs.symm]
        simp
      have joinedAccounts : Accounts pool joined (pteFormat.nodes joined.word level page +
          (pteFormat.others memory.word level pagetable
            (pteFormat.digit (level + 1) (va / pgsize)) + held)) := by
        rw [Radix.Format.nodes_split bound, Radix.Format.below_of_none points,
          add_zero] at takenAccounts
        rwa [Radix.Format.nodes_of_empty (by simpa using cleared), Multiset.singleton_add]
      refine (ih joinedAccounts
        (Radix.Format.linked_of_empty (by simpa using cleared) _)).mono
          fun found next reached => ?_
      refine reached.link accounts linked points ?_ ?_ cleared ?_
      · exact shorter
      · rw [joinedDef, Ram.write_word, Radix.Format.write_self, Ram.fill_word,
          update_of_ne differs, keeps _ (Multiset.mem_add.mpr (.inl root))]
        rfl
      intro other mem notTable
      rw [joinedDef, Ram.write_word, Radix.Format.write_of_ne notTable, Ram.fill_word,
        update_of_ne, keeps other mem]
      rintro rfl
      exact fresh mem

end Pool
end Xv6.Memory
