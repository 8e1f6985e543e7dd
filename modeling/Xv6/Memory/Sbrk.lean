import Xv6.Memory.Duplication

/-!
# `sbrk`

`sys_sbrk` adds a signed 32-bit number to the 64-bit size of the process. When the sum is
negative it wraps around, and `uvmdealloc` takes the huge new size for one that needs no
shrinking: nothing changes, and `sys_sbrk` returns as if it had succeeded. In every other
case the size becomes the sum, or `sys_sbrk` fails and leaves the process as it was.
-/

namespace Xv6.Memory

open Xv6.Proc (Slot)
open Xv6.Semantics

section Image

variable [Image]

/-- `growproc`, with the value it returns. -/
def growprocStatus (p : Slot) (n : Int) : K Int := do
  let process := (← get).proc p
  let pagetable ← deref process.pagetable
  let newsz := ((process.sz + n) % 2 ^ 64).toNat
  if 0 < n then do
    let sz ← onMemory (uvmalloc pagetable process.sz newsz pteW)
    if sz = 0 then return -1
    else do
      modifyProc p fun process => { process with sz := sz }
      return 0
  else if n < 0 then do
    let sz ← onMemory (uvmdealloc pagetable process.sz newsz)
    modifyProc p fun process => { process with sz := sz }
    return 0
  else return 0

/-- `sys_sbrk`. -/
def sysSbrk (p : Slot) (n : BitVec 32) : K Int := do
  let addr := ((← get).proc p).sz
  let status ← growprocStatus p n.toInt
  if status < 0 then return -1 else return addr

end Image

/-- `sys_sbrk` has succeeded: the size is the sum, the pages below it are mapped and no
others, the pages that stay have the contents they had, new pages are zeroed, and removed
pages are free. -/
structure Moved (kernel next : Kernel) (p : Slot) (pagetable : Nat) (n : Int) : Prop where
  size : ((next.proc p).sz : Int) = (kernel.proc p).sz + n
  table : (next.proc p).pagetable = some pagetable
  mapped : ∀ v < userTop, isValid (entry next.memory pagetable v) =
    decide (v < pages (next.proc p).sz)
  kept : ∀ v < pages (kernel.proc p).sz, v < pages (next.proc p).sz →
    entry next.memory pagetable v = entry kernel.memory pagetable v ∧
      next.memory.word (ptePage (entry kernel.memory pagetable v)) =
        kernel.memory.word (ptePage (entry kernel.memory pagetable v))
  zeroed : ∀ v < pages (next.proc p).sz, pages (kernel.proc p).sz ≤ v →
    ∀ i, next.memory.word (ptePage (entry next.memory pagetable v)) i = 0
  freed : ∀ v < pages (kernel.proc p).sz, pages (next.proc p).sz ≤ v →
    ptePage (entry kernel.memory pagetable v) ∈ next.memory.freelist

/-- `sys_sbrk` has failed: the size, the mappings and the contents are what they were, and
only page-table pages are missing from the free list. -/
structure Stays (kernel next : Kernel) (p : Slot) (pagetable : Nat) : Prop where
  size : (next.proc p).sz = (kernel.proc p).sz
  table : (next.proc p).pagetable = some pagetable
  mapped : ∀ v < userTop, isValid (entry next.memory pagetable v) =
    decide (v < pages (kernel.proc p).sz)
  kept : ∀ v < pages (kernel.proc p).sz,
    entry next.memory pagetable v = entry kernel.memory pagetable v ∧
      next.memory.word (ptePage (entry kernel.memory pagetable v)) =
        kernel.memory.word (ptePage (entry kernel.memory pagetable v))
  returned : ∀ page ∈ kernel.memory.freelist,
    page ∈ next.memory.freelist ∨ page ∈ tablePages next.memory pagetable

section Pool

variable [Image]

/-- `sys_sbrk(n)` moves the size by exactly `n`, or fails and changes nothing. -/
def SbrkExact (kernel : Kernel) (p : Slot) (pagetable : Nat) (n : BitVec 32) : Prop :=
  Returns (sysSbrk p n) kernel fun value next =>
    (value = (kernel.proc p).sz ∧ Moved kernel next p pagetable n.toInt) ∨
      (value = -1 ∧ Stays kernel next p pagetable)

namespace Space

variable {pool : PagePool} {memory next : Ram} {pagetable n k : Nat} {held : Multiset Nat}

section

variable (space : Space pool memory pagetable (Finset.range n) held)
include space

theorem isValid_eq (below : v < userTop) : isValid (entry memory pagetable v) = decide (v < n) := by
  by_cases inside : v < n
  · rw [(space.user v (Finset.mem_range.mpr inside)).2, decide_eq_true inside]
  · rw [space.clear v below (by simpa using inside), decide_eq_false inside]

theorem kept (preserves : Preserves pagetable (Finset.range k) held memory next) (below : v < n)
    (stays : v < k) :
    entry next pagetable v = entry memory pagetable v ∧
      next.word (ptePage (entry memory pagetable v)) =
        memory.word (ptePage (entry memory pagetable v)) := by
  have mem := Finset.mem_range.mpr stays
  constructor
  · have inside := (space.user v (Finset.mem_range.mpr below)).1
    exact preserves.entries v (inside.trans userTop_lt) (.inl mem)
  · apply preserves.keeps
    exact Multiset.mem_add.mpr (.inl (mem_userPages mem))

/-- A page that is no longer mapped is free, if the page table has kept its own pages. -/
theorem mem_free_of_removed (after : Space pool next pagetable (Finset.range k) held)
    (preserves : Preserves pagetable (Finset.range k) held memory next)
    (tables : tablePages next pagetable = tablePages memory pagetable) (below : v < n)
    (removed : k ≤ v) : ptePage (entry memory pagetable v) ∈ next.freelist := by
  have mem := Finset.mem_range.mpr below
  have inPool : ptePage (entry memory pagetable v) ∈ pool.pages := by
    rw [← space.table.accounts]
    refine Multiset.mem_add.mpr (.inr (Multiset.mem_add.mpr (.inr ?_)))
    exact Multiset.mem_add.mpr (.inl (mem_userPages mem))
  have elsewhere := space.notMem_of_mapped mem
  rw [← after.table.accounts, tables] at inPool
  simp only [Multiset.mem_add, Multiset.mem_coe, not_or] at inPool elsewhere
  rcases inPool with free | table | user | isHeld
  · exact free
  · exact absurd table elsewhere.2.1
  · -- a page that stays is not the page that was removed
    rw [userPages_eq_map, Multiset.mem_map] at user
    obtain ⟨w, wMember, same⟩ := user
    have wBelow : w < k := Finset.mem_range.mp wMember
    rw [(space.kept preserves (by omega) wBelow).1] at same
    have := space.page_injective (Finset.mem_range.mpr (by omega)) mem same
    omega
  · exact absurd isHeld elsewhere.2.2

end

end Space

variable {pool : PagePool} {kernel : Kernel} {p : Slot} {pagetable : Nat} {held : Multiset Nat}

section

variable (table : (kernel.proc p).pagetable = some pagetable)
  (space : Space pool kernel.memory pagetable (Finset.range (pages (kernel.proc p).sz)) held)
include table space

/-- The state in which a process has another memory and another size. -/
theorem Moved.of_space {sz : Nat} (size : (sz : Int) = (kernel.proc p).sz + n)
    (after : Space pool memory pagetable (Finset.range (pages sz)) held)
    (preserves : Preserves pagetable
      (Finset.range (min (pages (kernel.proc p).sz) (pages sz))) held kernel.memory memory)
    (zeroed : ∀ v < pages sz, pages (kernel.proc p).sz ≤ v →
      ∀ i, memory.word (ptePage (entry memory pagetable v)) i = 0)
    (freed : ∀ v < pages (kernel.proc p).sz, pages sz ≤ v →
      ptePage (entry kernel.memory pagetable v) ∈ memory.freelist) :
    Moved kernel ((kernel.setMemory memory).setProc p { kernel.proc p with sz := sz }) p pagetable
      n := by
  have here : ((kernel.setMemory memory).setProc p { kernel.proc p with sz := sz }).proc p =
      { kernel.proc p with sz := sz } := Kernel.setProc_self ..
  constructor <;> simp only [here]
  case size => exact size
  case table => exact table
  case mapped => exact fun v below => after.isValid_eq below
  case kept => exact fun v below stays => space.kept preserves below (lt_min below stays)
  case zeroed => exact zeroed
  case freed => exact freed

/-- The state in which a process has another memory and the pages it had. -/
theorem Stays.of_space
    (after : Space pool memory pagetable (Finset.range (pages (kernel.proc p).sz)) held)
    (preserves : Preserves pagetable (Finset.range (pages (kernel.proc p).sz)) held kernel.memory
      memory) : Stays kernel (kernel.setMemory memory) p pagetable := by
  constructor
  case size => rfl
  case table => exact table
  case mapped => exact fun v below => after.isValid_eq below
  case kept => exact fun v below => space.kept preserves below below
  case returned =>
    have same := preserves.userPages_eq fun v mem => (space.user v mem).1
    exact fun page free => space.mem_free_or_table after same free

end

theorem Space.size_le
    (space : Space pool memory pagetable (Finset.range (pages sz)) held) : sz ≤ 2 ^ 27 := by
  have bound := space.card_mapped_le
  rw [Finset.card_range, pages_eq] at bound
  omega

section Calls

variable (table : (kernel.proc p).pagetable = some pagetable)
  (space : Space pool kernel.memory pagetable (Finset.range (pages (kernel.proc p).sz)) held)
include table space

theorem grow_returns (positive : 0 < n) (bound : n < 2 ^ 31) :
    Returns (growprocStatus p n) kernel fun status next =>
      (status = 0 ∧ Moved kernel next p pagetable n) ∨
        (status = -1 ∧ Stays kernel next p pagetable) := by
  have small := space.size_le
  have sum : (((kernel.proc p).sz + n) % 2 ^ 64).toNat = (kernel.proc p).sz + n.toNat := by omega
  have more : pages (kernel.proc p).sz ≤ pages ((kernel.proc p).sz + n.toNat) :=
    pages_mono (by omega)
  refine returns_get (returns_deref table ?_)
  rw [if_pos positive, sum]
  have zeroes : Ensures (uvmalloc pagetable (kernel.proc p).sz ((kernel.proc p).sz + n.toNat) pteW)
      kernel.memory fun sz next => sz = 0 ∨ ∀ v < pages ((kernel.proc p).sz + n.toNat),
        pages (kernel.proc p).sz ≤ v → ∀ i, next.word (ptePage (entry next pagetable v)) i = 0 := by
    have count : pages (kernel.proc p).sz +
        ((kernel.proc p).sz + n.toNat - pages (kernel.proc p).sz * pgsize + (pgsize - 1)) / pgsize =
        pages ((kernel.proc p).sz + n.toNat) := by
      simp only [pages_eq, pgsize]
      omega
    rw [uvmalloc, if_neg (by omega), pgRoundUp_eq]
    refine .of_returns ((space.allocLoop_returns le_rfl leafPerm_write).mono
      fun sz next after => ?_)
    rw [count] at after
    exact after.2.imp_right fun grown v high low => grown.2 v low high
  refine returns_onMemory ((space.uvmalloc_returns leafPerm_write).and zeroes)
    fun sz memory after => ?_
  obtain ⟨⟨preserves, outcome⟩, zeros⟩ := after
  rcases outcome with ⟨rfl, grown⟩ | ⟨rfl, -, same⟩
  · have size : max (kernel.proc p).sz ((kernel.proc p).sz + n.toNat) =
        (kernel.proc p).sz + n.toNat := max_eq_right (by omega)
    rw [size] at grown zeros ⊢
    rw [if_neg (by omega)]
    refine ⟨0, _, rfl, .inl ⟨rfl, ?_⟩⟩
    refine Moved.of_space table space (by omega) grown ?_ ?_ ?_
    · rwa [min_eq_left more]
    · exact zeros.resolve_left (by omega)
    · intro v below removed
      omega
  · rw [if_pos rfl]
    exact .pure (.inr ⟨rfl, .of_space table space same preserves⟩)

theorem shrink_returns {n : Int} (negative : n < 0) (left : 0 ≤ (kernel.proc p).sz + n) :
    Returns (growprocStatus p n) kernel fun status next =>
      status = 0 ∧ Moved kernel next p pagetable n := by
  have small := space.size_le
  have sum : (((kernel.proc p).sz + n) % 2 ^ 64).toNat = ((kernel.proc p).sz + n).toNat := by omega
  refine returns_get (returns_deref table ?_)
  rw [if_neg (by omega), if_pos negative, sum]
  refine returns_onMemory (space.uvmdealloc_returns _) fun sz memory after => ?_
  obtain ⟨size, cut, preserves, tables⟩ := after
  have fewer : pages sz ≤ pages (kernel.proc p).sz := pages_mono (by omega)
  refine ⟨0, _, rfl, rfl, Moved.of_space table space (by omega) cut ?_ ?_ ?_⟩
  · rwa [min_eq_right fewer]
  · intro v below new
    omega
  · exact fun v below removed => space.mem_free_of_removed cut preserves tables below removed

/-- `growproc` with a number that would leave a negative size does nothing. -/
theorem wrap_returns {n : Int} (low : -2 ^ 31 ≤ n) (below : (kernel.proc p).sz + n < 0) :
    Returns (growprocStatus p n) kernel fun status next =>
      status = 0 ∧ (next.proc p).sz = (kernel.proc p).sz := by
  refine returns_get (returns_deref table ?_)
  rw [if_neg (by omega), if_pos (by omega)]
  refine returns_onMemory (space.uvmdealloc_returns _) fun sz memory after => ?_
  obtain ⟨size, -⟩ := after
  rw [min_eq_left (by omega)] at size
  exact ⟨0, _, rfl, rfl, by simp [size]⟩

theorem unchanged_returns :
    Returns (growprocStatus p 0) kernel fun status next =>
      status = 0 ∧ Moved kernel next p pagetable 0 := by
  refine returns_get (returns_deref table (.pure ⟨rfl, ?_⟩))
  constructor
  case size => omega
  case table => exact table
  case mapped => exact fun v below => space.isValid_eq below
  case kept => exact fun v _ _ => ⟨rfl, rfl⟩
  case zeroed => exact fun v below new => absurd below (Nat.not_lt.mpr new)
  case freed => exact fun v below removed => absurd below (Nat.not_lt.mpr removed)

/-- `sys_sbrk`: the size moves by `n`, or memory ran out on the way up, or the sum is negative
and nothing happens. -/
theorem sysSbrk_returns (n : BitVec 32) :
    Returns (sysSbrk p n) kernel fun value next =>
      (value = (kernel.proc p).sz ∧ 0 ≤ (kernel.proc p).sz + n.toInt ∧
        Moved kernel next p pagetable n.toInt) ∨
      (value = -1 ∧ 0 < n.toInt ∧ Stays kernel next p pagetable) ∨
      (value = (kernel.proc p).sz ∧ (kernel.proc p).sz + n.toInt < 0 ∧
        (next.proc p).sz = (kernel.proc p).sz) := by
  have low := BitVec.le_toInt n
  have high := BitVec.toInt_lt (x := n)
  apply returns_get
  by_cases negative : (kernel.proc p).sz + n.toInt < 0
  · refine (wrap_returns table space (by omega) negative).bind fun status next after => ?_
    obtain ⟨rfl, size⟩ := after
    exact .pure (.inr (.inr ⟨rfl, negative, size⟩))
  have sum : 0 ≤ (kernel.proc p).sz + n.toInt := by omega
  rcases lt_trichotomy n.toInt 0 with less | zero | more
  · refine (shrink_returns table space less sum).bind fun status next after => ?_
    obtain ⟨rfl, moved⟩ := after
    exact .pure (.inl ⟨rfl, sum, moved⟩)
  · rw [zero] at sum ⊢
    refine (unchanged_returns table space).bind fun status next after => ?_
    obtain ⟨rfl, moved⟩ := after
    exact .pure (.inl ⟨rfl, sum, moved⟩)
  · refine (grow_returns table space more (by omega)).bind fun status next after => ?_
    rcases after with ⟨rfl, moved⟩ | ⟨rfl, stays⟩
    · exact .pure (.inl ⟨rfl, sum, moved⟩)
    · exact .pure (.inr (.inl ⟨rfl, more, stays⟩))

/-- `sys_sbrk` is exact if and only if the sum of the size and the number is not negative. -/
theorem sbrk_exact_iff (n : BitVec 32) :
    SbrkExact kernel p pagetable n ↔ 0 ≤ (kernel.proc p).sz + n.toInt := by
  obtain ⟨value, next, ran, outcome⟩ := sysSbrk_returns table space n
  constructor
  · intro exact
    have result := exact.of_run ran
    by_contra negative
    rcases outcome with ⟨-, sum, -⟩ | ⟨-, positive, -⟩ | ⟨same, wraps, size⟩
    · exact negative sum
    · omega
    · rcases result with ⟨-, moved⟩ | ⟨failed, -⟩
      · have := moved.size
        omega
      · omega
  intro sum
  refine ⟨value, next, ran, ?_⟩
  rcases outcome with ⟨same, -, moved⟩ | ⟨failed, -, stays⟩ | ⟨-, wraps, -⟩
  · exact .inl ⟨same, moved⟩
  · exact .inr ⟨failed, stays⟩
  · omega

end Calls
end Pool

/-- The first process gives one of its pages back. -/
theorem sbrk_exact_firstProcess : ∃ kernel pagetable,
    ((@system smallImage).restrict Coherent).Runs smallBoot [.userinit fun _ => 0] kernel ∧
      (kernel.proc slot0).pagetable = some pagetable ∧ (kernel.proc slot0).sz = 4096 ∧
      @SbrkExact smallImage kernel slot0 pagetable (-4096#32) := by
  let _ : Image := smallImage
  obtain ⟨kernel, run, table, size⟩ : ∃ kernel,
      (system.restrict Coherent).Runs smallBoot [.userinit fun _ => 0] kernel ∧
      (kernel.proc slot0).pagetable = some 524545 ∧ (kernel.proc slot0).sz = 4096 :=
    TransitionSystem.exists_runs_restrict booted_smallBoot (by decide +kernel)
  obtain ⟨pool, -, sound⟩ := sound_of_runs run
  obtain ⟨trapframe, -, space, -⟩ := sound.memory.space table
  refine ⟨kernel, _, run, table, size, (sbrk_exact_iff table space (-4096#32)).mpr ?_⟩
  rw [size]
  decide

/-- The first process, which has one page, asks for 4097 bytes less: `sys_sbrk` returns the
old size, and the size is still the old one. -/
theorem sbrk_below_zero_succeeds : ∃ kernel pagetable,
    (@system smallImage).Runs smallBoot [.userinit fun _ => 0] kernel ∧
      (kernel.proc slot0).pagetable = some pagetable ∧ (kernel.proc slot0).sz = 4096 ∧
      (∀ v < pages (kernel.proc slot0).sz, isValid (entry kernel.memory pagetable v) = true) ∧
      ((@sysSbrk smallImage slot0 (-4097#32)).run kernel).toOption.map
        (fun result => (result.1, (result.2.proc slot0).sz)) = some (4096, 4096) ∧
      ¬@SbrkExact smallImage kernel slot0 pagetable (-4097#32) := by
  let _ : Image := smallImage
  obtain ⟨kernel, run, table, size, outcome⟩ : ∃ kernel,
      (system.restrict Coherent).Runs smallBoot [.userinit fun _ => 0] kernel ∧
      (kernel.proc slot0).pagetable = some 524545 ∧ (kernel.proc slot0).sz = 4096 ∧
      ((sysSbrk slot0 (-4097#32)).run kernel).toOption.map
        (fun result => (result.1, (result.2.proc slot0).sz)) = some (4096, 4096) :=
    TransitionSystem.exists_runs_restrict booted_smallBoot (by decide +kernel)
  obtain ⟨pool, -, sound⟩ := sound_of_runs run
  obtain ⟨trapframe, -, space, -⟩ := sound.memory.space table
  refine ⟨kernel, _, run.unrestrict, table, size, ?_, outcome, fun exact => ?_⟩
  · exact fun v below => (space.user v (Finset.mem_range.mpr below)).2
  obtain ⟨value, next, ran, result⟩ := exact
  rw [ran] at outcome
  obtain ⟨returned, still⟩ := Prod.mk.inj (Option.some.inj outcome)
  rcases result with ⟨-, moved⟩ | ⟨failed, -⟩
  · have sum := moved.size
    rw [still, size] at sum
    exact absurd sum (by decide)
  · have succeeded : value = 4096 := returned
    omega

end Xv6.Memory
