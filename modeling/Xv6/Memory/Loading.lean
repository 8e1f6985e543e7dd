import Xv6.Memory.Creation

/-!
# `sbrk` and `exec`

Both replace the user part of one address space. `sbrk` extends or cuts the one
the process has. `exec` builds a second address space beside it and frees the
old one when nothing can fail any more; until then every page is either part of
what it has built, or held by the process as before.
-/

namespace Xv6.Memory

open Xv6.Proc (Slot ProcState)
open Xv6.Semantics

/-- An entry without its user bit, as `uvmclear` leaves it. -/
def withoutUser (pte : Nat) : Nat := if pte / pteU % 2 = 1 then pte - pteU else pte

theorem withoutUser_cases (pte : Nat) :
    withoutUser pte = pte ∨ (pte / 16 % 2 = 1 ∧ withoutUser pte = pte - 16) := by
  by_cases user : pte / pteU % 2 = 1
  · exact .inr ⟨user, if_pos user⟩
  · exact .inl (if_neg user)

theorem isValid_withoutUser (valid : isValid pte = true) : isValid (withoutUser pte) = true := by
  simp only [isValid, decide_eq_true_eq] at valid ⊢
  rcases withoutUser_cases pte with same | ⟨user, cleared⟩ <;> omega

theorem isLeaf_withoutUser (leaf : isLeaf pte = true) : isLeaf (withoutUser pte) = true := by
  simp only [isLeaf, decide_eq_true_eq] at leaf ⊢
  rcases withoutUser_cases pte with same | ⟨user, cleared⟩ <;> omega

theorem ptePage_withoutUser (pte : Nat) : ptePage (withoutUser pte) = ptePage pte := by
  simp only [ptePage]
  rcases withoutUser_cases pte with same | ⟨user, cleared⟩ <;> omega

theorem leafPerm_flags2perm (flags : Nat) : LeafPerm (pteR ||| pteU ||| flags2perm flags) := by
  have execute := Nat.mod_two_eq_zero_or_one flags
  have write := Nat.mod_two_eq_zero_or_one (flags / 2)
  rcases execute with execute | execute <;> rcases write with write | write <;>
    rw [flags2perm, execute, write] <;> exact ⟨by decide, by decide⟩

theorem leafPerm_write : LeafPerm (pteR ||| pteU ||| pteW) := ⟨by decide, by decide⟩

section Pool

variable [Image] {pool : PagePool}

namespace Space

variable {memory : Ram} {pagetable : Nat} {mapped : Finset Nat} {held : Multiset Nat}

theorem uvmclear_returns (space : Space pool memory pagetable mapped held) (mem : v ∈ mapped) :
    Returns (uvmclear pagetable (v * pgsize)) memory fun _ next =>
      Space pool next pagetable mapped held ∧ Preserves pagetable ∅ held memory next := by
  obtain ⟨below, used⟩ := space.user v mem
  have bound := below.trans userTop_lt
  obtain ⟨last, reached, word⟩ := slot_of_used used
  have walked := space.table.formed.walk_run (mul_pgsize_lt bound)
  rw [mul_pgsize_div, reached] at walked
  refine .bind_run walked (returns_load ?_)
  rw [px_zero_mul, word]
  have leaf := isLeaf_withoutUser (isLeaf_entry space.table.shaped used)
  obtain ⟨table, keeps, entries⟩ := space.table.write reached (child_of_isLeaf leaf) bound
  generalize hnext : memory.write last (v % 512) (withoutUser (entry memory pagetable v)) = next
    at table keeps entries
  have other {w : Nat} (inside : w < maxva / pgsize) (differ : w ≠ v) :
      entry next pagetable w = entry memory pagetable w := by
    rw [entries w inside, if_neg differ]
  have own : entry next pagetable v = withoutUser (entry memory pagetable v) := by
    rw [entries v bound, if_pos rfl]
  have same : userPages next pagetable mapped = userPages memory pagetable mapped := by
    refine Finset.sum_congr rfl fun w inMapped => ?_
    rcases eq_or_ne w v with rfl | differ
    · rw [own, ptePage_withoutUser]
    · rw [other ((space.user w inMapped).1.trans userTop_lt) differ]
  refine ⟨(), next, hnext ▸ rfl, ⟨?_, fun w inMapped => ?_, fun w inside notMapped => ?_⟩,
    fun w inside fixed => ?_, ?_⟩
  · rwa [same]
  · refine ⟨(space.user w inMapped).1, ?_⟩
    rcases eq_or_ne w v with rfl | differ
    · rw [own]
      exact isValid_withoutUser used
    · rw [other ((space.user w inMapped).1.trans userTop_lt) differ]
      exact (space.user w inMapped).2
  · rw [other (inside.trans userTop_lt) (by rintro rfl; exact notMapped mem)]
    exact space.clear w inside notMapped
  · have high : userTop ≤ w := by simpa using fixed
    exact other inside (by omega)
  · rw [userPages, Finset.sum_empty, zero_add]
    exact keeps.mono (Multiset.subset_of_le (Multiset.le_add_left _ _))

theorem loadSegments_returns (space : Space pool memory pagetable (Finset.range (pages sz)) held) :
    Returns (loadSegments pagetable headers sz) memory fun result next =>
      Space pool next pagetable (Finset.range (pages result.2)) held ∧
        Preserves pagetable ∅ held memory next := by
  induction headers generalizing sz memory with
  | nil => exact .pure ⟨space, .refl⟩
  | cons header rest ih =>
    cases header with
    | unreadable => exact .pure ⟨space, .refl⟩
    | other => exact ih space
    | load vaddr memsz filesz flags loaded =>
      rw [loadSegments]
      split
      · exact .pure ⟨space, .refl⟩
      split
      · exact .pure ⟨space, .refl⟩
      split
      · exact .pure ⟨space, .refl⟩
      refine (space.uvmalloc_returns (leafPerm_flags2perm flags)).bind fun sz1 next after => ?_
      obtain ⟨preserves, outcome⟩ := after
      split
      · rename_i failed
        refine .pure ⟨?_, preserves.high⟩
        rcases outcome with ⟨size, grown⟩ | ⟨-, -, same⟩
        · obtain ⟨rfl, rfl⟩ : sz = 0 ∧ sz1 = 0 := by omega
          exact grown
        · exact same
      rename_i nonzero
      rcases outcome with ⟨-, grown⟩ | ⟨failed, -⟩
      · split
        · refine (ih grown).mono fun result last after => ?_
          exact ⟨after.1, preserves.high.trans_high after.2⟩
        · exact .pure ⟨grown, preserves.high⟩
      · exact absurd failed nonzero

end Space

/-- What `exec` has built: a complete address space beside everything that was
in use, or nothing. -/
def Built (pool : PagePool) (held : Multiset Nat) (memory : Ram) (built : Option (Nat × Nat))
    (next : Ram) : Prop :=
  Keeps held memory next ∧
    match built with
    | none => Accounts pool next held
    | some (pagetable, sz) =>
      Space pool next pagetable (Finset.range (pages sz)) held ∧ Fixed next pagetable

theorem discard_returns (keeps : Keeps held memory next)
    (space : Space pool next pagetable (Finset.range (pages sz)) held)
    (fixed : Fixed next pagetable) :
    Returns (do procFreepagetable pagetable sz; return none) next (Built pool held memory) := by
  refine (space.procFreepagetable_returns fixed.trampoline fixed.trapframe).bind
    fun _ last freed => ?_
  exact .pure ⟨keeps.trans freed.2, freed.1⟩

theorem buildImage_returns (file : Executable)
    (accounts : Accounts pool memory held) (trapframe : Nat) :
    Returns (buildImage file trapframe) memory (Built pool held memory) := by
  rw [buildImage]
  split
  · refine (procPagetable_returns accounts trapframe).bind fun found created result => ?_
    obtain ⟨createdKeeps, result⟩ := result
    cases found with
    | none => exact .pure ⟨createdKeeps, result.1⟩
    | some pagetable =>
      obtain ⟨empty, entries, -⟩ := result
      have createdFixed := fixed_of_created entries
      have fixed {next : Ram} (preserves : Preserves pagetable ∅ held created next) :
          Fixed next pagetable :=
        createdFixed.of_entries fun v bound high => preserves.entries v bound (.inr high)
      have start : Space pool created pagetable (Finset.range (pages 0)) held := empty
      refine start.loadSegments_returns.bind fun result loaded after => ?_
      obtain ⟨ok, sz⟩ := result
      obtain ⟨space, preserves⟩ := after
      have keeps := createdKeeps.trans preserves.keeps_held
      cases ok with
      | false => exact discard_returns keeps space (fixed preserves)
      | true =>
        have rounded : pages (pgRoundUp sz) = pages sz := by rw [pgRoundUp_eq, pages_mul]
        have atRounded :
            Space pool loaded pagetable (Finset.range (pages (pgRoundUp sz))) held := by
          rwa [rounded]
        refine (atRounded.uvmalloc_returns leafPerm_write).bind fun sz1 grown after => ?_
        obtain ⟨grownPreserves, outcome⟩ := after
        have untilGrown := preserves.trans_high grownPreserves.high
        have grownKeeps := createdKeeps.trans untilGrown.keeps_held
        rcases outcome with ⟨size, larger⟩ | ⟨rfl, -, same⟩
        · have size' : sz1 = (pages sz + 2) * pgsize := by
            rw [size, pgRoundUp_eq, Nat.add_mul, max_eq_right (Nat.le_add_right _ _)]
          rw [if_neg (by rw [size']; simp [pgsize])]
          have guard : sz1 - 2 * pgsize = pages sz * pgsize := by
            rw [size', Nat.add_mul, Nat.add_sub_cancel]
          have mem : pages sz ∈ Finset.range (pages sz1) := by
            rw [size', pages_mul, Finset.mem_range]
            omega
          rw [guard]
          refine (larger.uvmclear_returns mem).bind fun _ cleared after => ?_
          obtain ⟨clearedSpace, clearedPreserves⟩ := after
          have untilCleared := untilGrown.trans_high clearedPreserves
          have clearedKeeps := createdKeeps.trans untilCleared.keeps_held
          split
          · exact .pure ⟨clearedKeeps, clearedSpace, fixed untilCleared⟩
          · exact discard_returns clearedKeeps clearedSpace (fixed untilCleared)
        · exact discard_returns grownKeeps same (fixed untilGrown)
  · exact .pure ⟨.refl _ _, accounts⟩

/-! ## The calls -/

variable {kernel : Kernel} {p : Slot}

/-- The entry with another address space. -/
def Process.resize (process : Process) (pagetable : Option Nat) (sz : Nat) : Process :=
  { process with pagetable := pagetable, sz := sz }

/-- What a call leaves that changes the address space of `p` only. -/
def Resized (pool : PagePool) (kernel : Kernel) (p : Slot) (next : Kernel) : Prop :=
  MemorySound pool next ∧ ∃ memory pagetable sz, pagetable.isSome ∧
    next = (kernel.setMemory memory).setProc p ((kernel.proc p).resize pagetable sz)

omit [Image] in
@[simp] theorem Kernel.setProc_resize :
    kernel.setProc p ((kernel.proc p).resize (kernel.proc p).pagetable (kernel.proc p).sz) =
      kernel := by
  simp only [Kernel.setProc, Process.resize]
  congr 1
  ext q
  split
  · next same => rw [same]
  · rfl

section

variable (sound : MemorySound pool kernel) (table : (kernel.proc p).pagetable = some pagetable)
include sound table

theorem MemorySound.resized
    (framed : (kernel.proc p).trapframe = some trapframe) (fixed : Fixed kernel.memory pagetable)
    (space : Space pool memory pagetable (Finset.range (pages sz))
      (trapframe ::ₘ kernel.outside p))
    (preserves : Preserves pagetable ∅ (trapframe ::ₘ kernel.outside p) kernel.memory memory) :
    Resized pool kernel p ((kernel.setMemory memory).setProc p
      ((kernel.proc p).resize (kernel.proc p).pagetable sz)) := by
  refine ⟨(sound.focus p).install ?_ table framed space
    (fixed.of_entries fun v bound high => preserves.entries v bound (.inr high)),
    memory, _, sz, by simp [table], rfl⟩
  exact preserves.keeps_held.mono (Multiset.subset_of_le (Multiset.le_cons_self _ _))

theorem MemorySound.rebuilt (framed : (kernel.proc p).trapframe = some trapframe)
    (keeps : Keeps (trapframe ::ₘ kernel.outside p) kernel.memory memory)
    (space : Space pool memory pagetable (Finset.range (pages (kernel.proc p).sz))
      (trapframe ::ₘ kernel.outside p))
    (fixed : Fixed memory pagetable) : MemorySound pool (kernel.setMemory memory) := by
  have outsideKept := keeps.mono (Multiset.subset_of_le (Multiset.le_cons_self _ _))
  have installed := (sound.focus p).install outsideKept table framed space fixed
  rwa [show (kernel.setMemory memory).setProc p (kernel.proc p) = kernel.setMemory memory from
    Kernel.setProc_resize] at installed

theorem MemorySound.growproc_returns (n : Int) :
    Returns (growproc p n) kernel fun _ next => Resized pool kernel p next := by
  obtain ⟨trapframe, framed, space, fixed⟩ := sound.space table
  have unchanged {memory : Ram}
      (after : Space pool memory pagetable (Finset.range (pages (kernel.proc p).sz))
        (trapframe ::ₘ kernel.outside p))
      (preserves : Preserves pagetable ∅ (trapframe ::ₘ kernel.outside p) kernel.memory
        memory) :
      Resized pool kernel p (kernel.setMemory memory) := by
    have still := sound.rebuilt table framed preserves.keeps_held after
      (fixed.of_entries fun v bound high => preserves.entries v bound (.inr high))
    exact ⟨still, memory, _, _, by simp [table], Kernel.setProc_resize.symm⟩
  refine returns_get (returns_deref table ?_)
  split
  · refine returns_onMemory (space.uvmalloc_returns leafPerm_write) fun sz memory after => ?_
    obtain ⟨preserves, outcome⟩ := after
    split
    · rename_i failed
      refine .pure (unchanged ?_ preserves.high)
      rcases outcome with ⟨size, grown⟩ | ⟨-, -, same⟩
      · have zero : (kernel.proc p).sz = 0 := by omega
        rwa [zero, ← failed]
      · exact same
    · rename_i nonzero
      rcases outcome with ⟨-, grown⟩ | ⟨failed, -⟩
      · exact ⟨(), _, rfl, sound.resized table framed fixed grown preserves.high⟩
      · exact absurd failed nonzero
  split
  · refine returns_onMemory (space.uvmdealloc_returns _) fun sz memory after => ?_
    obtain ⟨-, cut, preserves, -⟩ := after
    exact ⟨(), _, rfl, sound.resized table framed fixed cut preserves.high⟩
  · exact .pure (unchanged space .refl)

end

/-- `exec`: the new address space takes the place of the old one, or nothing
changes. -/
theorem MemorySound.exec_returns (sound : MemorySound pool kernel)
    (table : (kernel.proc p).pagetable = some old) (file : Executable) :
    Returns (exec p file) kernel fun _ next => Resized pool kernel p next := by
  obtain ⟨trapframe, framed, oldSpace, oldFixed⟩ := sound.space table
  apply returns_get
  refine returns_onMemory (buildImage_returns file sound.accounts _) fun built memory after => ?_
  obtain ⟨keeps, result⟩ := after
  cases built with
  | none =>
    refine .pure ⟨sound.setMemory keeps result, memory, (kernel.proc p).pagetable,
      (kernel.proc p).sz, by simp [table], ?_⟩
    exact Kernel.setProc_resize.symm
  | some pair =>
    obtain ⟨pagetable, sz⟩ := pair
    obtain ⟨space, fixed⟩ := result
    refine returns_modifyProc (returns_deref table ?_)
    have inUse : kernel.inUse =
        spacePages kernel.memory (kernel.proc p).sz (some old) +
          (trapframe ::ₘ kernel.outside p) := by
      rw [kernel.inUse_eq p, Process.owned, table, framed, optional, Option.elim_some, add_assoc,
        Multiset.singleton_add]
    have oldInside : tablePages kernel.memory old ⊆ kernel.inUse := by
      rw [inUse, spacePages, add_assoc]
      exact Multiset.subset_of_le (Multiset.le_add_right _ _)
    have oldSane := (oldSpace.sane oldFixed).of_keeps keeps oldInside
    have accounts := space.spacePages_accounts
    rw [inUse, ← spacePages_of_keeps keeps oldInside, add_left_comm] at accounts
    refine returns_onMemory_last (((oldSane.space accounts).procFreepagetable_returns
      oldSane.fixed.trampoline oldSane.fixed.trapframe).mono fun _ last freed => ?_)
    obtain ⟨lastAccounts, lastKeeps⟩ := freed
    have newInside : tablePages memory pagetable ⊆
        spacePages memory sz (some pagetable) + (trapframe ::ₘ kernel.outside p) := by
      rw [spacePages, add_assoc]
      exact Multiset.subset_of_le (Multiset.le_add_right _ _)
    have newSane := (space.sane fixed).of_keeps lastKeeps newInside
    rw [← spacePages_of_keeps lastKeeps newInside] at lastAccounts lastKeeps
    have outsideKept : Keeps (kernel.outside p) kernel.memory last := by
      refine (keeps.mono ?_).trans (lastKeeps.mono ?_)
      · rw [kernel.inUse_eq p]
        exact Multiset.subset_of_le (Multiset.le_add_left _ _)
      · exact Multiset.subset_of_le
          ((Multiset.le_cons_self _ _).trans (Multiset.le_add_left _ _))
    exact ⟨(sound.focus p).install outsideKept rfl framed (newSane.space lastAccounts)
      newSane.fixed, last, some pagetable, sz, rfl, rfl⟩

/-! ## The arguments of `exec` -/

theorem fetchArgs_returns (count : Nat) (accounts : Accounts pool memory held) :
    Returns (fetchArgs count) memory fun result next =>
      Accounts pool next ((result.1 : Multiset Nat) + held) ∧ Keeps held memory next := by
  induction count generalizing memory held with
  | zero => exact .pure ⟨by simpa using accounts, .refl _ _⟩
  | succ count ih =>
    refine accounts.kalloc_returns.bind fun found taken allocated => ?_
    cases found with
    | none =>
      obtain ⟨-, rfl⟩ := allocated
      exact .pure ⟨by simpa using accounts, .refl _ _⟩
    | some page =>
      obtain ⟨takenAccounts, keeps, -⟩ := allocated
      refine (ih takenAccounts).bind fun result next after => ?_
      obtain ⟨nextAccounts, nextKeeps⟩ := after
      refine .pure ⟨?_, keeps.trans
        (nextKeeps.mono (Multiset.subset_of_le (Multiset.le_cons_self _ _)))⟩
      rwa [← Multiset.cons_coe, Multiset.cons_add, ← Multiset.add_cons]

theorem freeArgs_returns {pages : List Nat}
    (accounts : Accounts pool memory ((pages : Multiset Nat) + held)) :
    Returns (freeArgs pages) memory fun _ next =>
      Accounts pool next held ∧ Keeps held memory next := by
  induction pages generalizing memory with
  | nil => exact .pure ⟨by simpa using accounts, .refl _ _⟩
  | cons page rest ih =>
    rw [← Multiset.cons_coe, Multiset.cons_add] at accounts
    refine accounts.kfree_returns.bind fun _ freed after => ?_
    obtain ⟨freedAccounts, keeps⟩ := after
    refine (ih freedAccounts).mono fun _ next after => ?_
    exact ⟨after.1, (keeps.mono (Multiset.subset_of_le (Multiset.le_add_left _ _))).trans after.2⟩

/-- Pages that are held during a call can be left out of the pool meanwhile. -/
theorem Accounts.setAside (accounts : Accounts pool memory (aside + held)) :
    ∃ rest : PagePool, Accounts rest memory held ∧
      ∀ next now, Accounts rest next now → Accounts pool next (aside + now) := by
  rw [Accounts, add_left_comm] at accounts
  have within : (memory.freelist : Multiset Nat) + held ≤ pool.pages :=
    accounts ▸ Multiset.le_add_left _ _
  refine ⟨⟨(memory.freelist : Multiset Nat) + held, Multiset.nodup_of_le within pool.nodup,
    fun page mem => pool.managed page (Multiset.mem_of_le within mem)⟩, rfl,
    fun next now balanced => ?_⟩
  rw [Accounts] at balanced ⊢
  rw [add_left_comm, balanced]
  exact accounts

theorem MemorySound.sysExec_returns (sound : MemorySound pool kernel)
    (table : (kernel.proc p).pagetable = some old) (argc : Nat) (fetched : Bool)
    (file : Executable) :
    Returns (sysExec p argc fetched file) kernel fun _ next => Resized pool kernel p next := by
  refine returns_onMemory (fetchArgs_returns _ sound.accounts) fun result memory after => ?_
  obtain ⟨pages, ok⟩ := result
  obtain ⟨accounts, keeps⟩ := after
  obtain ⟨rest, restAccounts, restored⟩ := accounts.setAside
  have aside : MemorySound rest (kernel.setMemory memory) := sound.setMemory keeps restAccounts
  have called : Returns (if ok ∧ fetched ∧ argc < 32 then exec p file else pure ())
      (kernel.setMemory memory) fun _ next => Resized rest (kernel.setMemory memory) p next := by
    split
    · exact aside.exec_returns table file
    · exact .pure ⟨aside, memory, (kernel.proc p).pagetable, (kernel.proc p).sz, by simp [table],
        Kernel.setProc_resize.symm⟩
  refine called.bind fun _ next after => ?_
  obtain ⟨nextSound, middle, pagetable, sz, present, rfl⟩ := after
  refine returns_onMemory_last ((freeArgs_returns (restored _ _ nextSound.accounts)).mono
    fun _ last freed => ?_)
  exact ⟨nextSound.setMemory freed.2 freed.1, last, pagetable, sz, present, rfl⟩

end Pool
end Xv6.Memory
