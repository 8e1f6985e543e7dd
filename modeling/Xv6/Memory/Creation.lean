import Xv6.Memory.Ownership

/-!
# Creating and freeing processes

`freeproc` gives back every page of a process and nothing else. `allocproc`
takes an unused entry and gives it a trapframe and an address space without
user pages, or leaves the entry unused and the account as it was.
-/

namespace Xv6.Memory

open Xv6.Proc (Slot ProcState)
open Xv6.Semantics

/-- The kernel with another memory. -/
def Kernel.setMemory (kernel : Kernel) (memory : Ram) : Kernel := { kernel with memory := memory }

section Rules

variable {Value Result : Type} {kernel : Kernel} {post : Result → Kernel → Prop}

theorem onMemory_run {op : M Value} (ran : op.run kernel.memory = .ok (value, memory)) :
    (onMemory op).run kernel = .ok (value, kernel.setMemory memory) := by
  have ran' : op kernel.memory = .ok (value, memory) := ran
  simp only [StateT.run, onMemory, ran']
  rfl

theorem onMemory_halt {op : M Value} (ran : op.run kernel.memory = .error halt) :
    (onMemory op).run kernel = .error halt := by
  have ran' : op kernel.memory = .error halt := ran
  simp only [StateT.run, onMemory, ran']

theorem returns_onMemory {op : M Value} (first : Returns op kernel.memory middle)
    (continued : ∀ value memory, middle value memory →
      Returns (rest value) (kernel.setMemory memory) post) :
    Returns (onMemory op >>= rest) kernel post := by
  obtain ⟨value, memory, ran, holds⟩ := first
  exact .bind_run (onMemory_run ran) (continued value memory holds)

theorem returns_onMemory_last
    (last : Returns op kernel.memory fun value memory => post value (kernel.setMemory memory)) :
    Returns (onMemory op) kernel post := by
  rw [← bind_pure (onMemory op)]
  exact returns_onMemory last fun value memory holds => .pure holds

theorem returns_modifyProc
    (continued : Returns (rest ()) (kernel.setProc p (change (kernel.proc p))) post) :
    Returns (modifyProc p change >>= rest) kernel post := continued

theorem returns_deref {value : Value}
    (target : pointer = some value) (continued : Returns (rest value) kernel post) :
    Returns (deref pointer >>= rest) kernel post := by
  rw [target]
  exact continued

end Rules

section Updates

variable {kernel : Kernel} {p : Slot} {first second : Process} {memory next : Ram}

@[simp] theorem Kernel.setProc_setProc :
    (kernel.setProc p first).setProc p second = kernel.setProc p second := by
  simp only [Kernel.setProc]
  congr 1
  ext q
  split <;> rfl

@[simp] theorem Kernel.setMemory_setMemory :
    (kernel.setMemory memory).setMemory next = kernel.setMemory next := rfl

@[simp] theorem Kernel.setMemory_setProc :
    (kernel.setProc p first).setMemory memory = (kernel.setMemory memory).setProc p first := rfl

@[simp] theorem Kernel.setMemory_proc : (kernel.setMemory memory).proc = kernel.proc := rfl

@[simp] theorem Kernel.setMemory_memory : (kernel.setMemory memory).memory = memory := rfl

@[simp] theorem Kernel.setProc_memory : (kernel.setProc p first).memory = kernel.memory := rfl

end Updates

/-- What `freeproc` leaves of an entry. -/
def Process.freed (process : Process) : Process :=
  { process with
    trapframe := none, pagetable := none, sz := 0, parent := none, state := .unused }

section Pool

variable [Image] {pool : PagePool} {kernel : Kernel} {p : Slot}

/-- `freeproc` of a process whose address space, if it has one, is sane. -/
theorem Focus.freeproc_returns
    (focus : Focus pool kernel p ((kernel.proc p).owned kernel.memory))
    (sane : ∀ pagetable, (kernel.proc p).pagetable = some pagetable →
      Sane kernel.memory pagetable (kernel.proc p).sz) :
    Returns (freeproc p) kernel fun _ next => ∃ memory,
      next = (kernel.setMemory memory).setProc p (kernel.proc p).freed ∧
        Focus pool next p 0 := by
  apply returns_get
  generalize hheld : spacePages kernel.memory (kernel.proc p).sz (kernel.proc p).pagetable +
    kernel.outside p = held
  have accounts := focus.accounts
  rw [Process.owned, add_assoc, add_comm (optional _), ← add_assoc, hheld] at accounts
  refine Returns.bind (show Returns _ kernel fun _ next => ∃ memory,
    next = kernel.setMemory memory ∧ Accounts pool memory held ∧
      Keeps held kernel.memory memory from ?_) fun _ next after => ?_
  · cases framed : (kernel.proc p).trapframe with
    | none =>
      rw [framed, optional, Option.elim_none, add_zero] at accounts
      exact .pure ⟨kernel.memory, rfl, accounts, .refl _ _⟩
    | some trapframe =>
      rw [framed, optional, Option.elim_some, add_comm, Multiset.singleton_add] at accounts
      refine returns_onMemory_last (accounts.kfree_returns.mono fun _ memory freed => ?_)
      exact ⟨memory, rfl, freed⟩
  obtain ⟨memory, rfl, accounts, keeps⟩ := after
  apply returns_modifyProc
  have outsideKept : Keeps (kernel.outside p) kernel.memory memory :=
    keeps.mono (Multiset.subset_of_le (hheld ▸ Multiset.le_add_left _ _))
  refine Returns.bind (show Returns _ ((kernel.setMemory memory).setProc p
      { kernel.proc p with trapframe := none }) fun _ next => ∃ last,
    next = (kernel.setMemory last).setProc p { kernel.proc p with trapframe := none } ∧
      Accounts pool last (kernel.outside p) ∧
      Keeps (kernel.outside p) kernel.memory last from ?_) fun _ next after => ?_
  · cases table : (kernel.proc p).pagetable with
    | none =>
      rw [table, spacePages, zero_add] at hheld
      exact .pure ⟨memory, rfl, hheld ▸ accounts, outsideKept⟩
    | some pagetable =>
      rw [table] at hheld
      have inside : tablePages kernel.memory pagetable ⊆ held := by
        rw [← hheld, spacePages, add_assoc]
        exact Multiset.subset_of_le (Multiset.le_add_right _ _)
      have kept := (sane pagetable table).of_keeps keeps inside
      have spaceAccounts : Accounts pool memory
          (spacePages memory (kernel.proc p).sz (some pagetable) + kernel.outside p) := by
        rw [spacePages, tablePages_of_keeps keeps inside,
          mappedPages_congr (entry_of_keeps keeps inside)]
        rw [spacePages] at hheld
        rwa [hheld]
      refine returns_onMemory_last (((kept.space spaceAccounts).procFreepagetable_returns
        kept.fixed.trampoline kept.fixed.trapframe).mono fun _ last freed => ?_)
      exact ⟨last, rfl, freed.1, outsideKept.trans freed.2⟩
  obtain ⟨last, rfl, lastAccounts, lastKeeps⟩ := after
  refine ⟨(), _, rfl, last, ?_, ?_⟩
  · simp [Process.freed]
  · exact (focus.setMemory lastKeeps (by rwa [zero_add])).setProc _ |>.setProc _

omit [Image] in
theorem findUnused_state {np : Slot} (found : findUnused kernel = some np) :
    (kernel.proc np).state = .unused := by
  simpa using List.find?_some found

omit [Image] in
theorem Process.Sound.of_unused {process : Process} {memory : Ram} (sound : process.Sound memory)
    (table : process.pagetable = none) : process.trapframe = none ∧ process.sz = 0 := by
  unfold Process.Sound at sound
  rwa [table] at sound

theorem Focus.install (focus : Focus pool kernel p mine)
    (keeps : Keeps (kernel.outside p) kernel.memory memory) (table : process.pagetable = some pagetable)
    (framed : process.trapframe = some trapframe)
    (space : Space pool memory pagetable (Finset.range (pages process.sz))
      (trapframe ::ₘ kernel.outside p))
    (fixed : Fixed memory pagetable) :
    MemorySound pool ((kernel.setMemory memory).setProc p process) := by
  have accounts := space.spacePages_accounts
  rw [← Multiset.singleton_add, ← add_assoc] at accounts
  have owned : process.owned memory =
      spacePages memory process.sz (some pagetable) + {trapframe} := by
    rw [Process.owned, table, framed]
    rfl
  refine Focus.close (p := p) ?_ ?_
  · rw [Kernel.setProc_self, Kernel.setProc_memory, Kernel.setMemory_memory, owned]
    exact (focus.setMemory keeps accounts).setProc process
  · rw [Kernel.setProc_self, Kernel.setProc_memory, Kernel.setMemory_memory, Process.Sound, table]
    exact ⟨by simp [framed], space.sane fixed⟩

/-- A page table that `proc_pagetable` returned has no frames mapped yet. -/
theorem fixed_of_created (entries : ∀ v < maxva / pgsize, entry memory pagetable v =
      if v = trapframeV then mkPte (trapframe * pgsize) (pteR ||| pteW)
      else if v = trampolineV then mkPte Image.trampoline (pteR ||| pteX) else 0) :
    Fixed memory pagetable := by
  constructor
  · rw [entries _ trampolineV_lt, if_neg trapframeV_ne_trampolineV.symm, if_pos rfl]
    exact isValid_mkPte _ _
  · rw [entries _ trapframeV_lt, if_pos rfl]
    exact isValid_mkPte _ _
  intro i
  have below := frame_lt i
  have order : trapframeV < trampolineV := by
    simp [trapframeV, trampolineV, maxva, pgsize]
  rw [entries _ (below.trans trapframeV_lt), if_neg (by omega), if_neg (by omega)]
  exact .inl rfl

/-- What `allocproc` returns: an entry with a trapframe and an empty address
space, or nothing, when no entry is unused or memory ran out. -/
def Started (pool : PagePool) (kernel : Kernel) (found : Option Slot) (next : Kernel) : Prop :=
  MemorySound pool next ∧
    match found with
    | none => (findUnused kernel = none ∧ next = kernel) ∨
        (kernel.memory.freelist.length < 6 ∧ ∃ np memory, (kernel.proc np).state = .unused ∧
          next = (kernel.setMemory memory).setProc np (kernel.proc np).freed)
    | some np => (kernel.proc np).state = .unused ∧ ∃ memory pagetable trapframe,
        kernel.memory.freelist.length ≤ memory.freelist.length + 6 ∧
          next = { (kernel.setMemory memory).setProc np
            { kernel.proc np with
              state := .used, trapframe := some trapframe, pagetable := some pagetable } with
            np := some np }

/-- `allocproc` gave up after it had taken the trapframe, or before. -/
theorem Focus.abandon (unused : (kernel.proc np).state = .unused)
    (few : kernel.memory.freelist.length < 6)
    (freed : process.freed = (kernel.proc np).freed) (noTable : process.pagetable = none)
    (focus : Focus pool ((kernel.setMemory memory).setProc np process) np
      (process.owned memory)) :
    Returns (do freeproc np; return none) ((kernel.setMemory memory).setProc np process)
      (Started pool kernel) := by
  have owned : Focus pool ((kernel.setMemory memory).setProc np process) np
      ((((kernel.setMemory memory).setProc np process).proc np).owned
        ((kernel.setMemory memory).setProc np process).memory) := by
    simpa using focus
  refine (owned.freeproc_returns fun pagetable table => ?_).bind fun _ next after => ?_
  · simp [noTable] at table
  obtain ⟨last, rfl, empty⟩ := after
  refine .pure ⟨?_, .inr ⟨few, np, last, unused, ?_⟩⟩
  · refine Focus.close (p := np) ?_ ?_
    · simpa [Process.owned, Process.freed, spacePages, optional] using empty
    · simp [Process.Sound, Process.freed]
  · simp [freed]

section

variable (sound : MemorySound pool kernel)
include sound

theorem MemorySound.allocproc_returns
    (unowned : ∀ np, (kernel.proc np).state = .unused → (kernel.proc np).pagetable = none) :
    Returns allocproc kernel (Started pool kernel) := by
  apply returns_get
  cases found : findUnused kernel with
  | none => exact .pure ⟨sound, .inl ⟨found, rfl⟩⟩
  | some np =>
    have unused := findUnused_state found
    have noTable := unowned np unused
    obtain ⟨noFrame, zero⟩ := (sound.processes np).of_unused noTable
    have focus := sound.focus np
    have nothing : (kernel.proc np).owned kernel.memory = 0 := by
      simp [Process.owned, noTable, noFrame, spacePages, optional]
    rw [nothing] at focus
    have accounts := focus.accounts
    apply returns_modifyProc
    refine returns_onMemory accounts.kalloc_returns fun found memory allocated => ?_
    cases found with
    | none =>
      obtain ⟨empty, same⟩ := allocated
      obtain rfl : memory = kernel.memory := same
      have few : kernel.memory.freelist.length < 6 := by
        have none : kernel.memory.freelist = [] := empty
        simp [none]
      refine Focus.abandon unused few (by simp [Process.freed]) noTable ?_
      have owned : ({ kernel.proc np with state := .used } : Process).owned kernel.memory =
          0 := nothing
      rw [owned]
      exact focus.setProc _
    | some trapframe =>
      obtain ⟨takenAccounts, takenKeeps, shorter, -⟩ := allocated
      rw [zero_add] at takenAccounts takenKeeps
      apply returns_modifyProc
      refine returns_onMemory (procPagetable_returns takenAccounts trapframe)
        fun found last created => ?_
      obtain ⟨lastKeeps, result⟩ := created
      have keeps : Keeps (kernel.outside np) kernel.memory last :=
        takenKeeps.trans (lastKeeps.mono (Multiset.subset_of_le (Multiset.le_cons_self _ _)))
      cases found with
      | none =>
        obtain ⟨lastAccounts, few⟩ := result
        simp only [Kernel.setMemory_setProc, Kernel.setProc_setProc, Kernel.setProc_self,
          Kernel.setMemory_setMemory]
        refine Focus.abandon unused (by omega) (by simp [Process.freed]) noTable ?_
        refine (focus.setMemory keeps ?_).setProc _
        simpa [Process.owned, spacePages, noTable, optional] using lastAccounts
      | some pagetable =>
        obtain ⟨space, entries, few⟩ := result
        refine returns_modifyProc (returns_modify (.pure ⟨?_, unused, last, pagetable,
          trapframe, by omega, ?_⟩))
        · have range : Space pool last pagetable (Finset.range (pages (kernel.proc np).sz))
              (trapframe ::ₘ kernel.outside np) := by
            rw [zero]
            exact space
          have installed : MemorySound pool ((kernel.setMemory last).setProc np
              { kernel.proc np with
                state := .used, trapframe := some trapframe, pagetable := some pagetable }) :=
            focus.install keeps rfl rfl range (fixed_of_created entries)
          simp only [Kernel.setMemory_setProc, Kernel.setProc_setProc, Kernel.setProc_self,
            Kernel.setMemory_setMemory]
          exact ⟨installed.accounts, installed.processes, installed.frames⟩
        · simp

/-- The address space of a process, all other pages in use being held elsewhere. -/
theorem MemorySound.space (table : (kernel.proc p).pagetable = some pagetable) :
    ∃ trapframe, (kernel.proc p).trapframe = some trapframe ∧
      Space pool kernel.memory pagetable (Finset.range (pages (kernel.proc p).sz))
        (trapframe ::ₘ kernel.outside p) ∧
      Fixed kernel.memory pagetable := by
  have process := sound.processes p
  have accounts := (sound.focus p).accounts
  rw [Process.Sound, table] at process
  obtain ⟨framed, sane⟩ := process
  obtain ⟨trapframe, frame⟩ := Option.isSome_iff_exists.mp framed
  refine ⟨trapframe, frame, sane.space ?_, sane.fixed⟩
  rw [Process.owned, table, frame, optional, Option.elim_some, add_assoc,
    Multiset.singleton_add] at accounts
  exact accounts

theorem MemorySound.setMemory (keeps : Keeps kernel.inUse kernel.memory memory)
    (accounts : Accounts wider memory kernel.inUse) : MemorySound wider (kernel.setMemory memory) := by
  have within (p : Slot) : (kernel.proc p).owned kernel.memory ≤ kernel.inUse := by
    rw [kernel.inUse_eq p]
    exact Multiset.le_add_right _ _
  refine ⟨?_, fun p => (sound.processes p).of_keeps keeps (within p), fun i page frame => ?_⟩
  · have same : (kernel.setMemory memory).inUse = kernel.inUse := by
      rw [(kernel.setMemory memory).inUse_eq Proc.initproc, kernel.inUse_eq Proc.initproc]
      refine congrArg₂ (· + ·) (owned_of_keeps keeps (within _)) (outside_of_keeps ?_)
      rw [kernel.inUse_eq Proc.initproc] at keeps
      exact keeps.mono (Multiset.subset_of_le (Multiset.le_add_left _ _))
    rw [same]
    exact accounts
  have framed : kernel.frames i = some page := frame
  have mem : page ∈ kernel.inUse := by
    rw [kernel.inUse_eq Proc.initproc]
    exact Multiset.mem_add.mpr (.inr (frame_mem_outside framed _))
  rw [Kernel.setMemory_memory, keeps page mem]
  exact sound.frames i page framed

end

end Pool
end Xv6.Memory
