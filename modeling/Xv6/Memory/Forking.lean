import Xv6.Memory.Loading

/-!
# `fork`

`fork` copies an address space and then lets `map_frames` work on the page
tables that `Shrimpy` points to. Every statement of `map_frames` but the last
keeps the account: the pages it maps above the user part belong to nobody. The
last one copies a word from one root page to another, and keeps the account only
when it changes nothing.
-/

namespace Xv6.Memory

open Xv6.Proc (Slot ProcState)
open Xv6.Semantics

section Rules

variable {Value Result : Type} {kernel : Kernel} {post : Result → Kernel → Prop}

theorem ensures_onMemory {op : M Value} (first : Ensures op kernel.memory middle)
    (continued : ∀ value memory, middle value memory →
      Ensures (rest value) (kernel.setMemory memory) post) :
    Ensures (onMemory op >>= rest) kernel post := by
  have lifted : Ensures (onMemory op) kernel fun value next =>
      ∃ memory, middle value memory ∧ next = kernel.setMemory memory := by
    intro value next ran
    cases outcome : op.run kernel.memory with
    | error halt =>
      rw [onMemory_halt outcome] at ran
      cases ran
    | ok pair =>
      obtain ⟨returned, memory⟩ := pair
      rw [onMemory_run outcome] at ran
      cases ran
      exact ⟨memory, first _ _ outcome, rfl⟩
  refine lifted.bind fun value next after => ?_
  obtain ⟨memory, holds, rfl⟩ := after
  exact continued value memory holds

theorem ensures_deref {pointer : Option Value}
    (continued : ∀ value, pointer = some value → Ensures (rest value) kernel post) :
    Ensures (deref pointer >>= rest) kernel post := by
  cases pointer with
  | none => exact Ensures.throw
  | some value => exact continued value rfl

end Rules

/-! ## Frames and root entries -/

theorem mkPte_framePerm (i : Fin 7) : mkPte junkAllocated (framePerm i) = framePte := by
  revert i
  decide +kernel

theorem leafPerm_framePerm (i : Fin 7) : LeafPerm (framePerm i) := by
  unfold LeafPerm
  revert i
  decide +kernel

theorem framePages_setFrame (kernel : Kernel) (null : kernel.frames i = none) (page : Option Nat) :
    ∑ j, optional (if j = i then page else kernel.frames j) = optional page + kernel.framePages := by
  rw [Kernel.framePages, ← Finset.add_sum_erase _ _ (Finset.mem_univ i), if_pos rfl,
    ← Finset.add_sum_erase _ (fun j => optional (kernel.frames j)) (Finset.mem_univ i), null]
  apply congrArg (optional page + ·)
  rw [optional, Option.elim_none, zero_add]
  refine Finset.sum_congr rfl fun j mem => ?_
  rw [if_neg (Finset.mem_erase.mp mem).1]

theorem Ram.write_same (memory : Ram) (page i : Nat) :
    memory.write page i (memory.word page i) = memory := by
  obtain ⟨freelist, word⟩ := memory
  simp only [Ram.write, Ram.mk.injEq, true_and]
  ext other j
  simp only [Radix.Format.write]
  split
  · rename_i same
    show (if j = i then word page i else word page j) = word other j
    rw [same]
    split
    · next here => rw [here]
    · rfl
  · rfl

/-- The first root entry of the page table of the process pointed to. -/
def rootEntry (kernel : Kernel) (pointer : Option Slot) : Option Nat :=
  (pointer.bind fun p => (kernel.proc p).pagetable).map fun pagetable =>
    kernel.memory.word pagetable 0

/-- `Shrimpy->NP` and `Shrimpy->P` have the same first root entry. -/
def SameRootEntry (kernel : Kernel) : Prop := rootEntry kernel kernel.np = rootEntry kernel kernel.p

theorem copyRootEntry_ensures (equal : rootEntry kernel dst = rootEntry kernel src) :
    Ensures (copyRootEntry dst src) kernel fun _ next => next = kernel := by
  refine ensures_get (ensures_deref fun target isTarget =>
    ensures_deref fun source isSource => ?_)
  have same : kernel.memory.word target 0 = kernel.memory.word source 0 := by
    simpa [rootEntry, isTarget, isSource] using equal
  rintro ⟨⟩ next ran
  have ran' : Except.ok ((), kernel.setMemory
      (kernel.memory.write target 0 (kernel.memory.word source 0))) = Except.ok ((), next) := ran
  rw [← same, Ram.write_same] at ran'
  cases ran'
  rfl

section Pool

variable [Image] {pool : PagePool} {kernel : Kernel} {p np : Slot}

/-! ## Changes that concern no page -/

section

variable (sound : MemorySound pool kernel)
include sound

/-- The account is about memory, the frames, the pipes and, of every process, its
page table, size and trapframe. -/
theorem MemorySound.of_spaces
    (memory : next.memory = kernel.memory) (frames : next.frames = kernel.frames)
    (pipes : next.pipes = kernel.pipes)
    (spaces : ∀ p, (next.proc p).pagetable = (kernel.proc p).pagetable ∧
      (next.proc p).sz = (kernel.proc p).sz ∧ (next.proc p).trapframe = (kernel.proc p).trapframe) :
    MemorySound pool next := by
  have owned (p : Slot) : (next.proc p).owned next.memory = (kernel.proc p).owned kernel.memory := by
    obtain ⟨table, size, frame⟩ := spaces p
    rw [Process.owned, Process.owned, table, size, frame, memory]
  refine ⟨?_, fun p => ?_, ?_⟩
  · have same : next.inUse = kernel.inUse := by
      rw [Kernel.inUse, Kernel.inUse, Kernel.framePages, Kernel.framePages, frames, pipes,
        Finset.sum_congr rfl fun p _ => owned p]
    rw [same, memory]
    exact sound.accounts
  · obtain ⟨table, size, frame⟩ := spaces p
    have process := sound.processes p
    unfold Process.Sound at process ⊢
    rwa [table, size, frame, memory]
  · rw [frames, memory]
    exact sound.frames

theorem MemorySound.setProc
    (table : process.pagetable = (kernel.proc p).pagetable) (size : process.sz = (kernel.proc p).sz)
    (framed : process.trapframe = (kernel.proc p).trapframe) :
    MemorySound pool (kernel.setProc p process) := by
  refine sound.of_spaces rfl rfl rfl fun q => ?_
  rcases eq_or_ne q p with rfl | differ
  · rw [Kernel.setProc_self]
    exact ⟨table, size, framed⟩
  · rw [Kernel.setProc_of_ne _ differ]
    exact ⟨rfl, rfl, rfl⟩

theorem MemorySound.freeproc_returns :
    Returns (freeproc p) kernel fun _ next => MemorySound pool next ∧ ∃ memory,
      next = (kernel.setMemory memory).setProc p (kernel.proc p).freed := by
  have sane (pagetable : Nat) (table : (kernel.proc p).pagetable = some pagetable) :
      Sane kernel.memory pagetable (kernel.proc p).sz := by
    obtain ⟨trapframe, -, space, fixed⟩ := sound.space table
    exact space.sane fixed
  refine ((sound.focus p).freeproc_returns sane).mono fun _ next after => ?_
  obtain ⟨memory, rfl, empty⟩ := after
  refine ⟨Focus.close (p := p) ?_ ?_, memory, rfl⟩
  · simpa [Process.owned, Process.freed, spacePages, optional] using empty
  · simp [Process.Sound, Process.freed]

/-! ## Copying the address space -/

/-- The step of `fork` that copies the address space: the child has as many pages
as the parent, or its entry is free again. -/
theorem MemorySound.copy_returns (call : (kernel.proc p).call = .copy np) (differ : np ≠ p)
    (oldTable : (kernel.proc p).pagetable = some old)
    (newTable : (kernel.proc np).pagetable = some new) (zero : (kernel.proc np).sz = 0) :
    Returns (forkResume p) kernel fun _ next => MemorySound pool next ∧ ∃ memory,
      next = ((kernel.setMemory memory).setProc np
          { kernel.proc np with sz := (kernel.proc p).sz }).setProc p
          { kernel.proc p with call := .publish np } ∨
        next = ((kernel.setMemory memory).setProc np (kernel.proc np).freed).setProc p
          { kernel.proc p with call := .idle } := by
  obtain ⟨source, sourceFrame, oldSpace, -⟩ := sound.space oldTable
  obtain ⟨target, targetFrame, newSpace, fixed⟩ := sound.space newTable
  rw [zero] at newSpace
  have empty : Space pool kernel.memory new ∅ (target ::ₘ kernel.outside np) := newSpace
  have apart : tablePages kernel.memory old ⊆ target ::ₘ kernel.outside np := by
    refine Multiset.subset_of_le (le_trans ?_ (Multiset.le_cons_self _ _))
    exact (tablePages_le_owned oldTable).trans (owned_le_outside kernel differ.symm)
  have present (v : Nat) (below : v < pages (kernel.proc p).sz) :
      isValid (entry kernel.memory old v) = true :=
    (oldSpace.user v (Finset.mem_range.mpr below)).2
  apply returns_get
  simp only [call]
  refine returns_deref oldTable (returns_deref newTable ?_)
  refine returns_onMemory (empty.uvmcopy_returns oldSpace.table.shaped apart present)
    fun done memory after => ?_
  obtain ⟨preserves, outcome⟩ := after
  have still : Fixed memory new :=
    fixed.of_entries fun v bound high => preserves.entries v bound (.inr high)
  cases done with
  | true =>
    refine returns_modifyProc (returns_deref sourceFrame (returns_deref targetFrame ?_))
    have copied : Space pool memory new (Finset.range (pages (kernel.proc p).sz))
        (target ::ₘ kernel.outside np) := outcome.1
    have filled : Returns (copyTrapframe target source) memory fun _ last =>
        Space pool last new (Finset.range (pages (kernel.proc p).sz))
          (target ::ₘ kernel.outside np) ∧
        Preserves new (Finset.range (pages (kernel.proc p).sz)) (kernel.outside np) memory last :=
      ⟨(), _, rfl, copied.fill _⟩
    refine returns_onMemory filled fun _ last after => ?_
    obtain ⟨lastSpace, lastPreserves⟩ := after
    refine ⟨(), _, rfl, ?_, last, .inl ?_⟩
    · refine MemorySound.setProc ?_ rfl rfl rfl
      refine (sound.focus np).install ?_ newTable targetFrame lastSpace
        (still.of_entries fun v bound high => lastPreserves.entries v bound (.inr high))
      exact (preserves.keeps_held.mono (Multiset.subset_of_le (Multiset.le_cons_self _ _))).trans
        lastPreserves.keeps_held
    · simp [Kernel.setProc_of_ne _ differ.symm]
  | false =>
    have undone : Space pool memory new (Finset.range (pages (kernel.proc np).sz))
        (target ::ₘ kernel.outside np) := by
      rw [zero]
      exact outcome
    have again := sound.rebuilt newTable targetFrame preserves.keeps_held undone still
    refine again.freeproc_returns.bind fun _ next after => ?_
    obtain ⟨freedSound, last, rfl⟩ := after
    refine ⟨(), _, rfl, freedSound.setProc rfl rfl rfl, last, .inr ?_⟩
    simp [Kernel.setProc_of_ne _ differ.symm]

end

/-! ## The statements of `map_frames` -/

theorem Table.mappages_ensures
    (table : Table pool memory pagetable held) (bound : v < maxva / pgsize)
    (used : isValid (entry memory pagetable v) = true) :
    Ensures (mappages pagetable (v * pgsize) pgsize pa perm) memory fun done _ =>
      done = false := by
  rw [mappages, if_neg (by decide), pgRoundDown_mul, pgRoundDown_last, mapLoop]
  refine (Ensures.of_returns (table.walk_returns (mul_pgsize_lt bound))).bind
    fun found middle walked => ?_
  obtain ⟨-, -, entries, -, result⟩ := walked
  cases found with
  | none => exact .pure rfl
  | some last =>
    rw [mul_pgsize_div] at result
    have loaded : (load last (px 0 (v * pgsize))).run middle =
        .ok (entry memory pagetable v, middle) := by
      rw [px_zero_mul, ← entries v, ← word_of_slot result]
      rfl
    refine Ensures.bind_run loaded ?_
    rw [if_pos used]
    exact Ensures.throw

section

variable (sound : MemorySound pool kernel)
include sound

theorem MemorySound.unmap_ensures (table : (kernel.proc p).pagetable = some pagetable) (va : Nat) :
    Ensures (unmap pagetable va) kernel.memory fun _ memory =>
      MemorySound pool (kernel.setMemory memory) := by
  obtain ⟨trapframe, framed, space, fixed⟩ := sound.space table
  by_cases bound : va < maxva
  · refine (Ensures.of_returns (space.table.walk_returns bound)).bind fun found memory walked => ?_
    obtain ⟨grown, keeps, entries, -, result⟩ := walked
    have still : MemorySound pool (kernel.setMemory memory) :=
      sound.rebuilt table framed (keeps.mono (Multiset.subset_of_le (Multiset.le_add_left _ _)))
        (space.of_table grown fun v _ => entries v) (fixed.of_entries fun v _ _ => entries v)
    cases found with
    | none => exact .pure still
    | some last =>
      have loaded : (load last (px 0 va)).run memory =
          .ok (entry memory pagetable (va / pgsize), memory) := by
        rw [px_zero, pteFormat_fanout, ← word_of_slot result]
        rfl
      refine Ensures.bind_run loaded ?_
      split
      · rename_i used
        rw [if_pos (isLeaf_entry grown.shaped used)]
        exact .pure still
      · exact .pure still
  · rw [unmap, walk, if_pos (Nat.not_lt.mp bound)]
    exact Ensures.throw

/-- A frame is mapped into a page table: the entry refers to no page of the pool. -/
theorem MemorySound.mapFrame_ensures (table : (kernel.proc p).pagetable = some pagetable) (i :
    Fin 7) :
    Ensures (mappages pagetable (vas i) pgsize junkAllocated (framePerm i)) kernel.memory
      fun done memory => done = true → MemorySound pool (kernel.setMemory memory) := by
  obtain ⟨trapframe, framed, space, fixed⟩ := sound.space table
  have bound := (frame_lt i).trans trapframeV_lt
  rw [vas_eq]
  cases used : isValid (entry kernel.memory pagetable (vas i / pgsize)) with
  | true =>
    refine (space.table.mappages_ensures bound used).mono fun done memory failed mapped => ?_
    rw [failed] at mapped
    cases mapped
  | false =>
    refine (Ensures.of_returns (space.mapHigh_returns (userTop_le_frame i) bound used
      (leafPerm_framePerm i))).mono fun done memory after mapped => ?_
    obtain ⟨mappedSpace, keeps, entries, -⟩ := after
    have other {v : Nat} (inside : v < maxva / pgsize) (differ : v ≠ vas i / pgsize) :
        entry memory pagetable v = entry kernel.memory pagetable v := by
      rw [entries v inside, if_neg fun both => differ both.2]
    have below := frame_lt i
    have order : trapframeV < trampolineV := by
      simp [trapframeV, trampolineV, maxva, pgsize]
    refine sound.rebuilt table framed keeps mappedSpace ⟨?_, ?_, fun j => ?_⟩
    · rw [other trampolineV_lt (by omega)]
      exact fixed.trampoline
    · rw [other trapframeV_lt (by omega)]
      exact fixed.trapframe
    · rw [entries _ ((frame_lt j).trans trapframeV_lt)]
      split
      · exact .inr (mkPte_framePerm i)
      · exact fixed.frames j

theorem MemorySound.allocateFrame (null : kernel.frames i = none)
    (allocated : Accounts.Allocated pool kernel.inUse kernel.memory found memory)
    (pas : Fin 7 → Option Nat) :
    MemorySound pool { kernel.setMemory memory with
      frames := fun j => if j = i then found else kernel.frames j
      pas := pas } := by
  cases found with
  | none =>
    obtain ⟨-, rfl⟩ := allocated
    have same : (fun j => if j = i then none else kernel.frames j) = kernel.frames := by
      ext1 j
      split
      · next here => rw [here, null]
      · rfl
    exact sound.of_spaces rfl same rfl fun _ => ⟨rfl, rfl, rfl⟩
  | some page =>
    obtain ⟨accounts, keeps, -, junk⟩ := allocated
    have aside : page ::ₘ kernel.inUse = {page} + kernel.inUse := (Multiset.singleton_add _ _).symm
    rw [aside] at accounts
    obtain ⟨rest, restAccounts, restored⟩ := accounts.setAside
    have moved : MemorySound rest (kernel.setMemory memory) := sound.setMemory keeps restAccounts
    refine ⟨?_, moved.processes, fun j other frame => ?_⟩
    · have more := restored _ _ moved.accounts
      have pages : ∑ j, optional (if j = i then some page else kernel.frames j) =
          {page} + (kernel.setMemory memory).framePages :=
        framePages_setFrame kernel null (some page)
      rw [Kernel.inUse, add_left_comm, ← add_assoc ({page} : Multiset Nat), ← pages] at more
      exact more
    have frame' : (if j = i then some page else kernel.frames j) = some other := frame
    split at frame'
    · cases frame'
      exact junk 0
    · exact moved.frames j other frame'

theorem MemorySound.frameStep_ensures (fresh : ∀ i, op = .allocate i → kernel.frames i = none)
    (same : op = .memmove → SameRootEntry kernel) :
    Ensures (frameStep op rest) kernel fun _ next =>
      MemorySound pool next ∧ next.proc = kernel.proc ∧ next.initproc = kernel.initproc := by
  apply ensures_get
  cases op with
  | unmap va =>
    refine ensures_deref fun pagetable found => ?_
    obtain ⟨np, -, table⟩ := Option.bind_eq_some_iff.mp found
    refine ensures_onMemory (sound.unmap_ensures table va) fun _ memory after => ?_
    exact .pure ⟨after, rfl, rfl⟩
  | test i => exact .pure ⟨sound, rfl, rfl⟩
  | allocate i =>
    refine ensures_onMemory (.of_returns sound.accounts.kalloc_returns)
      fun found memory allocated => ?_
    exact .of_returns ⟨_, _, rfl, sound.allocateFrame (fresh i rfl) allocated _, rfl, rfl⟩
  | map i =>
    cases framed : kernel.frames i with
    | none =>
      simp only [framed]
      exact Ensures.throw
    | some page =>
      simp only [framed]
      refine ensures_deref fun pagetable found => ?_
      obtain ⟨p, -, table⟩ := Option.bind_eq_some_iff.mp found
      have loaded : Returns (load page 0) kernel.memory fun pa memory =>
          pa = junkAllocated ∧ memory = kernel.memory :=
        ⟨_, _, rfl, sound.frames i page framed, rfl⟩
      refine ensures_onMemory (.of_returns loaded) fun pa memory after => ?_
      obtain ⟨rfl, rfl⟩ := after
      refine ensures_onMemory (sound.mapFrame_ensures table i) fun done memory after => ?_
      cases done with
      | true => exact .pure ⟨after rfl, rfl, rfl⟩
      | false =>
        have freed : Ensures (onMemory (kfree (page * pgsize))) (kernel.setMemory memory)
            fun _ _ => True := fun _ _ _ => trivial
        exact freed.bind fun _ _ _ => Ensures.throw
  | memmove =>
    refine (copyRootEntry_ensures (same rfl)).bind fun _ next unchanged => ?_
    subst unchanged
    exact .pure ⟨sound, rfl, rfl⟩

end

/-! ## `userinit` -/

variable {memory : Ram} {pagetable : Nat}

/-- `uvmfirst`, with enough memory: the first page of the address space. -/
theorem Space.uvmfirst_returns
    (space : Space pool memory pagetable ∅ held) (enough : 3 ≤ memory.freelist.length)
    (contents : Nat → Nat) :
    Returns (uvmfirst pagetable contents) memory fun _ next =>
      Space pool next pagetable (Finset.range 1) held ∧
        Preserves pagetable ∅ held memory next := by
  refine space.kalloc_returns.bind fun found taken allocated => ?_
  cases found with
  | none =>
    obtain ⟨empty, -⟩ := allocated
    simp [empty] at enough
  | some mem =>
    obtain ⟨takenSpace, takenPreserves, shorter, -⟩ := allocated
    apply returns_fill
    obtain ⟨cleared, clearedPreserves⟩ := takenSpace.fill fun _ => 0
    have top : 0 < userTop := by
      simp [userTop, text, data, guardPage, stack, heap, shrimp, fry, trapframeVa, trampolineVa,
        maxva, pgsize]
    have perm : LeafPerm (pteW ||| pteR ||| pteX ||| pteU) := ⟨by decide, by decide⟩
    have bound := top.trans userTop_lt
    have unused := cleared.clear 0 top (Finset.notMem_empty 0)
    refine (cleared.table.mappages_returns bound unused perm).bind fun done next after => ?_
    obtain ⟨table, keeps, entries, -, few⟩ := after
    obtain rfl : done = true := by
      by_contra failed
      have := few (by simpa using failed)
      simp only [Ram.fill_freelist] at this
      omega
    -- The page is filled last, after it has become part of the address space.
    have isHeld : mem ∈ userPages (taken.fill mem fun _ => 0) pagetable ∅ + (mem ::ₘ held) :=
      Multiset.mem_add.mpr (.inr (Multiset.mem_cons_self _ _))
    obtain ⟨filled, filledEntries⟩ := table.fill isHeld contents
    have after (v : Nat) (inside : v < maxva / pgsize) :
        entry (next.fill mem contents) pagetable v =
          if v = 0 then mkPte (mem * pgsize) (pteW ||| pteR ||| pteX ||| pteU)
          else entry (taken.fill mem fun _ => 0) pagetable v := by
      rw [filledEntries, entries v inside]
      simp
    have fresh : mem ∉ held :=
      (Multiset.nodup_cons.mp (Multiset.nodup_of_le (Multiset.le_add_left _ _)
        (Multiset.nodup_of_le (Multiset.le_add_left _ _) table.accounts.nodup_held))).1
    have heldKept : Keeps held (taken.fill mem fun _ => 0) (next.fill mem contents) := by
      refine (keeps.mono (Multiset.subset_of_le ?_)).trans (Keeps.fill fresh)
      exact (Multiset.le_cons_self _ _).trans (Multiset.le_add_left _ _)
    refine ⟨(), next.fill mem contents, rfl, ?_, (takenPreserves.trans_high clearedPreserves).trans_high ⟨?_, ?_⟩⟩
    · exact cleared.map top (Finset.notMem_empty 0) filled after (isValid_mkPte _ _)
        (ptePage_mkPte perm)
    · intro v inside fixed
      have high : userTop ≤ v := by simpa using fixed
      rw [after v inside, if_neg (by omega)]
    · rwa [userPages, Finset.sum_empty, zero_add]

theorem MemorySound.userinit_ensures (sound : MemorySound pool kernel)
    (unowned : ∀ np, (kernel.proc np).state = .unused → (kernel.proc np).pagetable = none)
    (enough : 9 ≤ kernel.memory.freelist.length) (initcode : Nat → Nat) :
    Ensures (userinit initcode) kernel fun _ next => MemorySound pool next ∧
      ∃ np process, (kernel.proc np).state = .unused ∧ next.initproc = some np ∧
        next.proc = (kernel.setProc np process).proc ∧ process.state = .runnable ∧ process.pagetable.isSome ∧
        process.call = (kernel.proc np).call := by
  refine (Ensures.of_returns (sound.allocproc_returns unowned)).bind fun found next started => ?_
  cases found with
  | none => exact Ensures.throw
  | some np =>
    obtain ⟨nextSound, unused, memory, pagetable, trapframe, left, nextIs⟩ := started
    have size : (kernel.proc np).sz = 0 :=
      ((sound.processes np).of_unused (unowned np unused)).2
    apply ensures_modify
    generalize hmarked : ({ next with initproc := some np } : Kernel) = marked
    have markedSound : MemorySound pool marked :=
      nextSound.of_spaces (by rw [← hmarked]) (by rw [← hmarked]) (by rw [← hmarked])
        fun p => by rw [← hmarked]; exact ⟨rfl, rfl, rfl⟩
    have markedProc : marked.proc = (kernel.setProc np { kernel.proc np with
        state := .used, trapframe := some trapframe, pagetable := some pagetable }).proc := by
      rw [← hmarked, nextIs]
      rfl
    have own : marked.proc np = { kernel.proc np with
        state := .used, trapframe := some trapframe, pagetable := some pagetable } := by
      rw [markedProc, Kernel.setProc_self]
    have pointer : marked.np = some np := by rw [← hmarked, nextIs]
    have free : 3 ≤ marked.memory.freelist.length := by
      rw [← hmarked, nextIs]
      show 3 ≤ memory.freelist.length
      omega
    apply ensures_get
    refine (copyRootEntry_ensures (by rw [pointer])).bind fun _ same unchanged => ?_
    subst unchanged
    have table : (same.proc np).pagetable = some pagetable := by rw [own]
    refine ensures_get (ensures_deref fun found isTable => ?_)
    obtain rfl : found = pagetable := Option.some.inj (isTable.symm.trans table)
    obtain ⟨frame, framed, space, fixed⟩ := markedSound.space table
    rw [own] at space
    have empty : Space pool same.memory found ∅ (frame ::ₘ same.outside np) := by
      rwa [size] at space
    refine ensures_onMemory (.of_returns (empty.uvmfirst_returns free initcode))
      fun _ last after => ?_
    obtain ⟨grown, preserves⟩ := after
    have one : pages pgsize = 1 := rfl
    rw [← one] at grown
    refine .of_returns ⟨(), _, rfl, ?_, np, { same.proc np with sz := pgsize, state := .runnable },
      unused, ?_, ?_, rfl, by simp [table], by simp [own]⟩
    · refine (markedSound.focus np).install ?_ table framed grown
        (fixed.of_entries fun v bound high => preserves.entries v bound (.inr high))
      exact preserves.keeps_held.mono (Multiset.subset_of_le (Multiset.le_cons_self _ _))
    · rw [← hmarked]
      rfl
    · ext1 q
      rcases eq_or_ne q np with rfl | differ
      · simp
      · simp [Kernel.setProc_of_ne _ differ, markedProc]

/-! ## Pipes -/

omit [Image] in
theorem inUse_pipes (kernel : Kernel) {page : Nat} {pipes others : List Nat}
    (more : (pipes : Multiset Nat) = page ::ₘ (others : Multiset Nat)) :
    ({ kernel with pipes := pipes } : Kernel).inUse =
      page ::ₘ ({ kernel with pipes := others } : Kernel).inUse := by
  rw [Kernel.inUse, Kernel.inUse, more, Multiset.add_cons, Multiset.add_cons]
  rfl

theorem MemorySound.pipealloc_returns (sound : MemorySound pool kernel) :
    Returns pipealloc kernel fun _ next =>
      MemorySound pool next ∧ next.proc = kernel.proc ∧ next.initproc = kernel.initproc := by
  refine returns_onMemory sound.accounts.kalloc_returns fun found memory allocated => ?_
  cases found with
  | none =>
    obtain ⟨-, same⟩ := allocated
    exact .pure ⟨by rw [same]; exact sound, rfl, rfl⟩
  | some page =>
    obtain ⟨accounts, keeps, -⟩ := allocated
    rw [← Multiset.singleton_add] at accounts
    obtain ⟨rest, restAccounts, restored⟩ := accounts.setAside
    have moved : MemorySound rest (kernel.setMemory memory) := sound.setMemory keeps restAccounts
    refine ⟨(), _, rfl, ⟨?_, moved.processes, moved.frames⟩, rfl, rfl⟩
    have more := restored _ _ moved.accounts
    exact (inUse_pipes (kernel.setMemory memory) (Multiset.cons_coe page kernel.pipes).symm).symm ▸
      more

theorem MemorySound.pipeclose_ensures (sound : MemorySound pool kernel) (page : Nat) :
    Ensures (pipeclose page) kernel fun _ next =>
      MemorySound pool next ∧ next.proc = kernel.proc ∧ next.initproc = kernel.initproc := by
  apply ensures_get
  split
  · rename_i mem
    apply ensures_modify
    generalize hclosed : ({ kernel with pipes := kernel.pipes.erase page } : Kernel) = closed
    have account : kernel.inUse = page ::ₘ closed.inUse := by
      have split : (kernel.pipes : Multiset Nat) = page ::ₘ (kernel.pipes.erase page : List Nat) := by
        exact (Multiset.cons_erase (Multiset.mem_coe.mpr mem)).symm
      rw [← hclosed]
      exact inUse_pipes kernel split
    have accounts : Accounts pool closed.memory (page ::ₘ closed.inUse) := by
      rw [← account, ← hclosed]
      exact sound.accounts
    have split := accounts
    rw [← Multiset.singleton_add] at split
    obtain ⟨rest, restAccounts, -⟩ := split.setAside
    have aside : MemorySound rest closed := by
      refine ⟨restAccounts, ?_, ?_⟩
      · rw [← hclosed]
        exact sound.processes
      · rw [← hclosed]
        exact sound.frames
    refine .of_returns (returns_onMemory_last (accounts.kfree_returns.mono
      fun _ memory freed => ?_))
    refine ⟨aside.setMemory freed.2 freed.1, ?_⟩
    rw [← hclosed]
    exact ⟨rfl, rfl⟩
  · exact Ensures.throw

end Pool
end Xv6.Memory
