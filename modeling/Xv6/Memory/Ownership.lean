import Mathlib.Data.Fintype.Basic
import Xv6.Memory.Lifetime
import Xv6.Memory.Process

/-!
# Who owns which page

`places` counts every page as often as it occurs: on the free list, as a
page-table page or below the size of a process, as a trapframe, as one of the
frames of `map_frames`, as a pipe. The kernel is sound when the places make up
the pool the allocator started with and every process has a well-formed address
space.

The steps of the kernel change one process at a time. `Focus` is what is known
about all the others while that one is being changed; it survives any change of
memory that keeps their pages.
-/

namespace Xv6.Memory

open Xv6.Proc (Slot ProcState)
open Xv6.Semantics

/-- The pages mapped at the first `n` virtual pages. -/
def mappedPages (memory : Ram) (pagetable n : Nat) : Multiset Nat :=
  ∑ v ∈ Finset.range n,
    if isValid (entry memory pagetable v) then {ptePage (entry memory pagetable v)} else 0

/-- The pages of an address space of the given size. -/
def spacePages (memory : Ram) (sz : Nat) : Option Nat → Multiset Nat
  | none => 0
  | some pagetable => tablePages memory pagetable + mappedPages memory pagetable (pages sz)

/-- A page that is there or not. -/
def optional (page : Option Nat) : Multiset Nat := page.elim 0 fun page => {page}

/-- The pages of a process: its address space and its trapframe. -/
def Process.owned (process : Process) (memory : Ram) : Multiset Nat :=
  spacePages memory process.sz process.pagetable + optional process.trapframe

/-- The frames of `map_frames`. -/
def Kernel.framePages (kernel : Kernel) : Multiset Nat := ∑ i, optional (kernel.frames i)

/-- Every page in use, as often as it is in use. -/
def Kernel.inUse (kernel : Kernel) : Multiset Nat :=
  ∑ p, (kernel.proc p).owned kernel.memory + (kernel.framePages + kernel.pipes)

/-- Every place a page is in. -/
def Kernel.places (kernel : Kernel) : Multiset Nat :=
  (kernel.memory.freelist : Multiset Nat) + kernel.inUse

/-- The pages in use other than those of process `p`. -/
def Kernel.outside (kernel : Kernel) (p : Slot) : Multiset Nat :=
  ∑ q ∈ Finset.univ.erase p, (kernel.proc q).owned kernel.memory +
    (kernel.framePages + kernel.pipes)

theorem Kernel.inUse_eq (kernel : Kernel) (p : Slot) :
    kernel.inUse = (kernel.proc p).owned kernel.memory + kernel.outside p := by
  rw [inUse, outside, ← Finset.add_sum_erase _ _ (Finset.mem_univ p), add_assoc]

theorem owned_le_outside (kernel : Kernel) (differ : q ≠ p) :
    (kernel.proc q).owned kernel.memory ≤ kernel.outside p := by
  have mem : q ∈ Finset.univ.erase p := Finset.mem_erase.mpr ⟨differ, Finset.mem_univ q⟩
  rw [Kernel.outside, ← Finset.add_sum_erase _ _ mem, add_assoc]
  exact Multiset.le_add_right _ _

theorem frame_mem_outside {kernel : Kernel}
    (frame : kernel.frames i = some page) (p : Slot) : page ∈ kernel.outside p := by
  refine Multiset.mem_add.mpr (.inr (Multiset.mem_add.mpr (.inl ?_)))
  rw [Kernel.framePages, Multiset.mem_sum]
  exact ⟨i, Finset.mem_univ i, by simp [optional, frame]⟩

/-! ## Well-formed processes -/

/-- The entry that `map_frames` makes for every frame: it maps the address found
in the first word of the frame page, which is the junk `kalloc` left there. -/
def framePte : Nat := mkPte junkAllocated (pteR ||| pteW ||| pteX ||| pteU)

/-- The entries above the user part: the trampoline and the trapframe are mapped,
and a frame is mapped as `map_frames` does it or not at all. -/
structure Fixed (memory : Ram) (pagetable : Nat) : Prop where
  trampoline : isValid (entry memory pagetable trampolineV) = true
  trapframe : isValid (entry memory pagetable trapframeV) = true
  frames : ∀ i, entry memory pagetable (vas i / pgsize) = 0 ∨
    entry memory pagetable (vas i / pgsize) = framePte

/-- A page table of a process of size `sz`: in the user part exactly the pages
below `sz` are mapped. -/
structure Sane (memory : Ram) (pagetable sz : Nat) : Prop where
  shaped : pteFormat.Shaped memory.word 2 pagetable
  user : ∀ v < pages sz, v < userTop ∧ isValid (entry memory pagetable v) = true
  clear : ∀ v < userTop, pages sz ≤ v → isValid (entry memory pagetable v) = false
  fixed : Fixed memory pagetable

/-- A process has an address space and a trapframe, or neither. -/
def Process.Sound (process : Process) (memory : Ram) : Prop :=
  match process.pagetable with
  | none => process.trapframe = none ∧ process.sz = 0
  | some pagetable => process.trapframe.isSome ∧ Sane memory pagetable process.sz

theorem userTop_le_frame (i : Fin 7) : userTop ≤ vas i / pgsize := by
  revert i
  decide +kernel

theorem frame_lt (i : Fin 7) : vas i / pgsize < trapframeV := by
  revert i
  decide +kernel

theorem vas_eq (i : Fin 7) : vas i = vas i / pgsize * pgsize := by
  revert i
  decide +kernel

theorem Fixed.of_entries (fixed : Fixed memory pagetable)
    (entries : ∀ v < maxva / pgsize, userTop ≤ v →
      entry next pagetable v = entry memory pagetable v) : Fixed next pagetable := by
  constructor
  · rw [entries _ trampolineV_lt userTop_le_trampolineV]
    exact fixed.trampoline
  · rw [entries _ trapframeV_lt userTop_le_trapframeV]
    exact fixed.trapframe
  · intro i
    rw [entries _ ((frame_lt i).trans trapframeV_lt) (userTop_le_frame i)]
    exact fixed.frames i

theorem mappedPages_eq (used : ∀ v < n, isValid (entry memory pagetable v) = true) :
    mappedPages memory pagetable n = userPages memory pagetable (Finset.range n) :=
  Finset.sum_congr rfl fun v mem => by rw [used v (Finset.mem_range.mp mem), if_pos rfl]

theorem mappedPages_congr (entries : ∀ v, entry next pagetable v = entry memory pagetable v) :
    mappedPages next pagetable n = mappedPages memory pagetable n := by
  simp only [mappedPages, entries]

section Keeping

variable {process : Process} {memory next : Ram} {held : Multiset Nat}

theorem tablePages_le_owned (table : process.pagetable = some pagetable) :
    tablePages memory pagetable ≤ process.owned memory := by
  rw [Process.owned, table, spacePages, add_assoc]
  exact Multiset.le_add_right _ _

theorem spacePages_of_keeps (keeps : Keeps held memory next)
    (inside : tablePages memory pagetable ⊆ held) :
    spacePages next sz (some pagetable) = spacePages memory sz (some pagetable) := by
  rw [spacePages, spacePages, tablePages_of_keeps keeps inside,
    mappedPages_congr (entry_of_keeps keeps inside)]

theorem owned_of_keeps (keeps : Keeps held memory next) (apart : process.owned memory ≤ held) :
    process.owned next = process.owned memory := by
  cases table : process.pagetable with
  | none => simp [Process.owned, table, spacePages]
  | some pagetable =>
    have inside : tablePages memory pagetable ⊆ held :=
      Multiset.subset_of_le ((tablePages_le_owned table).trans apart)
    rw [Process.owned, Process.owned, table, spacePages_of_keeps keeps inside]

theorem Sane.of_keeps (sane : Sane memory pagetable sz)
    (keeps : Keeps held memory next) (inside : tablePages memory pagetable ⊆ held) :
    Sane next pagetable sz := by
  have entries := entry_of_keeps keeps inside
  constructor
  · exact shaped_of_keeps keeps inside sane.shaped
  · simpa only [entries] using sane.user
  · simpa only [entries] using sane.clear
  · exact sane.fixed.of_entries fun v _ _ => entries v

theorem Process.Sound.of_keeps (sound : process.Sound memory) (keeps : Keeps held memory next)
    (apart : process.owned memory ≤ held) : process.Sound next := by
  unfold Process.Sound at sound ⊢
  cases table : process.pagetable with
  | none =>
    rw [table] at sound
    exact sound
  | some pagetable =>
    rw [table] at sound
    exact ⟨sound.1, sound.2.of_keeps keeps
      (Multiset.subset_of_le ((tablePages_le_owned table).trans apart))⟩

end Keeping

section Changes

variable {kernel : Kernel} {p : Slot}

theorem outside_of_keeps (keeps : Keeps (kernel.outside p) kernel.memory memory) :
    Kernel.outside { kernel with memory := memory } p = kernel.outside p := by
  rw [Kernel.outside, Kernel.outside]
  congr 1
  refine Finset.sum_congr rfl fun q mem => ?_
  exact owned_of_keeps keeps (owned_le_outside kernel (Finset.mem_erase.mp mem).1)

@[simp] theorem Kernel.setProc_self (process : Process) :
    (kernel.setProc p process).proc p = process := if_pos rfl

theorem Kernel.setProc_of_ne (process : Process) (differ : q ≠ p) :
    (kernel.setProc p process).proc q = kernel.proc q := if_neg differ

theorem outside_setProc (process : Process) :
    (kernel.setProc p process).outside p = kernel.outside p := by
  rw [Kernel.outside, Kernel.outside]
  congr 1
  refine Finset.sum_congr rfl fun q mem => ?_
  rw [Kernel.setProc_of_ne _ (Finset.mem_erase.mp mem).1]
  rfl

end Changes

section Pool

variable [Image]

/-- A sane page table is an address space, given the account of its pages. -/
theorem Sane.space (sane : Sane memory pagetable sz)
    (accounts : Accounts pool memory (spacePages memory sz (some pagetable) + held)) :
    Space pool memory pagetable (Finset.range (pages sz)) held := by
  rw [spacePages, mappedPages_eq fun v below => (sane.user v below).2, add_assoc] at accounts
  refine ⟨⟨accounts, sane.shaped⟩, fun v mem => ?_, fun v below notMapped => ?_⟩
  · exact sane.user v (Finset.mem_range.mp mem)
  · exact sane.clear v below (by simpa using notMapped)

namespace Space

variable {pool : PagePool} {memory : Ram} {pagetable sz : Nat} {held : Multiset Nat}

section

variable (space : Space pool memory pagetable (Finset.range (pages sz)) held)
include space

theorem sane (fixed : Fixed memory pagetable) : Sane memory pagetable sz := by
  refine ⟨space.table.shaped, fun v below => ?_, fun v below beyond => ?_, fixed⟩
  · exact space.user v (Finset.mem_range.mpr below)
  · exact space.clear v below (by simpa using beyond)

theorem spacePages_accounts : Accounts pool memory (spacePages memory sz (some pagetable) + held) := by
  have used : ∀ v < pages sz, isValid (entry memory pagetable v) = true :=
    fun v below => (space.user v (Finset.mem_range.mpr below)).2
  rw [spacePages, mappedPages_eq used, add_assoc]
  exact space.table.accounts

end

end Space

/-- Everything known about the processes other than `p`, while the pages of `p`
itself are `mine`. -/
structure Focus (pool : PagePool) (kernel : Kernel) (p : Slot) (mine : Multiset Nat) : Prop where
  accounts : Accounts pool kernel.memory (mine + kernel.outside p)
  others : ∀ q, q ≠ p → (kernel.proc q).Sound kernel.memory
  frames : ∀ i page, kernel.frames i = some page → kernel.memory.word page 0 = junkAllocated

/-- The places make up the pool, and every process is well formed. -/
structure MemorySound (pool : PagePool) (kernel : Kernel) : Prop where
  accounts : Accounts pool kernel.memory kernel.inUse
  processes : ∀ p, (kernel.proc p).Sound kernel.memory
  frames : ∀ i page, kernel.frames i = some page → kernel.memory.word page 0 = junkAllocated

variable {pool : PagePool} {kernel : Kernel} {p : Slot} {mine : Multiset Nat}

theorem MemorySound.focus (sound : MemorySound pool kernel) (p : Slot) :
    Focus pool kernel p ((kernel.proc p).owned kernel.memory) := by
  refine ⟨?_, fun q _ => sound.processes q, sound.frames⟩
  rw [← kernel.inUse_eq p]
  exact sound.accounts

theorem Focus.close (focus : Focus pool kernel p ((kernel.proc p).owned kernel.memory))
    (sound : (kernel.proc p).Sound kernel.memory) : MemorySound pool kernel := by
  refine ⟨?_, fun q => ?_, focus.frames⟩
  · rw [kernel.inUse_eq p]
    exact focus.accounts
  · rcases eq_or_ne q p with rfl | differ
    · exact sound
    · exact focus.others q differ

/-- The other processes do not notice a change that keeps their pages. -/
theorem Focus.setMemory (focus : Focus pool kernel p mine)
    (keeps : Keeps (kernel.outside p) kernel.memory memory)
    (accounts : Accounts pool memory (now + kernel.outside p)) :
    Focus pool { kernel with memory := memory } p now := by
  refine ⟨?_, fun q differ => ?_, fun i page frame => ?_⟩
  · rw [outside_of_keeps keeps]
    exact accounts
  · exact (focus.others q differ).of_keeps keeps (owned_le_outside kernel differ)
  · have framed : kernel.frames i = some page := frame
    rw [keeps page (frame_mem_outside framed p)]
    exact focus.frames i page framed

theorem Focus.setProc (focus : Focus pool kernel p mine) (process : Process) :
    Focus pool (kernel.setProc p process) p mine := by
  refine ⟨?_, fun q differ => ?_, focus.frames⟩
  · rw [outside_setProc]
    exact focus.accounts
  · rw [Kernel.setProc_of_ne _ differ]
    exact focus.others q differ

end Pool
end Xv6.Memory
