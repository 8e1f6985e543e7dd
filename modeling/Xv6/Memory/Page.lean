import Mathlib.Algebra.Order.Ring.Int
import Xv6.Semantics.Radix
import Xv6.Semantics.Returns

/-!
# Physical pages and page-table entries

The macros of `riscv.h` and `memlayout.h`, and `kalloc.c`. Physical memory is
an array of pages of 512 words of 64 bits, both natural numbers here. A page is
named by its number, the address divided by `PGSIZE`. The list of free pages is kept as a list; its
links, which the kernel stores in the first word of each free page, are words
of memory as well.
-/

namespace Xv6.Memory

open Xv6.Semantics

/-- `PGSIZE`. -/
def pgsize : Nat := 4096

/-- `PGROUNDUP`. -/
def pgRoundUp (sz : Nat) : Nat := (sz + (pgsize - 1)) / pgsize * pgsize

/-- `PGROUNDDOWN`. -/
def pgRoundDown (a : Nat) : Nat := a / pgsize * pgsize

/-- `MAXVA`. -/
def maxva : Nat := 2 ^ 38

/-- `KERNBASE`. -/
def kernbase : Nat := 0x80000000

/-- `PHYSTOP`. -/
def phystop : Nat := kernbase + 128 * 1024 * 1024

theorem phystop_eq : phystop = 0x88000000 := rfl

/-- `TRAMPOLINE`. -/
def trampolineVa : Nat := maxva - pgsize

/-- `TRAPFRAME`. -/
def trapframeVa : Nat := trampolineVa - pgsize

/-- `FRY`. -/
def fry : Nat := trapframeVa - pgsize

/-- `SHRIMP`. -/
def shrimp : Nat := fry - pgsize

/-- `HEAP`. -/
def heap : Nat := shrimp - pgsize

/-- `STACK`. -/
def stack : Nat := heap - pgsize

/-- `GUARD_PAGE`. -/
def guardPage : Nat := stack - pgsize

/-- `DATA`. -/
def data : Nat := guardPage - pgsize

/-- `TEXT`. -/
def text : Nat := data - pgsize

/-- `PTE_V`. -/
def pteV : Nat := 1

/-- `PTE_R`. -/
def pteR : Nat := 2

/-- `PTE_W`. -/
def pteW : Nat := 4

/-- `PTE_X`. -/
def pteX : Nat := 8

/-- `PTE_U`. -/
def pteU : Nat := 16

/-- `PA2PTE`. -/
def pa2pte (pa : Nat) : Nat := pa / 2 ^ 12 * 2 ^ 10

/-- `PTE2PA`. -/
def pte2pa (pte : Nat) : Nat := pte / 2 ^ 10 * 2 ^ 12

/-- `PTE_FLAGS`. -/
def pteFlags (pte : Nat) : Nat := pte % 2 ^ 10

/-- `PX`: the index of a virtual address in a page-table page. -/
def px (level va : Nat) : Nat := va / 2 ^ (12 + 9 * level) % 512

/-- `*pte & PTE_V`. -/
def isValid (pte : Nat) : Bool := pte % 2 = 1

/-- `*pte & (PTE_R|PTE_W|PTE_X)`. -/
def isLeaf (pte : Nat) : Bool := pte / 2 % 8 ≠ 0

/-- The page a page-table entry refers to. -/
def ptePage (pte : Nat) : Nat := pte / 2 ^ 10

/-- `PA2PTE(pa) | perm | PTE_V`, where `perm` has flag bits only. -/
def mkPte (pa perm : Nat) : Nat := pa2pte pa + (perm ||| pteV)

/-- Addresses the linker assigns: `end` and `trampoline`. The kernel is loaded
at `KERNBASE`. -/
class Image where
  endAddr : Nat
  trampoline : Nat
  kernbase_le : kernbase ≤ endAddr

/-- Physical memory and `kmem.freelist`. -/
structure Ram where
  freelist : List Nat
  word : Nat → Nat → Nat

/-- How a kernel thread stops: `panic`, a fault on a null pointer, a recursion
without end, or a call that its process cannot make now. -/
inductive Halt where
  | panic (message : String)
  | pageFault
  | stackOverflow
  | notEnabled
  deriving DecidableEq

/-- Code that works on physical memory. -/
abbrev M := StateT Ram (Except Halt)

/-- `panic`. -/
def kpanic {Value : Type} (message : String) : M Value := throw (.panic message)

/-- Read one word of a page. -/
def load (page : Nat) (i : Nat) : M Nat := do
  return (← get).word page i

/-- Write one word of a page. -/
def store (page : Nat) (i : Nat) (word : Nat) : M Unit :=
  modify fun memory => { memory with word := Radix.Format.write memory.word page i word }

/-- Replace the contents of a page. -/
def fill (page : Nat) (contents : Nat → Nat) : M Unit :=
  modify fun memory =>
    { memory with word := fun other => if other = page then contents else memory.word other }

/-- The word that `memset` with the byte 5 leaves: a page just allocated. -/
def junkAllocated : Nat := 0x0505050505050505

/-- The word that `memset` with the byte 1 leaves: a page just freed. -/
def junkFreed : Nat := 0x0101010101010101

/-- `kfree`. -/
def kfree [Image] (pa : Nat) : M Unit := do
  if pa % pgsize ≠ 0 ∨ pa < Image.endAddr ∨ phystop ≤ pa then kpanic "kfree"
  else do
    let memory ← get
    let next := (memory.freelist.head?.getD 0) * pgsize
    fill (pa / pgsize) fun i => if i = 0 then next else junkFreed
    modify fun memory => { memory with freelist := pa / pgsize :: memory.freelist }

/-- `kalloc`. -/
def kalloc : M (Option Nat) := do
  let memory ← get
  match memory.freelist with
  | [] => return none
  | page :: rest => do
    set { memory with freelist := rest }
    fill page fun _ => junkAllocated
    return some page

end Xv6.Memory
