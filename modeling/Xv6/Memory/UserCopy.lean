import Xv6.Memory.Vm
import Xv6.Semantics.Bytes

/-!
# Copying between kernel and user memory

`copyout`, `copyin` and `copyinstr`, page by page through the page table of a process.
The kernel reaches the frames that a page table names at their physical addresses, where
its own page table maps the memory from `KERNBASE` to `PHYSTOP`; an access to any other
address faults. (The devices below `KERNBASE` are no memory either.) A buffer of the
kernel is the bytes read from it or, in order, the bytes written to it.
-/

namespace Xv6.Memory

open Xv6.Semantics

/-! ## Bytes of physical memory -/

/-- The byte at a physical address. -/
def Ram.bytes (memory : Ram) : Bytes := fun pa =>
  wordBytes (memory.word (pa / pgsize) (pa % pgsize / 8)) (pa % 8)

/-- Memory after `memmove` of `count` bytes to a physical address. -/
def Ram.memmove (memory : Ram) (pa count : Nat) (src : Bytes) : Ram :=
  { memory with
    word := fun page i =>
      let start := page * pgsize + 8 * i
      if i < 512 ∧ start < pa + count ∧ pa < start + 8 then
        Semantics.word 8 (copy memory.bytes pa count src) start
      else memory.word page i }

/-- The kernel maps `count` bytes at a physical address. -/
def Mapped (pa count : Nat) : Prop := kernbase ≤ pa ∧ pa + count ≤ phystop

instance (pa count : Nat) : Decidable (Mapped pa count) := inferInstanceAs (Decidable (_ ∧ _))

/-- `memmove` to a frame. -/
def storeBytes (pa count : Nat) (src : Bytes) : M Unit :=
  if Mapped pa count then modify fun memory => memory.memmove pa count src
  else throw .pageFault

/-- Bytes read from a frame. -/
def loadBytes (pa count : Nat) : M (List UInt8) := fun memory =>
  if Mapped pa count then .ok ((List.range count).map fun i => memory.bytes (pa + i), memory)
  else .error .pageFault

/-! ## The functions of `vm.c` -/

/-- `*pte & PTE_U`. -/
def isUser (pte : Nat) : Bool := pte / pteU % 2 = 1

/-- `walkaddr`. -/
def walkaddr (pagetable va : Nat) : M Nat :=
  if maxva ≤ va then return 0
  else do
    match ← walk pagetable va false with
    | none => return 0
    | some table => do
      let pte ← load table (px 0 va)
      if ¬isValid pte then return 0
      else if ¬isUser pte then return 0
      else return pte2pa pte % 2 ^ 64

/-- The loop of `copyout`. Every round copies a byte at least. -/
def copyoutLoop (pagetable : Nat) : (fuel dstva : Nat) → (src : Bytes) → (len : Nat) → M Int
  | 0, _, _, _ => return 0
  | fuel + 1, dstva, src, len =>
    if len = 0 then return 0
    else do
      let va0 := pgRoundDown dstva
      let pa0 ← walkaddr pagetable va0
      if pa0 = 0 then return -1
      else do
        let n := min (pgsize - (dstva - va0)) len
        storeBytes (pa0 + (dstva - va0)) n src
        copyoutLoop pagetable fuel ((va0 + pgsize) % 2 ^ 64) (dropBytes src n) (len - n)

/-- `copyout`. -/
def copyout (pagetable dstva : Nat) (src : Bytes) (len : Nat) : M Int :=
  copyoutLoop pagetable len dstva src len

/-- The loop of `copyin`. -/
def copyinLoop (pagetable : Nat) : (fuel srcva len : Nat) → M (Int × List UInt8)
  | 0, _, _ => return (0, [])
  | fuel + 1, srcva, len =>
    if len = 0 then return (0, [])
    else do
      let va0 := pgRoundDown srcva
      let pa0 ← walkaddr pagetable va0
      if pa0 = 0 then return (-1, [])
      else do
        let n := min (pgsize - (srcva - va0)) len
        let bytes ← loadBytes (pa0 + (srcva - va0)) n
        let (status, others) ← copyinLoop pagetable fuel ((va0 + pgsize) % 2 ^ 64) (len - n)
        return (status, bytes ++ others)

/-- `copyin`: the value it returns, and the bytes it writes to `dst`. -/
def copyin (pagetable srcva len : Nat) : M (Int × List UInt8) := copyinLoop pagetable len srcva len

/-- The inner loop of `copyinstr`: the bytes it writes, and `got_null`. -/
def stringLoop : List UInt8 → List UInt8 × Bool
  | [] => ([], false)
  | byte :: others =>
    if byte = 0 then ([0], true)
    else (byte :: (stringLoop others).1, (stringLoop others).2)

/-- The outer loop of `copyinstr`. -/
def copyinstrLoop (pagetable : Nat) : (fuel srcva max : Nat) → M (Int × List UInt8)
  | 0, _, _ => return (-1, [])
  | fuel + 1, srcva, max =>
    if max = 0 then return (-1, [])
    else do
      let va0 := pgRoundDown srcva
      let pa0 ← walkaddr pagetable va0
      if pa0 = 0 then return (-1, [])
      else do
        let n := min (pgsize - (srcva - va0)) max
        let bytes ← loadBytes (pa0 + (srcva - va0)) n
        if (stringLoop bytes).2 then return (0, (stringLoop bytes).1)
        else do
          let (status, others) ←
            copyinstrLoop pagetable fuel ((va0 + pgsize) % 2 ^ 64) (max - n)
          return (status, (stringLoop bytes).1 ++ others)

/-- `copyinstr`: the value it returns, and the bytes it writes to `dst`. -/
def copyinstr (pagetable srcva max : Nat) : M (Int × List UInt8) :=
  copyinstrLoop pagetable max srcva max

/-! ## What user addresses stand for -/

/-- The page-table page with the entry of `va`, found from a page of the given level. -/
def findTable (memory : Ram) : (level pagetable va : Nat) → Option Nat
  | 0, pagetable, _ => some pagetable
  | level + 1, pagetable, va =>
    let pte := memory.word pagetable (px (level + 1) va)
    if isValid pte then findTable memory level (ptePage pte) va else none

/-- The page-table pages that are read on the way. -/
def tablesOf (memory : Ram) : (level pagetable va : Nat) → List Nat
  | 0, pagetable, _ => [pagetable]
  | level + 1, pagetable, va =>
    let pte := memory.word pagetable (px (level + 1) va)
    if isValid pte then pagetable :: tablesOf memory level (ptePage pte) va else [pagetable]

/-- The address of the frame that a user address is mapped to, valid and with `PTE_U`. -/
def frameOf (memory : Ram) (pagetable va : Nat) : Option Nat :=
  if maxva ≤ va then none
  else do
    let table ← findTable memory 2 pagetable va
    let pte := memory.word table (px 0 va)
    if isValid pte && isUser pte then some (pte2pa pte % 2 ^ 64) else none

/-- The user address at a distance from another, in 64 bits. -/
def addressAt (va i : Nat) : Nat := (va + i) % 2 ^ 64

/-- The user address is mapped valid with `PTE_U`. -/
def Accessible (memory : Ram) (pagetable va : Nat) : Prop := (frameOf memory pagetable va).isSome

instance (memory : Ram) (pagetable va : Nat) : Decidable (Accessible memory pagetable va) :=
  inferInstanceAs (Decidable (_ = true))

/-- The physical address of a user address. -/
def physical (memory : Ram) (pagetable va : Nat) : Nat :=
  (frameOf memory pagetable va).getD 0 + va % pgsize

end Xv6.Memory
