import Xv6.Memory.Page

/-!
# Page tables

The functions of `vm.c` that build, copy and tear down user page tables. A
pointer to a page-table entry is the page that holds it and the index in it.
Loops over pages are recursions on the number of pages they have still to
visit.
-/

namespace Xv6.Memory

variable [Image]

/-- The loop of `walk`, for the levels from `level` down to 1. -/
def walkLevels : (level : Nat) → (pagetable : Nat) → (va : Nat) → (alloc : Bool) →
    M (Option Nat)
  | 0, pagetable, _, _ => return some pagetable
  | level + 1, pagetable, va, alloc => do
    let pte ← load pagetable (px (level + 1) va)
    if isValid pte then walkLevels level (ptePage pte) va alloc
    else if alloc then do
      match ← kalloc with
      | none => return none
      | some page => do
        fill page fun _ => 0
        store pagetable (px (level + 1) va) (pa2pte (page * pgsize) + pteV)
        walkLevels level page va alloc
    else return none

/-- `walk`: the page that holds the entry of `va`; its index there is `px 0 va`. -/
def walk (pagetable : Nat) (va : Nat) (alloc : Bool) : M (Option Nat) :=
  if maxva ≤ va then kpanic "walk" else walkLevels 2 pagetable va alloc

/-- The loop of `mappages`. `walk` refuses addresses from `MAXVA` on, so the
loop ends after at most `MAXVA / PGSIZE` pages whatever `last` is. -/
def mapLoop : (fuel : Nat) → (pagetable : Nat) → (a last pa perm : Nat) → M Bool
  | 0, _, _, _, _, _ => kpanic "walk"
  | fuel + 1, pagetable, a, last, pa, perm => do
    match ← walk pagetable a true with
    | none => return false
    | some table => do
      let pte ← load table (px 0 a)
      if isValid pte then kpanic "mappages: remap"
      else do
        store table (px 0 a) (mkPte pa perm)
        if a = last then return true
        else mapLoop fuel pagetable (a + pgsize) last (pa + pgsize) perm

/-- `mappages`: `true` for 0, `false` for -1. -/
def mappages (pagetable : Nat) (va size pa perm : Nat) : M Bool :=
  if size = 0 then kpanic "mappages: size"
  else mapLoop (maxva / pgsize + 1) pagetable (pgRoundDown va) (pgRoundDown (va + size - 1))
    pa perm

/-- The loop of `uvmunmap`. -/
def unmapLoop : (npages : Nat) → (pagetable : Nat) → (a : Nat) → (doFree : Bool) → M Unit
  | 0, _, _, _ => return
  | npages + 1, pagetable, a, doFree => do
    match ← walk pagetable a false with
    | none => kpanic "uvmunmap: walk"
    | some table => do
      let pte ← load table (px 0 a)
      if ¬isValid pte then kpanic "uvmunmap: not mapped"
      else if pteFlags pte = pteV then kpanic "uvmunmap: not a leaf"
      else do
        (if doFree then kfree (pte2pa pte) else pure ())
        store table (px 0 a) 0
        unmapLoop npages pagetable (a + pgsize) doFree

/-- `uvmunmap`. -/
def uvmunmap (pagetable : Nat) (va npages : Nat) (doFree : Bool) : M Unit :=
  if va % pgsize ≠ 0 then kpanic "uvmunmap: not aligned"
  else unmapLoop npages pagetable va doFree

/-- `uvmcreate`. -/
def uvmcreate : M (Option Nat) := do
  match ← kalloc with
  | none => return none
  | some pagetable => do
    fill pagetable fun _ => 0
    return some pagetable

/-- `uvmfirst`. Neither the page nor the mapping is checked. -/
def uvmfirst (pagetable : Nat) (contents : Nat → Nat) : M Unit := do
  match ← kalloc with
  | none => throw .pageFault
  | some mem => do
    fill mem fun _ => 0
    let _ ← mappages pagetable 0 pgsize (mem * pgsize) (pteW ||| pteR ||| pteX ||| pteU)
    fill mem contents

/-- `uvmdealloc`. -/
def uvmdealloc (pagetable : Nat) (oldsz newsz : Nat) : M Nat :=
  if oldsz ≤ newsz then return oldsz
  else if pgRoundUp newsz < pgRoundUp oldsz then do
    let npages := (pgRoundUp oldsz - pgRoundUp newsz) / pgsize
    uvmunmap pagetable (pgRoundUp newsz) npages true
    return newsz
  else return newsz

/-- The loop of `uvmalloc`; `oldsz` is already rounded up. -/
def allocLoop : (npages : Nat) → (pagetable : Nat) → (a oldsz newsz xperm : Nat) → M Nat
  | 0, _, _, _, newsz, _ => return newsz
  | npages + 1, pagetable, a, oldsz, newsz, xperm => do
    match ← kalloc with
    | none => do
      let _ ← uvmdealloc pagetable a oldsz
      return 0
    | some mem => do
      fill mem fun _ => 0
      if ← mappages pagetable a pgsize (mem * pgsize) (pteR ||| pteU ||| xperm) then
        allocLoop npages pagetable (a + pgsize) oldsz newsz xperm
      else do
        kfree (mem * pgsize)
        let _ ← uvmdealloc pagetable a oldsz
        return 0

/-- `uvmalloc`: the new size, or 0. -/
def uvmalloc (pagetable : Nat) (oldsz newsz xperm : Nat) : M Nat :=
  if newsz < oldsz then return oldsz
  else
    allocLoop ((newsz - pgRoundUp oldsz + (pgsize - 1)) / pgsize) pagetable (pgRoundUp oldsz)
      (pgRoundUp oldsz) newsz xperm

/-- The loop of `freewalk` over the entries from `i` on, `count` of them, where
`free` is the recursive call. -/
def freeLoop (free : Nat → M Unit) (pagetable : Nat) : (count i : Nat) → M Unit
  | 0, _ => return
  | count + 1, i => do
    let pte ← load pagetable i
    if isValid pte ∧ ¬isLeaf pte then do
      free (ptePage pte)
      store pagetable i 0
      freeLoop free pagetable count (i + 1)
    else freeLoop free pagetable count (i + 1)

/-- `freewalk`, to a given depth of its recursion. -/
def freewalk : (depth : Nat) → (pagetable : Nat) → M Unit
  | 0, _ => throw .stackOverflow
  | depth + 1, pagetable => do
    freeLoop (freewalk depth) pagetable 512 0
    kfree (pagetable * pgsize)

/-- `uvmfree`. A page table has three levels. -/
def uvmfree (pagetable : Nat) (sz : Nat) : M Unit := do
  (if 0 < sz then uvmunmap pagetable 0 (pgRoundUp sz / pgsize) true else pure ())
  freewalk 3 pagetable

/-- The loop of `uvmcopy`; the result is the index of the page it failed at. -/
def copyLoop : (npages : Nat) → (old new : Nat) → (i : Nat) → M (Option Nat)
  | 0, _, _, _ => return none
  | npages + 1, old, new, i => do
    match ← walk old i false with
    | none => kpanic "uvmcopy: pte should exist"
    | some table => do
      let pte ← load table (px 0 i)
      if ¬isValid pte then kpanic "uvmcopy: page not present"
      else do
        match ← kalloc with
        | none => return some i
        | some mem => do
          let source := (← get).word (ptePage pte)
          fill mem source
          if ← mappages new i pgsize (mem * pgsize) (pteFlags pte) then
            copyLoop npages old new (i + pgsize)
          else do
            kfree (mem * pgsize)
            return some i

/-- `uvmcopy`: `true` for 0, `false` for -1. -/
def uvmcopy (old new : Nat) (sz : Nat) : M Bool := do
  match ← copyLoop (pgRoundUp sz / pgsize) old new 0 with
  | none => return true
  | some i => do
    uvmunmap new 0 (i / pgsize) true
    return false

/-- `uvmclear`. -/
def uvmclear (pagetable : Nat) (va : Nat) : M Unit := do
  match ← walk pagetable va false with
  | none => kpanic "uvmclear"
  | some table => do
    let pte ← load table (px 0 va)
    store table (px 0 va) (if pte / pteU % 2 = 1 then pte - pteU else pte)

/-- `proc_pagetable`. -/
def procPagetable (trapframe : Nat) : M (Option Nat) := do
  match ← uvmcreate with
  | none => return none
  | some pagetable => do
    if ← mappages pagetable trampolineVa pgsize Image.trampoline (pteR ||| pteX) then
      if ← mappages pagetable trapframeVa pgsize (trapframe * pgsize) (pteR ||| pteW) then
        return some pagetable
      else do
        uvmunmap pagetable trampolineVa 1 false
        uvmfree pagetable 0
        return none
    else do
      uvmfree pagetable 0
      return none

/-- `proc_freepagetable`. -/
def procFreepagetable (pagetable : Nat) (sz : Nat) : M Unit := do
  uvmunmap pagetable trampolineVa 1 false
  uvmunmap pagetable trapframeVa 1 false
  uvmfree pagetable sz

end Xv6.Memory
