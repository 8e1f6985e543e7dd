import Xv6.Memory.Vm
import Xv6.Proc.Op
import Xv6.Semantics.Execution

/-!
# Processes and their memory

The part of `proc.c`, `exec.c` and `pipe.c` that allocates, maps and frees
pages. `exec`, `sbrk`, `exit` and `wait` are single steps. `fork` is not: the
child is published before `map_frames` finishes its page table, and `map_frames`
works on the processes that the global `Shrimpy` points to at the time, so
`fork` is a sequence of steps between which other processes run. A call that
panics has no successor state.

What a call reads from files, from user memory or from its arguments is part of
its label.
-/

namespace Xv6.Memory

open Xv6.Proc (Slot ProcState)
open Xv6.Semantics

/-- The statements of `map_frames`. A frame page is tested, allocated if there
is none yet, and mapped. -/
inductive FrameOp where
  | unmap (va : Nat)
  | test (i : Fin 7)
  | allocate (i : Fin 7)
  | map (i : Fin 7)
  | memmove
  deriving DecidableEq

/-- How far the `fork` that a process has called is. -/
inductive Call where
  | idle
  | copy (np : Slot)
  | publish (np : Slot)
  | point (np : Slot)
  | frames (np : Slot) (ops : List FrameOp)
  deriving DecidableEq

/-- `struct proc`: the fields that concern memory. -/
structure Process where
  state : ProcState
  pagetable : Option Nat
  sz : Nat
  trapframe : Option Nat
  parent : Option Slot
  call : Call

/-- A zeroed entry of `proc[]`. -/
def Process.blank : Process where
  state := .unused
  pagetable := none
  sz := 0
  trapframe := none
  parent := none
  call := .idle

/-- Whether the process may execute: it is runnable, running or asleep. -/
def Process.alive (process : Process) : Prop :=
  process.state = .runnable ∨ process.state = .running ∨ process.state = .sleeping

instance (process : Process) : Decidable process.alive :=
  inferInstanceAs (Decidable (_ ∨ _))

/-- The process table, physical memory, `Shrimpy` (its `NP`, `P` and `pas`), the
frame pages of `map_frames` (`fry_page` to `context_page`) and the pipes. -/
structure Kernel where
  memory : Ram
  proc : Slot → Process
  initproc : Option Slot
  np : Option Slot
  p : Option Slot
  frames : Fin 7 → Option Nat
  pas : Fin 7 → Option Nat
  pipes : List Nat

/-- Code that works on the whole kernel state. -/
abbrev K := StateT Kernel (Except Halt)

/-- Run code that works on physical memory. -/
def onMemory {Value : Type} (op : M Value) : K Value := fun kernel =>
  match op kernel.memory with
  | .ok (value, memory) => .ok (value, { kernel with memory := memory })
  | .error halt => .error halt

/-- Replace an entry of the process table. -/
def Kernel.setProc (kernel : Kernel) (p : Slot) (process : Process) : Kernel :=
  { kernel with proc := fun q => if q = p then process else kernel.proc q }

/-- Change an entry of the process table. -/
def modifyProc (p : Slot) (change : Process → Process) : K Unit :=
  modify fun kernel => kernel.setProc p (change (kernel.proc p))

/-- Follow a pointer; a null pointer faults. -/
def deref {Value : Type} : Option Value → K Value
  | none => throw .pageFault
  | some value => return value

section Image

variable [Image]

/-! ## Creating and freeing processes -/

/-- `freeproc`. -/
def freeproc (p : Slot) : K Unit := do
  let process := (← get).proc p
  (match process.trapframe with
    | none => pure ()
    | some trapframe => onMemory (kfree (trapframe * pgsize)))
  modifyProc p fun process => { process with trapframe := none }
  (match process.pagetable with
    | none => pure ()
    | some pagetable => onMemory (procFreepagetable pagetable process.sz))
  modifyProc p fun process =>
    { process with pagetable := none, sz := 0, parent := none, state := .unused }

/-- The search of `allocproc` for an unused entry. -/
def findUnused (kernel : Kernel) : Option Slot :=
  (List.finRange nproc).find? fun p => (kernel.proc p).state = .unused

/-- `allocproc`. -/
def allocproc : K (Option Slot) := do
  match findUnused (← get) with
  | none => return none
  | some np => do
    modifyProc np fun process => { process with state := .used }
    match ← onMemory kalloc with
    | none => do
      freeproc np
      return none
    | some trapframe => do
      modifyProc np fun process => { process with trapframe := some trapframe }
      match ← onMemory (procPagetable trapframe) with
      | none => do
        freeproc np
        return none
      | some pagetable => do
        modifyProc np fun process => { process with pagetable := some pagetable }
        modify fun kernel => { kernel with np := some np }
        return some np

/-- `memmove(dst->pagetable, src->pagetable, sizeof(pagetable_t))`: the size of
a pointer, so one entry of the root page is copied. -/
def copyRootEntry (dst src : Option Slot) : K Unit := do
  let kernel ← get
  let target ← deref (dst.bind fun p => (kernel.proc p).pagetable)
  let source ← deref (src.bind fun p => (kernel.proc p).pagetable)
  onMemory do
    let pte ← load source 0
    store target 0 pte

/-- `userinit`. -/
def userinit (initcode : Nat → Nat) : K Unit := do
  match ← allocproc with
  | none => throw .pageFault
  | some p => do
    modify fun kernel => { kernel with initproc := some p }
    copyRootEntry (some p) (← get).np
    let pagetable ← deref ((← get).proc p).pagetable
    onMemory (uvmfirst pagetable initcode)
    modifyProc p fun process => { process with sz := pgsize, state := .runnable }

/-! ## `fork` -/

/-- `*(np->trapframe) = *(p->trapframe)` and `np->trapframe->a0 = 0`: the
trapframe is 36 words, and `a0` the one at index 14. -/
def copyTrapframe (target source : Nat) : M Unit := do
  let memory ← get
  fill target fun i =>
    if i = 14 then 0 else if i < 36 then memory.word source i else memory.word target i

/-- `Shrimpy->vas`. -/
def vas : Fin 7 → Nat
  | 0 => fry
  | 1 => shrimp
  | 2 => heap
  | 3 => stack
  | 4 => guardPage
  | 5 => data
  | 6 => text

/-- The permissions that `map_frames` asks for. -/
def framePerm (i : Fin 7) : Nat :=
  if i < 2 then pteR ||| pteW ||| pteX ||| pteU ||| pteV else pteR ||| pteW ||| pteX ||| pteU

/-- The message of `map_frames` when there is no page for a frame. -/
def allocateMessage : Fin 7 → String
  | 0 => "map_frames: failed to allocate fry page"
  | 1 => "map_frames: failed to allocate shrimp page"
  | 2 => "Failed to allocate memory for heap_page frame...\n"
  | _ => "map_frames: failed to allocate context page"

/-- The message of `map_frames` when a frame cannot be mapped. -/
def mapMessage : Fin 7 → String
  | 0 => "map_frames: failed to map fry page"
  | 1 => "map_frames: failed to map shrimp page"
  | 2 => "map_frames: failed to map heap page(uint64)HEAP"
  | _ => "map_frames: failed to map context page"

/-- The statements of `map_frames`, in order. -/
def mapFrames : List FrameOp :=
  (List.finRange 7).map (fun i => .unmap (vas i)) ++
    (List.finRange 7).flatMap (fun i => [.test i, .map i]) ++ [.memmove]

/-- `unmap`, on the page table of `Shrimpy->NP`. -/
def unmap (pagetable va : Nat) : M Unit := do
  match ← walk pagetable va true with
  | none => return
  | some table => do
    let pte ← load table (px 0 va)
    if isValid pte then
      if isLeaf pte then return else uvmunmap pagetable va 1 false
    else return

/-- One statement of `map_frames`, and the statements left after it. -/
def frameStep (op : FrameOp) (rest : List FrameOp) : K (List FrameOp) := do
  let kernel ← get
  match op with
  | .unmap va => do
    let pagetable ← deref (kernel.np.bind fun p => (kernel.proc p).pagetable)
    onMemory (unmap pagetable va)
    return rest
  | .test i => return (if kernel.frames i = none then .allocate i :: rest else rest)
  | .allocate i => do
    let page ← onMemory kalloc
    modify fun kernel =>
      { kernel with
        frames := fun j => if j = i then page else kernel.frames j
        pas := fun j => if j = i then page else kernel.pas j }
    return rest
  | .map i => do
    match kernel.frames i with
    | none => throw (.panic (allocateMessage i))
    | some page => do
      let pagetable ← deref (kernel.p.bind fun p => (kernel.proc p).pagetable)
      let pa ← onMemory (load page 0)
      if ← onMemory (mappages pagetable (vas i) pgsize pa (framePerm i)) then return rest
      else do
        onMemory (kfree (page * pgsize))
        throw (.panic (mapMessage i))
  | .memmove => do
    copyRootEntry kernel.np kernel.p
    return rest

/-- `fork`, up to the return of `allocproc`. -/
def forkStart (p : Slot) : K Unit := do
  match ← allocproc with
  | none => return
  | some np => modifyProc p fun process => { process with call := .copy np }

/-- The next step of the `fork` that process `p` has called. -/
def forkResume (p : Slot) : K Unit := do
  let kernel ← get
  match (kernel.proc p).call with
  | .idle => throw .notEnabled
  | .copy np => do
    let old ← deref (kernel.proc p).pagetable
    let new ← deref (kernel.proc np).pagetable
    if ← onMemory (uvmcopy old new (kernel.proc p).sz) then do
      modifyProc np fun process => { process with sz := (kernel.proc p).sz }
      let source ← deref (kernel.proc p).trapframe
      let target ← deref (kernel.proc np).trapframe
      onMemory (copyTrapframe target source)
      modifyProc p fun process => { process with call := .publish np }
    else do
      freeproc np
      modifyProc p fun process => { process with call := .idle }
  | .publish np => do
    modifyProc np fun process => { process with parent := some p, state := .runnable }
    modifyProc p fun process => { process with call := .point np }
  | .point np => do
    modify fun kernel => { kernel with p := some np }
    modifyProc p fun process => { process with call := .frames np mapFrames }
  | .frames _ [] => throw .notEnabled
  | .frames np (op :: rest) => do
    let left ← frameStep op rest
    modifyProc p fun process =>
      { process with call := if left = [] then .idle else .frames np left }

/-! ## `exec`, `sbrk`, `exit`, `wait` and pipes -/

/-- What `exec` reads of one program header, and whether `loadseg` succeeds. -/
inductive ProgramHeader where
  | unreadable
  | other
  | load (vaddr memsz filesz flags : Nat) (loaded : Bool)

/-- What `exec` finds at its path: whether the file exists with a good header,
its program headers, and whether the arguments fit on the stack. -/
structure Executable where
  header : Bool
  programHeaders : List ProgramHeader
  argsFit : Bool

/-- `flags2perm`. -/
def flags2perm (flags : Nat) : Nat :=
  (if flags % 2 = 1 then pteX else 0) ||| (if flags / 2 % 2 = 1 then pteW else 0)

/-- The loop of `exec` over the program headers: whether it went through, and
the size it reached. -/
def loadSegments (pagetable : Nat) : List ProgramHeader → (sz : Nat) → M (Bool × Nat)
  | [], sz => return (true, sz)
  | .unreadable :: _, sz => return (false, sz)
  | .other :: rest, sz => loadSegments pagetable rest sz
  | .load vaddr memsz filesz flags loaded :: rest, sz => do
    if memsz < filesz then return (false, sz)
    else if (vaddr + memsz) % 2 ^ 64 < vaddr then return (false, sz)
    else if vaddr % pgsize ≠ 0 then return (false, sz)
    else do
      let sz1 ← uvmalloc pagetable sz ((vaddr + memsz) % 2 ^ 64) (flags2perm flags)
      if sz1 = 0 then return (false, sz)
      else if loaded then loadSegments pagetable rest sz1
      else return (false, sz1)

/-- The part of `exec` that builds the new address space: the page table and its
size, if it succeeds. -/
def buildImage (file : Executable) (trapframe : Nat) : M (Option (Nat × Nat)) := do
  if file.header then do
    match ← procPagetable trapframe with
    | none => return none
    | some pagetable => do
      let (ok, sz) ← loadSegments pagetable file.programHeaders 0
      if ok then do
        let sz1 ← uvmalloc pagetable (pgRoundUp sz) (pgRoundUp sz + 2 * pgsize) pteW
        if sz1 = 0 then do
          procFreepagetable pagetable (pgRoundUp sz)
          return none
        else do
          uvmclear pagetable (sz1 - 2 * pgsize)
          if file.argsFit then return some (pagetable, sz1)
          else do
            procFreepagetable pagetable sz1
            return none
      else do
        procFreepagetable pagetable sz
        return none
  else return none

/-- `exec`. -/
def exec (p : Slot) (file : Executable) : K Unit := do
  let process := (← get).proc p
  match ← onMemory (buildImage file (process.trapframe.getD 0)) with
  | none => return
  | some (pagetable, sz) => do
    modifyProc p fun process => { process with pagetable := some pagetable, sz := sz }
    let oldpagetable ← deref process.pagetable
    onMemory (procFreepagetable oldpagetable process.sz)

/-- The loop of `sys_exec` that takes a page for each argument string. -/
def fetchArgs : Nat → M (List Nat × Bool)
  | 0 => return ([], true)
  | count + 1 => do
    match ← kalloc with
    | none => return ([], false)
    | some page => do
      let (pages, ok) ← fetchArgs count
      return (page :: pages, ok)

/-- The loop of `sys_exec` that frees the pages of the argument strings. -/
def freeArgs : List Nat → M Unit
  | [] => return
  | page :: rest => do
    kfree (page * pgsize)
    freeArgs rest

/-- `sys_exec` with `argc` argument strings; `fetched` says whether all of them
could be copied in. There is room for `MAXARG` pointers, the last one null. -/
def sysExec (p : Slot) (argc : Nat) (fetched : Bool) (file : Executable) : K Unit := do
  let (pages, ok) ← onMemory (fetchArgs (min argc 32))
  (if ok ∧ fetched ∧ argc < 32 then exec p file else pure ())
  onMemory (freeArgs pages)

/-- `growproc`. -/
def growproc (p : Slot) (n : Int) : K Unit := do
  let process := (← get).proc p
  let pagetable ← deref process.pagetable
  let newsz := ((process.sz + n) % 2 ^ 64).toNat
  if 0 < n then do
    let sz ← onMemory (uvmalloc pagetable process.sz newsz pteW)
    if sz = 0 then return
    else modifyProc p fun process => { process with sz := sz }
  else if n < 0 then do
    let sz ← onMemory (uvmdealloc pagetable process.sz newsz)
    modifyProc p fun process => { process with sz := sz }
  else return

/-- `reparent`. -/
def reparent (kernel : Kernel) (p : Slot) : Kernel :=
  { kernel with
    proc := fun q =>
      if (kernel.proc q).parent = some p then { kernel.proc q with parent := kernel.initproc }
      else kernel.proc q }

/-- `exit`. -/
def exit (p : Slot) : K Unit := do
  if (← get).initproc = some p then throw (.panic "init exiting")
  else do
    modify fun kernel => reparent kernel p
    modifyProc p fun process => { process with state := .zombie }

/-- The search of `wait` for a child that has exited. -/
def findZombie (kernel : Kernel) (p : Slot) : Option Slot :=
  (List.finRange nproc).find? fun pp =>
    (kernel.proc pp).parent = some p ∧ (kernel.proc pp).state = .zombie

/-- `wait`, when a child has exited; `copied` says whether its status could be
copied out. -/
def wait (p : Slot) (copied : Bool) : K Unit := do
  match findZombie (← get) p with
  | none => throw .notEnabled
  | some pp => if copied then freeproc pp else return

/-- `pipealloc`: the page of the pipe. -/
def pipealloc : K Unit := do
  match ← onMemory kalloc with
  | none => return
  | some page => modify fun kernel => { kernel with pipes := page :: kernel.pipes }

/-- `pipeclose` of the second end. -/
def pipeclose (page : Nat) : K Unit := do
  if page ∈ (← get).pipes then do
    modify fun kernel => { kernel with pipes := kernel.pipes.erase page }
    onMemory (kfree (page * pgsize))
  else throw .notEnabled

/-! ## The system -/

/-- What happens next: `userinit`, or a system call, or a step of a `fork`. -/
inductive Label where
  | userinit (initcode : Nat → Nat)
  | fork (p : Slot)
  | resume (p : Slot)
  | exec (p : Slot) (argc : Nat) (fetched : Bool) (file : Executable)
  | sbrk (p : Slot) (n : Int)
  | exit (p : Slot)
  | wait (p : Slot) (copied : Bool)
  | pipealloc (p : Slot)
  | pipeclose (p : Slot) (page : Nat)

/-- Make a system call on behalf of a process that is not inside one. -/
def syscall (p : Slot) (call : K Unit) : K Unit := do
  let process := (← get).proc p
  if process.alive ∧ process.call = .idle then call else throw .notEnabled

/-- The effect of a label. -/
def act : Label → K Unit
  | .userinit initcode => do
    if (← get).initproc = none then userinit initcode else throw .notEnabled
  | .fork p => syscall p (forkStart p)
  | .resume p => forkResume p
  | .exec p argc fetched file => syscall p (sysExec p argc fetched file)
  | .sbrk p n => syscall p (growproc p n)
  | .exit p => syscall p (exit p)
  | .wait p copied => syscall p (wait p copied)
  | .pipealloc p => syscall p pipealloc
  | .pipeclose p page => syscall p (pipeclose page)

/-- The state after a label, where it does not panic. -/
def step (kernel : Kernel) (label : Label) : Option Kernel :=
  match (act label).run kernel with
  | .ok ((), next) => some next
  | .error _ => none

/-- The state in which `userinit` is called. -/
def Booted (kernel : Kernel) : Prop :=
  (∀ p, kernel.proc p = .blank) ∧ kernel.initproc = none ∧ kernel.np = none ∧ kernel.p = none ∧
    (∀ i, kernel.frames i = none) ∧ kernel.pipes = [] ∧ kernel.memory.freelist.Nodup ∧
    9 ≤ kernel.memory.freelist.length ∧
    ∀ page ∈ kernel.memory.freelist, Image.endAddr ≤ page * pgsize ∧ page * pgsize < phystop

/-- The processes of the kernel and the pages they use, from boot on. -/
def system : TransitionSystem Kernel Label := .ofStep Booted step

end Image
end Xv6.Memory
