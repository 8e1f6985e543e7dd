import Mathlib.Algebra.Order.Ring.Int
import Xv6.Semantics.Execution
import Xv6.Semantics.Returns

/-!
# The kernel's `malloc`

`malloc.c` keeps a list of three headers, cut from the front of a static array
like the node that points to them. Addresses are numbers, and 0 is the null
pointer. A call that follows a null pointer faults, and a call that never leaves
a loop has no result; the fuel of the loops only bounds how long the result of a
call is awaited.
-/

namespace Xv6.Malloc

open Xv6.Semantics

/-- `ALLOC`: the size of the static array. -/
def alloc : Nat := 10096

/-- `sizeof(Header)`. -/
def headerSize : Nat := 16

/-- `sizeof(struct LinkedList)`. -/
def nodeSize : Nat := 24

/-- The address of the static array `memory`, inside the kernel image. -/
class Linked where
  memory : Nat
  kernbase_le : 0x80000000 ≤ memory
  lt_phystop : memory < 0x88000000

/-- `union header`. -/
structure Header where
  ptr : Nat
  size : Nat
  deriving DecidableEq

/-- `struct LinkedList`. -/
structure LinkedList where
  head : Nat
  next : Nat
  tail : Nat
  deriving DecidableEq

/-- The static variables of `malloc.c` and the headers by address. `headers`
lists the addresses at which a header has been made. -/
structure Arena where
  memoryIndex : Nat
  node : Option (Nat × LinkedList)
  freep : Nat
  header : Nat → Header
  headers : List Nat

/-- Static storage is zero at first. -/
def Arena.initial : Arena where
  memoryIndex := 0
  node := none
  freep := 0
  header := fun _ => ⟨0, 0⟩
  headers := []

/-- Why a call has no result. -/
inductive Halt where
  | fault
  | running

/-- Code of `malloc.c`. -/
abbrev M := StateT Arena (Except Halt)

/-- Read the header at an address. -/
def load (p : Nat) : M Header := do
  if p = 0 then throw .fault else return (← get).header p

/-- Change the header at an address. -/
def store (p : Nat) (header : Header) : M Unit :=
  if p = 0 then throw .fault
  else modify fun arena =>
    { arena with header := fun q => if q = p then header else arena.header q }

/-- `p->s.size = size`. -/
def setSize (p size : Nat) : M Unit := do
  let header ← load p
  store p { header with size := size % 2 ^ 32 }

/-- `p->s.ptr = ptr`. -/
def setPtr (p ptr : Nat) : M Unit := do
  let header ← load p
  store p { header with ptr := ptr }

/-- `p->s.size -= nunits`. -/
def takeUnits (p nunits : Nat) : M Unit := do
  let header ← load p
  setSize p (header.size + 2 ^ 64 - nunits)

/-- `freep = p`. -/
def setFreep (p : Nat) : M Unit := modify fun arena => { arena with freep := p }

/-- `node`, which must not be null. -/
def getNode : M LinkedList := do
  match (← get).node with
  | none => throw .fault
  | some (_, node) => return node

/-- The arena with another head of the list. -/
def Arena.setHead (arena : Arena) (head : Nat) : Arena :=
  { arena with node := arena.node.map fun (address, node) => (address, { node with head := head }) }

/-- `node->head = head`. -/
def setHead (head : Nat) : M Unit := modify fun arena => arena.setHead head

section Linked

variable [Linked]

/-- `allocation`. -/
def allocation (size : Nat) : M Nat := do
  let arena ← get
  if alloc < (arena.memoryIndex + size) % 2 ^ 64 then return 0
  else do
    set { arena with memoryIndex := (arena.memoryIndex + size) % 2 ^ 32 }
    return Linked.memory + arena.memoryIndex

/-- A header made in freshly allocated memory. -/
def makeHeader (size : Nat) : M Nat := do
  let p ← allocation headerSize
  setSize p size
  modify fun arena => { arena with headers := p :: arena.headers }
  return p

/-- The first part of `malloc`: the node and its three headers. -/
def prepare : M Unit := do
  if (← get).node = none then do
    let address ← allocation nodeSize
    let head ← makeHeader 512
    let next ← makeHeader 1028
    let tail ← makeHeader 2048
    setPtr head next
    setPtr next tail
    setPtr tail 0
    modify fun arena => { arena with node := some (address, ⟨head, next, tail⟩) }
  else return

/-- The loop of `free`, which looks for the place of a block. -/
def findPlace : (fuel bp p : Nat) → M Nat
  | 0, _, _ => throw .running
  | fuel + 1, bp, p => do
    let header ← load p
    if p < bp ∧ bp < header.ptr then return p
    else if header.ptr ≤ p ∧ (p < bp ∨ bp < header.ptr) then return p
    else findPlace fuel bp header.ptr

/-- `free` of the block behind the header `bp`. -/
def free (fuel bp : Nat) : M Unit := do
  let p ← findPlace fuel bp (← get).freep
  let block ← load bp
  let place ← load p
  (if (bp + block.size * headerSize) % 2 ^ 64 = place.ptr then do
    let following ← load place.ptr
    setSize bp (block.size + following.size)
    setPtr bp following.ptr
  else setPtr bp place.ptr)
  let block ← load bp
  let place ← load p
  (if (p + place.size * headerSize) % 2 ^ 64 = bp then do
    setSize p (place.size + block.size)
    setPtr p block.ptr
  else setPtr p bp)
  setFreep p

/-- `morecore`. -/
def morecore (fuel nu : Nat) : M Nat := do
  let nu := max nu 4096
  let hp ← allocation (nu * headerSize % 2 ^ 64)
  setSize hp nu
  modify fun arena => { arena with headers := hp :: arena.headers }
  free fuel hp
  return (← get).freep

/-- The loop of `malloc`; no result when it runs to its end. -/
def search : (fuel nunits : Nat) → M (Option Nat)
  | 0, _ => throw .running
  | fuel + 1, nunits => do
    let node ← getNode
    let head ← load node.head
    if head.ptr = 0 then return none
    else do
      let next ← load node.next
      (if next.size < head.size ∧ nunits ≤ head.size then do
        takeUnits node.head nunits
        setFreep node.head
      else pure ())
      let head ← load node.head
      let next ← load node.next
      if head.size < next.size ∧ nunits ≤ next.size then do
        takeUnits node.next nunits
        setFreep node.next
        return some (node.next + headerSize)
      else if head.size = nunits ∧ next.size = nunits then do
        takeUnits node.head nunits
        takeUnits node.next nunits
        setFreep node.head
        return some (node.head + headerSize)
      else do
        setHead head.ptr
        search fuel nunits

/-- The number of header-sized units that `malloc` looks for. -/
def units (nbytes : Nat) : Nat := (nbytes + headerSize - 1) % 2 ^ 64 / headerSize + 1

/-- `malloc`. -/
def malloc (fuel nbytes : Nat) : M Nat := do
  prepare
  match ← search fuel (units nbytes) with
  | some block => return block
  | none => do
    let node ← getNode
    setFreep node.tail
    let more ← morecore fuel (units nbytes)
    setPtr node.tail more
    return node.tail + headerSize

/-! ## Sequences of requests -/

/-- A block handed out: how many bytes were asked for, and its address. -/
structure Block where
  nbytes : Nat
  address : Nat
  deriving DecidableEq

/-- The arena and the blocks handed out so far, the latest first. -/
structure Heap where
  arena : Arena
  blocks : List Block

/-- A request that returns. -/
def Request (heap : Heap) (nbytes : Nat) (next : Heap) : Prop :=
  nbytes < 2 ^ 64 ∧ ∃ fuel address arena,
    (malloc fuel nbytes).run heap.arena = .ok (address, arena) ∧
      next = ⟨arena, if address = 0 then heap.blocks else ⟨nbytes, address⟩ :: heap.blocks⟩

/-- All sequences of requests from the initial static arena. -/
def system : TransitionSystem Heap Nat where
  Initial heap := heap = ⟨.initial, []⟩
  Step := Request

end Linked
end Xv6.Malloc
