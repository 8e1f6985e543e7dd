import Xv6.Semantics.Execution
import Xv6.Semantics.Extent
import Xv6.Semantics.Links

/-!
# The user-space allocator

`umalloc.c` keeps the free blocks in a circular list of headers, entered at
`freep`. Addresses are numbers, and 0 is the null pointer. The memory is what the
headers hold, by the address of the header; `obtained` and `live` are history: the
extents that `sbrk` has handed out, and the blocks that `malloc` has returned and
`free` has not taken back.

The loops run with fuel for two rounds of a list of as many headers as bytes have
been obtained. A call without a result would be a loop that goes on, or a second
call of `morecore` by one `malloc`.
-/

namespace Xv6.Umalloc

open Xv6.Semantics

/-- `sizeof(Header)`. -/
def headerSize : Nat := 16

/-- `union header`. -/
structure Header where
  ptr : Nat
  size : Nat

/-- A block that `malloc` has returned: its header, its units and what was asked for. -/
structure Live where
  header : Nat
  units : Nat
  nbytes : Nat
  deriving DecidableEq

/-- What the caller of `malloc` gets. -/
def Live.result (block : Live) : Nat := block.header + headerSize

/-- The memory of a live block, its header included. -/
def Live.extent (block : Live) : Extent := ⟨block.header, headerSize * block.units⟩

/-- The headers in memory, the static `freep`, and the history. -/
structure State where
  header : Nat → Header
  freep : Nat
  obtained : List Extent
  live : List Live

namespace State

/-- `p->s.ptr`. -/
def ptr (state : State) (p : Nat) : Nat := (state.header p).ptr

/-- `p->s.size`. -/
def size (state : State) (p : Nat) : Nat := (state.header p).size

/-- `p->s.ptr = target`. -/
def setPtr (state : State) (p target : Nat) : State :=
  { state with header := Function.update state.header p { state.header p with ptr := target } }

/-- `p->s.size = size`, a `uint`. -/
def setSize (state : State) (p size : Nat) : State :=
  { state with
    header := Function.update state.header p { state.header p with size := size % 2 ^ 32 } }

/-- The bytes that `sbrk` has handed out. -/
def bytes (state : State) : Nat := Extent.total Extent.length state.obtained

/-- Two rounds of the longest possible list. -/
def fuel (state : State) : Nat := 2 * (state.bytes + 1)

end State

/-- The loop of `free` ends at the header `p`. -/
def stops (state : State) (bp p : Nat) : Bool :=
  (p < bp && bp < state.ptr p) || (state.ptr p ≤ p && (p < bp || bp < state.ptr p))

/-- The loop of `free`. -/
def findPlace (state : State) (bp : Nat) : Option Nat :=
  follow state.ptr (stops state bp) state.fuel state.freep

/-- The first half of `free` behind its loop: join to the upper neighbour. -/
def joinUpper (state : State) (bp p : Nat) : State :=
  if bp + headerSize * state.size bp = state.ptr p then
    let grown := state.setSize bp (state.size bp + state.size (state.ptr p))
    grown.setPtr bp (grown.ptr (grown.ptr p))
  else state.setPtr bp (state.ptr p)

/-- The second half: join to the lower neighbour. -/
def joinLower (state : State) (bp p : Nat) : State :=
  if p + headerSize * state.size p = bp then
    let grown := state.setSize p (state.size p + state.size bp)
    grown.setPtr p (grown.ptr bp)
  else state.setPtr p bp

/-- `free` of the block with the header `bp`. -/
def free (state : State) (bp : Nat) : Option State := do
  let p ← findPlace state bp
  return { joinLower (joinUpper state bp p) bp p with freep := p }

/-- The units that `morecore` asks for. -/
def coreUnits (nunits : Nat) : Nat := if nunits < 4096 then 4096 else nunits

/-- The argument of `sbrk`, an `int`. -/
def sbrkArgument (nu : Nat) : Int := (BitVec.ofNat 32 (headerSize * nu)).toInt

theorem sbrkArgument_of_lt (small : headerSize * nu < 2 ^ 31) :
    sbrkArgument nu = (headerSize * nu : Nat) := by
  have same : (BitVec.ofNat 32 (headerSize * nu)).toNat = headerSize * nu := by
    exact Nat.mod_eq_of_lt (by omega)
  rw [sbrkArgument, BitVec.toInt_eq_toNat_of_lt (by rw [same]; omega), same]

/-- `morecore` when `sbrk` answers with an address. -/
def morecore (state : State) (nunits address : Nat) : Option State :=
  let nu := coreUnits nunits
  let extended :=
    { state with obtained := ⟨address, (sbrkArgument nu).toNat⟩ :: state.obtained }
  free (extended.setSize address nu) address

/-- `nunits`: the units of a block for `nbytes` and its header. -/
def unitsFor (nbytes : UInt32) : Nat := (nbytes.toNat + headerSize - 1) / headerSize + 1

/-- The header behind `prevp` is large enough. -/
def fits (state : State) (nunits prevp : Nat) : Bool := nunits ≤ state.size (state.ptr prevp)

/-- The loop of `malloc` up to the first `p = prevp->s.ptr` that is large enough
or back at `freep`. -/
def search (state : State) (nunits : Nat) : Option Nat :=
  follow state.ptr (fun prevp => fits state nunits prevp || state.ptr prevp = state.freep)
    state.fuel state.freep

/-- `malloc` takes the block behind `prevp`, or its tail. -/
def take (state : State) (nunits nbytes prevp : Nat) : State :=
  let p := state.ptr prevp
  if state.size p = nunits then
    { state.setPtr prevp (state.ptr p) with
      freep := prevp
      live := ⟨p, nunits, nbytes⟩ :: state.live }
  else
    let shrunk := state.setSize p (state.size p - nunits)
    let tail := p + headerSize * shrunk.size p
    { shrunk.setSize tail nunits with
      freep := prevp
      live := ⟨tail, nunits, nbytes⟩ :: state.live }

section Base

variable (base : Nat)

/-- The first part of `malloc`: the list of the static `base` alone. -/
def prepare (state : State) : State :=
  if state.freep = 0 then
    { (state.setPtr base base).setSize base 0 with freep := base }
  else state

/-- `malloc`, given what `sbrk` answers if it is called. -/
def malloc (state : State) (nbytes : UInt32) (answer : Option Nat) : Option State := do
  let nunits := unitsFor nbytes
  let state := prepare base state
  let prevp ← search state nunits
  if fits state nunits prevp then return take state nunits nbytes.toNat prevp
  else
    match answer with
    | none => return state
    | some address => do
      let state ← morecore state nunits address
      let prevp ← search state nunits
      if fits state nunits prevp then return take state nunits nbytes.toNat prevp
      else none

/-- What a program does: it calls `malloc`, with the answer of `sbrk` in case it is
called (the failure -1 or an address), it calls `free`, or it writes into the block
it got, which leaves anything at the addresses behind the block's header. -/
inductive Call where
  | malloc (nbytes : UInt32) (answer : Option Nat)
  | free (ap : Nat)
  | write (ap : Nat) (content : Nat → Header)

/-- The live block with a result. -/
def State.blockOf (state : State) (ap : Nat) : Option Live :=
  state.live.find? fun block => block.result = ap

/-- Only live results are freed or written to, and `sbrk` answers with fresh memory
above all that it has handed out and above the static data of the program. -/
def Admissible (state : State) : Call → Prop
  | .malloc _ answer => ∀ address ∈ answer,
      base + headerSize ≤ address ∧ ∀ extent ∈ state.obtained, extent.stop ≤ address
  | .free ap => (state.blockOf ap).isSome
  | .write ap _ => (state.blockOf ap).isSome

instance (state : State) : (call : Call) → Decidable (Admissible base state call)
  | .malloc _ answer => inferInstanceAs (Decidable (∀ address ∈ answer,
      base + headerSize ≤ address ∧ ∀ extent ∈ state.obtained, extent.stop ≤ address))
  | .free ap => inferInstanceAs (Decidable ((state.blockOf ap).isSome = true))
  | .write ap _ => inferInstanceAs (Decidable ((state.blockOf ap).isSome = true))

/-- What the memory holds after a program has written into a block. -/
def scribble (state : State) (block : Live) (content : Nat → Header) : State :=
  { state with
    header := fun address =>
      if block.header < address ∧ address < block.extent.stop then content address
      else state.header address }

/-- What a call does. -/
def perform (state : State) : Call → Option State
  | .malloc nbytes answer => malloc base state nbytes answer
  | .free ap => do
    let block ← state.blockOf ap
    free { state with live := state.live.erase block } (ap - headerSize)
  | .write ap content => do
    let block ← state.blockOf ap
    return scribble state block content

/-- One admissible call. -/
def step (state : State) (call : Call) : Option State :=
  if Admissible base state call then perform base state call else none

/-- Programs that use the allocator, from the start of `main`. -/
def system : TransitionSystem State Call :=
  TransitionSystem.ofStep
    (fun state => state.freep = 0 ∧ state.obtained = [] ∧ state.live = []) (step base)

end Base

end Xv6.Umalloc
