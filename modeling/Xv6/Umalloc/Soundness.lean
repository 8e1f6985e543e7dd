import Mathlib.Algebra.BigOperators.Ring.List
import Xv6.Umalloc.Allocation

/-!
# Programs that use the allocator

`Allocates` says what the allocator promises in a state. It holds after every
sequence of calls in which no `malloc` asks `sbrk` for 2^31 bytes or more and the
memory obtained stays below 2^32 units. A larger request is cut down to an `int`
on its way to `sbrk`, while the header of the new block has the full size.
-/

namespace Xv6.Umalloc

open Xv6.Semantics
open Xv6.Semantics.Extent (Separated total indicator)

/-- The free list of the static `base` and the headers at `headers`. -/
structure FreeList (base : Nat) (state : State) (headers : List Nat) : Prop where
  circular : Links state.ptr (base :: headers) base
  entered : state.freep ∈ base :: headers
  ordered : (base :: headers).Pairwise (· < ·)
  wrap : ∃! p, p ∈ base :: headers ∧ state.ptr p ≤ p
  notAdjacent : ∀ p ∈ headers, p + headerSize * state.size p ≠ state.ptr p
  apart : ∀ block ∈ state.live, ∀ p ∈ base :: headers,
    p + headerSize ≤ block.header ∨ block.extent.stop ≤ p
  units : headerSize * ((headers.map state.size).sum + (state.live.map Live.units).sum) =
    state.bytes

/-- What holds of the live blocks and the free list. -/
structure Allocates (base : Nat) (state : State) : Prop where
  large : ∀ block ∈ state.live, block.result + block.nbytes ≤ block.extent.stop
  inside : ∀ block ∈ state.live, ∀ address, block.header ≤ address → address < block.extent.stop →
    ∃ region ∈ state.obtained, region.start ≤ address ∧ address < region.stop
  disjoint : state.live.Pairwise fun first second =>
    first.extent.stop ≤ second.header ∨ second.extent.stop ≤ first.header
  list : (state.freep = 0 ∧ state.obtained = [] ∧ state.live = []) ∨
    ∃ headers, FreeList base state headers

/-- The result of a call: `malloc` returns null or one more live block for what was
asked, and `free` takes one back. -/
def Answers (state next : State) : Call → Prop
  | .malloc nbytes _ => next.live = state.live ∨
      ∃ block, next.live = block :: state.live ∧ block.nbytes = nbytes.toNat
  | .free ap => ∃ block ∈ state.live, block.result = ap ∧ next.live = state.live.erase block
  | .write _ _ => next.live = state.live

namespace Heap

variable {base : Nat} {state : State} {nodes out : List Extent} {extent node : Extent}

section

variable (heap : Heap base state nodes out)
include heap

theorem exists_unique_wrap : ∃! p, p ∈ nodes.map Extent.start ∧ state.ptr p ≤ p := by
  obtain ⟨front, last, rfl⟩ : ∃ front last, nodes = front ++ [last] := by
    obtain ⟨blocks, split⟩ := heap.exists_blocks
    rcases List.eq_nil_or_concat nodes with impossible | ⟨front, last, equal⟩
    · rw [impossible] at split
      cases split
    · exact ⟨front, last, by simpa using equal⟩
  refine ⟨last.start, ⟨by simp, ?_⟩, ?_⟩
  · rw [heap.ptr_eq]
    exact heap.base_le (by simp)
  rintro p ⟨mem, down⟩
  obtain ⟨node, nodeMember, rfl⟩ := List.mem_map.mp mem
  rcases List.mem_append.mp nodeMember with inFront | isLast
  · -- a block before the last one points to a block above it
    obtain ⟨before, between, rfl⟩ := List.append_of_mem inFront
    have split : before ++ node :: between ++ [last] = before ++ node :: (between ++ [last]) := by
      simp
    rw [split] at heap
    have ptr := heap.ptr_eq
    have higher : ∀ other ∈ between ++ [last], node.start < other.start :=
      fun other otherMember => heap.separated.start_lt otherMember
    cases between with
    | nil =>
      have := higher last (by simp)
      simp only [List.nil_append, List.map_cons, List.headD_cons] at ptr
      omega
    | cons next rest =>
      have := higher next (by simp)
      simp only [List.cons_append, List.map_cons, List.headD_cons] at ptr
      omega
  · rw [List.mem_singleton.mp isLast]

theorem not_adjacent (mem : node ∈ nodes) (notBase : node.start ≠ base) :
    node.start + headerSize * state.size node.start ≠ state.ptr node.start := by
  obtain ⟨front, back, rfl⟩ := List.append_of_mem mem
  rw [heap.sizes node (by simp), heap.ptr_eq, Extent.start_add_length]
  cases back with
  | nil =>
    have := heap.base_le mem
    simp only [List.map_nil, List.headD_nil, Extent.stop]
    omega
  | cons next rest =>
    have order := (List.pairwise_cons.mp (List.pairwise_append.mp heap.separated).2.1).1 next
      List.mem_cons_self
    exact order.ne

/-- A block that is out has no byte in common with a header of the list. -/
theorem header_apart (outMember : extent ∈ out) (mem : node ∈ nodes) :
    node.start + headerSize ≤ extent.start ∨ extent.stop ≤ node.start := by
  have positive := heap.outPositive extent outMember
  by_cases isBase : node.start = base
  · left
    rw [isBase]
    exact heap.base_lt (List.mem_append_right _ outMember) positive
  have nodePositive := heap.nodesPositive node mem isBase
  have size := heap.sizes node (List.mem_append_left _ mem)
  have header : headerSize ≤ node.length := by
    simp only [headerSize] at size ⊢
    omega
  rcases Extent.apart_of_single (heap.apart mem outMember) nodePositive positive with
    below | above
  · left
    rw [← Extent.start_add_length] at below
    omega
  · exact .inr above

end

theorem freeList (heap : Heap base state nodes (state.live.map Live.extent)) :
    ∃ headers, FreeList base state headers := by
  obtain ⟨blocks, rfl⟩ := heap.exists_blocks
  have separated : Separated ([] ++ ⟨base, 0⟩ :: blocks) := heap.separated
  refine ⟨blocks.map Extent.start, ?_⟩
  constructor
  case circular => exact heap.links
  case entered => exact heap.rover
  case ordered =>
    change ((⟨base, 0⟩ :: blocks : List Extent).map Extent.start).Pairwise (· < ·)
    rw [List.pairwise_map]
    apply heap.separated.imp
    intro first second order
    exact (Nat.le_add_right _ _).trans_lt order
  case wrap => exact heap.exists_unique_wrap
  case notAdjacent =>
    intro p mem
    obtain ⟨node, nodeMember, rfl⟩ := List.mem_map.mp mem
    exact heap.not_adjacent (List.mem_cons_of_mem _ nodeMember) (separated.start_lt nodeMember).ne'
  case apart =>
    intro block blockMember p mem
    obtain ⟨node, nodeMember, rfl⟩ := List.mem_map.mp
      (show p ∈ (⟨base, 0⟩ :: blocks).map Extent.start from mem)
    exact heap.header_apart (List.mem_map_of_mem blockMember) nodeMember
  case units =>
    have free : total Extent.length blocks =
        headerSize * ((blocks.map Extent.start).map state.size).sum := by
      rw [total, ← List.sum_map_mul_left, List.map_map]
      refine congrArg List.sum (List.map_congr_left fun node mem => ?_)
      exact (heap.sizes node (by simp [mem])).symm
    have live : total Extent.length (state.live.map Live.extent) =
        headerSize * (state.live.map Live.units).sum := by
      rw [total, ← List.sum_map_mul_left, List.map_map]
      rfl
    have account := heap.account
    rw [Extent.total_append, Extent.total_cons, Nat.zero_add, free, live] at account
    rw [Nat.mul_add, account]

end Heap

section Base

variable {base : Nat} {state next : State}

theorem Sound.allocates (sound : Sound base state) : Allocates base state := by
  rcases sound.list with ⟨freep, obtained, live⟩ | ⟨nodes, heap⟩
  · refine ⟨?_, ?_, ?_, .inl ⟨freep, obtained, live⟩⟩ <;> simp [live]
  refine ⟨?_, ?_, ?_, .inr heap.freeList⟩
  · intro block mem
    have large := sound.large block mem
    simp only [Live.result, Live.extent, Extent.stop]
    omega
  · intro block mem address behind before
    exact heap.covered (List.mem_append_right _ (List.mem_map_of_mem mem)) ⟨behind, before⟩
  refine List.pairwise_map.mp (Extent.pairwise_apart ?_ heap.outPositive)
  intro address
  have single := heap.single address
  rw [← heap.tiled, Extent.total_append] at single
  omega

theorem Sound.step (static : 0 < base) (sound : Sound base state)
    (admissible : Admissible base state call) (modest : Modest base state call) :
    ∃ next, step base state call = some next ∧ Sound base next ∧ Answers state next call := by
  rw [Xv6.Umalloc.step, if_pos admissible]
  cases call with
  | malloc nbytes answer => exact sound.malloc static admissible modest
  | free ap =>
    obtain ⟨block, found⟩ := Option.isSome_iff_exists.mp admissible
    obtain ⟨mem, result⟩ := mem_of_blockOf found
    obtain ⟨next, freed, freeSound, live⟩ := sound.free found
    refine ⟨next, ?_, freeSound, block, mem, result, live⟩
    rw [perform, found]
    exact freed
  | write ap content =>
    obtain ⟨block, found⟩ := Option.isSome_iff_exists.mp admissible
    refine ⟨Xv6.Umalloc.scribble state block content, ?_, sound.scribble found content, rfl⟩
    rw [perform, found]
    rfl

/-- In every run whose calls meet the condition the allocator keeps its promises
in every state, and every further call that meets it returns. -/
theorem allocates_of_modest (static : 0 < base) {start : State} {calls : List Call}
    (run : ((system base).restrict (Modest base)).Runs start calls state) :
    Allocates base state ∧ ∀ call, Admissible base state call → Modest base state call →
      ∃ next, step base state call = some next ∧ Answers state next call := by
  have sound : Sound base state := by
    apply run.invariant
    · rintro state ⟨freep, obtained, live⟩
      exact ⟨.inl ⟨freep, obtained, live⟩, by simp [live]⟩
    rintro state call next sound ⟨stepped, modest⟩
    have admissible : Admissible base state call := by
      by_contra refused
      exact Option.some_ne_none _ (stepped.symm.trans (if_neg refused))
    obtain ⟨other, performed, otherSound, -⟩ := sound.step static admissible modest
    obtain rfl : other = next := Option.some.inj (performed.symm.trans stepped)
    exact otherSound
  refine ⟨sound.allocates, fun call admissible modest => ?_⟩
  obtain ⟨next, performed, -, answers⟩ := sound.step static admissible modest
  exact ⟨next, performed, answers⟩

end Base

/-- A program before its first call, with zeroed memory. -/
def someProgram : State := ⟨fun _ => ⟨0, 0⟩, 0, [], []⟩

/-- Two blocks, the first of which is freed. -/
theorem allocates_of_modest_twoBlocks : ∃ state,
    ((system 0x1000).restrict (Modest 0x1000)).Runs someProgram
      [.malloc 10 (some 0x5000), .malloc 100 none, .free 0x14ff0] state ∧
    state.live = [⟨0x14f60, 8, 100⟩] ∧ Allocates 0x1000 state := by
  obtain ⟨state, run, live⟩ : ∃ state, ((system 0x1000).restrict (Modest 0x1000)).Runs someProgram
      [.malloc 10 (some 0x5000), .malloc 100 none, .free 0x14ff0] state ∧
      state.live = [⟨0x14f60, 8, 100⟩] :=
    TransitionSystem.exists_runs_restrict ⟨rfl, rfl, rfl⟩ (by decide +kernel)
  exact ⟨state, run, live, (allocates_of_modest (by decide) run).1⟩

/-- A request for all but one byte of 2^32 gets 16 bytes from `sbrk`. -/
theorem largeRequest_outside : ∃ state,
    (system 0x1000).Runs someProgram [.malloc 0xffffffff (some 0x5000)] state ∧
      ¬ Allocates 0x1000 state := by
  obtain ⟨state, run, live, obtained⟩ : ∃ state, (system 0x1000).Runs someProgram
      [.malloc 0xffffffff (some 0x5000)] state ∧
      state.live = [⟨0x5000, 0x10000001, 0xffffffff⟩] ∧ state.obtained = [⟨0x5000, 16⟩] :=
    TransitionSystem.exists_runs ⟨rfl, rfl, rfl⟩ (by decide +kernel)
  refine ⟨state, run, fun allocates => ?_⟩
  have inside := allocates.inside ⟨0x5000, 0x10000001, 0xffffffff⟩ (by simp [live]) 0x5010
    (by decide) (by decide)
  simp [obtained, Extent.stop] at inside

end Xv6.Umalloc
