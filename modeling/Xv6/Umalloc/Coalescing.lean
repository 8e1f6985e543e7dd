import Xv6.Umalloc.Heap

/-!
# `free` and `morecore`

`free` puts a block in its place in the list and joins it with the free blocks it
touches. `morecore` is a `free` of what `sbrk` has handed out.
-/

namespace Xv6.Umalloc

open Xv6.Semantics
open Xv6.Semantics.Extent (Separated total indicator)

/-- All headers but one are as before. -/
def SameBut (before after : State) (address : Nat) : Prop :=
  ∀ other, other ≠ address → after.ptr other = before.ptr other ∧
    after.size other = before.size other

theorem joinUpper_history (state : State) (bp p : Nat) :
    (joinUpper state bp p).obtained = state.obtained ∧ (joinUpper state bp p).live = state.live := by
  rw [joinUpper]
  split <;> exact ⟨rfl, rfl⟩

theorem joinLower_history (state : State) (bp p : Nat) :
    (joinLower state bp p).obtained = state.obtained ∧ (joinLower state bp p).live = state.live := by
  rw [joinLower]
  split <;> exact ⟨rfl, rfl⟩

theorem SameBut.setPtr (state : State) (address target : Nat) :
    SameBut state (state.setPtr address target) address := by
  intro other ne
  rw [ptr_setPtr, if_neg ne, size_setPtr]
  exact ⟨rfl, rfl⟩

theorem SameBut.merge (state : State) (address size target : Nat) :
    SameBut state ((state.setSize address size).setPtr address target) address := by
  intro other ne
  rw [ptr_setPtr, if_neg ne, ptr_setSize, size_setPtr, size_setSize, if_neg ne]
  exact ⟨rfl, rfl⟩

namespace Heap

variable {base : Nat} {state : State} {nodes out front back : List Extent}
  {extent before : Extent}

/-- A sum of sizes that is part of the memory obtained fits in a `uint`. -/
theorem mod_size (heap : Heap base state nodes out)
    (bytes : headerSize * size = length) (part : length ≤ total Extent.length (nodes ++ out)) :
    size % 2 ^ 32 = size := by
  have bounded := heap.bounded
  rw [← heap.account] at bounded
  simp only [headerSize] at bytes
  exact Nat.mod_eq_of_lt (by omega)

/-- The first half of `free` joins the block with the free block above it. -/
theorem joinUpper (heap : Heap base state (front ++ before :: back) (extent :: out)) :
    let upper := joinUpper state extent.start before.start
    upper.ptr extent.start = ((extent.absorb back).2.map Extent.start).headD base ∧
      headerSize * upper.size extent.start = (extent.absorb back).1.length ∧
      SameBut state upper extent.start := by
  have mem : extent ∈ extent :: out := List.mem_cons_self
  have length := heap.sizes extent (List.mem_append_right _ mem)
  have ptr := heap.ptr_eq
  have base_lt := heap.base_lt (List.mem_append_right _ mem) (heap.outPositive _ mem)
  simp only [Xv6.Umalloc.joinUpper, length, Extent.start_add_length]
  cases back with
  | nil =>
    rw [List.map_nil, List.headD_nil] at ptr
    have separate : extent.stop ≠ state.ptr before.start := by
      simp only [ptr, Extent.stop, headerSize] at base_lt ⊢
      omega
    rw [if_neg separate]
    refine ⟨?_, ?_, .setPtr state _ _⟩
    · rw [ptr_setPtr, if_pos rfl, ptr]
      rfl
    · rw [size_setPtr, length]
      rfl
  | cons next rest =>
    have nextMember : next ∈ front ++ before :: next :: rest := by simp
    have nextLength := heap.sizes next (List.mem_append_left _ nextMember)
    have nextPtr : state.ptr next.start = (rest.map Extent.start).headD base := by
      rw [List.append_cons] at heap
      exact heap.ptr_eq
    rw [List.map_cons, List.headD_cons] at ptr
    rw [ptr, ptr_setSize, ptr_setSize, ptr, nextPtr, Extent.absorb]
    split
    case isTrue touches =>
      have sum : headerSize * (state.size extent.start + state.size next.start) =
          next.length + extent.length := by
        rw [Nat.mul_add, length, nextLength, Nat.add_comm]
      refine ⟨?_, ?_, .merge state _ _ _⟩
      · rw [ptr_setPtr, if_pos rfl]
      · rw [size_setPtr, size_setSize, if_pos rfl,
          heap.mod_size sum (Extent.add_le_total nextMember mem), sum, Nat.add_comm]
    case isFalse =>
      refine ⟨?_, ?_, .setPtr state _ _⟩
      · rw [ptr_setPtr, if_pos rfl]
        rfl
      · rw [size_setPtr, length]

end Heap

/-- The second half of `free` joins the block with the free block below it. -/
theorem joinLower_eq {before : Extent}
    (beforeLength : headerSize * state.size before.start = before.length)
    (bpLength : headerSize * state.size bp = length)
    (bounded : before.length + length < 2 ^ 36) :
    let lower := joinLower state bp before.start
    SameBut state lower before.start ∧
      if before.stop = bp then
        lower.ptr before.start = state.ptr bp ∧
          headerSize * lower.size before.start = before.length + length
      else lower.ptr before.start = bp ∧
        headerSize * lower.size before.start = before.length := by
  have sum : headerSize * (state.size before.start + state.size bp) =
      before.length + length := by
    rw [Nat.mul_add, beforeLength, bpLength]
  have small : state.size before.start + state.size bp < 2 ^ 32 := by
    simp only [headerSize] at sum
    omega
  simp only [joinLower, beforeLength, Extent.start_add_length]
  split
  · refine ⟨.merge state _ _ _, ?_, ?_⟩
    · rw [ptr_setPtr, if_pos rfl, ptr_setSize]
    · rw [size_setPtr, size_setSize, if_pos rfl, Nat.mod_eq_of_lt small, sum]
  · refine ⟨.setPtr state _ _, ?_, ?_⟩
    · rw [ptr_setPtr, if_pos rfl]
    · rw [size_setPtr, beforeLength]

namespace Heap

variable {base : Nat} {state : State} {nodes out front back : List Extent}
  {extent before node : Extent}

section

variable (heap : Heap base state (front ++ before :: back) (extent :: out))
include heap

theorem links_place {changed : State} (same : ∀ other, other ≠ before.start → other ≠ extent.start →
      changed.ptr other = state.ptr other) (attached : if before.stop = extent.start then
      changed.ptr before.start = ((extent.absorb back).2.map Extent.start).headD base
      else changed.ptr before.start = extent.start ∧
        changed.ptr extent.start = ((extent.absorb back).2.map Extent.start).headD base) :
    Links changed.ptr ((Extent.place front before extent back).map Extent.start) base := by
  obtain ⟨taken, split⟩ := extent.absorb_suffix back
  have mem : extent ∈ extent :: out := List.mem_cons_self
  have links := heap.links
  rw [List.map_append, List.map_cons, links_append] at links
  have frontLinks : Links changed.ptr (front.map Extent.start) before.start := by
    apply links.1.congr
    intro address addressMember
    obtain ⟨node, nodeMember, rfl⟩ := List.mem_map.mp addressMember
    apply same
    · exact (heap.separated.lt_start nodeMember).ne
    · exact heap.start_ne (by simp [nodeMember]) mem
  have backLinks : Links changed.ptr ((extent.absorb back).2.map Extent.start) base := by
    have whole := links.2.2
    rw [← split, List.map_append, links_append] at whole
    apply whole.2.congr
    intro address addressMember
    obtain ⟨node, nodeMember, rfl⟩ := List.mem_map.mp addressMember
    have inBack : node ∈ back := split ▸ List.mem_append_right taken nodeMember
    apply same
    · exact (heap.separated.start_lt inBack).ne'
    · exact heap.start_ne (by simp [inBack]) mem
  rw [Extent.place, List.append_assoc, List.map_append, links_append]
  rw [Extent.attach, Extent.absorb_start]
  split at attached
  case isTrue touches =>
    rw [if_pos touches]
    exact ⟨frontLinks, attached, backLinks⟩
  case isFalse separate =>
    rw [if_neg separate]
    refine ⟨frontLinks, attached.1.trans ?_, ?_, backLinks⟩
    · exact (extent.absorb_start back).symm
    · exact extent.absorb_start back ▸ attached.2

theorem sizes_place {changed : State} (same : ∀ other, other ≠ before.start → other ≠ extent.start →
      changed.size other = state.size other) (attached : if before.stop = extent.start then
      headerSize * changed.size before.start = before.length + (extent.absorb back).1.length
      else headerSize * changed.size before.start = before.length ∧
        headerSize * changed.size extent.start = (extent.absorb back).1.length) :
    ∀ node ∈ Extent.place front before extent back ++ out,
      headerSize * changed.size node.start = node.length := by
  have mem : extent ∈ extent :: out := List.mem_cons_self
  have kept : ∀ node ∈ front ++ before :: back ++ out, node.start ≠ before.start →
      node.start ≠ extent.start → headerSize * changed.size node.start = node.length := by
    intro node nodeMember notBefore notExtent
    rw [same _ notBefore notExtent]
    apply heap.sizes
    simp only [List.mem_append, List.mem_cons] at nodeMember ⊢
    tauto
  intro node nodeMember
  rw [Extent.place, List.mem_append, List.mem_append, List.mem_append] at nodeMember
  rcases nodeMember with ((inFront | inAttached) | inBack) | inOut
  · exact kept node (by simp [inFront]) (heap.separated.lt_start inFront).ne
      (heap.start_ne (by simp [inFront]) mem)
  · rw [Extent.attach, Extent.absorb_start] at inAttached
    split at attached
    case isTrue touches =>
      rw [if_pos touches, List.mem_singleton] at inAttached
      exact inAttached ▸ attached
    case isFalse separate =>
      rw [if_neg separate] at inAttached
      rcases List.mem_cons.mp inAttached with rfl | inAttached
      · exact attached.1
      · rw [List.mem_singleton.mp inAttached, Extent.absorb_start]
        exact attached.2
  · have inBack := (extent.absorb_suffix back).subset inBack
    exact kept node (by simp [inBack]) (heap.separated.start_lt inBack).ne'
      (heap.start_ne (by simp [inBack]) mem)
  · refine kept node (by simp [inOut]) ?_ (heap.out_start_ne inOut)
    exact (heap.start_ne (by simp) (List.mem_cons_of_mem _ inOut)).symm

end

theorem exists_placed (front : List Extent) (before extent : Extent) (back : List Extent) :
    ∃ node ∈ Extent.place front before extent back, extent.length ≤ node.length ∧
      node.start = if before.stop = extent.start then before.start else extent.start := by
  have longer := extent.le_absorb_length back
  rw [Extent.place, Extent.attach, Extent.absorb_start]
  split
  case isTrue touches =>
    refine ⟨⟨before.start, before.length + (extent.absorb back).1.length⟩, by simp, ?_, rfl⟩
    exact longer.trans (Nat.le_add_left _ _)
  case isFalse =>
    exact ⟨(extent.absorb back).1, by simp, longer, extent.absorb_start back⟩

section

variable (heap : Heap base state (front ++ before :: back) (extent :: out))
include heap

theorem place_positive (mem : node ∈ Extent.place front before extent back)
    (notBase : node.start ≠ base) : 0 < node.length := by
  have positive := (heap.outPositive extent List.mem_cons_self).trans_le
    (extent.le_absorb_length back)
  rw [Extent.place, List.mem_append, List.mem_append, Extent.attach, Extent.absorb_start] at mem
  rcases mem with (inFront | inAttached) | inBack
  · exact heap.nodesPositive node (by simp [inFront]) notBase
  · split at inAttached
    · rw [List.mem_singleton.mp inAttached]
      exact Nat.add_pos_right _ positive
    · rcases List.mem_cons.mp inAttached with rfl | inAttached
      · exact heap.nodesPositive node (by simp) notBase
      · rw [List.mem_singleton.mp inAttached]
        exact positive
  · have inBack := (extent.absorb_suffix back).subset inBack
    exact heap.nodesPositive node (by simp [inBack]) notBase

/-- The list still starts with `base`, which is too far below to be joined. -/
theorem place_head : (Extent.place front before extent back).head? = some ⟨base, 0⟩ := by
  have head := heap.head
  cases front with
  | cons first rest => simpa [Extent.place] using head
  | nil =>
    obtain rfl : before = ⟨base, 0⟩ := by simpa using head
    have below := heap.base_lt (List.mem_append_right _ List.mem_cons_self)
      (heap.outPositive extent List.mem_cons_self)
    have separate : Extent.stop ⟨base, 0⟩ ≠ extent.start := by
      simp only [Extent.stop, headerSize] at below ⊢
      omega
    simp [Extent.place, Extent.attach, Extent.absorb_start, separate]

end

/-- `free` returns, and the block is in the list, where `freep` or the header behind
it is one that holds the block. -/
theorem free (heap : Heap base state nodes (extent :: out)) :
    ∃ next nodes', Xv6.Umalloc.free state extent.start = some next ∧
      Heap base next nodes' out ∧ next.obtained = state.obtained ∧ next.live = state.live ∧
      ∃ node ∈ nodes', extent.length ≤ node.length ∧
        (next.freep = node.start ∨ next.ptr next.freep = node.start) := by
  obtain ⟨front, before, back, rfl, order, below, found⟩ := heap.findPlace
  obtain ⟨upperPtr, upperSize, upperSame⟩ := heap.joinUpper
  have ne : before.start ≠ extent.start := heap.start_ne (by simp) List.mem_cons_self
  set upper := Xv6.Umalloc.joinUpper state extent.start before.start with upper_eq
  have beforeSize : headerSize * upper.size before.start = before.length := by
    rw [(upperSame _ ne).2]
    exact heap.sizes before (by simp)
  have small : before.length + (extent.absorb back).1.length < 2 ^ 36 := by
    have bounded := heap.bounded
    rw [← heap.account, ← Extent.additive_length.place_append, Extent.place,
      Extent.total_append, Extent.total_append, Extent.total_append,
      Extent.additive_length.attach] at bounded
    omega
  obtain ⟨lowerSame, lowerSpec⟩ := joinLower_eq beforeSize upperSize small
  set lower := Xv6.Umalloc.joinLower upper extent.start before.start with lower_eq
  have same : ∀ other, other ≠ before.start → other ≠ extent.start →
      lower.ptr other = state.ptr other ∧ lower.size other = state.size other := by
    intro other notBefore notExtent
    rw [(lowerSame other notBefore).1, (lowerSame other notBefore).2]
    exact upperSame other notExtent
  have bp := lowerSame extent.start ne.symm
  have obtained : lower.obtained = state.obtained := by
    rw [lower_eq, (joinLower_history ..).1, upper_eq, (joinUpper_history ..).1]
  have live : lower.live = state.live := by
    rw [lower_eq, (joinLower_history ..).2, upper_eq, (joinUpper_history ..).2]
  obtain ⟨node, mem, longer, start⟩ := exists_placed front before extent back
  refine ⟨{ lower with freep := before.start }, Extent.place front before extent back, ?_, ?_,
    obtained, live, node, mem, longer, ?_⟩
  · rw [Xv6.Umalloc.free, found]
    rfl
  · apply heap.rearrange
    case obtained => exact obtained
    case measures => exact fun additive => additive.place_append out
    case links =>
      apply heap.links_place fun other notBefore notExtent => (same other notBefore notExtent).1
      split at lowerSpec
      · rw [if_pos ‹_›]
        exact lowerSpec.1.trans upperPtr
      · rw [if_neg ‹_›]
        exact ⟨lowerSpec.1, bp.1.trans upperPtr⟩
    case head => exact heap.place_head
    case separated => exact Extent.place_separated heap.separated order below
    case sizes =>
      apply heap.sizes_place fun other notBefore notExtent => (same other notBefore notExtent).2
      split at lowerSpec
      · rw [if_pos ‹_›]
        exact lowerSpec.2
      · rw [if_neg ‹_›]
        exact ⟨lowerSpec.2, (congrArg (headerSize * ·) bp.2).trans upperSize⟩
    case nodesPositive => exact fun node mem notBase => heap.place_positive mem notBase
    case outPositive =>
      exact fun node mem => heap.outPositive node (List.mem_cons_of_mem _ mem)
    case rover =>
      rw [Extent.place, Extent.attach]
      split <;> simp
  split at lowerSpec
  · rw [if_pos ‹_›] at start
    exact .inl start.symm
  · rw [if_neg ‹_›] at start
    exact .inr (lowerSpec.1.trans start.symm)

/-! ## `morecore` -/

section

variable (heap : Heap base state nodes out) (above : base + headerSize ≤ address)
  (fresh : ∀ region ∈ state.obtained, region.stop ≤ address)
include heap above fresh

theorem start_lt_fresh (mem : node ∈ nodes ++ out) : node.start < address := by
  by_cases positive : 0 < node.length
  · obtain ⟨region, regionMember, inside⟩ :=
      heap.covered mem ⟨le_rfl, Nat.lt_add_of_pos_right positive⟩
    exact inside.2.trans_le (fresh region regionMember)
  -- only the static `base` is empty
  rcases List.mem_append.mp mem with inNodes | inOut
  · have isBase : node.start = base := by
      by_contra notBase
      exact positive (heap.nodesPositive node inNodes notBase)
    simp only [headerSize] at above
    omega
  · exact absurd (heap.outPositive node inOut) positive

/-- What `sbrk` hands out is one more block that is out of the list. -/
theorem extend (positive : 0 < nu) (room : state.bytes + headerSize * nu < 2 ^ 36) :
    let region : Extent := ⟨address, headerSize * nu⟩
    let extended := { state with obtained := region :: state.obtained }
    Heap base (extended.setSize address nu) nodes (region :: out) := by
  intro region extended
  have fits : nu % 2 ^ 32 = nu := by
    simp only [headerSize] at room
    exact Nat.mod_eq_of_lt (by omega)
  have sizes : ∀ node ∈ nodes ++ out,
      headerSize * (extended.setSize address nu).size node.start = node.length := by
    intro node mem
    rw [size_setSize, if_neg (heap.start_lt_fresh above fresh mem).ne]
    exact heap.sizes node mem
  constructor
  case links =>
    apply heap.links.congr
    intro node _
    exact ptr_setSize extended address node nu
  case head => exact heap.head
  case separated => exact heap.separated
  case sizes =>
    obtain ⟨nodeSizes, outSizes⟩ := List.forall_mem_append.mp sizes
    refine List.forall_mem_append.mpr ⟨nodeSizes, List.forall_mem_cons.mpr ⟨?_, outSizes⟩⟩
    rw [size_setSize, if_pos rfl, fits]
  case nodesPositive => exact heap.nodesPositive
  case outPositive =>
    exact List.forall_mem_cons.mpr ⟨Nat.mul_pos (by decide) positive, heap.outPositive⟩
  case rover => exact heap.rover
  case tiled =>
    intro x
    have tiled := heap.tiled x
    rw [Extent.total_append] at tiled
    change _ = total (indicator x) (region :: state.obtained)
    rw [Extent.total_append, Extent.total_cons, Extent.total_cons]
    omega
  case single => exact Extent.total_indicator_le_one heap.single fresh
  case above => exact List.forall_mem_cons.mpr ⟨above, heap.above⟩
  case account =>
    have account := heap.account
    rw [Extent.total_append] at account
    change _ = total Extent.length (region :: state.obtained)
    rw [Extent.total_append, Extent.total_cons, Extent.total_cons, ← State.bytes]
    omega
  case bounded =>
    change total Extent.length (region :: state.obtained) < _
    rw [Extent.total_cons, Nat.add_comm]
    exact room

/-- `morecore` returns when the request fits in an `int`, and a large enough block is
at `freep` or behind it. -/
theorem morecore (small : headerSize * coreUnits nunits < 2 ^ 31)
    (room : state.bytes + headerSize * coreUnits nunits < 2 ^ 36) :
    ∃ next nodes', Xv6.Umalloc.morecore state nunits address = some next ∧
      Heap base next nodes' out ∧ next.live = state.live ∧
      ∃ node ∈ nodes', headerSize * nunits ≤ node.length ∧
        (next.freep = node.start ∨ next.ptr next.freep = node.start) := by
  have enough : nunits ≤ coreUnits nunits ∧ 0 < coreUnits nunits := by
    rw [coreUnits]
    split <;> omega
  obtain ⟨next, nodes', freed, sound, -, live, node, mem, longer, near⟩ :=
    (heap.extend above fresh enough.2 room).free
  refine ⟨next, nodes', ?_, sound, live, node, mem, ?_, near⟩
  · rw [Xv6.Umalloc.morecore, sbrkArgument_of_lt small, Int.toNat_natCast]
    exact freed
  · exact (Nat.mul_le_mul_left headerSize enough.1).trans longer

end

end Heap

end Xv6.Umalloc
