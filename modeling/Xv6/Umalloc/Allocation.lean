import Xv6.Umalloc.Coalescing

/-!
# `malloc`

The loop of `malloc` finds a block that is large enough or comes back to `freep`;
behind a successful `morecore` it always finds one. What it takes is a whole free
block or the tail of one.
-/

namespace Xv6.Umalloc

open Xv6.Semantics
open Xv6.Semantics.Extent (Separated total indicator)

namespace Heap

variable {base : Nat} {state : State} {nodes out front back rest : List Extent}
  {prev block node : Extent} {nunits : Nat}

theorem search (heap : Heap base state nodes out) (nunits : Nat) :
    ∃ front prev back, nodes = front ++ prev :: back ∧
      (fits state nunits prev.start = true ∨ state.ptr prev.start = state.freep) ∧
      Xv6.Umalloc.search state nunits = some prev.start := by
  have closes : ∃ node ∈ nodes,
      (fits state nunits node.start || state.ptr node.start = state.freep) = true := by
    obtain ⟨address, mem, closes⟩ := heap.links.exists_before heap.map_head heap.rover
    obtain ⟨node, nodeMember, rfl⟩ := List.mem_map.mp mem
    exact ⟨node, nodeMember, by simp [closes]⟩
  obtain ⟨front, prev, back, split, passed, found⟩ := heap.follow
    (fun prevp => fits state nunits prevp || state.ptr prevp = state.freep) closes
  exact ⟨front, prev, back, split, by simpa using passed, found⟩

/-- With a large enough block at `freep` or behind it the loop finds one. -/
theorem search_fits (heap : Heap base state nodes out) (mem : node ∈ nodes)
    (longer : headerSize * nunits ≤ node.length)
    (near : state.freep = node.start ∨ state.ptr state.freep = node.start) :
    ∃ front prev back, nodes = front ++ prev :: back ∧ fits state nunits prev.start = true ∧
      Xv6.Umalloc.search state nunits = some prev.start := by
  have enough : nunits ≤ state.size node.start := by
    rw [← heap.sizes node (List.mem_append_left _ mem)] at longer
    exact Nat.le_of_mul_le_mul_left longer (by decide)
  rcases near with atFreep | behind
  · -- the loop comes back to `freep`, which fits, at the latest
    obtain ⟨front, prev, back, split, stopped, found⟩ := heap.search nunits
    refine ⟨front, prev, back, split, ?_, found⟩
    rcases stopped with stopped | closes
    · exact stopped
    · rw [fits, closes, atFreep]
      exact decide_eq_true enough
  have first : fits state nunits state.freep = true := by
    rw [fits, behind]
    exact decide_eq_true enough
  obtain ⟨prev, prevMember, start⟩ := List.mem_map.mp heap.rover
  obtain ⟨front, back, split⟩ := List.append_of_mem prevMember
  refine ⟨front, prev, back, split, start ▸ first, ?_⟩
  rw [Xv6.Umalloc.search, State.fuel, Nat.mul_add, Xv6.Semantics.follow, first, start]
  rfl

theorem exists_block (heap : Heap base state (front ++ prev :: back) out) (positive : 0 < nunits)
    (large : fits state nunits prev.start = true) :
    ∃ block rest, back = block :: rest ∧ state.ptr prev.start = block.start ∧
      headerSize * nunits ≤ block.length := by
  have ptr := heap.ptr_eq
  rw [fits, decide_eq_true_eq] at large
  cases back with
  | nil =>
    obtain ⟨blocks, split⟩ := heap.exists_blocks
    have empty := heap.sizes ⟨base, 0⟩ (by rw [split]; simp)
    rw [ptr, List.map_nil, List.headD_nil] at large
    simp only [headerSize] at empty
    omega
  | cons block rest =>
    rw [List.map_cons, List.headD_cons] at ptr
    refine ⟨block, rest, rfl, ptr, ?_⟩
    rw [← heap.sizes block (by simp), ← ptr]
    exact Nat.mul_le_mul_left _ large

theorem head_of_prev (heap : Heap base state (front ++ prev :: back) out) :
    (front ++ prev :: back').head? = some ⟨base, 0⟩ := by
  have head := heap.head
  cases front <;> simpa using head

theorem take_whole (heap : Heap base state (front ++ prev :: block :: rest) out)
    (header : changed.header =
      (state.setPtr prev.start (state.ptr block.start)).header)
    (freep : changed.freep = prev.start) (obtained : changed.obtained = state.obtained)
    (positive : 0 < block.length) :
    Heap base changed (front ++ prev :: rest) (block :: out) := by
  have ptr : ∀ node, changed.ptr node =
      if node = prev.start then state.ptr block.start else state.ptr node := by
    intro node
    rw [ptr_of_header header, ptr_setPtr]
  have size : ∀ node, changed.size node = state.size node := by
    intro node
    rw [size_of_header header, size_setPtr]
  have links := heap.links
  simp only [List.map_append, List.map_cons, links_append, links_cons] at links
  obtain ⟨frontLinks, -, blockPtr, restLinks⟩ := links
  apply heap.rearrange obtained
  case measures =>
    simp only [Extent.total_append, Extent.total_cons]
    omega
  case links =>
    simp only [List.map_append, List.map_cons, links_append, links_cons]
    refine ⟨frontLinks.congr ?_, ?_, restLinks.congr ?_⟩
    · intro address mem
      obtain ⟨node, nodeMember, rfl⟩ := List.mem_map.mp mem
      rw [ptr, if_neg (heap.separated.lt_start nodeMember).ne]
    · rw [ptr, if_pos rfl]
      exact blockPtr
    · intro address mem
      obtain ⟨node, nodeMember, rfl⟩ := List.mem_map.mp mem
      have later : node ∈ block :: rest := List.mem_cons_of_mem _ nodeMember
      rw [ptr, if_neg (heap.separated.start_lt later).ne']
  case head => exact heap.head_of_prev
  case separated =>
    refine List.Pairwise.sublist ?_ heap.separated
    exact List.Sublist.append_left ((List.sublist_cons_self block rest).cons_cons prev) front
  case sizes =>
    intro node mem
    rw [size]
    apply heap.sizes
    simp only [List.mem_append, List.mem_cons] at mem ⊢
    tauto
  case nodesPositive =>
    intro node mem
    apply heap.nodesPositive
    simp only [List.mem_append, List.mem_cons] at mem ⊢
    tauto
  case outPositive => exact List.forall_mem_cons.mpr ⟨positive, heap.outPositive⟩
  case rover =>
    rw [freep]
    simp

theorem take_tail (heap : Heap base state (front ++ prev :: block :: rest) out)
    (units : state.size block.start = left + nunits)
    (header : changed.header = ((state.setSize block.start left).setSize
      (block.start + headerSize * left) nunits).header)
    (freep : changed.freep = prev.start) (obtained : changed.obtained = state.obtained)
    (leftPositive : 0 < left) (positive : 0 < nunits) :
    Heap base changed (front ++ prev :: ⟨block.start, headerSize * left⟩ :: rest)
      (⟨block.start + headerSize * left, headerSize * nunits⟩ :: out) := by
  have length : block.length = headerSize * left + headerSize * nunits := by
    rw [← heap.sizes block (by simp), units, Nat.mul_add]
  have mem : block ∈ front ++ prev :: block :: rest := by simp
  have small : left + nunits < 2 ^ 32 := by
    have bounded := heap.length_lt (List.mem_append_left out mem)
    simp only [headerSize] at length
    omega
  -- no other block starts where the tail does
  have notTail : ∀ node ∈ front ++ prev :: block :: rest ++ out,
      node.start ≠ block.start + headerSize * left := by
    intro node nodeMember same
    rcases List.mem_append.mp nodeMember with inNodes | inOut
    · rw [List.append_cons, List.mem_append, List.mem_cons] at inNodes
      rw [List.append_cons] at heap
      rcases inNodes with inFront | rfl | inRest
      · have := heap.separated.lt_start inFront
        omega
      · simp only [headerSize] at same
        omega
      · have := (List.pairwise_cons.mp (List.pairwise_append.mp heap.separated).2.1).1 node inRest
        simp only [Extent.stop] at this
        omega
    refine heap.outside ?_ (heap.outPositive node inOut) (?_ : block.start ≤ _ ∧ _)
    · rw [Nat.add_comm]
      exact Extent.add_le_total mem inOut
    · rw [same, Extent.stop, length]
      simp only [headerSize]
      omega
  have ptr : ∀ node, changed.ptr node = state.ptr node := by
    intro node
    rw [ptr_of_header header, ptr_setSize, ptr_setSize]
  have size : ∀ node ∈ front ++ prev :: block :: rest ++ out, node.start ≠ block.start →
      headerSize * changed.size node.start = node.length := by
    intro node nodeMember notBlock
    rw [size_of_header header, size_setSize, if_neg (notTail node nodeMember), size_setSize,
      if_neg notBlock]
    exact heap.sizes node nodeMember
  have tailSize : changed.size (block.start + headerSize * left) = nunits := by
    rw [size_of_header header, size_setSize, if_pos rfl]
    exact Nat.mod_eq_of_lt (by omega)
  have blockSize : changed.size block.start = left := by
    rw [size_of_header header, size_setSize, if_neg (notTail block (by simp)), size_setSize,
      if_pos rfl]
    exact Nat.mod_eq_of_lt (by omega)
  apply heap.rearrange obtained
  case measures =>
    intro measure additive
    have cut : measure block = measure ⟨block.start, headerSize * left⟩ +
        measure ⟨block.start + headerSize * left, headerSize * nunits⟩ := by
      rw [← additive, ← length]
    simp only [Extent.total_append, Extent.total_cons]
    omega
  case links =>
    have links := heap.links
    rw [List.map_append, List.map_cons, List.map_cons] at links ⊢
    exact links.congr fun node _ => ptr node
  case head => exact heap.head_of_prev
  case separated =>
    have separated := heap.separated
    rw [List.append_cons] at separated ⊢
    exact separated.shrink (by omega)
  case sizes =>
    intro node nodeMember
    simp only [List.mem_append, List.mem_cons] at nodeMember
    rcases nodeMember with (inFront | rfl | rfl | inRest) | rfl | inOut
    · apply size node (by simp [inFront])
      rw [List.append_cons] at heap
      exact (heap.separated.lt_start (by simp [inFront])).ne
    · apply size node (by simp)
      rw [List.append_cons] at heap
      exact (heap.separated.lt_start (by simp)).ne
    · rw [blockSize]
    · apply size node (by simp [inRest])
      rw [List.append_cons] at heap
      exact (heap.separated.start_lt inRest).ne'
    · rw [tailSize]
    · exact size node (by simp [inOut]) (heap.start_ne mem inOut).symm
  case nodesPositive =>
    intro node nodeMember notBase
    simp only [List.mem_append, List.mem_cons] at nodeMember
    rcases nodeMember with inFront | rfl | rfl | inRest
    · exact heap.nodesPositive node (by simp [inFront]) notBase
    · exact heap.nodesPositive node (by simp) notBase
    · exact Nat.mul_pos (by decide) leftPositive
    · exact heap.nodesPositive node (by simp [inRest]) notBase
  case outPositive =>
    exact List.forall_mem_cons.mpr ⟨Nat.mul_pos (by decide) positive, heap.outPositive⟩
  case rover =>
    rw [freep]
    simp

theorem take (heap : Heap base state (front ++ prev :: back) out) (positive : 0 < nunits)
    (large : fits state nunits prev.start = true) (nbytes : Nat) :
    ∃ nodes' block, (take state nunits nbytes prev.start).live = block :: state.live ∧
      block.units = nunits ∧ block.nbytes = nbytes ∧
      Heap base (take state nunits nbytes prev.start) nodes' (block.extent :: out) := by
  obtain ⟨block, rest, rfl, ptr, enough⟩ := heap.exists_block positive large
  have size := heap.sizes block (by simp)
  have bounded := heap.length_lt (show block ∈ _ by simp)
  simp only [Xv6.Umalloc.take, ptr]
  by_cases whole : state.size block.start = nunits
  · rw [if_pos whole]
    refine ⟨front ++ prev :: rest, ⟨block.start, nunits, nbytes⟩, rfl, rfl, rfl, ?_⟩
    have same : (Live.extent ⟨block.start, nunits, nbytes⟩) = block := by
      rw [Live.extent, ← whole, size]
    rw [same]
    exact heap.take_whole rfl rfl rfl (lt_of_lt_of_le (Nat.mul_pos (by decide) positive) enough)
  rw [if_neg whole]
  simp only [headerSize] at size enough
  obtain ⟨left, units⟩ : ∃ left, state.size block.start = left + nunits :=
    ⟨state.size block.start - nunits, by omega⟩
  have shrunk : (state.setSize block.start (state.size block.start - nunits)).size block.start =
      left := by
    rw [size_setSize, if_pos rfl, Nat.mod_eq_of_lt] <;> omega
  refine ⟨front ++ prev :: ⟨block.start, headerSize * left⟩ :: rest,
    ⟨block.start + headerSize * left, nunits, nbytes⟩, by rw [shrunk], rfl, rfl,
    heap.take_tail units ?_ rfl rfl (by omega) positive⟩
  rw [shrunk, units, Nat.add_sub_cancel]

end Heap

/-! ## `malloc` and `free` as a whole -/

section Base

variable (base : Nat)

/-- `malloc` finds no free block that is large enough and calls `morecore`. -/
def asks (state : State) (nbytes : UInt32) : Bool :=
  let state := prepare base state
  match search state (unitsFor nbytes) with
  | some prevp => !fits state (unitsFor nbytes) prevp
  | none => true

/-- A `malloc` that gets memory from `sbrk` asks for less than 2^31 bytes, and all
that `sbrk` has handed out stays below 2^32 units. -/
def Modest (state : State) : Call → Prop
  | .malloc nbytes answer => answer.isSome → asks base state nbytes →
      headerSize * coreUnits (unitsFor nbytes) < 2 ^ 31 ∧
        state.bytes + headerSize * coreUnits (unitsFor nbytes) < 2 ^ 36
  | .free _ => True
  | .write _ _ => True

instance (state : State) : (call : Call) → Decidable (Modest base state call)
  | .malloc nbytes answer => inferInstanceAs (Decidable (answer.isSome → asks base state nbytes →
      headerSize * coreUnits (unitsFor nbytes) < 2 ^ 31 ∧
        state.bytes + headerSize * coreUnits (unitsFor nbytes) < 2 ^ 36))
  | .free _ => inferInstanceAs (Decidable True)
  | .write _ _ => inferInstanceAs (Decidable True)

/-- Before the first `malloc`, or with a free list. -/
structure Sound (state : State) : Prop where
  list : (state.freep = 0 ∧ state.obtained = [] ∧ state.live = []) ∨
    ∃ nodes, Heap base state nodes (state.live.map Live.extent)
  large : ∀ block ∈ state.live, headerSize + block.nbytes ≤ headerSize * block.units

end Base

variable {base : Nat} {state : State}

theorem unitsFor_pos (nbytes : UInt32) : 0 < unitsFor nbytes := Nat.succ_pos _

theorem le_unitsFor (nbytes : UInt32) :
    headerSize + nbytes.toNat ≤ headerSize * unitsFor nbytes := by
  simp only [unitsFor, headerSize]
  omega

theorem Sound.prepare (static : 0 < base) (sound : Sound base state) :
    ∃ nodes, Heap base (prepare base state) nodes (state.live.map Live.extent) ∧
      (Xv6.Umalloc.prepare base state).live = state.live ∧
      (Xv6.Umalloc.prepare base state).obtained = state.obtained := by
  rcases sound.list with ⟨freep, obtained, live⟩ | ⟨nodes, heap⟩
  · rw [Xv6.Umalloc.prepare, if_pos freep, live]
    refine ⟨[⟨base, 0⟩], ?_, live, rfl⟩
    have ptr : ∀ node, ((state.setPtr base base).setSize base 0).ptr node =
        if node = base then base else state.ptr node := by
      intro node
      rw [ptr_setSize, ptr_setPtr]
    have size : ((state.setPtr base base).setSize base 0).size base = 0 := by
      rw [size_setSize, if_pos rfl, Nat.zero_mod]
    constructor
    case links => exact ⟨(ptr base).trans (if_pos rfl), trivial⟩
    case head => rfl
    case separated => exact List.pairwise_singleton _ _
    case sizes =>
      intro extent mem
      obtain rfl : extent = ⟨base, 0⟩ := by simpa using mem
      exact congrArg (headerSize * ·) size
    case nodesPositive =>
      intro extent mem notBase
      obtain rfl : extent = ⟨base, 0⟩ := by simpa using mem
      exact absurd rfl notBase
    case outPositive => simp
    case rover => simp
    case tiled =>
      intro address
      change _ = total (indicator address) state.obtained
      rw [obtained]
      exact Extent.indicator_empty address base
    case single =>
      intro address
      change total (indicator address) state.obtained ≤ 1
      rw [obtained]
      exact Nat.zero_le 1
    case above =>
      change ∀ extent ∈ state.obtained, _
      rw [obtained]
      simp
    case account =>
      change _ = total Extent.length state.obtained
      rw [obtained]
      rfl
    case bounded =>
      change total Extent.length state.obtained < _
      rw [obtained]
      exact Nat.two_pow_pos 36
  have entered : state.freep ≠ 0 := by
    obtain ⟨node, mem, start⟩ := List.mem_map.mp heap.rover
    have := heap.base_le mem
    omega
  rw [Xv6.Umalloc.prepare, if_neg entered]
  exact ⟨nodes, heap, rfl, rfl⟩

theorem Heap.sound_take (heap : Heap base state (front ++ prev :: back) (live.map Live.extent))
    (liveEq : state.live = live)
    (large : ∀ block ∈ live, headerSize + block.nbytes ≤ headerSize * block.units)
    (enough : fits state (unitsFor nbytes) prev.start = true) :
    Sound base (Xv6.Umalloc.take state (unitsFor nbytes) nbytes.toNat prev.start) ∧
      ∃ block, (Xv6.Umalloc.take state (unitsFor nbytes) nbytes.toNat prev.start).live =
        block :: live ∧ block.nbytes = nbytes.toNat := by
  obtain ⟨nodes', block, grown, units, requested, taken⟩ :=
    heap.take (unitsFor_pos nbytes) enough nbytes.toNat
  rw [liveEq] at grown
  refine ⟨⟨.inr ⟨nodes', ?_⟩, ?_⟩, block, grown, requested⟩
  · rw [grown, List.map_cons]
    exact taken
  rw [grown]
  refine List.forall_mem_cons.mpr ⟨?_, large⟩
  rw [units, requested]
  exact le_unitsFor nbytes

theorem Sound.malloc (static : 0 < base) (sound : Sound base state)
    (admissible : Admissible base state (.malloc nbytes answer))
    (modest : Modest base state (.malloc nbytes answer)) :
    ∃ next, malloc base state nbytes answer = some next ∧ Sound base next ∧
      (next.live = state.live ∨
        ∃ block, next.live = block :: state.live ∧ block.nbytes = nbytes.toNat) := by
  obtain ⟨nodes, heap, live, obtained⟩ := sound.prepare static
  obtain ⟨front, prev, back, rfl, stopped, found⟩ := heap.search (unitsFor nbytes)
  unfold Xv6.Umalloc.malloc
  simp only [found, Option.bind_eq_bind, Option.bind_some]
  by_cases enough : fits (Xv6.Umalloc.prepare base state) (unitsFor nbytes) prev.start = true
  · rw [if_pos enough]
    obtain ⟨taken, grown⟩ := heap.sound_take live sound.large enough
    exact ⟨_, rfl, taken, .inr grown⟩
  rw [if_neg enough]
  cases answer with
  | none =>
    refine ⟨_, rfl, ⟨.inr ⟨front ++ prev :: back, ?_⟩, ?_⟩, .inl live⟩
    · rw [live]
      exact heap
    · rw [live]
      exact sound.large
  | some address =>
    obtain ⟨above, fresh⟩ := admissible address rfl
    have asking : asks base state nbytes = true := by
      simp only [asks, found]
      simpa using enough
    obtain ⟨small, room⟩ := modest rfl asking
    rw [← obtained] at fresh
    have bytes : (Xv6.Umalloc.prepare base state).bytes = state.bytes := by
      rw [State.bytes, obtained, State.bytes]
    rw [← bytes] at room
    obtain ⟨core, nodes', extended, coreHeap, coreLive, node, mem, longer, near⟩ :=
      heap.morecore above fresh small room
    obtain ⟨front, prev, back, rfl, enough, found⟩ := coreHeap.search_fits mem longer near
    simp only [extended, found, Option.bind_some, if_pos enough]
    obtain ⟨taken, grown⟩ := coreHeap.sound_take (coreLive.trans live) sound.large enough
    exact ⟨_, rfl, taken, .inr grown⟩

theorem mem_of_blockOf (found : state.blockOf ap = some block) :
    block ∈ state.live ∧ block.result = ap := by
  refine ⟨List.mem_of_find?_eq_some found, ?_⟩
  simpa using List.find?_some found

/-- `free` of a live result returns, and the block is not live any more. -/
theorem Sound.free (sound : Sound base state) (found : state.blockOf ap = some block) :
    ∃ next, free { state with live := state.live.erase block } (ap - headerSize) = some next ∧
      Sound base next ∧ next.live = state.live.erase block := by
  obtain ⟨mem, result⟩ := mem_of_blockOf found
  rcases sound.list with ⟨-, -, live⟩ | ⟨nodes, heap⟩
  · rw [live] at mem
    cases mem
  have perm := (List.perm_cons_erase mem).map Live.extent
  have header : ap - headerSize = block.extent.start := by
    rw [← result, Live.result, Nat.add_sub_cancel]
    rfl
  have focused : Heap base { state with live := state.live.erase block } nodes
      (block.extent :: (state.live.erase block).map Live.extent) := by
    apply heap.rearrange
    case obtained => rfl
    case measures => exact fun _ => Extent.total_perm (perm.symm.append_left nodes)
    case links => exact heap.links
    case head => exact heap.head
    case separated => exact heap.separated
    case sizes =>
      intro extent extentMember
      exact heap.sizes extent ((perm.append_left nodes).mem_iff.mpr extentMember)
    case nodesPositive => exact heap.nodesPositive
    case outPositive => exact fun extent inOut => heap.outPositive extent (perm.mem_iff.mpr inOut)
    case rover => exact heap.rover
  obtain ⟨next, nodes', freed, freeHeap, -, live, -⟩ := focused.free
  rw [header]
  refine ⟨next, freed, ⟨.inr ⟨nodes', ?_⟩, ?_⟩, live⟩
  · rw [live]
    exact freeHeap
  · rw [live]
    exact fun other otherMember => sound.large other (List.mem_of_mem_erase otherMember)

theorem Sound.scribble (sound : Sound base state)
    (found : state.blockOf ap = some block) (content : Nat → Header) :
    Sound base (scribble state block content) := by
  obtain ⟨mem, -⟩ := mem_of_blockOf found
  rcases sound.list with ⟨-, -, live⟩ | ⟨nodes, heap⟩
  · rw [live] at mem
    cases mem
  have inOut : block.extent ∈ state.live.map Live.extent := List.mem_map_of_mem mem
  have same : ∀ extent ∈ nodes ++ state.live.map Live.extent,
      (Xv6.Umalloc.scribble state block content).header extent.start =
        state.header extent.start := fun extent extentMember =>
    if_neg (heap.not_inside inOut extentMember)
  refine ⟨.inr ⟨nodes, ?_⟩, sound.large⟩
  apply heap.rearrange
  case obtained => rfl
  case measures => exact fun _ => rfl
  case links =>
    apply heap.links.congr
    intro address addressMember
    obtain ⟨node, nodeMember, rfl⟩ := List.mem_map.mp addressMember
    exact congrArg Header.ptr (same node (List.mem_append_left _ nodeMember))
  case head => exact heap.head
  case separated => exact heap.separated
  case sizes =>
    intro extent extentMember
    rw [State.size, same extent extentMember]
    exact heap.sizes extent extentMember
  case nodesPositive => exact heap.nodesPositive
  case outPositive => exact heap.outPositive
  case rover => exact heap.rover

end Xv6.Umalloc
