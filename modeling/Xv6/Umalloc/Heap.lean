import Xv6.Umalloc.Allocator

/-!
# The free list

`Heap base state nodes out` says what `free` and `malloc` keep up: the list that
`freep` enters is the circular list of `nodes`, which start with the static `base`
of length 0, are in address order and do not touch each other; together with the
blocks that are `out` they are the memory obtained from `sbrk`, each byte once.
-/

namespace Xv6.Umalloc

open Function Xv6.Semantics
open Xv6.Semantics.Extent (Separated total indicator)

/-- The free list and the blocks that are out of it. -/
structure Heap (base : Nat) (state : State) (nodes out : List Extent) : Prop where
  links : Links state.ptr (nodes.map Extent.start) base
  head : nodes.head? = some ⟨base, 0⟩
  separated : Separated nodes
  sizes : ∀ extent ∈ nodes ++ out, headerSize * state.size extent.start = extent.length
  nodesPositive : ∀ extent ∈ nodes, extent.start ≠ base → 0 < extent.length
  outPositive : ∀ extent ∈ out, 0 < extent.length
  rover : state.freep ∈ nodes.map Extent.start
  tiled : ∀ address,
    total (indicator address) (nodes ++ out) = total (indicator address) state.obtained
  single : ∀ address, total (indicator address) state.obtained ≤ 1
  above : ∀ extent ∈ state.obtained, base + headerSize ≤ extent.start
  account : total Extent.length (nodes ++ out) = state.bytes
  bounded : state.bytes < 2 ^ 36

/-! ## Headers -/

section Headers

variable (state : State) (p q value : Nat)

theorem ptr_setPtr : (state.setPtr p value).ptr q = if q = p then value else state.ptr q := by
  by_cases same : q = p <;> simp [State.ptr, State.setPtr, update, same]

theorem size_setPtr : (state.setPtr p value).size q = state.size q := by
  by_cases same : q = p <;> simp [State.size, State.setPtr, update, same]

theorem ptr_setSize : (state.setSize p value).ptr q = state.ptr q := by
  by_cases same : q = p <;> simp [State.ptr, State.setSize, update, same]

theorem size_setSize :
    (state.setSize p value).size q = if q = p then value % 2 ^ 32 else state.size q := by
  by_cases same : q = p <;> simp [State.size, State.setSize, update, same]

theorem ptr_of_header {state changed : State} (same : changed.header = state.header) (p : Nat) :
    changed.ptr p = state.ptr p := by
  rw [State.ptr, same, State.ptr]

theorem size_of_header {state changed : State} (same : changed.header = state.header) (p : Nat) :
    changed.size p = state.size p := by
  rw [State.size, same, State.size]

end Headers

namespace Heap

variable {base : Nat} {state : State} {nodes out front back : List Extent}
  {extent before node : Extent}

section

variable (heap : Heap base state nodes out)
include heap

/-- The same memory in other blocks: what was obtained has not changed. -/
theorem rearrange (obtained : changed.obtained = state.obtained)
    (measures : ∀ {measure}, Extent.Additive measure →
      total measure (nodes' ++ out') = total measure (nodes ++ out))
    (links : Links changed.ptr (nodes'.map Extent.start) base)
    (head : nodes'.head? = some ⟨base, 0⟩) (separated : Separated nodes')
    (sizes : ∀ extent ∈ nodes' ++ out', headerSize * changed.size extent.start = extent.length)
    (nodesPositive : ∀ extent ∈ nodes', extent.start ≠ base → 0 < extent.length)
    (outPositive : ∀ extent ∈ out', 0 < extent.length)
    (rover : changed.freep ∈ nodes'.map Extent.start) : Heap base changed nodes' out' where
  links := links
  head := head
  separated := separated
  sizes := sizes
  nodesPositive := nodesPositive
  outPositive := outPositive
  rover := rover
  tiled := by
    intro address
    rw [obtained, measures (Extent.additive_indicator address)]
    exact heap.tiled address
  single := by
    rw [obtained]
    exact heap.single
  above := by
    rw [obtained]
    exact heap.above
  account := by
    rw [State.bytes, obtained, measures Extent.additive_length]
    exact heap.account
  bounded := by
    rw [State.bytes, obtained]
    exact heap.bounded

/-! ## Where blocks are -/

theorem covered (mem : extent ∈ nodes ++ out)
    (inside : extent.start ≤ address ∧ address < extent.stop) :
    ∃ region ∈ state.obtained, region.start ≤ address ∧ address < region.stop := by
  apply Extent.exists_of_total_pos
  rw [← heap.tiled]
  calc 0 < indicator address extent := by
        rw [Extent.indicator_eq_one_iff.mpr inside]
        exact Nat.one_pos
    _ ≤ total (indicator address) (nodes ++ out) := Extent.le_total mem

theorem length_lt (mem : extent ∈ nodes ++ out) : extent.length < 2 ^ 36 := by
  have bounded := heap.bounded
  rw [← heap.account] at bounded
  exact (Extent.le_total mem).trans_lt bounded

theorem base_lt (mem : extent ∈ nodes ++ out)
    (positive : 0 < extent.length) : base + headerSize ≤ extent.start := by
  obtain ⟨region, regionMember, inside⟩ :=
    heap.covered mem ⟨le_rfl, Nat.lt_add_of_pos_right positive⟩
  exact (heap.above region regionMember).trans inside.1

theorem apart (mem : node ∈ nodes)
    (outMember : extent ∈ out) (address : Nat) :
    indicator address node + indicator address extent ≤ 1 := by
  calc indicator address node + indicator address extent
      ≤ total (indicator address) (nodes ++ out) := Extent.add_le_total mem outMember
    _ ≤ 1 := heap.tiled address ▸ heap.single address

theorem out_start_ne_base (mem : extent ∈ out) :
    extent.start ≠ base := by
  have := heap.base_lt (List.mem_append_right _ mem) (heap.outPositive extent mem)
  simp only [headerSize] at this
  omega

/-- A block does not start in another one. -/
theorem outside (counted : indicator extent.start extent + indicator extent.start node ≤
      total (indicator extent.start) (nodes ++ out)) (positive : 0 < extent.length) :
    ¬(node.start ≤ extent.start ∧ extent.start < node.stop) := by
  intro inside
  have single := counted.trans (heap.tiled extent.start ▸ heap.single extent.start)
  rw [Extent.indicator_start positive, Extent.indicator_eq_one_iff.mpr inside] at single
  omega

theorem start_ne (mem : node ∈ nodes)
    (outMember : extent ∈ out) : node.start ≠ extent.start := by
  intro same
  have positive := heap.nodesPositive node mem (same ▸ heap.out_start_ne_base outMember)
  exact heap.outside (Extent.add_le_total mem outMember) positive
    ⟨same.ge, same ▸ Nat.lt_add_of_pos_right (heap.outPositive extent outMember)⟩

end

theorem out_start_ne (heap : Heap base state nodes (extent :: out)) (mem : node ∈ out) :
    node.start ≠ extent.start := by
  intro same
  have nodePositive := heap.outPositive node (List.mem_cons_of_mem _ mem)
  refine heap.outside ?_ (heap.outPositive extent List.mem_cons_self)
    ⟨same.le, same ▸ Nat.lt_add_of_pos_right nodePositive⟩
  rw [List.append_cons]
  exact Extent.add_le_total (by simp) mem

section

variable (heap : Heap base state nodes out)
include heap

/-- No block starts behind the header of a block that is out and before its end. -/
theorem not_inside (outMember : node ∈ out)
    (mem : extent ∈ nodes ++ out) :
    ¬ (node.start < extent.start ∧ extent.start < node.stop) := by
  rintro ⟨behind, before⟩
  have nodeAbove := heap.base_lt (List.mem_append_right _ outMember)
    (heap.outPositive node outMember)
  have positive : 0 < extent.length := by
    rcases List.mem_append.mp mem with inNodes | inOut
    · exact heap.nodesPositive extent inNodes (by omega)
    · exact heap.outPositive extent inOut
  have ne : node ≠ extent := fun same => by
    rw [same] at behind
    omega
  exact heap.outside (Extent.add_le_total_of_ne mem (List.mem_append_right _ outMember) ne) positive
    ⟨behind.le, before⟩

/-! ## The loops -/

theorem exists_blocks :
    ∃ blocks, nodes = ⟨base, 0⟩ :: blocks := by
  have head := heap.head
  cases nodes with
  | nil => cases head
  | cons first blocks => exact ⟨blocks, by simpa using head⟩

theorem base_le (mem : node ∈ nodes) :
    base ≤ node.start := by
  obtain ⟨blocks, rfl⟩ := heap.exists_blocks
  have separated : Separated ([] ++ ⟨base, 0⟩ :: blocks) := heap.separated
  rcases List.mem_cons.mp mem with rfl | mem
  · exact le_rfl
  · exact (separated.start_lt mem).le

theorem length_le : 2 * nodes.length ≤ state.fuel := by
  obtain ⟨blocks, rfl⟩ := heap.exists_blocks
  have separated : Separated ([] ++ ⟨base, 0⟩ :: blocks) := heap.separated
  have counted := Extent.length_le_total fun extent mem =>
    heap.nodesPositive extent (List.mem_cons_of_mem _ mem)
      (separated.start_lt mem).ne'
  have account := heap.account
  rw [List.cons_append, Extent.total_cons, Extent.total_append] at account
  simp only [List.length_cons, State.fuel]
  omega

end

theorem ptr_eq (heap : Heap base state (front ++ before :: back) out) :
    state.ptr before.start = (back.map Extent.start).headD base := by
  have links := heap.links
  rw [List.map_append, List.map_cons, links_append] at links
  exact links.2.1

theorem map_head (heap : Heap base state nodes out) :
    (nodes.map Extent.start).head? = some base := by
  rw [List.head?_map, heap.head]
  rfl

/-- A walk along the list finds a free block that passes a test, if there is one. -/
theorem follow (heap : Heap base state nodes out) (test : Nat → Bool)
    (passing : ∃ node ∈ nodes, test node.start = true) :
    ∃ front node back, nodes = front ++ node :: back ∧ test node.start = true ∧
      Xv6.Semantics.follow state.ptr test state.fuel state.freep = some node.start := by
  obtain ⟨node, mem, passes⟩ := passing
  obtain ⟨address, found, passed, result⟩ := heap.links.follow_ring heap.map_head heap.rover
    ⟨node.start, List.mem_map_of_mem mem, passes⟩ (by simpa using heap.length_le)
  obtain ⟨node, mem, rfl⟩ := List.mem_map.mp found
  obtain ⟨front, back, split⟩ := List.append_of_mem mem
  exact ⟨front, node, back, split, passed, result⟩

/-- The loop of `free` ends at the free block below the block that is out. -/
theorem stops_iff (heap : Heap base state (front ++ before :: back) out)
    (mem : extent ∈ out) :
    stops state extent.start before.start = true ↔
      before.start < extent.start ∧ ∀ next ∈ back, extent.start < next.start := by
  have base_le : base ≤ before.start := heap.base_le (by simp)
  have base_lt := heap.base_lt (List.mem_append_right _ mem) (heap.outPositive _ mem)
  have ptr := heap.ptr_eq
  cases back with
  | nil =>
    rw [List.map_nil, List.headD_nil] at ptr
    simp only [stops, ptr, Bool.or_eq_true, Bool.and_eq_true, decide_eq_true_eq,
      List.not_mem_nil, IsEmpty.forall_iff, implies_true, and_true]
    omega
  | cons next rest =>
    have order : before.start < next.start := heap.separated.start_lt List.mem_cons_self
    have later : ∀ other ∈ rest, next.start < other.start := by
      have separated := heap.separated
      rw [List.append_cons] at separated
      exact fun other otherMember => separated.start_lt otherMember
    rw [List.map_cons, List.headD_cons] at ptr
    simp only [stops, ptr, Bool.or_eq_true, Bool.and_eq_true, decide_eq_true_eq]
    constructor
    · intro stopped
      refine ⟨by omega, ?_⟩
      intro other otherMember
      rcases List.mem_cons.mp otherMember with rfl | otherMember
      · omega
      · have := later other otherMember
        omega
    · rintro ⟨below, higher⟩
      exact .inl ⟨below, higher next List.mem_cons_self⟩

/-- The loop of `free` finds the free block below a block that is out. -/
theorem findPlace (heap : Heap base state nodes (extent :: out)) :
    ∃ front before back, nodes = front ++ before :: back ∧ before.stop ≤ extent.start ∧
      (∀ next ∈ back, extent.stop ≤ next.start) ∧
      Xv6.Umalloc.findPlace state extent.start = some before.start := by
  have mem : extent ∈ extent :: out := List.mem_cons_self
  have positive := heap.outPositive extent mem
  have base_lt := heap.base_lt (List.mem_append_right _ mem) positive
  simp only [headerSize] at base_lt
  have exists_stop : ∃ node ∈ nodes, stops state extent.start node.start = true := by
    obtain ⟨blocks, rfl⟩ := heap.exists_blocks
    obtain ⟨front, before, back, split, below, higher⟩ :=
      heap.separated.exists_place (show (⟨base, 0⟩ : Extent).start < extent.start by simp; omega)
        fun node nodeMember => heap.start_ne (List.mem_cons_of_mem _ nodeMember) mem
    rw [split] at heap ⊢
    exact ⟨before, by simp, (heap.stops_iff mem).mpr ⟨below, higher⟩⟩
  obtain ⟨front, before, back, rfl, stopped, found⟩ := heap.follow _ exists_stop
  obtain ⟨below, higher⟩ := (heap.stops_iff mem).mp stopped
  refine ⟨front, before, back, rfl, ?_, ?_, found⟩
  · exact Extent.stop_le_of_lt (heap.apart (by simp) mem) positive below.le
  intro next nextMember
  have order := higher next nextMember
  have inNodes : next ∈ front ++ before :: back := by simp [nextMember]
  refine Extent.stop_le_of_lt (fun address => ?_)
    (heap.nodesPositive next inNodes (by omega)) order.le
  rw [Nat.add_comm]
  exact heap.apart inNodes mem address

end Heap

end Xv6.Umalloc
