import Mathlib.Data.List.Basic
import Xv6.Malloc.Arena

/-!
# Where the blocks of `malloc` lie

The three headers lie next to each other, and a block is handed out as the bytes
behind a header. So a block begins where another header begins: behind `head`
lies `next`, behind `next` lies `tail`, and behind `tail` the header that
`morecore` makes. A block is apart from the headers only when it has no bytes.
-/

namespace Xv6.Malloc

open Xv6.Semantics

/-! ## Rules -/

section Rules

variable {Result : Type} {arena : Arena} {post : Result → Arena → Prop}

theorem ensures_load (continued : p ≠ 0 → Ensures (rest (arena.header p)) arena post) :
    Ensures (load p >>= rest) arena post := by
  unfold load
  by_cases null : p = 0
  · rw [if_pos null]
    exact Ensures.throw
  · rw [if_neg null]
    exact continued null

/-- The arena with one header changed. -/
def Arena.setHeader (arena : Arena) (p : Nat) (header : Header) : Arena :=
  { arena with header := fun q => if q = p then header else arena.header q }

theorem ensures_store (continued : p ≠ 0 → Ensures (rest ()) (arena.setHeader p header) post) :
    Ensures (store p header >>= rest) arena post := by
  unfold store
  by_cases null : p = 0
  · rw [if_pos null]
    exact Ensures.throw
  · rw [if_neg null]
    exact continued null

end Rules

/-! ## Changes of sizes -/

/-- Nothing changed but sizes and `freep`. -/
structure SamePointers (arena next : Arena) : Prop where
  node : next.node = arena.node
  memoryIndex : next.memoryIndex = arena.memoryIndex
  headers : next.headers = arena.headers
  ptr : ∀ p, (next.header p).ptr = (arena.header p).ptr

theorem SamePointers.refl (arena : Arena) :
    SamePointers arena arena := ⟨rfl, rfl, rfl, fun _ => rfl⟩

theorem SamePointers.trans (first : SamePointers arena middle)
    (second : SamePointers middle next) : SamePointers arena next := by
  constructor
  · exact second.node.trans first.node
  · exact second.memoryIndex.trans first.memoryIndex
  · exact second.headers.trans first.headers
  · intro p
    exact (second.ptr p).trans (first.ptr p)

theorem setHeader_ptr {arena : Arena} (q : Nat) : ((arena.setHeader p header).header q).ptr =
      if q = p then header.ptr else (arena.header q).ptr := by
  simp only [Arena.setHeader]
  split <;> rfl

theorem ensures_setSize (p size : Nat) : Ensures (setSize p size) arena fun _ next =>
      p ≠ 0 ∧ SamePointers arena next ∧ next.freep = arena.freep := by
  refine ensures_load fun nonnull => ?_
  rw [← bind_pure (store _ _)]
  refine ensures_store fun _ => .pure ⟨nonnull, ⟨rfl, rfl, rfl, fun q => ?_⟩, rfl⟩
  rw [setHeader_ptr]
  split
  · next same => rw [same]
  · rfl

theorem ensures_takeUnits (p nunits : Nat) :
    Ensures (takeUnits p nunits) arena fun _ next => SamePointers arena next :=
  ensures_load fun _ => (ensures_setSize p _).mono fun _ _ sized => sized.2.1

theorem ensures_setFreep (p : Nat) :
    Ensures (setFreep p) arena fun _ next => SamePointers arena next ∧ next.freep = p :=
  .of_returns ⟨(), _, rfl, ⟨rfl, rfl, rfl, fun _ => rfl⟩, rfl⟩

theorem ensures_setPtr (p ptr : Nat) : Ensures (setPtr p ptr) arena fun _ next =>
      ∃ size, next = arena.setHeader p ⟨ptr, size⟩ := by
  refine ensures_load fun _ => ?_
  rw [← bind_pure (store _ _)]
  exact ensures_store fun _ => .pure ⟨_, rfl⟩

section Linked

variable [Linked]

/-! ## The layout -/

/-- The address of the first header. -/
def headAt : Nat := Linked.memory + 24

/-- The address of the second header. -/
def nextAt : Nat := Linked.memory + 40

/-- The address of the third header. -/
def tailAt : Nat := Linked.memory + 56

/-- The address of the header that `morecore` makes. -/
def coreAt : Nat := Linked.memory + 72

theorem memory_pos : 0 < Linked.memory := Nat.lt_of_lt_of_le (by decide) Linked.kernbase_le

/-- The node and its headers after the first request. The list ends at `tail`
until `morecore` makes `tail` point to itself. -/
structure Laid (arena : Arena) : Prop where
  node : ∃ head, arena.node = some (Linked.memory, ⟨head, nextAt, tailAt⟩) ∧
    (head = headAt ∨ head = nextAt ∨ head = tailAt)
  headPtr : (arena.header headAt).ptr = nextAt
  nextPtr : (arena.header nextAt).ptr = tailAt
  made : headAt ∈ arena.headers ∧ nextAt ∈ arena.headers ∧ tailAt ∈ arena.headers
  core : ((arena.header tailAt).ptr = 0 ∧ arena.memoryIndex = 72) ∨
    ((arena.header tailAt).ptr = tailAt ∧ coreAt ∈ arena.headers)

/-- A block that `malloc` hands out begins where a header begins. -/
def OnHeader (arena : Arena) (address : Nat) : Prop :=
  (address = nextAt ∨ address = tailAt ∨ address = coreAt) ∧ address ∈ arena.headers

theorem Laid.of_same (laid : Laid arena) (same : SamePointers arena next) : Laid next := by
  constructor
  · rw [same.node]
    exact laid.node
  · rw [same.ptr]
    exact laid.headPtr
  · rw [same.ptr]
    exact laid.nextPtr
  · rw [same.headers]
    exact laid.made
  · rw [same.ptr, same.memoryIndex, same.headers]
    exact laid.core

theorem OnHeader.of_same (on : OnHeader arena address)
    (same : SamePointers arena next) : OnHeader next address := by
  unfold OnHeader
  rw [same.headers]
  exact on

section

variable (laid : Laid arena) (place : head = headAt ∨ head = nextAt ∨ head = tailAt)
  (linked : (arena.header head).ptr ≠ 0)
include laid place linked

theorem Laid.behind : OnHeader arena (head + headerSize) := by
  rcases place with rfl | rfl | rfl
  · exact ⟨.inl rfl, laid.made.2.1⟩
  · exact ⟨.inr (.inl rfl), laid.made.2.2⟩
  · rcases laid.core with ⟨null, -⟩ | ⟨-, made⟩
    · exact absurd null linked
    · exact ⟨.inr (.inr rfl), made⟩

theorem Laid.advance :
    (arena.header head).ptr = headAt ∨ (arena.header head).ptr = nextAt ∨
      (arena.header head).ptr = tailAt := by
  rcases place with rfl | rfl | rfl
  · exact .inr (.inl laid.headPtr)
  · exact .inr (.inr laid.nextPtr)
  · rcases laid.core with ⟨null, -⟩ | ⟨self, -⟩
    · exact absurd null linked
    · exact .inr (.inr self)

end

omit [Linked] in
theorem getNode_run {arena : Arena} {address : Nat} {node : LinkedList}
    (present : arena.node = some (address, node)) : getNode.run arena = .ok (node, arena) := by
  cases arena
  cases present
  rfl

theorem ensures_getNode {post : Result → Arena → Prop}
    {rest : LinkedList → M Result} (laid : Laid arena)
    (continued : ∀ head, arena.node = some (Linked.memory, ⟨head, nextAt, tailAt⟩) →
      (head = headAt ∨ head = nextAt ∨ head = tailAt) →
      Ensures (rest ⟨head, nextAt, tailAt⟩) arena post) :
    Ensures (getNode >>= rest) arena post := by
  obtain ⟨head, node, place⟩ := laid.node
  exact .bind_run (getNode_run node) (continued head node place)

/-- What the search of `malloc` finds. -/
def Found (arena : Arena) (found : Option Nat) (next : Arena) : Prop :=
  Laid next ∧ next.headers = arena.headers ∧ match found with
    | none => (next.header tailAt).ptr = 0
    | some address => OnHeader next address

theorem Laid.search_ensures (laid : Laid arena) (fuel nunits : Nat) :
    Ensures (search fuel nunits) arena (Found arena) := by
  induction fuel generalizing arena with
  | zero => exact Ensures.throw
  | succ fuel ih =>
    refine ensures_getNode laid fun head node place => ensures_load fun _ => ?_
    split
    · rename_i null
      refine .pure ⟨laid, rfl, ?_⟩
      rcases place with rfl | rfl | rfl
      · rw [laid.headPtr, nextAt] at null
        omega
      · rw [laid.nextPtr, tailAt] at null
        omega
      · exact null
    refine ensures_load fun _ => ?_
    have reduced : Ensures (if (arena.header nextAt).size < (arena.header head).size ∧
        nunits ≤ (arena.header head).size then do
          takeUnits head nunits
          setFreep head
        else pure ()) arena fun _ next => SamePointers arena next := by
      split
      · refine (ensures_takeUnits head nunits).bind fun _ middle first => ?_
        exact (ensures_setFreep head).mono fun _ next second => first.trans second.1
      · exact .pure (.refl arena)
    refine reduced.bind fun _ middle same => ?_
    have laid' := laid.of_same same
    have linked' : (middle.header head).ptr ≠ 0 := by rwa [same.ptr]
    refine ensures_load fun _ => ensures_load fun _ => ?_
    split
    · refine (ensures_takeUnits nextAt nunits).bind fun _ taken first => ?_
      refine (ensures_setFreep nextAt).bind fun _ last second => ?_
      have whole := first.trans second.1
      refine .pure ⟨laid'.of_same whole, whole.headers.trans same.headers,
        OnHeader.of_same ?_ whole⟩
      exact ⟨.inr (.inl rfl), laid'.made.2.2⟩
    split
    · refine (ensures_takeUnits head nunits).bind fun _ one first => ?_
      refine (ensures_takeUnits nextAt nunits).bind fun _ two second => ?_
      refine (ensures_setFreep head).bind fun _ last third => ?_
      have whole := (first.trans second).trans third.1
      exact .pure ⟨laid'.of_same whole, whole.headers.trans same.headers,
        (laid'.behind place linked').of_same whole⟩
    have moved : Laid (middle.setHead (middle.header head).ptr) :=
      ⟨⟨_, by rw [Arena.setHead, same.node, node]; rfl, laid'.advance place linked'⟩,
        laid'.headPtr, laid'.nextPtr, laid'.made, laid'.core⟩
    refine ensures_modify ((ih moved).mono fun found last after => ?_)
    exact ⟨after.1, after.2.1.trans same.headers, after.2.2⟩

/-! ## The first request -/

theorem allocation_run (size : Nat) (arena : Arena) : (allocation size).run arena =
    if alloc < (arena.memoryIndex + size) % 2 ^ 64 then .ok (0, arena)
    else .ok (Linked.memory + arena.memoryIndex,
      { arena with memoryIndex := (arena.memoryIndex + size) % 2 ^ 32 }) := by
  show (if alloc < (arena.memoryIndex + size) % 2 ^ 64 then _ else _ : M Nat) arena = _
  split <;> rfl

theorem ensures_allocation {post : Result → Arena → Prop}
    {rest : Nat → M Result} (fits : arena.memoryIndex + size ≤ alloc)
    (continued : Ensures (rest (Linked.memory + arena.memoryIndex))
      { arena with memoryIndex := arena.memoryIndex + size } post) :
    Ensures (allocation size >>= rest) arena post := by
  have small : arena.memoryIndex + size < 2 ^ 32 := Nat.lt_of_le_of_lt fits (by decide)
  have large : arena.memoryIndex + size < 2 ^ 64 := Nat.lt_of_le_of_lt fits (by decide)
  have ran := allocation_run size arena
  rw [Nat.mod_eq_of_lt large, if_neg (Nat.not_lt.mpr fits), Nat.mod_eq_of_lt small] at ran
  exact .bind_run ran continued

/-- The arena after a header has been made at its current end. -/
structure Made (arena : Arena) (p : Nat) (next : Arena) : Prop where
  address : p = Linked.memory + arena.memoryIndex
  memoryIndex : next.memoryIndex = arena.memoryIndex + headerSize
  headers : next.headers = p :: arena.headers

theorem makeHeader_ensures (fits : arena.memoryIndex + headerSize ≤ alloc)
    (size : Nat) : Ensures (makeHeader size) arena (Made arena) := by
  refine ensures_allocation fits ?_
  refine (ensures_setSize _ size).bind fun _ next sized => ?_
  obtain ⟨-, same, -⟩ := sized
  refine ensures_modify (.pure ⟨rfl, same.memoryIndex, ?_⟩)
  rw [same.headers]

theorem prepare_ensures : Ensures prepare .initial fun _ next => Laid next := by
  apply ensures_get
  refine ensures_allocation (by decide) ?_
  refine (makeHeader_ensures (by decide) 512).bind fun head one first => ?_
  have index1 : one.memoryIndex = 40 := first.memoryIndex
  have fits1 : one.memoryIndex + headerSize ≤ alloc := by rw [index1]; decide
  refine (makeHeader_ensures fits1 1028).bind fun next two second => ?_
  have index2 : two.memoryIndex = 56 := by rw [second.memoryIndex, index1]; rfl
  have fits2 : two.memoryIndex + headerSize ≤ alloc := by rw [index2]; decide
  refine (makeHeader_ensures fits2 2048).bind fun tail three third => ?_
  have index3 : three.memoryIndex = 72 := by rw [third.memoryIndex, index2]; rfl
  obtain rfl : head = headAt := first.address
  obtain rfl : next = nextAt := by rw [second.address, index1]; rfl
  obtain rfl : tail = tailAt := by rw [third.address, index2]; rfl
  refine (ensures_setPtr _ _).bind fun _ four fourth => ?_
  obtain ⟨size1, rfl⟩ := fourth
  refine (ensures_setPtr _ _).bind fun _ five fifth => ?_
  obtain ⟨size2, rfl⟩ := fifth
  refine (ensures_setPtr _ _).bind fun _ six sixth => ?_
  obtain ⟨size3, rfl⟩ := sixth
  have differ1 : headAt ≠ nextAt := by simp [headAt, nextAt]
  have differ2 : headAt ≠ tailAt := by simp [headAt, tailAt]
  have differ3 : nextAt ≠ tailAt := by simp [nextAt, tailAt]
  refine .of_returns ⟨(), _, rfl, ⟨headAt, rfl, .inl rfl⟩, ?_, ?_, ?_, .inl ⟨?_, index3⟩⟩
  · show (((three.setHeader headAt _).setHeader nextAt _).setHeader tailAt _ |>.header headAt).ptr = _
    rw [setHeader_ptr, if_neg differ2, setHeader_ptr, if_neg differ1, setHeader_ptr, if_pos rfl]
  · show (((three.setHeader headAt _).setHeader nextAt _).setHeader tailAt _ |>.header nextAt).ptr = _
    rw [setHeader_ptr, if_neg differ3, setHeader_ptr, if_pos rfl]
  · have headers : three.headers = tailAt :: nextAt :: headAt :: [] := by
      rw [third.headers, second.headers, first.headers]
      rfl
    show headAt ∈ three.headers ∧ nextAt ∈ three.headers ∧ tailAt ∈ three.headers
    rw [headers]
    simp
  · show (((three.setHeader headAt _).setHeader nextAt _).setHeader tailAt _ |>.header tailAt).ptr = _
    rw [setHeader_ptr, if_pos rfl]

/-- What is known before a request. -/
def Prepared (arena : Arena) : Prop := arena = .initial ∨ Laid arena

theorem Prepared.prepare_ensures (prepared : Prepared arena) :
    Ensures prepare arena fun _ next => Laid next ∧ ∀ p ∈ arena.headers, p ∈ next.headers := by
  rcases prepared with rfl | laid
  · refine Malloc.prepare_ensures.mono fun _ next laid => ⟨laid, fun p mem => ?_⟩
    exact absurd mem List.not_mem_nil
  · apply ensures_get
    obtain ⟨head, node, -⟩ := laid.node
    rw [if_neg (by simp [node])]
    exact .pure ⟨laid, fun _ mem => mem⟩

/-! ## The end of the list -/

/-- The node, the pointers of the first two headers and the headers made are as
they were. -/
structure Anchored (arena next : Arena) : Prop where
  node : next.node = arena.node
  headers : next.headers = arena.headers
  headPtr : (next.header headAt).ptr = (arena.header headAt).ptr
  nextPtr : (next.header nextAt).ptr = (arena.header nextAt).ptr

theorem Anchored.of_same (same : SamePointers arena next) :
    Anchored arena next := ⟨same.node, same.headers, same.ptr _, same.ptr _⟩

theorem Anchored.trans (first : Anchored arena middle)
    (second : Anchored middle next) : Anchored arena next := by
  constructor
  · exact second.node.trans first.node
  · exact second.headers.trans first.headers
  · exact second.headPtr.trans first.headPtr
  · exact second.nextPtr.trans first.nextPtr

theorem Anchored.setHeader (past : tailAt ≤ p) (header : Header) :
    Anchored arena (arena.setHeader p header) := by
  have differ1 : headAt ≠ p := by simp only [headAt, tailAt] at past ⊢; omega
  have differ2 : nextAt ≠ p := by simp only [nextAt, tailAt] at past ⊢; omega
  refine ⟨rfl, rfl, ?_, ?_⟩
  · rw [setHeader_ptr, if_neg differ1]
  · rw [setHeader_ptr, if_neg differ2]

theorem ensures_setPtr_past (past : tailAt ≤ p) (ptr : Nat) :
    Ensures (setPtr p ptr) arena fun _ next => Anchored arena next := by
  refine (ensures_setPtr p ptr).mono fun _ next written => ?_
  obtain ⟨size, rfl⟩ := written
  exact .setHeader past _

theorem tailAt_lt_coreAt : tailAt < coreAt := by
  simp [tailAt, coreAt]

theorem findPlace_ensures (fuel : Nat) (null : (arena.header tailAt).ptr = 0) :
    Ensures (findPlace fuel coreAt tailAt) arena fun p next => p = tailAt ∧ next = arena := by
  cases fuel with
  | zero => exact Ensures.throw
  | succ fuel =>
    refine ensures_load fun _ => ?_
    rw [null, if_neg (by simp), if_pos ⟨Nat.zero_le _, .inl tailAt_lt_coreAt⟩]
    exact .pure ⟨rfl, rfl⟩

/-- `free` of the header of `morecore`, while the list ends at `tail`. -/
theorem free_ensures (fuel : Nat) (freep : arena.freep = tailAt)
    (null : (arena.header tailAt).ptr = 0) :
    Ensures (free fuel coreAt) arena fun _ next => Anchored arena next ∧ next.freep = tailAt := by
  apply ensures_get
  rw [freep]
  refine (findPlace_ensures fuel null).bind fun p same found => ?_
  obtain ⟨rfl, rfl⟩ := found
  have behind : Ensures (if (coreAt + (same.header coreAt).size * headerSize) % 2 ^ 64 =
      (same.header tailAt).ptr then do
        let following ← load (same.header tailAt).ptr
        setSize coreAt ((same.header coreAt).size + following.size)
        setPtr coreAt following.ptr
      else setPtr coreAt (same.header tailAt).ptr) same fun _ next => Anchored same next := by
    split
    · rw [null]
      exact ensures_load fun nonnull => absurd rfl nonnull
    · exact ensures_setPtr_past (Nat.le_of_lt tailAt_lt_coreAt) _
  refine behind.bind fun _ middle first => ensures_load fun _ => ensures_load fun _ => ?_
  have before : Ensures (if (tailAt + (middle.header tailAt).size * headerSize) % 2 ^ 64 = coreAt
      then do
        setSize tailAt ((middle.header tailAt).size + (middle.header coreAt).size)
        setPtr tailAt (middle.header coreAt).ptr
      else setPtr tailAt coreAt) middle fun _ next => Anchored middle next := by
    split
    · refine (ensures_setSize _ _).bind fun _ sized same => ?_
      exact (ensures_setPtr_past (Nat.le_refl _) _).mono fun _ next second =>
        (Anchored.of_same same.2.1).trans second
    · exact ensures_setPtr_past (Nat.le_refl _) _
  refine before.bind fun _ last second => ?_
  exact (ensures_setFreep tailAt).mono fun _ next third =>
    ⟨(first.trans second).trans (.of_same third.1), third.2⟩

theorem Laid.morecore_ensures (laid : Laid arena) (fuel nu : Nat)
    (freep : arena.freep = tailAt) (null : (arena.header tailAt).ptr = 0) :
    Ensures (morecore fuel nu) arena fun more next => more = tailAt ∧
      next.node = arena.node ∧ next.headers = coreAt :: arena.headers ∧
      (next.header headAt).ptr = nextAt ∧ (next.header nextAt).ptr = tailAt := by
  have index : arena.memoryIndex = 72 := by
    rcases laid.core with ⟨-, index⟩ | ⟨self, -⟩
    · exact index
    · have positive := memory_pos
      rw [null, tailAt] at self
      omega
  have allocated : Ensures (allocation (max nu 4096 * headerSize % 2 ^ 64)) arena fun hp next =>
      hp ≠ 0 → hp = coreAt ∧ ∃ i, next = { arena with memoryIndex := i } := by
    apply ensures_get
    split
    · exact .pure fun nonnull => absurd rfl nonnull
    · refine .of_returns ⟨_, _, rfl, fun _ => ⟨?_, _, rfl⟩⟩
      rw [index]
      rfl
  refine allocated.bind fun hp taken first => ?_
  refine (ensures_setSize hp _).bind fun _ sized second => ensures_modify ?_
  obtain ⟨nonnull, same, kept⟩ := second
  obtain ⟨rfl, i, rfl⟩ := first nonnull
  have stillNull : (sized.header tailAt).ptr = 0 := (same.ptr tailAt).trans null
  have freed : Ensures (free fuel coreAt) { sized with headers := coreAt :: sized.headers } _ :=
    free_ensures fuel (kept.trans freep) stillNull
  refine freed.bind fun _ last third => ?_
  obtain ⟨anchored, now⟩ := third
  refine ensures_get (.pure ⟨now, anchored.node.trans same.node, ?_, ?_, ?_⟩)
  · rw [anchored.headers]
    rw [same.headers]
  · exact anchored.headPtr.trans ((same.ptr headAt).trans laid.headPtr)
  · exact anchored.nextPtr.trans ((same.ptr nextAt).trans laid.nextPtr)

/-- `malloc` keeps the layout and hands out the bytes behind a header. -/
theorem Prepared.malloc_ensures (prepared : Prepared arena) (fuel nbytes : Nat) :
    Ensures (malloc fuel nbytes) arena fun address next =>
      Laid next ∧ (∀ p ∈ arena.headers, p ∈ next.headers) ∧ OnHeader next address := by
  refine prepared.prepare_ensures.bind fun _ ready after => ?_
  obtain ⟨laid, kept⟩ := after
  refine (laid.search_ensures fuel _).bind fun found searched result => ?_
  obtain ⟨searchedLaid, searchedHeaders, result⟩ := result
  rw [← searchedHeaders] at kept
  cases found with
  | some address => exact .pure ⟨searchedLaid, kept, result⟩
  | none =>
    refine ensures_getNode searchedLaid fun head node place => ?_
    refine (ensures_setFreep tailAt).bind fun _ pointed set => ?_
    obtain ⟨same, freep⟩ := set
    have null : (pointed.header tailAt).ptr = 0 := (same.ptr tailAt).trans result
    refine ((searchedLaid.of_same same).morecore_ensures fuel _ freep null).bind
      fun more last after => ?_
    obtain ⟨rfl, lastNode, headers, headPtr, nextPtr⟩ := after
    refine (ensures_setPtr tailAt tailAt).bind fun _ final written => ?_
    obtain ⟨size, rfl⟩ := written
    have made := (searchedLaid.of_same same).made
    have anchored : Anchored last (last.setHeader tailAt ⟨tailAt, size⟩) :=
      .setHeader (Nat.le_refl _) _
    refine .pure ⟨⟨⟨head, ?_, place⟩, anchored.headPtr.trans headPtr,
      anchored.nextPtr.trans nextPtr, ?_, .inr ⟨?_, ?_⟩⟩, fun p mem => ?_, .inr (.inr rfl), ?_⟩
    · exact lastNode.trans (same.node.trans node)
    · show headAt ∈ last.headers ∧ nextAt ∈ last.headers ∧ tailAt ∈ last.headers
      rw [headers]
      simp [made]
    · rw [setHeader_ptr, if_pos rfl]
    · show coreAt ∈ last.headers
      rw [headers]
      exact List.mem_cons_self
    · show p ∈ last.headers
      rw [headers, same.headers]
      exact List.mem_cons_of_mem _ (kept p mem)
    · show coreAt ∈ last.headers
      rw [headers]
      exact List.mem_cons_self

/-! ## Sequences of requests -/

/-- The byte `a` lies in the block. -/
def Block.Covers (block : Block) (a : Nat) : Prop :=
  block.address ≤ a ∧ a < block.address + block.nbytes

/-- The block lies inside `memory`, apart from the node and from every header. -/
structure Block.Free (block : Block) (arena : Arena) : Prop where
  low : Linked.memory ≤ block.address
  high : block.address + block.nbytes ≤ Linked.memory + alloc
  node : ∀ address node, arena.node = some (address, node) →
    ∀ a, block.Covers a → ¬(address ≤ a ∧ a < address + nodeSize)
  header : ∀ p ∈ arena.headers, ∀ a, block.Covers a → ¬(p ≤ a ∧ a < p + headerSize)

/-- Every block handed out is free to use, and no two of them overlap. -/
structure WellPlaced (heap : Heap) : Prop where
  free : ∀ block ∈ heap.blocks, block.Free heap.arena
  apart : heap.blocks.Pairwise fun first second => ∀ a, first.Covers a → ¬second.Covers a

/-- What is known between the requests. -/
structure HeapSound (heap : Heap) : Prop where
  prepared : Prepared heap.arena
  onHeader : ∀ block ∈ heap.blocks, OnHeader heap.arena block.address

theorem HeapSound.step (sound : HeapSound heap)
    (request : Request heap nbytes next) : HeapSound next := by
  obtain ⟨-, fuel, address, arena, ran, rfl⟩ := request
  obtain ⟨laid, kept, on⟩ := sound.prepared.malloc_ensures fuel nbytes _ _ ran
  have stays : ∀ old ∈ heap.blocks, OnHeader arena old.address := by
    intro old inOld
    obtain ⟨place, made⟩ := sound.onHeader old inOld
    exact ⟨place, kept _ made⟩
  refine ⟨.inr laid, ?_⟩
  dsimp only
  split
  · exact stays
  · exact List.forall_mem_cons.mpr ⟨on, stays⟩

theorem heapSound_of_runs (run : system.Runs start requests heap) : HeapSound heap := by
  refine TransitionSystem.Runs.invariant ?_ (fun sound step => sound.step step) run
  rintro start rfl
  exact ⟨.inl rfl, fun block mem => absurd mem List.not_mem_nil⟩

theorem not_free_of_onHeader {block : Block} (on : OnHeader arena block.address)
    (nonempty : 0 < block.nbytes) : ¬block.Free arena := by
  intro free
  refine free.header block.address on.2 block.address ⟨Nat.le_refl _, by omega⟩ ⟨Nat.le_refl _, ?_⟩
  simp [headerSize]

theorem free_of_empty {block : Block} (on : OnHeader arena block.address)
    (empty : block.nbytes = 0) : block.Free arena := by
  have nothing (a : Nat) : ¬block.Covers a := by
    rintro ⟨low, high⟩
    omega
  constructor
  · rcases on.1 with same | same | same <;> simp [same, nextAt, tailAt, coreAt]
  · rcases on.1 with same | same | same <;> simp [same, nextAt, tailAt, coreAt, empty, alloc]
  · exact fun _ _ _ a covers => absurd covers (nothing a)
  · exact fun _ _ a covers => absurd covers (nothing a)

/-- After every sequence of requests the blocks are well placed if and only if
none of them has a byte. -/
theorem wellPlaced_iff_empty {start heap : Heap} {requests : List Nat}
    (run : system.Runs start requests heap) :
    WellPlaced heap ↔ ∀ block ∈ heap.blocks, block.nbytes = 0 := by
  have sound := heapSound_of_runs run
  constructor
  · intro placed block member
    by_contra nonempty
    exact not_free_of_onHeader (sound.onHeader block member) (Nat.pos_of_ne_zero nonempty)
      (placed.free block member)
  intro empty
  refine ⟨fun block member => free_of_empty (sound.onHeader block member) (empty block member),
    ?_⟩
  refine List.Pairwise.imp_of_mem ?_ (List.pairwise_of_forall fun _ _ => trivial)
  rintro first second inFirst - - a ⟨low, high⟩
  have none := empty first inFirst
  omega

end Linked

/-- The static array at some address of the kernel image. -/
@[reducible] def someImage : Linked := ⟨0x80010000, by decide, by decide⟩

theorem firstRequest (nbytes address : Nat) (small : nbytes < 2 ^ 64) (nonnull : address ≠ 0)
    (returned : ((@malloc someImage 1 nbytes).run .initial).toOption.map Prod.fst = some address) :
    ∃ heap, (@system someImage).Runs ⟨.initial, []⟩ [nbytes] heap ∧
      heap.blocks = [⟨nbytes, address⟩] := by
  obtain ⟨pair, ran, first⟩ := Option.map_eq_some_iff.mp returned
  have run : (@malloc someImage 1 nbytes).run .initial = .ok (address, pair.2) := by
    cases outcome : (@malloc someImage 1 nbytes).run .initial with
    | error halt => simp [outcome, Except.toOption] at ran
    | ok result =>
      simp only [outcome, Except.toOption, Option.some.injEq] at ran
      rw [ran, ← first]
  have start : (@system someImage).Runs ⟨.initial, []⟩ [] ⟨.initial, []⟩ := .initial rfl
  refine ⟨⟨pair.2, [⟨nbytes, address⟩]⟩, start.step ⟨small, 1, address, pair.2, run, ?_⟩, rfl⟩
  rw [if_neg nonnull]

theorem wellPlaced_firstEmpty : ∃ heap, (@system someImage).Runs ⟨.initial, []⟩ [0] heap ∧
    (@WellPlaced someImage heap ↔ ∀ block ∈ heap.blocks, block.nbytes = 0) := by
  obtain ⟨heap, run, -⟩ := firstRequest 0 0x80010038 (by decide) (by decide)
    (by decide +kernel)
  exact ⟨heap, run, @wellPlaced_iff_empty someImage _ _ _ run⟩

/-- The block of the very first request lies on the header `tail`. -/
theorem firstByte_onTail : ∃ heap, (@system someImage).Runs ⟨.initial, []⟩ [1] heap ∧
    ¬@WellPlaced someImage heap := by
  obtain ⟨heap, run, blocks⟩ := firstRequest 1 0x80010038 (by decide) (by decide)
    (by decide +kernel)
  refine ⟨heap, run, fun placed => ?_⟩
  have member : (⟨1, 0x80010038⟩ : Block) ∈ heap.blocks := by
    rw [blocks]
    exact List.mem_singleton_self _
  let _ := someImage
  have sound := heapSound_of_runs run
  exact not_free_of_onHeader (sound.onHeader _ member) (by decide) (placed.free _ member)

end Xv6.Malloc
