import Mathlib.Algebra.BigOperators.Group.Finset.Basic
import Mathlib.Algebra.Order.Group.Multiset
import Mathlib.Data.Multiset.UnionInter

/-!
# Radix trees kept in a store

A node is an array of `fanout` words. Above level 0 a word may point to a node
one level down; at level 0 the words are the values of the tree. The digits of
a key select the word to follow at each level, so a tree of level `l` maps keys
below `fanout ^ (l + 1)` to words.

The nodes of a tree are counted with multiplicity: a tree is a proper tree when
no node occurs twice, and then a change below one word of a node leaves what
lies below its other words alone.
-/

namespace Xv6.Semantics.Radix

universe u v

/-- How the words of a node are read. -/
structure Format (Node : Type u) (Word : Type v) where
  fanout : Nat
  fanout_pos : 0 < fanout
  /-- The word of a node that has just been created. -/
  empty : Word
  /-- Whether a word is in use. -/
  valid : Word → Bool
  /-- The node a word points to. -/
  child : Word → Option Node
  valid_empty : valid empty = false
  valid_of_child : ∀ {word node}, child word = some node → valid word = true

namespace Format

variable {Node : Type u} {Word : Type v} (format : Format Node Word)
  (store : Node → Nat → Word)

theorem child_empty : format.child format.empty = none := by
  cases points : format.child format.empty with
  | none => rfl
  | some node => simpa [format.valid_empty] using format.valid_of_child points

/-- The digit of a key that selects the word to follow in a node of the given level. -/
def digit (level key : Nat) : Nat := key / format.fanout ^ level % format.fanout

theorem digit_lt (level key : Nat) : format.digit level key < format.fanout :=
  Nat.mod_lt _ format.fanout_pos

/-- The nodes of the tree below a node, with multiplicity. -/
def nodes : Nat → Node → Multiset Node
  | 0, node => {node}
  | level + 1, node =>
    node ::ₘ ∑ i ∈ Finset.range format.fanout,
      (format.child (store node i)).elim 0 (nodes level)

/-- The nodes below one word of a node. -/
def below (level : Nat) (word : Word) : Multiset Node :=
  (format.child word).elim 0 (format.nodes store level)

/-- A node and what lies below its words other than the one at `d`. -/
def others (level : Nat) (node : Node) (d : Nat) : Multiset Node :=
  node ::ₘ ∑ i ∈ (Finset.range format.fanout).erase d, format.below store level (store node i)

/-- The node of level 0 that holds the value of a key, where the path to it exists. -/
def slot : Nat → Node → Nat → Option Node
  | 0, node, _ => some node
  | level + 1, node, key =>
    (format.child (store node (format.digit (level + 1) key))).bind fun next =>
      slot level next key

/-- The word of a key; a key without a path has the empty word. -/
def leaf (level : Nat) (node : Node) (key : Nat) : Word :=
  match format.slot store level node key with
  | none => format.empty
  | some last => store last (key % format.fanout)

/-- Words point to nodes exactly above level 0, wherever they are in use. -/
def Shaped : Nat → Node → Prop
  | 0, node => ∀ i < format.fanout, format.child (store node i) = none
  | level + 1, node =>
    ∀ i < format.fanout, format.valid (store node i) = true →
      ∃ next, format.child (store node i) = some next ∧ Shaped level next

/-- Words that are in use point to nodes above level 0; those of level 0 may be anything. -/
def Linked : Nat → Node → Prop
  | 0, _ => True
  | level + 1, node =>
    ∀ i < format.fanout, format.valid (store node i) = true →
      ∃ next, format.child (store node i) = some next ∧ Linked level next

variable {format store} {word : Word}

theorem below_of_child (points : format.child word = some next) :
    format.below store level word = format.nodes store level next := by
  simp [below, points]

theorem below_of_none (points : format.child word = none) :
    format.below store level word = 0 := by
  simp [below, points]

theorem self_mem_nodes (level : Nat) (node : Node) : node ∈ format.nodes store level node := by
  cases level with
  | zero => exact Multiset.mem_singleton_self node
  | succ level => exact Multiset.mem_cons_self node _

theorem nodes_split (bound : d < format.fanout) :
    format.nodes store (level + 1) node =
      format.others store level node d + format.below store level (store node d) := by
  have mem : d ∈ Finset.range format.fanout := Finset.mem_range.mpr bound
  rw [others, Multiset.cons_add, Finset.sum_erase_add _ _ mem]
  rfl

section

variable (bound : i < format.fanout)
include bound

theorem below_le_others (differ : i ≠ d) :
    format.below store level (store node i) ≤ format.others store level node d := by
  have mem : i ∈ (Finset.range format.fanout).erase d :=
    Finset.mem_erase.mpr ⟨differ, Finset.mem_range.mpr bound⟩
  refine le_trans ?_ (Multiset.le_cons_self _ _)
  rw [← Finset.add_sum_erase _ _ mem]
  exact Multiset.le_add_right _ _

theorem below_le_nodes :
    format.below store level (store node i) ≤ format.nodes store (level + 1) node := by
  rw [nodes_split bound]
  exact Multiset.le_add_left _ _

/-- Where no node occurs twice, the root is not below any of its words. -/
theorem self_notMem_below (distinct : (format.nodes store (level + 1) node).Nodup) :
    node ∉ format.below store level (store node i) := by
  rw [nodes_split bound, others, Multiset.cons_add, Multiset.nodup_cons] at distinct
  exact fun mem => distinct.1 (Multiset.mem_add.mpr (.inr mem))

theorem nodup_below (distinct : (format.nodes store (level + 1) node).Nodup) :
    (format.below store level (store node i)).Nodup :=
  Multiset.nodup_of_le (below_le_nodes bound) distinct

theorem nodup_of_child (distinct : (format.nodes store (level + 1) node).Nodup)
    (points : format.child (store node i) = some next) : (format.nodes store level next).Nodup := by
  have inside := nodup_below bound distinct
  rwa [below_of_child points] at inside

end

theorem notMem_others_of_mem_below {other : Node}
    (bound : d < format.fanout) (distinct : (format.nodes store (level + 1) node).Nodup)
    (mem : other ∈ format.below store level (store node d)) :
    other ∉ format.others store level node d := by
  rw [nodes_split bound, Multiset.nodup_add] at distinct
  exact fun inOthers => Multiset.disjoint_left.mp distinct.2.2 inOthers mem

/-! ## Stores that agree on a tree -/

section Congruence

variable {changed : Node → Nat → Word}

/-- The nodes of a tree are determined by what the store holds at them. -/
theorem nodes_congr (agree : ∀ other ∈ format.nodes store level node, changed other = store other) :
    format.nodes changed level node = format.nodes store level node := by
  induction level generalizing node with
  | zero => rfl
  | succ level ih =>
    have root : changed node = store node := agree node (self_mem_nodes _ _)
    simp only [nodes, root]
    congr 1
    refine Finset.sum_congr rfl fun i mem => ?_
    cases points : format.child (store node i) with
    | none => rfl
    | some next =>
      refine ih fun other inside => agree other ?_
      refine Multiset.mem_of_le (below_le_nodes (Finset.mem_range.mp mem)) ?_
      rwa [below_of_child points]

theorem below_congr (agree : ∀ other ∈ format.below store level word, changed other = store other) :
    format.below changed level word = format.below store level word := by
  cases points : format.child word with
  | none => rw [below_of_none points, below_of_none points]
  | some next =>
    rw [below_of_child points] at agree ⊢
    rw [below_of_child points, nodes_congr agree]

theorem slot_congr
    (agree : ∀ other ∈ format.nodes store level node, changed other = store other) (key : Nat) :
    format.slot changed level node key = format.slot store level node key := by
  induction level generalizing node with
  | zero => rfl
  | succ level ih =>
    have root : changed node = store node := agree node (self_mem_nodes _ _)
    simp only [slot, root]
    cases points : format.child (store node (format.digit (level + 1) key)) with
    | none => rfl
    | some next =>
      refine ih fun other inside => agree other ?_
      refine Multiset.mem_of_le (below_le_nodes (format.digit_lt (level + 1) key)) ?_
      rwa [below_of_child points]

theorem slot_mem_nodes {last : Node} {key : Nat}
    (reached : format.slot store level node key = some last) :
    last ∈ format.nodes store level node := by
  induction level generalizing node with
  | zero =>
    cases reached
    exact self_mem_nodes 0 _
  | succ level ih =>
    obtain ⟨next, points, continued⟩ := Option.bind_eq_some_iff.mp reached
    apply Multiset.mem_of_le (below_le_nodes (format.digit_lt (level + 1) key))
    rw [below_of_child points]
    exact ih continued

theorem leaf_congr
    (agree : ∀ other ∈ format.nodes store level node, changed other = store other) (key : Nat) :
    format.leaf changed level node key = format.leaf store level node key := by
  simp only [leaf, slot_congr agree key]
  cases reached : format.slot store level node key with
  | none => rfl
  | some last => exact congrFun (agree last (slot_mem_nodes reached)) _

theorem linked_congr (agree : ∀ other ∈ format.nodes store level node, changed other = store other)
    (linked : format.Linked store level node) : format.Linked changed level node := by
  induction level generalizing node with
  | zero => trivial
  | succ level ih =>
    intro i bound used
    rw [agree node (self_mem_nodes _ _)] at used ⊢
    obtain ⟨next, points, continued⟩ := linked i bound used
    refine ⟨next, points, ih (fun other inside => agree other ?_) continued⟩
    apply Multiset.mem_of_le (below_le_nodes bound)
    rwa [below_of_child points]

end Congruence

/-! ## Changes below one word -/

/-- The stores differ, in the tree of `node`, only below its word at `d`. -/
structure Grafts (format : Format Node Word) (store changed : Node → Nat → Word) (level : Nat)
    (node : Node) (d : Nat) : Prop where
  entries : ∀ i, i ≠ d → changed node i = store node i
  nodes : ∀ other ∈ format.others store level node d, other ≠ node →
    changed other = store other

namespace Grafts

variable {changed : Node → Nat → Word} {level : Nat} {node : Node} {d : Nat}

section

variable (grafts : format.Grafts store changed level node d)
  (distinct : (format.nodes store (level + 1) node).Nodup)
include grafts distinct

theorem agree_below (bound : i < format.fanout) (differ : i ≠ d) :
    ∀ other ∈ format.below store level (store node i), changed other = store other := by
  intro other mem
  apply grafts.nodes other (Multiset.mem_of_le (below_le_others bound differ) mem)
  rintro rfl
  exact self_notMem_below bound distinct mem

theorem nodes_eq (bound : d < format.fanout) :
    format.nodes changed (level + 1) node =
      format.others store level node d + format.below changed level (changed node d) := by
  rw [nodes_split bound]
  congr 1
  simp only [others]
  congr 1
  refine Finset.sum_congr rfl fun i mem => ?_
  obtain ⟨differ, inRange⟩ := Finset.mem_erase.mp mem
  rw [grafts.entries i differ]
  exact below_congr (grafts.agree_below distinct (Finset.mem_range.mp inRange) differ)

theorem slot_of_ne {key : Nat} (differ : format.digit (level + 1) key ≠ d) :
    format.slot changed (level + 1) node key = format.slot store (level + 1) node key := by
  have agree := grafts.agree_below distinct (format.digit_lt (level + 1) key) differ
  simp only [slot, grafts.entries _ differ]
  cases points : format.child (store node (format.digit (level + 1) key)) with
  | none => rfl
  | some next =>
    rw [below_of_child points] at agree
    exact slot_congr agree key

theorem leaf_of_ne {key : Nat} (differ : format.digit (level + 1) key ≠ d) :
    format.leaf changed (level + 1) node key = format.leaf store (level + 1) node key := by
  have agree := grafts.agree_below distinct (format.digit_lt (level + 1) key) differ
  simp only [leaf, grafts.slot_of_ne distinct differ]
  cases reached : format.slot store (level + 1) node key with
  | none => rfl
  | some last =>
    obtain ⟨next, points, continued⟩ := Option.bind_eq_some_iff.mp reached
    rw [below_of_child points] at agree
    exact congrFun (agree last (slot_mem_nodes continued)) _

theorem linked (before : format.Linked store (level + 1) node)
    (points : format.child (changed node d) = some next) (inside : format.Linked changed level next) :
    format.Linked changed (level + 1) node := by
  intro i bound used
  rcases eq_or_ne i d with rfl | differ
  · exact ⟨next, points, inside⟩
  rw [grafts.entries i differ] at used ⊢
  obtain ⟨other, otherPoints, continued⟩ := before i bound used
  have agree := grafts.agree_below distinct bound differ
  rw [below_of_child otherPoints] at agree
  exact ⟨other, otherPoints, linked_congr agree continued⟩

end

end Grafts

theorem slot_of_child {key : Nat}
    (points : format.child (store node (format.digit (level + 1) key)) = some next) :
    format.slot store (level + 1) node key = format.slot store level next key := by
  simp [slot, points]

theorem leaf_of_child {key : Nat}
    (points : format.child (store node (format.digit (level + 1) key)) = some next) :
    format.leaf store (level + 1) node key = format.leaf store level next key := by
  simp [leaf, slot_of_child points]

theorem leaf_of_none {key : Nat}
    (points : format.child (store node (format.digit (level + 1) key)) = none) :
    format.leaf store (level + 1) node key = format.empty := by
  simp [leaf, slot, points]

/-- A node whose words are all empty is a tree of any level without keys. -/
theorem nodes_of_empty (cleared : ∀ i, store node i = format.empty) (level : Nat) :
    format.nodes store level node = {node} := by
  cases level with
  | zero => rfl
  | succ level => simp [nodes, cleared, child_empty]

theorem leaf_of_empty (cleared : ∀ i, store node i = format.empty) (level key : Nat) :
    format.leaf store level node key = format.empty := by
  cases level with
  | zero => simp [leaf, slot, cleared]
  | succ level => exact leaf_of_none (by rw [cleared, child_empty])

theorem linked_of_empty (cleared : ∀ i, store node i = format.empty)
    (level : Nat) : format.Linked store level node := by
  cases level with
  | zero => trivial
  | succ level =>
    intro i _ used
    simp [cleared, format.valid_empty] at used

/-! ## Words that point to nodes exactly above level 0 -/

/-- The digits of a key up to a level, taken apart at the first of them. -/
theorem mod_pow_eq_digit (format : Format Node Word) (level key : Nat) :
    key % format.fanout ^ (level + 2) = key % format.fanout ^ (level + 1) +
      format.fanout ^ (level + 1) * format.digit (level + 1) key :=
  Nat.mod_pow_succ

theorem digit_eq_of_mod_eq {key other : Nat}
    (same : key % format.fanout ^ (level + 2) = other % format.fanout ^ (level + 2)) :
    format.digit (level + 1) key = format.digit (level + 1) other := by
  have positive : 0 < format.fanout ^ (level + 1) := Nat.pow_pos format.fanout_pos
  have keyDigit := congrArg (· / format.fanout ^ (level + 1))
    (mod_pow_eq_digit format level key)
  have otherDigit := congrArg (· / format.fanout ^ (level + 1))
    (mod_pow_eq_digit format level other)
  simp only [Nat.add_mul_div_left _ _ positive,
    Nat.div_eq_of_lt (Nat.mod_lt _ positive), Nat.zero_add] at keyDigit otherDigit
  rw [← keyDigit, ← otherDigit, same]

theorem leaf_eq_of_mod_eq {key other : Nat}
    (same : key % format.fanout ^ (level + 1) = other % format.fanout ^ (level + 1)) :
    format.leaf store level node key = format.leaf store level node other := by
  induction level generalizing node with
  | zero =>
    rw [Nat.zero_add, pow_one] at same
    simp only [leaf, slot, same]
  | succ level ih =>
    have digits := digit_eq_of_mod_eq same
    have lower : key % format.fanout ^ (level + 1) = other % format.fanout ^ (level + 1) := by
      rw [mod_pow_eq_digit, mod_pow_eq_digit, digits] at same
      exact Nat.add_right_cancel same
    cases points : format.child (store node (format.digit (level + 1) key)) with
    | none => rw [leaf_of_none points, leaf_of_none (digits ▸ points)]
    | some next =>
      rw [leaf_of_child points, leaf_of_child (digits ▸ points)]
      exact ih lower

theorem child_leaf (shaped : format.Shaped store level node)
    (key : Nat) : format.child (format.leaf store level node key) = none := by
  induction level generalizing node with
  | zero => exact shaped _ (Nat.mod_lt _ format.fanout_pos)
  | succ level ih =>
    cases points : format.child (store node (format.digit (level + 1) key)) with
    | none => rw [leaf_of_none points, child_empty]
    | some next =>
      obtain ⟨found, foundPoints, inside⟩ :=
        shaped _ (format.digit_lt (level + 1) key) (format.valid_of_child points)
      obtain rfl : found = next := Option.some_injective _ (foundPoints.symm.trans points)
      rw [leaf_of_child points]
      exact ih inside

theorem Shaped.linked (shaped : format.Shaped store level node) :
    format.Linked store level node := by
  induction level generalizing node with
  | zero => trivial
  | succ level ih =>
    intro i bound used
    obtain ⟨next, points, continued⟩ := shaped i bound used
    exact ⟨next, points, ih continued⟩

/-- The shape of a tree is a matter of its links and of the words of its keys. -/
theorem shaped_of_linked (linked : format.Linked store level node)
    (values : ∀ key, format.child (format.leaf store level node key) = none) :
    format.Shaped store level node := by
  induction level generalizing node with
  | zero =>
    intro i bound
    have value := values i
    simp only [leaf, slot, Nat.mod_eq_of_lt bound] at value
    exact value
  | succ level ih =>
    intro i bound used
    obtain ⟨next, points, continued⟩ := linked i bound used
    refine ⟨next, points, ih continued fun key => ?_⟩
    -- A key with the digit `i` and the lower digits of `key`.
    let through := key % format.fanout ^ (level + 1) + format.fanout ^ (level + 1) * i
    have positive : 0 < format.fanout ^ (level + 1) := Nat.pow_pos format.fanout_pos
    have digit : format.digit (level + 1) through = i := by
      rw [Format.digit, Nat.add_mul_div_left _ _ positive,
        Nat.div_eq_of_lt (Nat.mod_lt _ positive), Nat.zero_add, Nat.mod_eq_of_lt bound]
    have lower : through % format.fanout ^ (level + 1) = key % format.fanout ^ (level + 1) := by
      rw [Nat.add_mul_mod_self_left, Nat.mod_mod]
    have value := values through
    rw [← digit] at points
    rw [leaf_of_child points, leaf_eq_of_mod_eq lower] at value
    exact value

theorem shaped_congr {changed : Node → Nat → Word}
    (agree : ∀ other ∈ format.nodes store level node, changed other = store other)
    (shaped : format.Shaped store level node) : format.Shaped changed level node := by
  apply shaped_of_linked (linked_congr agree shaped.linked)
  intro key
  rw [leaf_congr agree key]
  exact child_leaf shaped key

theorem shaped_of_empty (cleared : ∀ i, store node i = format.empty)
    (level : Nat) : format.Shaped store level node := by
  apply shaped_of_linked (linked_of_empty cleared level)
  intro key
  rw [leaf_of_empty cleared, child_empty]

/-! ## Writing the word of a key -/

section Write

variable [DecidableEq Node]

/-- Replace one word of the store. -/
def write (store : Node → Nat → Word) (node : Node) (i : Nat) (word : Word) :
    Node → Nat → Word := fun other =>
  if other = node then fun j => if j = i then word else store node j else store other

theorem write_of_ne {other : Node} (differ : other ≠ node) :
    write store node i word other = store other :=
  if_neg differ

theorem write_self :
    write store node i word node = Function.update (store node) i word := by
  ext j
  rw [write, if_pos rfl, Function.update_apply]

variable {node last : Node} {key : Nat}

variable {i : Nat}

variable {node : Node}

variable {level : Nat} {next : Node}

section

variable (distinct : (format.nodes store (level + 1) node).Nodup)
  (points : format.child (store node (format.digit (level + 1) key)) = some next)
  (reached : format.slot store level next key = some last)
include distinct points reached

/-- A word of level 0 lies below one word of every node on its path. -/
theorem grafts_write :
    format.Grafts store (write store last (key % format.fanout) word) level node
      (format.digit (level + 1) key) := by
  have bound := format.digit_lt (level + 1) key
  have inside : last ∈ format.below store level (store node (format.digit (level + 1) key)) := by
    rw [below_of_child points]
    exact slot_mem_nodes reached
  constructor
  · intro i _
    rw [write_of_ne]
    rintro rfl
    exact self_notMem_below bound distinct inside
  · intro other mem _
    rw [write_of_ne]
    rintro rfl
    exact notMem_others_of_mem_below bound distinct inside mem

theorem write_root : write store last i word node = store node := by
  apply write_of_ne
  rintro rfl
  apply self_notMem_below (format.digit_lt (level + 1) key) distinct
  rw [below_of_child points]
  exact slot_mem_nodes reached

end

section

variable (distinct : (format.nodes store level node).Nodup)
  (reached : format.slot store level node key = some last)
include distinct reached

theorem nodes_write :
    format.nodes (write store last (key % format.fanout) word) level node =
      format.nodes store level node := by
  induction level generalizing node with
  | zero => rfl
  | succ level ih =>
    obtain ⟨next, points, continued⟩ := Option.bind_eq_some_iff.mp reached
    have bound := format.digit_lt (level + 1) key
    have grafts : format.Grafts store (write store last (key % format.fanout) word) level node
        (format.digit (level + 1) key) := grafts_write distinct points continued
    rw [grafts.nodes_eq distinct bound, nodes_split bound, write_root distinct points continued,
      below_of_child points, below_of_child points,
      ih (nodup_of_child bound distinct points) continued]

theorem leaf_write (other : Nat) :
    format.leaf (write store last (key % format.fanout) word) level node other =
      if other % format.fanout ^ (level + 1) = key % format.fanout ^ (level + 1) then word
      else format.leaf store level node other := by
  induction level generalizing node with
  | zero =>
    cases reached
    simp [leaf, slot, write_self, Function.update_apply]
  | succ level ih =>
    obtain ⟨next, points, continued⟩ := Option.bind_eq_some_iff.mp reached
    have bound := format.digit_lt (level + 1) key
    by_cases same : format.digit (level + 1) other = format.digit (level + 1) key
    · have otherPoints : format.child (store node (format.digit (level + 1) other)) =
          some next := by rw [same, points]
      have changedPoints : format.child (write store last (key % format.fanout) word node
          (format.digit (level + 1) other)) = some next := by
        rw [write_root distinct points continued, otherPoints]
      rw [leaf_of_child changedPoints, ih (nodup_of_child bound distinct points) continued,
        leaf_of_child otherPoints, mod_pow_eq_digit format level other,
        mod_pow_eq_digit format level key, same]
      simp only [Nat.add_right_cancel_iff]
    · rw [(grafts_write distinct points continued).leaf_of_ne distinct same, if_neg]
      exact fun equal => same (digit_eq_of_mod_eq equal)

theorem linked_write (linked : format.Linked store level node) :
    format.Linked (write store last (key % format.fanout) word) level node := by
  induction level generalizing node with
  | zero => trivial
  | succ level ih =>
    obtain ⟨next, points, continued⟩ := Option.bind_eq_some_iff.mp reached
    have bound := format.digit_lt (level + 1) key
    obtain ⟨found, foundPoints, inside⟩ := linked _ bound (format.valid_of_child points)
    obtain rfl : found = next := Option.some_injective _ (foundPoints.symm.trans points)
    have changedPoints : format.child (write store last (key % format.fanout) word node
        (format.digit (level + 1) key)) = some found := by
      rw [write_root distinct points continued, points]
    exact (grafts_write distinct points continued).linked distinct linked changedPoints
      (ih (nodup_of_child bound distinct points) continued inside)

end

end Write

end Format
end Xv6.Semantics.Radix
