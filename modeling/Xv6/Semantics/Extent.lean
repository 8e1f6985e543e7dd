import Mathlib.Algebra.Order.BigOperators.Group.List
import Mathlib.Algebra.Order.Ring.Nat
import Mathlib.Data.List.Basic

/-!
# Extents of memory in address order

An extent is a range of addresses. Cutting an extent in two and joining two
adjacent ones keep every additive measure of it: its length, and for each address
the number of extents that contain it. A list of extents in address order in which
no two are adjacent stays one when an extent is put in its place and joined with
the neighbours it touches.
-/

namespace Xv6.Semantics

/-- The addresses from `start` on, `length` of them. -/
structure Extent where
  start : Nat
  length : Nat
  deriving DecidableEq

namespace Extent

/-- The first address behind the extent. -/
def stop (extent : Extent) : Nat := extent.start + extent.length

/-- How often an extent contains an address. -/
def indicator (address : Nat) (extent : Extent) : Nat :=
  if extent.start ≤ address ∧ address < extent.stop then 1 else 0

/-- A measure that adds up when an extent is cut in two. -/
def Additive (measure : Extent → Nat) : Prop :=
  ∀ start first second,
    measure ⟨start, first + second⟩ = measure ⟨start, first⟩ + measure ⟨start + first, second⟩

/-- The measure of a list of extents. -/
def total (measure : Extent → Nat) (extents : List Extent) : Nat := (extents.map measure).sum

/-- The extents are in order and no two of them touch. -/
def Separated (extents : List Extent) : Prop :=
  extents.Pairwise fun first second => first.stop < second.start

/-- Join an extent with the first extent behind it if they touch. -/
def absorb (extent : Extent) : List Extent → Extent × List Extent
  | [] => (extent, [])
  | next :: rest =>
    if extent.stop = next.start then (⟨extent.start, extent.length + next.length⟩, rest)
    else (extent, next :: rest)

/-- Join an extent with the one before it if they touch. -/
def attach (before extent : Extent) : List Extent :=
  if before.stop = extent.start then [⟨before.start, before.length + extent.length⟩]
  else [before, extent]

/-- Put an extent between `before` and `back`, and join it with what it touches. -/
def place (front : List Extent) (before extent : Extent) (back : List Extent) : List Extent :=
  front ++ attach before (extent.absorb back).1 ++ (extent.absorb back).2

variable {measure : Extent → Nat} {extent before other : Extent}
  {extents front back : List Extent} {address : Nat}

theorem start_add_length (extent : Extent) : extent.start + extent.length = extent.stop := rfl

/-! ## Measures -/

theorem additive_length : Additive length := fun _ _ _ => rfl

theorem additive_indicator (address : Nat) : Additive (indicator address) := by
  intro start first second
  simp only [indicator, stop]
  grind

@[simp] theorem total_nil : total measure [] = 0 := rfl

@[simp] theorem total_cons :
    total measure (extent :: extents) = measure extent + total measure extents := rfl

@[simp] theorem total_append :
    total measure (front ++ back) = total measure front + total measure back := by
  simp [total]

theorem total_perm (perm : front.Perm back) : total measure front = total measure back :=
  (perm.map measure).sum_eq

theorem le_total (mem : extent ∈ extents) : measure extent ≤ total measure extents :=
  List.single_le_sum (fun _ _ => Nat.zero_le _) _ (List.mem_map_of_mem mem)

theorem add_le_total (first : extent ∈ front) (second : other ∈ back) :
    measure extent + measure other ≤ total measure (front ++ back) := by
  rw [total_append]
  exact Nat.add_le_add (le_total first) (le_total second)

theorem add_le_total_of_ne (first : extent ∈ extents) (second : other ∈ extents)
    (ne : other ≠ extent) : measure extent + measure other ≤ total measure extents := by
  rw [total_perm (List.perm_cons_erase first), total_cons]
  exact Nat.add_le_add_left (le_total ((List.mem_erase_of_ne ne).mpr second)) _

section

variable (additive : Additive measure)
include additive

theorem Additive.append (touches : extent.stop = other.start) :
    measure ⟨extent.start, extent.length + other.length⟩ = measure extent + measure other := by
  rw [additive, ← stop, touches]

theorem Additive.absorb :
    measure (extent.absorb back).1 + total measure (extent.absorb back).2 =
      measure extent + total measure back := by
  cases back with
  | nil => rfl
  | cons next rest =>
    rw [Extent.absorb]
    split
    case isTrue touches =>
      rw [additive.append touches, total_cons, Nat.add_assoc]
    case isFalse => rfl

theorem Additive.attach :
    total measure (attach before extent) = measure before + measure extent := by
  rw [Extent.attach]
  split
  case isTrue touches => simp [additive.append touches]
  case isFalse => simp

theorem Additive.place :
    total measure (place front before extent back) =
      total measure (front ++ before :: back) + measure extent := by
  have absorbed : measure (extent.absorb back).1 + total measure (extent.absorb back).2 =
      measure extent + total measure back := additive.absorb
  rw [Extent.place, total_append, total_append, additive.attach, total_append, total_cons]
  omega

theorem Additive.place_append (others : List Extent) :
    total measure (Extent.place front before extent back ++ others) =
      total measure (front ++ before :: back ++ extent :: others) := by
  rw [total_append, additive.place]
  simp only [total_append, total_cons]
  omega

end

theorem length_le_total (positive : ∀ extent ∈ extents, 0 < extent.length) :
    extents.length ≤ total length extents := by
  induction extents with
  | nil => exact le_rfl
  | cons extent extents ih =>
    have first := positive extent List.mem_cons_self
    have others := ih fun other mem =>
      positive other (List.mem_cons_of_mem _ mem)
    rw [List.length_cons, total_cons]
    omega

/-! ## Containment -/

theorem indicator_eq_one_iff :
    indicator address extent = 1 ↔ extent.start ≤ address ∧ address < extent.stop := by
  rw [indicator]
  split <;> simp_all

theorem indicator_start (positive : 0 < extent.length) : indicator extent.start extent = 1 :=
  indicator_eq_one_iff.mpr ⟨le_rfl, Nat.lt_add_of_pos_right positive⟩

theorem indicator_empty (address start : Nat) : indicator address ⟨start, 0⟩ = 0 := by
  rw [indicator, if_neg]
  simp only [stop]
  omega

theorem indicator_le_one : indicator address extent ≤ 1 := by
  rw [indicator]
  split <;> omega

theorem total_indicator_le_one (single : ∀ address, total (indicator address) extents ≤ 1)
    (above : ∀ other ∈ extents, other.stop ≤ extent.start) (address : Nat) :
    total (indicator address) (extent :: extents) ≤ 1 := by
  rw [total_cons]
  by_cases higher : extent.start ≤ address
  · have none : total (indicator address) extents = 0 := by
      apply List.sum_eq_zero
      intro count mem
      obtain ⟨other, otherMember, rfl⟩ := List.mem_map.mp mem
      have := above other otherMember
      rw [indicator, if_neg (by omega)]
    rw [none]
    exact indicator_le_one
  · rw [indicator, if_neg fun inside => higher inside.1, Nat.zero_add]
    exact single address

theorem exists_of_total_pos (counted : 0 < total (indicator address) extents) :
    ∃ extent ∈ extents, extent.start ≤ address ∧ address < extent.stop := by
  induction extents with
  | nil => cases counted
  | cons extent extents ih =>
    by_cases contains : extent.start ≤ address ∧ address < extent.stop
    · exact ⟨extent, List.mem_cons_self, contains⟩
    · rw [total_cons, indicator, if_neg contains, Nat.zero_add] at counted
      obtain ⟨other, mem, contains⟩ := ih counted
      exact ⟨other, List.mem_cons_of_mem _ mem, contains⟩

section

variable (single : ∀ address, indicator address extent + indicator address other ≤ 1)
include single

/-- Two extents without a common address, the first of which starts first. -/
theorem stop_le_of_lt (positive : 0 < other.length) (order : extent.start ≤ other.start) :
    extent.stop ≤ other.start := by
  by_contra overlap
  have both : indicator other.start extent = 1 :=
    indicator_eq_one_iff.mpr ⟨order, Nat.lt_of_not_le overlap⟩
  have := single other.start
  rw [both, indicator_start positive] at this
  omega

theorem apart_of_single (positive : 0 < extent.length) (otherPositive : 0 < other.length) :
    extent.stop ≤ other.start ∨ other.stop ≤ extent.start := by
  rcases Nat.le_total extent.start other.start with lower | higher
  · exact .inl (stop_le_of_lt single otherPositive lower)
  · refine .inr (stop_le_of_lt (fun address => ?_) positive higher)
    rw [Nat.add_comm]
    exact single address

end

theorem pairwise_apart (single : ∀ address, total (indicator address) extents ≤ 1)
    (positive : ∀ extent ∈ extents, 0 < extent.length) :
    extents.Pairwise fun first second =>
      first.stop ≤ second.start ∨ second.stop ≤ first.start := by
  induction extents with
  | nil => exact List.Pairwise.nil
  | cons extent extents ih =>
    refine List.pairwise_cons.mpr ⟨?_, ih ?_ ?_⟩
    · intro other mem
      apply apart_of_single _ (positive extent List.mem_cons_self)
        (positive other (List.mem_cons_of_mem _ mem))
      intro address
      exact (Nat.add_le_add_left (le_total mem) _).trans (single address)
    · intro address
      exact (Nat.le_add_left _ _).trans (single address)
    · exact fun other mem => positive other (List.mem_cons_of_mem _ mem)

/-! ## Order -/

section

variable (separated : Separated (front ++ extent :: back))
include separated

theorem Separated.start_lt (mem : other ∈ back) : extent.start < other.start := by
  have := (List.pairwise_cons.mp (List.pairwise_append.mp separated).2.1).1 other mem
  simp only [stop] at this
  omega

theorem Separated.lt_start (mem : other ∈ front) : other.start < extent.start := by
  have := (List.pairwise_append.mp separated).2.2 other mem extent List.mem_cons_self
  simp only [stop] at this
  omega

theorem Separated.shrink {length : Nat}
    (shorter : length ≤ extent.length) : Separated (front ++ ⟨extent.start, length⟩ :: back) := by
  obtain ⟨frontSeparated, behind, order⟩ := List.pairwise_append.mp separated
  obtain ⟨first, backSeparated⟩ := List.pairwise_cons.mp behind
  refine List.pairwise_append.mpr ⟨frontSeparated, List.pairwise_cons.mpr ⟨?_, backSeparated⟩, ?_⟩
  · intro later mem
    have := first later mem
    simp only [stop] at this ⊢
    omega
  · intro earlier earlierMember later laterMember
    rcases List.mem_cons.mp laterMember with rfl | laterMember
    · exact order earlier earlierMember extent List.mem_cons_self
    · exact order earlier earlierMember later (List.mem_cons_of_mem _ laterMember)

end

theorem Separated.exists_place (separated : Separated (before :: extents))
    (first : before.start < address) (fresh : ∀ extent ∈ extents, extent.start ≠ address) :
    ∃ front last back, before :: extents = front ++ last :: back ∧ last.start < address ∧
      ∀ next ∈ back, address < next.start := by
  induction extents generalizing before with
  | nil => exact ⟨[], before, [], rfl, first, by simp⟩
  | cons next rest ih =>
    rcases Nat.lt_or_gt_of_ne (fresh next List.mem_cons_self) with lower | higher
    · obtain ⟨front, last, back, split, below, above⟩ :=
        ih (List.pairwise_cons.mp separated).2 lower
          fun extent mem => fresh extent (List.mem_cons_of_mem _ mem)
      exact ⟨before :: front, last, back, by rw [split, List.cons_append], below, above⟩
    refine ⟨[], before, next :: rest, rfl, first, List.forall_mem_cons.mpr ⟨higher, ?_⟩⟩
    intro other mem
    have order := (show Separated ([before] ++ next :: rest) from separated).start_lt mem
    exact higher.trans order

theorem Separated.cons (separated : Separated (extent :: back))
    (below : before.stop < extent.start) : Separated (before :: extent :: back) := by
  refine List.pairwise_cons.mpr ⟨List.forall_mem_cons.mpr ⟨below, ?_⟩, separated⟩
  intro later mem
  exact below.trans ((show Separated ([] ++ extent :: back) from separated).start_lt mem)

theorem absorb_start (extent : Extent) (back : List Extent) :
    (extent.absorb back).1.start = extent.start := by
  cases back with
  | nil => rfl
  | cons next rest =>
    rw [absorb]
    split <;> rfl

theorem le_absorb_length (extent : Extent) (back : List Extent) :
    extent.length ≤ (extent.absorb back).1.length := by
  cases back with
  | nil => exact le_rfl
  | cons next rest =>
    rw [absorb]
    split
    · exact Nat.le_add_right _ _
    · exact le_rfl

theorem absorb_suffix (extent : Extent) (back : List Extent) :
    (extent.absorb back).2 <:+ back := by
  cases back with
  | nil => exact List.suffix_rfl
  | cons next rest =>
    rw [absorb]
    split
    · exact List.suffix_cons next rest
    · exact List.suffix_rfl

theorem absorb_separated (separated : Separated back)
    (below : ∀ next ∈ back, extent.stop ≤ next.start) :
    Separated ((extent.absorb back).1 :: (extent.absorb back).2) := by
  cases back with
  | nil => exact List.pairwise_singleton _ _
  | cons next rest =>
    obtain ⟨first, others⟩ := List.pairwise_cons.mp separated
    rw [absorb]
    split
    case isTrue touches =>
      refine List.pairwise_cons.mpr ⟨?_, others⟩
      intro other mem
      have := first other mem
      simp only [stop] at this touches ⊢
      omega
    case isFalse apart =>
      exact separated.cons (Nat.lt_of_le_of_ne (below next List.mem_cons_self) apart)

theorem attach_separated (first : Separated (front ++ [before]))
    (second : Separated (extent :: back)) (order : before.stop ≤ extent.start) :
    Separated (front ++ attach before extent ++ back) := by
  obtain ⟨frontSeparated, -, frontBefore⟩ := List.pairwise_append.mp first
  obtain ⟨extentBefore, backSeparated⟩ := List.pairwise_cons.mp second
  have frontFirst : ∀ earlier ∈ front, earlier.stop < before.start := fun earlier mem =>
    frontBefore earlier mem before (List.mem_singleton_self _)
  rw [attach]
  split
  case isTrue touches =>
    have separated : Separated (⟨before.start, before.length + extent.length⟩ :: back) := by
      refine List.pairwise_cons.mpr ⟨?_, backSeparated⟩
      intro later mem
      have := extentBefore later mem
      simp only [stop] at this touches ⊢
      omega
    rw [List.append_assoc]
    refine List.pairwise_append.mpr ⟨frontSeparated, separated, ?_⟩
    intro earlier earlierMember later laterMember
    have before_le := frontFirst earlier earlierMember
    rcases List.mem_cons.mp laterMember with rfl | laterMember
    · exact before_le
    · have := extentBefore later laterMember
      simp only [stop] at this touches before_le ⊢
      omega
  case isFalse apart =>
    have strict : before.stop < extent.start := Nat.lt_of_le_of_ne order apart
    have separated : Separated (before :: extent :: back) := second.cons strict
    rw [List.append_assoc]
    refine List.pairwise_append.mpr ⟨frontSeparated, separated, ?_⟩
    intro earlier earlierMember later laterMember
    have before_le := frontFirst earlier earlierMember
    rcases List.mem_cons.mp laterMember with rfl | laterMember
    · exact before_le
    · have := (List.pairwise_cons.mp separated).1 later laterMember
      simp only [stop] at this before_le ⊢
      omega

theorem place_separated (separated : Separated (front ++ before :: back))
    (order : before.stop ≤ extent.start) (below : ∀ next ∈ back, extent.stop ≤ next.start) :
    Separated (place front before extent back) := by
  rw [List.append_cons] at separated
  obtain ⟨first, second, -⟩ := List.pairwise_append.mp separated
  apply attach_separated first (absorb_separated second below)
  rw [absorb_start]
  exact order

end Extent
end Xv6.Semantics
