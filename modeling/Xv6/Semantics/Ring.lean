import Mathlib.Data.List.Induction
import Mathlib.Data.List.Nodup

/-!
# Doubly linked rings

A doubly linked ring with a head: the fields `next` and `prev` of the head and of
every element. The ring represents a list when following `next` from the head
meets the elements of the list in order and comes back, and `prev` is the way
back. Unlinking an element and inserting one behind the head act on the list as
they should, and a search along either direction is a search of the list.
-/

namespace Xv6.Semantics

universe u

/-- The pointers of a ring. `none` is the head. -/
structure LinkedRing (α : Type u) where
  next : Option α → Option α
  prev : Option α → Option α

namespace LinkedRing

variable {α : Type u} [DecidableEq α]

def setNext (ring : LinkedRing α) (node target : Option α) : LinkedRing α :=
  { ring with next := fun other => if other = node then target else ring.next other }

def setPrev (ring : LinkedRing α) (node target : Option α) : LinkedRing α :=
  { ring with prev := fun other => if other = node then target else ring.prev other }

/-- A ring of the head alone. -/
def empty : LinkedRing α where
  next := fun _ => none
  prev := fun _ => none

/-- Take an element out: its neighbours become neighbours. -/
def unlink (ring : LinkedRing α) (b : α) : LinkedRing α :=
  let bridged := ring.setPrev (ring.next (some b)) (ring.prev (some b))
  bridged.setNext (bridged.prev (some b)) (bridged.next (some b))

/-- Insert an element behind the head. -/
def pushFront (ring : LinkedRing α) (b : α) : LinkedRing α :=
  let linked := (ring.setNext (some b) (ring.next none)).setPrev (some b) none
  (linked.setPrev (linked.next none) (some b)).setNext none (some b)

/-- Follow pointers up to the head or to the first element that passes the test. -/
def search (follow : Option α → Option α) (test : α → Bool) : Nat → Option α → Option α
  | 0, _ => none
  | _ + 1, none => none
  | fuel + 1, some b => if test b then some b else search follow test fuel (follow (some b))

/-- The pointers lead from `x` through the elements of a list to `y`, and back. -/
def Path (ring : LinkedRing α) : Option α → List α → Option α → Prop
  | x, [], y => ring.next x = y ∧ ring.prev y = x
  | x, b :: l, y => ring.next x = some b ∧ ring.prev (some b) = x ∧ Path ring (some b) l y

/-- The ring holds the elements of a list, in order. -/
structure Holds (ring : LinkedRing α) (l : List α) : Prop where
  path : ring.Path none l none
  nodup : l.Nodup

variable {ring changed : LinkedRing α} {l l₁ l₂ : List α} {x y : Option α} {b : α} {test : α → Bool}
  {fuel : Nat}

omit [DecidableEq α] in
theorem path_append :
    ring.Path x (l₁ ++ b :: l₂) y ↔ ring.Path x l₁ (some b) ∧ ring.Path (some b) l₂ y := by
  induction l₁ generalizing x with
  | nil => simp [Path, and_assoc]
  | cons a l₁ ih =>
    rw [List.cons_append, Path, Path, ih, and_assoc, and_assoc]

omit [DecidableEq α] in
/-- A path uses `next` of all its nodes but the last, and `prev` of all but the first. -/
theorem Path.congr (path : ring.Path x l y)
    (next : ∀ node, node = x ∨ node ∈ l.map some → changed.next node = ring.next node)
    (prev : ∀ node, node = y ∨ node ∈ l.map some → changed.prev node = ring.prev node) :
    changed.Path x l y := by
  induction l generalizing x with
  | nil =>
    obtain ⟨forth, back⟩ := path
    exact ⟨(next x (.inl rfl)).trans forth, (prev y (.inl rfl)).trans back⟩
  | cons a l ih =>
    obtain ⟨forth, back, path⟩ := path
    refine ⟨(next x (.inl rfl)).trans forth, (prev _ (.inr (by simp))).trans back, ?_⟩
    refine ih path (fun node isNode => next node (.inr ?_)) fun node isNode =>
      prev node (isNode.imp id fun mem => by simp [mem])
    rcases isNode with rfl | mem
    · simp
    · simp [mem]

omit [DecidableEq α] in
theorem Path.prev_end (path : ring.Path x l y) : ring.prev y = x ∨ ring.prev y ∈ l.map some := by
  induction l generalizing x with
  | nil => exact .inl path.2
  | cons a l ih =>
    rcases ih path.2.2 with same | mem
    · exact .inr (by simp [same])
    · exact .inr (by simp [mem])

omit [DecidableEq α] in
theorem Path.next_start (path : ring.Path x l y) : ring.next x = y ∨ ring.next x ∈ l.map some := by
  cases l with
  | nil => exact .inl path.1
  | cons a l => exact .inr (by simp [path.1])

omit [DecidableEq α] in
theorem Path.search_next (path : ring.Path x l none) (enough : l.length < fuel) :
    search ring.next test fuel (ring.next x) = l.find? test := by
  induction l generalizing x fuel with
  | nil =>
    obtain ⟨fuel, rfl⟩ := Nat.exists_eq_succ_of_ne_zero (Nat.ne_of_gt enough)
    rw [path.1]
    rfl
  | cons a l ih =>
    obtain ⟨fuel, rfl⟩ := Nat.exists_eq_succ_of_ne_zero (Nat.ne_of_gt (Nat.zero_lt_of_lt enough))
    obtain ⟨forth, _, path⟩ := path
    rw [forth, search, List.find?_cons, ih path (Nat.lt_of_succ_lt_succ enough)]
    cases test a <;> rfl

omit [DecidableEq α] in
theorem Path.search_prev (path : ring.Path none l y) (enough : l.length < fuel) :
    search ring.prev test fuel (ring.prev y) = l.reverse.find? test := by
  induction l using List.reverseRecOn generalizing y fuel with
  | nil =>
    obtain ⟨fuel, rfl⟩ := Nat.exists_eq_succ_of_ne_zero (Nat.ne_of_gt enough)
    rw [path.2]
    rfl
  | append_singleton l a ih =>
    obtain ⟨fuel, rfl⟩ := Nat.exists_eq_succ_of_ne_zero (Nat.ne_of_gt (Nat.zero_lt_of_lt enough))
    obtain ⟨path, _, back⟩ := path_append.mp path
    rw [List.length_append] at enough
    rw [back, search, List.reverse_concat, List.find?_cons,
      ih path (Nat.lt_of_succ_lt_succ enough)]
    cases test a <;> rfl

theorem unlink_next (apart : ring.next (some b) ≠ some b) (node : Option α) :
    (ring.unlink b).next node =
      if node = ring.prev (some b) then ring.next (some b) else ring.next node := by
  simp [unlink, setNext, setPrev, apart.symm]

theorem unlink_prev (node : Option α) : (ring.unlink b).prev node =
    if node = ring.next (some b) then ring.prev (some b) else ring.prev node := rfl

/-- The two parts of a path are joined when the element between them is taken out. -/
theorem Path.unlink (before : ring.Path x l₁ (some b)) (behind : ring.Path (some b) l₂ y)
    (notBehind : b ∉ l₂) (nodup : (l₁ ++ b :: l₂).Nodup)
    (start : x ∉ (l₁ ++ b :: l₂).map some) (finish : y ∉ (l₁ ++ b :: l₂).map some) :
    (ring.unlink b).Path x (l₁ ++ l₂) y := by
  have after := behind.next_start
  have apart : ring.next (some b) ≠ some b := by
    intro same
    rw [same] at after
    rcases after with isEnd | mem
    · exact finish (by simp [← isEnd])
    · exact notBehind (by simpa using mem)
  induction l₁ generalizing x with
  | nil =>
    obtain ⟨forth, back⟩ := before
    have joined : (ring.unlink b).next x = ring.next (some b) := by
      rw [unlink_next apart, if_pos back.symm]
    cases l₂ with
    | nil =>
      refine ⟨joined.trans behind.1, ?_⟩
      rw [unlink_prev, if_pos behind.1.symm, back]
    | cons d l₂ =>
      obtain ⟨isNext, _, path⟩ := behind
      refine ⟨joined.trans isNext, ?_, path.congr ?_ ?_⟩
      · rw [unlink_prev, if_pos isNext.symm, back]
      · intro node isNode
        rw [unlink_next apart, if_neg]
        rintro rfl
        rw [back] at isNode
        apply start
        rcases isNode with rfl | mem
        · simp
        · simp [mem]
      intro node isNode
      rw [unlink_prev, if_neg]
      rintro rfl
      rw [isNext] at isNode
      rcases isNode with isEnd | mem
      · exact finish (by simp [← isEnd])
      · have nodupRest := (List.nodup_cons.mp (List.nodup_cons.mp nodup).2).1
        exact nodupRest (by simpa using mem)
  | cons a l₁ ih =>
    obtain ⟨forth, back, before⟩ := before
    obtain ⟨notAgain, nodupRest⟩ := List.nodup_cons.mp nodup
    have last := before.prev_end
    refine ⟨?_, ?_, ih before nodupRest ?_ ?_⟩
    · rw [unlink_next apart, if_neg, forth]
      rintro rfl
      apply start
      rcases last with same | mem
      · simp [same]
      · simp [mem]
    · rw [unlink_prev, if_neg, back]
      intro same
      rw [← same] at after
      rcases after with isEnd | mem
      · exact finish (by simp [← isEnd])
      · exact notAgain (by simp at mem; simp [mem])
    · simpa using notAgain
    · intro isNode
      exact finish (by simp only [List.cons_append, List.map_cons, List.mem_cons]; exact .inr isNode)

namespace Holds

variable (holds : ring.Holds l)
include holds

omit [DecidableEq α] in
theorem search_next (enough : l.length < fuel) :
    search ring.next test fuel (ring.next none) = l.find? test :=
  holds.path.search_next enough

omit [DecidableEq α] in
theorem search_prev (enough : l.length < fuel) :
    search ring.prev test fuel (ring.prev none) = l.reverse.find? test :=
  holds.path.search_prev enough

theorem pushFront (fresh : b ∉ l) : (ring.pushFront b).Holds (b :: l) := by
  refine ⟨⟨?_, ?_, ?_⟩, List.nodup_cons.mpr ⟨fresh, holds.nodup⟩⟩
  · simp [LinkedRing.pushFront, setNext, setPrev]
  · have ne : (some b : Option α) ≠ ring.next none := by
      intro same
      rcases holds.path.next_start with isHead | mem
      · rw [isHead] at same
        cases same
      · rw [← same] at mem
        exact fresh (by simpa using mem)
    simp [LinkedRing.pushFront, setNext, setPrev, ne]
  cases l with
  | nil =>
    obtain ⟨forth, _⟩ := holds.path
    exact ⟨by simp [LinkedRing.pushFront, setNext, setPrev, forth],
      by simp [LinkedRing.pushFront, setNext, setPrev, forth]⟩
  | cons a l =>
    obtain ⟨forth, back, path⟩ := holds.path
    have nodup := List.nodup_cons.mp holds.nodup
    have ne : a ≠ b := by
      rintro rfl
      exact fresh (by simp)
    refine ⟨by simp [LinkedRing.pushFront, setNext, setPrev, forth],
      by simp [LinkedRing.pushFront, setNext, setPrev, forth], path.congr ?_ ?_⟩
    · rintro node (rfl | mem)
      · simp [LinkedRing.pushFront, setNext, setPrev, ne]
      obtain ⟨d, isElement, rfl⟩ := List.mem_map.mp mem
      have other : d ≠ b := by
        rintro rfl
        exact fresh (by simp [isElement])
      simp [LinkedRing.pushFront, setNext, setPrev, other]
    rintro node (rfl | mem)
    · simp [LinkedRing.pushFront, setNext, setPrev, forth]
    obtain ⟨d, isElement, rfl⟩ := List.mem_map.mp mem
    have other : d ≠ b := by
      rintro rfl
      exact fresh (by simp [isElement])
    have notFirst : d ≠ a := by
      rintro rfl
      exact nodup.1 isElement
    simp [LinkedRing.pushFront, setNext, setPrev, other, notFirst, forth]

theorem unlink (mem : b ∈ l) : (ring.unlink b).Holds (l.erase b) := by
  obtain ⟨l₁, l₂, rfl⟩ := List.append_of_mem mem
  have nodup := holds.nodup
  rw [List.nodup_append] at nodup
  obtain ⟨_, nodupRest, apart⟩ := nodup
  have notBefore : b ∉ l₁ := fun before => apart b before b (by simp) rfl
  rw [List.erase_append_right _ notBefore, List.erase_cons_head]
  obtain ⟨before, behind⟩ := path_append.mp holds.path
  refine ⟨before.unlink behind ?_ ?_ (by simp) (by simp), ?_⟩
  · exact (List.nodup_cons.mp nodupRest).1
  · exact holds.nodup
  · exact holds.nodup.sublist (List.Sublist.append_left (List.sublist_cons_self b l₂) l₁)

theorem moveFront (mem : b ∈ l) : ((ring.unlink b).pushFront b).Holds (b :: l.erase b) :=
  (holds.unlink mem).pushFront (holds.nodup.not_mem_erase)

end Holds

end LinkedRing
end Xv6.Semantics
