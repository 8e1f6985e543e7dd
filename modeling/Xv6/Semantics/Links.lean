import Mathlib.Data.List.Basic

/-!
# Circular lists of pointers

A field `next` leads through the nodes of a list when each node points to the one
behind it. A circular list is entered at any of its nodes, and a search along the
pointers meets all of them before it has gone round.
-/

namespace Xv6.Semantics

universe u

variable {α : Type u}

/-- The pointers lead through the nodes of a list, in order, and on to `stop`. -/
def Links (next : α → α) : List α → α → Prop
  | [], _ => True
  | node :: rest, stop => next node = rest.headD stop ∧ Links next rest stop

/-- Follow pointers to the first node that passes a test. -/
def follow (next : α → α) (test : α → Bool) : (fuel : Nat) → α → Option α
  | 0, _ => none
  | fuel + 1, node => if test node then some node else follow next test fuel (next node)

variable {next changed : α → α} {test : α → Bool} {fuel : Nat} {first node stop : α}
  {nodes front back rest : List α}

theorem links_append :
    Links next (front ++ back) stop ↔
      Links next front (back.headD stop) ∧ Links next back stop := by
  induction front with
  | nil => simp [Links]
  | cons node front ih =>
    rw [List.cons_append, Links, Links, ih, and_assoc]
    cases front <;> simp

theorem links_cons :
    Links next (node :: rest) stop ↔ next node = rest.headD stop ∧ Links next rest stop :=
  Iff.rfl

theorem Links.congr (links : Links next nodes stop)
    (same : ∀ node ∈ nodes, changed node = next node) : Links changed nodes stop := by
  induction nodes with
  | nil => trivial
  | cons node rest ih =>
    constructor
    · rw [same node List.mem_cons_self]
      exact links.1
    · apply ih links.2
      intro other mem
      exact same other (List.mem_cons_of_mem _ mem)

/-- A search from the first node finds one of the nodes, or goes on behind them. -/
theorem Links.follow (links : Links next nodes stop) (test : α → Bool)
    (enough : nodes.length ≤ fuel) :
    (∃ found ∈ nodes, test found = true ∧
      Xv6.Semantics.follow next test fuel (nodes.headD stop) = some found) ∨
    (∀ node ∈ nodes, test node = false) ∧
      Xv6.Semantics.follow next test fuel (nodes.headD stop) =
        Xv6.Semantics.follow next test (fuel - nodes.length) stop := by
  induction nodes generalizing fuel with
  | nil =>
    right
    exact ⟨by simp, rfl⟩
  | cons node rest ih =>
    obtain ⟨fuel, rfl⟩ : ∃ less, fuel = less + 1 := ⟨fuel - 1, by simp at enough; omega⟩
    rw [List.headD_cons, Xv6.Semantics.follow]
    by_cases passes : test node = true
    · left
      exact ⟨node, List.mem_cons_self, passes, if_pos passes⟩
    rw [if_neg passes, links.1]
    rcases ih links.2 (by simpa using enough) with found | ⟨none, goesOn⟩
    · obtain ⟨found, mem, passed, result⟩ := found
      left
      exact ⟨found, List.mem_cons_of_mem _ mem, passed, result⟩
    · right
      refine ⟨?_, by simpa using goesOn⟩
      simpa [show test node = false by simpa using passes] using none

section

variable (links : Links next nodes first) (head : nodes.head? = some first) (mem : node ∈ nodes)
include links head mem

/-- In a circular list a search from any node finds a node that passes the test,
if there is one, before it has gone round twice. -/
theorem Links.follow_ring (exists_passing : ∃ other ∈ nodes, test other = true)
    (enough : 2 * nodes.length ≤ fuel) :
    ∃ found ∈ nodes, test found = true ∧ Xv6.Semantics.follow next test fuel node = some found := by
  obtain ⟨front, back, split⟩ := List.append_of_mem mem
  rw [split] at links
  have behind := (links_append.mp links).2
  have shorter : (node :: back).length ≤ nodes.length := by
    rw [split, List.length_append]
    exact Nat.le_add_left _ _
  rcases behind.follow test (show _ ≤ fuel by omega) with found | ⟨_, goesOn⟩
  · obtain ⟨found, foundMember, passed, result⟩ := found
    refine ⟨found, ?_, passed, result⟩
    rw [split]
    exact List.mem_append_right _ foundMember
  rw [← split] at links
  have start : nodes.headD first = first := by
    rw [List.headD_eq_head?_getD, head]
    rfl
  rw [List.headD_cons] at goesOn
  have left : nodes.length ≤ fuel - (node :: back).length := by omega
  rcases links.follow test left with found | ⟨none, _⟩
  · obtain ⟨found, foundMember, passed, result⟩ := found
    exact ⟨found, foundMember, passed, by rw [goesOn, ← start, result]⟩
  · obtain ⟨other, otherMember, passes⟩ := exists_passing
    rw [none other otherMember] at passes
    cases passes

theorem Links.exists_before : ∃ before ∈ nodes, next before = node := by
  obtain ⟨front, back, rfl⟩ := List.append_of_mem mem
  rcases List.eq_nil_or_concat front with rfl | ⟨front, before, rfl⟩
  · -- the first node is behind the last one
    obtain rfl : node = first := by simpa using head
    obtain ⟨others, last, split⟩ : ∃ others last, node :: back = others ++ [last] := by
      rcases List.eq_nil_or_concat (node :: back) with impossible | ⟨others, last, equal⟩
      · cases impossible
      · exact ⟨others, last, by simpa using equal⟩
    rw [List.nil_append, split] at links ⊢
    exact ⟨last, by simp, (links_append.mp links).2.1⟩
  · refine ⟨before, by simp, ?_⟩
    rw [List.concat_eq_append, List.append_assoc, links_append] at links
    exact links.2.1

end

end Xv6.Semantics
