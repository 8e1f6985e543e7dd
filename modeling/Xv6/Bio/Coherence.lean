import Mathlib.Algebra.Order.BigOperators.Group.Finset
import Mathlib.Data.Fintype.BigOperators
import Xv6.Bio.Cache
import Xv6.Semantics.Update

/-!
# The buffer cache is an array of blocks

What holds between the buffers, the processes and the record of the callers, and a
rule for a step that concerns one process and one buffer. The reference count of a
buffer is the number of processes that are about to lock it or have just unlocked
it, and one for its holder, and its pins. Two buffers are for the same block only
as long as one of them has never been used since the boot, and then the searches of
`bget` meet the used one first.
-/

namespace Xv6.Bio

open Xv6.Semantics

variable {Block : Type}

/-- The references to a buffer of a process that does not hold it. -/
def Thread.refs (b : Index) : Thread → Nat
  | .sleeps _ _ c => if c = b then 1 else 0
  | .drops c => if c = b then 1 else 0
  | _ => 0

/-- The process is in a call on `b`, if it is in a call. -/
def Thread.Concerns (b : Index) : Thread → Prop
  | .sleeps _ _ c => c = b
  | .reads _ _ c => c = b
  | .drops c => c = b
  | _ => True

/-- Two buffers are for the same block. -/
def Buf.SameBlock (a b : Buf Block) : Prop := a.dev = b.dev ∧ a.blockno = b.blockno

namespace Observed

/-- One for the holder of the buffer. -/
def held (state : Observed Block) (b : Index) : Nat :=
  if (state.1.buf b).lock = none then 0 else 1

/-- The references to a buffer. -/
def refs (state : Observed Block) (b : Index) : Nat :=
  ∑ p, (state.1.thread p).refs b + state.held b + state.2.pins b

/-- The buffer has not been used for its block. -/
def Spare (state : Observed Block) (b : Index) : Prop :=
  state.refs b = 0 ∧ (state.1.buf b).valid = false

/-- The list of the buffers. Of two buffers for the same block the later one is spare. -/
structure Listed (state : Observed Block) (l : List Index) : Prop where
  holds : state.1.list.Holds l
  all : l.Perm (List.finRange nbuf)
  spare : l.Pairwise fun a b => (state.1.buf a).SameBlock (state.1.buf b) → state.Spare b

/-- What holds between calls of `bio.c`, and inside them. -/
structure Coherent (state : Observed Block) : Prop where
  asks : ∀ {p dev blockno b},
    state.1.thread p = .sleeps dev blockno b ∨ state.1.thread p = .reads dev blockno b →
      (state.1.buf b).dev = dev ∧ (state.1.buf b).blockno = blockno
  locks : ∀ {p dev blockno b}, state.1.thread p = .reads dev blockno b →
    (state.1.buf b).lock = some p
  counted : ∀ b, (state.1.buf b).refcnt = BitVec.ofNat 32 (state.refs b)
  limited : ∀ b, state.2.pins b ≤ logSize
  listed : ∃ l, state.Listed l
  single : ∀ {a b}, (state.1.buf a).dev ≠ 0 → (state.1.buf a).SameBlock (state.1.buf b) → a = b
  filled : ∀ {b p}, (state.1.buf b).lock = some p →
    (∀ dev blockno, state.1.thread p ≠ .reads dev blockno b) → (state.1.buf b).valid = true
  pinned : ∀ {b}, 0 < state.2.pins b → (state.1.buf b).valid = true
  kept : ∀ {b}, state.2.dirty b = true → (state.1.buf b).valid = true ∧
    ((state.1.buf b).lock ≠ none ∨ 0 < state.2.pins b)
  latest : ∀ {b}, (state.1.buf b).valid = true →
    (state.1.buf b).data = state.2.stored (state.1.buf b).dev (state.1.buf b).blockno
  clean : ∀ {b}, (state.1.buf b).valid = true → state.2.dirty b = false →
    state.1.disk (state.1.buf b).dev (state.1.buf b).blockno = (state.1.buf b).data
  absent : ∀ {dev blockno}, (∀ b, (state.1.buf b).dev = dev → (state.1.buf b).blockno = blockno →
    (state.1.buf b).valid = false) → state.1.disk dev blockno = state.2.stored dev blockno

/-- The step concerns one process and one buffer. -/
structure Touches (state next : Observed Block) (p : Proc) (b : Index) : Prop where
  buf : ∀ c, c ≠ b → next.1.buf c = state.1.buf c
  thread : ∀ q, q ≠ p → next.1.thread q = state.1.thread q
  pins : ∀ c, c ≠ b → next.2.pins c = state.2.pins c
  dirty : ∀ c, c ≠ b → next.2.dirty c = state.2.dirty c
  disk : ∀ dev blockno, ¬(dev = (state.1.buf b).dev ∧ blockno = (state.1.buf b).blockno) →
    next.1.disk dev blockno = state.1.disk dev blockno
  stored : ∀ dev blockno, ¬(dev = (state.1.buf b).dev ∧ blockno = (state.1.buf b).blockno) →
    next.2.stored dev blockno = state.2.stored dev blockno
  before : (state.1.thread p).Concerns b
  after : (next.1.thread p).Concerns b

/-- What the step has to keep for its process and its buffer. -/
structure Settles (state next : Observed Block) (p : Proc) (b : Index) : Prop where
  asks : ∀ dev blockno,
    next.1.thread p = .sleeps dev blockno b ∨ next.1.thread p = .reads dev blockno b →
      (next.1.buf b).dev = dev ∧ (next.1.buf b).blockno = blockno
  locks : ∀ dev blockno, next.1.thread p = .reads dev blockno b → (next.1.buf b).lock = some p
  lock : ∀ q, q ≠ p → (state.1.buf b).lock = some q → (next.1.buf b).lock = some q
  counted : (next.1.buf b).refcnt = BitVec.ofNat 32 (next.refs b)
  limited : next.2.pins b ≤ logSize
  block : (next.1.buf b).SameBlock (state.1.buf b) ∨
    state.refs b = 0 ∧ ∀ c, c ≠ b → ¬(state.1.buf c).SameBlock (next.1.buf b)
  filled : ∀ q, (next.1.buf b).lock = some q →
    (∀ dev blockno, next.1.thread q ≠ .reads dev blockno b) → (next.1.buf b).valid = true
  pinned : 0 < next.2.pins b → (next.1.buf b).valid = true
  kept : next.2.dirty b = true → (next.1.buf b).valid = true ∧
    ((next.1.buf b).lock ≠ none ∨ 0 < next.2.pins b)
  latest : (next.1.buf b).valid = true →
    (next.1.buf b).data = next.2.stored (next.1.buf b).dev (next.1.buf b).blockno
  clean : (next.1.buf b).valid = true → next.2.dirty b = false →
    next.1.disk (next.1.buf b).dev (next.1.buf b).blockno = (next.1.buf b).data
  invalid : (state.1.buf b).valid = false →
    next.1.disk (state.1.buf b).dev (state.1.buf b).blockno =
        state.1.disk (state.1.buf b).dev (state.1.buf b).blockno ∧
      next.2.stored (state.1.buf b).dev (state.1.buf b).blockno =
        state.2.stored (state.1.buf b).dev (state.1.buf b).blockno
  valid : (state.1.buf b).valid = true →
    (next.1.buf b).valid = true ∧ (next.1.buf b).SameBlock (state.1.buf b) ∨
      next.1.disk (state.1.buf b).dev (state.1.buf b).blockno =
        next.2.stored (state.1.buf b).dev (state.1.buf b).blockno

variable {state next : Observed Block} {p : Proc} {b : Index} {l : List Index}

theorem Thread.refs_of_concerns {thread : Thread} (concerns : thread.Concerns b)
    (other : c ≠ b) : thread.refs c = 0 := by
  cases thread with
  | outside | reads | panicked => rfl
  | sleeps dev blockno d | drops d =>
    cases concerns
    exact if_neg fun same => other same.symm

namespace Touches

variable (touches : Touches state next p b)
include touches

theorem balance : next.refs b + (state.1.thread p).refs b + state.held b + state.2.pins b =
    state.refs b + (next.1.thread p).refs b + next.held b + next.2.pins b := by
  have threads := sum_add_of_eq_off p fun q other =>
    congrArg (Thread.refs b) (touches.thread q other)
  simp only [refs]
  omega

theorem refs_of_ne (other : c ≠ b) : next.refs c = state.refs c := by
  have same : ∀ q, (next.1.thread q).refs c = (state.1.thread q).refs c := by
    intro q
    by_cases own : q = p
    · rw [own, Thread.refs_of_concerns touches.after other,
        Thread.refs_of_concerns touches.before other]
    · rw [touches.thread q own]
  simp only [refs, held, same, touches.buf c other, touches.pins c other]

theorem spare_of_ne (other : c ≠ b) : next.Spare c ↔ state.Spare c := by
  rw [Spare, Spare, touches.refs_of_ne other, touches.buf c other]

end Touches

theorem refs_pos_of_lock (locked : (state.1.buf b).lock ≠ none) : state.refs b ≠ 0 := by
  simp [refs, held, locked]

theorem refs_pos_of_pins (pinned : 0 < state.2.pins b) : state.refs b ≠ 0 := by
  rw [refs]
  omega

theorem refs_pos_of_thread (concerned : (state.1.thread p).refs b ≠ 0) : state.refs b ≠ 0 := by
  have counted := Finset.single_le_sum (fun q _ => Nat.zero_le ((state.1.thread q).refs b))
    (Finset.mem_univ p)
  rw [refs]
  omega

namespace Coherent

variable (coherent : state.Coherent)
include coherent

theorem refs_lt (b : Index) : state.refs b < 2 ^ 32 := by
  have each : ∀ q, (state.1.thread q).refs b ≤ 1 := by
    intro q
    cases state.1.thread q with
    | outside | reads | panicked => exact Nat.zero_le 1
    | sleeps | drops =>
      simp only [Thread.refs]
      split <;> omega
  have total : ∑ q, (state.1.thread q).refs b ≤ nproc := by
    refine (Finset.sum_le_sum fun q _ => each q).trans (le_of_eq ?_)
    simp
  have limited := coherent.limited b
  have held : state.held b ≤ 1 := by
    rw [Observed.held]
    split <;> omega
  have few : nproc + 1 + logSize < 2 ^ 32 := by decide
  rw [refs]
  omega

theorem refs_eq_zero (zero : (state.1.buf b).refcnt = 0) : state.refs b = 0 := by
  have counted := congrArg BitVec.toNat ((coherent.counted b).symm.trans zero)
  rw [BitVec.toNat_ofNat, Nat.mod_eq_of_lt (coherent.refs_lt b)] at counted
  simpa using counted

theorem refs_pos_of_asks
    (asks : state.1.thread p = .sleeps dev blockno b ∨ state.1.thread p = .reads dev blockno b) :
    state.refs b ≠ 0 := by
  rcases asks with sleeps | reads
  · exact refs_pos_of_thread (p := p) (by simp [sleeps, Thread.refs])
  · exact refs_pos_of_lock (by simp [coherent.locks reads])

theorem eq_of_sameBlock (same : (state.1.buf a).SameBlock (state.1.buf b))
    (first : ¬state.Spare a) (second : ¬state.Spare b) : a = b := by
  obtain ⟨l, listed⟩ := coherent.listed
  have either : l.Pairwise fun a b => (state.1.buf a).SameBlock (state.1.buf b) →
      state.Spare a ∨ state.Spare b := listed.spare.imp fun spare same => .inr (spare same)
  have symmetric : Std.Symm fun a b => (state.1.buf a).SameBlock (state.1.buf b) →
      state.Spare a ∨ state.Spare b :=
    ⟨fun a b either same => (either ⟨same.1.symm, same.2.symm⟩).symm⟩
  by_contra ne
  have inList : ∀ c, c ∈ l := fun c => listed.all.mem_iff.mpr (List.mem_finRange c)
  exact (either.forall (inList a) (inList b) ne same).elim first second

theorem unchanged (touches : Touches state next p b) (settles : Settles state next p b)
    (valid : (state.1.buf c).valid = true) (other : c ≠ b) :
    next.1.disk (state.1.buf c).dev (state.1.buf c).blockno =
        state.1.disk (state.1.buf c).dev (state.1.buf c).blockno ∧
      next.2.stored (state.1.buf c).dev (state.1.buf c).blockno =
        state.2.stored (state.1.buf c).dev (state.1.buf c).blockno := by
  by_cases same : (state.1.buf c).SameBlock (state.1.buf b)
  · have invalid : (state.1.buf b).valid = false := by
      by_contra notInvalid
      refine other (coherent.eq_of_sameBlock same (fun spare => ?_) fun spare => notInvalid spare.2)
      rw [spare.2] at valid
      cases valid
    rw [same.1, same.2]
    exact settles.invalid invalid
  · exact ⟨touches.disk _ _ same, touches.stored _ _ same⟩

theorem touch (touches : Touches state next p b) (settles : Settles state next p b)
    (listed : ∃ l, next.Listed l) : next.Coherent := by
  have sameBlock : state.refs b ≠ 0 → (next.1.buf b).SameBlock (state.1.buf b) := fun used =>
    settles.block.resolve_right fun unused => used unused.1
  refine ⟨?_, ?_, ?_, ?_, listed, ?_, ?_, ?_, ?_, ?_, ?_, ?_⟩
  · intro q dev blockno c asks
    obtain rfl | own := eq_or_ne q p
    · have isB : c = b := by
        have after := touches.after
        rcases asks with asks | asks <;> (rw [asks] at after; exact after)
      subst isB
      exact settles.asks dev blockno asks
    rw [touches.thread q own] at asks
    obtain rfl | isB := eq_or_ne c b
    · obtain ⟨dev, blockno⟩ := sameBlock (coherent.refs_pos_of_asks asks)
      rw [dev, blockno]
      exact coherent.asks asks
    · rw [touches.buf c isB]
      exact coherent.asks asks
  · intro q dev blockno c reads
    obtain rfl | own := eq_or_ne q p
    · have isB : c = b := by
        have after := touches.after
        rw [reads] at after
        exact after
      subst isB
      exact settles.locks dev blockno reads
    rw [touches.thread q own] at reads
    obtain rfl | isB := eq_or_ne c b
    · exact settles.lock q own (coherent.locks reads)
    · rw [touches.buf c isB]
      exact coherent.locks reads
  · intro c
    obtain rfl | isB := eq_or_ne c b
    · exact settles.counted
    · rw [touches.buf c isB, touches.refs_of_ne isB]
      exact coherent.counted c
  · intro c
    obtain rfl | isB := eq_or_ne c b
    · exact settles.limited
    · rw [touches.pins c isB]
      exact coherent.limited c
  · intro a c device same
    by_cases isA : a = b <;> by_cases isC : c = b
    · rw [isA, isC]
    · subst isA
      rw [touches.buf c isC] at same
      rcases settles.block with kept | ⟨_, fresh⟩
      · rw [kept.1] at device
        exact coherent.single device ⟨kept.1.symm.trans same.1, kept.2.symm.trans same.2⟩
      · exact absurd ⟨same.1.symm, same.2.symm⟩ (fresh c isC)
    · subst isC
      rw [touches.buf a isA] at device same
      rcases settles.block with kept | ⟨_, fresh⟩
      · exact coherent.single device ⟨same.1.trans kept.1, same.2.trans kept.2⟩
      · exact absurd same (fresh a isA)
    · rw [touches.buf a isA] at device same
      rw [touches.buf c isC] at same
      exact coherent.single device same
  · intro c q locked notReads
    obtain rfl | isB := eq_or_ne c b
    · exact settles.filled q locked notReads
    rw [touches.buf c isB] at locked ⊢
    refine coherent.filled locked fun dev blockno reads => ?_
    obtain rfl | own := eq_or_ne q p
    · have before := touches.before
      rw [reads] at before
      exact isB before
    · rw [← touches.thread q own] at reads
      exact notReads dev blockno reads
  · intro c pinned
    obtain rfl | isB := eq_or_ne c b
    · exact settles.pinned pinned
    · rw [touches.pins c isB] at pinned
      rw [touches.buf c isB]
      exact coherent.pinned pinned
  · intro c dirty
    obtain rfl | isB := eq_or_ne c b
    · exact settles.kept dirty
    · rw [touches.dirty c isB] at dirty
      rw [touches.buf c isB, touches.pins c isB]
      exact coherent.kept dirty
  · intro c valid
    obtain rfl | isB := eq_or_ne c b
    · exact settles.latest valid
    · rw [touches.buf c isB] at valid ⊢
      rw [coherent.latest valid]
      exact (coherent.unchanged touches settles valid isB).2.symm
  · intro c valid notDirty
    obtain rfl | isB := eq_or_ne c b
    · exact settles.clean valid notDirty
    · rw [touches.dirty c isB] at notDirty
      rw [touches.buf c isB] at valid ⊢
      rw [← coherent.clean valid notDirty]
      exact (coherent.unchanged touches settles valid isB).1
  intro dev blockno absent
  -- A buffer for the block that the step does not concern is as before.
  have others : ∀ c, c ≠ b → (state.1.buf c).dev = dev → (state.1.buf c).blockno = blockno →
      (state.1.buf c).valid = false := by
    intro c isB isDev isBlockno
    have invalid := absent c
    rw [touches.buf c isB] at invalid
    exact invalid isDev isBlockno
  by_cases same : dev = (state.1.buf b).dev ∧ blockno = (state.1.buf b).blockno
  · obtain ⟨rfl, rfl⟩ := same
    cases valid : (state.1.buf b).valid with
    | true =>
      rcases settles.valid valid with ⟨stays, kept⟩ | agree
      · rw [absent b kept.1 kept.2] at stays
        cases stays
      · exact agree
    | false =>
      rw [(settles.invalid valid).1, (settles.invalid valid).2]
      refine coherent.absent fun c isDev isBlockno => ?_
      by_cases isB : c = b
      · rw [isB, valid]
      · exact others c isB isDev isBlockno
  · rw [touches.disk _ _ same, touches.stored _ _ same]
    refine coherent.absent fun c isDev isBlockno => others c ?_ isDev isBlockno
    rintro rfl
    exact same ⟨isDev.symm, isBlockno.symm⟩

end Coherent
end Observed
end Xv6.Bio
