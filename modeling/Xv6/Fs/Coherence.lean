import Mathlib.Algebra.Order.BigOperators.Group.Finset
import Mathlib.Data.Fintype.BigOperators
import Xv6.Fs.Sharing
import Xv6.Semantics.Update

/-!
# Coherence of the inode table

What holds between the entries, the disk and the processes at every step of callers
that are careful. An entry that is valid and has references has a type on the disk,
so `ialloc` does not choose its inode, until `iput` has written type 0 there. From then
on the copy is not looked at again: `valid` is cleared before the sleep-lock is given
back, and whoever has been waiting for it loads the inode anew.
-/

namespace Xv6.Fs

open Xv6.Semantics

/-- The process is in a call on `s`, if it is in a call on an entry. -/
def Task.Concerns (s : Slot) : Task → Prop
  | .sleeps c => c = s
  | .loads c => c = s
  | .frees _ c => c = s
  | .drops c => c = s
  | .noType c => c = s
  | _ => True

/-- The process needs the reference to `s`. -/
def Task.Engages (s : Slot) : Task → Prop
  | .sleeps c => c = s
  | .loads c => c = s
  | .frees _ c => c = s
  | .drops c => c = s
  | .noType c => c = s
  | _ => False

/-- The process has locked `s` inside a call. -/
def Task.Locks (s : Slot) : Task → Prop
  | .loads c => c = s
  | .frees _ c => c = s
  | .noType c => c = s
  | _ => False

/-- Two entries are for the same inode. -/
def Inode.SameInode (a b : Inode) : Prop := a.dev = b.dev ∧ a.inum = b.inum

/-- The inode on the disk. -/
def Inodes.dinode (state : Inodes) (s : Slot) : Dinode :=
  state.disk (state.table s).dev (state.table s).inum

namespace Shared

/-- The references to an entry. -/
def refs (state : Shared) (s : Slot) : Nat := ∑ p, state.2.holds p s

/-- The inode has been freed on the disk while the entry is valid: `iput` is about to
clear `valid`, or `ilock` has panicked. -/
def Freed (state : Shared) (s : Slot) : Prop :=
  ∃ p, state.1.task p = .frees .invalidates s ∨ state.1.task p = .noType s

/-- What holds at every step. -/
structure Coherent (state : Shared) : Prop where
  counted : ∀ s, (state.1.table s).ref = state.refs s
  holder : ∀ {s p}, (state.1.table s).lock = some p → 0 < state.2.holds p s
  engaged : ∀ {s p}, (state.1.task p).Engages s → 0 < state.2.holds p s
  locks : ∀ {s p}, (state.1.task p).Locks s → (state.1.table s).lock = some p
  released : ∀ {s p}, state.1.task p = .drops s → (state.1.table s).lock ≠ some p
  allocates : ∀ {p dev type inum}, state.1.task p = .allocates dev type inum → type ≠ .free
  single : ∀ {a b}, 0 < state.refs a → 0 < state.refs b →
    (state.1.table a).SameInode (state.1.table b) → a = b
  filled : ∀ {s p}, (state.1.table s).lock = some p → state.1.task p ≠ .loads s →
    state.1.task p ≠ .frees .releases s → (state.1.table s).valid = true
  typed : ∀ {s}, 0 < state.refs s → (state.1.table s).valid = true → ¬state.Freed s →
    (state.1.dinode s).type ≠ .free ∧
      ((state.1.table s).copy.type = (state.1.dinode s).type ∨
        ∃ p, state.1.task p = .frees .writes s)
  agrees : ∀ {s}, 0 < state.refs s → (state.1.table s).valid = true →
    state.2.changed s = false → ¬state.Freed s → (state.1.table s).copy = state.1.dinode s

/-- The step concerns one process and one entry. -/
structure Touches (state next : Shared) (p : Proc) (s : Slot) : Prop where
  table : ∀ c, c ≠ s → next.1.table c = state.1.table c
  task : ∀ q, q ≠ p → next.1.task q = state.1.task q
  holds : ∀ q c, q ≠ p ∨ c ≠ s → next.2.holds q c = state.2.holds q c
  changed : ∀ c, c ≠ s → next.2.changed c = state.2.changed c
  disk : ∀ dev inum, ¬(0 < state.refs s ∧ dev = (state.1.table s).dev ∧
    inum = (state.1.table s).inum) → next.1.disk dev inum = state.1.disk dev inum
  before : (state.1.task p).Concerns s
  after : (next.1.task p).Concerns s
  allocates : ∀ dev type inum, next.1.task p = .allocates dev type inum → type ≠ .free

/-- What the step has to keep for its process and its entry. -/
structure Settles (state next : Shared) (p : Proc) (s : Slot) : Prop where
  counted : (next.1.table s).ref + state.2.holds p s = (state.1.table s).ref + next.2.holds p s
  lock : ∀ q, q ≠ p → ((state.1.table s).lock = some q ↔ (next.1.table s).lock = some q)
  holder : (next.1.table s).lock = some p ∨ (next.1.task p).Engages s → 0 < next.2.holds p s
  locks : (next.1.task p).Locks s → (next.1.table s).lock = some p
  released : next.1.task p = .drops s → (next.1.table s).lock ≠ some p
  inode : (next.1.table s).SameInode (state.1.table s) ∧ (0 < next.refs s → 0 < state.refs s) ∨
    ∀ c, c ≠ s → 0 < state.refs c → ¬(state.1.table c).SameInode (next.1.table s)
  filled : ∀ q, (next.1.table s).lock = some q → next.1.task q ≠ .loads s →
    next.1.task q ≠ .frees .releases s → (next.1.table s).valid = true
  typed : 0 < next.refs s → (next.1.table s).valid = true → ¬next.Freed s →
    (next.1.dinode s).type ≠ .free ∧
      ((next.1.table s).copy.type = (next.1.dinode s).type ∨
        ∃ q, next.1.task q = .frees .writes s)
  agrees : 0 < next.refs s → (next.1.table s).valid = true → next.2.changed s = false →
    ¬next.Freed s → (next.1.table s).copy = next.1.dinode s

variable {state next : Shared} {p : Proc} {s : Slot}

namespace Touches

variable (touches : Touches state next p s)
include touches

theorem balance : next.refs s + state.2.holds p s = state.refs s + next.2.holds p s :=
  sum_add_of_eq_off p fun q other => touches.holds q s (.inl other)

theorem refs_of_ne (other : c ≠ s) : next.refs c = state.refs c :=
  Finset.sum_congr rfl fun q _ => touches.holds q c (.inr other)

theorem task_eq_of_ne (task : Task)
    (elsewhere : ¬task.Concerns s) : next.1.task q = task ↔ state.1.task q = task := by
  obtain rfl | own := eq_or_ne q p
  · constructor
    · rintro rfl
      exact absurd touches.after elsewhere
    · rintro rfl
      exact absurd touches.before elsewhere
  · rw [touches.task q own]

theorem freed_of_ne (other : c ≠ s) : next.Freed c ↔ state.Freed c := by
  refine exists_congr fun q => ?_
  rw [touches.task_eq_of_ne (.frees .invalidates c) other,
    touches.task_eq_of_ne (.noType c) other]

end Touches

theorem holds_le_refs (state : Shared) (p : Proc) (s : Slot) : state.2.holds p s ≤ state.refs s :=
  Finset.single_le_sum (f := fun q => state.2.holds q s) (fun _ _ => Nat.zero_le _)
    (Finset.mem_univ p)

theorem holds_add_le_refs (state : Shared) (other : q ≠ p) (s : Slot) :
    state.2.holds q s + state.2.holds p s ≤ state.refs s := by
  have both := Finset.sum_le_univ_sum_of_nonneg (s := {q, p})
    (f := fun q => state.2.holds q s) fun _ => Nat.zero_le _
  rwa [Finset.sum_pair other] at both

namespace Coherent

variable (coherent : state.Coherent)
include coherent

theorem touch (touches : Touches state next p s) (settles : Settles state next p s) :
    next.Coherent := by
  have counted : (next.1.table s).ref = next.refs s := by
    have before := coherent.counted s
    have balance := touches.balance
    have after := settles.counted
    omega
  -- The inode of another entry in use is as before.
  have dinode : ∀ c, c ≠ s → 0 < state.refs c → next.1.dinode c = state.1.dinode c := by
    intro c other used
    rw [Inodes.dinode, Inodes.dinode, touches.table c other]
    refine touches.disk _ _ fun ⟨usedS, dev, inum⟩ => other ?_
    exact coherent.single used usedS ⟨dev, inum⟩
  refine ⟨?_, ?_, ?_, ?_, ?_, ?_, ?_, ?_, ?_, ?_⟩
  · intro c
    by_cases isS : c = s
    · rw [isS, counted]
    · rw [touches.table c isS, touches.refs_of_ne isS]
      exact coherent.counted c
  · intro c q locked
    obtain rfl | isS := eq_or_ne c s
    · obtain rfl | own := eq_or_ne q p
      · exact settles.holder (.inl locked)
      · rw [touches.holds q c (.inl own)]
        exact coherent.holder ((settles.lock q own).mpr locked)
    · rw [touches.table c isS] at locked
      rw [touches.holds q c (.inr isS)]
      exact coherent.holder locked
  · intro c q engages
    obtain rfl | own := eq_or_ne q p
    · have isS : c = s := by
        have after := touches.after
        cases at_ : next.1.task q <;> rw [at_] at engages after <;>
          first | exact engages.elim | exact engages.symm.trans after
      subst isS
      exact settles.holder (.inr engages)
    · rw [touches.task q own] at engages
      rw [touches.holds q c (.inl own)]
      exact coherent.engaged engages
  · intro c q locks
    obtain rfl | own := eq_or_ne q p
    · have isS : c = s := by
        have after := touches.after
        cases at_ : next.1.task q <;> rw [at_] at locks after <;>
          first | exact locks.elim | exact locks.symm.trans after
      subst isS
      exact settles.locks locks
    rw [touches.task q own] at locks
    have locked := coherent.locks locks
    obtain rfl | isS := eq_or_ne c s
    · exact (settles.lock q own).mp locked
    · rwa [touches.table c isS]
  · intro c q drops
    obtain rfl | own := eq_or_ne q p
    · have isS : c = s := by
        have after := touches.after
        rw [drops] at after
        exact after
      subst isS
      exact settles.released drops
    rw [touches.task q own] at drops
    have released := coherent.released drops
    obtain rfl | isS := eq_or_ne c s
    · exact fun locked => released ((settles.lock q own).mpr locked)
    · rwa [touches.table c isS]
  · intro q dev type inum allocates
    obtain rfl | own := eq_or_ne q p
    · exact touches.allocates dev type inum allocates
    · rw [touches.task q own] at allocates
      exact coherent.allocates allocates
  · intro a c usedA usedC same
    by_cases isA : a = s <;> by_cases isC : c = s
    · rw [isA, isC]
    · subst isA
      rw [touches.refs_of_ne isC] at usedC
      rw [touches.table c isC] at same
      rcases settles.inode with ⟨kept, used⟩ | fresh
      · exact coherent.single (used usedA) usedC
          ⟨kept.1.symm.trans same.1, kept.2.symm.trans same.2⟩
      · exact absurd ⟨same.1.symm, same.2.symm⟩ (fresh c isC usedC)
    · subst isC
      rw [touches.refs_of_ne isA] at usedA
      rw [touches.table a isA] at same
      rcases settles.inode with ⟨kept, used⟩ | fresh
      · exact coherent.single usedA (used usedC)
          ⟨same.1.trans kept.1, same.2.trans kept.2⟩
      · exact absurd same (fresh a isA usedA)
    · rw [touches.refs_of_ne isA] at usedA
      rw [touches.refs_of_ne isC] at usedC
      rw [touches.table a isA, touches.table c isC] at same
      exact coherent.single usedA usedC same
  · intro c q locked notLoads notReleases
    obtain rfl | isS := eq_or_ne c s
    · exact settles.filled q locked notLoads notReleases
    · rw [touches.table c isS] at locked ⊢
      refine coherent.filled locked ?_ ?_
      · rwa [Ne, ← touches.task_eq_of_ne (.loads c) isS]
      · rwa [Ne, ← touches.task_eq_of_ne (.frees .releases c) isS]
  · intro c used valid notFreed
    obtain rfl | isS := eq_or_ne c s
    · exact settles.typed used valid notFreed
    rw [touches.refs_of_ne isS] at used
    rw [touches.table c isS] at valid
    rw [touches.freed_of_ne isS] at notFreed
    rw [dinode c isS used, touches.table c isS]
    refine (coherent.typed used valid notFreed).imp id (Or.imp id fun ⟨q, writes⟩ => ⟨q, ?_⟩)
    exact (touches.task_eq_of_ne (.frees .writes c) isS).mpr writes
  intro c used valid notChanged notFreed
  obtain rfl | isS := eq_or_ne c s
  · exact settles.agrees used valid notChanged notFreed
  rw [touches.refs_of_ne isS] at used
  rw [touches.table c isS] at valid
  rw [touches.freed_of_ne isS] at notFreed
  rw [touches.changed c isS] at notChanged
  rw [dinode c isS used, touches.table c isS]
  exact coherent.agrees used valid notChanged notFreed

theorem moves (stuck : Bool) (before : ∀ s, ¬(state.1.task p).Engages s)
    (after : ∀ s, ¬task.Engages s)
    (allocates : ∀ dev type inum, task = .allocates dev type inum → type ≠ .free) :
    Coherent (({ state.1.setTask p task with stuck := stuck }, state.2) : Shared) := by
  set next : Shared := ({ state.1.setTask p task with stuck := stuck }, state.2)
  have own : next.1.task p = task := Function.update_self ..
  have others : ∀ q, q ≠ p → next.1.task q = state.1.task q := fun q other =>
    Function.update_of_ne other ..
  have engaged : ∀ {q s} (task' : Task), task'.Engages s →
      (next.1.task q = task' ↔ state.1.task q = task') := by
    intro q s task' engages
    obtain rfl | isP := eq_or_ne q p
    · constructor
      · rintro rfl
        rw [own] at engages
        exact absurd engages (after s)
      · rintro rfl
        exact absurd engages (before s)
    · rw [others q isP]
  have freed : ∀ s, next.Freed s ↔ state.Freed s := by
    intro s
    refine exists_congr fun q => ?_
    rw [engaged (s := s) (.frees .invalidates s) rfl,
      engaged (s := s) (.noType s) rfl]
  refine { coherent with
    engaged := ?_, locks := ?_, released := ?_, allocates := ?_, filled := ?_, typed := ?_
    agrees := ?_ }
  · intro s q engages
    exact coherent.engaged (((engaged _ engages).mp rfl).symm ▸ engages)
  · intro s q locks
    have engages : (next.1.task q).Engages s := by
      cases at_ : next.1.task q <;> rw [at_] at locks <;> first | exact locks.elim | exact locks
    exact coherent.locks (((engaged _ engages).mp rfl).symm ▸ locks)
  · intro s q drops
    exact coherent.released ((engaged (s := s) (.drops s) rfl).mp drops)
  · intro q dev type inum isAllocates
    obtain rfl | isP := eq_or_ne q p
    · exact allocates dev type inum (own.symm.trans isAllocates)
    · rw [others q isP] at isAllocates
      exact coherent.allocates isAllocates
  · intro s q locked notLoads notReleases
    refine coherent.filled locked ?_ ?_
    · rwa [Ne, ← engaged (s := s) (.loads s) rfl]
    · rwa [Ne, ← engaged (s := s) (.frees .releases s) rfl]
  · intro s used valid notFreed
    rw [freed] at notFreed
    refine (coherent.typed used valid notFreed).imp id (Or.imp id fun ⟨q, writes⟩ => ⟨q, ?_⟩)
    exact (engaged (s := s) (.frees .writes s) rfl).mpr writes
  · intro s used valid notChanged notFreed
    rw [freed] at notFreed
    exact coherent.agrees used valid notChanged notFreed

theorem claims (free : (state.1.disk dev inum).type = .free) :
    Coherent ((state.1.setDisk dev inum (.fresh type), state.2) : Shared) := by
  set next : Shared := (state.1.setDisk dev inum (.fresh type), state.2)
  -- No valid entry is for this inode, but one that is being freed.
  have dinode : ∀ s, 0 < state.refs s → (state.1.table s).valid = true → ¬state.Freed s →
      next.1.dinode s = state.1.dinode s := by
    intro s used valid notFreed
    have notFree := (coherent.typed used valid notFreed).1
    refine if_neg fun same => notFree ?_
    have isDev : (state.1.table s).dev = dev := same.1
    have isInum : (state.1.table s).inum = inum := same.2
    rw [Inodes.dinode, isDev, isInum, free]
  refine { coherent with typed := ?_, agrees := ?_ }
  · intro s used valid notFreed
    rw [dinode s used valid notFreed]
    exact coherent.typed used valid notFreed
  · intro s used valid notChanged notFreed
    rw [dinode s used valid notFreed]
    exact coherent.agrees used valid notChanged notFreed

end Coherent
end Shared
end Xv6.Fs
