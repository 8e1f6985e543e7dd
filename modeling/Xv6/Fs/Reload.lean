import Xv6.Fs.Coherence

/-!
# The steps of the inode table

Every step of careful callers keeps the table coherent.
-/

namespace Xv6.Fs.Shared

open Function Xv6.Semantics

variable {state next : Shared} {p : Proc} {s : Slot}

/-- A step that changes one entry, the position of one process and its references. -/
theorem Touches.of_update {task : Task} (table : next.1.table = update state.1.table s inode)
    (isTask : next.1.task = update state.1.task p task)
    (holds : next.2.holds =
      update state.2.holds p (update (state.2.holds p) s count))
    (changed : next.2.changed = update state.2.changed s flag)
    (disk : ∀ dev inum, ¬(0 < state.refs s ∧ dev = (state.1.table s).dev ∧
      inum = (state.1.table s).inum) → next.1.disk dev inum = state.1.disk dev inum)
    (before : (state.1.task p).Concerns s) (after : task.Concerns s)
    (allocates : ∀ dev type inum, task ≠ .allocates dev type inum) : Touches state next p s := by
  have own : next.1.task p = task := by rw [isTask, update_self]
  refine ⟨?_, ?_, ?_, ?_, disk, before, own ▸ after, ?_⟩
  · intro c other
    rw [table, update_of_ne other]
  · intro q other
    rw [isTask, update_of_ne other]
  · intro q c other
    rw [holds]
    obtain rfl | isP := eq_or_ne q p
    · rw [update_self, update_of_ne (other.resolve_left (not_not.mpr rfl))]
    · rw [update_of_ne isP]
  · intro c other
    rw [changed, update_of_ne other]
  · intro dev type inum isAllocates
    exact absurd (own.symm.trans isAllocates) (allocates dev type inum)

theorem update_same {α β : Type} [DecidableEq α] (f : α → β) (a : α) :
    f = update f a (f a) := (update_eq_self ..).symm

theorem setHolds_same (record : Possession) (p : Proc) (s : Slot) :
    record.setHolds p s (record.holds p s) = record := by
  rw [Possession.setHolds, update_eq_self, update_eq_self]

theorem holds_same (record : Possession) (p : Proc) (s : Slot) :
    record.holds = update record.holds p (update (record.holds p) s (record.holds p s)) :=
  (congrArg Possession.holds (setHolds_same record p s)).symm

theorem setInode_same (inodes : Inodes) (s : Slot) :
    inodes.setInode s { inodes.table s with lock := (inodes.table s).lock } = inodes := by
  simp [Inodes.setInode]

theorem task_same {tasks : Proc → Task} (isTask : tasks p = task) :
    tasks = update tasks p task := by
  rw [← isTask, update_eq_self]

theorem setTask_same {inodes : Inodes} (isTask : inodes.task p = task) :
    inodes.setTask p task = inodes := by
  rw [← isTask, Inodes.setTask, update_eq_self]

theorem refs_pos (holds : 0 < state.2.holds p s) : 0 < state.refs s :=
  Nat.lt_of_lt_of_le holds (holds_le_refs state p s)

/-- A process that frees an inode or has panicked in `ilock`. -/
def Task.Ends (s : Slot) (task : Task) : Prop :=
  task = .frees .writes s ∨ task = .frees .invalidates s ∨ task = .noType s

theorem Task.Ends.engages (ends : Task.Ends s task) : task.Engages s := by
  rcases ends with rfl | rfl | rfl <;> rfl

namespace Coherent

variable (coherent : state.Coherent)
include coherent

theorem valid_of_holder (outside : state.1.task p = .outside)
    (locked : (state.1.table s).lock = some p) : (state.1.table s).valid = true :=
  coherent.filled locked (by simp [outside]) (by simp [outside])

/-- The entry of which a process has the last reference is not locked, if the process
has not locked it. -/
theorem unlocked (last : (state.1.table s).ref = 1) (holds : 0 < state.2.holds p s)
    (keeps : (state.1.table s).lock = some p → 1 < state.2.holds p s) :
    (state.1.table s).lock = none := by
  have counted := coherent.counted s
  cases lock : (state.1.table s).lock with
  | none => rfl
  | some q =>
    have held := coherent.holder lock
    obtain rfl | own := eq_or_ne q p
    · have more := keeps lock
      have atMost := holds_le_refs state q s
      omega
    · have atMost := holds_add_le_refs state own s
      omega

theorem recounts (ref : Int) (lock : Option Proc) (task : Task) (count : Nat)
    (used : 0 < state.refs s) (notEnds : ¬Task.Ends s (state.1.task p))
    (before : (state.1.task p).Concerns s) (after : task.Concerns s)
    (allocates : ∀ dev type inum, task ≠ .allocates dev type inum)
    (counted : ref + state.2.holds p s = (state.1.table s).ref + count)
    (others : ∀ q, q ≠ p → ((state.1.table s).lock = some q ↔ lock = some q))
    (holder : lock = some p ∨ task.Engages s → 0 < count) (locks : task.Locks s → lock = some p)
    (released : task = .drops s → lock ≠ some p)
    (filled : lock = some p → task ≠ .loads s → task ≠ .frees .releases s →
      (state.1.table s).valid = true) :
    Coherent (((state.1.setInode s { state.1.table s with ref := ref, lock := lock }).setTask p task,
      state.2.setHolds p s count) : Shared) := by
  set next : Shared := ((state.1.setInode s { state.1.table s with ref := ref, lock := lock }).setTask
    p task, state.2.setHolds p s count)
  have touches : Touches state next p s :=
    .of_update rfl rfl rfl (update_same ..) (fun _ _ _ => rfl) before after allocates
  have table : next.1.table s = { state.1.table s with ref := ref, lock := lock } := update_self ..
  have own : next.1.task p = task := update_self ..
  have holds : next.2.holds p s = count := by
    simp [next, Possession.setHolds]
  have dinode : next.1.dinode s = state.1.dinode s := by
    rw [Inodes.dinode, table]
    rfl
  have ends : ∀ {q}, Task.Ends s (state.1.task q) → next.1.task q = state.1.task q := by
    intro q ends
    apply touches.task q
    rintro rfl
    exact notEnds ends
  have freed : ¬next.Freed s → ¬state.Freed s := by
    rintro notFreed ⟨q, invalidates | noType⟩
    · exact notFreed ⟨q, .inl ((ends (.inr (.inl invalidates))).trans invalidates)⟩
    · exact notFreed ⟨q, .inr ((ends (.inr (.inr noType))).trans noType)⟩
  refine coherent.touch touches ⟨?_, ?_, ?_, ?_, ?_, .inl ⟨?_, fun _ => used⟩, ?_, ?_, ?_⟩
  all_goals rw [table]
  · rw [holds]
    exact counted
  · exact others
  · rwa [own, holds]
  · rwa [own]
  · rwa [own]
  · exact ⟨rfl, rfl⟩
  · intro q locked notLoads notReleases
    obtain rfl | isP := eq_or_ne q p
    · rw [own] at notLoads notReleases
      exact filled locked notLoads notReleases
    · rw [touches.task q isP] at notLoads notReleases
      exact coherent.filled ((others q isP).mpr locked) notLoads notReleases
  · intro _ isValid notFreed
    rw [dinode]
    exact (coherent.typed used isValid (freed notFreed)).imp id
      (Or.imp id (Exists.imp fun q writes => (ends (.inl writes)).trans writes))
  · intro _ isValid notChanged notFreed
    rw [dinode]
    exact coherent.agrees used isValid notChanged (freed notFreed)

theorem gains (used : 0 < state.refs s) (before : ∀ s, ¬(state.1.task p).Engages s)
    (concerns : (state.1.task p).Concerns s) :
    Coherent (((state.1.setInode s { state.1.table s with ref := (state.1.table s).ref + 1 }).setTask
      p .outside, state.2.setHolds p s (state.2.holds p s + 1)) : Shared) := by
  refine coherent.recounts _ _ .outside _ used (fun ends => before s ends.engages) concerns trivial
    (by simp) (by omega) (fun _ _ => Iff.rfl) (fun _ => Nat.succ_pos _) (fun locks => locks.elim)
    (by simp) fun locked _ _ => coherent.filled locked ?_ ?_
  · intro loads
    exact before s (by rw [loads]; rfl)
  · intro releases
    exact before s (by rw [releases]; rfl)

theorem recycles (touches : Touches state next p s)
    (absent : ∀ c, ¬(state.1.table c).Serves dev inum) (zero : (state.1.table s).ref = 0)
    (table : next.1.table s =
      { state.1.table s with dev := dev, inum := inum, ref := 1, valid := false })
    (task : next.1.task p = .outside) (holds : next.2.holds p s = state.2.holds p s + 1) :
    next.Coherent := by
  have unused : state.refs s = 0 := by
    have counted := coherent.counted s
    omega
  have none : state.2.holds p s = 0 := by
    have atMost := holds_le_refs state p s
    omega
  have unlocked : ∀ q, (state.1.table s).lock ≠ some q := by
    intro q locked
    have held := coherent.holder locked
    have atMost := holds_le_refs state q s
    omega
  refine coherent.touch touches ⟨?_, ?_, ?_, ?_, ?_, .inr ?_, ?_, ?_, ?_⟩
  · rw [table, holds, none, zero]
    rfl
  · intro q _
    rw [table]
  · intro _
    omega
  · intro locks
    rw [task] at locks
    exact locks.elim
  · intro drops
    rw [task] at drops
    cases drops
  · intro c _ used same
    have counted := coherent.counted c
    rw [table] at same
    exact absent c ⟨by omega, same⟩
  · intro q locked
    rw [table] at locked
    exact absurd locked (unlocked q)
  · intro _ valid
    rw [table] at valid
    cases valid
  · intro _ valid
    rw [table] at valid
    cases valid

/-- The process goes on in its call, and may take the sleep-lock or give it back. -/
theorem relocks (lock : Option Proc) (task : Task) (holds : 0 < state.2.holds p s)
    (notEnds : ¬Task.Ends s (state.1.task p)) (before : (state.1.task p).Concerns s)
    (after : task.Concerns s) (allocates : ∀ dev type inum, task ≠ .allocates dev type inum)
    (others : ∀ q, q ≠ p → ((state.1.table s).lock = some q ↔ lock = some q))
    (locks : task.Locks s → lock = some p) (released : task = .drops s → lock ≠ some p)
    (filled : lock = some p → task ≠ .loads s → task ≠ .frees .releases s →
      (state.1.table s).valid = true) :
    Coherent (((state.1.setInode s { state.1.table s with lock := lock }).setTask p task,
      state.2) : Shared) := by
  have moved := coherent.recounts _ lock task _ (refs_pos holds) notEnds before after allocates rfl
    others
    (fun _ => holds) locks released filled
  rwa [setHolds_same] at moved

theorem drops (holds : 0 < state.2.holds p s)
    (keeps : (state.1.table s).lock = some p → 1 < state.2.holds p s)
    (notEnds : ¬Task.Ends s (state.1.task p)) (concerns : (state.1.task p).Concerns s)
    (before : state.1.task p ≠ .loads s ∧ state.1.task p ≠ .frees .releases s) :
    Coherent ((dropRef state.1 p s, state.2.setHolds p s (state.2.holds p s - 1)) : Shared) := by
  refine coherent.recounts _ _ .outside _ (refs_pos holds) notEnds concerns trivial (by simp) (by omega)
    (fun _ _ => Iff.rfl) ?_ (fun locks => locks.elim) (by simp)
    fun locked _ _ => coherent.filled locked before.1 before.2
  rintro (locked | engages)
  · have more := keeps locked
    omega
  · exact engages.elim

theorem holder_settles {copy : Dinode} (touches : Touches state next p s)
    (locked : (state.1.table s).lock = some p)
    (table : next.1.table s = { state.1.table s with copy := copy, valid := valid })
    (holds : next.2.holds p s = state.2.holds p s) (notDrops : next.1.task p ≠ .drops s)
    (filled : next.1.task p ≠ .loads s → next.1.task p ≠ .frees .releases s → valid = true)
    (typed : valid = true → ¬next.Freed s → (next.1.dinode s).type ≠ .free ∧
      (copy.type = (next.1.dinode s).type ∨ ∃ q, next.1.task q = .frees .writes s))
    (agrees : valid = true → next.2.changed s = false → ¬next.Freed s →
      copy = next.1.dinode s) : next.Coherent := by
  have held := coherent.holder locked
  refine coherent.touch touches ⟨?_, ?_, fun _ => holds ▸ held, ?_, fun drops => absurd drops notDrops,
    .inl ⟨?_, fun _ => refs_pos held⟩, ?_, fun _ => ?_, fun _ => ?_⟩
  all_goals rw [table]
  · rw [holds]
  · exact fun _ _ => Iff.rfl
  · exact fun _ => locked
  · exact ⟨rfl, rfl⟩
  · intro q isLocked notLoads notReleases
    cases locked.symm.trans isLocked
    exact filled notLoads notReleases
  · exact typed
  · exact agrees

/-- No process is about to free the inode of an entry that another one has locked. -/
theorem alone (locked : (state.1.table s).lock = some p) (notEnds : ¬Task.Ends s (state.1.task p)) :
    ¬state.Freed s ∧ ∀ q, state.1.task q ≠ .frees .writes s := by
  have others : ∀ {q}, ¬Task.Ends s (state.1.task q) := by
    intro q ends
    have locks : (state.1.task q).Locks s := by
      rcases ends with ends | ends | ends <;> (rw [ends]; rfl)
    have isP := Option.some.inj ((coherent.locks locks).symm.trans locked)
    rw [isP] at ends
    exact notEnds ends
  refine ⟨?_, fun q writes => others (.inl writes)⟩
  rintro ⟨q, invalidates | noType⟩
  · exact others (.inr (.inl invalidates))
  · exact others (.inr (.inr noType))

theorem type_of_holder (locked : (state.1.table s).lock = some p)
    (valid : (state.1.table s).valid = true) (notEnds : ¬Task.Ends s (state.1.task p)) :
    (state.1.dinode s).type ≠ .free ∧
      (state.1.table s).copy.type = (state.1.dinode s).type := by
  obtain ⟨notFreed, notWrites⟩ := coherent.alone locked notEnds
  obtain ⟨notFree, sameType⟩ := coherent.typed (refs_pos (coherent.holder locked)) valid notFreed
  exact ⟨notFree, sameType.resolve_right fun ⟨q, writes⟩ => notWrites q writes⟩

section

variable (touches : Touches state next p s)
include touches

section

variable (locked : (state.1.table s).lock = some p) (valid : (state.1.table s).valid = true)
include locked valid

theorem changes {copy : Dinode} (notEnds : ¬Task.Ends s (state.1.task p))
    (table : next.1.table s = { state.1.table s with copy := copy })
    (disk : next.1.disk = state.1.disk)
    (type : copy.type = (state.1.table s).copy.type ∨ next.1.task p = .frees .writes s)
    (notDrops : next.1.task p ≠ .drops s) (holds : next.2.holds p s = state.2.holds p s)
    (changed : next.2.changed s = true) : next.Coherent := by
  have dinode : next.1.dinode s = state.1.dinode s := by
    rw [Inodes.dinode, Inodes.dinode, disk, table]
  obtain ⟨notFree, sameType⟩ := coherent.type_of_holder locked valid notEnds
  refine coherent.holder_settles touches locked table holds notDrops (fun _ _ => valid) ?_ ?_
  · intro _ _
    rw [dinode]
    exact ⟨notFree, type.imp (fun type => type.trans sameType) fun writes => ⟨p, writes⟩⟩
  · intro _ notChanged
    rw [changed] at notChanged
    cases notChanged

theorem stores (notEnds : ¬Task.Ends s (state.1.task p) ∨ next.1.task p = .frees .invalidates s)
    (table : next.1.table s = state.1.table s) (dinode : next.1.dinode s = (state.1.table s).copy)
    (notDrops : next.1.task p ≠ .drops s) (holds : next.2.holds p s = state.2.holds p s) :
    next.Coherent := by
  refine coherent.holder_settles touches locked table holds notDrops (fun _ _ => valid) ?_
    fun _ _ _ => dinode.symm
  intro _ notFreed
  rcases notEnds with notEnds | invalidates
  · obtain ⟨notFree, sameType⟩ := coherent.type_of_holder locked valid notEnds
    rw [dinode]
    exact ⟨sameType ▸ notFree, .inl rfl⟩
  · exact absurd ⟨p, .inl invalidates⟩ notFreed

end

theorem loads (isLoads : state.1.task p = .loads s)
    (table : next.1.table s =
      { state.1.table s with copy := state.1.dinode s, valid := true })
    (task : next.1.task p = if (state.1.dinode s).type = .free then .noType s else .outside)
    (disk : next.1.disk = state.1.disk) (holds : next.2.holds p s = state.2.holds p s) :
    next.Coherent := by
  have dinode : next.1.dinode s = state.1.dinode s := by
    rw [Inodes.dinode, Inodes.dinode, disk, table]
  have locked := coherent.locks (s := s) (p := p) (by rw [isLoads]; rfl)
  refine coherent.holder_settles touches locked table holds ?_ (fun _ _ => rfl) ?_
    fun _ _ _ => dinode.symm
  · rw [task]
    split <;> simp
  intro _ notFreed
  rw [dinode]
  refine ⟨fun free => ?_, .inl rfl⟩
  rw [if_pos free] at task
  exact notFreed ⟨p, .inr task⟩

theorem invalidates (isInvalidates : state.1.task p = .frees .invalidates s)
    (table : next.1.table s = { state.1.table s with valid := false })
    (task : next.1.task p = .frees .releases s) (holds : next.2.holds p s = state.2.holds p s) :
    next.Coherent :=
  coherent.holder_settles touches (coherent.locks (by rw [isInvalidates]; rfl)) table holds
    (by simp [task]) (fun _ notReleases => absurd task notReleases) nofun nofun

end

theorem freeStep (frees : state.1.task p = .frees stage s) :
    Coherent ((Fs.freeStep state.1 p s stage, possess state.1 state.2 (.free p)) : Shared) := by
  have locked := coherent.locks (s := s) (p := p) (by rw [frees]; rfl)
  have used := refs_pos (coherent.holder locked)
  have before : (state.1.task p).Concerns s := by
    rw [frees]
    rfl
  have valid : stage ≠ .releases → (state.1.table s).valid = true := fun notReleases =>
    coherent.filled locked (by simp [frees]) (by simp [frees, notReleases])
  have holdsSame := holds_same state.2 p s
  have tableSame := update_same state.1.table s
  have changedSame := update_same state.2.changed s
  have diskElse : ∀ dev inum, ¬(0 < state.refs s ∧ dev = (state.1.table s).dev ∧
      inum = (state.1.table s).inum) → (state.1.iupdate s).disk dev inum = state.1.disk dev inum :=
    fun dev inum other => if_neg fun same => other ⟨used, same⟩
  cases stage with
  | truncates =>
    rw [show possess state.1 state.2 (.free p) = state.2.setChanged s true by
      simp [possess, frees]]
    exact coherent.changes (p := p) (s := s)
      (.of_update rfl rfl holdsSame rfl (fun _ _ _ => rfl) before rfl (by simp)) locked
      (valid (by simp)) (by simp [frees, Task.Ends]) (update_self ..) rfl (.inl rfl)
      (by simp [Fs.freeStep, Inodes.setTask]) rfl (update_self ..)
  | updates =>
    rw [show possess state.1 state.2 (.free p) = state.2.setChanged s false by
      simp [possess, frees]]
    exact coherent.stores (p := p) (s := s)
      (.of_update tableSame rfl holdsSame rfl diskElse before rfl (by simp)) locked
      (valid (by simp)) (.inl (by simp [frees, Task.Ends])) rfl (if_pos ⟨rfl, rfl⟩)
      (by simp [Fs.freeStep, Inodes.setTask]) rfl
  | clears =>
    rw [show possess state.1 state.2 (.free p) = state.2.setChanged s true by
      simp [possess, frees]]
    exact coherent.changes (p := p) (s := s)
      (.of_update rfl rfl holdsSame rfl (fun _ _ _ => rfl) before rfl (by simp)) locked
      (valid (by simp)) (by simp [frees, Task.Ends]) (update_self ..) rfl
      (.inr (update_self ..)) (by simp [Fs.freeStep, Inodes.setTask]) rfl
      (update_self ..)
  | writes =>
    rw [show possess state.1 state.2 (.free p) = state.2.setChanged s false by
      simp [possess, frees]]
    exact coherent.stores (p := p) (s := s)
      (.of_update tableSame rfl holdsSame rfl diskElse before rfl (by simp)) locked
      (valid (by simp)) (.inr (update_self ..)) rfl (if_pos ⟨rfl, rfl⟩)
      (by simp [Fs.freeStep, Inodes.setTask]) rfl
  | invalidates =>
    rw [show possess state.1 state.2 (.free p) = state.2 by simp [possess, frees]]
    exact coherent.invalidates (p := p) (s := s)
      (.of_update rfl rfl holdsSame changedSame (fun _ _ _ => rfl) before rfl (by simp)) frees
      (update_self ..) (update_self ..) rfl
  | releases =>
    rw [show possess state.1 state.2 (.free p) = state.2 by simp [possess, frees]]
    refine coherent.relocks _ _ (coherent.holder locked) (by simp [frees, Task.Ends]) before rfl (by simp)
      ?_ (by simp [Task.Locks]) (by simp) (by simp)
    intro q other
    simp [locked, other.symm]

theorem step (careful : Careful state call)
    (shared : sharedStep state call = some next) : next.Coherent := by
  obtain ⟨inodes, ran, rfl⟩ := Option.map_eq_some_iff.mp shared
  have outsideEngages : ∀ s, ¬Task.Engages s .outside := fun _ engages => engages
  cases call with
  | ialloc p dev type =>
    simp only [inodeStep, Option.ite_none_left_eq_some, not_not] at ran
    obtain ⟨outside, ran⟩ := ran
    cases ran
    refine coherent.moves state.1.stuck (outside ▸ outsideEngages)
      (fun _ engages => engages) ?_
    rintro _ _ _ ⟨⟩
    exact careful
  | scan p =>
    simp only [inodeStep] at ran
    split at ran
    · rename_i dev type inum allocates
      have before : ∀ s, ¬(state.1.task p).Engages s := by
        rw [allocates]
        exact fun _ engages => engages
      split at ran
      · split at ran
        · rename_i free
          cases ran
          exact (coherent.claims free).moves state.1.stuck before
            (fun _ engages => engages) (by simp)
        · cases ran
          refine coherent.moves state.1.stuck before (fun _ engages => engages) ?_
          rintro _ _ _ ⟨⟩
          exact coherent.allocates allocates
      · cases ran
        exact coherent.moves state.1.stuck before (fun _ engages => engages) (by simp)
    · cases ran
  | iget p dev inum =>
    simp only [inodeStep, Option.ite_none_left_eq_some, not_not] at ran
    obtain ⟨outside, ran⟩ := ran
    cases ran
    exact coherent.moves state.1.stuck (outside ▸ outsideEngages)
      (fun _ engages => engages) (by simp)
  | get p =>
    simp only [inodeStep] at ran
    split at ran
    · rename_i dev inum gets
      have before : ∀ s, ¬(state.1.task p).Engages s := by
        rw [gets]
        exact fun _ engages => engages
      have concerns : ∀ s, (state.1.task p).Concerns s := by
        rw [gets]
        exact fun _ => trivial
      split at ran
      · cases ran
      simp only [possess, gets]
      cases found : state.1.table.active dev inum with
      | some s =>
        have serves := Itable.serves_of_active found
        have used : 0 < state.refs s := by
          have counted := coherent.counted s
          have positive := serves.1
          omega
        simp only [Itable.iget, found] at ran ⊢
        cases ran
        exact coherent.gains used before (concerns s)
      | none =>
        have absent := Itable.not_serves_of_not_active found
        cases empty : state.1.table.empty with
        | some s =>
          simp only [Itable.iget, found, empty] at ran ⊢
          cases ran
          exact coherent.recycles (p := p) (s := s)
            (.of_update rfl rfl rfl (update_same ..) (fun _ _ _ => rfl) (concerns s) trivial
              (by simp)) absent (Itable.ref_of_empty empty) (update_self ..)
            (update_self ..) (by simp [Possession.setHolds])
        | none =>
          simp only [Itable.iget, found, empty] at ran ⊢
          cases ran
          exact coherent.moves true before (fun _ engages => engages) (by simp)
    · cases ran
  | idup p s =>
    simp only [inodeStep, Option.ite_none_left_eq_some, not_or, not_not] at ran
    obtain ⟨⟨-, outside⟩, ran⟩ := ran
    cases ran
    have gained := coherent.gains (p := p) (refs_pos careful) (outside ▸ outsideEngages)
      (by rw [outside]; trivial)
    rwa [setTask_same (by exact outside)] at gained
  | ilock p s =>
    simp only [inodeStep, Option.ite_none_left_eq_some, not_not] at ran
    obtain ⟨outside, ran⟩ := ran
    split at ran
    · cases ran
      exact coherent.moves state.1.stuck (outside ▸ outsideEngages)
        (fun _ engages => engages) (by simp)
    cases ran
    have sleeps := coherent.relocks _ (.sleeps s) careful
      (by simp [outside, Task.Ends]) (by rw [outside]; trivial) rfl (by simp)
      (fun _ _ => Iff.rfl) (by simp [Task.Locks]) (by simp)
      fun locked _ _ => coherent.valid_of_holder outside locked
    rwa [setInode_same] at sleeps
  | acquiresleep p =>
    simp only [inodeStep] at ran
    split at ran
    · rename_i s sleeps
      split at ran
      · rename_i unlocked
        cases ran
        refine coherent.relocks _ _ (coherent.engaged (by rw [sleeps]; rfl)) (by simp [sleeps, Task.Ends])
          (by rw [sleeps]; rfl) rfl (by simp) ?_ (fun _ => rfl) (by simp) (by simp)
        intro q other
        simp [unlocked, other.symm]
      · cases ran
    · cases ran
  | load p =>
    simp only [inodeStep] at ran
    split at ran
    · rename_i s loads
      have locked := coherent.locks (s := s) (p := p) (by rw [loads]; rfl)
      have concerns : (state.1.task p).Concerns s := by
        rw [loads]
        rfl
      split at ran
      · rename_i valid
        cases ran
        rw [show possess state.1 state.2 (.load p) = state.2 by simp [possess, loads, valid]]
        have returns := coherent.relocks _ .outside (coherent.holder locked)
          (by simp [loads, Task.Ends]) concerns trivial (by simp)
          (fun _ _ => Iff.rfl) (fun locks => locks.elim) (by simp) fun _ _ _ => valid
        rwa [setInode_same] at returns
      rename_i invalid
      cases ran
      rw [show possess state.1 state.2 (.load p) = state.2.setChanged s false by
        simp [possess, loads, invalid]]
      refine coherent.loads (p := p) (s := s)
        (.of_update rfl rfl (holds_same ..) rfl (fun _ _ _ => rfl) concerns ?_ ?_) loads
        (update_self ..) (update_self ..) rfl rfl
      · split <;> trivial
      · intro dev type inum
        split <;> simp
    · cases ran
  | iunlock p s =>
    simp only [inodeStep, Option.ite_none_left_eq_some, not_not] at ran
    obtain ⟨outside, ran⟩ := ran
    split at ran
    · cases ran
      exact coherent.moves state.1.stuck (outside ▸ outsideEngages)
        (fun _ engages => engages) (by simp)
    rename_i held
    have locked : (state.1.table s).lock = some p := by
      by_contra notLocked
      exact held (.inl notLocked)
    cases ran
    have released := coherent.relocks none .outside (coherent.holder locked)
      (by simp [outside, Task.Ends]) (by rw [outside]; trivial) trivial (by simp)
      (fun q other => by simp [locked, other.symm]) (fun locks => locks.elim) (by simp) (by simp)
    rwa [setTask_same (by exact outside)] at released
  | change p s copy =>
    obtain ⟨locked, type⟩ := careful
    simp only [inodeStep, Option.ite_none_left_eq_some, not_not] at ran
    obtain ⟨outside, ran⟩ := ran
    cases ran
    exact coherent.changes (p := p) (s := s)
      (.of_update rfl (task_same outside) (holds_same ..) rfl (fun _ _ _ => rfl)
        (by rw [outside]; trivial) trivial (by simp)) locked
      (coherent.valid_of_holder outside locked) (by simp [outside, Task.Ends])
      (update_self ..) rfl (.inl type) (by simp [Inodes.setInode, outside]) rfl
      (update_self ..)
  | iupdate p s =>
    have used := refs_pos (coherent.holder careful)
    simp only [inodeStep, Option.ite_none_left_eq_some, not_not] at ran
    obtain ⟨outside, ran⟩ := ran
    cases ran
    exact coherent.stores (p := p) (s := s)
      (.of_update (update_same ..) (task_same outside) (holds_same ..) rfl
        (fun _ _ other => if_neg fun same => other ⟨used, same⟩)
        (by rw [outside]; trivial) trivial (by simp)) careful
      (coherent.valid_of_holder outside careful) (.inl (by simp [outside, Task.Ends])) rfl
      (if_pos ⟨rfl, rfl⟩) (by simp [Inodes.iupdate, Inodes.setDisk, outside]) rfl
  | iput p s =>
    obtain ⟨holds, keeps⟩ := careful
    simp only [inodeStep, Option.ite_none_left_eq_some, not_or, not_not] at ran
    obtain ⟨⟨-, outside⟩, ran⟩ := ran
    split at ran
    · rename_i last
      have unlocked := coherent.unlocked last.1 holds keeps
      rw [show possess state.1 state.2 (.iput p s) = state.2 by simp [possess, last]]
      rw [if_neg (not_not.mpr unlocked)] at ran
      cases ran
      refine coherent.relocks _ _ holds (by simp [outside, Task.Ends]) (by rw [outside]; trivial) rfl
        (by simp) ?_ (fun _ => rfl) (by simp) fun _ _ _ => last.2.1
      intro q other
      simp [unlocked, other.symm]
    rename_i notLast
    cases ran
    rw [show possess state.1 state.2 (.iput p s) =
      state.2.setHolds p s (state.2.holds p s - 1) by simp only [possess, if_neg notLast]]
    exact coherent.drops holds keeps (by simp [outside, Task.Ends]) (by rw [outside]; trivial)
      (by simp [outside])
  | free p =>
    simp only [inodeStep] at ran
    split at ran
    · rename_i stage s frees
      cases ran
      exact coherent.freeStep frees
    · cases ran
  | drop p =>
    simp only [inodeStep] at ran
    split at ran
    · rename_i s isDrops
      split at ran
      · cases ran
      cases ran
      rw [show possess state.1 state.2 (.drop p) =
        state.2.setHolds p s (state.2.holds p s - 1) by simp [possess, isDrops]]
      exact coherent.drops (coherent.engaged (by rw [isDrops]; rfl))
        (fun locked => absurd locked (coherent.released isDrops)) (by simp [isDrops, Task.Ends])
        (by rw [isDrops]; rfl) (by simp [isDrops])
    · cases ran

end Coherent

theorem Initial.coherent (initial : state.Initial) : state.Coherent := by
  obtain ⟨⟨entries, outside, _⟩, none, _⟩ := initial
  have refs : ∀ s, state.refs s = 0 := fun s => Finset.sum_eq_zero fun p _ => none p s
  refine ⟨?_, ?_, ?_, ?_, ?_, ?_, ?_, ?_, ?_, ?_⟩
  · intro s
    rw [refs s, (entries s).1]
    rfl
  · intro s p locked
    rw [(entries s).2.1] at locked
    cases locked
  · intro s p engages
    rw [outside p] at engages
    exact engages.elim
  · intro s p locks
    rw [outside p] at locks
    exact locks.elim
  · intro s p drops
    rw [outside p] at drops
    cases drops
  · intro p dev type inum allocates
    rw [outside p] at allocates
    cases allocates
  · intro a b used
    rw [refs a] at used
    exact absurd used (Nat.lt_irrefl 0)
  · intro s p locked
    rw [(entries s).2.1] at locked
    cases locked
  · intro s used
    rw [refs s] at used
    exact absurd used (Nat.lt_irrefl 0)
  · intro s used
    rw [refs s] at used
    exact absurd used (Nat.lt_irrefl 0)

/-- An inode has one entry, which `iget` finds as long as there are references to it.
The copy in an entry that is locked and valid is the inode on the disk, if it has not
been changed since; but not where `iput` has written type 0 and has not yet cleared
`valid`, nor in the entry of an inode without a type, in which `ilock` has panicked. -/
structure Consistent (state : Shared) : Prop where
  single : ∀ a b, 0 < (state.1.table a).ref → 0 < (state.1.table b).ref →
    (state.1.table a).SameInode (state.1.table b) → a = b
  found : ∀ p s, 0 < state.2.holds p s →
    (state.1.table.iget (state.1.table s).dev (state.1.table s).inum).map Prod.fst = some s
  agrees : ∀ s p, (state.1.table s).lock = some p → (state.1.table s).valid = true →
    state.2.changed s = false → state.1.task p ≠ .frees .invalidates s →
      state.1.task p ≠ .noType s → (state.1.table s).copy = state.1.dinode s

theorem Coherent.consistent (coherent : state.Coherent) : state.Consistent := by
  have single : ∀ a b, 0 < (state.1.table a).ref → 0 < (state.1.table b).ref →
      (state.1.table a).SameInode (state.1.table b) → a = b := by
    intro a b usedA usedB same
    have countedA := coherent.counted a
    have countedB := coherent.counted b
    exact coherent.single (by omega) (by omega) same
  refine ⟨single, ?_, ?_⟩
  · intro p s holds
    have used : 0 < (state.1.table s).ref := by
      have counted := coherent.counted s
      have positive := refs_pos holds
      omega
    have found : state.1.table.active (state.1.table s).dev (state.1.table s).inum = some s :=
      Itable.active_eq ⟨used, rfl, rfl⟩ fun c serves => single c s serves.1 used serves.2
    rw [Itable.iget, found]
    rfl
  intro s p locked valid notChanged notInvalidates notNoType
  apply coherent.agrees (refs_pos (coherent.holder locked)) valid notChanged
  rintro ⟨q, ends⟩
  have locks : (state.1.task q).Locks s := by
    rcases ends with ends | ends <;> (rw [ends]; rfl)
  have isP := Option.some.inj ((coherent.locks locks).symm.trans locked)
  rw [isP] at ends
  exact ends.elim notInvalidates notNoType

end Xv6.Fs.Shared

namespace Xv6.Fs

open Xv6.Semantics

theorem coherent_of_runs
    (run : (itable.restrict Careful).Runs start calls state) : state.Coherent := by
  have initial : ∀ state, (itable.restrict Careful).Initial state → state.Coherent :=
    fun _ valid => Shared.Initial.coherent valid
  exact run.invariant initial fun {_ _ _} coherent transition =>
    coherent.step transition.2 transition.1

/-- A disk without allocated inodes. -/
def emptyDisk : Shared :=
  ({ table := fun _ => ⟨0, 0, 0, none, false, false, 0, false, .fresh .free⟩
     disk := fun _ _ => .fresh .free
     ninodes := 200
     task := fun _ => .outside
     stuck := false },
   { holds := fun _ _ => 0, changed := fun _ => false })

theorem emptyDisk_initial : emptyDisk.Initial :=
  ⟨⟨fun _ => ⟨rfl, rfl, rfl⟩, fun _ => rfl, rfl⟩, fun _ _ => rfl, fun _ => rfl⟩

/-- The first two processes. -/
def first : Proc := ⟨0, zero_lt_nproc⟩

def second : Proc := ⟨1, one_lt_nproc⟩

/-- A process allocates an inode and puts it without a link. When it has written type 0,
another process allocates the inode again. -/
def reallocates : List Call :=
  [.ialloc first 1 .file, .scan first, .get first, .ilock first 0, .acquiresleep first, .load first,
    .iunlock first 0, .iput first 0, .free first, .free first, .free first, .free first,
    .ialloc second 1 .dir, .scan second]

/-- The other process gets the same entry, and loads it when it has been released. -/
def reloads : List Call :=
  [.get second, .ilock second 0, .free first, .free first, .acquiresleep second, .load second]

end Xv6.Fs
