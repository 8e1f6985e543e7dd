import Xv6.Bio.Refinement
import Xv6.Fs.Reload

/-!
# Full tables

`bget` panics where it finds neither the block nor a buffer without references, and
`iget` where it finds neither the inode nor an empty entry. Nothing above them bounds
what the processes use at once: a process in `bread` has a buffer while it waits for
the disk, and there are `NPROC` processes for `NBUF` buffers; an open file has an
entry of the inode table, and there are `NFILE` open files for `NINODE` entries.
-/

namespace Xv6.Bio

open Xv6.Semantics

variable {Block : Type}

/-- Where the step is the entry of `bread`, some buffer is for the block or has no references. -/
def BufferLeft (state : Observed Block) : Label Block → Prop
  | .bread _ dev blockno =>
    (∃ b, (state.1.buf b).dev = dev ∧ (state.1.buf b).blockno = blockno) ∨ ∃ b, state.refs b = 0
  | _ => True

variable {state next : Observed Block} {label : Label Block}

theorem Observed.Listed.refcnt_ne_zero (listed : state.Listed l)
    (notFound : state.1.unused = none) (b : Index) : (state.1.buf b).refcnt ≠ 0 := by
  rw [Cache.unused, listed.holds.search_prev (by rw [listed.length]; exact Nat.lt_succ_self _),
    List.find?_eq_none] at notFound
  simpa using notFound b (List.mem_reverse.mpr (listed.mem b))

/-- Only `bget` panics with `bcache.lock` held, and only where no buffer is left. -/
theorem Observed.Coherent.stuck_iff (coherent : state.Coherent)
    (observed : observedStep state label = some next) :
    next.1.stuck = false ↔ state.1.stuck = false ∧ BufferLeft state label := by
  obtain ⟨cache, ran, rfl⟩ := Option.map_eq_some_iff.mp observed
  cases label with
  | bread p dev blockno =>
    obtain ⟨l, listed⟩ := coherent.listed
    simp only [Bio.step, Cache.bget, Option.ite_none_left_eq_some, not_or, Bool.not_eq_true] at ran
    obtain ⟨⟨running, -⟩, ran⟩ := ran
    cases found : state.1.cached dev blockno with
    | some b =>
      obtain ⟨isDev, isBlockno, -⟩ := listed.first_of_cached found
      rw [found] at ran
      cases ran
      exact iff_of_true running ⟨running, .inl ⟨b, isDev, isBlockno⟩⟩
    | none =>
      rw [found] at ran
      cases unused : state.1.unused with
      | some b =>
        rw [unused] at ran
        cases ran
        have free := coherent.refs_eq_zero (listed.refcnt_of_unused unused)
        exact iff_of_true running ⟨running, .inr ⟨b, free⟩⟩
      | none =>
        rw [unused] at ran
        cases ran
        apply iff_of_false Bool.noConfusion
        rintro ⟨-, ⟨b, isFor⟩ | ⟨b, free⟩⟩
        · exact listed.not_isFor_of_not_cached found b isFor
        · apply listed.refcnt_ne_zero unused b
          rw [coherent.counted b, free]
          rfl
  | drop p =>
    simp only [Bio.step, Cache.drop] at ran
    repeat' split at ran
    all_goals cases ran
    all_goals exact (and_iff_left trivial).symm
  | _ =>
    simp only [Bio.step] at ran
    repeat' split at ran
    all_goals cases ran
    all_goals exact (and_iff_left trivial).symm

end Xv6.Bio

namespace Xv6.Fs

open Xv6.Semantics

/-- Where the step is that of `iget`, some entry is for the inode or has no references. -/
def EntryLeft (state : Shared) : Call → Prop
  | .get p => ∀ dev inum, state.1.task p = .gets dev inum →
    (∃ s, (state.1.table s).Serves dev inum) ∨ ∃ s, state.refs s = 0
  | _ => True

variable {state next : Shared} {call : Call}

theorem Itable.ref_of_not_empty {table : Itable} (notFound : table.empty = none) (s : Slot) :
    (table s).ref ≠ 0 := by
  simpa using List.find?_eq_none.mp notFound s (List.mem_finRange s)

/-- Only `iget` panics with `itable.lock` held, and only where no entry is left. -/
theorem Shared.Coherent.stuck_iff (coherent : state.Coherent) (careful : Careful state call)
    (shared : sharedStep state call = some next) :
    next.1.stuck = false ↔ state.1.stuck = false ∧ EntryLeft state call := by
  obtain ⟨inodes, ran, rfl⟩ := Option.map_eq_some_iff.mp shared
  cases call with
  | get p =>
    simp only [inodeStep] at ran
    split at ran
    · rename_i dev inum gets
      simp only [Itable.iget, Option.ite_none_left_eq_some, Bool.not_eq_true] at ran
      obtain ⟨running, ran⟩ := ran
      have left : EntryLeft state (.get p) ↔
          (∃ s, (state.1.table s).Serves dev inum) ∨ ∃ s, state.refs s = 0 := by
        simp [EntryLeft, gets]
      rw [left]
      cases found : state.1.table.active dev inum with
      | some s =>
        rw [found] at ran
        cases ran
        exact iff_of_true running ⟨running, .inl ⟨s, Itable.serves_of_active found⟩⟩
      | none =>
        rw [found] at ran
        cases empty : state.1.table.empty with
        | some s =>
          rw [empty] at ran
          cases ran
          have counted := coherent.counted s
          rw [Itable.ref_of_empty empty] at counted
          exact iff_of_true running ⟨running, .inr ⟨s, by omega⟩⟩
        | none =>
          rw [empty] at ran
          cases ran
          apply iff_of_false Bool.noConfusion
          rintro ⟨-, ⟨s, serves⟩ | ⟨s, free⟩⟩
          · exact Itable.not_serves_of_not_active found s serves
          · apply Itable.ref_of_not_empty empty s
            rw [coherent.counted s, free]
            rfl
    · cases ran
  | iput p s =>
    obtain ⟨holds, keeps⟩ := careful
    simp only [inodeStep, Option.ite_none_left_eq_some] at ran
    obtain ⟨-, ran⟩ := ran
    split at ran
    · rename_i last
      rw [if_neg (not_not.mpr (coherent.unlocked last.1 holds keeps))] at ran
      cases ran
      exact (and_iff_left trivial).symm
    · cases ran
      exact (and_iff_left trivial).symm
  | free p =>
    simp only [inodeStep] at ran
    split at ran
    · rename_i stage s frees
      cases ran
      cases stage <;> exact (and_iff_left trivial).symm
    · cases ran
  | _ =>
    simp only [inodeStep] at ran
    repeat' split at ran
    all_goals cases ran
    all_goals exact (and_iff_left trivial).symm

/-- Thirty-one processes each read another block. -/
def manyReads : List (Bio.Label Nat) :=
  ((List.finRange nproc).take 31).map fun p => .bread p 1 (p.val + 1)

/-- Four processes open fifty-one files, no more than sixteen each. -/
def manyFiles : List Call :=
  ((List.finRange nproc).flatMap fun p => (List.range 16).flatMap fun i =>
    [.iget p 1 (16 * p.val + i + 1), .get p]).take 102

end Xv6.Fs
