import Mathlib.Data.List.FinRange
import Mathlib.Data.List.TakeWhile
import Xv6.Proc.Tokens
import Xv6.Proc.Preservation

/-!
# `pslist`

`pslist` fills one record on its stack for each process in use and copies it to the
user. The machine knows only what it does to the process; here are the records too.
The record is never cleared, so a field that is not assigned for a process still has
the value it got for the process before, or whatever was on the stack.
-/

namespace Xv6.Proc

open Function

/-- `name[16]`, up to its terminating zero. -/
structure Name where
  bytes : List UInt8
  terminated : ∀ byte ∈ bytes, byte ≠ 0
  short : bytes.length < 16

/-- An entry of `proc[]` with its name. -/
structure Entry where
  process : Process
  name : Name

/-- `struct uproc`. -/
structure Uproc where
  pid : Int
  name : List UInt8
  state : String
  ticks : Int
  avialableTokens : Int
  pticks : Int

/-- `sizeof(struct uproc)`. -/
def uprocSize : Nat := 40

/-- `states[p->state]`. -/
def stateName : ProcState → String
  | .unused => "unused"
  | .used => "used"
  | .sleeping => "sleep "
  | .runnable => "runble"
  | .running => "run "
  | .zombie => "zombie"

/-- `tick_diff`. -/
def listDiff (process : Process) : Int :=
  wrap32 (process.time + process.avialableTokens - process.lastScheduledTick)

/-- The inner loop, with the record. -/
def listLoop : Nat → Uproc → Process → Uproc × Process
  | 0, u, process => (u, process)
  | count + 1, u, process =>
    if u.avialableTokens > 0 then
      listLoop count { u with ticks := wrap32 (u.ticks + 1),
                              avialableTokens := u.avialableTokens - 1 } process
    else
      listLoop count { u with ticks := process.pticks, avialableTokens := 64 }
        { process with state := .sleeping, avialableTokens := 64 }

/-- The body of the loop of `pslist` for a process in use, up to `copyout`. -/
def listEntry (u : Uproc) (entry : Entry) : Uproc × Process :=
  let process := entry.process
  let u := { u with pid := process.pid, avialableTokens := process.avialableTokens,
                    pticks := process.pticks }
  let (u, process) :=
    if listDiff process > 0 then listLoop (listDiff process).toNat { u with ticks := 0 } process
    else (u, process)
  ({ u with state := stateName process.state, name := entry.name.bytes }, process)

/-- The variables of `pslist`, and the records it has copied. -/
structure Listing where
  table : Slot → Entry
  u : Uproc
  utable : Nat
  records : List Uproc

/-- A process that `pslist` does not skip. -/
def inUse (table : Slot → Entry) (p : Slot) : Bool := (table p).process.state ≠ .unused

/-- The loop of `pslist` over some entries; `copies` tells where `copyout` succeeds. -/
def pslistLoop (copies : Nat → Bool) : List Slot → Listing → Listing × Int
  | [], listing => (listing, listing.records.length)
  | p :: rest, listing =>
    if inUse listing.table p then
      let (u, process) := listEntry listing.u (listing.table p)
      let table := update listing.table p { listing.table p with process := process }
      if copies listing.utable then
        pslistLoop copies rest
          ⟨table, u, listing.utable + uprocSize, listing.records ++ [u]⟩
      else ({ listing with table := table, u := u }, -1)
    else pslistLoop copies rest listing

/-- `pslist`, with what is on its stack. -/
def pslist (copies : Nat → Bool) (table : Slot → Entry) (stack : Uproc) (utable : Nat) :
    Listing × Int :=
  pslistLoop copies (List.finRange nproc) ⟨table, stack, utable, []⟩

/-! ## What is listed -/

variable {table other : Slot → Entry} {stack u : Uproc} {copies : Nat → Bool} {utable : Nat}
  {p : Slot}

/-- The processes in use, in the order of the table. -/
def used (table : Slot → Entry) : List Slot := (List.finRange nproc).filter (inUse table)

/-- The record after some entries. -/
def recordAfter (table : Slot → Entry) (stack : Uproc) (slots : List Slot) : Uproc :=
  (slots.filter (inUse table)).foldl (fun u q => (listEntry u (table q)).1) stack

/-- The record of an entry. -/
def recordOf (table : Slot → Entry) (stack : Uproc) (p : Slot) : Uproc :=
  (listEntry (recordAfter table stack ((List.finRange nproc).take p.val)) (table p)).1

/-- The processes that are listed, up to the first record that cannot be copied. -/
def visited (copies : Nat → Bool) : Nat → List Slot → List Slot
  | _, [] => []
  | utable, p :: rest =>
    p :: if copies utable then visited copies (utable + uprocSize) rest else []

/-- All records can be copied. -/
def AllCopied (copies : Nat → Bool) (utable count : Nat) : Prop :=
  ∀ k < count, copies (utable + uprocSize * k) = true

/-- The record says who the process is. -/
def Reports (entry : Entry) (u : Uproc) : Prop :=
  u.pid = entry.process.pid ∧ u.name = entry.name.bytes ∧ u.state = stateName entry.process.state

/-- The record of a process is the same whatever the other processes and the stack are. -/
def DeterminedAlone (table : Slot → Entry) (stack : Uproc) (p : Slot) : Prop :=
  ∀ other before, other p = table p → recordOf other before p = recordOf table stack p

/-- `pslist` is a query: it changes no process, reports every process in use, and fails
only where a record cannot be copied. -/
structure Queries (copies : Nat → Bool) (table : Slot → Entry) (stack : Uproc) (utable : Nat) :
    Prop where
  unchanged : (pslist copies table stack utable).1.table = table
  complete : 0 ≤ (pslist copies table stack utable).2 →
    (pslist copies table stack utable).2 = (used table).length ∧
      (pslist copies table stack utable).1.records = (used table).map (recordOf table stack) ∧
      ∀ p ∈ used table, Reports (table p) (recordOf table stack p) ∧ DeterminedAlone table stack p
  failed : (pslist copies table stack utable).2 < 0 →
    (pslist copies table stack utable).2 = -1 ∧ ¬ AllCopied copies utable (used table).length

/-- `pslist` assigns to the process only what it has already. -/
def Process.Quiet (process : Process) : Prop :=
  (listDiff process).toNat ≤ process.avialableTokens.toNat ∨
    process.state = .sleeping ∧ process.avialableTokens = 64

/-! ## One entry -/

theorem listLoop_process (count : Nat) (u : Uproc) (process : Process) :
    (listLoop count u process).2 = listTicks count u.avialableTokens process := by
  induction count generalizing u process with
  | zero => rfl
  | succ count ih =>
    rw [listLoop, listTicks]
    split
    · exact ih _ _
    · exact ih _ _

theorem listLoop_pid (count : Nat) (u : Uproc) (process : Process) :
    (listLoop count u process).1.pid = u.pid := by
  induction count generalizing u process with
  | zero => rfl
  | succ count ih =>
    rw [listLoop]
    split
    · exact ih _ _
    · exact ih _ _

theorem listLoop_texts (count : Nat) (u : Uproc) (process : Process) (name : List UInt8)
    (state : String) :
    listLoop count { u with name := name, state := state } process =
      ({ (listLoop count u process).1 with name := name, state := state },
        (listLoop count u process).2) := by
  induction count generalizing u process with
  | zero => rfl
  | succ count ih =>
    rw [listLoop, listLoop]
    split
    · exact ih { u with ticks := wrap32 (u.ticks + 1),
                                         avialableTokens := u.avialableTokens - 1 } process
    · exact ih { u with ticks := process.pticks, avialableTokens := 64 } _

theorem listed_eq (process : Process) : listed process =
    if listDiff process > 0 then
      listTicks (listDiff process).toNat process.avialableTokens process
    else process := rfl

theorem listEntry_process (u : Uproc) (entry : Entry) :
    (listEntry u entry).2 = listed entry.process := by
  simp only [listEntry, listed_eq]
  by_cases elapsed : listDiff entry.process > 0
  · rw [if_pos elapsed, if_pos elapsed]
    exact listLoop_process _ _ _
  · rw [if_neg elapsed, if_neg elapsed]

theorem listEntry_pid (u : Uproc) (entry : Entry) :
    (listEntry u entry).1.pid = entry.process.pid := by
  simp only [listEntry]
  split
  · exact listLoop_pid _ _ _
  · rfl

theorem listEntry_state (u : Uproc) (entry : Entry) :
    (listEntry u entry).1.state = stateName (listed entry.process).state := by
  rw [← listEntry_process u entry]
  rfl

theorem listEntry_determined (elapsed : 0 < listDiff entry.process)
    (u before : Uproc) : listEntry u entry = listEntry before entry := by
  have texts := fun name state => listLoop_texts (listDiff entry.process).toNat
    ⟨entry.process.pid, [], "", 0, entry.process.avialableTokens, entry.process.pticks⟩
    entry.process name state
  simp only [listEntry, gt_iff_lt, if_pos elapsed, texts u.name u.state,
    texts before.name before.state]

theorem listEntry_ticks (still : ¬ 0 < listDiff entry.process) (u : Uproc) :
    (listEntry u entry).1.ticks = u.ticks := by
  simp only [listEntry, gt_iff_lt, if_neg still]

theorem listed_eq_self_iff (process : Process) : listed process = process ↔ process.Quiet := by
  have written : ({ process with state := .sleeping, avialableTokens := 64 } : Process) = process ↔
      process.state = .sleeping ∧ process.avialableTokens = 64 := by
    obtain ⟨⟩ := process
    simp [eq_comm]
  rw [listed_eq_ite, Process.Quiet]
  split
  · rename_i enough
    exact iff_of_true rfl (.inl enough)
  · rename_i short
    rw [written]
    exact ⟨.inr, fun quiet => quiet.resolve_left short⟩

/-! ## The loop over the table -/

theorem mem_of_mem_visited (mem : p ∈ visited copies utable slots) : p ∈ slots := by
  induction slots generalizing utable with
  | nil => exact mem
  | cons q rest ih =>
    rcases List.mem_cons.mp mem with same | later
    · exact List.mem_cons.mpr (.inl same)
    · split at later
      · exact List.mem_cons_of_mem _ (ih later)
      · cases later

theorem take_of_split (split : List.finRange nproc = done ++ p :: rest) :
    (List.finRange nproc).take p.val = done := by
  have here : (List.finRange nproc)[done.length]? = some p := by
    rw [split, List.getElem?_append_right le_rfl, Nat.sub_self]
    rfl
  have position : done.length = p.val := by
    obtain ⟨_, same⟩ := List.getElem?_eq_some_iff.mp here
    rw [List.getElem_finRange] at same
    rw [← same]
    rfl
  rw [split, ← position, List.take_left]

theorem recordAfter_append (done : List Slot) (isUsed : inUse table p = true) :
    recordAfter table stack (done ++ [p]) =
      (listEntry (recordAfter table stack done) (table p)).1 := by
  rw [recordAfter, List.filter_append, List.filter_singleton, isUsed, List.foldl_append]
  rfl

theorem recordAfter_append_unused (done : List Slot) (isUnused : inUse table p = false) :
    recordAfter table stack (done ++ [p]) = recordAfter table stack done := by
  rw [recordAfter, List.filter_append, List.filter_singleton, isUnused]
  exact congrArg _ (List.append_nil _)

theorem allCopied_cons (count : Nat) : AllCopied copies utable (count + 1) ↔
    copies utable = true ∧ AllCopied copies (utable + uprocSize) count := by
  constructor
  · intro all
    refine ⟨all 0 (Nat.succ_pos _), fun k small => ?_⟩
    have := all (k + 1) (Nat.succ_lt_succ small)
    rwa [Nat.mul_add, Nat.mul_one, Nat.add_comm (uprocSize * k), ← Nat.add_assoc] at this
  rintro ⟨first, rest⟩ k small
  cases k with
  | zero => exact first
  | succ k =>
    have := rest k (Nat.lt_of_succ_lt_succ small)
    rwa [Nat.mul_add, Nat.mul_one, Nat.add_comm (uprocSize * k), ← Nat.add_assoc]

/-- What the loop has done when it is at some entry of the table. -/
structure AtEntry (table : Slot → Entry) (stack : Uproc) (done rest : List Slot)
    (listing : Listing) : Prop where
  split : List.finRange nproc = done ++ rest
  record : listing.u = recordAfter table stack done
  ahead : ∀ p ∈ rest, listing.table p = table p

theorem pslistLoop_spec (here : AtEntry table stack done rest listing) :
    (∀ p, (pslistLoop copies rest listing).1.table p =
      if p ∈ visited copies listing.utable (rest.filter (inUse table)) then
        { table p with process := listed (table p).process } else listing.table p) ∧
    (AllCopied copies listing.utable (rest.filter (inUse table)).length →
      (pslistLoop copies rest listing).2 =
          listing.records.length + (rest.filter (inUse table)).length ∧
      (pslistLoop copies rest listing).1.records =
          listing.records ++ (rest.filter (inUse table)).map (recordOf table stack)) ∧
    (¬ AllCopied copies listing.utable (rest.filter (inUse table)).length →
      (pslistLoop copies rest listing).2 = -1) := by
  induction rest generalizing done listing with
  | nil =>
    refine ⟨fun p => rfl, fun _ => ⟨by simp [pslistLoop], by simp [pslistLoop]⟩, ?_⟩
    intro not
    exact absurd (fun k small => absurd small (Nat.not_lt_zero k)) not
  | cons p rest ih =>
    have nodup : (done ++ p :: rest).Nodup := here.split ▸ List.nodup_finRange nproc
    have fresh : p ∉ rest := (List.nodup_cons.mp (List.nodup_append.mp nodup).2.1).1
    have current : listing.table p = table p := here.ahead p (List.mem_cons_self ..)
    have split : List.finRange nproc = (done ++ [p]) ++ rest := by
      rw [here.split, List.append_assoc, List.singleton_append]
    have sameUse : inUse listing.table p = inUse table p := by
      rw [inUse, inUse, current]
    rw [pslistLoop, sameUse]
    cases isUsed : inUse table p with
    | false =>
      rw [List.filter_cons_of_neg (by rw [isUsed]; exact Bool.false_ne_true),
        if_neg Bool.false_ne_true]
      exact ih
        ⟨split, by rw [recordAfter_append_unused _ isUsed, here.record],
          fun q later => here.ahead q (List.mem_cons_of_mem _ later)⟩
    | true =>
      obtain ⟨u, process, listedEntry⟩ : ∃ u process, listEntry listing.u (listing.table p) =
        (u, process) := ⟨_, _, rfl⟩
      have record : u = recordOf table stack p := by
        rw [recordOf, take_of_split here.split, ← here.record, ← current, listedEntry]
      have isProcess : process = listed (table p).process := by
        rw [← current, ← listEntry_process listing.u, listedEntry]
      rw [List.filter_cons_of_pos isUsed, if_pos rfl, listedEntry, List.length_cons,
        allCopied_cons, visited]
      simp only [current, isProcess]
      cases copied : copies listing.utable with
      | false =>
        simp only [Bool.false_eq_true, if_false, false_and, false_implies, not_false_eq_true,
          true_implies, and_true, List.mem_singleton]
        intro q
        by_cases same : q = p
        · rw [if_pos same, same, update_self]
        · rw [if_neg same, update_of_ne same]
      | true =>
        obtain ⟨next, next_eq⟩ : ∃ next : Listing, next = ⟨update listing.table p
          { table p with process := listed (table p).process }, u,
          listing.utable + uprocSize, listing.records ++ [u]⟩ := ⟨_, rfl⟩
        have after : next.table = update listing.table p
          { table p with process := listed (table p).process } := by rw [next_eq]
        have there : AtEntry table stack (done ++ [p]) rest next := by
          constructor
          case split => exact split
          case record =>
            rw [recordAfter_append _ isUsed, ← here.record, ← current, listedEntry, next_eq]
          case ahead =>
            intro q later
            have ne : q ≠ p := fun same => fresh (same ▸ later)
            rw [after, update_of_ne ne]
            exact here.ahead q (List.mem_cons_of_mem _ later)
        have position : next.utable = listing.utable + uprocSize := by rw [next_eq]
        have copiedSoFar : next.records = listing.records ++ [u] := by rw [next_eq]
        obtain ⟨tables, all, failed⟩ := ih there
        rw [position] at tables all failed
        rw [copiedSoFar, List.length_append, List.length_singleton] at all
        simp only [if_true, true_and, ← next_eq]
        refine ⟨fun q => ?_, fun copiedAll => ?_, failed⟩
        · rw [tables q]
          by_cases same : q = p
          · have notLater : q ∉ visited copies (listing.utable + uprocSize)
                (rest.filter (inUse table)) := fun later =>
              fresh (same ▸ (List.mem_filter.mp (mem_of_mem_visited later)).1)
            rw [if_neg notLater, if_pos (List.mem_cons.mpr (.inl same)), after, same,
              update_self]
          · simp only [List.mem_cons, same, false_or, after, ne_eq, not_false_eq_true,
              update_of_ne]
        · obtain ⟨returned, records⟩ := all copiedAll
          rw [returned, records, List.map_cons, record, List.append_assoc]
          refine ⟨by omega, rfl⟩

theorem visited_of_allCopied (all : AllCopied copies utable slots.length) :
    visited copies utable slots = slots := by
  induction slots generalizing utable with
  | nil => rfl
  | cons p rest ih =>
    obtain ⟨first, others⟩ := (allCopied_cons _).mp all
    rw [visited, if_pos first, ih others]

/-! ## When `pslist` is a query -/

theorem pslist_start : AtEntry table stack [] (List.finRange nproc) ⟨table, stack, utable, []⟩ :=
  ⟨rfl, rfl, fun _ _ => rfl⟩

theorem pslist_copied (all : AllCopied copies utable (used table).length) :
    (pslist copies table stack utable).2 = (used table).length ∧
      (pslist copies table stack utable).1.records = (used table).map (recordOf table stack) := by
  obtain ⟨returned, records⟩ := (pslistLoop_spec pslist_start).2.1 all
  exact ⟨returned.trans (Int.zero_add _), records⟩

theorem pslist_not_copied (not : ¬ AllCopied copies utable (used table).length) :
    (pslist copies table stack utable).2 = -1 := (pslistLoop_spec pslist_start).2.2 not

theorem pslist_unchanged_iff : (pslist copies table stack utable).1.table = table ↔
    ∀ p ∈ visited copies utable (used table), (table p).process.Quiet := by
  have tables : ∀ p, (pslist copies table stack utable).1.table p =
      if p ∈ visited copies utable (used table) then
        { table p with process := listed (table p).process } else table p :=
    (pslistLoop_spec pslist_start).1
  constructor
  · intro same p mem
    rw [← listed_eq_self_iff]
    have unchanged := tables p
    rw [if_pos mem, same] at unchanged
    exact (congrArg Entry.process unchanged).symm
  intro quiet
  funext p
  rw [tables p]
  split
  · rename_i mem
    rw [(listed_eq_self_iff _).mpr (quiet p mem)]
  · rfl

/-- The record of a process depends on nothing else exactly when `ticks` is assigned. -/
theorem determinedAlone_iff :
    DeterminedAlone table stack p ↔ 0 < listDiff (table p).process := by
  constructor
  · intro determined
    by_contra still
    -- the same process alone in the table, with another value on the stack
    obtain ⟨alone, alone_eq⟩ : ∃ alone : Slot → Entry, alone =
      update (fun q => { table q with process := .blank }) p (table p) := ⟨_, rfl⟩
    have current : alone p = table p := by rw [alone_eq, update_self]
    have empty : ((List.finRange nproc).take p.val).filter (inUse alone) = [] := by
      rw [List.filter_eq_nil_iff]
      intro q mem
      obtain ⟨i, small, same⟩ := List.mem_take_iff_getElem.mp mem
      have ne : q ≠ p := by
        rintro rfl
        rw [List.getElem_finRange] at same
        have : i = q.val := by rw [← same]; rfl
        omega
      rw [inUse, alone_eq, update_of_ne ne]
      simp [Process.blank]
    have ticks := congrArg Uproc.ticks (determined alone
      { stack with ticks := (recordOf table stack p).ticks + 1 } current)
    rw [recordOf, recordAfter, empty, current, listEntry_ticks still] at ticks
    simp only [List.foldl_nil] at ticks
    omega
  · intro elapsed other before same
    rw [recordOf, recordOf, same, listEntry_determined elapsed]

theorem recordOf_reports (same : (listed (table p).process).state = (table p).process.state) :
    Reports (table p) (recordOf table stack p) := by
  refine ⟨listEntry_pid _ _, rfl, ?_⟩
  rw [recordOf, listEntry_state, same]

/-- `pslist` is a query exactly when no process it lists runs out of tokens in its
simulation, unless it is asleep with 64 of them, and each of them has ticks to simulate
when all records are copied. -/
theorem queries_iff (copies : Nat → Bool) (table : Slot → Entry) (stack : Uproc) (utable : Nat) :
    Queries copies table stack utable ↔
      (∀ p ∈ visited copies utable (used table), (table p).process.Quiet) ∧
        (AllCopied copies utable (used table).length →
          ∀ p ∈ used table, 0 < listDiff (table p).process) := by
  constructor
  · intro queries
    refine ⟨pslist_unchanged_iff.mp queries.unchanged, fun copied p member => ?_⟩
    have positive : 0 ≤ (pslist copies table stack utable).2 := by
      rw [(pslist_copied copied).1]
      exact Int.natCast_nonneg _
    exact determinedAlone_iff.mp ((queries.complete positive).2.2 p member).2
  rintro ⟨quiet, elapsed⟩
  constructor
  case unchanged => exact pslist_unchanged_iff.mpr quiet
  case complete =>
    intro positive
    have copied : AllCopied copies utable (used table).length := by
      by_contra not
      have returned : (pslist copies table stack utable).2 = -1 := pslist_not_copied not
      omega
    refine ⟨(pslist_copied copied).1, (pslist_copied copied).2, fun p member => ⟨?_, ?_⟩⟩
    · rw [visited_of_allCopied copied] at quiet
      apply recordOf_reports
      rw [(listed_eq_self_iff _).mpr (quiet p member)]
    · exact determinedAlone_iff.mpr (elapsed copied p member)
  case failed =>
    intro negative
    have not : ¬ AllCopied copies utable (used table).length := by
      intro copied
      have returned : (pslist copies table stack utable).2 = (used table).length :=
        (pslist_copied copied).1
      omega
    exact ⟨pslist_not_copied not, not⟩

/-- A table with one process, which runs and has been charged at tick 1. -/
def oneRunning (p : Slot) : Entry where
  process := if p = initproc then
    { firstProcess with state := .running, time := 1, avialableTokens := 64 } else .blank
  name := ⟨[105], by decide +kernel, by decide +kernel⟩

/-- `pslist` puts the running process to sleep. -/
theorem pslist_puts_to_sleep :
    (oneRunning initproc).process.state = .running ∧
      ((pslist (fun _ => true) oneRunning ⟨0, [], "", 0, 0, 0⟩ 0).1.table initproc).process.state =
        .sleeping ∧
      ¬ Queries (fun _ => true) oneRunning ⟨0, [], "", 0, 0, 0⟩ 0 := by
  have asleep : ((pslist (fun _ => true) oneRunning ⟨0, [], "", 0, 0, 0⟩ 0).1.table
      initproc).process.state = .sleeping := by decide +kernel
  refine ⟨rfl, asleep, fun queries => ?_⟩
  rw [queries.unchanged] at asleep
  cases asleep

end Xv6.Proc
