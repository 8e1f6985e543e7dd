import Xv6.Memory.Frames
import Xv6.Memory.UserCopyLoops

/-!
# User copies are exact where user addresses stand for memory

A copy does what it should unless it comes to a page that is mapped for the user but not
to memory. `map_frames` maps such pages in every child, at `FRY` to `TEXT`: their frames
are the numbers that `kalloc` leaves in a page, and a kernel that copies to or from them
faults.
-/

namespace Xv6.Memory

open Xv6.Semantics

section Claims

variable (memory : Ram) (pagetable va : Nat)

/-- Different pages of a range are mapped to different frames. -/
def DistinctFrames (len : Nat) : Prop :=
  ∀ i < len, ∀ j < len,
    frameOf memory pagetable (addressAt va i) = frameOf memory pagetable (addressAt va j) →
      addressAt va i / pgsize = addressAt va j / pgsize

/-- Every address of a range is mapped valid with `PTE_U`. -/
def AllAccessible (len : Nat) : Prop := ∀ i < len, Accessible memory pagetable (addressAt va i)

/-- `copyout` returns 0 if and only if the whole range is accessible; then exactly the bytes
of the range are written, and where its pages have different frames `copyin` reads them
back. -/
def CopyoutExact (src : Bytes) (len : Nat) : Prop :=
  Returns (copyout pagetable va src len) memory fun status next =>
    (status = 0 ∨ status = -1) ∧ (status = 0 ↔ AllAccessible memory pagetable va len) ∧
      (status = 0 → CopiedOut memory next pagetable va src len ∧
        (DistinctFrames memory pagetable va len →
          (copyin pagetable va len).run next = .ok ((0, (List.range len).map src), next)))

/-- `copyin` returns 0 if and only if the whole range is accessible; then its bytes are
copied, and memory is what it was. -/
def CopyinExact (len : Nat) : Prop :=
  Returns (copyin pagetable va len) memory fun result next =>
    (result.1 = 0 ∨ result.1 = -1) ∧ (result.1 = 0 ↔ AllAccessible memory pagetable va len) ∧
      (result.1 = 0 → result.2 = userBytes memory pagetable va len ∧ next = memory)

/-- A NUL is among the first `max` bytes, and every address up to it is accessible. -/
def HasString (max : Nat) : Prop :=
  ∃ k < max, userByte memory pagetable va k = 0 ∧ AllAccessible memory pagetable va (k + 1)

/-- `copyinstr` returns 0 if and only if there is a string; then it writes the bytes up to the
first NUL. It never writes more than `max` bytes. -/
def CopyinstrExact (max : Nat) : Prop :=
  Returns (copyinstr pagetable va max) memory fun result next =>
    result.2.length ≤ max ∧
      (result.1 = 0 ∨ result.1 = -1) ∧ (result.1 = 0 ↔ HasString memory pagetable va max) ∧
      (result.1 = 0 → next = memory ∧ ∃ k < max, (∀ j < k, userByte memory pagetable va j ≠ 0) ∧
        userByte memory pagetable va k = 0 ∧ result.2 = userBytes memory pagetable va (k + 1))

/-- The first accessible address of a range that is not mapped to memory, if the copy comes
to it, is mapped to the frame 0, and then the range has an inaccessible address, too. -/
def ReachesRam (len : Nat) : Prop :=
  ∀ i < len, (∀ j < i, InRam memory pagetable (addressAt va j)) →
    Accessible memory pagetable (addressAt va i) →
      InRam memory pagetable (addressAt va i) ∨
        (frameOf memory pagetable (addressAt va i) = some 0 ∧
          ¬AllAccessible memory pagetable va len)

/-- The same up to the first NUL of a string. -/
def StringReachesRam (max : Nat) : Prop :=
  ∀ i < max, (∀ j < i, InRam memory pagetable (addressAt va j) ∧
      userByte memory pagetable va j ≠ 0) →
    Accessible memory pagetable (addressAt va i) →
      InRam memory pagetable (addressAt va i) ∨
        (frameOf memory pagetable (addressAt va i) = some 0 ∧
          ¬HasString memory pagetable va max)

end Claims

section Exact

variable {memory next : Ram} {pagetable va len max : Nat} {src : Bytes}

theorem InRam.accessible (plain : InRam memory pagetable va) : Accessible memory pagetable va := by
  obtain ⟨frame, found, -⟩ := plain
  rw [Accessible, found]
  rfl

theorem getD_eq_zero_iff :
    (frameOf memory pagetable va).getD 0 = 0 ↔
      ¬Accessible memory pagetable va ∨ frameOf memory pagetable va = some 0 := by
  rw [Accessible]
  cases frameOf memory pagetable va with
  | none => simp
  | some frame => simp

/-- The condition, read at the first address that is not mapped to memory. -/
theorem reaches_iff_of_stop {goesOn : Nat → Prop} (inside : i < len) (before : ∀ j < i, goesOn j)
    (mapped : ∀ j, goesOn j → InRam memory pagetable (addressAt va j))
    (stop : ¬InRam memory pagetable (addressAt va i))
    (refuses : ¬Accessible memory pagetable (addressAt va i) → fails) :
    (∀ k < len, (∀ j < k, goesOn j) → Accessible memory pagetable (addressAt va k) →
        InRam memory pagetable (addressAt va k) ∨
          (frameOf memory pagetable (addressAt va k) = some 0 ∧ fails)) ↔
      (frameOf memory pagetable (addressAt va i)).getD 0 = 0 ∧ fails := by
  rw [getD_eq_zero_iff]
  constructor
  · intro reaches
    by_cases accessible : Accessible memory pagetable (addressAt va i)
    · obtain ⟨zero, failed⟩ := (reaches i inside before accessible).resolve_left stop
      exact ⟨.inr zero, failed⟩
    · exact ⟨.inl accessible, refuses accessible⟩
  rintro ⟨zero, failed⟩ k below continues accessible
  by_cases here : k = i
  · rw [here] at accessible ⊢
    exact .inr ⟨zero.resolve_left (not_not.mpr accessible), failed⟩
  · refine .inl (mapped k (before k ?_))
    by_contra later
    exact stop (mapped i (continues i (by omega)))

/-- A copy that stops is exact if and only if it is refused, and rightly. -/
theorem exact_iff_of_stops {computation : M Value}
    {status : Value → Int} {post : Value → Ram → Prop}
    (stops : Stops computation memory frame fun value => status value = -1) :
    Returns computation memory (fun value next => (status value = 0 ∨ status value = -1) ∧
        (status value = 0 ↔ all) ∧ (status value = 0 → post value next)) ↔
      frame.getD 0 = 0 ∧ ¬all := by
  rw [Stops] at stops
  constructor
  · intro exact
    split at stops
    · rename_i zero
      obtain ⟨value, next, ran, -, agrees, -⟩ := exact
      have refused := stops.of_run ran
      refine ⟨zero, fun isAll => ?_⟩
      have := agrees.mpr isAll
      omega
    · obtain ⟨value, next, ran, -⟩ := exact
      rw [stops] at ran
      cases ran
  rintro ⟨zero, others⟩
  rw [if_pos zero] at stops
  refine stops.mono fun value next refused => ?_
  refine ⟨.inr refused, iff_of_false (by omega) others, fun done => ?_⟩
  omega

/-- Different addresses of a range whose pages have different frames stand for different bytes. -/
theorem DistinctFrames.physical_injective (distinct : DistinctFrames memory pagetable va len)
    (small : len ≤ 2 ^ 64) (all : ∀ i < len, InRam memory pagetable (addressAt va i))
    (iInside : i < len) (jInside : j < len)
    (same : physical memory pagetable (addressAt va i) =
      physical memory pagetable (addressAt va j)) : i = j := by
  obtain ⟨iFrame, iFound, -⟩ := all i iInside
  obtain ⟨jFrame, jFound, -⟩ := all j jInside
  have iAligned := frame_aligned iFound
  have jAligned := frame_aligned jFound
  rw [physical, physical, iFound, jFound, Option.getD_some, Option.getD_some] at same
  have frames : iFrame = jFrame := by
    simp only [pgsize] at same iAligned jAligned
    omega
  have page := distinct i iInside j jInside (by rw [iFound, jFound, frames])
  have address : addressAt va i = addressAt va j := by
    simp only [pgsize] at same page
    omega
  simp only [addressAt] at address
  omega

theorem CopiedOut.copyin_run (copied : CopiedOut memory next pagetable va src len)
    (bound : va < 2 ^ 64) (small : len ≤ 2 ^ 64)
    (all : ∀ i < len, InRam memory pagetable (addressAt va i))
    (apart : Apart memory pagetable va len) (distinct : DistinctFrames memory pagetable va len) :
    (copyin pagetable va len).run next = .ok ((0, (List.range len).map src), next) := by
  have frames {i : Nat} (inside : i < len) := (apart.frame_eq _ copied.kept inside).1
  have plain : ∀ i < len, InRam next pagetable (addressAt va i) := by
    intro i inside
    obtain ⟨frame, found, bounds⟩ := all i inside
    exact ⟨frame, (frames inside).trans found, bounds⟩
  have bytes : userBytes next pagetable va len = (List.range len).map src := by
    apply List.map_congr_left
    intro i mem
    have inside := List.mem_range.mp mem
    rw [userByte, physical, frames inside, ← physical]
    exact copied.delivered.bytes_eq
      (fun i iInside j jInside => distinct.physical_injective small all iInside jInside) inside
  rw [copyin, copyinLoop_run _ _ bound le_rfl, readBytes_all bound plain fun _ _ => rfl, bytes]
  rfl

theorem copyoutExact_iff (bound : va < 2 ^ 64) (small : len ≤ 2 ^ 64)
    (apart : Apart memory pagetable va len) :
    CopyoutExact memory pagetable va src len ↔ ReachesRam memory pagetable va len := by
  rcases forall_or_first (fun i => InRam memory pagetable (addressAt va i)) len with
    all | ⟨i, inside, plain, stop⟩
  · refine iff_of_true ?_ fun i inside _ _ => .inl (all i inside)
    refine (copyoutLoop_returns bound le_rfl all apart).mono fun status next after => ?_
    obtain ⟨done, copied⟩ := after
    refine ⟨.inl done, iff_of_true done fun i inside => (all i inside).accessible, fun _ => ?_⟩
    exact ⟨copied, copied.copyin_run bound small all apart⟩
  · rw [ReachesRam, reaches_iff_of_stop inside plain (fun _ => id) stop]
    · exact exact_iff_of_stops (copyoutLoop_stops bound le_rfl inside plain stop apart)
    · exact fun refused all => refused (all i inside)

theorem copyinExact_iff (bound : va < 2 ^ 64) :
    CopyinExact memory pagetable va len ↔ ReachesRam memory pagetable va len := by
  rcases forall_or_first (fun i => InRam memory pagetable (addressAt va i)) len with
    all | ⟨i, inside, plain, stop⟩
  · refine iff_of_true ?_ fun i inside _ _ => .inl (all i inside)
    have ran := copyinLoop_run memory pagetable bound (le_refl len)
    rw [readBytes_all bound all fun _ _ => rfl] at ran
    exact ⟨_, _, ran, .inl rfl, iff_of_true rfl fun i inside => (all i inside).accessible,
      fun _ => ⟨rfl, rfl⟩⟩
  · rw [ReachesRam, reaches_iff_of_stop inside plain (fun _ => id) stop]
    · exact exact_iff_of_stops (stops_of_readBytes (copyinLoop_run _ _ bound le_rfl) bound inside plain
        (fun _ _ => rfl) stop rfl)
    · exact fun refused all => refused (all i inside)

theorem copyinstrExact_iff (bound : va < 2 ^ 64) :
    CopyinstrExact memory pagetable va max ↔ StringReachesRam memory pagetable va max := by
  have ran := copyinstrLoop_run memory pagetable bound (le_refl max)
  rcases forall_or_first (fun i => InRam memory pagetable (addressAt va i) ∧
      userByte memory pagetable va i ≠ 0) max with all | ⟨i, inside, before, stop⟩
  · -- there is no NUL
    refine iff_of_true ?_ fun i inside _ _ => .inl (all i inside).1
    rw [readBytes_all bound (fun i inside => (all i inside).1)
      fun i inside => decide_eq_false (all i inside).2] at ran
    refine ⟨_, _, ran, (length_userBytes max).le, .inr rfl, iff_of_false (by simp) ?_, nofun⟩
    rintro ⟨k, below, nul, -⟩
    exact (all k below).2 nul
  by_cases plain : InRam memory pagetable (addressAt va i)
  · -- the NUL is found
    have nul : userByte memory pagetable va i = 0 := by
      by_contra nonzero
      exact stop ⟨plain, nonzero⟩
    have upTo (j : Nat) (le : j ≤ i) : InRam memory pagetable (addressAt va j) := by
      rcases Nat.lt_or_eq_of_le le with less | rfl
      · exact (before j less).1
      · exact plain
    refine iff_of_true ?_ ?_
    · rw [readBytes_of_nul bound inside upTo (fun j less => (before j less).2) nul] at ran
      refine ⟨_, _, ran, ?_, .inl rfl, iff_of_true rfl ?_, fun _ => ?_⟩
      · rw [length_userBytes]
        omega
      · exact ⟨i, inside, nul, fun j less => (upTo j (by omega)).accessible⟩
      · exact ⟨rfl, i, inside, fun j less => (before j less).2, nul, rfl⟩
    · intro k below continues _
      refine .inl (upTo k ?_)
      by_contra later
      exact (continues i (by omega)).2 nul
  -- the copy stops before a NUL
  have stops {refusal : Int × List UInt8 → Prop}
      (isRefusal : refusal (-1, userBytes memory pagetable va i)) :
      Stops (copyinstr pagetable va max) memory (frameOf memory pagetable (addressAt va i)) refusal :=
    stops_of_readBytes ran bound inside (fun j less => (before j less).1)
      (fun j less => decide_eq_false (before j less).2) plain isRefusal
  have refusal : Stops (copyinstr pagetable va max) memory
      (frameOf memory pagetable (addressAt va i)) fun result => result.1 = -1 := stops rfl
  rw [StringReachesRam, reaches_iff_of_stop inside before (fun _ => And.left) plain]
  · constructor
    · intro exact
      exact (exact_iff_of_stops refusal).mp (exact.mono fun _ _ after => after.2)
    intro refused
    have short : Returns (copyinstr pagetable va max) memory fun result _ =>
        result.2.length ≤ max := by
      have short : Stops (copyinstr pagetable va max) memory _ fun result =>
          result.2.length ≤ max := stops (by simp [length_userBytes]; omega)
      rwa [Stops, if_pos refused.1] at short
    exact short.and (.of_returns ((exact_iff_of_stops refusal).mpr refused))
  · rintro inaccessible ⟨k, below, nul, accessible⟩
    rcases Nat.lt_or_ge k i with less | ge
    · exact (before k less).2 nul
    · exact inaccessible (accessible i (by omega))

end Exact

/-- A page table at 0x80100 that maps the first page to 0x80103 for the user. -/
def onePage : Ram where
  freelist := []
  word page i :=
    if i ≠ 0 then 0
    else if page = 0x80100 then tablePte 0x80101
    else if page = 0x80101 then tablePte 0x80102
    else if page = 0x80102 then mkPte (0x80103 * pgsize) (pteR ||| pteW ||| pteU)
    else 0

end Xv6.Memory
