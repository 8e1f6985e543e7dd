import Xv6.Memory.Mapping
import Xv6.Memory.UserCopy

/-!
# The loops of `copyout`, `copyin` and `copyinstr`

The loops go through a range of user addresses page by page. What they do at an address
is a matter of its page: the copy goes on if the page is mapped for the user to a frame
of memory, it is refused if `walkaddr` returns 0, and the kernel faults if the page is
mapped to anything else.
-/

namespace Xv6.Memory

open Xv6.Semantics

/-! ## Walking the page table -/

section Walking

variable {memory next : Ram} {level pagetable va other : Nat}

theorem walkLevels_findTable (memory : Ram) (level pagetable va : Nat) :
    (walkLevels level pagetable va false).run memory =
      .ok (findTable memory level pagetable va, memory) := by
  induction level generalizing pagetable with
  | zero => rfl
  | succ level ih =>
    have opened : (walkLevels (level + 1) pagetable va false).run memory =
        (if isValid (memory.word pagetable (px (level + 1) va)) then
          walkLevels level (ptePage (memory.word pagetable (px (level + 1) va))) va false
        else return none).run memory := rfl
    rw [opened, findTable]
    split
    · exact ih _
    · rfl

/-- `walkaddr` finds the frame of a user page, and returns 0 if there is none. -/
theorem walkaddr_run (memory : Ram) (pagetable va : Nat) :
    (walkaddr pagetable va).run memory = .ok ((frameOf memory pagetable va).getD 0, memory) := by
  have returns : Returns (walkaddr pagetable va) memory fun value next =>
      value = (frameOf memory pagetable va).getD 0 ∧ next = memory := by
    rw [walkaddr, frameOf]
    split
    · exact .pure ⟨rfl, rfl⟩
    rename_i low
    have walked : (walk pagetable va false).run memory =
        .ok (findTable memory 2 pagetable va, memory) := by
      rw [walk, if_neg low, walkLevels_findTable]
    refine .bind_run walked ?_
    cases found : findTable memory 2 pagetable va with
    | none => exact .pure ⟨rfl, rfl⟩
    | some table =>
      apply returns_load
      cases valid : isValid (memory.word table (px 0 va)) <;>
        cases user : isUser (memory.word table (px 0 va)) <;>
        exact .pure ⟨by simp [valid, user], rfl⟩
  obtain ⟨value, next, ran, rfl, rfl⟩ := returns
  exact ran

theorem mem_tablesOf (found : findTable memory level pagetable va = some table) :
    table ∈ tablesOf memory level pagetable va := by
  induction level generalizing pagetable with
  | zero =>
    cases found
    exact List.mem_singleton_self table
  | succ level ih =>
    rw [findTable] at found
    rw [tablesOf]
    split at found
    · rename_i valid
      rw [if_pos valid]
      exact List.mem_cons_of_mem _ (ih found)
    · cases found

theorem findTable_congr
    (agree : ∀ page ∈ tablesOf memory level pagetable va, next.word page = memory.word page) :
    findTable next level pagetable va = findTable memory level pagetable va ∧
      tablesOf next level pagetable va = tablesOf memory level pagetable va := by
  induction level generalizing pagetable with
  | zero => exact ⟨rfl, rfl⟩
  | succ level ih =>
    have root : next.word pagetable = memory.word pagetable := by
      apply agree
      rw [tablesOf]
      split <;> exact List.mem_cons_self
    rw [findTable, findTable, tablesOf, tablesOf, root]
    split
    · rename_i valid
      rw [tablesOf, if_pos valid] at agree
      obtain ⟨found, tables⟩ := ih fun page mem =>
        agree page (List.mem_cons_of_mem _ mem)
      exact ⟨found, by rw [tables]⟩
    · exact ⟨rfl, rfl⟩

theorem frameOf_congr
    (agree : ∀ page ∈ tablesOf memory 2 pagetable va, next.word page = memory.word page) :
    frameOf next pagetable va = frameOf memory pagetable va := by
  rw [frameOf, frameOf, (findTable_congr agree).1]
  cases found : findTable memory 2 pagetable va with
  | none => rfl
  | some table =>
    have same := agree table (mem_tablesOf found)
    simp [same]

section

variable (same : va / pgsize = other / pgsize)
include same

theorem px_of_page (level : Nat) : px level va = px level other := by
  rw [px_eq_digit, px_eq_digit, same]

theorem findTable_of_page :
    findTable memory level pagetable va = findTable memory level pagetable other := by
  induction level generalizing pagetable with
  | zero => rfl
  | succ level ih =>
    rw [findTable, findTable, px_of_page same]
    simp only [ih]

theorem frameOf_of_page : frameOf memory pagetable va = frameOf memory pagetable other := by
  have bound : maxva ≤ va ↔ maxva ≤ other := by
    simp only [maxva, pgsize] at same ⊢
    omega
  simp only [frameOf, bound, findTable_of_page same, px_of_page same]

end

theorem frame_aligned (found : frameOf memory pagetable va = some frame) : frame % pgsize = 0 := by
  rw [frameOf] at found
  split at found
  · cases found
  obtain ⟨table, -, result⟩ := Option.bind_eq_some_iff.mp found
  simp only at result
  split at result
  · cases result
    simp only [pte2pa, pgsize]
    omega
  · cases result

end Walking

/-! ## Moving bytes -/

section Moving

variable {memory middle next : Ram} {pa count : Nat} {src : Bytes} {target : Nat → Nat}
  {first second : Nat}

theorem bytes_memmove : (memory.memmove pa count src).bytes = copy memory.bytes pa count src := by
  funext address
  have place : address / pgsize * pgsize + 8 * (address % pgsize / 8) + address % 8 = address := by
    simp only [pgsize]
    omega
  have inside : address % pgsize / 8 < 512 := by
    simp only [pgsize]
    omega
  rw [Ram.bytes, Ram.memmove]
  simp only
  split
  · rw [wordBytes_word (by omega), place]
  · rename_i outside
    rw [copy_outside (by omega)]
    rfl

theorem word_memmove_of_ne (within : pa % pgsize + count ≤ pgsize) (differ : page ≠ pa / pgsize) :
    (memory.memmove pa count src).word page = memory.word page := by
  funext i
  apply if_neg
  rintro ⟨bound, low, high⟩
  apply differ
  simp only [pgsize] at within low high ⊢
  omega

/-- Bytes have been written to target addresses in order, and nothing else has changed. -/
structure Delivered (memory next : Ram) (target : Nat → Nat) (src : Bytes) (n : Nat) : Prop where
  freelist : next.freelist = memory.freelist
  written : ∀ i < n, (∀ j < n, i < j → target j ≠ target i) → next.bytes (target i) = src i
  untouched : ∀ address, (∀ i < n, target i ≠ address) → next.bytes address = memory.bytes address

theorem Delivered.none : Delivered memory memory target src 0 := by
  constructor
  case freelist => rfl
  case written => exact fun i below => absurd below (Nat.not_lt_zero i)
  case untouched => exact fun _ _ => rfl

theorem Delivered.congr (delivered : Delivered memory next target src count)
    (same : ∀ i < count, other i = target i) : Delivered memory next other src count := by
  constructor
  case freelist => exact delivered.freelist
  case written =>
    intro i below last
    rw [same i below]
    refine delivered.written i below fun j inside later => ?_
    rw [← same i below, ← same j inside]
    exact last j inside later
  case untouched =>
    intro address outside
    refine delivered.untouched address fun i inside => ?_
    rw [← same i inside]
    exact outside i inside

theorem Delivered.memmove (consecutive : ∀ i < count, target i = pa + i) :
    Delivered memory (memory.memmove pa count src) target src count := by
  constructor
  case freelist => rfl
  case written =>
    intro i below _
    rw [bytes_memmove, consecutive i below, copy_add i below]
  case untouched =>
    intro address outside
    rw [bytes_memmove, copy_outside]
    by_contra inside
    apply outside (address - pa) (by omega)
    rw [consecutive _ (by omega)]
    omega

/-- What is written later stays, and what is written earlier stays where nothing later is
written. -/
theorem Delivered.append (before : Delivered memory middle target src first)
    (after : Delivered middle next (fun i => target (first + i)) (dropBytes src first) second) :
    Delivered memory next target src (first + second) := by
  constructor
  case freelist => rw [after.freelist, before.freelist]
  case written =>
    intro i below last
    by_cases early : i < first
    · rw [after.untouched, before.written i early fun j inside => last j (by omega)]
      exact fun j inside => last (first + j) (by omega) (by omega)
    have position : first + (i - first) = i := by omega
    have written := after.written (i - first) (by omega) fun j inside later => by
      rw [position]
      exact last (first + j) (by omega) (by omega)
    rwa [position, dropBytes, position] at written
  case untouched =>
    intro address outside
    rw [after.untouched, before.untouched]
    · exact fun i inside => outside i (by omega)
    · exact fun i inside => outside (first + i) (by omega)

theorem Delivered.bytes_eq (delivered : Delivered memory next target src count)
    (distinct : ∀ i < count, ∀ j < count, target i = target j → i = j)
    (below : i < count) : next.bytes (target i) = src i := by
  refine delivered.written i below fun j inside later same => ?_
  have := distinct j inside i below same
  omega

end Moving

/-- Either everything below a bound has a property, or there is a first number that has not. -/
theorem forall_or_first (property : Nat → Prop) (n : Nat) :
    (∀ i < n, property i) ∨ ∃ i < n, (∀ j < i, property j) ∧ ¬property i := by
  induction n with
  | zero => exact .inl fun i below => absurd below (Nat.not_lt_zero i)
  | succ n ih =>
    rcases ih with all | ⟨i, below, first⟩
    · by_cases last : property n
      · refine .inl fun i below => ?_
        rcases Nat.lt_succ_iff_lt_or_eq.mp below with less | rfl
        · exact all i less
        · exact last
      · exact .inr ⟨n, Nat.lt_succ_self n, all, last⟩
    · exact .inr ⟨i, Nat.lt_succ_of_lt below, first⟩

/-! ## Page by page -/

/-- The user address is mapped to a frame of memory. -/
def InRam (memory : Ram) (pagetable va : Nat) : Prop :=
  ∃ frame, frameOf memory pagetable va = some frame ∧ kernbase ≤ frame ∧ frame < phystop

/-- The first round of a loop over `len` addresses from `va` on: `n` addresses of one page. -/
structure Round (va len n : Nat) : Prop where
  positive : 0 < n
  le : n ≤ len
  within : va % pgsize + n ≤ pgsize
  page : ∀ i < n, addressAt va i / pgsize = va / pgsize
  offset : ∀ i < n, addressAt va i % pgsize = va % pgsize + i
  onward : ∀ i < len - n, addressAt ((pgRoundDown va + pgsize) % 2 ^ 64) i = addressAt va (n + i)

theorem addressAt_zero (bound : va < 2 ^ 64) : addressAt va 0 = va :=
  Nat.mod_eq_of_lt bound

theorem sub_pgRoundDown (va : Nat) : va - pgRoundDown va = va % pgsize := by
  simp only [pgRoundDown, pgsize]
  omega

theorem pgRoundDown_div (va : Nat) : pgRoundDown va / pgsize = va / pgsize := by
  exact mul_pgsize_div _

theorem round (bound : va < 2 ^ 64) (some : len ≠ 0) :
    Round va len (min (pgsize - va % pgsize) len) := by
  constructor <;> simp only [addressAt, pgRoundDown, pgsize]
  case positive => omega
  case le => omega
  case within => omega
  case page => omega
  case offset => omega
  case onward =>
    omega

section Rounds

variable {memory : Ram} {pagetable va len n frame : Nat}

theorem walkaddr_round (memory : Ram) (pagetable va : Nat) :
    (walkaddr pagetable (pgRoundDown va)).run memory =
      .ok ((frameOf memory pagetable va).getD 0, memory) := by
  rw [walkaddr_run, frameOf_of_page (pgRoundDown_div va)]

theorem Round.frame_eq (isRound : Round va len n) (inside : i < n) :
    frameOf memory pagetable (addressAt va i) = frameOf memory pagetable va :=
  frameOf_of_page (isRound.page i inside)

section

variable (isRound : Round va len n) (found : frameOf memory pagetable va = some frame)
include isRound found

theorem Round.physical_eq (inside : i < n) :
    physical memory pagetable (addressAt va i) = frame + va % pgsize + i := by
  rw [physical, isRound.frame_eq inside, found, isRound.offset i inside, Option.getD_some,
    Nat.add_assoc]

/-- The kernel reaches the addresses of a round if and only if their frame is memory. -/
theorem Round.mapped_iff : Mapped (frame + va % pgsize) n ↔ kernbase ≤ frame ∧ frame < phystop := by
  have aligned := frame_aligned found
  have within := isRound.within
  have positive := isRound.positive
  simp only [Mapped, kernbase, phystop_eq, pgsize] at aligned within ⊢
  omega

end

theorem frame_ne_zero (low : kernbase ≤ frame) : frame ≠ 0 := by
  simp only [kernbase] at low
  omega

/-- The addresses of a round are mapped to memory, or none of them is. -/
theorem Round.inRam_iff (isRound : Round va len n) (inside : i < n) :
    InRam memory pagetable (addressAt va i) ↔ InRam memory pagetable va := by
  simp only [InRam, isRound.frame_eq inside]

theorem Round.not_mapped (isRound : Round va len n)
    (found : frameOf memory pagetable va = some frame) (stop : ¬InRam memory pagetable va) :
    ¬Mapped (frame + va % pgsize) n := by
  rw [isRound.mapped_iff found]
  exact fun plain => stop ⟨frame, found, plain⟩

end Rounds

/-! ## Where a copy stops -/

/-- A copy ends at a frame: it is refused where `walkaddr` returns 0, and faults elsewhere. -/
def Stops {Value : Type} (computation : M Value) (memory : Ram) (frame : Option Nat)
    (refusal : Value → Prop) : Prop :=
  if frame.getD 0 = 0 then Returns computation memory fun value _ => refusal value
  else computation.run memory = .error .pageFault

section Stopping

variable {Value Result : Type} {memory next : Ram} {frame : Option Nat} {refusal : Value → Prop}

theorem Stops.of_run_eq (same : first.run memory = second.run next)
    (stops : Stops second next frame refusal) : Stops first memory frame refusal := by
  rw [Stops] at stops ⊢
  split at stops
  · rename_i zero
    rw [if_pos zero]
    exact .of_run_eq same stops
  · rename_i other
    rw [if_neg other]
    exact same.trans stops

theorem Stops.of_run (isRefusal : refusal refused)
    (ran : computation.run memory =
      if frame.getD 0 = 0 then .ok (refused, next) else .error .pageFault) :
    Stops computation memory frame refusal := by
  rw [Stops]
  split
  · rename_i zero
    rw [if_pos zero] at ran
    exact ⟨refused, next, ran, isRefusal⟩
  · rename_i other
    rwa [if_neg other] at ran

/-- A round at a page that is not mapped to memory. -/
theorem Round.stops {access : Nat → M Result} (isRound : Round va len n)
    (stop : ¬InRam memory pagetable va)
    (faults : ∀ frame, ¬Mapped (frame + va % pgsize) n →
      (access frame).run memory = .error .pageFault) :
    (do
      let pa0 ← walkaddr pagetable (pgRoundDown va)
      if pa0 = 0 then return refused else access pa0 >>= rest : M Value).run memory =
      if (frameOf memory pagetable va).getD 0 = 0 then .ok (refused, memory)
      else .error .pageFault := by
  rw [run_bind_of_run (walkaddr_round memory pagetable va)]
  split
  · rfl
  · rename_i nonzero
    cases found : frameOf memory pagetable va with
    | none => simp [found] at nonzero
    | some frame => exact run_bind_of_halt (faults frame (isRound.not_mapped found stop))

end Stopping

/-! ## `copyout` -/

/-- No frame of a range of user addresses is a page of the page table that the walk for an
address of the range reads. -/
def Apart (memory : Ram) (pagetable va len : Nat) : Prop :=
  ∀ i < len, ∀ j < len, ∀ frame, frameOf memory pagetable (addressAt va i) = some frame →
    frame / pgsize ∉ tablesOf memory 2 pagetable (addressAt va j)

/-- What `copyout` leaves: the bytes of the range, and every page that the range is not
mapped to. -/
structure CopiedOut (memory next : Ram) (pagetable va : Nat) (src : Bytes) (len : Nat) : Prop where
  delivered : Delivered memory next (fun i => physical memory pagetable (addressAt va i)) src len
  kept : ∀ page, (∀ i < len, ∀ frame, frameOf memory pagetable (addressAt va i) = some frame →
    frame / pgsize ≠ page) → next.word page = memory.word page

section Copyout

variable {memory next : Ram} {pagetable va len n : Nat} {src : Bytes}

/-- What keeps the pages outside a range keeps the frames of the range. -/
theorem Apart.frame_eq (apart : Apart memory pagetable va len) (next : Ram)
    (kept : ∀ page, (∀ i < len, ∀ frame, frameOf memory pagetable (addressAt va i) = some frame →
      frame / pgsize ≠ page) → next.word page = memory.word page) (below : j < len) :
    frameOf next pagetable (addressAt va j) = frameOf memory pagetable (addressAt va j) ∧
      tablesOf next 2 pagetable (addressAt va j) = tablesOf memory 2 pagetable (addressAt va j) := by
  have agree : ∀ page ∈ tablesOf memory 2 pagetable (addressAt va j),
      next.word page = memory.word page := by
    intro page mem
    refine kept page fun i inside frame found same => ?_
    exact apart i inside j below frame found (same ▸ mem)
  exact ⟨frameOf_congr agree, (findTable_congr agree).2⟩

theorem Round.copiedOut (isRound : Round va len n) (src : Bytes)
    (found : frameOf memory pagetable va = some frame) :
    CopiedOut memory (memory.memmove (frame + va % pgsize) n src) pagetable va src n := by
  have aligned := frame_aligned found
  have within := isRound.within
  have place : (frame + va % pgsize) % pgsize = va % pgsize ∧
      (frame + va % pgsize) / pgsize = frame / pgsize := by
    simp only [pgsize] at aligned ⊢
    omega
  constructor
  case delivered => exact .memmove fun i inside => isRound.physical_eq found inside
  case kept =>
    intro page elsewhere
    apply word_memmove_of_ne
    · rw [place.1]
      exact within
    · rw [place.2]
      refine (elsewhere 0 isRound.positive frame ?_).symm
      rw [isRound.frame_eq isRound.positive, found]

theorem copyoutLoop_round (fuel : Nat) (src : Bytes) (bound : va < 2 ^ 64) (some : len ≠ 0)
    (plain : InRam memory pagetable va) (apart : Apart memory pagetable va len) :
    ∃ n onward middle, Round va len n ∧ onward < 2 ^ 64 ∧
      (∀ i < len - n, addressAt onward i = addressAt va (n + i)) ∧
      (copyoutLoop pagetable (fuel + 1) va src len).run memory =
        (copyoutLoop pagetable fuel onward (dropBytes src n) (len - n)).run middle ∧
      CopiedOut memory middle pagetable va src n ∧ Apart middle pagetable onward (len - n) ∧
      ∀ i < len - n, frameOf middle pagetable (addressAt onward i) =
        frameOf memory pagetable (addressAt va (n + i)) := by
  have isRound := round bound some
  set n := min (pgsize - va % pgsize) len with nDef
  obtain ⟨frame, found, low, high⟩ := plain
  have copied := isRound.copiedOut src found
  have frames {i : Nat} (inside : i < len - n) :=
    apart.frame_eq (memory.memmove (frame + va % pgsize) n src)
      (fun page elsewhere => copied.kept page fun i inside => elsewhere i (by omega))
      (show n + i < len by omega)
  refine ⟨n, _, _, isRound, Nat.mod_lt _ (by omega), isRound.onward, ?_, copied, ?_, ?_⟩
  · have stored : (storeBytes (frame + va % pgsize) n src).run memory =
        .ok ((), memory.memmove (frame + va % pgsize) n src) := by
      rw [storeBytes, if_pos ((isRound.mapped_iff found).mpr ⟨low, high⟩)]
      rfl
    rw [copyoutLoop, if_neg some, run_bind_of_run (walkaddr_round memory pagetable va), found,
      Option.getD_some, if_neg (frame_ne_zero low), sub_pgRoundDown, ← nDef,
      run_bind_of_run stored]
  · intro i iInside j jInside other otherFound
    rw [isRound.onward i iInside, (frames iInside).1] at otherFound
    rw [isRound.onward j jInside, (frames jInside).2]
    exact apart (n + i) (by omega) (n + j) (by omega) other otherFound
  · intro i inside
    rw [isRound.onward i inside, (frames inside).1]

theorem copyoutLoop_returns (bound : va < 2 ^ 64) (enough : len ≤ fuel)
    (plain : ∀ i < len, InRam memory pagetable (addressAt va i))
    (apart : Apart memory pagetable va len) :
    Returns (copyoutLoop pagetable fuel va src len) memory fun status next =>
      status = 0 ∧ CopiedOut memory next pagetable va src len := by
  induction fuel generalizing va src len memory with
  | zero =>
    obtain rfl : len = 0 := by omega
    exact .pure ⟨rfl, .none, fun _ _ => rfl⟩
  | succ fuel ih =>
    by_cases empty : len = 0
    · rw [copyoutLoop, if_pos empty, empty]
      exact .pure ⟨rfl, .none, fun _ _ => rfl⟩
    have first : InRam memory pagetable va := by
      have := plain 0 (by omega)
      rwa [addressAt_zero bound] at this
    obtain ⟨n, onward, middle, isRound, below, addresses, ran, copied, stillApart, frames⟩ :=
      copyoutLoop_round fuel src bound empty first apart
    have positive := isRound.positive
    have le := isRound.le
    refine .of_run_eq ran ((ih below (by omega) ?_ stillApart).mono
      fun status next after => ?_)
    · intro i inside
      obtain ⟨other, otherFound, bounds⟩ := plain (n + i) (by omega)
      exact ⟨other, (frames i inside).trans otherFound, bounds⟩
    obtain ⟨done, rest⟩ := after
    refine ⟨done, ?_⟩
    have total : n + (len - n) = len := by omega
    constructor
    case delivered =>
      rw [← total]
      refine copied.delivered.append (rest.delivered.congr fun i inside => ?_)
      rw [physical, physical, frames i inside, addresses i inside]
    case kept =>
      intro page elsewhere
      rw [rest.kept, copied.kept page fun i inside => elsewhere i (by omega)]
      intro i inside other otherFound
      exact elsewhere (n + i) (by omega) other ((frames i inside).symm.trans otherFound)

theorem copyoutLoop_stops (bound : va < 2 ^ 64) (enough : len ≤ fuel)
    (inside : i < len) (plain : ∀ j < i, InRam memory pagetable (addressAt va j))
    (stop : ¬InRam memory pagetable (addressAt va i)) (apart : Apart memory pagetable va len) :
    Stops (copyoutLoop pagetable fuel va src len) memory
      (frameOf memory pagetable (addressAt va i)) (· = -1) := by
  induction fuel generalizing va src len memory i with
  | zero => omega
  | succ fuel ih =>
    have some : len ≠ 0 := by omega
    by_cases first : InRam memory pagetable va
    · obtain ⟨n, onward, middle, isRound, below, addresses, ran, -, stillApart, frames⟩ :=
        copyoutLoop_round fuel src bound some first apart
      have positive := isRound.positive
      have past : n ≤ i := by
        by_contra here
        exact stop ((isRound.inRam_iff (by omega)).mpr first)
      have position : n + (i - n) = i := by omega
      have frame := frames (i - n) (by omega)
      rw [position] at frame
      rw [← frame]
      refine .of_run_eq ran (ih below (by omega) (by omega) ?_ ?_ stillApart)
      · intro j inside
        obtain ⟨other, otherFound, bounds⟩ := plain (n + j) (by omega)
        exact ⟨other, (frames j (by omega)).trans otherFound, bounds⟩
      · rintro ⟨other, otherFound, bounds⟩
        exact stop ⟨other, frame.symm.trans otherFound, bounds⟩
    have isRound := round bound some
    have here : i = 0 := by
      by_contra later
      exact first ((isRound.inRam_iff isRound.positive).mp (plain 0 (by omega)))
    rw [here, addressAt_zero bound, copyoutLoop, if_neg some]
    simp only [sub_pgRoundDown]
    refine .of_run rfl (isRound.stops first fun frame outside => ?_)
    rw [storeBytes, if_neg outside]
    rfl

end Copyout

/-! ## `copyin` and `copyinstr` -/

/-- The byte at a distance from a user address. -/
def userByte (memory : Ram) (pagetable va i : Nat) : UInt8 :=
  memory.bytes (physical memory pagetable (addressAt va i))

/-- The first bytes from a user address on. -/
def userBytes (memory : Ram) (pagetable va n : Nat) : List UInt8 :=
  (List.range n).map (userByte memory pagetable va)

section Copyin

variable {memory : Ram} {pagetable va len n : Nat}

theorem userBytes_succ (k : Nat) : userBytes memory pagetable va (k + 1) =
    userBytes memory pagetable va k ++ [userByte memory pagetable va k] := by
  rw [userBytes, userBytes, List.range_succ, List.map_append]
  rfl

theorem length_userBytes (n : Nat) : (userBytes memory pagetable va n).length = n := by
  rw [userBytes, List.length_map, List.length_range]

/-- Reading byte by byte, up to a byte that ends it: a status, and the bytes. -/
def readBytes (memory : Ram) (pagetable : Nat) (ends : UInt8 → Bool) (status : Int) :
    (n va : Nat) → Except Halt (Int × List UInt8)
  | 0, _ => .ok (status, [])
  | n + 1, va =>
    match frameOf memory pagetable va with
    | none => .ok (-1, [])
    | some frame =>
      if frame = 0 then .ok (-1, [])
      else if kernbase ≤ frame ∧ frame < phystop then
        let byte := memory.bytes (physical memory pagetable va)
        if ends byte then .ok (0, [byte])
        else (readBytes memory pagetable ends status n (addressAt va 1)).map fun result =>
          (result.1, byte :: result.2)
      else .error .pageFault

section Bytewise

variable {ends : UInt8 → Bool} {status : Int}

theorem readBytes_of_inRam (plain : InRam memory pagetable va) :
    readBytes memory pagetable ends status (n + 1) va =
      let byte := memory.bytes (physical memory pagetable va)
      if ends byte then .ok (0, [byte])
      else (readBytes memory pagetable ends status n (addressAt va 1)).map fun result =>
        (result.1, byte :: result.2) := by
  obtain ⟨frame, found, low, high⟩ := plain
  simp [readBytes, found, frame_ne_zero low, low, high]

theorem readBytes_of_stop (stop : ¬InRam memory pagetable va) :
    readBytes memory pagetable ends status (n + 1) va =
      if (frameOf memory pagetable va).getD 0 = 0 then .ok (-1, []) else .error .pageFault := by
  rw [readBytes]
  cases found : frameOf memory pagetable va with
  | none => rfl
  | some frame => simp [show ¬(kernbase ≤ frame ∧ frame < phystop) from
      fun plain => stop ⟨frame, found, plain⟩]

section

variable (bound : va < 2 ^ 64) (plain : ∀ j < k, InRam memory pagetable (addressAt va j))
  (others : ∀ j < k, ends (userByte memory pagetable va j) = false)
include bound plain others

/-- Bytes that do not end it are read one after the other. -/
theorem readBytes_append :
    readBytes memory pagetable ends status (k + n) va =
      (readBytes memory pagetable ends status n (addressAt va k)).map fun result =>
        (result.1, userBytes memory pagetable va k ++ result.2) := by
  induction k generalizing n with
  | zero =>
    rw [addressAt_zero bound, Nat.zero_add]
    cases readBytes memory pagetable ends status n va <;> rfl
  | succ k ih =>
    have byte : ends (memory.bytes (physical memory pagetable (addressAt va k))) = false :=
      others k (Nat.lt_succ_self k)
    have next : addressAt (addressAt va k) 1 = addressAt va (k + 1) := by
      simp only [addressAt]
      omega
    rw [show k + 1 + n = k + (n + 1) by omega,
      ih (fun j less => plain j (by omega)) fun j less => others j (by omega),
      readBytes_of_inRam (plain k (Nat.lt_succ_self k)), next, userBytes_succ]
    simp only [byte]
    cases readBytes memory pagetable ends status n (addressAt va (k + 1)) with
    | error halt => rfl
    | ok result => simp [Except.map, userByte]

theorem readBytes_all :
    readBytes memory pagetable ends status k va =
      .ok (status, userBytes memory pagetable va k) := by
  simpa [readBytes, Except.map] using readBytes_append (n := 0) bound plain others

end

/-- A loop that reads bytes stops where one of them is not mapped to memory. -/
theorem stops_of_readBytes {loop : M (Int × List UInt8)}
    (ran : loop.run memory =
      (readBytes memory pagetable ends status len va).map (·, memory)) (bound : va < 2 ^ 64)
    (inside : i < len) (plain : ∀ j < i, InRam memory pagetable (addressAt va j))
    (others : ∀ j < i, ends (userByte memory pagetable va j) = false)
    (stop : ¬InRam memory pagetable (addressAt va i))
    (isRefusal : refusal (-1, userBytes memory pagetable va i)) :
    Stops loop memory (frameOf memory pagetable (addressAt va i)) refusal := by
  obtain ⟨more, rfl⟩ : ∃ more, len = i + (more + 1) := ⟨len - i - 1, by omega⟩
  rw [readBytes_append bound plain others, readBytes_of_stop stop] at ran
  have stopped : loop.run memory = if (frameOf memory pagetable (addressAt va i)).getD 0 = 0 then
      .ok ((-1, userBytes memory pagetable va i), memory) else .error .pageFault := by
    rw [ran]
    split
    · simp [Except.map]
    · rfl
  exact .of_run isRefusal stopped

/-- The round of a loop, and what is left of it. -/
theorem Round.readBytes_eq (isRound : Round va len n) (bound : va < 2 ^ 64)
    (plain : InRam memory pagetable va)
    (others : ∀ j < n, ends (userByte memory pagetable va j) = false) :
    readBytes memory pagetable ends status len va =
      (readBytes memory pagetable ends status (len - n)
        ((pgRoundDown va + pgsize) % 2 ^ 64)).map fun result =>
          (result.1, userBytes memory pagetable va n ++ result.2) := by
  obtain ⟨more, rfl⟩ := Nat.exists_eq_add_of_le isRound.le
  rw [readBytes_append bound (fun j inside => (isRound.inRam_iff inside).mpr plain) others,
    Nat.add_sub_cancel_left]
  cases more with
  | zero => rw [readBytes, readBytes]
  | succ more =>
    have onward := isRound.onward 0 (by omega)
    rw [addressAt_zero (Nat.mod_lt _ (by decide)), Nat.add_zero] at onward
    rw [onward]

end Bytewise

/-- A loop that reads the rest of the bytes and returns them behind others. -/
theorem run_bind_of_map {loop : M Value} {change : Value → Result} {outcome : Except Halt Value}
    (ran : loop.run memory = outcome.map (·, memory)) :
    (do let value ← loop; return change value : M Result).run memory =
      (outcome.map change).map (·, memory) := by
  cases outcome with
  | error halt => exact run_bind_of_halt ran
  | ok value => exact run_bind_of_run ran

theorem Round.loadBytes_run (isRound : Round va len n)
    (found : frameOf memory pagetable va = some frame) (low : kernbase ≤ frame)
    (high : frame < phystop) :
    (loadBytes (frame + va % pgsize) n).run memory =
      .ok (userBytes memory pagetable va n, memory) := by
  have bytes : (List.range n).map (fun i => memory.bytes (frame + va % pgsize + i)) =
      userBytes memory pagetable va n := by
    apply List.map_congr_left
    intro i mem
    rw [userByte, isRound.physical_eq found (List.mem_range.mp mem)]
  rw [← bytes]
  exact if_pos ((isRound.mapped_iff found).mpr ⟨low, high⟩)

theorem loadBytes_halt (outside : ¬Mapped pa n) :
    (loadBytes pa n).run memory = .error .pageFault := if_neg outside

theorem copyinLoop_run (memory : Ram) (pagetable : Nat) (bound : va < 2 ^ 64)
    (enough : len ≤ fuel) :
    (copyinLoop pagetable fuel va len).run memory =
      (readBytes memory pagetable (fun _ => false) 0 len va).map (·, memory) := by
  induction fuel generalizing va len with
  | zero =>
    obtain rfl : len = 0 := by omega
    rfl
  | succ fuel ih =>
    by_cases empty : len = 0
    · rw [copyinLoop, if_pos empty, empty]
      rfl
    have isRound := round bound empty
    have positive := isRound.positive
    rw [copyinLoop, if_neg empty]
    simp only [sub_pgRoundDown]
    by_cases plain : InRam memory pagetable va
    · rw [isRound.readBytes_eq bound plain fun _ _ => rfl]
      obtain ⟨frame, found, low, high⟩ := plain
      rw [run_bind_of_run (walkaddr_round memory pagetable va), found, Option.getD_some,
        if_neg (frame_ne_zero low), run_bind_of_run (isRound.loadBytes_run found low high)]
      exact run_bind_of_map (ih (Nat.mod_lt _ (by decide)) (by omega))
    · rw [isRound.stops plain fun frame outside => loadBytes_halt outside]
      obtain ⟨more, rfl⟩ := Nat.exists_eq_succ_of_ne_zero empty
      rw [readBytes_of_stop plain]
      split <;> rfl

end Copyin

section Strings

variable {memory : Ram} {pagetable va max n : Nat}

theorem stringLoop_of_notMem (plain : (0 : UInt8) ∉ bytes) : stringLoop bytes = (bytes, false) := by
  induction bytes with
  | nil => rfl
  | cons byte others ih =>
    rw [List.mem_cons, not_or] at plain
    rw [stringLoop, if_neg (Ne.symm plain.1), ih plain.2]

theorem stringLoop_append (plain : (0 : UInt8) ∉ bytes)
    (others : List UInt8) : stringLoop (bytes ++ 0 :: others) = (bytes ++ [0], true) := by
  induction bytes with
  | nil => rfl
  | cons byte bytes ih =>
    rw [List.mem_cons, not_or] at plain
    rw [List.cons_append, stringLoop, if_neg (Ne.symm plain.1), ih plain.2]
    rfl

theorem zero_notMem_userBytes (plain : ∀ j < n, userByte memory pagetable va j ≠ 0) :
    (0 : UInt8) ∉ userBytes memory pagetable va n := by
  intro mem
  obtain ⟨j, inRange, zero⟩ := List.mem_map.mp mem
  exact plain j (List.mem_range.mp inRange) zero

theorem stringLoop_userBytes (inside : k < n) (plain : ∀ j < k, userByte memory pagetable va j ≠ 0)
    (nul : userByte memory pagetable va k = 0) :
    stringLoop (userBytes memory pagetable va n) = (userBytes memory pagetable va (k + 1), true) := by
  obtain ⟨more, rfl⟩ : ∃ more, n = k + (1 + more) := ⟨n - k - 1, by omega⟩
  have split : userBytes memory pagetable va (k + (1 + more)) =
      userBytes memory pagetable va k ++
        0 :: (List.range more).map fun i => userByte memory pagetable va (k + (1 + i)) := by
    rw [userBytes, userBytes, List.range_add, List.range_add, List.map_append]
    simp [nul, Function.comp_def]
  rw [split, stringLoop_append (zero_notMem_userBytes plain), userBytes_succ, nul]

theorem readBytes_of_nul (bound : va < 2 ^ 64) (inside : k < max)
    (plain : ∀ j ≤ k, InRam memory pagetable (addressAt va j))
    (nonzero : ∀ j < k, userByte memory pagetable va j ≠ 0)
    (nul : userByte memory pagetable va k = 0) :
    readBytes memory pagetable (· = 0) (-1) max va =
      .ok (0, userBytes memory pagetable va (k + 1)) := by
  obtain ⟨more, rfl⟩ : ∃ more, max = k + (more + 1) := ⟨max - k - 1, by omega⟩
  have byte : memory.bytes (physical memory pagetable (addressAt va k)) = 0 := nul
  rw [readBytes_append bound (fun j less => plain j (by omega))
    fun j less => decide_eq_false (nonzero j less), readBytes_of_inRam (plain k le_rfl), byte,
    userBytes_succ, nul]
  rfl

theorem copyinstrLoop_run (memory : Ram) (pagetable : Nat) (bound : va < 2 ^ 64)
    (enough : max ≤ fuel) :
    (copyinstrLoop pagetable fuel va max).run memory =
      (readBytes memory pagetable (· = 0) (-1) max va).map (·, memory) := by
  induction fuel generalizing va max with
  | zero =>
    obtain rfl : max = 0 := by omega
    rfl
  | succ fuel ih =>
    by_cases empty : max = 0
    · rw [copyinstrLoop, if_pos empty, empty]
      rfl
    have isRound := round bound empty
    have positive := isRound.positive
    rw [copyinstrLoop, if_neg empty]
    simp only [sub_pgRoundDown]
    by_cases plain : InRam memory pagetable va
    · obtain ⟨frame, found, low, high⟩ := id plain
      rw [run_bind_of_run (walkaddr_round memory pagetable va), found, Option.getD_some,
        if_neg (frame_ne_zero low), run_bind_of_run (isRound.loadBytes_run found low high)]
      rcases forall_or_first (fun j => userByte memory pagetable va j ≠ 0)
        (min (pgsize - va % pgsize) max) with nonzero | ⟨k, inside, nonzero, nul⟩
      · rw [isRound.readBytes_eq bound plain fun j less => decide_eq_false (nonzero j less),
          stringLoop_of_notMem (zero_notMem_userBytes nonzero)]
        exact run_bind_of_map (ih (Nat.mod_lt _ (by decide)) (by omega))
      · rw [not_not] at nul
        rw [stringLoop_userBytes inside nonzero nul, readBytes_of_nul bound (by omega) ?_ nonzero nul]
        · rfl
        · exact fun j le => (isRound.inRam_iff (by omega)).mpr plain
    · rw [isRound.stops plain fun frame outside => loadBytes_halt outside]
      obtain ⟨more, rfl⟩ := Nat.exists_eq_succ_of_ne_zero empty
      rw [readBytes_of_stop plain]
      split <;> rfl

end Strings

end Xv6.Memory
