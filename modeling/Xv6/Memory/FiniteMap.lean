import Xv6.Memory.Mapping

/-!
# Page tables are finite maps

`mappages` adds the pages of a range to what a page table maps, and `uvmunmap` takes
them away. The entries of level 0 may have any flags here.
-/

namespace Xv6.Memory

open Xv6.Semantics

/-! ## Entries -/

theorem ptePage_mkPte_flags (flags : perm < 2 ^ 10) : ptePage (mkPte pa perm) = pa / pgsize := by
  simp only [ptePage, mkPte_eq, pgsize]
  omega

theorem pteFlags_mkPte (flags : perm < 2 ^ 10) : pteFlags (mkPte pa perm) = perm ||| pteV := by
  rw [or_pteV, pteFlags, mkPte_eq]
  omega

theorem mkPte_lt (physical : pa < 2 ^ 57) (flags : perm < 2 ^ 10) : mkPte pa perm < 2 ^ 64 := by
  rw [mkPte_eq]
  omega

/-- The page numbers from `page` on, `n` of them. -/
def framesFrom (page n : Nat) : Multiset Nat := (List.range' page n : Multiset Nat)

theorem framesFrom_succ (page n : Nat) :
    framesFrom page (n + 1) = page ::ₘ framesFrom (page + 1) n := rfl

section Pool

variable [Image]

/-- The entry that `walk` finds for an address, where it is valid. -/
def lookup (memory : Ram) (pagetable va : Nat) : Option Nat :=
  match (walk pagetable va false).run memory with
  | .ok (some table, found) =>
    if isValid (found.word table (px 0 va)) then some (found.word table (px 0 va)) else none
  | _ => none

namespace Formed

variable {pool : PagePool} {memory : Ram} {pagetable : Nat} {held : Multiset Nat}

theorem lookup_eq (formed : Formed pool memory pagetable held) (bound : va < maxva) : lookup memory pagetable va =
      if isValid (entry memory pagetable (va / pgsize)) then
        some (entry memory pagetable (va / pgsize))
      else none := by
  rw [lookup, formed.walk_run bound]
  cases reached : pteFormat.slot memory.word 2 pagetable (va / pgsize) with
  | none => simp [entry, Radix.Format.leaf, reached, isValid_zero]
  | some last =>
    have word := word_of_slot reached
    simp only [px_zero, pteFormat_fanout, word]

/-! ## The loops -/

/-- The loop of `mappages` maps the pages from `v` to `v + n`, or runs out of pages. -/
theorem mapLoop_returns (formed : Formed pool memory pagetable held)
    (enough : n < fuel) (inside : v + n < maxva / pgsize)
    (unused : ∀ i ≤ n, isValid (entry memory pagetable (v + i)) = false) :
    Returns (mapLoop fuel pagetable (v * pgsize) ((v + n) * pgsize) pa perm) memory
      fun done next => Formed pool next pagetable held ∧
        (done = true → ∀ other < maxva / pgsize, entry next pagetable other =
          if v ≤ other ∧ other ≤ v + n then mkPte (pa + (other - v) * pgsize) perm
          else entry memory pagetable other) := by
  obtain ⟨fuel, rfl⟩ := Nat.exists_eq_succ_of_ne_zero (Nat.ne_of_gt (Nat.zero_lt_of_lt enough))
  induction n generalizing v fuel pa memory with
  | zero =>
    have bound : v < maxva / pgsize := inside
    have free : isValid (entry memory pagetable v) = false := unused 0 (Nat.le_refl _)
    apply formed.mapLoop_succ bound free fun _ grown _ _ _ _ => ⟨grown, nofun⟩
    intro next written _ _ _ entries
    rw [Nat.add_zero, if_pos rfl]
    refine .pure ⟨written, fun _ other below => ?_⟩
    rw [entries other below]
    by_cases own : other = v
    · rw [if_pos own, if_pos (by omega), own, Nat.sub_self, Nat.zero_mul, Nat.add_zero]
    · rw [if_neg own, if_neg (by omega)]
  | succ n ih =>
    have free : isValid (entry memory pagetable v) = false := unused 0 (Nat.zero_le _)
    apply formed.mapLoop_succ (by omega) free fun _ grown _ _ _ _ => ⟨grown, nofun⟩
    intro next written _ _ _ entries
    have notLast : v * pgsize ≠ (v + (n + 1)) * pgsize := by
      simp only [pgsize]
      omega
    obtain ⟨fuel, rfl⟩ : ∃ more, fuel = more + 1 := ⟨fuel - 1, by omega⟩
    rw [if_neg notLast, show v + (n + 1) = v + 1 + n by omega]
    have stillUnused : ∀ i ≤ n, isValid (entry next pagetable (v + 1 + i)) = false := by
      intro i less
      rw [entries _ (by omega), if_neg (by omega), Nat.add_assoc, Nat.add_comm 1 i]
      exact unused (i + 1) (by omega)
    refine (ih written (by omega) stillUnused fuel (by omega)).mono
      fun done final continued => ?_
    obtain ⟨finalFormed, mapped⟩ := continued
    refine ⟨finalFormed, fun isDone other below => ?_⟩
    rw [mapped isDone other below, entries other below]
    by_cases own : other = v
    · rw [if_neg (by omega), if_pos own, if_pos (by omega), own, Nat.sub_self, Nat.zero_mul,
        Nat.add_zero]
    rw [if_neg own]
    by_cases later : v + 1 ≤ other ∧ other ≤ v + 1 + n
    · rw [if_pos later, if_pos (by omega)]
      have moved : pa + pgsize + (other - (v + 1)) * pgsize = pa + (other - v) * pgsize := by
        rw [show other - v = other - (v + 1) + 1 by omega, Nat.succ_mul]
        omega
      rw [moved]
    · rw [if_neg later, if_neg (by omega)]

/-- The loop of `uvmunmap` clears the entries from `v` on, `n` of them. -/
theorem unmapLoop_returns (formed : Formed pool memory pagetable
      ((if doFree then framesFrom page n else 0) + held))
    (inside : v + n ≤ maxva / pgsize)
    (mapped : ∀ i < n, isValid (entry memory pagetable (v + i)) = true ∧
      pteFlags (entry memory pagetable (v + i)) ≠ pteV ∧
      ptePage (entry memory pagetable (v + i)) = page + i) :
    Returns (unmapLoop n pagetable (v * pgsize) doFree) memory fun _ next =>
      Formed pool next pagetable held ∧
        ∀ other < maxva / pgsize, entry next pagetable other =
          if v ≤ other ∧ other < v + n then 0 else entry memory pagetable other := by
  induction n generalizing v page memory with
  | zero =>
    have none : (if doFree then framesFrom page 0 else 0) + held = held := by
      cases doFree
      · exact zero_add _
      · exact zero_add _
    rw [none] at formed
    refine .pure ⟨formed, fun other below => ?_⟩
    rw [if_neg (by omega)]
  | succ n ih =>
    have bound : v < maxva / pgsize := by omega
    obtain ⟨used, flags, frame⟩ := mapped 0 (Nat.zero_lt_succ _)
    rw [Nat.add_zero] at used flags
    rw [Nat.add_zero, Nat.add_zero] at frame
    have first : Formed pool memory pagetable
        ((if doFree then {ptePage (entry memory pagetable v)} else 0) +
          ((if doFree then framesFrom (page + 1) n else 0) + held)) := by
      cases doFree with
      | false => simpa using formed
      | true => simpa [framesFrom_succ, frame] using formed
    refine first.unmapLoop_succ bound used flags fun next written _ _ _ entries => ?_
    have stillMapped : ∀ i < n, isValid (entry next pagetable (v + 1 + i)) = true ∧
        pteFlags (entry next pagetable (v + 1 + i)) ≠ pteV ∧
        ptePage (entry next pagetable (v + 1 + i)) = page + 1 + i := by
      intro i less
      rw [entries _ (by omega), if_neg (by omega), Nat.add_assoc, Nat.add_assoc, Nat.add_comm 1 i]
      exact mapped (i + 1) (by omega)
    refine (ih written (by omega) stillMapped).mono fun _ final result => ?_
    obtain ⟨finalFormed, cleared⟩ := result
    refine ⟨finalFormed, fun other below => ?_⟩
    rw [cleared other below, entries other below]
    by_cases own : other = v
    · rw [if_neg (by omega), if_pos own, if_pos (by omega)]
    · rw [if_neg own]
      by_cases later : v + 1 ≤ other ∧ other < v + 1 + n
      · rw [if_pos later, if_pos (by omega)]
      · rw [if_neg later, if_neg (by omega)]

end Formed

/-! ## The result -/

/-- The number of pages that `size` bytes from `va` on touch. -/
def pageCount (va size : Nat) : Nat := (va + size - 1) / pgsize - va / pgsize + 1

/-- The address is on a page that `size` bytes from `va` on touch. -/
def Touches (va size a : Nat) : Prop :=
  va / pgsize ≤ a / pgsize ∧ a / pgsize ≤ (va + size - 1) / pgsize

/-- `mappages` of a range whose pages are not mapped returns. If it returns 0, `walk` finds
the pages of the range with the given flags, the other virtual pages are as before, and
`uvmunmap` of the range makes all virtual pages what they were, unless the only flag is
`PTE_V`. Pages that `uvmunmap` frees are held outside of the page table. -/
theorem mappages_finiteMap {pool : PagePool} {memory : Ram} {held : Multiset Nat}
    {pagetable va size pa perm : Nat} {doFree : Bool} (positive : 0 < size)
    (inside : va + size ≤ maxva) (physical : pa < 2 ^ 56) (flags : perm < 2 ^ 10)
    (formed : Formed pool memory pagetable
      ((if doFree then framesFrom (pa / pgsize) (pageCount va size) else 0) + held))
    (unmapped : ∀ a < maxva, Touches va size a → lookup memory pagetable a = none) :
    Returns (mappages pagetable va size pa perm) memory fun done mapped => done = true →
      (∀ i < pageCount va size, ∃ pte < 2 ^ 64,
        lookup mapped pagetable (pgRoundDown va + i * pgsize) = some pte ∧
          ptePage pte = pa / pgsize + i ∧ pteFlags pte = perm ||| pteV) ∧
      (∀ a < maxva, ¬Touches va size a → lookup mapped pagetable a = lookup memory pagetable a) ∧
      (perm ||| pteV ≠ pteV →
        Returns (uvmunmap pagetable (pgRoundDown va) (pageCount va size) doFree) mapped
          fun _ restored => ∀ a < maxva,
            lookup restored pagetable a = lookup memory pagetable a) := by
  obtain ⟨v, first⟩ : ∃ v, va / pgsize = v := ⟨_, rfl⟩
  obtain ⟨n, order⟩ : ∃ n, v + n = (va + size - 1) / pgsize := by
    have less : va / pgsize ≤ (va + size - 1) / pgsize := Nat.div_le_div_right (by omega)
    exact ⟨(va + size - 1) / pgsize - v, by omega⟩
  have count : pageCount va size = n + 1 := by
    rw [pageCount]
    omega
  have touches (a : Nat) : Touches va size a ↔ v ≤ a / pgsize ∧ a / pgsize ≤ v + n := by
    rw [Touches, first, order]
  simp only [count, touches] at *
  have bound : v + n < maxva / pgsize := by
    rw [order]
    apply Nat.div_lt_of_lt_mul
    rw [Nat.mul_div_cancel' (by decide)]
    omega
  have page (w : Nat) (below : w < maxva / pgsize) :
      w * pgsize < maxva ∧ w * pgsize / pgsize = w :=
    ⟨mul_pgsize_lt below, mul_pgsize_div w⟩
  have unused : ∀ i ≤ n, isValid (entry memory pagetable (v + i)) = false := by
    intro i less
    obtain ⟨small, number⟩ := page (v + i) (by omega)
    have none := unmapped ((v + i) * pgsize) small (by omega)
    rw [formed.lookup_eq small, number] at none
    by_contra used
    rw [if_pos (Bool.eq_true_of_not_eq_false used)] at none
    cases none
  have started : pgRoundDown va = v * pgsize := by rw [← first, pgRoundDown]
  have ended : pgRoundDown (va + size - 1) = (v + n) * pgsize := by rw [order, pgRoundDown]
  rw [mappages, if_neg (Nat.ne_of_gt positive), ended, started]
  have enough : n < maxva / pgsize + 1 := by omega
  refine (formed.mapLoop_returns enough bound unused).mono fun done mapped result isDone => ?_
  obtain ⟨mappedFormed, entries⟩ := result
  replace entries := entries isDone
  have own (i : Nat) (less : i ≤ n) :
      entry mapped pagetable (v + i) = mkPte (pa + i * pgsize) perm := by
    rw [entries (v + i) (by omega), if_pos (by omega), Nat.add_sub_cancel_left]
  have frame (i : Nat) : (pa + i * pgsize) / pgsize = pa / pgsize + i :=
    Nat.add_mul_div_right _ _ (by decide)
  have within {a : Nat} (below : a < maxva) : a / pgsize < maxva / pgsize := by
    apply Nat.div_lt_of_lt_mul
    rwa [Nat.mul_div_cancel' (by decide)]
  refine ⟨fun i less => ?_, fun a below outside => ?_, fun someFlag => ?_⟩
  · have less : i ≤ n := Nat.le_of_lt_succ less
    obtain ⟨small, number⟩ := page (v + i) (by omega)
    refine ⟨mkPte (pa + i * pgsize) perm, ?_, ?_, ?_, pteFlags_mkPte flags⟩
    · apply mkPte_lt _ flags
      have small : n < 2 ^ 26 := lt_of_le_of_lt (Nat.le_add_left ..) bound
      rw [pgsize]
      omega
    · rw [← Nat.add_mul, mappedFormed.lookup_eq small, number, own i less,
        if_pos (isValid_mkPte ..)]
    · rw [ptePage_mkPte_flags flags, frame]
  · rw [mappedFormed.lookup_eq below, formed.lookup_eq below, entries _ (within below),
      if_neg outside]
  rw [uvmunmap_mul]
  have present : ∀ i < n + 1, isValid (entry mapped pagetable (v + i)) = true ∧
      pteFlags (entry mapped pagetable (v + i)) ≠ pteV ∧
      ptePage (entry mapped pagetable (v + i)) = pa / pgsize + i := by
    intro i less
    rw [own i (Nat.le_of_lt_succ less)]
    refine ⟨isValid_mkPte .., ?_, ?_⟩
    · rw [pteFlags_mkPte flags]
      exact someFlag
    · rw [ptePage_mkPte_flags flags, frame]
  refine (mappedFormed.unmapLoop_returns (by omega) present).mono fun _ restored result => ?_
  obtain ⟨restoredFormed, cleared⟩ := result
  intro a below
  rw [restoredFormed.lookup_eq below, formed.lookup_eq below, cleared _ (within below)]
  by_cases touched : v ≤ a / pgsize ∧ a / pgsize < v + (n + 1)
  · have invalid := unused (a / pgsize - v) (by omega)
    rw [Nat.add_sub_of_le touched.1] at invalid
    rw [if_pos touched, invalid]
    rfl
  · have untouched : ¬(v ≤ a / pgsize ∧ a / pgsize ≤ v + n) := by omega
    rw [if_neg touched, entries _ (within below), if_neg untouched]

end Pool
/-! ## An empty page table -/

/-- A kernel image of 128 KiB. -/
@[reducible] def tinyImage : Image := ⟨0x80020000, 0x80007000, by decide⟩

/-- An empty page table at page 0x80100, and two free pages. -/
def tinyRam : Ram := { freelist := [0x80101, 0x80102], word := fun _ _ => 0 }

/-- Its pages. -/
def tinyPool : @PagePool tinyImage :=
  letI := tinyImage
  { pages := ([0x80101, 0x80102, 0x80100] : List Nat)
    nodup := by decide
    managed := by decide }

theorem formed_tinyRam : @Formed tinyImage tinyPool tinyRam 0x80100 0 := by
  let := tinyImage
  have cleared : ∀ i, tinyRam.word 0x80100 i = pteFormat.empty := fun _ => pteFormat_empty.symm
  refine ⟨?_, Radix.Format.linked_of_empty cleared 2⟩
  rw [Accounts, tablePages, Radix.Format.nodes_of_empty cleared]
  rfl

theorem lookup_tinyRam (a : Nat) (bound : a < maxva) :
    lookup tinyRam 0x80100 a = none := by
  let := tinyImage
  have cleared : ∀ i, tinyRam.word 0x80100 i = pteFormat.empty := fun _ => pteFormat_empty.symm
  rw [formed_tinyRam.lookup_eq bound, entry, Radix.Format.leaf_of_empty cleared, pteFormat_empty]
  rfl

/-- Two pages' worth of bytes from the middle of a page on are three pages. -/
theorem mappages_finiteMap_unaligned : letI := tinyImage
    ∃ mapped, (mappages 0x80100 (5 * 4096 + 100) 8192 0x80200000 (pteR ||| pteW)).run tinyRam =
        .ok (true, mapped) ∧
      Returns (uvmunmap 0x80100 (5 * 4096) 3 false) mapped fun _ restored =>
        ∀ a < maxva, lookup restored 0x80100 a = lookup tinyRam 0x80100 a := by
  have maps := @mappages_finiteMap tinyImage tinyPool tinyRam 0 0x80100 (5 * 4096 + 100) 8192
    0x80200000 (pteR ||| pteW) false (by decide) (by decide) (by decide) (by decide)
    (by rw [if_neg Bool.false_ne_true, zero_add]; exact formed_tinyRam)
    (fun a bound _ => lookup_tinyRam a bound)
  have succeeds : ((mappages 0x80100 (5 * 4096 + 100) 8192 0x80200000
      (pteR ||| pteW)).run tinyRam).toOption.map Prod.fst = some true := by
    decide +kernel
  obtain ⟨done, mapped, ran, holds⟩ := maps
  rw [ran] at succeeds
  cases Option.some.inj succeeds
  exact ⟨mapped, ran, (holds rfl).2.2 (by decide)⟩

/-- Without a flag besides `PTE_V`, `uvmunmap` does not accept what `mappages` has mapped. -/
theorem uvmunmap_refuses_bare : letI := tinyImage
    Formed tinyPool tinyRam 0x80100 0 ∧
      (∀ a < maxva, lookup tinyRam 0x80100 a = none) ∧
      ∃ mapped, (mappages 0x80100 0 4096 0x80200000 0).run tinyRam = .ok (true, mapped) ∧
        (uvmunmap 0x80100 0 1 false).run mapped = .error (.panic "uvmunmap: not a leaf") := by
  let := tinyImage
  refine ⟨formed_tinyRam, lookup_tinyRam, ?_⟩
  have ends : ((mappages 0x80100 0 4096 0x80200000 0).run tinyRam).toOption.map (fun result =>
      (result.1, match (uvmunmap 0x80100 0 1 false).run result.2 with
        | .ok _ => none
        | .error halt => some halt)) = some (true, some (.panic "uvmunmap: not a leaf")) := by
    decide +kernel
  cases ran : (mappages 0x80100 0 4096 0x80200000 0).run tinyRam with
  | error halt =>
    rw [ran] at ends
    cases ends
  | ok result =>
    obtain ⟨done, mapped⟩ := result
    rw [ran] at ends
    obtain ⟨isDone, refused⟩ := Prod.mk.inj (Option.some.inj ends)
    cases unmapped : (uvmunmap 0x80100 0 1 false).run mapped with
    | ok result =>
      simp only [unmapped] at refused
      cases refused
    | error halt =>
      simp only [unmapped] at refused
      cases refused
      simp only at isDone
      exact ⟨mapped, by rw [isDone], unmapped⟩

end Xv6.Memory
