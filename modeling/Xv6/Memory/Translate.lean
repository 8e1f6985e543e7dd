import Xv6.Memory.UserCopyExact

/-!
# `translate`

`proc.c` has a walk of its own beside `walk` of `vm.c`. It does not compare the address
with `MAXVA`, and the variable of its loop hides the parameter `level`, which then picks
the index in the last table: 0 from `map_frames`, and 1 from `shrimpy`.
-/

namespace Xv6.Memory.Shrimpy

/-- The loop of `translate`: the table of the last level. -/
def translateLevels : (level table vaddr : Nat) → M (Option Nat)
  | 0, table, _ => return some table
  | level + 1, table, vaddr => do
    let pte ← load table (px (level + 1) vaddr)
    if ¬isValid pte then return none else translateLevels level (ptePage pte) vaddr

/-- `~0` as a `uint64`. -/
def unmapped : Nat := 2 ^ 64 - 1

/-- `PTE2PA(e) | (vaddr & (PGSIZE - 1))`. -/
def addressIn (pte vaddr : Nat) : Nat := pte2pa pte % 2 ^ 64 ||| vaddr % pgsize

/-- `translate`. -/
def translate (pagetable vaddr level : Nat) : M Nat := do
  match ← translateLevels 2 pagetable vaddr with
  | none => return unmapped
  | some table => do
    let pte ← load table (px level vaddr)
    if ¬isValid pte then return unmapped else return addressIn pte vaddr

variable {memory : Ram} {pagetable vaddr level : Nat}

/-- `walk` finds the valid entry `pte` for an address. -/
def Finds (memory : Ram) (pagetable vaddr pte : Nat) : Prop :=
  vaddr < maxva ∧ isValid pte ∧ ∃ table,
    (walk pagetable vaddr false).run memory = .ok (some table, memory) ∧
      memory.word table (px 0 vaddr) = pte

/-- `translate` returns what `walk` finds, and `~0` if it finds nothing. -/
def AgreesWithWalk (memory : Ram) (pagetable vaddr level : Nat) : Prop :=
  ∃ result, (translate pagetable vaddr level).run memory = .ok (result, memory) ∧
    (∀ pte, Finds memory pagetable vaddr pte → result = addressIn pte vaddr) ∧
    ((∀ pte, ¬Finds memory pagetable vaddr pte) → result = unmapped)

/-- In the last table, the index of the given level stands for the same page as that of
level 0, and for none behind `MAXVA`. -/
def SameLeaf (memory : Ram) (pagetable vaddr level : Nat) : Prop :=
  ∀ table, findTable memory 2 pagetable vaddr = some table →
    let picked := memory.word table (px level vaddr)
    let leaf := memory.word table (px 0 vaddr)
    if vaddr < maxva then
      isValid picked = isValid leaf ∧ (isValid leaf → ptePage picked = ptePage leaf)
    else ¬isValid picked

theorem translateLevels_findTable (memory : Ram) (level table vaddr : Nat) :
    (translateLevels level table vaddr).run memory =
      .ok (findTable memory level table vaddr, memory) := by
  induction level generalizing table with
  | zero => rfl
  | succ level ih =>
    have opened : (translateLevels (level + 1) table vaddr).run memory =
        (if ¬isValid (memory.word table (px (level + 1) vaddr)) then return none
        else translateLevels level (ptePage (memory.word table (px (level + 1) vaddr)))
          vaddr).run memory := rfl
    rw [opened, findTable, ite_not]
    split
    · exact ih _
    · rfl

theorem translate_run (memory : Ram) (pagetable vaddr level : Nat) :
    (translate pagetable vaddr level).run memory =
      .ok (match findTable memory 2 pagetable vaddr with
        | none => unmapped
        | some table =>
          if isValid (memory.word table (px level vaddr)) then
            addressIn (memory.word table (px level vaddr)) vaddr
          else unmapped, memory) := by
  rw [translate, Semantics.run_bind_of_run (translateLevels_findTable memory 2 pagetable vaddr)]
  cases findTable memory 2 pagetable vaddr with
  | none => rfl
  | some table =>
    show (if ¬isValid (memory.word table (px level vaddr)) then _ else _ : M Nat).run memory =
      .ok (if isValid (memory.word table (px level vaddr)) then _ else _, memory)
    rw [ite_not]
    split <;> rfl

theorem finds_iff : Finds memory pagetable vaddr pte ↔
    vaddr < maxva ∧ ∃ table, findTable memory 2 pagetable vaddr = some table ∧
      memory.word table (px 0 vaddr) = pte ∧ isValid pte := by
  refine and_congr_right fun low => ?_
  rw [walk, if_neg (Nat.not_le.mpr low), walkLevels_findTable, ← exists_and_left]
  simp [and_comm, and_left_comm]

/-- The page of an entry whose reserved bits are clear can be told from its address, which
is not `~0`. -/
theorem addressIn_eq (small : pte < 2 ^ 54) :
    addressIn pte vaddr = ptePage pte * pgsize + vaddr % pgsize := by
  have fits : pte2pa pte % 2 ^ 64 = 2 ^ 12 * ptePage pte := by
    simp only [pte2pa, ptePage]
    omega
  have within : vaddr % pgsize < 2 ^ 12 := Nat.mod_lt _ (by decide)
  rw [addressIn, fits, ← Nat.two_pow_add_eq_or_of_lt within, pgsize, Nat.mul_comm]

theorem onePage_formed (page i : Nat) : onePage.word page i < 2 ^ 54 := by
  simp only [onePage]
  split_ifs <;> decide

end Xv6.Memory.Shrimpy
