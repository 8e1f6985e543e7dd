import Mathlib.Data.Fintype.Card
import Xv6.Virtio.Driver

/-!
# Descriptors and chains

What the functions on descriptors do: `alloc3_desc` takes three free descriptors or none,
and `free_chain` gives back the three descriptors of a chain that the driver has linked.
-/

namespace Xv6.Virtio

open Function Xv6.Semantics

variable {B : Type}

namespace Disk

variable {disk disk' : Disk B} {b : B} {i j k : Index}

/-! ## Fields -/

@[simp] theorem setFree_free (disk : Disk B) (i : Index) (value : Bool) (d : Index) :
    (disk.setFree i value).free d = if d = i then value else disk.free d :=
  update_apply ..

@[simp] theorem setFree_desc (disk : Disk B) (i : Index) (value : Bool) :
    (disk.setFree i value).desc = disk.desc := rfl

@[simp] theorem setDesc_free (disk : Disk B) (i : Index) (desc : Desc B) :
    (disk.setDesc i desc).free = disk.free := rfl

@[simp] theorem setDesc_desc (disk : Disk B) (i : Index) (desc : Desc B) (d : Index) :
    (disk.setDesc i desc).desc d = if d = i then desc else disk.desc d :=
  update_apply ..

/-! ## Allocation -/

theorem allocDesc_some (ran : disk.allocDesc = some (disk', i)) :
    disk.free i = true ∧ disk' = disk.setFree i false := by
  obtain ⟨found, isFound, same⟩ := Option.map_eq_some_iff.mp ran
  cases same
  exact ⟨List.find?_some isFound, rfl⟩

theorem freeDesc_val (taken : disk.free i = false) :
    disk.freeDesc i = some ((disk.setDesc i .zero).setFree i true) := by
  rw [freeDesc, dif_pos i.isLt, taken]
  rfl

/-- At most the contents of free descriptors have changed. -/
structure Restored (disk disk' : Disk B) : Prop where
  eq : disk' = { disk with desc := disk'.desc }
  desc : ∀ d, disk.free d = false → disk'.desc d = disk.desc d

theorem Restored.free (restored : Restored disk disk') : disk'.free = disk.free := by
  rw [restored.eq]

theorem restored_one (isFree : disk.free i = true) :
    Restored disk (((disk.setFree i false).setDesc i .zero).setFree i true) where
  eq := by
    have same : update (update disk.free i false) i true = disk.free := by
      rw [update_idem, ← isFree, update_eq_self]
    simp only [setFree, setDesc, same]
  desc := by
    intro d taken
    apply update_of_ne
    rintro rfl
    rw [isFree] at taken
    cases taken

theorem restored_two (isFree : disk.free i = true) (isFreeToo : disk.free j = true) :
    Restored disk ((((((disk.setFree i false).setFree j false).setDesc i .zero).setFree i
      true).setDesc j .zero).setFree j true) where
  eq := by
    have same : update (update (update (update disk.free i
        false) j false) i true) j true = disk.free := by
      funext d
      simp only [update_apply]
      split
      · rename_i isJ
        rw [isJ, isFreeToo]
      · split
        · rename_i isI
          rw [isI, isFree]
        · rfl
    simp only [setFree, setDesc, same]
  desc := by
    intro d taken
    have notJ : d ≠ j := by
      rintro rfl
      rw [isFreeToo] at taken
      cases taken
    have notI : d ≠ i := by
      rintro rfl
      rw [isFree] at taken
      cases taken
    exact (update_of_ne notJ _ _).trans (update_of_ne notI _ _)

/-- The disk with three descriptors taken. -/
def take3 (disk : Disk B) (i j k : Index) : Disk B :=
  ((disk.setFree i false).setFree j false).setFree k false

/-- What `alloc3_desc` does: it fails and leaves the free descriptors as they are, or it
takes three of them. -/
inductive Alloc3 (disk : Disk B) : Option (Disk B × Option (Index × Index × Index)) → Prop where
  | fails {disk' : Disk B} (restored : Restored disk disk') : Alloc3 disk (some (disk', none))
  | takes {i j k : Index} (free : disk.free i = true ∧ disk.free j = true ∧ disk.free k = true)
      (distinct : i ≠ j ∧ i ≠ k ∧ j ≠ k) : Alloc3 disk (some (disk.take3 i j k, some (i, j, k)))

theorem alloc3Desc_cases (disk : Disk B) : Alloc3 disk disk.alloc3Desc := by
  unfold alloc3Desc
  split
  · exact .fails ⟨rfl, fun _ _ => rfl⟩
  rename_i first i allocated
  obtain ⟨freeI, rfl⟩ := allocDesc_some allocated
  split
  · rw [freeDesc_val (by simp)]
    exact .fails (restored_one freeI)
  rename_i second j allocatedJ
  obtain ⟨stillFreeJ, rfl⟩ := allocDesc_some allocatedJ
  simp only [setFree_free, Bool.ite_eq_true_distrib, Bool.false_eq_true, if_false_left] at stillFreeJ
  obtain ⟨notI, freeJ⟩ := stillFreeJ
  split
  · rw [freeDesc_val (by simp [Ne.symm notI]), Option.bind_some, freeDesc_val (by simp [notI])]
    exact .fails (restored_two freeI freeJ)
  rename_i third k allocatedK
  obtain ⟨stillFreeK, rfl⟩ := allocDesc_some allocatedK
  simp only [setFree_free, Bool.ite_eq_true_distrib, Bool.false_eq_true, if_false_left]
    at stillFreeK
  obtain ⟨notJ, notIToo, freeK⟩ := stillFreeK
  exact .takes ⟨freeI, freeJ, freeK⟩ ⟨Ne.symm notI, Ne.symm notIToo, Ne.symm notJ⟩

/-! ## Chains -/

/-- Three descriptors are linked, and the last one points to the status of the first. -/
structure Chained (disk : Disk B) (i j k : Index) : Prop where
  distinct : i ≠ j ∧ i ≠ k ∧ j ≠ k
  first : (disk.desc i).flags &&& flagNext ≠ 0 ∧ (disk.desc i).next = j
  second : (disk.desc j).flags &&& flagNext ≠ 0 ∧ (disk.desc j).next = k
  third : (disk.desc k).flags &&& flagNext = 0
  status : (disk.desc k).addr = .status i

/-- A chain is that of a request for a buffer. -/
structure Linked (disk : Disk B) (b : B) (i j k : Index) : Prop extends Chained disk i j k where
  buf : (disk.info i).b = some b

/-- A chain depends on its descriptors and on the `info` of its head. -/
theorem Linked.congr (linked : Linked disk b i j k)
    (desc : ∀ d ∈ [i, j, k], disk'.desc d = disk.desc d)
    (info : (disk'.info i).b = (disk.info i).b) : Linked disk' b i j k where
  distinct := linked.distinct
  first := (desc i (by simp)).symm ▸ linked.first
  second := (desc j (by simp)).symm ▸ linked.second
  third := (desc k (by simp)).symm ▸ linked.third
  status := (desc k (by simp)).symm ▸ linked.status
  buf := info.trans linked.buf

theorem submit_linked (disk : Disk B) (b : B) (blockno : Nat) (write : Bool)
    (distinct : i ≠ j ∧ i ≠ k ∧ j ≠ k) : Linked (disk.submit b blockno write i j k) b i j k := by
  obtain ⟨ij, ik, jk⟩ := distinct
  have atI : (disk.submit b blockno write i j k).desc i = ⟨.request i, 16, flagNext, j⟩ := by
    simp [submit, update_of_ne, ij, ik]
  have atJ : (disk.submit b blockno write i j k).desc j =
      ⟨.data b, 1024, (if write then 0 else flagWrite) ||| flagNext, k⟩ := by
    simp [submit, update_of_ne, jk]
  have atK : (disk.submit b blockno write i j k).desc k = ⟨.status i, 1, flagWrite, 0⟩ := by
    simp [submit]
  refine ⟨⟨⟨ij, ik, jk⟩, ?first, ?second, ?third, ?status⟩, ?buf⟩
  case first =>
    rw [atI]
    exact ⟨show flagNext &&& flagNext ≠ 0 by decide, rfl⟩
  case second =>
    rw [atJ]
    have flags : ((if write then 0 else flagWrite) ||| flagNext) &&& flagNext ≠ 0 := by
      cases write <;> decide
    exact ⟨flags, rfl⟩
  case third =>
    rw [atK]
    exact show flagWrite &&& flagNext = 0 by decide
  case status => rw [atK]
  case buf => simp [submit]

theorem submit_desc (disk : Disk B) (b : B) (blockno : Nat) (write : Bool)
    (other : d ≠ i ∧ d ≠ j ∧ d ≠ k) :
    (disk.submit b blockno write i j k).desc d = disk.desc d ∧
      (disk.submit b blockno write i j k).info d = disk.info d := by
  obtain ⟨notI, notJ, notK⟩ := other
  simp [submit, update_of_ne, notI, notJ, notK]

theorem complete_buf (disk : Disk B) (head : Index) (status : BitVec 8) (d : Index) :
    ((disk.complete head status).info d).b = (disk.info d).b := by
  simp only [complete]
  split
  · rw [update_apply]
    split
    · rename_i same
      rw [same]
    · rfl
  · rfl

/-- The disk with a descriptor given back. -/
def give (disk : Disk B) (i : Index) : Disk B := (disk.setDesc i .zero).setFree i true

theorem freeChain_next (taken : disk.free i = false)
    (more : (disk.desc i).flags &&& flagNext ≠ 0 ∧ (disk.desc i).next = j) :
    disk.freeChain (fuel + 1) i = (disk.give i).freeChain fuel j := by
  simp only [freeChain, freeDesc_val taken, Option.bind_some, Fin.ofNat_val_eq_self,
    if_pos more.1, more.2]
  rfl

theorem freeChain_last (taken : disk.free i = false) (last : (disk.desc i).flags &&& flagNext = 0) :
    disk.freeChain (fuel + 1) i = some (disk.give i) := by
  simp only [freeChain, freeDesc_val taken, Option.bind_some, Fin.ofNat_val_eq_self, ne_eq, last,
    not_true_eq_false, if_false]
  rfl

/-- `free_chain` frees the three descriptors of a chain, and does not panic. -/
theorem freeChain_chained (linked : Chained disk i j k)
    (taken : disk.free i = false ∧ disk.free j = false ∧ disk.free k = false) :
    disk.freeChain num i = some (((disk.give i).give j).give k) := by
  obtain ⟨ij, ik, jk⟩ := linked.distinct
  obtain ⟨takenI, takenJ, takenK⟩ := taken
  have second : ((disk.give i).desc j).flags &&& flagNext ≠ 0 ∧ ((disk.give i).desc j).next = k := by
    simpa [give, Ne.symm ij] using linked.second
  have third : (((disk.give i).give j).desc k).flags &&& flagNext = 0 := by
    simpa [give, Ne.symm ik, Ne.symm jk] using linked.third
  change disk.freeChain (5 + 1 + 1 + 1) i = _
  rw [freeChain_next takenI linked.first,
    freeChain_next (by simpa [give, Ne.symm ij] using takenJ) second,
    freeChain_last (by simpa [give, Ne.symm ik, Ne.symm jk] using takenK) third]

end Disk
end Xv6.Virtio
