import Mathlib.Algebra.Order.BigOperators.Group.Finset
import Xv6.Mkfs.Files

/-!
# The image that `main` builds

Inode 1 is the root directory, whose entries name the inodes in the order of the
arguments, and each argument is a file of its own. `main` ends without an image when
an argument is refused or there is no room for all files.
-/

namespace Xv6.Mkfs

open Function Xv6.Semantics Xv6.Disk

variable {state after : State} {inum : Nat} {contents grown : Nat → List UInt8}
  {files done rest : List File} {file : File}

/-- What `read` returns of a file. -/
def File.content (file : File) : List UInt8 := (file.chunks.getD []).flatten

/-- The names in the root directory, in order. -/
def names (files : List File) : List (List UInt8) := [46] :: [46, 46] :: files.map File.shortname

/-- The entries of the root directory; the first two name the directory itself. -/
def rootContent (names : List (List UInt8)) : List UInt8 :=
  (List.range names.length).flatMap fun k => direntBytes (max k 1) (names.getD k [])

/-- The bytes of each inode. -/
def contentsOf (files : List File) (inum : Nat) : List UInt8 :=
  if inum = rootino then rootContent (names files)
  else if 2 ≤ inum then (files[inum - 2]?.map File.content).getD [] else []

/-! ## Contents -/

theorem direntBytes_length (inum : Nat) (name : List UInt8) :
    (direntBytes inum name).length = direntSize := by
  rw [direntBytes, List.length_map, List.length_range]

theorem rootContent_length (names : List (List UInt8)) :
    (rootContent names).length = direntSize * names.length := by
  rw [rootContent, List.length_flatMap]
  simp only [direntBytes_length, List.map_const', List.sum_replicate, List.length_range, smul_eq_mul]
  exact Nat.mul_comm _ _

theorem rootContent_append (names : List (List UInt8)) (name : List UInt8) :
    rootContent (names ++ [name]) =
      rootContent names ++ direntBytes (max names.length 1) name := by
  rw [rootContent, List.length_append, List.length_singleton, List.range_succ, List.flatMap_append,
    List.flatMap_singleton, List.getD_append_right _ _ _ _ le_rfl, Nat.sub_self]
  congr 1
  apply List.flatMap_congr
  intro k mem
  rw [List.getD_append _ _ _ _ (List.mem_range.mp mem)]

theorem names_append (file : File) : names (done ++ [file]) = names done ++ [file.shortname] := by
  simp [names]

theorem names_length (files : List File) : (names files).length = files.length + 2 := by
  simp [names]

theorem contentsOf_root (files : List File) :
    contentsOf files rootino = rootContent (names files) := if_pos rfl

theorem contentsOf_append (done : List File) (file : File) :
    contentsOf (done ++ [file]) =
      update (update (contentsOf done) rootino
        (contentsOf done rootino ++ direntBytes (done.length + 2) file.shortname))
        (done.length + 2) file.content := by
  funext inum
  by_cases isRoot : inum = rootino
  · have notNew : rootino ≠ done.length + 2 := by
      simp only [rootino]
      omega
    rw [isRoot, update_of_ne notNew, update_self, contentsOf_root,
      contentsOf_root, names_append, rootContent_append, names_length,
      Nat.max_eq_left (by omega)]
  by_cases isNew : inum = done.length + 2
  · rw [isNew, update_self, contentsOf, if_neg (by simp [rootino]), if_pos (by omega)]
    simp
  rw [update_of_ne isNew, update_of_ne isRoot, contentsOf, contentsOf,
    if_neg isRoot, if_neg isRoot]
  by_cases large : 2 ≤ inum
  · rw [if_pos large, if_pos large]
    rcases Nat.lt_or_ge (inum - 2) done.length with old | beyond
    · rw [List.getElem?_append_left old]
    · rw [List.getElem?_eq_none_iff.mpr beyond, List.getElem?_eq_none_iff.mpr]
      rw [List.length_append, List.length_singleton]
      omega
  · rw [if_neg large, if_neg large]

/-! ## Room -/

/-- A file is too long, or the files need more blocks than there are. -/
def Over (contents : Nat → List UInt8) (count : Nat) : Prop :=
  (∃ inum < count, maxfile * bsize < (contents inum).length) ∨
    fssize < nmeta + ∑ inum ∈ Finset.range count, need (contents inum).length

instance (contents : Nat → List UInt8) (count : Nat) : Decidable (Over contents count) :=
  inferInstanceAs (Decidable (_ ∨ _))

theorem Over.mono (exceeds : Over contents count) (order : count ≤ more)
    (longer : ∀ inum < count, (contents inum).length ≤ (grown inum).length) : Over grown more := by
  rcases exceeds with ⟨inum, inside, long⟩ | full
  · exact .inl ⟨inum, inside.trans_le order, long.trans_le (longer inum inside)⟩
  right
  calc fssize < nmeta + ∑ inum ∈ Finset.range count, need (contents inum).length := full
    _ ≤ nmeta + ∑ inum ∈ Finset.range count, need (grown inum).length := by
        refine Nat.add_le_add_left (Finset.sum_le_sum fun inum mem => ?_) _
        exact need_mono (longer inum (Finset.mem_range.mp mem))
    _ ≤ nmeta + ∑ inum ∈ Finset.range more, need (grown inum).length := by
        refine Nat.add_le_add_left (Finset.sum_le_sum_of_subset ?_) _
        exact Finset.range_subset_range.mpr order

theorem Full.over (holds : Holds state contents) (inside : inum < state.freeinode)
    (full : Full state inum contents ((contents inum).length + p.length)) :
    Over (update contents inum (contents inum ++ p)) state.freeinode := by
  rw [← List.length_append] at full
  rcases full with long | none
  · exact .inl ⟨inum, inside, by rwa [update_self]⟩
  · right
    have sum := sum_need_update contents inside (contents inum ++ p)
    have used := holds.used
    omega

/-- The chunks of a file are appended, or there is no room for them. -/
theorem appendAll_outcome (chunks : List (List UInt8)) (holds : Holds state contents)
    (inside : inum < state.freeinode) :
    Outcome (Over (update contents inum (contents inum ++ chunks.flatten)) state.freeinode)
      (fun after => Holds after (update contents inum (contents inum ++ chunks.flatten)) ∧
        after.freeinode = state.freeinode)
      (appendAll state inum chunks) := by
  induction chunks generalizing state contents with
  | nil =>
    rw [List.flatten_nil, List.append_nil, update_eq_self]
    exact .some ⟨holds, rfl⟩
  | cons chunk chunks ih =>
    have first := iappend_outcome holds inside chunk
    refine first.bind (fun full => (full.over holds inside).mono le_rfl fun other _ => ?_) ?_
    · by_cases isInum : other = inum
      · rw [isInum, update_self, update_self]
        simp only [List.flatten_cons, List.length_append]
        omega
      · rw [update_of_ne isInum, update_of_ne isInum]
    rintro middle ⟨middleHolds, freeinode⟩
    have rest := ih middleHolds (freeinode ▸ inside)
    rw [update_self, update_idem, List.append_assoc, ← List.flatten_cons,
      freeinode] at rest
    exact rest

/-- An argument that is refused, or no room for all files. -/
def Refused (files : List File) : Prop :=
  (∃ file ∈ files, (withoutUser file.argument).contains 47 = true ∨ file.chunks = none) ∨
    Over (contentsOf files) (files.length + 2)

instance (files : List File) : Decidable (Refused files) := inferInstanceAs (Decidable (_ ∨ _))

theorem contentsOf_length_le (done rest : List File) (inside : inum < done.length + 2) :
    (contentsOf done inum).length ≤ (contentsOf (done ++ rest) inum).length := by
  by_cases isRoot : inum = rootino
  · rw [isRoot, contentsOf_root, contentsOf_root, rootContent_length, rootContent_length,
      names_length, names_length, List.length_append]
    exact Nat.mul_le_mul_left _ (by omega)
  · rw [contentsOf, contentsOf, if_neg isRoot, if_neg isRoot]
    by_cases large : 2 ≤ inum
    · rw [if_pos large, if_pos large, List.getElem?_append_left (by omega)]
    · rw [if_neg large, if_neg large]

theorem Refused.append (refused : Refused done) (rest : List File) : Refused (done ++ rest) := by
  rcases refused with ⟨file, mem, bad⟩ | exceeds
  · exact .inl ⟨file, List.mem_append_left _ mem, bad⟩
  · refine .inr (exceeds.mono ?_ fun inum inside => contentsOf_length_le done rest inside)
    rw [List.length_append]
    omega

section

variable (holds : Holds state (contentsOf done)) (count : state.freeinode = done.length + 2)
include holds count

theorem addFile_outcome (room : done.length + 2 < inodeCapacity) :
    Outcome (Refused (done ++ [file]))
      (fun after => Holds after (contentsOf (done ++ [file])) ∧
        after.freeinode = (done ++ [file]).length + 2)
      (addFile state file) := by
  have mem : file ∈ done ++ [file] := by simp
  have contents : contentsOf (done ++ [file]) = update (update (contentsOf done)
      rootino (contentsOf done rootino ++ direntBytes state.freeinode file.shortname))
      state.freeinode file.content := count ▸ contentsOf_append done file
  have length : (done ++ [file]).length + 2 = state.freeinode + 1 := by
    rw [List.length_append, List.length_singleton, count]
  cases slash : (withoutUser file.argument).contains 47 with
  | true =>
    rw [addFile, slash]
    exact .none (.inl ⟨file, mem, .inl slash⟩)
  | false =>
    cases opened : file.chunks with
    | none =>
      rw [addFile, slash, opened]
      exact .none (.inl ⟨file, mem, .inr opened⟩)
    | some chunks =>
      have isFile : tFile = typeOf state.freeinode := by
        rw [typeOf, if_neg]
        rw [count, rootino]
        omega
      obtain ⟨made, allocated, madeHolds, madeCount⟩ := ialloc_holds holds (count ▸ room) isFile
      have content : file.content = chunks.flatten := by
        rw [File.content, opened]
        rfl
      have new : contentsOf done state.freeinode = [] := holds.empty _ le_rfl
      have rootInside : rootino < made.freeinode := by
        rw [madeCount, count, rootino]
        omega
      have notRoot : state.freeinode ≠ rootino := by
        rw [count, rootino]
        omega
      have longer : ∀ other, (update (contentsOf done) rootino (contentsOf done rootino ++
          direntBytes state.freeinode file.shortname) other).length ≤
            (contentsOf (done ++ [file]) other).length := by
        intro other
        rw [contents]
        by_cases isNew : other = state.freeinode
        · rw [isNew, update_of_ne notRoot, new]
          exact Nat.zero_le _
        · rw [update_of_ne isNew]
      have root := iappend_outcome madeHolds rootInside
        (direntBytes state.freeinode file.shortname)
      rw [addFile, slash, opened]
      rw [allocated]
      refine root.bind (fun full => .inr ?_) ?_
      · exact (full.over madeHolds rootInside).mono (by rw [length, madeCount])
          fun other _ => longer other
      rintro middle ⟨middleHolds, middleCount⟩
      have inside : state.freeinode < middle.freeinode := by
        rw [middleCount, madeCount]
        exact Nat.lt_succ_self _
      have all := appendAll_outcome chunks middleHolds inside
      rw [update_of_ne notRoot, new, List.nil_append, ← content, ← contents,
        middleCount, madeCount, ← length] at all
      exact all.mono .inr fun _ holds => holds

theorem addFiles_outcome (room : (done ++ rest).length + 2 ≤ inodeCapacity) :
    Outcome (Refused (done ++ rest))
      (fun after => Holds after (contentsOf (done ++ rest)) ∧
        after.freeinode = (done ++ rest).length + 2)
      (rest.foldlM addFile state) := by
  induction rest generalizing state done with
  | nil =>
    rw [List.append_nil]
    exact .some ⟨holds, count⟩
  | cons file rest ih =>
    have split : done ++ file :: rest = done ++ [file] ++ rest := by simp
    have first : done.length + 2 < inodeCapacity := by
      rw [List.length_append, List.length_cons] at room
      omega
    rw [split] at room ⊢
    refine (addFile_outcome holds count first).bind (fun refused => refused.append rest) ?_
    rintro middle ⟨middleHolds, middleCount⟩
    exact ih middleHolds middleCount room

end

/-! ## The root directory -/

theorem blank_zero (behind : 2 * bsize ≤ a) : blank.image a = 0 := by
  change wsect (fun _ => 0) 1 _ a = 0
  rw [wsect, copy_outside]
  omega

theorem word_blank : word width (inodeAt sb blank.image inum) offset = 0 := by
  apply word_eq_zero
  intro k _
  rw [inodeAt_eq]
  apply blank_zero
  have : 2 * bsize ≤ sb.inodestart * bsize := by decide
  rw [inodeAddress]
  omega

theorem blank_holds : Holds blank fun _ => [] := by
  constructor
  case laid =>
    have none : Laid blank.image nmeta 0 (diskRows blank.image) fun _ => tight [] := by
      constructor
      case low => exact le_rfl
      case bump =>
        constructor
        · exact fun inside => absurd inside (Nat.not_lt_zero _)
        · exact fun inside => absurd inside (Nat.not_lt_zero _)
        · exact fun low high => absurd low high.not_ge
      case data => exact fun _ inside => absurd inside (Nat.not_lt_zero _)
      case indirect => exact fun _ inside => absurd inside (Nat.not_lt_zero _)
      case room => exact fun _ inside => absurd inside (Nat.not_lt_zero _)
      case content => exact fun _ inside => absurd inside (Nat.not_lt_zero _)
      case fresh =>
        intro b high j _
        apply blank_zero
        have : 2 * bsize ≤ nmeta * bsize := by decide
        have := Nat.mul_le_mul_right bsize high
        omega
    exact none.grow (fun i _ => word_blank) rfl
  case sizes => exact fun _ _ => word_blank
  case types =>
    intro inum positive inside
    have : inum < 1 := inside
    omega
  case small => exact fun _ _ => Nat.zero_le _
  case empty => exact fun _ _ => rfl
  case capacity => decide
  case bounded => decide
  case front => exact fun _ _ => rfl
  case used => decide

theorem makeRoot_holds :
    ∃ state, makeRoot = some state ∧ Holds state (contentsOf []) ∧ state.freeinode = 2 := by
  obtain ⟨made, allocated, madeHolds, madeCount⟩ :=
    ialloc_holds blank_holds (show blank.freeinode < inodeCapacity by decide)
      (show tDir = typeOf blank.freeinode by decide)
  have inside : rootino < made.freeinode := by
    rw [madeCount]
    decide
  obtain ⟨content, content_eq⟩ : ∃ content, content =
    direntBytes rootino [46] ++ direntBytes rootino [46, 46] := ⟨_, rfl⟩
  have length : content.length = 32 := by
    rw [content_eq, List.length_append, direntBytes_length, direntBytes_length]
    rfl
  have contents : contentsOf [] = update (fun _ => []) rootino content := by
    funext inum
    by_cases isRoot : inum = rootino
    · rw [isRoot, update_self, contentsOf_root, content_eq]
      simp [rootContent, names, List.range_succ, rootino]
    · rw [update_of_ne isRoot, contentsOf, if_neg isRoot]
      split <;> rfl
  have outcome := appendAll_outcome [direntBytes rootino [46], direntBytes rootino [46, 46]]
    madeHolds inside
  have appended : makeRoot =
      appendAll made rootino [direntBytes rootino [46], direntBytes rootino [46, 46]] := by
    rw [makeRoot, allocated]
    simp only [appendAll, List.foldlM_cons, List.foldlM_nil, bind_pure]
    rfl
  rw [List.nil_append, List.flatten_cons, List.flatten_cons, List.flatten_nil, List.append_nil,
    ← content_eq, ← contents, ← appended] at outcome
  obtain ⟨state, made_eq, holds, count⟩ := outcome.returns (by
    rw [madeCount, contents]
    have root : ∀ inum, (update (fun _ => []) rootino content inum).length ≤ 32 := by
      intro inum
      by_cases isRoot : inum = rootino
      · rw [isRoot, update_self, length]
      · rw [update_of_ne isRoot]
        exact Nat.zero_le _
    rintro (⟨inum, -, long⟩ | full)
    · have := root inum
      have : 32 ≤ maxfile * bsize := by decide
      omega
    have sum : ∑ inum ∈ Finset.range (blank.freeinode + 1),
        need (update (fun _ => []) rootino content inum).length ≤ 2 := by
      calc _ ≤ ∑ _inum ∈ Finset.range (blank.freeinode + 1), 1 :=
            Finset.sum_le_sum fun inum _ => need_mono (root inum)
        _ = 2 := rfl
    have : nmeta + 2 ≤ fssize := by decide
    omega)
  exact ⟨state, made_eq, holds, count.trans madeCount⟩

end Xv6.Mkfs
