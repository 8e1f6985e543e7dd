import Xv6.Disk.Directory

/-!
# Path names

`namex` takes one name after another from a path and looks it up in the directory it has
reached. The path is the list of its bytes before the NUL. The names are cut to the
buffer they are copied to, which keeps what an earlier name has left behind a NUL.
References to inodes are not counted here.
-/

namespace Xv6.Disk

open Xv6.Semantics Function

/-- The byte between the names of a path. -/
def slash : UInt8 := 47

/-- `skipelem`: the path behind its first element, which is copied to the buffer. -/
def skipelem (path : List UInt8) (name : Bytes) : Option (List UInt8 × Bytes) :=
  let s := path.dropWhile (· = slash)
  if s = [] then none
  else
    let path := s.dropWhile (· ≠ slash)
    let len := s.length - path.length
    let name :=
      if len ≥ dirsiz then copy name 0 dirsiz (ofList s)
      else update (copy name 0 len (ofList s)) len 0
    some (path.dropWhile (· = slash), name)

/-- The blocks, and the inodes in memory by their numbers. -/
structure Cache where
  store : Store
  inode : Nat → Inode

/-- The loop of `namex`. -/
def namexLoop (sb : Superblock) (nameiparent : Bool) :
    (fuel : Nat) → Cache → (ip : Nat) → List UInt8 → Bytes → Option (Cache × Option Nat × Bytes)
  | 0, _, _, _, _ => none
  | fuel + 1, cache, inum, path, name =>
    match skipelem path name with
    | none => some (cache, if nameiparent then none else some inum, name)
    | some (path, name) =>
      (ilock sb cache.store.image (cache.inode inum)).bind fun ip =>
        if ip.type ≠ tDir then some (⟨cache.store, update cache.inode inum ip⟩, none, name)
        else if nameiparent ∧ path = [] then
          some (⟨cache.store, update cache.inode inum ip⟩, some inum, name)
        else
          (dirlookup sb cache.store ip name).bind fun (state, found) =>
            let cache : Cache :=
              ⟨state.store, update cache.inode inum { ip with addrs := state.addrs }⟩
            match found with
            | none => some (cache, none, name)
            | some (next, _) => namexLoop sb nameiparent fuel cache next path name

/-- Where a path starts. -/
def startOf (cwd : Nat) (path : List UInt8) : Nat :=
  if path.head? = some slash then rootino else cwd

/-- `namex`. A round of its loop takes a byte of the path at least. -/
def namex (sb : Superblock) (cache : Cache) (cwd : Nat) (path : List UInt8) (nameiparent : Bool)
    (name : Bytes) : Option (Cache × Option Nat × Bytes) :=
  namexLoop sb nameiparent (path.length + 1) cache (startOf cwd path) path name

/-- `namei`, with what its buffer holds before. -/
def namei (sb : Superblock) (cache : Cache) (cwd : Nat) (path : List UInt8) (name : Bytes) :
    Option (Cache × Option Nat) :=
  (namex sb cache cwd path false name).map fun (cache, ip, _) => (cache, ip)

/-- `nameiparent`. -/
def nameiparent (sb : Superblock) (cache : Cache) (cwd : Nat) (path : List UInt8) (name : Bytes) :
    Option (Cache × Option Nat × Bytes) :=
  namex sb cache cwd path true name

/-! ## The names of a path -/

/-- The components of a path, cut to the size of a name. -/
def components (path : List UInt8) : List (List UInt8) :=
  ((path.splitOn slash).filter (· ≠ [])).map (·.take dirsiz)

/-- The names that `skipelem` leaves in the buffer when it is called again and again. -/
def elements : (fuel : Nat) → List UInt8 → Bytes → List (List UInt8)
  | 0, _, _ => []
  | fuel + 1, path, name =>
    match skipelem path name with
    | none => []
    | some (path, name) => nameIn dirsiz name :: elements fuel path name

theorem components_slash (path : List UInt8) : components (slash :: path) = components path := by
  rfl

theorem components_dropWhile (path : List UInt8) :
    components (path.dropWhile (· = slash)) = components path := by
  induction path with
  | nil => rfl
  | cons byte path ih =>
    by_cases isSlash : byte = slash
    · rw [List.dropWhile_cons_of_pos (by simpa using isSlash), ih, isSlash, components_slash]
    · rw [List.dropWhile_cons_of_neg (by simpa using isSlash)]

/-- A path that does not start with a slash starts with a component. -/
theorem components_cons (noSlash : byte ≠ slash) (path : List UInt8) :
    components (byte :: path) = ((byte :: path).takeWhile (· ≠ slash)).take dirsiz ::
      components ((byte :: path).dropWhile (· ≠ slash)) := by
  have word : ∀ x ∈ (byte :: path).takeWhile (· ≠ slash), (x == slash) = false := by
    intro x mem
    have plain := List.mem_takeWhile_imp mem
    simpa using plain
  have long : (byte :: path).takeWhile (· ≠ slash) ≠ [] := by simp [noSlash]
  have stops := List.head?_dropWhile_not (· ≠ slash) (byte :: path)
  have whole : (byte :: path).takeWhile (· ≠ slash) ++ (byte :: path).dropWhile (· ≠ slash) =
    byte :: path := List.takeWhile_append_dropWhile
  nth_rewrite 1 [← whole]
  generalize (byte :: path).takeWhile (· ≠ slash) = word', (byte :: path).dropWhile (· ≠ slash) =
    rest at *
  cases rest with
  | nil =>
    rw [List.append_nil, components, List.splitOn_eq_singleton_of_beq_eq_false word]
    simp [long, components]
  | cons next rest =>
    obtain rfl : next = slash := by simpa using stops
    rw [components_slash, components, List.splitOn,
      List.splitOnP_append_cons_of_forall_mem word _ BEq.rfl]
    simp [long, components, List.splitOn]

/-- What `skipelem` leaves in the buffer. -/
theorem nameIn_buffer {s word rest : List UInt8} (whole : s = word ++ rest) (noNul : 0 ∉ word)
    (name : Bytes) :
    nameIn dirsiz (if word.length ≥ dirsiz then copy name 0 dirsiz (ofList s)
      else update (copy name 0 word.length (ofList s)) word.length 0) = word.take dirsiz := by
  have byte : ∀ i < (word.take dirsiz).length, ofList s i = ofList (word.take dirsiz) i := by
    intro i inside
    rw [List.length_take] at inside
    simp only [ofList, List.getD_eq_getElem?_getD, whole,
      List.getElem?_append_left (by omega : i < word.length),
      List.getElem?_take_of_lt (by omega : i < dirsiz)]
  apply nameIn_eq fun mem => noNul (List.mem_of_mem_take mem)
  · rw [List.length_take]
    exact Nat.min_le_left ..
  · intro i inside
    rw [← byte i inside]
    rw [List.length_take] at inside
    split
    · exact copy_inside (Nat.zero_le _) (by omega)
    · rw [update_of_ne (by omega)]
      exact copy_inside (Nat.zero_le _) (by omega)
  · intro room
    rw [List.length_take] at room ⊢
    rw [if_neg (by omega), Nat.min_eq_right (by omega), update_self]

/-- `skipelem` takes the first component off a path. -/
theorem skipelem_spec (string : 0 ∉ path) (name : Bytes) :
    (skipelem path name = none ∧ components path = []) ∨
      ∃ rest name', skipelem path name = some (rest, name') ∧
        components path = nameIn dirsiz name' :: components rest ∧ 0 ∉ rest ∧
        rest.length < path.length ∧ (rest = [] ↔ components rest = []) := by
  have same := components_dropWhile path
  have inPath : (path.dropWhile (· = slash)).Sublist path := List.dropWhile_sublist _
  have starts := List.head?_dropWhile_not (· = slash) path
  rw [skipelem]
  cases s_eq : path.dropWhile (· = slash) with
  | nil => exact .inl ⟨rfl, by rw [← same, s_eq]; rfl⟩
  | cons byte tail =>
    right
    rw [s_eq] at same inPath starts
    have noSlash : byte ≠ slash := by simpa using starts
    have first := components_cons noSlash tail
    have whole : byte :: tail = (byte :: tail).takeWhile (· ≠ slash) ++
      (byte :: tail).dropWhile (· ≠ slash) := List.takeWhile_append_dropWhile.symm
    have long : 0 < ((byte :: tail).takeWhile (· ≠ slash)).length := by simp [noSlash]
    have noNul : 0 ∉ (byte :: tail).takeWhile (· ≠ slash) := fun member =>
      string (inPath.mem ((List.takeWhile_sublist _).mem member))
    have cut := nameIn_buffer whole noNul name
    have lengths := congrArg List.length whole
    rw [List.length_append] at lengths
    generalize (byte :: tail).takeWhile (· ≠ slash) = word,
      (byte :: tail).dropWhile (· ≠ slash) = rest at *
    have short : (rest.dropWhile (· = slash)).length ≤ rest.length :=
      (List.dropWhile_sublist _).length_le
    have inside := inPath.length_le
    have count : (byte :: tail).length - rest.length = word.length := by omega
    have behind := List.head?_dropWhile_not (· = slash) rest
    refine ⟨rest.dropWhile (· = slash), _, rfl, ?_, ?_, by omega, fun none => by rw [none]; rfl, ?_⟩
    · rw [← same, first, count, cut, components_dropWhile]
    · intro member
      apply string (inPath.mem _)
      rw [whole]
      exact List.mem_append_right _ ((List.dropWhile_sublist _).mem member)
    intro none
    cases last : rest.dropWhile (· = slash) with
    | nil => rfl
    | cons next more =>
      rw [last] at none behind
      rw [components_cons (by simpa using behind)] at none
      cases none

theorem elements_eq (string : 0 ∉ path)
    (enough : path.length < fuel) (name : Bytes) : elements fuel path name = components path := by
  induction fuel generalizing path name with
  | zero => exact absurd enough (Nat.not_lt_zero _)
  | succ fuel ih =>
    rw [elements]
    rcases skipelem_spec string name with ⟨skipped, none⟩ | ⟨rest, name', skipped, first, noNul, shorter, -⟩
    · rw [skipped, none]
    · rw [skipped, first]
      exact congrArg _ (ih noNul (by omega) name')

/-! ## Walking through the tree -/

/-- A tree of inodes: which are directories, and what they have under a name. -/
structure Tree where
  isDir : Nat → Bool
  child : Nat → List UInt8 → Option Nat

/-- The inode reached by looking names up one after another. -/
def Tree.walk (tree : Tree) : Nat → List (List UInt8) → Option Nat
  | inum, [] => some inum
  | inum, name :: names =>
    if tree.isDir inum then (tree.child inum name).bind fun next => tree.walk next names else none

/-- The directory reached by all names but the last. -/
def Tree.parent (tree : Tree) (inum : Nat) (names : List (List UInt8)) : Option Nat :=
  if names = [] then none else (tree.walk inum names.dropLast).filter tree.isDir

/-- The inodes in memory and on the disk that belong to a tree without vaults. -/
structure Represents (sb : Superblock) (tree : Tree) (nodes : Nat → Prop) (cache : Cache) :
    Prop where
  inode : ∀ inum, nodes inum → ∃ ip, ilock sb cache.store.image (cache.inode inum) = some ip ∧
    tree.isDir inum = decide (ip.type = tDir) ∧
    (ip.type = tDir → ∃ content count, Directory cache.store.image ip content count ∧
      ∀ name, tree.child inum name =
        (entryNamed content count name).map fun k => direntInum (slot content k))
  child : ∀ inum name next, nodes inum → tree.child inum name = some next → nodes next

variable {sb : Superblock} {tree : Tree} {nodes : Nat → Prop} {cache : Cache} {inum : Nat}

theorem ilock_ilock (ran : ilock sb image ip = some locked) :
    ilock sb image locked = some locked := by
  have valid : locked.valid = true := by
    rw [ilock] at ran
    split at ran
    case isTrue valid => cases ran; exact valid
    case isFalse =>
      simp only [Option.ite_none_left_eq_some] at ran
      cases ran.2
      rfl
  rw [ilock, if_pos valid]

theorem Represents.locks (represents : Represents sb tree nodes cache)
    (ran : ilock sb cache.store.image (cache.inode inum) = some ip) :
    Represents sb tree nodes ⟨cache.store, update cache.inode inum ip⟩ where
  child := represents.child
  inode other isNode := by
    by_cases same : other = inum
    · subst other
      obtain ⟨ip', ran', rest⟩ := represents.inode inum isNode
      cases ran.symm.trans ran'
      refine ⟨ip, ?_, rest⟩
      simp only [update_self]
      exact ilock_ilock ran
    · simp only [update_of_ne same]
      exact represents.inode other isNode

theorem Tree.parent_cons (name : List UInt8) (names : List (List UInt8)) :
    tree.parent inum (name :: names) =
      if tree.isDir inum then
        if names = [] then some inum
        else (tree.child inum name).bind fun next => tree.parent next names
      else none := by
  rw [parent, if_neg (List.cons_ne_nil name names)]
  by_cases last : names = []
  · rw [if_pos last, last]
    rfl
  rw [List.dropLast_cons_of_ne_nil last, walk, if_neg last]
  split
  · cases tree.child inum name with
    | none => rfl
    | some next => exact (if_neg last).symm
  · rfl

/-- What a walk through the tree returns, in either mode. -/
def Tree.target (tree : Tree) (nameiparent : Bool) (inum : Nat) (names : List (List UInt8)) :
    Option Nat :=
  if nameiparent then tree.parent inum names else tree.walk inum names

theorem Tree.target_cons (nameiparent : Bool) (name : List UInt8) (names : List (List UInt8)) :
    tree.target nameiparent inum (name :: names) =
      if tree.isDir inum then
        if nameiparent ∧ names = [] then some inum
        else (tree.child inum name).bind fun next => tree.target nameiparent next names
      else none := by
  cases nameiparent with
  | false => simp [target, walk]
  | true => simp [target, parent_cons]

/-- The loop of `namex` walks through the tree, and leaves the last name in the buffer when
it finds a parent. -/
theorem Represents.namexLoop_eq
    (represents : Represents sb tree nodes cache) (string : 0 ∉ path) (isNode : nodes inum)
    (enough : path.length < fuel) (name : Bytes) :
    ∃ cache' name', namexLoop sb isParent fuel cache inum path name =
        some (cache', tree.target isParent inum (components path), name') ∧
      cache'.store = cache.store ∧ Represents sb tree nodes cache' ∧
      (isParent = true → (tree.target isParent inum (components path)).isSome →
        (components path).getLast? = some (nameIn dirsiz name')) := by
  induction fuel generalizing cache inum path name with
  | zero => exact absurd enough (Nat.not_lt_zero _)
  | succ fuel ih =>
    rw [namexLoop]
    rcases skipelem_spec string name with
      ⟨skipped, none⟩ | ⟨rest, name', skipped, first, noNul, shorter, ends⟩
    · rw [skipped, none]
      refine ⟨cache, name, rfl, rfl, represents, ?_⟩
      rintro rfl found
      cases found
    obtain ⟨ip, locked, isDir, listed⟩ := represents.inode inum isNode
    have represents' := represents.locks locked
    rw [first, Tree.target_cons, isDir]
    simp only [skipped, locked, Option.bind_some, decide_eq_true_eq]
    by_cases directory : ip.type = tDir
    · obtain ⟨content, count, directory', children⟩ := listed directory
      rw [if_neg (not_not_intro directory), if_pos directory]
      by_cases last : isParent = true ∧ rest = []
      · rw [if_pos last, if_pos ⟨last.1, ends.mp last.2⟩, last.2]
        exact ⟨_, name', rfl, rfl, represents', fun _ _ => rfl⟩
      obtain ⟨de, looked⟩ := directory'.dirlookup_eq sb name'
      rw [if_neg last, if_neg fun both => last ⟨both.1, ends.mpr both.2⟩, looked, children]
      cases entry : entryNamed content count (nameIn dirsiz name') with
      | none => exact ⟨_, name', rfl, rfl, represents', fun _ found => nomatch found⟩
      | some k =>
        have isChild : nodes (direntInum (slot content k)) := by
          apply represents.child inum (nameIn dirsiz name') _ isNode
          rw [children, entry]
          rfl
        obtain ⟨cache', last', ran, store, kept, named⟩ :=
          ih represents' noNul isChild (by omega) name'
        refine ⟨cache', last', ran, store, kept, fun parent found => ?_⟩
        have more : components rest ≠ [] := fun none => last ⟨parent, ends.mpr none⟩
        rw [List.getLast?_cons_of_ne_nil more]
        exact named parent found
    · rw [if_pos directory, if_neg directory]
      exact ⟨_, name', rfl, rfl, represents', fun _ found => nomatch found⟩

/-- A disk whose blocks all hold the entry `a`, with a root directory of that one entry. -/
def oneEntry : Cache where
  store := ⟨fun address => dirent 2 [97] (address % bsize), ⟨0, []⟩⟩
  inode inum :=
    { inum := inum, valid := true, isVault := false, vaultOpen := false
      type := if inum = rootino then tDir else tFile
      major := 0, minor := 0, nlink := 1, size := 16, addrs := fun _ => 50 }

/-- The tree of `oneEntry`. -/
def oneEntryTree : Tree where
  isDir inum := inum = rootino
  child _ name := if name = [97] then some 2 else none

theorem oneEntry_represents (sb : Superblock) :
    Represents sb oneEntryTree (fun _ => True) oneEntry where
  child _ _ _ _ _ := trivial
  inode inum _ := by
    refine ⟨oneEntry.inode inum, rfl, ?_, fun directory =>
      ⟨fun pos => oneEntry.store.image (50 * bsize + pos % bsize), 1,
        ⟨directory, rfl, rfl, (by decide : 16 ≤ maxfile * bsize), ?_⟩, fun name => ?_⟩⟩
    · simp only [oneEntryTree, oneEntry]
      split <;> simp_all [tDir, tFile]
    · intro pos _ (high : pos < 16)
      have first : pos / bsize = 0 := Nat.div_eq_of_lt (by rw [bsize]; omega)
      rw [first]
      exact ⟨(by decide : 50 ≠ 0), rfl⟩
    have inum_eq : direntInum (slot (fun pos =>
      oneEntry.store.image (50 * bsize + pos % bsize)) 0) = 2 := by decide +kernel
    have name_eq : nameIn dirsiz (direntName (slot (fun pos =>
      oneEntry.store.image (50 * bsize + pos % bsize)) 0)) = [97] := by decide +kernel
    by_cases named : name = [97]
    · simp [entryNamed, oneEntryTree, inum_eq, name_eq, named]
    · simp [entryNamed, oneEntryTree, inum_eq, name_eq, named, Ne.symm named]

end Xv6.Disk
