import Mathlib.Algebra.BigOperators.Fin
import Xv6.Mkfs.Append

/-!
# The files of an image

Between two calls of `iappend` the image holds the bytes that have been appended to
each inode. A call adds its bytes, or there is no room for them.
-/

namespace Xv6.Mkfs

open Function Xv6.Semantics Xv6.Disk

variable {state before after : State} {din : Bytes} {inum : Nat}
  {contents : Nat → List UInt8} {p bytes more : List UInt8}

/-! ## The loop of `iappend` -/

theorem blocksFor_mono (order : first ≤ second) :
    blocksFor first ≤ blocksFor second := Nat.div_le_div_right (Nat.add_le_add_right order _)

theorem need_mono (order : first ≤ second) : need first ≤ need second := by
  have blocks := blocksFor_mono order
  rw [need, need]
  split <;> split <;> omega

theorem Full.mono (full : Full state inum contents first)
    (order : first ≤ second) : Full state inum contents second := by
  rcases full with long | none
  · exact .inl (long.trans_le order)
  · exact .inr (none.trans_le (Nat.add_le_add_left (need_mono order) _))

theorem Appending.appended_nil (appending : Appending state din inum contents)
    (small : (contents inum).length ≤ maxfile * bsize) :
    Appended state state din inum contents [] where
  appending := by
    rw [List.append_nil, update_eq_self]
    exact appending
  freeinode := rfl
  kept := fun _ _ => rfl
  count := rfl
  small := small

theorem Appended.trans (first : Appended before middle din inum contents bytes)
    (second : Appended middle after changed inum
      (update contents inum (contents inum ++ bytes)) more) :
    Appended before after changed inum contents (bytes ++ more) := by
  have same : (update contents inum (contents inum ++ bytes)) inum =
      contents inum ++ bytes := update_self ..
  constructor
  case appending =>
    have appending := second.appending
    rw [same, update_idem, List.append_assoc] at appending
    exact appending
  case freeinode => exact second.freeinode.trans first.freeinode
  case kept => exact fun a low => (second.kept a low).trans (first.kept a low)
  case count =>
    have firstCount := first.count
    have secondCount := second.count
    rw [same, List.length_append] at secondCount
    rw [List.length_append, ← Nat.add_assoc]
    omega
  case small =>
    have small := second.small
    rw [same, List.length_append] at small
    rw [List.length_append]
    omega

theorem Full.of_appended (first : Appended before middle din inum contents bytes)
    (full : Full middle inum (update contents inum (contents inum ++ bytes)) length) :
    Full before inum contents length := by
  rcases full with long | none
  · exact .inl long
  · right
    have count := first.count
    rw [update_self, List.length_append] at none
    omega

theorem appendLoop_outcome (appending : Appending state din inum contents)
    (small : (contents inum).length ≤ maxfile * bsize) (enough : p.length ≤ fuel) :
    Outcome (Full state inum contents ((contents inum).length + p.length))
      (fun result => Appended state result.1 result.2.1 inum contents p ∧
        result.2.2 = (contents inum).length + p.length)
      (appendLoop fuel state din (contents inum).length p) := by
  -- a round takes at least one byte, and the rest is a shorter list
  induction fuel generalizing state din contents p with
  | zero =>
    obtain rfl : p = [] := List.length_eq_zero_iff.mp (Nat.le_zero.mp enough)
    exact .some ⟨appending.appended_nil small, rfl⟩
  | succ fuel ih =>
    cases p with
    | nil => exact .some ⟨appending.appended_nil small, rfl⟩
    | cons byte rest =>
      have longer : (contents inum).length + 1 ≤
          (contents inum).length + (byte :: rest).length := by
        rw [List.length_cons]
        omega
      refine (appendRound_outcome appending (List.cons_ne_nil _ _)).bind
        (fun full => full.mono longer) ?_
      rintro ⟨middle, changed, n⟩ ⟨(positive : 0 < n), (order : n ≤ _),
        (round : Appended state middle changed inum contents (List.take n _))⟩
      obtain ⟨list, list_eq⟩ : ∃ list, list = byte :: rest := ⟨_, rfl⟩
      rw [← list_eq] at order round enough ⊢
      have taken : (list.take n).length = n := List.length_take_of_le order
      have content : (update contents inum (contents inum ++ list.take n) inum).length =
          (contents inum).length + n := by
        rw [update_self, List.length_append, taken]
      have total : (contents inum).length + n + (list.drop n).length =
          (contents inum).length + list.length := by
        rw [List.length_drop]
        omega
      have smaller : (list.drop n).length ≤ fuel := by
        omega
      have fits : (contents inum).length + n ≤ maxfile * bsize := taken ▸ round.small
      have rest := ih round.appending (content ▸ fits) smaller
      rw [content, total] at rest
      apply rest.mono (fun full => full.of_appended round)
      rintro result ⟨appended, offset⟩
      refine ⟨?_, offset⟩
      have whole := round.trans appended
      rwa [List.take_append_drop] at whole

/-! ## `iappend` -/

/-- The type of an inode. -/
def typeOf (inum : Nat) : Nat := if inum = rootino then tDir else tFile

/-- The image holds the bytes of each inode. -/
structure Holds (state : State) (contents : Nat → List UInt8) : Prop where
  laid : Laid state.image state.freeblock state.freeinode (diskRows state.image)
    fun i => tight (contents i)
  sizes : ∀ inum < state.freeinode, fileSize (inodeAt sb state.image inum) = (contents inum).length
  types : ∀ inum, 0 < inum → inum < state.freeinode →
    dinodeType (inodeAt sb state.image inum) = typeOf inum
  small : ∀ inum < state.freeinode, (contents inum).length ≤ maxfile * bsize
  empty : ∀ inum, state.freeinode ≤ inum → contents inum = []
  capacity : state.freeinode ≤ inodeCapacity
  bounded : state.freeblock ≤ fssize
  front : ∀ a < sb.inodestart * bsize, state.image a = blank.image a
  used : state.freeblock =
    nmeta + ∑ inum ∈ Finset.range state.freeinode, need (contents inum).length

theorem Holds.appending (holds : Holds state contents) (inside : inum < state.freeinode) :
    Appending state (inodeAt sb state.image inum) inum contents where
  laid := by
    refine holds.laid.congr (fun other _ i _ => ?_) fun _ _ => rfl
    by_cases isInum : other = inum
    · simp only [rows, diskRows, isInum, if_true]
    · simp only [rows, diskRows, isInum, if_false]
  inside := inside
  capacity := holds.capacity
  bounded := holds.bounded

theorem sum_need_update (contents : Nat → List UInt8) (inside : inum < count)
    (content : List UInt8) :
    (∑ i ∈ Finset.range count, need (update contents inum content i).length) +
        need (contents inum).length =
      (∑ i ∈ Finset.range count, need (contents i).length) + need content.length := by
  have mem : inum ∈ Finset.range count := Finset.mem_range.mpr inside
  rw [← Finset.add_sum_erase _ _ mem, ← Finset.add_sum_erase _ _ mem, update_self]
  have others : ∑ i ∈ (Finset.range count).erase inum,
      need (update contents inum content i).length =
        ∑ i ∈ (Finset.range count).erase inum, need (contents i).length := by
    refine Finset.sum_congr rfl fun i iMember => ?_
    rw [update_of_ne (Finset.ne_of_mem_erase iMember)]
  omega

theorem Appended.holds (appended : Appended state after din inum contents bytes)
    (holds : Holds state contents) (inside : inum < state.freeinode)
    (type : dinodeType din = dinodeType (inodeAt sb state.image inum))
    (written : image = copy after.image (inodeAddress inum) dinodeSize
      (setSize din ((contents inum).length + bytes.length))) :
    Holds { after with image := image }
      (update contents inum (contents inum ++ bytes)) := by
  have small : inum < inodeCapacity := inside.trans_le holds.capacity
  have capacity : after.freeinode ≤ inodeCapacity := appended.appending.capacity
  have order : sb.bmapstart * bsize ≤ nmeta * bsize := Nat.mul_le_mul_right _ (by decide)
  have last := inodeAddress_lt small (show dinodeSize - 1 < dinodeSize by decide)
  subst written
  constructor
  case laid =>
    refine appended.appending.laid.congr (fun other otherInside i iSmall => ?_) fun a high => ?_
    · rw [diskRows, addr, word_inodeAt_copy (addr_inside iSmall)]
      by_cases isInum : other = inum
      · rw [if_pos isInum, rows, if_pos isInum, setSize, word_setWord_other (by omega)]
        rfl
      · rw [if_neg isInum, rows, if_neg isInum]
        rfl
    dsimp only
    rw [copy_outside (by omega)]
  case sizes =>
    intro other otherInside
    have fits : 8 + 4 ≤ dinodeSize := by decide
    rw [fileSize, word_inodeAt_copy fits]
    by_cases isInum : other = inum
    · rw [if_pos isInum, setSize, word_setWord_self, isInum, update_self,
        List.length_append]
      have := appended.small
      apply Nat.mod_eq_of_lt
      exact this.trans_lt (by decide)
    · rw [if_neg isInum, update_of_ne isInum,
        word_inodeAt_congr (otherInside.trans_le capacity) fits fun a low =>
          appended.kept a (low.trans_le order)]
      exact holds.sizes other (appended.freeinode ▸ otherInside)
  case types =>
    intro other positive otherInside
    have fits : 0 + 2 ≤ dinodeSize := by decide
    rw [← holds.types other positive (appended.freeinode ▸ otherInside), dinodeType,
      word_inodeAt_copy fits]
    by_cases isInum : other = inum
    · rw [if_pos isInum, isInum, ← type, setSize, word_setWord_other (by omega)]
      rfl
    · rw [if_neg isInum, word_inodeAt_congr (otherInside.trans_le capacity) fits fun a low =>
        appended.kept a (low.trans_le order)]
      rfl
  case small =>
    intro other otherInside
    by_cases isInum : other = inum
    · rw [isInum, update_self, List.length_append]
      exact appended.small
    · rw [update_of_ne isInum]
      exact holds.small other (appended.freeinode ▸ otherInside)
  case empty =>
    intro other outside
    have large : state.freeinode ≤ other := appended.freeinode ▸ outside
    rw [update_of_ne (inside.trans_le large).ne']
    exact holds.empty other large
  case capacity => exact capacity
  case bounded => exact appended.appending.bounded
  case front =>
    intro a low
    have frontLow : sb.inodestart * bsize ≤ nmeta * bsize := Nat.mul_le_mul_right _ (by decide)
    have outside : a < inodeAddress inum := low.trans_le (Nat.le_add_right _ _)
    dsimp only
    rw [copy_outside (.inl outside), appended.kept a (low.trans_le frontLow)]
    exact holds.front a low
  case used =>
    have count := appended.count
    have sum := sum_need_update contents inside (contents inum ++ bytes)
    have used := holds.used
    change after.freeblock = nmeta + ∑ i ∈ Finset.range after.freeinode, _
    rw [appended.freeinode]
    rw [List.length_append] at sum
    omega

/-- `iappend` adds the bytes to the file, or there is no room for them. -/
theorem iappend_outcome (holds : Holds state contents) (inside : inum < state.freeinode)
    (p : List UInt8) :
    Outcome (Full state inum contents ((contents inum).length + p.length))
      (fun after => Holds after (update contents inum (contents inum ++ p)) ∧
        after.freeinode = state.freeinode)
      (iappend state inum p) := by
  have small : inum < inodeCapacity := inside.trans_le holds.capacity
  rw [iappend, rinode_eq small]
  change Outcome _ _ (appendLoop p.length state (inodeAt sb state.image inum)
    (fileSize (inodeAt sb state.image inum)) p >>= _)
  rw [holds.sizes inum inside]
  refine ((appendLoop_outcome (holds.appending inside) (holds.small inum inside) le_rfl).and
    (appendLoop_frames _ state _ _ p)).bind id ?_
  rintro ⟨after, din, off⟩ ⟨⟨(appended : Appended state after din inum contents p),
    (offset : off = _)⟩, (frames : Frames state _ after din)⟩
  have type : dinodeType din = dinodeType (inodeAt sb state.image inum) :=
    word_congr fun i small => frames.2 _ (by omega)
  change Outcome _ _ (winode after inum (setSize din off))
  rw [winode_eq small, offset]
  exact .some ⟨appended.holds holds inside type rfl, appended.freeinode⟩

/-! ## `ialloc` -/

theorem addr_fresh (type i : Nat) :
    addr (setSize (setNlink (setType (fun _ => 0) type) 1) 0) i = 0 := by
  rw [addr, setSize, word_setWord_other (by omega), setNlink, word_setWord_other (by omega),
    setType, word_setWord_other (by omega)]
  exact word_eq_zero fun _ _ => rfl

theorem fileSize_fresh (type : Nat) :
    fileSize (setSize (setNlink (setType (fun _ => 0) type) 1) 0) = 0 := by
  rw [fileSize, setSize, word_setWord_self, Nat.zero_mod]

theorem dinodeType_fresh (small : type < 256 ^ 2) :
    dinodeType (setSize (setNlink (setType (fun _ => 0) type) 1) 0) = type := by
  rw [dinodeType, setSize, word_setWord_other (by omega), setNlink, word_setWord_other (by omega),
    setType, word_setWord_self]
  exact Nat.mod_eq_of_lt small

/-- `ialloc` makes an empty file while there is an inode block for it. -/
theorem ialloc_holds (holds : Holds state contents) (room : state.freeinode < inodeCapacity)
    (isType : type = typeOf state.freeinode) :
    ∃ after, ialloc state type = some (after, state.freeinode) ∧ Holds after contents ∧
      after.freeinode = state.freeinode + 1 := by
  obtain ⟨din, din_eq⟩ : ∃ din, din = setSize (setNlink (setType (fun _ => 0) type) 1) 0 :=
    ⟨_, rfl⟩
  have written : ialloc state type =
      some (⟨copy state.image (inodeAddress state.freeinode) dinodeSize din, state.freeinode + 1,
        state.freeblock⟩, state.freeinode) := by
    rw [ialloc, ← din_eq, winode_eq room]
    rfl
  have new := holds.empty state.freeinode le_rfl
  have order : sb.bmapstart * bsize ≤ nmeta * bsize := Nat.mul_le_mul_right _ (by decide)
  have last := inodeAddress_lt room (show dinodeSize - 1 < dinodeSize by decide)
  refine ⟨_, written, ?_, rfl⟩
  constructor
  case laid =>
    refine (holds.laid.congr (fun other inside i iSmall => ?_) fun a high => ?_).grow
      (fun i iSmall => ?_) ?_
    · rw [diskRows, addr, word_inodeAt_copy (addr_inside iSmall), if_neg inside.ne]
      rfl
    · dsimp only
      rw [copy_outside (by omega)]
    · rw [diskRows, addr, word_inodeAt_copy (addr_inside iSmall), if_pos rfl, din_eq]
      exact addr_fresh type i
    · rw [new]
      rfl
  case sizes =>
    intro other inside
    rw [fileSize, word_inodeAt_copy (by decide)]
    by_cases isNew : other = state.freeinode
    · rw [if_pos isNew, isNew, new, din_eq]
      exact fileSize_fresh type
    · rw [if_neg isNew]
      exact holds.sizes other (Nat.lt_of_le_of_ne (Nat.le_of_lt_succ inside) isNew)
  case types =>
    intro other positive inside
    rw [dinodeType, word_inodeAt_copy (by decide)]
    by_cases isNew : other = state.freeinode
    · have small : type < 256 ^ 2 := by
        rw [isType, typeOf]
        split <;> decide
      rw [if_pos isNew, isNew, din_eq, ← isType]
      exact dinodeType_fresh small
    · rw [if_neg isNew]
      exact holds.types other positive (Nat.lt_of_le_of_ne (Nat.le_of_lt_succ inside) isNew)
  case small =>
    intro other inside
    by_cases isNew : other = state.freeinode
    · rw [isNew, new]
      exact Nat.zero_le _
    · exact holds.small other (Nat.lt_of_le_of_ne (Nat.le_of_lt_succ inside) isNew)
  case empty => exact fun other outside => holds.empty other ((Nat.le_succ _).trans outside)
  case capacity => exact room
  case bounded => exact holds.bounded
  case front =>
    intro a low
    have outside : a < inodeAddress state.freeinode := low.trans_le (Nat.le_add_right _ _)
    dsimp only
    rw [copy_outside (.inl outside)]
    exact holds.front a low
  case used =>
    rw [Finset.sum_range_succ, new, holds.used]
    rfl

end Xv6.Mkfs
