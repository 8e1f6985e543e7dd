import Xv6.Disk.Room

/-!
# Writing files in the kernel

`writei` finds the blocks of a range with `bmap`, copies the bytes into their buffers
and writes the inode back. A copy that fails has changed the buffer up to the first
address that is not mapped, and the buffer is released without `log_write`: the bytes
are in the cache all the same.
-/

namespace Xv6.Disk

open Xv6.Semantics

/-- The bytes of a `dinode` with the fields of an inode. -/
def dinodeBytes (ip : Inode) : Bytes :=
  let fields := setType (fun _ => 0) ip.type
  let fields := setWord 2 (setWord 2 fields 2 ip.major) 4 ip.minor
  let fields := setSize (setNlink fields ip.nlink) ip.size
  copy fields 12 (4 * (ndirect + 1)) fun offset => wordBytes (ip.addrs (offset / 4)) (offset % 4)

/-- `iupdate`. -/
def iupdate (sb : Superblock) (store : Store) (ip : Inode) : Option Store :=
  let block := iblock ip.inum sb
  logWrite sb store block
    (copy (bread store.image block) (dinodeSize * (ip.inum % ipb)) dinodeSize (dinodeBytes ip))

/-- How many bytes are copied from an address on, up to the first that is not mapped. -/
def copiedCount (mapped : Nat → Bool) (src len : Nat) : Nat :=
  ((List.range len).takeWhile fun i => mapped (src + i)).length

/-- `either_copyin` into a buffer: page by page up to the first address that is not
mapped. -/
def eitherCopyin (mapped : Nat → Bool) (source data : Bytes) (offset src len : Nat) :
    Bytes × Bool :=
  (copy data offset (copiedCount mapped src len) (dropBytes source src),
    copiedCount mapped src len = len)

/-- The variables of `writei` at the end of its loop. -/
structure Written where
  store : Store
  addrs : Nat → Nat
  tot : Nat
  off : Nat

/-- The loop of `writei`. -/
def writeLoop (sb : Superblock) (mapped : Nat → Bool) (source : Bytes) (n : Nat) :
    (fuel : Nat) → Store → (Nat → Nat) → (tot off src : Nat) → Option Written
  | 0, _, _, _, _, _ => none
  | fuel + 1, store, addrs, tot, off, src =>
    if tot < n then
      (bmap sb store addrs (off / bsize)).bind fun (store, addrs, addr) =>
        let m := min (n - tot) (bsize - off % bsize)
        let (data, copied) := eitherCopyin mapped source (bread store.image addr) (off % bsize)
          src m
        if addr = 0 then some ⟨store, addrs, tot, off⟩
        else if copied then
          (logWrite sb store addr data).bind fun store =>
            writeLoop sb mapped source n fuel store addrs (tot + m) (off + m) (src + m)
        else some ⟨⟨bwrite store.image addr data, store.log⟩, addrs, tot, off⟩
    else some ⟨store, addrs, tot, off⟩

/-- `writei`, with `off` and `n` below `2 ^ 32`. A round of its loop writes at least one
byte. -/
def writei (sb : Superblock) (mapped : Nat → Bool) (source : Bytes) (store : Store) (ip : Inode)
    (src off n : Nat) : Option (Store × Inode × Int) :=
  if off > ip.size ∨ (off + n) % 2 ^ 32 < off then some (store, ip, -1)
  else if (off + n) % 2 ^ 32 > maxfile * bsize then some (store, ip, -1)
  else
    (writeLoop sb mapped source n (n + 1) store ip.addrs 0 off src).bind fun written =>
      let ip := { ip with
        addrs := written.addrs
        size := if written.off > ip.size then written.off else ip.size }
      (iupdate sb written.store ip).map fun store => (store, ip, asInt written.tot)

variable {sb : Superblock} {image source : Bytes} {store : Store} {addrs : Nat → Nat}
  {mapped : Nat → Bool} {n tot off src fuel bn : Nat}

/-! ## The inode on the disk -/

theorem bwrite_copy (inside : start + count ≤ bsize) :
    bwrite image b (copy (bread image b) start count source) =
      copy image (b * bsize + start) count source := by
  funext address
  by_cases inBlock : b * bsize ≤ address ∧ address < b * bsize + bsize
  · rw [bwrite, copy_inside inBlock.1 inBlock.2]
    by_cases copied : b * bsize + start ≤ address ∧ address < b * bsize + start + count
    · rw [copy_inside (by omega) (by omega), copy_inside copied.1 copied.2]
      congr 1
      omega
    · rw [copy_outside (by omega), copy_outside (by omega), bread, dropBytes]
      congr 1
      omega
  · rw [bwrite, copy_outside (by omega), copy_outside (by omega)]

theorem inode_position (sb : Superblock) (inum : Nat) :
    iblock inum sb * bsize + dinodeSize * (inum % ipb) =
      sb.inodestart * bsize + dinodeSize * inum := by
  rw [iblock]
  simp only [ipb, bsize, dinodeSize]
  omega

theorem word_inodeAt_iupdate
    (ran : iupdate sb store ip = some store') (inside : offset + width ≤ dinodeSize) :
    word width (inodeAt sb store'.image inum) offset =
      if inum = ip.inum then word width (dinodeBytes ip) offset
      else word width (inodeAt sb store.image inum) offset := by
  unfold iupdate logWrite at ran
  split at ran
  · cases ran
  cases ran
  have fits : dinodeSize * (ip.inum % ipb) + dinodeSize ≤ bsize := by
    simp only [ipb, bsize, dinodeSize]
    omega
  rw [bwrite_copy fits, inodeAt, inodeAt, inode_position, inode_position, ← word_dropBytes,
    ← word_dropBytes]
  by_cases same : inum = ip.inum
  · rw [if_pos same, same, word_copy_inside (by omega) (by omega)]
    congr 1
    omega
  · rw [if_neg same, word_copy_outside]
    simp only [dinodeSize] at inside ⊢
    omega

section DinodeBytes

variable (ip : Inode)

theorem dinodeType_dinodeBytes : dinodeType (dinodeBytes ip) = ip.type % 2 ^ 16 := by
  simp only [dinodeBytes, dinodeType, setSize, setNlink, setType]
  rw [word_copy_outside (.inl (by decide)), word_setWord_other (by decide),
    word_setWord_other (by decide), word_setWord_other (by decide),
    word_setWord_other (by decide), word_setWord_self]
  rfl

theorem nlink_dinodeBytes : nlink (dinodeBytes ip) = ip.nlink % 2 ^ 16 := by
  simp only [dinodeBytes, nlink, setSize, setNlink]
  rw [word_copy_outside (.inl (by decide)), word_setWord_other (by decide), word_setWord_self]
  rfl

theorem fileSize_dinodeBytes : fileSize (dinodeBytes ip) = ip.size % 2 ^ 32 := by
  simp only [dinodeBytes, fileSize, setSize]
  rw [word_copy_outside (.inl (by decide)), word_setWord_self]
  rfl

theorem addr_dinodeBytes (inside : i ≤ ndirect) :
    addr (dinodeBytes ip) i = ip.addrs i % 2 ^ 32 := by
  simp only [ndirect] at inside
  simp only [dinodeBytes, addr]
  rw [word_copy_inside (by omega) (by simp only [ndirect]; omega)]
  have bytes : word 4 (fun offset => wordBytes (ip.addrs (offset / 4)) (offset % 4))
      (12 + 4 * i - 12) = word 4 (wordBytes (ip.addrs i)) 0 := by
    apply word_congr
    intro offset small
    rw [show (12 + 4 * i - 12 + offset) / 4 = i by omega,
      show (12 + 4 * i - 12 + offset) % 4 = 0 + offset by omega]
  rw [bytes, word_wordBytes]
  rfl

end DinodeBytes

/-! ## Copies -/

theorem copiedCount_le (mapped : Nat → Bool) (src len : Nat) :
    copiedCount mapped src len ≤ len := by
  have := (List.takeWhile_prefix (l := List.range len) fun i => mapped (src + i)).length_le
  rwa [List.length_range] at this

theorem copiedCount_of_mapped (isMapped : ∀ i < len, mapped (src + i) = true) :
    copiedCount mapped src len = len := by
  rw [copiedCount, List.takeWhile_eq_self_iff.mpr fun i mem => isMapped i (List.mem_range.mp mem),
    List.length_range]

/-! ## Writing a block of a file -/

section Block

variable (placed : Placed sb image addrs)
include placed

theorem Placed.pointer_bwrite (data : Bytes) (ref : Option Nat) :
    pointer (bwrite image (pointer image addrs (some bn)) data) addrs ref =
      pointer image addrs ref := by
  apply pointer_congr rfl
  intro made
  apply bwrite_other
  intro same
  cases placed.distinct none (some bn) made same

variable (points : pointer image addrs (some bn) ≠ 0)
include points

theorem Placed.isFree_bwrite (data : Bytes) (small : b < sb.size) :
    isFree sb (bwrite image (pointer image addrs (some bn)) data) b = isFree sb image b := by
  apply isFree_congr
  apply bwrite_other
  exact (Nat.lt_of_lt_of_le (bblock_lt small) (placed.inRange _ points).1).ne

theorem Placed.bwrite (data : Bytes) :
    Placed sb (Disk.bwrite image (pointer image addrs (some bn)) data) addrs where
  words := placed.words
  inRange := by
    intro ref isPlaced
    rw [placed.pointer_bwrite] at isPlaced ⊢
    exact placed.inRange ref isPlaced
  taken := by
    intro ref isPlaced
    rw [placed.pointer_bwrite] at isPlaced ⊢
    rw [placed.isFree_bwrite points data (placed.inRange ref isPlaced).2]
    exact placed.taken ref isPlaced
  distinct := by
    intro ref other isPlaced same
    rw [placed.pointer_bwrite] at isPlaced same
    rw [placed.pointer_bwrite] at same
    exact placed.distinct ref other isPlaced same
  free := by
    intro b small isFreeB
    rw [placed.isFree_bwrite points data small] at isFreeB
    exact placed.free b small isFreeB

theorem Placed.fileByte_bwrite (data : Bytes) (pos : Nat) :
    fileByte (Disk.bwrite image (pointer image addrs (some bn)) data) addrs pos =
      if pos / bsize = bn then data (pos % bsize) else fileByte image addrs pos := by
  rw [fileByte, fileByte, placed.pointer_bwrite]
  have inBlock : pos % bsize < bsize := Nat.mod_lt _ (by decide)
  by_cases same : pos / bsize = bn
  · rw [if_pos same, same, if_neg points]
    exact bwrite_self inBlock
  split
  · rfl
  · rename_i other
    apply bwrite_other _ _ inBlock
    intro sameBlock
    exact same (Option.some.inj (placed.distinct _ _ other sameBlock))

theorem Placed.freeBlocks_bwrite (data : Bytes) :
    freeBlocks sb (Disk.bwrite image (pointer image addrs (some bn)) data) = freeBlocks sb image := by
  apply Finset.filter_congr
  intro b mem
  rw [placed.isFree_bwrite points data (Finset.mem_range.mp mem)]

theorem Placed.enough_bwrite (data : Bytes) :
    Enough sb (Disk.bwrite image (pointer image addrs (some bn)) data) addrs needed ↔
      Enough sb image addrs needed := by
  simp only [Enough, placed.pointer_bwrite, placed.freeBlocks_bwrite points]

theorem Placed.fileByte_copy (here : off / bsize = bn) (fits : off % bsize + k ≤ bsize)
    (pos : Nat) :
    fileByte (Disk.bwrite image (pointer image addrs (some bn))
        (copy (bread image (pointer image addrs (some bn))) (off % bsize) k
          (dropBytes source src))) addrs pos =
      if off ≤ pos ∧ pos < off + k then source (src + (pos - off)) else fileByte image addrs pos := by
  have first := Nat.div_add_mod' off bsize
  have second := Nat.div_add_mod' pos bsize
  rw [placed.fileByte_bwrite points]
  by_cases same : pos / bsize = bn
  · rw [same] at second
    rw [here] at first
    rw [if_pos same]
    by_cases copied : off ≤ pos ∧ pos < off + k
    · rw [if_pos copied, copy_inside (by omega) (by omega), dropBytes]
      congr 2
      omega
    · rw [if_neg copied, copy_outside (by omega), fileByte, same, if_neg points]
      rfl
  have outside : ¬ (off ≤ pos ∧ pos < off + k) := by
    rintro ⟨low, high⟩
    apply same
    rw [← here, Nat.div_eq_iff (by decide)]
    omega
  rw [if_neg same, if_neg outside]

end Block

/-! ## The loop -/

/-- What the loop of `writei` has done at its end: it has copied the bytes it counts, and
`k` more before a copy failed. -/
structure Wrote (sb : Superblock) (mapped : Nat → Bool) (source : Bytes) (n : Nat) (image : Bytes)
    (addrs : Nat → Nat) (tot off src : Nat) (written : Written) (k : Nat) : Prop where
  progress : tot ≤ written.tot ∧ written.tot ≤ n ∧ written.off = off + (written.tot - tot)
  placed : Placed sb written.store.image written.addrs
  kept : ∀ ref, pointer image addrs ref ≠ 0 →
    pointer written.store.image written.addrs ref = pointer image addrs ref
  covered : ∀ pos, off ≤ pos → pos < written.off + k →
    pointer written.store.image written.addrs (some (pos / bsize)) ≠ 0
  bytes : ∀ pos, fileByte written.store.image written.addrs pos =
    if off ≤ pos ∧ pos < written.off + k then source (src + (pos - off))
    else fileByte image addrs pos
  room : ∀ needed, (∀ bn, off / bsize ≤ bn → bn ≤ written.off / bsize → placesOf bn ⊆ needed) →
    (Enough sb written.store.image written.addrs needed ↔ Enough sb image addrs needed)
  stops : k = 0 ∧ (written.tot = n ∨
      pointer written.store.image written.addrs (some (written.off / bsize)) = 0 ∧
        freeBlocks sb written.store.image = ∅) ∨
    k = copiedCount mapped (src + (written.tot - tot))
        (min (n - written.tot) (bsize - written.off % bsize)) ∧
      k < min (n - written.tot) (bsize - written.off % bsize)

theorem div_eq_of_round (fits : off % bsize + k ≤ bsize) (low : off ≤ pos)
    (high : pos < off + k) : pos / bsize = off / bsize := by
  have first := Nat.div_add_mod' off bsize
  rw [Nat.div_eq_iff (by decide)]
  omega

section Rounds

variable {middle : Store} {before : Nat → Nat} (placed : Placed sb image addrs)
  (assigned : Assigned sb (· ∈ placesOf (off / bsize)) image addrs middle.image before)
include placed assigned

theorem Wrote.of_assigned (inside : tot ≤ n)
    (stops : tot = n ∨ pointer middle.image before (some (off / bsize)) = 0 ∧
      freeBlocks sb middle.image = ∅) :
    Wrote sb mapped source n image addrs tot off src ⟨middle, before, tot, off⟩ 0 where
  progress := ⟨le_rfl, inside, by rw [Nat.sub_self, Nat.add_zero]⟩
  placed := assigned.placed placed
  kept := fun _ => assigned.pointer_eq
  covered := by
    intro pos low high
    change pos < off + 0 at high
    omega
  bytes := by
    intro pos
    have outside : ¬ (off ≤ pos ∧ pos < off + 0) := by omega
    rw [if_neg outside]
    exact assigned.fileByte_eq placed pos
  room := fun needed isNeeded => assigned.enough_iff placed (isNeeded _ le_rfl le_rfl)
  stops := .inl ⟨rfl, stops⟩

variable (points : pointer middle.image before (some (off / bsize)) ≠ 0)
include points

theorem fileByte_round (fits : off % bsize + k ≤ bsize) (pos : Nat) :
    fileByte (bwrite middle.image (pointer middle.image before (some (off / bsize)))
        (copy (bread middle.image (pointer middle.image before (some (off / bsize)))) (off % bsize) k
          (dropBytes source src))) before pos =
      if off ≤ pos ∧ pos < off + k then source (src + (pos - off)) else fileByte image addrs pos := by
  rw [(assigned.placed placed).fileByte_copy points rfl fits, assigned.fileByte_eq placed]

theorem Wrote.of_failed (inside : tot ≤ n)
    (copied : k = copiedCount mapped src (min (n - tot) (bsize - off % bsize)))
    (short : k < min (n - tot) (bsize - off % bsize)) :
    Wrote sb mapped source n image addrs tot off src
      ⟨⟨bwrite middle.image (pointer middle.image before (some (off / bsize)))
        (copy (bread middle.image (pointer middle.image before (some (off / bsize)))) (off % bsize) k
          (dropBytes source src)), middle.log⟩, before, tot, off⟩ k := by
  have middlePlaced := assigned.placed placed
  have fits : off % bsize + k ≤ bsize := by omega
  constructor
  case progress => exact ⟨le_rfl, inside, by rw [Nat.sub_self, Nat.add_zero]⟩
  case placed => exact middlePlaced.bwrite points _
  case kept =>
    intro ref isPlaced
    exact (middlePlaced.pointer_bwrite _ ref).trans (assigned.pointer_eq isPlaced)
  case covered =>
    intro pos low high
    rw [middlePlaced.pointer_bwrite, div_eq_of_round fits low high]
    exact points
  case bytes => exact fileByte_round placed assigned points fits
  case room =>
    intro needed isNeeded
    exact (middlePlaced.enough_bwrite points _).trans
      (assigned.enough_iff placed (isNeeded _ le_rfl le_rfl))
  case stops =>
    right
    rw [Nat.sub_self, Nat.add_zero]
    exact ⟨copied, short⟩

theorem Wrote.of_round (fits : off % bsize + m ≤ bsize) (rest : Wrote sb mapped source n
      (bwrite middle.image (pointer middle.image before (some (off / bsize)))
        (copy (bread middle.image (pointer middle.image before (some (off / bsize)))) (off % bsize) m
          (dropBytes source src))) before (tot + m) (off + m) (src + m) written k) :
    Wrote sb mapped source n image addrs tot off src written k := by
  have middlePlaced := assigned.placed placed
  obtain ⟨advanced, bounded, position⟩ := rest.progress
  constructor
  case progress => exact ⟨by omega, bounded, by omega⟩
  case placed => exact rest.placed
  case kept =>
    intro ref isPlaced
    have same : pointer middle.image before ref = pointer image addrs ref :=
      assigned.pointer_eq isPlaced
    have stays := rest.kept ref
    rw [middlePlaced.pointer_bwrite, same] at stays
    exact stays isPlaced
  case covered =>
    intro pos low high
    by_cases inRound : pos < off + m
    · have stays := rest.kept (some (pos / bsize))
      rw [middlePlaced.pointer_bwrite, div_eq_of_round fits low inRound] at stays
      rw [div_eq_of_round fits low inRound, stays points]
      exact points
    · exact rest.covered pos (by omega) high
  case bytes =>
    intro pos
    rw [rest.bytes pos, fileByte_round placed assigned points fits]
    by_cases inRest : off + m ≤ pos ∧ pos < written.off + k
    · rw [if_pos inRest, if_pos (by omega)]
      congr 1
      omega
    · rw [if_neg inRest]
      by_cases inRound : off ≤ pos ∧ pos < off + m
      · rw [if_pos inRound, if_pos (by omega)]
      · rw [if_neg inRound, if_neg (by omega)]
  case room =>
    intro needed isNeeded
    have forward : off / bsize ≤ (off + m) / bsize := Nat.div_le_div_right (Nat.le_add_right _ _)
    have onward : (off + m) / bsize ≤ written.off / bsize := Nat.div_le_div_right (by omega)
    rw [rest.room needed fun bn low high => isNeeded bn (forward.trans low) high,
      middlePlaced.enough_bwrite points]
    exact assigned.enough_iff placed (isNeeded _ le_rfl (forward.trans onward))
  case stops =>
    have sameSource : src + m + (written.tot - (tot + m)) = src + (written.tot - tot) := by omega
    have stops := rest.stops
    rwa [sameSource] at stops

end Rounds

theorem writeLoop_wrote (placed : Placed sb store.image addrs) (inside : tot ≤ n)
    (ran : writeLoop sb mapped source n fuel store addrs tot off src = some written) :
    ∃ k, Wrote sb mapped source n store.image addrs tot off src written k := by
  induction fuel generalizing store addrs tot off src with
  | zero => cases ran
  | succ fuel ih =>
    rw [writeLoop] at ran
    by_cases more : tot < n
    · rw [if_pos more] at ran
      obtain ⟨⟨middle, before, addr⟩, mapsBlock, rest⟩ := Option.bind_eq_some_iff.mp ran
      obtain ⟨-, isAddr, assigned, noneFree⟩ := bmap_cases placed mapsBlock
      obtain ⟨m, m_eq⟩ : ∃ m, m = min (n - tot) (bsize - off % bsize) := ⟨_, rfl⟩
      have inBlock : off % bsize < bsize := Nat.mod_lt _ (by decide)
      simp only [← m_eq, eitherCopyin, decide_eq_true_eq] at rest
      split at rest
      · rename_i none
        cases rest
        exact ⟨0, .of_assigned placed assigned inside (.inr ⟨isAddr ▸ none, noneFree none⟩)⟩
      rename_i points
      subst isAddr
      split at rest
      · rename_i all
        obtain ⟨next, logged, continued⟩ := Option.bind_eq_some_iff.mp rest
        rw [all] at logged
        unfold logWrite at logged
        split at logged
        · cases logged
        · cases logged
          obtain ⟨k, wrote⟩ := ih
            ((assigned.placed placed).bwrite points _) (by omega) continued
          exact ⟨k, .of_round placed assigned points (by omega) wrote⟩
      · rename_i short
        cases rest
        have fewer := copiedCount_le mapped src m
        exact ⟨_, .of_failed placed assigned points inside (m_eq ▸ rfl) (by omega)⟩
    · rw [if_neg more] at ran
      cases ran
      exact ⟨0, .of_assigned placed .refl inside
        (.inl (Nat.le_antisymm inside (Nat.not_lt.mp more)))⟩

/-- The loop of `writei` writes the whole range when its source is mapped, there are
enough free blocks and the transaction has room for the blocks of the range. -/
theorem writeLoop_returns (placed : Placed sb store.image addrs)
    (budget : Budget sb recurring store.log addrs (blocksOf off left).card)
    (enough : Enough sb store.image addrs needed)
    (isNeeded : ∀ bn ∈ blocksOf off left, placesOf bn ⊆ needed)
    (inside : off + left ≤ maxfile * bsize) (isMapped : ∀ i < left, mapped (src + i) = true)
    (enoughFuel : left < fuel) (total : tot + left = n) :
    ∃ written, writeLoop sb mapped source n fuel store addrs tot off src = some written ∧
      written.tot = n ∧ Budget sb recurring written.store.log written.addrs 0 := by
  induction fuel generalizing store addrs tot off src left with
  | zero => exact absurd enoughFuel (Nat.not_lt_zero _)
  | succ fuel ih =>
    rw [writeLoop]
    by_cases more : tot < n
    · obtain ⟨m, m_eq⟩ : ∃ m, m = min left (bsize - off % bsize) := ⟨_, rfl⟩
      have inBlock : off % bsize < bsize := Nat.mod_lt _ (by decide)
      have piece : min (n - tot) (bsize - off % bsize) = m := by omega
      obtain ⟨notThere, blocks⟩ := blocksOf_piece m_eq (by omega)
      rw [blocks, Finset.card_insert_of_notMem notThere] at budget
      have first : off / bsize ∈ blocksOf off left := blocks ▸ Finset.mem_insert_self _ _
      have isBlock : off / bsize < maxfile := Nat.div_lt_of_lt_mul (by rw [Nat.mul_comm]; omega)
      obtain ⟨middle, before, addr, mapsBlock, nonzero, left'⟩ :=
        bmap_returns placed budget isBlock enough (isNeeded _ first)
      obtain ⟨-, isAddr, assigned, -⟩ := bmap_cases placed mapsBlock
      have middlePlaced := assigned.placed placed
      have copied : copiedCount mapped src m = m :=
        copiedCount_of_mapped fun i small => isMapped i (by omega)
      have rest : Budget sb recurring (middle.log.add addr) before
          (blocksOf (off + m) (left - m)).card := by
        split at left'
        · rename_i logged
          exact left'.add_known (.inr logged)
        · exact left'.add addr
      rw [if_pos more]
      simp only [mapsBlock, Option.bind_some, piece, eitherCopyin, copied, decide_true,
        if_neg nonzero, if_true, logWrite, if_neg left'.not_refuses]
      subst isAddr
      refine ih (middlePlaced.bwrite nonzero _) rest ?enough ?isNeeded ?inside
        ?isMapped ?enoughFuel ?total
      case enough =>
        exact (middlePlaced.enough_bwrite nonzero _).mpr
          ((assigned.enough_iff placed (isNeeded _ first)).mpr enough)
      case isNeeded =>
        intro bn mem
        exact isNeeded bn (blocks ▸ Finset.mem_insert_of_mem mem)
      case inside => omega
      case isMapped =>
        intro i small
        rw [Nat.add_assoc]
        exact isMapped (m + i) (by omega)
      case enoughFuel => omega
      case total => omega
    have done : tot = n := by omega
    have rest : Budget sb recurring store.log addrs 0 :=
      { budget with room := by have := budget.room; omega }
    rw [if_neg more]
    exact ⟨_, rfl, done, rest⟩

end Xv6.Disk
