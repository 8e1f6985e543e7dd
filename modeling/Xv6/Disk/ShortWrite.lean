import Xv6.Disk.ByteArray

/-!
# A write that stops early

`writei` stops when there is no free block or when the copy of a piece fails. In the
second case the piece is in the buffer up to the first address that is not mapped, and
`readi` finds it there. What it reports is all that has changed exactly if those bytes
are what the file holds anyway, or nobody can read them.
-/

namespace Xv6.Disk

open Xv6.Semantics

variable {sb : Superblock} {source content : Bytes} {store store' : Store} {addrs : Nat → Nat}
  {mapped : Nat → Bool} {ip ip' : Inode} {src off n tot fuel dst : Nat}

/-! ## What a read returns -/

theorem asInt_le (value : Nat) : asInt value ≤ value := by
  have small : (BitVec.ofNat 32 value).toNat ≤ value := by
    exact Nat.mod_le _ _
  rw [asInt, BitVec.toInt_eq_toNat_cond]
  split <;> omega

theorem copy_round
    (points : pointer image addrs (some (off / bsize)) ≠ 0) (fits : off % bsize + m ≤ bsize) :
    copy memory dst m (dropBytes (bread image (pointer image addrs (some (off / bsize))))
      (off % bsize)) = copy memory dst m (dropBytes (fileByte image addrs) off) := by
  apply copy_congr
  intro offset inside
  have sameBlock : (off + offset) / bsize = off / bsize :=
    div_eq_of_round fits (Nat.le_add_right _ _) (Nat.add_lt_add_left inside _)
  have offsetInBlock : (off + offset) % bsize = off % bsize + offset := by
    have here := Nat.div_add_mod' off bsize
    have there := Nat.div_add_mod' (off + offset) bsize
    rw [sameBlock] at there
    omega
  rw [bread, dropBytes_dropBytes, dropBytes, dropBytes, fileByte, sameBlock, offsetInBlock,
    if_neg points, Nat.add_assoc]

/-- The loop of `readi` returns bytes of the file, also when it allocates blocks for holes. -/
theorem readLoop_bytes (placed : Placed sb state.store.image state.addrs) (inside : tot ≤ n)
    (ran : readLoop sb mapped n fuel state tot off dst = some (transfer, result)) :
    result = -1 ∨ ∃ all, tot ≤ all ∧ all ≤ n ∧ result = asInt all ∧ transfer.memory =
      copy state.memory dst (all - tot)
        (dropBytes (fileByte state.store.image state.addrs) off) := by
  induction fuel generalizing state tot off dst with
  | zero => cases ran
  | succ fuel ih =>
    rw [readLoop] at ran
    by_cases more : tot < n
    · rw [if_pos more] at ran
      obtain ⟨⟨middle, before, addr⟩, mapsBlock, rest⟩ := Option.bind_eq_some_iff.mp ran
      obtain ⟨-, isAddr, assigned, -⟩ := bmap_cases placed mapsBlock
      obtain ⟨m, m_eq⟩ : ∃ m, m = min (n - tot) (bsize - off % bsize) := ⟨_, rfl⟩
      have inBlock : off % bsize < bsize := Nat.mod_lt _ (by decide)
      simp only [← m_eq, eitherCopyout, decide_eq_true_eq] at rest
      split at rest
      · cases rest
        refine .inr ⟨tot, le_rfl, inside, rfl, ?_⟩
        rw [Nat.sub_self, copy_zero]
      rename_i points
      split at rest
      · rename_i all
        rw [all, isAddr, copy_round (isAddr ▸ points) (by omega)] at rest
        rcases ih (assigned.placed placed) (by omega) rest with
          failed | ⟨total, low, high, isTotal, memory⟩
        · exact .inl failed
        refine .inr ⟨total, by omega, high, isTotal, ?_⟩
        have sameBytes : fileByte middle.image before =
            fileByte state.store.image state.addrs := funext (assigned.fileByte_eq placed)
        rw [memory, sameBytes, ← dropBytes_dropBytes, copy_copy]
        congr 1
        omega
      · cases rest
        exact .inl rfl
    · rw [if_neg more] at ran
      cases ran
      refine .inr ⟨tot, le_rfl, inside, rfl, ?_⟩
      rw [Nat.sub_self, copy_zero]

/-- What `readi` returns is the bytes of an array. -/
def SeesOnly (sb : Superblock) (store : Store) (ip : Inode) (content : Bytes) : Prop :=
  ∀ mapped memory dst off n transfer result, off < 2 ^ 32 → n < 2 ^ 32 →
    readi sb mapped store ip memory dst off n = some (transfer, result) →
    ∀ i : Nat, (i : Int) < result → transfer.memory (dst + i) = content (off + i)

/-- An array that has the bytes of a file up to its size is what `readi` returns. -/
theorem Placed.seesOnly (placed : Placed sb store.image ip.addrs)
    (same : ∀ pos < ip.size, fileByte store.image ip.addrs pos = content pos) :
    SeesOnly sb store ip content := by
  intro mapped memory dst off n transfer result offWord nWord ran i inside
  unfold readi at ran
  split at ran
  · cases ran
    omega
  split at ran
  · cases ran
    omega
  obtain ⟨left, left_eq⟩ : ∃ left, left = if off + n > ip.size then ip.size - off else n :=
    ⟨_, rfl⟩
  have bound : off + left ≤ ip.size := by
    rw [left_eq]
    split <;> omega
  rcases readLoop_bytes placed (Nat.zero_le _) ran with failed | ⟨all, -, high, isAll, memoryEq⟩
  · omega
  · have := asInt_le all
    rw [memoryEq, Nat.sub_zero, copy_add i (by omega), dropBytes]
    exact same (off + i) (by omega)

theorem SeesOnly.fileByte_eq (sees : SeesOnly sb store ip content)
    (opened : ip.isVault = true → ip.vaultOpen = true) (inFile : pos < ip.size)
    (small : pos < 2 ^ 31) (points : pointer store.image ip.addrs (some (pos / bsize)) ≠ 0) :
    fileByte store.image ip.addrs pos = content pos := by
  have backed : Backed store.image ip.addrs (fileByte store.image ip.addrs) pos
      (min (pos + 1) ip.size) := by
    intro other low high
    obtain rfl : other = pos := by omega
    exact ⟨points, (if_neg points).symm⟩
  have one : min 1 (ip.size - pos) = 1 := by omega
  have ran : readi sb (fun _ => true) store ip (fun _ => 0) 0 pos 1 = _ :=
    readi_eq opened backed (fun _ _ => rfl) (by omega)
  rw [one] at ran
  have seen := sees _ _ _ _ _ _ _ (by omega) (by decide) ran 0 (by decide)
  change copy (fun _ => 0) 0 1 (dropBytes (fileByte store.image ip.addrs) pos) (0 + 0) =
    content (pos + 0) at seen
  rwa [copy_add 0 Nat.one_pos, dropBytes, Nat.add_zero] at seen

/-! ## What a short write leaves -/

/-- The blocks between two blocks of a range are blocks of the range. -/
theorem mem_blocksOf_of_le (low : off / bsize ≤ bn) (high : bn ≤ (off + tot) / bsize) :
    bn ∈ blocksOf off (tot + 1) := by
  have there := Nat.div_mul_le_self (off + tot) bsize
  have last : bn * bsize ≤ (off + tot) / bsize * bsize := Nat.mul_le_mul_right _ high
  rw [mem_blocksOf]
  by_cases before : bn * bsize ≤ off
  · have isFirst : bn = off / bsize :=
      Nat.le_antisymm ((Nat.le_div_iff_mul_le (by decide)).mpr before) low
    exact ⟨off, by omega, isFirst.symm⟩
  · exact ⟨bn * bsize, by omega, Nat.mul_div_cancel _ (by decide)⟩

/-- The bytes that are copied of the piece at which a write has stopped. -/
def tornCount (mapped : Nat → Bool) (src off n tot : Nat) : Nat :=
  copiedCount mapped (src + tot) (min (n - tot) (bsize - (off + tot) % bsize))

theorem tornCount_le (mapped : Nat → Bool) (src off n tot : Nat) :
    tornCount mapped src off n tot ≤ n - tot :=
  (copiedCount_le _ _ _).trans (Nat.min_le_left _ _)

theorem Wrote.torn
    (wrote : Wrote sb mapped source n image addrs 0 off src written k) (short : written.tot < n) :
    (Enough sb image addrs (neededFor off (written.tot + 1)) →
      k = tornCount mapped src off n written.tot) ∧
      (k ≠ 0 → k = tornCount mapped src off n written.tot ∧
        Enough sb image addrs (neededFor off (written.tot + 1))) := by
  have position : written.off = off + written.tot := by
    have := wrote.progress.2.2
    omega
  have room := wrote.room (neededFor off (written.tot + 1)) fun bn low high =>
    placesOf_subset_neededFor (mem_blocksOf_of_le low (position ▸ high))
  rcases wrote.stops with ⟨noMore, all | ⟨missing, noneFree⟩⟩ | ⟨copied, -⟩
  · exact absurd all short.ne
  · refine ⟨fun enough => ?_, fun more => absurd noMore more⟩
    have isNeeded : some (written.off / bsize) ∈ neededFor off (written.tot + 1) := by
      apply placesOf_subset_neededFor _ (some_mem_placesOf _)
      rw [position]
      exact mem_blocksOf_of_le (Nat.div_le_div_right (Nat.le_add_right _ _)) le_rfl
    have free := (room.mpr enough).nonempty isNeeded missing
    rw [noneFree] at free
    exact absurd free Finset.not_nonempty_empty
  · have isTorn : k = tornCount mapped src off n written.tot := by
      rw [copied, position, tornCount, Nat.sub_zero]
    refine ⟨fun _ => isTorn, fun more => ⟨isTorn, room.mp ?_⟩⟩
    exact enough_of_points fun pos low high => wrote.covered pos low (by omega)

/-- The bytes of the torn piece are what the file holds, if it has a block for them, or
the file cannot be read. -/
def Harmless (sb : Superblock) (mapped : Nat → Bool) (source : Bytes) (store : Store) (ip : Inode)
    (src off n tot : Nat) : Prop :=
  (ip.isVault = true ∧ ip.vaultOpen = false) ∨
    (Enough sb store.image ip.addrs (neededFor off (tot + 1)) →
      ∀ i < tornCount mapped src off n tot, off + tot + i < ip.size →
        source (src + (tot + i)) = fileByte store.image ip.addrs (off + tot + i))

/-- After a write that has stopped early, `readi` sees what the write reports and nothing
else exactly if the torn piece is harmless. -/
theorem writei_short_iff (placed : Placed sb store.image ip.addrs)
    (front : iblock ip.inum sb < sb.bmapstart) (offWord : off < 2 ^ 32) (nWord : n < 2 ^ 32)
    (ran : writei sb mapped source store ip src off n = some (store', ip', (tot : Int)))
    (short : tot < n) :
    SeesOnly sb store' ip' (copy (fileByte store.image ip.addrs) off tot (dropBytes source src)) ↔
      Harmless sb mapped source store ip src off n tot := by
  have largest : maxfile * bsize < 2 ^ 31 := by decide
  have accepts : Accepts ip off n := by
    by_contra refused
    rw [writei_of_not_accepts offWord nWord refused] at ran
    injection ran with same
    injection same with _ same
    injection same with _ same
    omega
  obtain ⟨written, k, wrote, rfl, total, keeps⟩ := writei_wrote placed front accepts ran
  obtain rfl : tot = written.tot := Int.ofNat.inj total
  have position : written.off = off + written.tot := by
    have := wrote.progress.2.2
    omega
  obtain ⟨tornOf, torn⟩ := wrote.torn short
  have size : (written.inode ip).size = max ip.size (off + written.tot) := by
    rw [Written.inode, position]
  have bytes : ∀ pos, fileByte store'.image written.addrs pos =
      if off ≤ pos ∧ pos < off + written.tot + k then source (src + (pos - off))
      else fileByte store.image ip.addrs pos := by
    intro pos
    rw [keeps.fileByte_eq, wrote.bytes, position]
  constructor
  · intro sees
    by_cases closed : ip.isVault = true ∧ ip.vaultOpen = false
    · exact .inl closed
    refine .inr fun enough i inTorn inFile => ?_
    rw [← tornOf enough] at inTorn
    obtain ⟨pos, pos_eq⟩ : ∃ pos, pos = off + written.tot + i := ⟨_, rfl⟩
    have points : pointer store'.image written.addrs (some (pos / bsize)) ≠ 0 := by
      rw [keeps.pointer_eq]
      exact wrote.covered pos (by omega) (by omega)
    have opened : ip.isVault = true → ip.vaultOpen = true := by
      intro isVault
      by_contra isClosed
      exact closed ⟨isVault, Bool.eq_false_iff.mpr isClosed⟩
    have small : pos < 2 ^ 31 := by
      have := accepts.2
      have := tornCount_le mapped src off n written.tot
      omega
    have seen := sees.fileByte_eq opened (by omega) small points
    change fileByte store'.image written.addrs pos = _ at seen
    rw [bytes, if_pos (by omega), copy_outside (by omega)] at seen
    rw [← pos_eq, ← seen]
    congr 1
    omega
  intro harmless
  rcases harmless with ⟨isVault, closed⟩ | harmless
  · intro mapped memory dst off n transfer result _ _ ran i inside
    have isClosed : (ip.isVault && !ip.vaultOpen) = true := by rw [isVault, closed]; rfl
    change (if (ip.isVault && !ip.vaultOpen) = true then _ else _) = _ at ran
    rw [if_pos isClosed] at ran
    cases ran
    omega
  apply (keeps.placed wrote.placed).seesOnly
  intro pos inFile
  change fileByte store'.image written.addrs pos = _
  rw [bytes]
  by_cases reported : off ≤ pos ∧ pos < off + written.tot
  · rw [if_pos (by omega), copy_inside reported.1 reported.2, dropBytes]
  rw [copy_outside (by omega)]
  by_cases inTorn : off ≤ pos ∧ pos < off + written.tot + k
  · obtain ⟨isTorn, enough⟩ := torn (by omega)
    have same := harmless enough (pos - off - written.tot) (by omega) (by omega)
    rw [if_pos inTorn, show pos - off = written.tot + (pos - off - written.tot) by omega,
      same]
    congr 1
    omega
  · rw [if_neg inTorn]

/-- A source of which the first three bytes are mapped. -/
def brokenSource (address : Nat) : Bool := address < 4096

/-- The source breaks off in the middle of the first piece. -/
theorem writei_short_iff_broken :
    ∃ store' ip', writei smallDisk brokenSource (fun _ => 7) ⟨smallImage, ⟨1, []⟩⟩ longFile 4093 0 8 =
        some (store', ip', ((0 : Nat) : Int)) ∧
      (SeesOnly smallDisk store' ip' (copy (fileByte smallImage longFile.addrs) 0 0
          (dropBytes (fun _ => 7) 4093)) ↔
        Harmless smallDisk brokenSource (fun _ => 7) ⟨smallImage, ⟨1, []⟩⟩ longFile 4093 0 8 0) := by
  have evaluated : (writei smallDisk brokenSource (fun _ => 7) ⟨smallImage, ⟨1, []⟩⟩ longFile 4093 0
      8).map (fun (_, _, result) => result) = some 0 := by decide +kernel
  obtain ⟨⟨store', ip', result⟩, ran, isResult⟩ := Option.map_eq_some_iff.mp evaluated
  obtain rfl : result = ((0 : Nat) : Int) := isResult
  have placed : Placed smallDisk (Store.mk smallImage ⟨1, []⟩).image longFile.addrs :=
    longFile_placed
  exact ⟨store', ip', ran, writei_short_iff placed (by decide) (by decide) (by decide) ran
    (by decide)⟩

/-- The write reports no byte, and `readi` returns the first one of its source. -/
theorem writei_torn :
    ∃ store' ip', writei smallDisk brokenSource (fun _ => 7) ⟨smallImage, ⟨1, []⟩⟩ longFile 4093 0 8 =
        some (store', ip', ((0 : Nat) : Int)) ∧
      ¬ SeesOnly smallDisk store' ip' (copy (fileByte smallImage longFile.addrs) 0 0
        (dropBytes (fun _ => 7) 4093)) := by
  have evaluated : (writei smallDisk brokenSource (fun _ => 7) ⟨smallImage, ⟨1, []⟩⟩ longFile 4093 0
      8).map (fun written => (written.2.2, (readi smallDisk (fun _ => true) written.1 written.2.1
        (fun _ => 0) 0 0 1).map fun read => (read.1.memory 0, read.2))) =
      some (0, some (7, 1)) := by decide +kernel
  obtain ⟨⟨store', ip', result⟩, ran, both⟩ := Option.map_eq_some_iff.mp evaluated
  injection both with isResult read
  obtain ⟨⟨transfer, count⟩, reads, pair⟩ := Option.map_eq_some_iff.mp read
  injection pair with byte isCount
  subst isResult isCount
  refine ⟨store', ip', ran, fun sees => ?_⟩
  have seen := sees _ _ _ _ _ _ _ (by decide) (by decide) reads 0 (by decide)
  rw [copy_zero] at seen
  have old : fileByte smallImage longFile.addrs 0 = 0 := by decide +kernel
  rw [show 0 + 0 = 0 from rfl, byte, old] at seen
  cases seen

end Xv6.Disk
