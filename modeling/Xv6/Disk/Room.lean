import Mathlib.Data.Finset.SDiff
import Mathlib.Data.Finset.Union
import Mathlib.Order.Interval.Finset.Nat
import Xv6.Disk.Allocation

/-!
# Room on the disk and in the log

`bmap` returns a block if there are enough free ones and the transaction does not
become too big for the log. The log absorbs a block that it has already, so the blocks
that are written again and again count once: the bitmap, the indirect block and the
block of the inode.
-/

namespace Xv6.Disk

open Function Xv6.Semantics

variable {sb : Superblock} {image changed : Bytes} {addrs addrs' : Nat → Nat} {b bn : Nat}
  {ref : Option Nat} {needed : Finset (Option Nat)} {recurring : Finset Nat} {log : Log}

/-! ## The blocks of a range -/

/-- The indices of the blocks that a range of bytes is in. -/
def blocksOf (off n : Nat) : Finset Nat := (Finset.Ico off (off + n)).image (· / bsize)

/-- The places in which `bmap` looks for the blocks of a range. -/
def neededFor (off n : Nat) : Finset (Option Nat) := (blocksOf off n).biUnion placesOf

theorem mem_blocksOf :
    bn ∈ blocksOf off n ↔ ∃ pos, (off ≤ pos ∧ pos < off + n) ∧ pos / bsize = bn := by
  rw [blocksOf, Finset.mem_image]
  simp only [Finset.mem_Ico]

theorem placesOf_subset_neededFor (mem : bn ∈ blocksOf off n) :
    placesOf bn ⊆ neededFor off n := Finset.subset_biUnion_of_mem _ mem

/-- The first piece of a range is in the first of its blocks, and the rest is in the others. -/
theorem blocksOf_piece (piece : m = min left (bsize - off % bsize)) (more : 0 < left) :
    off / bsize ∉ blocksOf (off + m) (left - m) ∧
      blocksOf off left = insert (off / bsize) (blocksOf (off + m) (left - m)) := by
  have here := Nat.div_add_mod' off bsize
  have inBlock : off % bsize < bsize := Nat.mod_lt _ (by decide)
  have inPiece : ∀ pos, off ≤ pos → pos < off + left →
      (pos / bsize = off / bsize ↔ pos < off + m) := by
    intro pos low high
    rw [Nat.div_eq_iff (by decide)]
    omega
  constructor
  · intro mem
    obtain ⟨pos, ⟨low, high⟩, same⟩ := mem_blocksOf.mp mem
    have := (inPiece pos (by omega) (by omega)).mp same
    omega
  ext bn
  rw [Finset.mem_insert, mem_blocksOf, mem_blocksOf]
  constructor
  · rintro ⟨pos, ⟨low, high⟩, rfl⟩
    by_cases first : pos < off + m
    · exact .inl ((inPiece pos low high).mpr first)
    · exact .inr ⟨pos, by omega, rfl⟩
  · rintro (rfl | ⟨pos, inside, rfl⟩)
    · exact ⟨off, by omega, rfl⟩
    · exact ⟨pos, by omega, rfl⟩

/-! ## Free blocks -/

/-- There is a free block for every place that needs one. -/
def Enough (sb : Superblock) (image : Bytes) (addrs : Nat → Nat) (needed : Finset (Option Nat)) :
    Prop :=
  (needed.filter fun ref => pointer image addrs ref = 0).card ≤ (freeBlocks sb image).card

theorem Enough.nonempty (enough : Enough sb image addrs needed) (mem : ref ∈ needed)
    (empty : pointer image addrs ref = 0) : (freeBlocks sb image).Nonempty := by
  have missing : 0 < (needed.filter fun ref => pointer image addrs ref = 0).card :=
    Finset.card_pos.mpr ⟨ref, Finset.mem_filter.mpr ⟨mem, empty⟩⟩
  exact Finset.card_pos.mp (Nat.lt_of_lt_of_le missing enough)

theorem enough_of_points
    (points : ∀ pos, off ≤ pos → pos < off + n → pointer image addrs (some (pos / bsize)) ≠ 0) :
    Enough sb image addrs (neededFor off n) := by
  have none : (neededFor off n).filter (fun ref => pointer image addrs ref = 0) = ∅ := by
    apply Finset.filter_eq_empty_iff.mpr
    intro ref mem
    obtain ⟨bn, isBlock, place⟩ := Finset.mem_biUnion.mp mem
    obtain ⟨pos, ⟨low, high⟩, rfl⟩ := mem_blocksOf.mp isBlock
    cases ref with
    | none =>
      intro unmade
      exact points pos low high (pointer_unmade (none_mem_placesOf.mp place) unmade)
    | some bn =>
      obtain rfl : bn = pos / bsize := by
        rw [placesOf] at place
        split at place <;> simpa using place
      exact points pos low high
  rw [Enough, none]
  exact Nat.zero_le _

theorem Assigns.enough_iff (placed : Placed sb image addrs)
    (assigns : Assigns sb image addrs ref b changed addrs') (mem : ref ∈ needed) :
    Enough sb changed addrs' needed ↔ Enough sb image addrs needed := by
  have missing : (needed.filter fun ref => pointer changed addrs' ref = 0) =
      (needed.filter fun ref => pointer image addrs ref = 0).erase ref := by
    ext other
    simp only [Finset.mem_filter, Finset.mem_erase]
    by_cases isRef : other = ref
    · have nonzero := placed.ne_zero assigns.small assigns.free
      rw [isRef, assigns.self]
      exact ⟨fun both => absurd both.2 nonzero, fun both => absurd rfl both.1⟩
    · rw [assigns.others other isRef]
      exact ⟨fun both => ⟨isRef, both⟩, fun both => both.2⟩
  have wasMissing : ref ∈ needed.filter fun ref => pointer image addrs ref = 0 :=
    Finset.mem_filter.mpr ⟨mem, assigns.empty⟩
  have positive : 0 < (freeBlocks sb image).card := Finset.card_pos.mpr ⟨b, assigns.mem_freeBlocks⟩
  rw [Enough, Enough, missing, assigns.freeBlocks_eq, Finset.card_erase_of_mem wasMissing,
    Finset.card_erase_of_mem assigns.mem_freeBlocks]
  exact Nat.sub_le_sub_iff_right positive

theorem Assigned.enough_iff (placed : Placed sb image addrs)
    (assigned : Assigned sb allowed image addrs changed addrs')
    (isNeeded : ∀ ref, allowed ref → ref ∈ needed) :
    Enough sb changed addrs' needed ↔ Enough sb image addrs needed := by
  induction assigned with
  | refl => rfl
  | step prior assigns isAllowed ih =>
    rw [assigns.enough_iff (prior.placed placed) (isNeeded _ isAllowed), ih]

/-! ## The log -/

/-- The number of blocks at which `log_write` panics. -/
def logRoom (sb : Superblock) : Nat := min logSize (sb.nlog - 1)

theorem Log.not_refuses (inside : 1 ≤ log.outstanding) (room : log.block.length < logRoom sb) :
    ¬ log.Refuses sb := by
  rw [logRoom] at room
  rintro (full | full | outside) <;> omega

/-- The blocks in the log, and those that will be in it if they are not yet. -/
def Log.cost (log : Log) (recurring : Finset Nat) : Nat :=
  log.block.length + (recurring \ log.block.toFinset).card

theorem Log.length_le_cost (log : Log) (recurring : Finset Nat) :
    log.block.length ≤ log.cost recurring := Nat.le_add_right _ _

theorem Log.cost_le (log : Log) (recurring : Finset Nat) :
    log.cost recurring ≤ log.block.length + recurring.card :=
  Nat.add_le_add_left (Finset.card_le_card Finset.sdiff_subset) _

theorem Log.mem_add (log : Log) (b : Nat) : b ∈ (log.add b).block := by
  rw [Log.add]
  split
  · assumption
  · exact List.mem_append_right _ (List.mem_singleton.mpr rfl)

theorem Log.mem_add_of_mem (mem : c ∈ log.block) (b : Nat) : c ∈ (log.add b).block := by
  rw [Log.add]
  split
  · exact mem
  · exact List.mem_append_left _ mem

theorem Log.add_outstanding (log : Log) (b : Nat) : (log.add b).outstanding = log.outstanding := by
  rw [Log.add]
  split <;> rfl

theorem Log.cost_add (log : Log) (recurring : Finset Nat) (b : Nat) :
    (log.add b).cost recurring ≤
      log.cost recurring + if b ∈ recurring ∨ b ∈ log.block then 0 else 1 := by
  rw [Log.add]
  by_cases logged : b ∈ log.block
  · rw [if_pos logged]
    exact Nat.le_add_right _ _
  rw [if_neg logged, Log.cost, Log.cost, List.length_append, List.length_singleton,
    List.toFinset_append]
  have fewer : recurring \ (log.block.toFinset ∪ [b].toFinset) =
      (recurring \ log.block.toFinset).erase b := by
    ext c
    simp only [Finset.mem_sdiff, Finset.mem_union, List.mem_toFinset, List.mem_singleton,
      Finset.mem_erase]
    tauto
  rw [fewer]
  by_cases recurs : b ∈ recurring
  · have mem : b ∈ recurring \ log.block.toFinset :=
      Finset.mem_sdiff.mpr ⟨recurs, fun isLogged => logged (List.mem_toFinset.mp isLogged)⟩
    have positive := Finset.card_pos.mpr ⟨b, mem⟩
    rw [if_pos (.inl recurs), Finset.card_erase_of_mem mem]
    omega
  · have := Finset.card_erase_le (s := recurring \ log.block.toFinset) (a := b)
    rw [if_neg (by tauto)]
    omega

theorem Log.cost_add_known (known : b ∈ recurring ∨ b ∈ log.block) :
    (log.add b).cost recurring ≤ log.cost recurring := by
  have := log.cost_add recurring b
  rwa [if_pos known] at this

theorem Log.cost_add_le (log : Log) (recurring : Finset Nat) (b : Nat) :
    (log.add b).cost recurring ≤ log.cost recurring + 1 := by
  have := log.cost_add recurring b
  split at this <;> omega

/-! ## `bmap` returns a block -/

/-- The transaction has room for `k` more blocks, and for the indirect block if the file
has none. -/
structure Budget (sb : Superblock) (recurring : Finset Nat) (log : Log) (addrs : Nat → Nat)
    (k : Nat) : Prop where
  outstanding : 1 ≤ log.outstanding
  bitmaps : ∀ b < sb.size, bblock b sb ∈ recurring
  indirect : addrs ndirect ≠ 0 → addrs ndirect ∈ recurring ∨ addrs ndirect ∈ log.block
  room : log.cost recurring + k + (if addrs ndirect = 0 then 1 else 0) < logRoom sb

namespace Budget

variable {k : Nat} (budget : Budget sb recurring log addrs k)
include budget

theorem not_refuses : ¬ log.Refuses sb := by
  have := log.length_le_cost recurring
  have := budget.room
  exact Log.not_refuses budget.outstanding (by omega)

theorem add_known (known : b ∈ recurring ∨ b ∈ log.block) :
    Budget sb recurring (log.add b) addrs k where
  outstanding := (log.add_outstanding b).symm ▸ budget.outstanding
  bitmaps := budget.bitmaps
  indirect := fun made => (budget.indirect made).imp id fun mem => Log.mem_add_of_mem mem b
  room := by
    have := Log.cost_add_known known
    have := budget.room
    omega

end Budget

variable {store : Store} {k : Nat}

theorem Budget.add (budget : Budget sb recurring log addrs (k + 1)) (b : Nat) :
    Budget sb recurring (log.add b) addrs k where
  outstanding := (log.add_outstanding b).symm ▸ budget.outstanding
  bitmaps := budget.bitmaps
  indirect := fun made => (budget.indirect made).imp id fun mem => Log.mem_add_of_mem mem b
  room := by
    have := log.cost_add_le recurring b
    have := budget.room
    omega

/-- `balloc` returns a block when there is a free one and room for it in the log. -/
theorem balloc_returns (budget : Budget sb recurring store.log addrs (k + 1))
    (nonempty : (freeBlocks sb store.image).Nonempty) :
    ∃ b, b < sb.size ∧ isFree sb store.image b = true ∧
      balloc sb store =
        some (⟨allocate sb store.image b, (store.log.add (bblock b sb)).add b⟩, b) := by
  obtain ⟨c, mem⟩ := nonempty
  rw [freeBlocks, Finset.mem_filter, Finset.mem_range] at mem
  obtain ⟨b, found⟩ := Option.isSome_iff_exists.mp
    (List.find?_isSome.mpr ⟨c, List.mem_range.mpr mem.1, mem.2⟩)
  have small := List.mem_range.mp (List.mem_of_find?_eq_some found)
  have marks := budget.add_known (.inl (budget.bitmaps b small))
  refine ⟨b, small, List.find?_some found, ?_⟩
  simp only [balloc, found, bzero, logWrite, if_neg budget.not_refuses, Option.bind_eq_bind,
    Option.bind_some, if_neg marks.not_refuses]
  rfl

section

variable (placed : Placed sb store.image addrs)
  (budget : Budget sb recurring store.log addrs (k + 1))
include placed budget

theorem entryOrBalloc_returns (behind : ndirect ≤ bn) (inside : bn < maxfile)
    (made : addrs ndirect ≠ 0) (enough : Enough sb store.image addrs needed)
    (isNeeded : some bn ∈ needed) :
    ∃ store' addr, entryOrBalloc sb store (addrs ndirect) (bn - ndirect) = some (store', addr) ∧
      addr ≠ 0 ∧ Budget sb recurring store'.log addrs
        (k + if addr ∈ store'.log.block then 0 else 1) := by
  unfold entryOrBalloc
  by_cases empty : entry (bread store.image (addrs ndirect)) (bn - ndirect) = 0
  · have missing : pointer store.image addrs (some bn) = 0 :=
      (pointer_indirect behind inside made).trans empty
    obtain ⟨b, small, free, allocated⟩ := balloc_returns budget (enough.nonempty isNeeded missing)
    have nonzero := placed.ne_zero small free
    have grown := (budget.add_known (.inl (budget.bitmaps b small))).add b
    have written := grown.add_known (grown.indirect made)
    simp only [if_pos empty, allocated, Option.bind_some, if_neg nonzero, logWrite,
      if_neg grown.not_refuses, Option.map_some]
    refine ⟨_, _, rfl, nonzero, ?_⟩
    rw [if_pos (Log.mem_add_of_mem (Log.mem_add _ _) _)]
    exact written
  simp only [if_neg empty]
  refine ⟨_, _, rfl, empty, ?_⟩
  split
  · exact { budget with room := by have := budget.room; omega }
  · exact budget

/-- `bmap` returns a block when there are enough of them and room in the log. The block
is in the log already, or there is room left for it. -/
theorem bmap_returns (inside : bn < maxfile) (enough : Enough sb store.image addrs needed)
    (isNeeded : placesOf bn ⊆ needed) :
    ∃ store' addrs' addr, bmap sb store addrs bn = some (store', addrs', addr) ∧ addr ≠ 0 ∧
      Budget sb recurring store'.log addrs' (k + if addr ∈ store'.log.block then 0 else 1) := by
  have dataNeeded : some bn ∈ needed := isNeeded (some_mem_placesOf bn)
  unfold bmap
  by_cases direct : bn < ndirect
  · rw [if_pos direct, addrOrBalloc]
    by_cases empty : addrs bn = 0
    · have missing : pointer store.image addrs (some bn) = 0 := (pointer_direct direct).trans empty
      obtain ⟨b, small, free, allocated⟩ := balloc_returns budget
        (enough.nonempty dataNeeded missing)
      have nonzero := placed.ne_zero small free
      have grown := (budget.add_known (.inl (budget.bitmaps b small))).add b
      have same : update addrs bn b ndirect = addrs ndirect :=
        update_of_ne direct.ne' _ _
      simp only [if_pos empty, allocated, Option.map_some, if_neg nonzero]
      refine ⟨_, _, _, rfl, nonzero, ?_⟩
      rw [if_pos (Log.mem_add _ _)]
      exact ⟨grown.outstanding, grown.bitmaps, same ▸ grown.indirect, same ▸ grown.room⟩
    simp only [if_neg empty]
    refine ⟨_, _, _, rfl, empty, ?_⟩
    split
    · exact { budget with room := by have := budget.room; omega }
    · exact budget
  have behind := Nat.not_lt.mp direct
  have indirectNeeded : none ∈ needed := isNeeded (none_mem_placesOf.mpr behind)
  have index : bn - ndirect < nindirect := by
    rw [maxfile] at inside
    omega
  rw [if_neg direct, if_pos index, bmapIndirect, addrOrBalloc]
  by_cases unmade : addrs ndirect = 0
  · obtain ⟨x, small, free, allocated⟩ := balloc_returns budget
      (enough.nonempty indirectNeeded unmade)
    have nonzero := placed.ne_zero small free
    have made : update addrs ndirect x ndirect ≠ 0 := by
      exact nonzero
    obtain ⟨middle, middle_eq⟩ : ∃ middle : Store, middle =
      ⟨allocate sb store.image x, (store.log.add (bblock x sb)).add x⟩ := ⟨_, rfl⟩
    have assigns : Assigns sb store.image addrs none x middle.image
        (update addrs ndirect x) := by
      rw [middle_eq]
      exact placed.assignsIndirect small free unmade
    have grown : Budget sb recurring middle.log (update addrs ndirect x) (k + 1) := by
      rw [middle_eq]
      change Budget sb recurring ((store.log.add (bblock x sb)).add x) _ _
      have marked := budget.add_known (.inl (budget.bitmaps x small))
      constructor
      case outstanding => exact (Log.add_outstanding _ _).symm ▸ marked.outstanding
      case bitmaps => exact budget.bitmaps
      case indirect =>
        exact fun _ => .inr (Log.mem_add _ _)
      case room =>
        have cost := (store.log.add (bblock x sb)).cost_add_le recurring x
        have room := marked.room
        rw [if_pos unmade] at room
        rw [if_neg made]
        omega
    obtain ⟨store', addr, returned, found, left⟩ := entryOrBalloc_returns
      (assigns.placed placed) grown behind inside made
      ((assigns.enough_iff placed indirectNeeded).mpr enough) dataNeeded
    rw [update_self] at returned
    simp only [if_pos unmade, allocated, Option.map_some, if_neg nonzero, Option.bind_some,
      ← middle_eq, returned]
    exact ⟨_, _, _, rfl, found, left⟩
  · obtain ⟨store', addr, returned, nonzero, left⟩ := entryOrBalloc_returns placed budget behind
      inside unmade enough dataNeeded
    simp only [if_neg unmade, Option.bind_some, returned, Option.map_some]
    exact ⟨_, _, _, rfl, nonzero, left⟩

end

end Xv6.Disk
