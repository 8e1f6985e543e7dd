import Mathlib.Algebra.Order.Ring.Int
import Mathlib.Data.List.FinRange
import Xv6.Semantics.Execution
import Xv6.Semantics.Window

/-!
# The disk driver

`virtio_disk.c` with its callers and the device. What is done under `vdisk_lock` is one
step: `virtio_disk_rw` up to a `sleep`, and one round of the loop of
`virtio_disk_intr`. The callers hold the sleep-lock of the buffer, as `bread` and
`bwrite` do. The device takes the chains from the available ring in order, works on any
number of them at a time, and puts each into the used ring when it has written the
status. The bytes that it moves are not part of the model.
-/

namespace Xv6.Virtio

open Function Xv6.Semantics

/-- `NUM`: the number of descriptors. -/
def num : Nat := 8

instance : NeZero num := ⟨by decide⟩

/-- The number of a descriptor. -/
abbrev Index := Fin num

/-- What a descriptor points to. -/
inductive Address (B : Type) where
  | null
  /-- `&disk.ops[i]`. -/
  | request (i : Index)
  /-- `b->data`. -/
  | data (b : B)
  /-- `&disk.info[i].status`. -/
  | status (i : Index)

/-- `VRING_DESC_F_NEXT`. -/
def flagNext : BitVec 16 := 1

/-- `VRING_DESC_F_WRITE`. -/
def flagWrite : BitVec 16 := 2

/-- `struct virtq_desc`. -/
structure Desc (B : Type) where
  addr : Address B
  len : Nat
  flags : BitVec 16
  next : Nat

/-- The descriptor that `free_desc` leaves. -/
def Desc.zero {B : Type} : Desc B := ⟨.null, 0, 0, 0⟩

/-- `struct virtio_blk_req`. -/
structure Request where
  write : Bool
  reserved : Nat
  sector : Nat

/-- An element of `disk.info`. -/
structure Info (B : Type) where
  b : Option B
  status : BitVec 8

/-- `struct disk`, with the queue memory. -/
structure Disk (B : Type) where
  desc : Index → Desc B
  /-- `avail->ring`. -/
  availRing : Index → Index
  /-- `avail->idx`. -/
  availIdx : BitVec 16
  /-- `used->ring[].id`. -/
  usedRing : Index → Index
  /-- `used->idx`, which the device advances. -/
  usedRingIdx : BitVec 16
  free : Index → Bool
  /-- `disk.used_idx`, which the driver advances. -/
  usedIdx : BitVec 16
  info : Index → Info B
  ops : Index → Request

namespace Disk

variable {B : Type}

def setFree (disk : Disk B) (i : Index) (value : Bool) : Disk B :=
  { disk with free := update disk.free i value }

def setDesc (disk : Disk B) (i : Index) (desc : Desc B) : Disk B :=
  { disk with desc := update disk.desc i desc }

def setInfo (disk : Disk B) (i : Index) (info : Info B) : Disk B :=
  { disk with info := update disk.info i info }

/-- `alloc_desc`: the first free descriptor, or `none` for -1. -/
def allocDesc (disk : Disk B) : Option (Disk B × Index) :=
  ((List.finRange num).find? disk.free).map fun i => (disk.setFree i false, i)

/-- `free_desc`. The result is `none` where it panics. -/
def freeDesc (disk : Disk B) (i : Nat) : Option (Disk B) :=
  if inside : i < num then
    if disk.free ⟨i, inside⟩ then none
    else some ((disk.setDesc ⟨i, inside⟩ .zero).setFree ⟨i, inside⟩ true)
  else none

/-- `free_chain`: it frees a descriptor after it has read it. The result is `none` where
`free_desc` panics. -/
def freeChain : (fuel : Nat) → Disk B → (i : Nat) → Option (Disk B)
  | 0, _, _ => none
  | fuel + 1, disk, i =>
    (disk.freeDesc i).bind fun freed =>
      let desc := disk.desc (Fin.ofNat num i)
      if desc.flags &&& flagNext ≠ 0 then freeChain fuel freed desc.next else some freed

/-- `alloc3_desc`. The inner `none` is for -1, when what has been allocated is freed
again; the outer one is for a panic. -/
def alloc3Desc (disk : Disk B) : Option (Disk B × Option (Index × Index × Index)) :=
  match disk.allocDesc with
  | none => some (disk, none)
  | some (first, i) =>
    match first.allocDesc with
    | none => (first.freeDesc i).map fun disk => (disk, none)
    | some (second, j) =>
      match second.allocDesc with
      | none =>
        (second.freeDesc i).bind fun disk => (disk.freeDesc j).map fun disk => (disk, none)
      | some (third, k) => some (third, some (i, j, k))

/-- `virtio_disk_rw` formats the three descriptors and tells the device. -/
def submit (disk : Disk B) (b : B) (blockno : Nat) (write : Bool) (i j k : Index) : Disk B :=
  { disk with
    ops := update disk.ops i ⟨write, 0, blockno * 2⟩
    desc := update (update (update disk.desc
      i ⟨.request i, 16, flagNext, j.val⟩)
      j ⟨.data b, 1024, (if write then 0 else flagWrite) ||| flagNext, k.val⟩)
      k ⟨.status i, 1, flagWrite, 0⟩
    info := update disk.info i ⟨some b, 0xff⟩
    availRing := update disk.availRing (slotOf num disk.availIdx) i
    availIdx := disk.availIdx + 1 }

/-- The device has finished with a chain: it writes the status to where the third
descriptor points, and puts the head into the used ring. -/
def complete (disk : Disk B) (head : Index) (status : BitVec 8) : Disk B :=
  let second := Fin.ofNat num (disk.desc head).next
  let third := Fin.ofNat num (disk.desc second).next
  let info :=
    match (disk.desc third).addr with
    | .status i => update disk.info i { disk.info i with status := status }
    | _ => disk.info
  { disk with
    info := info
    usedRing := update disk.usedRing (slotOf num disk.usedRingIdx) head
    usedRingIdx := disk.usedRingIdx + 1 }

end Disk

/-! ## The system -/

/-- Where a process is in `virtio_disk_rw`. -/
inductive Task (B : Type) where
  | outside
  /-- It sleeps on `disk.free`, since `alloc3_desc` has failed. -/
  | waits (b : B) (blockno : Nat) (write : Bool)
  /-- It sleeps on `b` until the request is done; `idx` is the chain. -/
  | sleeps (b : B) (i j k : Index)
  | panicked

/-- The driver, the buffers, the processes and the device. -/
structure State (P B : Type) where
  disk : Disk B
  /-- `b->disk`. -/
  busy : B → Bool
  /-- The process that holds the sleep-lock of a buffer. -/
  lock : B → Option P
  task : P → Task B
  /-- How far the device has read the available ring. -/
  fetched : BitVec 16
  /-- The chains that the device works on. -/
  pending : List Index
  /-- `virtio_disk_intr` has panicked. -/
  stuck : Bool

variable {P B : Type} [DecidableEq P] [DecidableEq B]

def State.setTask (state : State P B) (p : P) (task : Task B) : State P B :=
  { state with task := update state.task p task }

/-- `virtio_disk_rw` with `vdisk_lock`, up to a `sleep`. -/
def State.tries (state : State P B) (p : P) (b : B) (blockno : Nat) (write : Bool) : State P B :=
  match state.disk.alloc3Desc with
  | none => state.setTask p .panicked
  | some (disk, none) => { state.setTask p (.waits b blockno write) with disk := disk }
  | some (disk, some (i, j, k)) =>
    { state.setTask p (.sleeps b i j k) with
      disk := disk.submit b blockno write i j k
      busy := update state.busy b true }

/-- The steps of the processes, of the interrupt handler and of the device. -/
inductive Label (P B : Type) where
  | acquiresleep (p : P) (b : B)
  | releasesleep (p : P) (b : B)
  /-- `virtio_disk_rw(b, write)`. -/
  | rw (p : P) (b : B) (blockno : Nat) (write : Bool)
  /-- A process that sleeps on `disk.free` is woken. -/
  | retry (p : P)
  /-- A process that sleeps on its buffer is woken when `b->disk` is 0. -/
  | finish (p : P)
  /-- A round of the loop of `virtio_disk_intr`. -/
  | intr
  /-- The device takes the next chain from the available ring. -/
  | fetch
  /-- The device has finished with a chain. -/
  | complete (head : Index) (status : BitVec 8)

/-- One step. The result is `none` where it is not possible. -/
def step (state : State P B) : Label P B → Option (State P B)
  | .acquiresleep p b =>
    match state.task p, state.lock b with
    | .outside, none => some { state with lock := update state.lock b (some p) }
    | _, _ => none
  | .releasesleep p b =>
    match state.task p with
    | .outside =>
      if state.lock b = some p then some { state with lock := update state.lock b none }
      else none
    | _ => none
  | .rw p b blockno write =>
    match state.task p with
    | .outside => if state.lock b = some p then some (state.tries p b blockno write) else none
    | _ => none
  | .retry p =>
    match state.task p with
    | .waits b blockno write => some (state.tries p b blockno write)
    | _ => none
  | .finish p =>
    match state.task p with
    | .sleeps b i _ _ =>
      if state.busy b then none
      else
        match (state.disk.setInfo i { state.disk.info i with b := none }).freeChain num i with
        | some disk => some { state.setTask p .outside with disk := disk }
        | none => some (state.setTask p .panicked)
    | _ => none
  | .intr =>
    if state.stuck ∨ state.disk.usedIdx = state.disk.usedRingIdx then none
    else
      let info := state.disk.info (state.disk.usedRing (slotOf num state.disk.usedIdx))
      match info.b with
      | some b =>
        if info.status ≠ 0 then some { state with stuck := true }
        else some { state with
          busy := update state.busy b false
          disk := { state.disk with usedIdx := state.disk.usedIdx + 1 } }
      | none => some { state with stuck := true }
  | .fetch =>
    if state.fetched = state.disk.availIdx then none
    else some { state with
      pending := state.pending ++ [state.disk.availRing (slotOf num state.fetched)]
      fetched := state.fetched + 1 }
  | .complete head status =>
    if head ∈ state.pending then
      some { state with
        pending := state.pending.erase head
        disk := state.disk.complete head status }
    else none

/-- After `virtio_disk_init`: everything is free, and the counters are 0. -/
structure State.Initial (state : State P B) : Prop where
  free : ∀ i, state.disk.free i = true
  outside : ∀ p, state.task p = .outside
  avail : state.fetched = 0 ∧ state.disk.availIdx = 0
  used : state.disk.usedIdx = 0 ∧ state.disk.usedRingIdx = 0
  pending : state.pending = []
  stuck : state.stuck = false

/-- The driver with its callers and the device. -/
def driver (P B : Type) [DecidableEq P] [DecidableEq B] :
    TransitionSystem (State P B) (Label P B) := .ofStep State.Initial step

end Xv6.Virtio
