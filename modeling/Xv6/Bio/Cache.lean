import Xv6.Param
import Xv6.Semantics.Execution
import Xv6.Semantics.Ring

/-!
# The buffer cache

`bio.c` with its callers. What is done under `bcache.lock` is one step; the
sleep-lock of a buffer is taken and given back in steps of their own, so `bget`
has dropped `bcache.lock` before it waits for the buffer, and `brelse` has given
the buffer back before it drops the reference. The disk serves a request for a
block of a device; its driver is not part of the model.
-/

namespace Xv6.Bio

open Function Xv6.Semantics

/-- An entry of `bcache.buf`. -/
abbrev Index := Fin nbuf

/-- A process. -/
abbrev Proc := Fin nproc

/-- `struct buf`, without its list pointers. `lock` is the process that holds the
sleep-lock. -/
structure Buf (Block : Type) where
  valid : Bool
  dev : Nat
  blockno : Nat
  lock : Option Proc
  refcnt : BitVec 32
  data : Block

/-- Where a process is in the calls of `bio.c`. -/
inductive Thread where
  | outside
  /-- `bread(dev, blockno)` has chosen `b` and waits for its sleep-lock. -/
  | sleeps (dev blockno : Nat) (b : Index)
  /-- `bread(dev, blockno)` has the sleep-lock. -/
  | reads (dev blockno : Nat) (b : Index)
  /-- `brelse(b)` has given the sleep-lock back. -/
  | drops (b : Index)
  | panicked
  deriving DecidableEq

/-- `bcache` with the disk and the processes. -/
structure Cache (Block : Type) where
  buf : Index → Buf Block
  list : LinkedRing Index
  disk : Nat → Nat → Block
  thread : Proc → Thread
  /-- A process has panicked while it held `bcache.lock`. -/
  stuck : Bool

variable {Block : Type}

/-- The buffer is for this block. -/
def Buf.isFor (buf : Buf Block) (dev blockno : Nat) : Bool := buf.dev = dev ∧ buf.blockno = blockno

namespace Cache

def setBuf (cache : Cache Block) (b : Index) (buf : Buf Block) : Cache Block :=
  { cache with buf := update cache.buf b buf }

def setThread (cache : Cache Block) (p : Proc) (thread : Thread) : Cache Block :=
  { cache with thread := update cache.thread p thread }

def setDisk (cache : Cache Block) (dev blockno : Nat) (data : Block) : Cache Block :=
  { cache with
    disk := fun d n => if d = dev ∧ n = blockno then data else cache.disk d n }

/-- The first loop of `bget`: the buffer that caches the block. -/
def cached (cache : Cache Block) (dev blockno : Nat) : Option Index :=
  LinkedRing.search cache.list.next (fun b => (cache.buf b).isFor dev blockno) (nbuf + 1)
    (cache.list.next none)

/-- The second loop of `bget`: the least recently used buffer without references. -/
def unused (cache : Cache Block) : Option Index :=
  LinkedRing.search cache.list.prev (fun b => (cache.buf b).refcnt = 0) (nbuf + 1) (cache.list.prev none)

/-- `bget` up to its release of `bcache.lock`. -/
def bget (cache : Cache Block) (dev blockno : Nat) : Option (Index × Cache Block) :=
  match cache.cached dev blockno with
  | some b =>
    some (b, cache.setBuf b { cache.buf b with refcnt := (cache.buf b).refcnt + 1 })
  | none =>
    match cache.unused with
    | some b =>
      some (b, cache.setBuf b
        { cache.buf b with dev := dev, blockno := blockno, valid := false, refcnt := 1 })
    | none => none

/-- `brelse` under `bcache.lock`. -/
def drop (cache : Cache Block) (b : Index) : Cache Block :=
  let buf := { cache.buf b with refcnt := (cache.buf b).refcnt - 1 }
  let dropped := cache.setBuf b buf
  if buf.refcnt = 0 then { dropped with list := (dropped.list.unlink b).pushFront b } else dropped

end Cache

/-- The steps of the processes: those of `bio.c`, and `modify`, with which a caller
writes `b->data`. -/
inductive Label (Block : Type) where
  | bread (p : Proc) (dev blockno : Nat)
  | acquiresleep (p : Proc)
  | fetch (p : Proc)
  | modify (p : Proc) (b : Index) (data : Block)
  | bwrite (p : Proc) (b : Index)
  | brelse (p : Proc) (b : Index)
  | drop (p : Proc)
  | bpin (p : Proc) (b : Index)
  | bunpin (p : Proc) (b : Index)

/-- One step. The result is `none` where the process has to wait, or is elsewhere. -/
def step (cache : Cache Block) : Label Block → Option (Cache Block)
  | .bread p dev blockno =>
    if cache.stuck ∨ cache.thread p ≠ .outside then none
    else match cache.bget dev blockno with
    | some (b, got) => some (got.setThread p (.sleeps dev blockno b))
    | none => some { cache.setThread p .panicked with stuck := true }
  | .acquiresleep p =>
    match cache.thread p with
    | .sleeps dev blockno b =>
      if (cache.buf b).lock = none then
        some ((cache.setBuf b { cache.buf b with lock := some p }).setThread p
          (.reads dev blockno b))
      else none
    | _ => none
  | .fetch p =>
    match cache.thread p with
    | .reads _ _ b =>
      let buf := cache.buf b
      let loaded :=
        if buf.valid then buf
        else { buf with data := cache.disk buf.dev buf.blockno, valid := true }
      some ((cache.setBuf b loaded).setThread p .outside)
    | _ => none
  | .modify p b data =>
    if cache.thread p ≠ .outside then none
    else some (cache.setBuf b { cache.buf b with data := data })
  | .bwrite p b =>
    if cache.thread p ≠ .outside then none
    else if (cache.buf b).lock ≠ some p then some (cache.setThread p .panicked)
    else some (cache.setDisk (cache.buf b).dev (cache.buf b).blockno (cache.buf b).data)
  | .brelse p b =>
    if cache.thread p ≠ .outside then none
    else if (cache.buf b).lock ≠ some p then some (cache.setThread p .panicked)
    else some ((cache.setBuf b { cache.buf b with lock := none }).setThread p (.drops b))
  | .drop p =>
    match cache.thread p with
    | .drops b => if cache.stuck then none else some ((cache.drop b).setThread p .outside)
    | _ => none
  | .bpin p b =>
    if cache.stuck ∨ cache.thread p ≠ .outside then none
    else some (cache.setBuf b { cache.buf b with refcnt := (cache.buf b).refcnt + 1 })
  | .bunpin p b =>
    if cache.stuck ∨ cache.thread p ≠ .outside then none
    else some (cache.setBuf b { cache.buf b with refcnt := (cache.buf b).refcnt - 1 })

/-- `binit`. -/
def binit : LinkedRing Index := (List.finRange nbuf).foldl LinkedRing.pushFront .empty

/-- A cache after `binit`, in zeroed memory, on any disk. -/
def Cache.Initial (cache : Cache Block) : Prop :=
  cache.list = binit ∧ (∀ p, cache.thread p = .outside) ∧ cache.stuck = false ∧
    ∀ b, (cache.buf b).valid = false ∧ (cache.buf b).dev = 0 ∧ (cache.buf b).blockno = 0 ∧
      (cache.buf b).lock = none ∧ (cache.buf b).refcnt = 0

/-- What the callers have done: the contents that they have last stored in each
block, how often each buffer is pinned, and which buffers they have modified since
they were last written to the disk. -/
structure Record (Block : Type) where
  stored : Nat → Nat → Block
  pins : Index → Nat
  dirty : Index → Bool

/-- The record after a step. -/
def record (cache : Cache Block) (before : Record Block) : Label Block → Record Block
  | .modify _ b data =>
    { before with
      stored := fun dev blockno =>
        if dev = (cache.buf b).dev ∧ blockno = (cache.buf b).blockno then data
        else before.stored dev blockno
      dirty := update before.dirty b true }
  | .bwrite p b =>
    if (cache.buf b).lock = some p then
      { before with dirty := update before.dirty b false }
    else before
  | .bpin _ b => { before with pins := update before.pins b (before.pins b + 1) }
  | .bunpin _ b => { before with pins := update before.pins b (before.pins b - 1) }
  | _ => before

/-- The cache with the record of its callers. -/
abbrev Observed (Block : Type) := Cache Block × Record Block

/-- A step, which is recorded. -/
def observedStep (state : Observed Block) (label : Label Block) : Option (Observed Block) :=
  (step state.1 label).map fun next => (next, record state.1 state.2 label)

/-- Before the first call the contents of a block are those of the disk. -/
def Observed.Initial (state : Observed Block) : Prop :=
  state.1.Initial ∧ state.2.stored = state.1.disk ∧ (∀ b, state.2.pins b = 0) ∧
    ∀ b, state.2.dirty b = false

/-- The buffer cache. -/
def bcache (Block : Type) : TransitionSystem (Observed Block) (Label Block) :=
  .ofStep Observed.Initial observedStep

/-- The callers use only buffers that they hold, and pin a buffer (`log_write`) or
write it (`bwrite`) before they release it, if they have modified it. Only a pin that
has been taken is taken back, and while the buffer is modified only by its holder
(`install_trans` writes it first); the log pins no block more than `LOGSIZE` times. -/
def Obeys (state : Observed Block) : Label Block → Prop
  | .modify p b _ => (state.1.buf b).lock = some p
  | .brelse _ b => state.2.dirty b = true → 0 < state.2.pins b
  | .bpin p b => (state.1.buf b).lock = some p ∧ state.2.pins b < logSize
  | .bunpin p b => 0 < state.2.pins b ∧ (state.2.dirty b = true → (state.1.buf b).lock = some p)
  | _ => True

instance (state : Observed Block) (label : Label Block) : Decidable (Obeys state label) := by
  cases label <;> unfold Obeys <;> infer_instance

end Xv6.Bio
