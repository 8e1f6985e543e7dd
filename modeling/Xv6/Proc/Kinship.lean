import Xv6.Proc.Family

/-!
# What a thread knows about its relatives

The parent fields, and the transition to `ZOMBIE`, change only under `wait_lock`.
A thread that holds it is at one of a few stages of `exit`, `wait` or `fork`, and
knows something about its children and its parent at each of them: which children
it has given to `init`, that its parent has been woken up, which children are not
yet `ZOMBIE`. The discipline of this module says which operations may come at
which stage.
-/

namespace Xv6.Proc

open Xv6.Semantics

/-- Where a thread is between `acquire(&wait_lock)` and `release(&wait_lock)`. -/
inductive Stage where
  /-- It does not hold `wait_lock`. -/
  | outside
  /-- It holds `wait_lock`, and knows nothing more. -/
  | inside
  /-- `reparent(p)`: no entry below `i` is a child of `p`. -/
  | reparents (p : Slot) (i : Nat)
  /-- `reparent(p)` has given a child to `init`, and its `wakeup` has come to `j`. -/
  | hands (p : Slot) (i j : Nat)
  /-- `p` has no children any more. -/
  | childless (p : Slot)
  /-- The `wakeup` of the parent of `p` has come to `j`. -/
  | wakes (p : Slot) (parent : Option Slot) (j : Nat)
  /-- `wait` in `p`: no child below `i` is a `ZOMBIE`. -/
  | scans (p : Slot) (i : Nat)
  /-- `wait` in `p` visits its child `pp`. -/
  | visits (p pp : Slot)

/-- Nobody who should be awake is asleep. -/
def Stage.Settled : Stage → Prop
  | .inside => True
  | .scans _ _ => True
  | _ => False

/-- The end of a `wakeup`, which has visited the entries from `i` on. -/
def Stage.wakeup (chan : Option Chan) (i : Nat) (next : Stage → Prop) : Stage → Prop
  | .hands p k j => chan = some (.proc initproc) ∧ j = i ∧ next (.reparents p k)
  | .wakes p parent j => chan = parent.map .proc ∧ j = i ∧ next (.wakes p parent nproc)
  | stage => next stage

/-- A visit of `wakeup` to the entry `q`. -/
def Stage.wake (chan : Option Chan) (q : Slot) (next : Stage → Prop) : Stage → Prop
  | .hands p k j => chan = some (.proc initproc) ∧ j = q.val ∧ next (.hands p k (q.val + 1))
  | .wakes p parent j =>
    chan = parent.map .proc ∧ j = q.val ∧ next (.wakes p parent (q.val + 1))
  | stage => next stage

/-- Where a thread is in the calls that concern its relatives. -/
structure Place where
  /-- The status with which it has called `exit`. -/
  exiting : Option Int
  /-- The entry that its `fork` has allocated, and whether its parent is set. -/
  infant : Option (Slot × Bool)
  stage : Stage

/-- The place of a thread outside these calls. -/
def Place.elsewhere (stage : Stage) : Place where
  exiting := none
  infant := none
  stage := stage

/-- Taking `lk`. -/
def Place.acquire (me : Option Slot) (lk : Lock) (next : Place → Prop) (place : Place) : Prop :=
  if lk = .waitLock then
    (∃ p, me = some p) ∧ place.stage = .outside ∧ next { place with stage := .inside }
  else next place

/-- A thread in the middle of `fork`, before the parent of `np` is set. -/
def Place.Bears (place : Place) (np : Slot) : Prop :=
  place.exiting = none ∧ place.infant = some (np, false) ∧ place.stage = .outside

/-- A thread that may call `fork` or `exit`. -/
def Place.Free (place : Place) : Prop :=
  place.exiting = none ∧ place.infant = none ∧ place.stage = .outside

/-- What `sys_uptime` requires of its caller. -/
def UptimeCaller.kin (me : Option Slot) (next : Place → Prop) (place : Place) :
    UptimeCaller → Prop
  | .scheduler => True
  | .allocproc _ _ np => place.Bears np ∧ next { place with infant := none }
  | .fork p np => me = some p ∧ place.Bears np ∧ next { place with infant := none }
  | _ => next place

/-- What `killed` requires of its caller. -/
def KilledCaller.kin (p : Slot) (next : Place → Prop) (place : Place) : KilledCaller → Prop
  | .usertrap => place.Free ∧ next place
  | .wait _ =>
    place.exiting = none ∧ place.stage = .scans p nproc ∧ next { place with stage := .outside }
  | _ => next place

/-- The discipline of the calls that concern relatives; `me` is the process whose
thread it is, `none` for a scheduler. -/
def kin (me : Option Slot) : Op → (Place → Prop) → Place → Prop
  | .acquire lk, next, place => place.acquire me lk next
  | .spin lk, next, place => place.acquire me lk next
  | .release lk, next, place =>
    if lk = .waitLock then place.stage.Settled ∧ next { place with stage := .outside }
    else next place
  | .panic _, _, _ => True
  | .enterLoop _, _, _ => True
  | .loop _, _, _ => True
  | .scan _ _, _, _ => True
  | .back _ _, _, _ => False
  -- sleep(), wakeup()
  | .sleep chan lk, next, place =>
    if lk = .waitLock then
      (∃ p, me = some p ∧ chan = some (.proc p) ∧ place.stage = .scans p nproc) ∧
        next { place with stage := .inside }
    else (∀ p, chan ≠ some (.proc p)) ∧ next place
  | .sleepRelease p chan lk, next, place =>
    if lk = .waitLock then
      chan = some (.proc p) ∧ place.stage = .scans p nproc ∧ next { place with stage := .outside }
    else (∀ p, chan ≠ some (.proc p)) ∧ next place
  | .wakeup chan i, next, place =>
    place.stage.wakeup chan i fun stage => next { place with stage := stage }
  | .wake chan q, next, place =>
    place.stage.wake chan q fun stage => next { place with stage := stage }
  -- killed()
  | .readKilled p caller, next, place => caller.kin p next place
  | .killedExit, next, place => place.Free ∧ next place
  -- exit(), reparent()
  | .exit _, _, place => place.Free
  | .reparent p i, next, place =>
    me = some p ∧ p ≠ initproc ∧ place.exiting ≠ none ∧
      (i = 0 ∧ place.stage = .inside ∨ place.stage = .reparents p i) ∧
        next { place with stage := .childless p }
  | .wakeParent p, next, place =>
    me = some p ∧ place.stage = .childless p ∧
      ∀ parent, next { place with stage := .wakes p parent nproc }
  | .becomeZombie p status, next, place =>
    p ≠ initproc ∧ place.exiting = some status ∧ place.infant = none ∧
      (∃ parent, place.stage = .wakes p parent nproc) ∧ next { place with stage := .inside }
  -- wait()
  | .wait _, next, place => place.exiting = none ∧ place.stage = .outside ∧ next place
  | .waitScan p _ _ i, next, place =>
    me = some p ∧ place.exiting = none ∧
      (i = 0 ∧ place.stage = .inside ∨ place.stage = .scans p i) ∧
        next { place with stage := .outside }
  | .waitChild p _ pp, next, place =>
    me = some p ∧ place.exiting = none ∧ place.stage = .visits p pp ∧
      next { place with stage := .outside }
  -- fork(), allocproc(), allocpid()
  | .fork _, next, place => place.Free ∧ next place
  | .allocproc _ _ _, next, place => place.Free ∧ next place
  | .allocFound _ _ _, next, place => place.Free ∧ next place
  | .allocpid _ _ _, next, place => place.Free ∧ next place
  | .allocInit _ _ _ _, next, place => place.Free ∧ next place
  | .allocTick _ _ np _, next, place =>
    place.Bears np ∧ next { place with infant := none }
  | .forkTick p np _, next, place =>
    me = some p ∧ place.Bears np ∧ next { place with infant := none }
  | .setParent np p, next, place =>
    me = some p ∧ place.exiting = none ∧ place.infant = some (np, false) ∧
      place.stage = .inside ∧ next { place with infant := some (np, true) }
  | .publish np, next, place =>
    place.infant = some (np, true) ∧ next { place with infant := none }
  | .uptime caller, next, place => caller.kin me next place
  | .readTicks caller, next, place => caller.kin me next place
  -- the other operations do not concern relatives
  | _, next, place => next place

/-- A process that has nothing left to do is in none of the calls. -/
def Ends (me : Option Slot) (place : Place) : Prop :=
  (∃ p, me = some p) → place = .elsewhere .outside

/-- The remaining operations of a thread follow the discipline from its place. -/
def Relates (me : Option Slot) (ops : List Op) (place : Place) : Prop :=
  Follows (kin me) (Ends me) ops place

@[simp] theorem relates_nil (me : Option Slot) : Relates me [] = Ends me := rfl

@[simp] theorem relates_cons (me : Option Slot) (op : Op) (rest : List Op) :
    Relates me (op :: rest) = kin me op (Relates me rest) := rfl

end Xv6.Proc
