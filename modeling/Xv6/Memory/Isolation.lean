import Xv6.Memory.Forking

/-!
# Memory isolation

In a run from boot every page of the free list is at all times in one place, as
long as two things hold of `map_frames`: when it copies a root entry from the
page table of `Shrimpy->P` to that of `Shrimpy->NP`, the two entries are the same
already, and when it allocates a frame, the frame has not got a page meanwhile.
Two forks that overlap break the first condition, and then two processes share a
page-table page.
-/

namespace Xv6.Memory

open Xv6.Proc (Slot ProcState)
open Xv6.Semantics

/-! ## Which processes are being made -/

/-- The call is making the process `np`, which is not published yet. -/
def Call.Makes (call : Call) (np : Slot) : Prop := call = .copy np ∨ call = .publish np

/-- What the states of the processes say about their pages and their calls. -/
structure Orderly (proc : Slot → Process) : Prop where
  table : ∀ p, (proc p).state = .unused ↔ (proc p).pagetable = none
  calling : ∀ p, (proc p).call ≠ .idle → (proc p).alive
  child : ∀ p np, (proc p).call.Makes np → (proc np).state = .used
  empty : ∀ p np, (proc p).call = .copy np → (proc np).sz = 0
  single : ∀ p q np, (proc p).call.Makes np → (proc q).call.Makes np → p = q

theorem not_makes_idle (np : Slot) : ¬Call.idle.Makes np := by
  rintro (same | same) <;> cases same

theorem makes_copy : (Call.copy np).Makes other ↔ other = np := by
  simp [Call.Makes, eq_comm]

theorem makes_publish : (Call.publish np).Makes other ↔ other = np := by
  simp [Call.Makes, eq_comm]

namespace Process

variable {process : Process}

theorem alive.ne_unused (alive : process.alive) : process.state ≠ .unused := by
  rcases alive with same | same | same <;> simp [same]

theorem alive.ne_used (alive : process.alive) : process.state ≠ .used := by
  rcases alive with same | same | same <;> simp [same]

end Process

namespace Orderly

variable {kernel : Kernel} {p np : Slot}

section

variable (orderly : Orderly kernel.proc)
include orderly

theorem not_made (other : (kernel.proc np).state ≠ .used)
    (q : Slot) : ¬(kernel.proc q).call.Makes np := fun makes => other (orderly.child q np makes)

theorem idle (dead : ¬(kernel.proc p).alive) :
    (kernel.proc p).call = .idle := by
  by_contra busy
  exact dead (orderly.calling p busy)

/-- One entry changes, and neither it nor the others make or are made
inconsistently with it. -/
theorem setProc (table : process.state = .unused ↔ process.pagetable = none)
    (calling : process.call ≠ .idle → process.alive)
    (made : ∀ q, q ≠ p → (kernel.proc q).call.Makes p →
      process.state = .used ∧ ((kernel.proc q).call = .copy p → process.sz = 0))
    (makes : ∀ np, process.call.Makes np → np ≠ p ∧ (kernel.proc np).state = .used ∧
      (process.call = .copy np → (kernel.proc np).sz = 0) ∧
      ∀ q, q ≠ p → ¬(kernel.proc q).call.Makes np) :
    Orderly (kernel.setProc p process).proc := by
  constructor
  · intro q
    rcases eq_or_ne q p with rfl | differ
    · rwa [Kernel.setProc_self]
    · rw [Kernel.setProc_of_ne _ differ]
      exact orderly.table q
  · intro q
    rcases eq_or_ne q p with rfl | differ
    · rwa [Kernel.setProc_self]
    · rw [Kernel.setProc_of_ne _ differ]
      exact orderly.calling q
  · intro q np making
    rcases eq_or_ne q p with rfl | differ
    · rw [Kernel.setProc_self] at making
      obtain ⟨apart, used, -⟩ := makes np making
      rwa [Kernel.setProc_of_ne _ apart]
    rw [Kernel.setProc_of_ne _ differ] at making
    rcases eq_or_ne np p with rfl | apart
    · rw [Kernel.setProc_self]
      exact (made q differ making).1
    · rw [Kernel.setProc_of_ne _ apart]
      exact orderly.child q np making
  · intro q np copying
    rcases eq_or_ne q p with rfl | differ
    · rw [Kernel.setProc_self] at copying
      obtain ⟨apart, -, empty, -⟩ := makes np (.inl copying)
      rw [Kernel.setProc_of_ne _ apart]
      exact empty copying
    rw [Kernel.setProc_of_ne _ differ] at copying
    rcases eq_or_ne np p with rfl | apart
    · rw [Kernel.setProc_self]
      exact (made q differ (.inl copying)).2 copying
    · rw [Kernel.setProc_of_ne _ apart]
      exact orderly.empty q np copying
  intro q r np first second
  rcases eq_or_ne q p with rfl | differ
  · rcases eq_or_ne r q with rfl | differ'
    · rfl
    · rw [Kernel.setProc_self] at first
      rw [Kernel.setProc_of_ne _ differ'] at second
      exact absurd second ((makes np first).2.2.2 r differ')
  rw [Kernel.setProc_of_ne _ differ] at first
  rcases eq_or_ne r p with rfl | differ'
  · rw [Kernel.setProc_self] at second
    exact absurd first ((makes np second).2.2.2 q differ)
  · rw [Kernel.setProc_of_ne _ differ'] at second
    exact orderly.single q r np first second

theorem setProc_of_idle
    (table : process.state = .unused ↔ process.pagetable = none) (idle : process.call = .idle)
    (apart : ∀ q, q ≠ p → ¬(kernel.proc q).call.Makes p) :
    Orderly (kernel.setProc p process).proc := by
  refine orderly.setProc table (fun busy => absurd idle busy) ?_ ?_
  · exact fun q differ making => absurd making (apart q differ)
  · intro np making
    rw [idle] at making
    exact absurd making (not_makes_idle np)

theorem setCall (alive : (kernel.proc p).alive)
    (makes : ∀ np, call.Makes np → (kernel.proc np).state = .used ∧
      (call = .copy np → (kernel.proc np).sz = 0) ∧ ∀ q, q ≠ p → ¬(kernel.proc q).call.Makes np) :
    Orderly (kernel.setProc p { kernel.proc p with call := call }).proc := by
  refine orderly.setProc (orderly.table p) (fun _ => alive) ?_ fun np making => ?_
  · exact fun q _ making => absurd (orderly.child q p making) alive.ne_used
  · obtain ⟨used, empty, others⟩ := makes np making
    refine ⟨?_, used, empty, others⟩
    rintro rfl
    exact alive.ne_used used

theorem of_same (same : ∀ p, (proc p).state = (kernel.proc p).state ∧
      (proc p).pagetable = (kernel.proc p).pagetable ∧ (proc p).sz = (kernel.proc p).sz ∧
      (proc p).call = (kernel.proc p).call) : Orderly proc := by
  have calls (p : Slot) : (proc p).call = (kernel.proc p).call := (same p).2.2.2
  constructor
  · intro p
    rw [(same p).1, (same p).2.1]
    exact orderly.table p
  · intro p busy
    rw [calls] at busy
    have alive := orderly.calling p busy
    unfold Process.alive at alive ⊢
    rwa [(same p).1]
  · intro p np making
    rw [calls] at making
    rw [(same np).1]
    exact orderly.child p np making
  · intro p np copying
    rw [calls] at copying
    rw [(same np).2.2.1]
    exact orderly.empty p np copying
  · intro p q np first second
    rw [calls] at first second
    exact orderly.single p q np first second

end

end Orderly

theorem Kernel.setProc_comm {kernel : Kernel} {p q : Slot} (differ : p ≠ q)
    (first second : Process) :
    (kernel.setProc p first).setProc q second = (kernel.setProc q second).setProc p first := by
  simp only [Kernel.setProc]
  congr 1
  ext r
  split
  · next same => rw [if_neg (by rintro rfl; exact differ same)]
  · rfl

/-! ## The invariant -/

theorem ensures_syscall
    (called : (kernel.proc p).alive → (kernel.proc p).call = .idle → Ensures call kernel post) :
    Ensures (syscall p call) kernel post := by
  show Ensures (if (kernel.proc p).alive ∧ (kernel.proc p).call = .idle then call
    else throw .notEnabled) kernel post
  split
  · next enabled => exact called enabled.1 enabled.2
  · exact Ensures.throw

/-- The two conditions on `map_frames`. -/
def FramesCoherent (kernel : Kernel) : Call → Prop
  | .frames _ (.memmove :: _) => SameRootEntry kernel
  | .frames _ (.allocate i :: _) => kernel.frames i = none
  | _ => True

/-- A step of a `fork` meets the two conditions. -/
def Coherent (kernel : Kernel) : Label → Prop
  | .resume p => FramesCoherent kernel (kernel.proc p).call
  | _ => True

instance (kernel : Kernel) : DecidablePred (FramesCoherent kernel)
  | .frames _ (.memmove :: _) =>
    inferInstanceAs (Decidable (rootEntry kernel kernel.np = rootEntry kernel kernel.p))
  | .frames _ (.allocate i :: _) => inferInstanceAs (Decidable (kernel.frames i = none))
  | .frames _ [] | .frames _ (.unmap _ :: _) | .frames _ (.test _ :: _)
  | .frames _ (.map _ :: _) | .idle | .copy _ | .publish _ | .point _ => .isTrue trivial

instance (kernel : Kernel) : DecidablePred (Coherent kernel)
  | .resume p => inferInstanceAs (Decidable (FramesCoherent kernel (kernel.proc p).call))
  | .userinit _ | .fork _ | .exec .. | .sbrk .. | .exit _ | .wait .. | .pipealloc _
  | .pipeclose .. => .isTrue trivial

section Pool

variable [Image]

/-- What holds between the steps of a run. Nothing but `userinit` happens before
there is a first process. -/
structure Sound (pool : PagePool) (kernel : Kernel) : Prop where
  memory : MemorySound pool kernel
  orderly : Orderly kernel.proc
  booting : kernel.initproc = none →
    (∀ p, (kernel.proc p).state = .unused) ∧ 9 ≤ kernel.memory.freelist.length

variable {pool : PagePool} {kernel next : Kernel} {p : Slot}

section

variable (sound : Sound pool kernel)
include sound

theorem Sound.pagetable (state : (kernel.proc p).state ≠ .unused) :
    ∃ pagetable, (kernel.proc p).pagetable = some pagetable :=
  Option.ne_none_iff_exists'.mp fun none => state ((sound.orderly.table p).mpr none)

theorem Sound.after (alive : (kernel.proc p).alive)
    (memory : MemorySound pool next) (orderly : Orderly next.proc)
    (same : next.initproc = kernel.initproc) : Sound pool next := by
  refine ⟨memory, orderly, fun none => ?_⟩
  rw [same] at none
  exact absurd ((sound.booting none).1 p) alive.ne_unused

theorem Sound.userinit_ensures (none : kernel.initproc = none)
    (initcode : Nat → Nat) :
    Ensures (userinit initcode) kernel fun _ next => Sound pool next := by
  obtain ⟨allUnused, enough⟩ := sound.booting none
  refine (sound.memory.userinit_ensures (fun np => (sound.orderly.table np).mp) enough
    initcode).mono fun _ next after => ?_
  obtain ⟨memory, np, process, unused, init, proc, runnable, table, call⟩ := after
  refine ⟨memory, ?_, fun none => by simp [init] at none⟩
  rw [proc]
  have dead : ¬(kernel.proc np).alive := fun alive => alive.ne_unused unused
  refine sound.orderly.setProc_of_idle ?_ (call.trans (sound.orderly.idle dead))
    fun q _ => sound.orderly.not_made (by simp [unused]) q
  simp [runnable, Option.isSome_iff_ne_none.mp table]

section

variable (alive : (kernel.proc p).alive) (idle : (kernel.proc p).call = .idle)
include alive idle

theorem Sound.resized (resized : Resized pool kernel p next) : Sound pool next := by
  obtain ⟨memory, last, pagetable, sz, table, rfl⟩ := resized
  refine sound.after alive memory ?_ rfl
  refine sound.orderly.setProc_of_idle ?_ idle
    fun q _ => sound.orderly.not_made alive.ne_used q
  simp [Process.resize, alive.ne_unused, Option.isSome_iff_ne_none.mp table]

theorem Sound.forkStart_ensures : Ensures (forkStart p) kernel fun _ next => Sound pool next := by
  refine (Ensures.of_returns (sound.memory.allocproc_returns
    fun np => (sound.orderly.table np).mp)).bind fun found next started => ?_
  obtain ⟨memory, result⟩ := started
  have unmade {np : Slot} (unused : (kernel.proc np).state = .unused) (q : Slot) :
      ¬(kernel.proc q).call.Makes np := sound.orderly.not_made (by simp [unused]) q
  have notCalling {np : Slot} (unused : (kernel.proc np).state = .unused) :
      (kernel.proc np).call = .idle := sound.orderly.idle fun alive => alive.ne_unused unused
  cases found with
  | none =>
    rcases result with ⟨-, rfl⟩ | ⟨-, np, last, unused, rfl⟩
    · exact .pure sound
    · refine .pure (sound.after alive memory ?_ rfl)
      exact sound.orderly.setProc_of_idle (by simp [Process.freed]) (notCalling unused)
        fun q _ => unmade unused q
  | some np =>
    obtain ⟨unused, last, pagetable, trapframe, -, rfl⟩ := result
    have differ : p ≠ np := by
      rintro rfl
      exact alive.ne_unused unused
    have size := ((sound.memory.processes np).of_unused ((sound.orderly.table np).mp unused)).2
    let child : Process := { kernel.proc np with
      state := .used, trapframe := some trapframe, pagetable := some pagetable }
    have parent : (kernel.setProc np child).proc p = kernel.proc p :=
      Kernel.setProc_of_ne _ differ
    have withChild : Orderly (kernel.setProc np child).proc :=
      sound.orderly.setProc_of_idle (by simp [child]) (notCalling unused)
        fun q _ => unmade unused q
    have called : Orderly ((kernel.setProc np child).setProc p
        { (kernel.setProc np child).proc p with call := .copy np }).proc := by
      refine withChild.setCall (by rwa [parent]) fun made making => ?_
      obtain rfl := makes_copy.mp making
      rw [Kernel.setProc_self]
      refine ⟨rfl, fun _ => size, fun q _ => ?_⟩
      rcases eq_or_ne q made with rfl | other
      · rw [Kernel.setProc_self]
        exact unmade unused q
      · rw [Kernel.setProc_of_ne _ other]
        exact unmade unused q
    refine .of_returns ⟨(), _, rfl, sound.after alive (memory.setProc rfl rfl rfl) called rfl⟩

end

theorem Sound.copy_ensures (call : (kernel.proc p).call = .copy np) :
    Ensures (forkResume p) kernel fun _ next => Sound pool next := by
  have alive : (kernel.proc p).alive := sound.orderly.calling p (by simp [call])
  have makes : (kernel.proc p).call.Makes np := .inl call
  have used := sound.orderly.child p np makes
  have differ : np ≠ p := by
    rintro rfl
    exact alive.ne_used used
  obtain ⟨old, oldTable⟩ := sound.pagetable alive.ne_unused
  obtain ⟨new, newTable⟩ := sound.pagetable (p := np) (by simp [used])
  have unmade {q : Slot} (other : q ≠ p) : ¬(kernel.proc q).call.Makes np := fun making =>
    other (sound.orderly.single q p np making makes)
  have notCalling : (kernel.proc np).call = .idle :=
    sound.orderly.idle fun alive => alive.ne_used used
  refine (Ensures.of_returns (sound.memory.copy_returns call differ oldTable newTable
    (sound.orderly.empty p np call))).mono fun _ next after => ?_
  obtain ⟨memory, last, rfl | rfl⟩ := after
  -- The caller moves on first, so that no call is copying when the child gets its size.
  · refine sound.after alive memory ?_ rfl
    rw [Kernel.setProc_comm differ]
    have moved : Orderly (kernel.setProc p { kernel.proc p with call := .publish np }).proc := by
      refine sound.orderly.setCall alive fun made making => ?_
      obtain rfl := makes_publish.mp making
      exact ⟨used, fun same => by simp at same, fun q other => unmade other⟩
    refine moved.setProc (by simp [used, newTable]) (fun busy => absurd notCalling busy)
      (fun q _ making => ⟨used, fun copying => ?_⟩) fun made making => ?_
    · rcases eq_or_ne q p with rfl | other
      · simp at copying
      · rw [Kernel.setProc_of_ne _ other] at copying
        exact absurd (.inl copying) (unmade other)
    · have idleMaking : (kernel.proc np).call.Makes made := making
      rw [notCalling] at idleMaking
      exact absurd idleMaking (not_makes_idle made)
  refine sound.after alive memory ?_ rfl
  rw [Kernel.setProc_comm differ]
  have moved : Orderly (kernel.setProc p { kernel.proc p with call := .idle }).proc :=
    sound.orderly.setCall alive fun made making => absurd making (not_makes_idle made)
  refine moved.setProc_of_idle (by simp [Process.freed]) notCalling fun q _ => ?_
  rcases eq_or_ne q p with rfl | other
  · rw [Kernel.setProc_self]
    exact not_makes_idle np
  · rw [Kernel.setProc_of_ne _ other]
    exact unmade other

theorem Sound.publish_ensures (call : (kernel.proc p).call = .publish np) :
    Ensures (forkResume p) kernel fun _ next => Sound pool next := by
  have alive : (kernel.proc p).alive := sound.orderly.calling p (by simp [call])
  have makes : (kernel.proc p).call.Makes np := .inr call
  have used := sound.orderly.child p np makes
  have differ : np ≠ p := by
    rintro rfl
    exact alive.ne_used used
  obtain ⟨new, newTable⟩ := sound.pagetable (p := np) (by simp [used])
  have notCalling : (kernel.proc np).call = .idle :=
    sound.orderly.idle fun alive => alive.ne_used used
  apply ensures_get
  simp only [call]
  refine .of_returns ⟨(), _, rfl, ?_⟩
  have published : MemorySound pool (kernel.setProc np { kernel.proc np with
      parent := some p, state := .runnable }) := sound.memory.setProc rfl rfl rfl
  refine sound.after alive (published.setProc rfl rfl rfl) ?_ rfl
  show Orderly ((kernel.setProc np { kernel.proc np with
    parent := some p, state := .runnable }).setProc p
    { (kernel.setProc np { kernel.proc np with
      parent := some p, state := .runnable }).proc p with call := .point np }).proc
  rw [Kernel.setProc_of_ne _ differ.symm, Kernel.setProc_comm differ]
  have moved : Orderly (kernel.setProc p { kernel.proc p with call := .point np }).proc :=
    sound.orderly.setCall alive fun made making => by simp [Call.Makes] at making
  refine moved.setProc_of_idle (by simp [newTable]) notCalling fun q _ => ?_
  rcases eq_or_ne q p with rfl | other
  · rw [Kernel.setProc_self]
    simp [Call.Makes]
  · rw [Kernel.setProc_of_ne _ other]
    exact fun making => other (sound.orderly.single q p np making makes)

theorem Sound.proceed (alive : (kernel.proc p).alive)
    (memory : MemorySound pool next) (proc : next.proc = kernel.proc)
    (same : next.initproc = kernel.initproc) (past : ∀ np, ¬call.Makes np) :
    Sound pool (next.setProc p { next.proc p with call := call }) := by
  refine sound.after alive (memory.setProc rfl rfl rfl) ?_ same
  have orderly : Orderly next.proc := proc ▸ sound.orderly
  exact orderly.setCall (proc ▸ alive) fun np making => absurd making (past np)

theorem Sound.forkResume_ensures (coherent : Coherent kernel (.resume p)) :
    Ensures (forkResume p) kernel fun _ next => Sound pool next := by
  cases call : (kernel.proc p).call with
  | idle =>
    apply ensures_get
    simp only [call]
    exact Ensures.throw
  | copy np => exact sound.copy_ensures call
  | publish np => exact sound.publish_ensures call
  | point np =>
    have alive : (kernel.proc p).alive := sound.orderly.calling p (by simp [call])
    apply ensures_get
    simp only [call]
    refine .of_returns ⟨(), _, rfl, ?_⟩
    have pointed : MemorySound pool { kernel with p := some np } :=
      sound.memory.of_spaces rfl rfl rfl fun _ => ⟨rfl, rfl, rfl⟩
    exact sound.proceed alive pointed rfl rfl fun np => by simp [Call.Makes]
  | frames np ops =>
    have alive : (kernel.proc p).alive := sound.orderly.calling p (by simp [call])
    apply ensures_get
    simp only [call]
    cases ops with
    | nil => exact Ensures.throw
    | cons op rest =>
      rw [Coherent, call] at coherent
      refine (sound.memory.frameStep_ensures ?_ ?_).bind fun left next after => ?_
      · rintro i rfl
        exact coherent
      · rintro rfl
        exact coherent
      · obtain ⟨memory, proc, same⟩ := after
        refine .of_returns ⟨(), _, rfl, sound.proceed alive memory proc same fun np => ?_⟩
        split <;> simp [Call.Makes]

theorem Sound.exit_ensures (alive : (kernel.proc p).alive)
    (idle : (kernel.proc p).call = .idle) :
    Ensures (exit p) kernel fun _ next => Sound pool next := by
  apply ensures_get
  split
  · exact Ensures.throw
  obtain ⟨pagetable, table⟩ := sound.pagetable alive.ne_unused
  have same (q : Slot) : ((reparent kernel p).proc q).state = (kernel.proc q).state ∧
      ((reparent kernel p).proc q).pagetable = (kernel.proc q).pagetable ∧
      ((reparent kernel p).proc q).sz = (kernel.proc q).sz ∧
      ((reparent kernel p).proc q).trapframe = (kernel.proc q).trapframe ∧
      ((reparent kernel p).proc q).call = (kernel.proc q).call := by
    simp only [reparent]
    split <;> exact ⟨rfl, rfl, rfl, rfl, rfl⟩
  have memory : MemorySound pool (reparent kernel p) :=
    sound.memory.of_spaces rfl rfl rfl fun q =>
      ⟨(same q).2.1, (same q).2.2.1, (same q).2.2.2.1⟩
  have orderly : Orderly (reparent kernel p).proc :=
    sound.orderly.of_same fun q =>
      ⟨(same q).1, (same q).2.1, (same q).2.2.1, (same q).2.2.2.2⟩
  refine .of_returns ⟨(), _, rfl, sound.after alive (memory.setProc rfl rfl rfl) ?_ rfl⟩
  refine orderly.setProc_of_idle ?_ ((same p).2.2.2.2.trans idle)
    fun q _ => orderly.not_made ?_ q
  · simp [(same p).2.1, table]
  · rw [(same p).1]
    exact alive.ne_used

theorem Sound.wait_ensures (alive : (kernel.proc p).alive)
    (copied : Bool) : Ensures (wait p copied) kernel fun _ next => Sound pool next := by
  apply ensures_get
  cases found : findZombie kernel p with
  | none => exact Ensures.throw
  | some pp =>
    have zombie : (kernel.proc pp).state = .zombie := by
      have holds := List.find?_some found
      simp only [decide_eq_true_eq] at holds
      exact holds.2
    have dead : ¬(kernel.proc pp).alive := by
      rintro (same | same | same) <;> simp [zombie] at same
    cases copied with
    | false => exact .pure sound
    | true =>
      refine (Ensures.of_returns sound.memory.freeproc_returns).mono fun _ next after => ?_
      obtain ⟨memory, last, rfl⟩ := after
      refine sound.after alive memory ?_ rfl
      exact sound.orderly.setProc_of_idle (by simp [Process.freed])
        (sound.orderly.idle dead) fun q _ => sound.orderly.not_made (by simp [zombie]) q

theorem Sound.act_ensures (coherent : Coherent kernel label) :
    Ensures (act label) kernel fun _ next => Sound pool next := by
  cases label with
  | userinit initcode =>
    apply ensures_get
    split
    · next none => exact sound.userinit_ensures none initcode
    · exact Ensures.throw
  | fork p => exact ensures_syscall sound.forkStart_ensures
  | resume p => exact sound.forkResume_ensures coherent
  | exec p argc fetched file =>
    refine ensures_syscall fun alive idle => ?_
    obtain ⟨old, table⟩ := sound.pagetable alive.ne_unused
    exact (Ensures.of_returns (sound.memory.sysExec_returns table argc fetched file)).mono
      fun _ _ => sound.resized alive idle
  | sbrk p n =>
    refine ensures_syscall fun alive idle => ?_
    obtain ⟨pagetable, table⟩ := sound.pagetable alive.ne_unused
    exact (Ensures.of_returns (sound.memory.growproc_returns table n)).mono
      fun _ _ => sound.resized alive idle
  | exit p => exact ensures_syscall sound.exit_ensures
  | wait p copied => exact ensures_syscall fun alive _ => sound.wait_ensures alive copied
  | pipealloc p =>
    refine ensures_syscall fun alive _ => ?_
    refine (Ensures.of_returns sound.memory.pipealloc_returns).mono fun _ next after => ?_
    exact sound.after alive after.1 (after.2.1 ▸ sound.orderly) after.2.2
  | pipeclose p page =>
    refine ensures_syscall fun alive _ => ?_
    refine (sound.memory.pipeclose_ensures page).mono fun _ next after => ?_
    exact sound.after alive after.1 (after.2.1 ▸ sound.orderly) after.2.2

end

/-! ## Every page is in one place -/

/-- The pages that were free at boot are each in one place, no other page is
used, and no two processes use the same page. -/
structure Isolated (boot kernel : Kernel) : Prop where
  once : ∀ page ∈ boot.memory.freelist, kernel.places.count page = 1
  known : ∀ page ∈ kernel.places, page ∈ boot.memory.freelist
  apart : ∀ p q, p ≠ q →
    ∀ page ∈ (kernel.proc p).owned kernel.memory, page ∉ (kernel.proc q).owned kernel.memory

/-- The invariant, for the pages that were free at boot. -/
def SoundSince (boot kernel : Kernel) : Prop :=
  ∃ pool : PagePool, pool.pages = boot.memory.freelist ∧ Sound pool kernel

theorem Booted.soundSince (booted : Booted boot) : SoundSince boot boot := by
  obtain ⟨blank, -, -, -, frames, pipes, nodup, enough, managed⟩ := booted
  have nothing (p : Slot) : (boot.proc p).owned boot.memory = 0 := by
    rw [blank p]
    rfl
  refine ⟨⟨boot.memory.freelist, Multiset.coe_nodup.mpr nodup, managed⟩, rfl,
    ⟨?_, fun p => ?_, fun i page frame => ?_⟩, ?_, fun _ => ⟨fun p => ?_, enough⟩⟩
  · have inUse : boot.inUse = 0 := by
      rw [Kernel.inUse, Kernel.framePages, pipes, Finset.sum_congr rfl fun p _ => nothing p]
      simp [frames, optional]
    rw [Accounts, inUse, add_zero]
  · rw [blank p]
    exact ⟨rfl, rfl⟩
  · rw [frames i] at frame
    cases frame
  · constructor
    · intro p
      simp [blank p, Process.blank]
    · intro p busy
      simp [blank p, Process.blank] at busy
    · intro p np making
      rw [blank p] at making
      exact absurd making (not_makes_idle np)
    · intro p np copying
      rw [blank p] at copying
      cases copying
    · intro p q np making
      rw [blank p] at making
      exact absurd making (not_makes_idle np)
  · rw [blank p]
    rfl

/-- The invariant along a run whose steps meet the conditions on `map_frames`. -/
theorem sound_of_runs
    (run : (system.restrict Coherent).Runs boot labels kernel) : SoundSince boot kernel := by
  refine TransitionSystem.Runs.relates (fun boot booted => Booted.soundSince booted) ?_ run
  rintro boot kernel label next ⟨pool, pages, sound⟩ ⟨stepped, coherent⟩
  refine ⟨pool, pages, ?_⟩
  have stepped' : step kernel label = some next := stepped
  rw [step] at stepped'
  cases ran : (act label).run kernel with
  | error halt => simp [ran] at stepped'
  | ok pair =>
    rw [ran] at stepped'
    cases stepped'
    exact sound.act_ensures coherent _ _ ran

end Pool

/-! ## Two runs -/

theorem kernbase_le_smallImage : kernbase ≤ 0x80020000 := by decide

/-- A kernel image of 128 KiB. -/
@[reducible] def smallImage : Image := ⟨0x80020000, 0x80007000, kernbase_le_smallImage⟩

/-- A machine with 30 free pages. -/
def smallBoot : Kernel where
  memory := { freelist := (List.range 30).map (0x80100 + ·), word := fun _ _ => 0 }
  proc := fun _ => .blank
  initproc := none
  np := none
  p := none
  frames := fun _ => none
  pas := fun _ => none
  pipes := []

theorem booted_smallBoot : @Booted smallImage smallBoot := by
  refine ⟨fun _ => rfl, rfl, rfl, rfl, fun _ => rfl, rfl, ?_, ?_, ?_⟩ <;> decide +kernel

/-- The first three processes. -/
def slot0 : Slot := ⟨0, zero_lt_nproc⟩
def slot1 : Slot := ⟨1, one_lt_nproc⟩
def slot2 : Slot := ⟨2, two_lt_nproc⟩

/-- The first process forks once, and then the child grows, exits and is waited for. -/
def forkAndWait : List Label :=
  [[.userinit fun _ => 0, .fork slot0], List.replicate 32 (.resume slot0),
    [.sbrk slot1 8192, .exit slot1, .wait slot0 true]].flatten

/-- The first process forks, and when its child is published but `map_frames` has
not started yet, the child forks too. -/
def overlappingForks : List Label :=
  [[.userinit fun _ => 0, .fork slot0, .resume slot0, .resume slot0, .fork slot1],
    List.replicate 30 (.resume slot0)].flatten

theorem child_mem_tablePages (bound : i < 512)
    (child : pteFormat.child (memory.word pagetable i) = some page) :
    page ∈ tablePages memory pagetable := by
  have within : pteFormat.below memory.word 1 (memory.word pagetable i) ≤
      tablePages memory pagetable := Radix.Format.below_le_nodes (by rwa [pteFormat_fanout])
  rw [Radix.Format.below_of_child child] at within
  exact Multiset.mem_of_le within (Radix.Format.self_mem_nodes 1 page)

end Xv6.Memory
