import Xv6.Proc.Local

/-!
# Where a thread is inside `wakeup`

A thread inside `wakeup` stands at one of the five points of its loop; behind the
loop, and in every saved context, there is no other `wakeup` half done. A
`wakeup` is made under a lock, so it is not interrupted.
-/

namespace Xv6.Proc

open Xv6.Semantics

variable {ncpu : Nat} {strict : Prop} {kernel next : Kernel ncpu} {ghost : Ghost ncpu}
  {c : Fin ncpu} {rest : List Op}

/-- The operations inside the loop of `wakeup`, or its loop after the first entry. -/
def Op.inWakeup : Op → Bool
  | .wake _ _ => true
  | .wakeup _ i => decide (i ≠ 0)
  | _ => false

/-- No `wakeup` is half done in these operations. -/
def Clean (ops : List Op) : Prop := ∀ op ∈ ops, op.inWakeup = false

@[simp] theorem clean_nil : Clean [] := by simp [Clean]

@[simp] theorem clean_cons (op : Op) (ops : List Op) :
    Clean (op :: ops) ↔ op.inWakeup = false ∧ Clean ops := by
  simp [Clean]

@[simp] theorem clean_append (first second : List Op) :
    Clean (first ++ second) ↔ Clean first ∧ Clean second := by
  simp [Clean, or_imp, forall_and]

/-- A thread inside `wakeup(chan)` has visited the entries below an index; `rest`
is what it does afterwards. -/
inductive Waking (chan : Option Chan) (rest : List Op) : Nat → List Op → Prop where
  | next (i : Nat) : Waking chan rest i (.wakeup chan i :: rest)
  | asks (p : Slot) : Waking chan rest p.val
      (.acquire (.proc p) :: .wake chan p :: .release (.proc p) :: .wakeup chan (p.val + 1) :: rest)
  | spins (p : Slot) : Waking chan rest p.val
      (.spin (.proc p) :: .wake chan p :: .release (.proc p) :: .wakeup chan (p.val + 1) :: rest)
  | visits (p : Slot) : Waking chan rest p.val
      (.wake chan p :: .release (.proc p) :: .wakeup chan (p.val + 1) :: rest)
  | leaves (p : Slot) : Waking chan rest (p.val + 1)
      (.release (.proc p) :: .wakeup chan (p.val + 1) :: rest)

/-- No `wakeup` is half done in a saved context. -/
structure SavedClean (kernel : Kernel ncpu) : Prop where
  procs : ∀ p, Clean (kernel.proc p).context
  cpus : ∀ c, Clean (kernel.cpu c).context

namespace SavedClean

variable (saved : SavedClean kernel)
include saved

theorem setCpu (context : Clean cpu.context) : SavedClean (kernel.setCpu c cpu) where
  procs := saved.procs
  cpus := by
    intro d
    obtain rfl | same := eq_or_ne d c
    · simpa using context
    · simpa [same] using saved.cpus d

theorem goto (ops : List Op) : SavedClean (kernel.goto c ops) := saved.setCpu (saved.cpus c)

theorem setProc (context : Clean process.context) : SavedClean (kernel.setProc p process) where
  procs := by
    intro q
    obtain rfl | same := eq_or_ne q p
    · simpa using context
    · simpa [same] using saved.procs q
  cpus := saved.cpus

theorem setOwner (lk : Lock) (owner : Option (Fin ncpu)) : SavedClean (kernel.setOwner lk owner) :=
  ⟨saved.procs, saved.cpus⟩

theorem releaseLock (done : kernel.releaseLock c lk = .ok released) : SavedClean released := by
  obtain ⟨cpu, ⟨_, same⟩, rfl⟩ := Kernel.eq_of_releaseLock done
  refine (saved.setOwner lk none).setCpu ?_
  rw [same]
  exact saved.cpus c

end SavedClean

/-- A CPU outside `wakeup`. -/
structure Outside (kernel : Kernel ncpu) (c : Fin ncpu) : Prop extends SavedClean kernel where
  ops : Clean (kernel.cpu c).ops

namespace Outside

variable (saved : SavedClean kernel)
include saved

theorem goto {ops : List Op} (clean : Clean ops) : Outside (kernel.goto c ops) c :=
  ⟨saved.goto ops, by simpa using clean⟩

theorem setCpu (context : Clean cpu.context) (clean : Clean cpu.ops) :
    Outside (kernel.setCpu c cpu) c :=
  ⟨saved.setCpu context, by simpa using clean⟩

theorem stops (message : String) (clean : Clean rest) :
    Outside (kernel.stops c message rest) c :=
  goto saved (by simp [Op.inWakeup, clean])

theorem withProc (bodies : ∀ p, Clean (body p)) (clean : Clean rest) :
    Outside (kernel.withProc c rest body) c := by
  unfold Kernel.withProc
  split
  · exact goto saved (by simp [bodies, clean])
  · exact stops saved _ clean

theorem switchOut {ops : List Op} (clean : Clean ops) : Outside (kernel.switchOut c p ops) c :=
  goto (saved.setProc clean) (saved.cpus c)

theorem switchIn {ops : List Op} (clean : Clean ops) : Outside (kernel.switchIn c p ops) c :=
  setCpu saved clean (saved.procs p)

end Outside

theorem clean_resumeUptime (caller : UptimeCaller) (xticks : Nat) : Clean
    (caller.resume xticks) := by
  cases caller <;> simp [UptimeCaller.resume, Op.inWakeup]

theorem clean_resumeKilled (caller : KilledCaller) (p : Slot) (isKilled : Bool) :
    Clean (caller.resume p isKilled) := by
  cases caller <;> cases isKilled <;> simp [KilledCaller.resume, Op.inWakeup]

theorem Outside.stepOp (outside : Outside kernel c)
    (ops : (kernel.cpu c).ops = op :: rest) (ran : Proc.stepOp kernel c rest op = some next)
    (other : ∀ chan i, op ≠ .wakeup chan i) : Outside next c := by
  have saved := outside.toSavedClean
  have clean := outside.ops
  rw [ops, clean_cons] at clean
  obtain ⟨outsideOp, cleanRest⟩ := clean
  have clock : ∀ ticks pid, SavedClean { kernel with ticks := ticks, nextpid := pid } :=
    fun _ _ => ⟨saved.procs, saved.cpus⟩
  have listing : ∀ p, SavedClean (kernel.setProc p (listed (kernel.proc p))) := fun p =>
    saved.setProc (by rw [context_listed]; exact saved.procs p)
  cases op with
  | wakeup chan i => exact absurd rfl (other chan i)
  | wake chan p => cases outsideOp
  | charge p ctick =>
    cases ran
    simp only [Kernel.charge]
    split
    · refine Outside.goto (saved.setProc ?_) (by simp [Op.inWakeup, cleanRest])
      exact saved.procs p
    · split
      · refine Outside.switchOut (saved.setProc ?_) (by simp [Op.inWakeup, cleanRest])
        exact saved.procs p
      · exact Outside.goto saved (by simp [Op.inWakeup, cleanRest])
  | tail p ctick =>
    cases ran
    refine Outside.switchOut (saved.setProc ?_) (by simp [Op.inWakeup, cleanRest])
    exact saved.procs p
  | _ =>
    simp only [Proc.stepOp] at ran
    repeat' split at ran
    all_goals cases ran
    all_goals
      first
      | refine Outside.goto ?_ ?_
      | refine Outside.stops ?_ _ cleanRest
      | refine Outside.withProc saved ?_ cleanRest
      | refine Outside.setCpu ?_ (saved.cpus c) ?_
      | refine Outside.switchIn ((saved.setProc ?_).setCpu ?_) ?_
    all_goals
      first
      | exact saved
      | exact cleanRest
      | exact saved.procs _
      | exact saved.cpus c
      | exact saved.setProc (saved.procs _)
      | exact saved.setCpu (saved.cpus c)
      | exact saved.setOwner _ _
      | exact saved.releaseLock ‹_›
      | exact (saved.releaseLock ‹_›).setProc ((saved.releaseLock ‹_›).procs _)
      | exact clock _ _
      | exact listing _
      | exact saved.setProc (by simp [Op.inWakeup])
      | simp [Op.inWakeup, cleanRest, clean_resumeUptime, clean_resumeKilled, exitBody, forkTail,
          yieldBody, sleepBody]

theorem clean_clockintr (c : Fin ncpu) : Clean (clockintr c) := by
  unfold clockintr
  split <;> simp [Op.inWakeup]

theorem clean_syscall (call : Syscall) : Clean call.ops := by
  cases call <;> simp [Syscall.ops, Op.inWakeup]

/-- A thread inside `wakeup` holds a lock, so it is not interrupted. -/
theorem Sound.not_waking (sound : Sound strict kernel ghost) (unlocked : (kernel.cpu c).noff = 0) :
    ¬ Waking chan rest i (kernel.cpu c).ops := by
  obtain ⟨obeys, calls, _, _⟩ := sound.interruptible unlocked
  intro waking
  generalize (kernel.cpu c).ops = ops at obeys waking
  cases waking with
  | next => exact obeys.2.1.1 calls.held
  | asks p =>
    obtain ⟨_, _, _, _, _, _, _, guarded, _⟩ := obeys
    exact guarded.1 (by simp [calls.held])
  | spins p => exact obeys
  | visits p => simpa [calls.held] using obeys.2.1
  | leaves p => simpa [calls.held] using obeys.1

end Xv6.Proc
