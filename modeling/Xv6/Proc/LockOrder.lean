import Mathlib.Data.Set.Basic
import Xv6.Proc.Local
import Xv6.Proc.Watched

/-!
# The order of `tickslock` and the process locks

`clockintr` and `sys_sleep` take process locks while they hold `tickslock`;
`sched`, `allocproc` and `fork` take `tickslock` while they hold a process lock.
Two CPUs that do so with the same process wait for each other. No CPUs wait for
each other in the runs in which `tickslock` and that lock are not asked for in
both orders at a time.
-/

namespace Xv6.Proc

open Xv6.Semantics

variable {ncpu : Nat} {strict : Prop} {kernel next : Kernel ncpu} {ghost : Ghost ncpu}
  {c : Fin ncpu} {rest : List Op}

/-- Some CPUs wait for each other: each of them waits for `tickslock` or a process
lock that another of them holds. -/
def Deadlocked (kernel : Kernel ncpu) : Prop :=
  ∃ cpus : Set (Fin ncpu), cpus.Nonempty ∧ ∀ c ∈ cpus, ∃ lk, kernel.waitsFor c = some lk ∧
    (lk = .tickslock ∨ lk.isProc = true) ∧ ∃ d ∈ cpus, d ≠ c ∧ kernel.owner lk = some d

/-- Whether the thread of `me`, which holds `tickslock`, will call
`acquire(&r->lock)` before it gives `tickslock` back. -/
def takes (me : Option Slot) (r : Slot) : List Op → Bool
  | [] => false
  | .acquire lk :: rest => lk = .proc r || takes me r rest
  | .spin lk :: rest => lk = .proc r || takes me r rest
  | .release lk :: rest => lk ≠ .tickslock && takes me r rest
  | .panic _ :: _ => false
  | .wakeup _ i :: rest => decide (i ≤ r.val ∧ me ≠ some r) || takes me r rest
  | .readTicks _ :: _ => false
  | .sleepStart _ :: _ => me = some r
  | .sleepLoop p _ _ :: _ => p = r
  | .readKilled p (.sysSleep _ _) :: _ => p = r
  | .sleep _ _ :: _ => me = some r
  | .sleepRelease _ _ _ :: _ => false
  | _ :: rest => takes me r rest

/-- Steps that ask for `tickslock` and obtain it in order. A CPU that holds
`r->lock` calls `acquire(&tickslock)` only if the holder of `tickslock` will not
take `r->lock`; and a CPU that will take `r->lock` obtains `tickslock` only if
the holder of `r->lock` does not wait for `tickslock`. -/
structure InOrder (kernel : Kernel ncpu) (label : Label ncpu) : Prop where
  asks : ∀ c rest d r, label = .step c → (kernel.cpu c).ops = .acquire .tickslock :: rest →
    kernel.owner (.proc r) = some c → kernel.owner .tickslock = some d →
    takes (kernel.myproc d) r (kernel.cpu d).ops = false
  obtains : ∀ c rest d r, label = .step c → (kernel.cpu c).ops = .spin .tickslock :: rest →
    kernel.owner (.proc r) = some d → takes (kernel.myproc c) r rest = true →
    kernel.waitsFor d ≠ some .tickslock

section Waiting

/-- The operations that never lead directly to the one behind them. -/
def Op.isReplaced : Op → Bool
  | .panic _ | .enterLoop _ | .loop _ | .scan _ _ | .exit _ | .uptime _ | .readTicks _ => true
  | _ => false

theorem isReplaced_of_rule (ruled : rule strict me op (fun _ => False) mode) (plain : op.Plain) :
    op.isReplaced = true := by
  cases op with
  | readKilled p caller =>
    obtain ⟨_, held, _, _, resumes⟩ := ruled
    cases caller <;> simp [KilledCaller.rule] at resumes
  | spin lk => exact absurd rfl (plain.1 lk)
  | back t p => exact absurd rfl (plain.2 t p)
  | _ => simp_all [rule, Op.isReplaced]

/-- A disciplined thread does not start in the middle of an `acquire`. -/
theorem waitsFor_of_disciplined
    (obeys : Disciplined strict me rest mode) : waitsFor rest = none := by
  unfold waitsFor
  split
  · exact obeys.elim
  · rfl

section

variable (sound : Sound strict kernel ghost) (ops : (kernel.cpu c).ops = op :: rest)
include sound ops

/-- The operations behind the first one do not start in the middle of an `acquire`. -/
theorem Sound.waitsFor_rest (kept : op.isReplaced = false) : waitsFor rest = none := by
  cases sound.cpus c with
  | running executes _ _ =>
    cases executes with
    | next obeys _ =>
      rw [ops] at obeys
      unfold waitsFor
      split
      · rename_i lk _
        have plain : op.Plain := by
          constructor
          · rintro _ rfl
            exact obeys
          · rintro _ _ rfl
            exact obeys
        have replaced := isReplaced_of_rule obeys plain
        rw [kept] at replaced
        cases replaced
      · rfl
    | spins spinning obeys _ =>
      rw [ops] at spinning
      cases spinning
      exact waitsFor_of_disciplined obeys.2.2
  | returning _ atBack _ _ obeys _ =>
    rw [ops] at atBack
    cases atBack
    exact waitsFor_of_disciplined obeys

theorem Sound.waitsFor_context (plain : op.Plain) (current : (kernel.cpu c).proc = some p) :
    waitsFor (kernel.cpu c).context = none := by
  obtain ⟨t, after, context, _⟩ := ((sound.head ops plain).2.2.2 p current).scheduler
  rw [context]
  rfl

end

theorem waitsFor_setCpu (cpu : Cpu) : (kernel.setCpu c cpu).waitsFor c = waitsFor cpu.ops := by
  simp [Kernel.waitsFor]

theorem waitsFor_goto (ops : List Op) : (kernel.goto c ops).waitsFor c = waitsFor ops :=
  waitsFor_setCpu _

theorem waitsFor_stops (message : String) (ops : List Op) :
    (kernel.stops c message ops).waitsFor c = none :=
  waitsFor_goto _

theorem waitsFor_withProc (body : Slot → List Op)
    (bodies : ∀ p, waitsFor (body p ++ rest) = none) :
    (kernel.withProc c rest body).waitsFor c = none := by
  unfold Kernel.withProc
  split
  · simp [Kernel.waitsFor, bodies]
  · simp [Kernel.waitsFor, Kernel.stops, waitsFor]

theorem Sound.acquire_of_waitsFor (sound : Sound strict kernel ghost)
    (ops : (kernel.cpu c).ops = op :: rest) (ran : Proc.stepOp kernel c rest op = some next)
    (waits : next.waitsFor c = some lk) :
    op = .acquire lk ∧ next.owner = kernel.owner := by
  have behind := sound.waitsFor_rest ops
  have calls : ∀ body : Slot → List Op, (∀ p, waitsFor (body p ++ rest) = none) →
      (kernel.withProc c rest body).waitsFor c ≠ some lk := by
    intro body bodies
    simp [waitsFor_withProc body bodies]
  cases op with
  | acquire lk' =>
    simp only [Proc.stepOp] at ran
    split at ran <;> cases ran
    · rw [waitsFor_stops] at waits
      cases waits
    · simp only [waitsFor_goto, waitsFor, Option.some.injEq] at waits
      exact ⟨by rw [waits], rfl⟩
  | pick t p =>
    simp only [Proc.stepOp] at ran
    split at ran <;> cases ran
    · rename_i runnable
      have resumes := waitsFor_of_disciplined (sound.picked ops runnable)
      simp [Kernel.waitsFor, Kernel.switchIn, resumes] at waits
    · simp [Kernel.waitsFor, behind rfl] at waits
  | charge p t =>
    have switches := sound.waitsFor_context ops (.of rfl) (sound.head ops (.of rfl)).1.1.mine
    cases ran
    simp only [Kernel.charge] at waits
    split at waits
    · simp [Kernel.waitsFor, waitsFor] at waits
    · split at waits
      · simp [Kernel.waitsFor, Kernel.switchOut, switches] at waits
      · simp [Kernel.waitsFor, waitsFor] at waits
  | tail p t =>
    have switches := sound.waitsFor_context ops (.of rfl) (sound.head ops (.of rfl)).1.1.mine
    cases ran
    simp [Kernel.waitsFor, Kernel.switchOut, switches] at waits
  | yield | forkret | sleep chan lk' | setkilled | wait fails | fork memory | sleepStart n
  | killedExit =>
    cases ran
    exact absurd waits (calls _ fun _ => rfl)
  | _ =>
    simp only [Proc.stepOp] at ran
    repeat' split at ran
    all_goals cases ran
    all_goals
      first
      | (rw [waitsFor_goto, behind rfl] at waits; cases waits)
      | (rw [waitsFor_goto] at waits; cases waits)
      | (rw [waitsFor_stops] at waits; cases waits)
      | (rw [waitsFor_setCpu, behind rfl] at waits; cases waits)
      | (rw [waitsFor_setCpu] at waits; cases waits)

end Waiting

section Taking

/-- The operations that a thread may perform while it holds `tickslock`. -/
def Op.mayHoldTicks : Op → Bool
  | .acquire _ | .spin _ | .release _ | .panic _ | .restore _ | .sleep _ _ | .sleepRelease _ _ _
  | .sleepReturn _ | .wakeup _ _ | .wake _ _ | .markKilled _ | .readKilled _ _ | .readTicks _
  | .sleepStart _ | .sleepLoop _ _ _ | .tick => true
  | _ => false

theorem mayHoldTicks_of_rule
    (ruled : rule strict me op after mode) (holds : Lock.tickslock ∈ mode.held) :
    op.mayHoldTicks = true := by
  have refute : ∀ {held : List Lock}, mode.held = held → Lock.tickslock ∉ held →
      op.mayHoldTicks = true := fun same absent => absurd (same ▸ holds) absent
  cases op with
  | uptime caller => exact absurd holds ruled.1
  | sched =>
    obtain ⟨p, leaves, _⟩ := ruled
    exact refute leaves.held (by simp)
  | forkret =>
    obtain ⟨p, _, same, _⟩ := ruled
    exact refute (congrArg Mode.held same) (by simp [Mode.holding])
  | _ =>
    first
    | rfl
    | exact ruled.elim
    | exact refute ruled.1.held (by simp)
    | exact refute ruled.2.1.held (by simp)
    | exact refute ruled.2.1 (by simp)
    | exact refute (congrArg Mode.held ruled.2) (by simp [Mode.holding])
    | exact refute (congrArg Mode.held ruled.2.1) (by simp [Mode.holding])

theorem Sound.mayHoldTicks (sound : Sound strict kernel ghost)
    (ops : (kernel.cpu c).ops = op :: rest) (holds : .tickslock ∈ (ghost.mode c).held) :
    op.mayHoldTicks = true := by
  cases sound.cpus c with
  | running executes _ _ =>
    cases executes with
    | next obeys _ =>
      rw [ops] at obeys
      exact mayHoldTicks_of_rule obeys holds
    | spins spinning _ _ =>
      rw [ops] at spinning
      cases spinning
      rfl
  | returning _ _ mode _ _ _ => simp [mode, Mode.holding] at holds

theorem takes_wakeup : takes me r (.wakeup chan i :: rest) = true ↔
      (i ≤ r.val ∧ me ≠ some r) ∨ takes me r rest = true := by
  simp [takes]

/-- While a CPU keeps `tickslock`, the process locks that it will take become fewer. -/
theorem Sound.takes_of_stepOp (sound : Sound strict kernel ghost)
    (ops : (kernel.cpu c).ops = op :: rest) (ran : Proc.stepOp kernel c rest op = some next)
    (holds : .tickslock ∈ (ghost.mode c).held) (kept : next.owner .tickslock = some c)
    (taken : Proc.takes (next.myproc c) r (next.cpu c).ops = true) :
    Proc.takes (kernel.myproc c) r (op :: rest) = true := by
  have allowed := sound.mayHoldTicks ops holds
  have ruled := fun plain => (sound.head ops plain).1
  cases op with
  | acquire lk =>
    simp only [Proc.stepOp] at ran
    split at ran <;> cases ran
    · simp [Kernel.stops, Kernel.myproc, Proc.takes] at taken
    · simpa [Kernel.myproc, Cpu.pushOff, Proc.takes] using taken
  | spin lk =>
    simp only [Proc.stepOp] at ran
    split at ran <;> cases ran
    simp [Kernel.myproc, Proc.takes] at taken ⊢
    exact .inr taken
  | release lk =>
    simp only [Proc.stepOp] at ran
    split at ran <;> cases ran
    · rename_i released done
      obtain ⟨cpu, ⟨same, _⟩, rfl⟩ := Kernel.eq_of_releaseLock done
      have other : lk ≠ .tickslock := by
        rintro rfl
        simp at kept
      simpa [Kernel.myproc, same, Proc.takes, other] using taken
    · simp [Kernel.stops, Proc.takes] at taken
  | panic message => cases ran
  | restore intena | sleepReturn p | markKilled p | tick =>
    cases ran
    simpa [Kernel.myproc, Proc.takes] using taken
  | wake chan p =>
    simp only [Proc.stepOp] at ran
    split at ran <;> cases ran <;> simpa [Kernel.myproc, Proc.takes] using taken
  | sleep chan lk =>
    obtain ⟨⟨p, mine⟩, _⟩ := ruled (.of rfl)
    cases ran
    rw [kernel.withProc_eq mine] at taken
    simpa [Kernel.myproc, sleepBody, Proc.takes, mine] using taken
  | sleepRelease p chan lk =>
    obtain ⟨_, calls, _⟩ := ruled (.of rfl)
    obtain rfl : lk = .tickslock := by simpa [calls.held, eq_comm] using holds
    simp only [Proc.stepOp] at ran
    split at ran <;> cases ran
    · rename_i released done
      obtain ⟨cpu, _, rfl⟩ := Kernel.eq_of_releaseLock done
      simp at kept
    · simp [Kernel.stops, Proc.takes] at taken
  | wakeup chan i =>
    rw [takes_wakeup]
    simp only [Proc.stepOp] at ran
    split at ran
    · split at ran <;> cases ran
      · rw [Kernel.goto_cpu, Function.update_self, takes_wakeup] at taken
        rcases taken with ⟨later, other⟩ | taken
        · exact .inl ⟨by omega, by simpa [Kernel.myproc] using other⟩
        · exact .inr (by simpa [Kernel.myproc] using taken)
      rename_i bound other
      have taken : i = r.val ∨ (i + 1 ≤ r.val ∧ kernel.myproc c ≠ some r) ∨
          Proc.takes (kernel.myproc c) r rest = true := by
        simpa [Kernel.myproc, Proc.takes, Fin.ext_iff] using taken
      rcases taken with same | ⟨later, other⟩ | taken
      · exact .inl ⟨by omega, by simpa only [same] using other⟩
      · exact .inl ⟨by omega, other⟩
      · exact .inr taken
    · cases ran
      exact .inr (by simpa [Kernel.myproc] using taken)
  | readKilled p caller =>
    obtain ⟨mine, held, calls, _, resumes⟩ := ruled (.of rfl)
    cases ran
    rw [calls.held] at holds
    cases caller with
    | usertrap => simp [resumes.1] at holds
    | sysSleep ticks0 n =>
      by_cases isKilled : (kernel.proc p).killed = true
      · simp [Kernel.myproc, Proc.takes, KilledCaller.resume, isKilled] at taken
      · simpa [Kernel.myproc, Proc.takes, KilledCaller.resume, isKilled, mine] using taken
    | wait fails => simp [resumes.1] at holds
    | client => simpa [Kernel.myproc, Proc.takes, KilledCaller.resume] using taken
  | readTicks caller =>
    cases ran
    simp [Proc.takes] at taken
  | sleepStart n =>
    obtain ⟨⟨p, mine⟩, _⟩ := ruled (.of rfl)
    cases ran
    rw [kernel.withProc_eq mine] at taken
    simpa [Kernel.myproc, Proc.takes, mine] using taken
  | sleepLoop p ticks0 n =>
    simp only [Proc.stepOp] at ran
    split at ran <;> cases ran
    · simpa [Proc.takes] using taken
    · simp [Proc.takes] at taken
  | _ => cases allowed

end Taking

/-- The holder of `tickslock` will not wait for a CPU that waits for `tickslock`. -/
def Orderly (kernel : Kernel ncpu) : Prop :=
  ∀ d f r, kernel.owner .tickslock = some d → takes (kernel.myproc d) r (kernel.cpu d).ops = true →
    kernel.owner (.proc r) = some f → kernel.waitsFor f ≠ some .tickslock

/-- A CPU that waits for a lock holds no other process lock if it is one, and not this lock. -/
theorem Sound.held_of_waitsFor (sound : Sound strict kernel ghost)
    (waits : kernel.waitsFor c = some lk) :
    lk ∉ (ghost.mode c).held ∧ (lk.isProc = true → Mode.NoProc (ghost.mode c).held) := by
  unfold Kernel.waitsFor waitsFor at waits
  split at waits
  · rename_i lk' rest ops
    cases waits
    cases sound.cpus c with
    | running executes _ _ =>
      cases executes with
      | next obeys _ =>
        rw [ops] at obeys
        exact obeys.elim
      | spins spinning obeys _ =>
        rw [ops] at spinning
        cases spinning
        exact ⟨obeys.1, obeys.2.1⟩
    | returning _ atBack _ _ _ _ =>
      rw [ops] at atBack
      cases atBack
  · cases waits

section Traps

/-- What a step that performs no operation of its CPU does: the CPU does not hold
`tickslock`, and does not wait for a lock afterwards. -/
structure Traps (kernel next : Kernel ncpu) (ghost : Ghost ncpu) (c : Fin ncpu) : Prop where
  owner : next.owner = kernel.owner
  released : .tickslock ∉ (ghost.mode c).held
  ready : next.waitsFor c = none

section

variable (sound : Sound strict kernel ghost)
include sound

theorem Sound.traps_usertrap (ran : Proc.usertrap kernel c push = some next)
    (ready : waitsFor push = none) : Traps kernel next ghost c := by
  simp only [Proc.usertrap] at ran
  split at ran <;> cases ran
  rename_i user
  refine ⟨rfl, ?_, by rw [waitsFor_setCpu, ready]⟩
  rw [(sound.inUserMode user).2.2]
  exact List.not_mem_nil

theorem Sound.traps_interrupt (ran : Proc.interrupt kernel c user inKernel = some next)
    (fromUser : waitsFor user = none) (fromKernel : ∀ ops, waitsFor (inKernel ++ ops) = none) :
    Traps kernel next ghost c := by
  simp only [Proc.interrupt] at ran
  split at ran
  · rename_i enabled
    split at ran
    · exact sound.traps_usertrap ran fromUser
    have calls := (sound.interruptible (sound.interrupts c enabled)).2.1
    cases ran
    refine ⟨rfl, ?_, by rw [waitsFor_setCpu, fromKernel]⟩
    rw [calls.held]
    exact List.not_mem_nil
  · cases ran

theorem Sound.traps_stepClient (ops : (kernel.cpu c).ops = op :: rest)
    (ran : Proc.stepClient kernel c rest op choice = some next) : Traps kernel next ghost c := by
  have released : Op.mayHoldTicks op = false → .tickslock ∉ (ghost.mode c).held := by
    intro never holds
    rw [sound.mayHoldTicks ops holds] at never
    cases never
  have behind := sound.waitsFor_rest ops
  simp only [Proc.stepClient] at ran
  split at ran <;> cases ran
  · exact ⟨rfl, released rfl, waitsFor_goto _⟩
  · exact ⟨rfl, released rfl, by rw [waitsFor_goto, behind rfl]⟩
  · exact ⟨rfl, released rfl, waitsFor_goto _⟩
  · exact ⟨rfl, released rfl, waitsFor_goto _⟩
  · refine ⟨?_, released rfl, waitsFor_withProc _ fun _ => rfl⟩
    unfold Kernel.withProc
    split <;> rfl
  · exact ⟨rfl, released rfl, waitsFor_goto _⟩

end

theorem waitsFor_clockintr (ready : waitsFor ops = none) :
    waitsFor (clockintr c ++ ops) = none := by
  unfold clockintr
  split
  · rfl
  · exact ready

theorem Sound.stepOp_or_traps (sound : Sound strict kernel ghost)
    (ran : Proc.step kernel label = some next) :
    Traps kernel next ghost label.cpu ∨
      ∃ op rest, label = .step label.cpu ∧ (kernel.cpu label.cpu).ops = op :: rest ∧
        Proc.stepOp kernel label.cpu rest op = some next := by
  cases label with
  | step c =>
    simp only [Proc.step] at ran
    split at ran
    · rename_i op rest ops
      exact .inr ⟨op, rest, rfl, ops, ran⟩
    · cases ran
  | client c choice =>
    simp only [Proc.step] at ran
    split at ran
    · rename_i op rest ops
      exact .inl (sound.traps_stepClient ops ran)
    · cases ran
  | syscall c call => exact .inl (sound.traps_usertrap ran rfl)
  | fault c => exact .inl (sound.traps_usertrap ran rfl)
  | timer c =>
    refine .inl (sound.traps_interrupt ran (waitsFor_clockintr rfl) fun ops => ?_)
    rw [List.append_assoc]
    exact waitsFor_clockintr rfl
  | device c k a => exact .inl (sound.traps_interrupt ran rfl fun _ => rfl)

end Traps

theorem Orderly.step (orderly : Orderly kernel) (sound : Sound strict kernel ghost)
    (soundAfter : Sound strict next after)
    (ran : Proc.step kernel label = some next) (inOrder : InOrder kernel label) :
    Orderly next := by
  intro d f r ticks taken owned waits
  have isLocal := Local.of_step ran
  have elsewhere : ∀ lk e, e ≠ label.cpu → next.owner lk = some e → kernel.owner lk = some e :=
    fun lk e other nowOwned => (isLocal.owners lk e nowOwned).resolve_right fun same => other same.1
  by_cases sameD : d = label.cpu
  · by_cases sameF : f = label.cpu
    · -- one CPU holds `tickslock` and waits for it
      rw [← sameF] at sameD
      subst sameD
      exact (soundAfter.held_of_waitsFor waits).1 ((soundAfter.owner _ _).mp ticks)
    subst sameD
    have owned := elsewhere _ f sameF owned
    have waited : kernel.waitsFor f = some .tickslock := by
      rwa [Kernel.waitsFor, isLocal.cpus f sameF] at waits
    rcases sound.stepOp_or_traps ran with traps | ⟨op, rest, isStep, ops, steppedOp⟩
    · rw [traps.owner] at ticks
      exact traps.released ((sound.owner _ _).mp ticks)
    rcases isLocal.owners _ _ ticks with before | ⟨_, gains⟩
    · have takesBefore := sound.takes_of_stepOp ops steppedOp ((sound.owner _ _).mp before) ticks
        taken
      rw [← ops] at takesBefore
      exact orderly _ f r before takesBefore owned waited
    rw [Kernel.waitsFor, ops] at gains
    unfold waitsFor at gains
    split at gains <;> cases gains
    rename_i same
    cases same
    simp only [Proc.stepOp] at steppedOp
    split at steppedOp <;> cases steppedOp
    refine inOrder.obtains _ rest f r isStep ops owned ?_ waited
    simpa [Kernel.myproc] using taken
  have ticks := elsewhere _ d sameD ticks
  have taken : takes (kernel.myproc d) r (kernel.cpu d).ops = true := by
    rwa [Kernel.myproc, isLocal.cpus d sameD] at taken
  by_cases sameF : f = label.cpu
  · subst sameF
    rcases sound.stepOp_or_traps ran with traps | ⟨op, rest, isStep, ops, steppedOp⟩
    · rw [traps.ready] at waits
      cases waits
    obtain ⟨rfl, owner⟩ := sound.acquire_of_waitsFor ops steppedOp waits
    rw [owner] at owned
    have harmless := inOrder.asks _ rest d r isStep ops owned ticks
    rw [taken] at harmless
    cases harmless
  · rw [Kernel.waitsFor, isLocal.cpus f sameF] at waits
    exact orderly d f r ticks taken (elsewhere _ f sameF owned) waits

theorem Orderly.not_deadlocked (sound : Sound strict kernel ghost) (orderly : Orderly kernel) :
    ¬ Deadlocked kernel := by
  rintro ⟨cpus, ⟨c, mem⟩, blocked⟩
  -- a holder of a process lock waits for `tickslock`, and the holder of `tickslock` for a process lock
  have behindProc : ∀ {d r}, d ∈ cpus → kernel.owner (.proc r) = some d →
      kernel.waitsFor d = some .tickslock := by
    intro d r inside owned
    obtain ⟨lk, waits, rfl | isProc, _⟩ := blocked d inside
    · exact waits
    · exact absurd ((sound.owner _ d).mp owned) ((sound.held_of_waitsFor waits).2 isProc r)
  have behindTicks : ∀ {d}, d ∈ cpus → kernel.owner .tickslock = some d → False := by
    intro d inside owned
    obtain ⟨lk, waits, isLock, f, alsoInside, _, holder⟩ := blocked d inside
    rcases isLock with rfl | isProc
    · exact (sound.held_of_waitsFor waits).1 ((sound.owner _ d).mp owned)
    obtain ⟨r, rfl⟩ : ∃ r, lk = .proc r := by
      cases lk <;> simp_all [Lock.isProc]
    refine orderly d f r owned ?_ holder (behindProc alsoInside holder)
    unfold Kernel.waitsFor waitsFor at waits
    split at waits
    · rename_i lk' rest ops
      cases waits
      simp [ops, takes]
    · cases waits
  obtain ⟨lk, waits, rfl | isProc, d, inside, _, owned⟩ := blocked c mem
  · exact behindTicks inside owned
  obtain ⟨r, rfl⟩ : ∃ r, lk = .proc r := by
    cases lk <;> simp_all [Lock.isProc]
  have waitsTicks := behindProc inside owned
  obtain ⟨lk', waits', _, e, alsoInside, _, ownedTicks⟩ := blocked d inside
  rw [waitsTicks] at waits'
  cases waits'
  exact behindTicks alsoInside ownedTicks

/-- The steps in which no CPUs can get to wait for each other. -/
def KeepsOrder (kernel : Kernel ncpu) (label : Label ncpu) : Prop :=
  ListsOnly kernel label ∧ InOrder kernel label

theorem orderly_of_runs (run : ((machine ncpu).restrict KeepsOrder).Runs start labels kernel) :
    ∃ ghost, Sound False kernel ghost ∧ Orderly kernel := by
  have initial : ∀ kernel, ((machine ncpu).restrict KeepsOrder).Initial kernel →
      ∃ ghost, Sound False kernel ghost ∧ Orderly kernel := by
    rintro _ rfl
    refine ⟨.start ncpu, .boot False ncpu, ?_⟩
    intro d f r ticks
    cases ticks
  apply run.invariant initial
  rintro kernel label next ⟨ghost, sound, orderly⟩ ⟨ran, lists, inOrder⟩
  obtain ⟨after, preserved, _⟩ := sound.step ran lists False.elim
  exact ⟨after, preserved, orderly.step sound preserved ran inOrder⟩

/-- The first process runs on CPU 1. A timer interrupt there leads to `yield`, and
`sched` calls `sys_uptime` with the process lock held. On CPU 0 a timer interrupt
leads to `clockintr`, and `wakeup` visits the process with `tickslock` held. -/
def crossing : List (Label 2) :=
  [steps 1 13, [.client 1 .finish], steps 1 1, [.timer 1], steps 1 10, steps 0 7, [.timer 0],
    steps 0 3, steps 1 2, steps 0 2].flatten

end Xv6.Proc
