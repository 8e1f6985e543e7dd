import Xv6.Proc.Machine

/-!
# What one CPU does to the others

A step of a CPU changes no other CPU, and gives no lock to any CPU, except the
lock that the CPU waits for in `acquire`.
-/

namespace Xv6.Proc

open Xv6.Semantics

variable {ncpu : Nat}  {kernel next : Kernel ncpu} 
  {c : Fin ncpu} {rest : List Op} {gained : Option Lock}

/-- The lock that a thread waits for in `acquire`. -/
def waitsFor : List Op → Option Lock
  | .spin lk :: _ => some lk
  | _ => none

/-- The lock that a CPU waits for. -/
def Kernel.waitsFor (kernel : Kernel ncpu) (c : Fin ncpu) : Option Lock :=
  Proc.waitsFor (kernel.cpu c).ops

/-- CPU `c` changes only its own registers, and gives no lock to any CPU, except
the lock `gained` to itself. -/
structure Local (c : Fin ncpu) (gained : Option Lock) (kernel next : Kernel ncpu) : Prop where
  cpus : ∀ d, d ≠ c → next.cpu d = kernel.cpu d
  owners : ∀ lk d, next.owner lk = some d →
    kernel.owner lk = some d ∨ d = c ∧ gained = some lk

namespace Local

theorem refl (c : Fin ncpu) (gained : Option Lock) (kernel : Kernel ncpu) :
    Local c gained kernel kernel where
  cpus := fun _ _ => rfl
  owners := fun _ _ owned => .inl owned

variable (earlier : Local c gained kernel next)
include earlier

theorem setCpu (cpu : Cpu) : Local c gained kernel (next.setCpu c cpu) where
  cpus := fun d other => by simp [other, earlier.cpus d other]
  owners := earlier.owners

theorem goto (ops : List Op) : Local c gained kernel (next.goto c ops) := earlier.setCpu _

theorem stops (message : String) (ops : List Op) : Local c gained kernel
    (next.stops c message ops) :=
  earlier.goto _

theorem setProc (p : Slot) (process : Process) : Local c gained kernel
    (next.setProc p process) where
  cpus := earlier.cpus
  owners := earlier.owners

theorem switchOut (p : Slot) (saved : List Op) : Local c gained kernel (next.switchOut c p saved) :=
  (earlier.setProc _ _).goto _

theorem switchIn (p : Slot) (saved : List Op) : Local c gained kernel (next.switchIn c p saved) :=
  earlier.setCpu _

theorem withProc (body : Slot → List Op) : Local c gained kernel (next.withProc c rest body) := by
  unfold Kernel.withProc
  split
  · exact earlier.goto _
  · exact earlier.stops _ _

theorem setOwner (mine : owner = none ∨ owner = some c ∧ gained = some lk) :
    Local c gained kernel (next.setOwner lk owner) where
  cpus := earlier.cpus
  owners := by
    intro other d owned
    obtain rfl | same := eq_or_ne other lk
    · rw [Kernel.setOwner_owner, Function.update_self] at owned
      rcases mine with rfl | ⟨rfl, gains⟩
      · cases owned
      · exact .inr ⟨(Option.some.inj owned).symm, gains⟩
    · exact earlier.owners other d (by simpa [same] using owned)

end Local

theorem Kernel.eq_of_releaseLock (done : kernel.releaseLock c lk = .ok released) :
    ∃ cpu, (cpu.proc = (kernel.cpu c).proc ∧ cpu.context = (kernel.cpu c).context) ∧
      released = (kernel.setOwner lk none).setCpu c cpu := by
  simp only [Kernel.releaseLock] at done
  split at done
  · cases done
  split at done
  · rename_i cpu popped
    cases done
    refine ⟨cpu, ?_, rfl⟩
    simp only [Cpu.popOff] at popped
    repeat' split at popped
    all_goals cases popped
    exact ⟨rfl, rfl⟩
  · cases done

theorem Local.releaseLock
    (done : kernel.releaseLock c lk = .ok released) : Local c gained kernel released := by
  obtain ⟨cpu, _, rfl⟩ := Kernel.eq_of_releaseLock done
  exact ((Local.refl c gained kernel).setOwner (.inl rfl)).setCpu _

theorem Local.charge (p : Slot) (ctick : Nat) : Local c gained kernel
    (kernel.charge c p ctick rest) := by
  have here := Local.refl c gained kernel
  simp only [Kernel.charge]
  split
  · exact (here.setProc _ _).goto _
  · split
    · exact (here.setProc _ _).switchOut _ _
    · exact here.goto _

theorem Local.of_stepOp (ran : stepOp kernel c rest op = some next) :
    Local c (waitsFor (op :: rest)) kernel next := by
  have here := Local.refl c (waitsFor (op :: rest)) kernel
  have clock : ∀ ticks pid, Local c (waitsFor (op :: rest)) kernel
      { kernel with ticks := ticks, nextpid := pid } :=
    fun _ _ => ⟨here.cpus, here.owners⟩
  cases op <;> simp only [stepOp] at ran <;> (repeat' split at ran) <;> cases ran <;>
    first
    | exact here.goto _
    | exact here.stops _ _
    | exact here.setCpu _
    | exact here.withProc _
    | exact (here.setProc _ _).goto _
    | exact (here.setProc _ _).setCpu _
    | exact (here.setProc _ _).switchOut _ _
    | exact ((here.setProc _ _).setCpu _).switchIn _ _
    | exact (here.setCpu _).goto _
    | exact (here.setCpu _).stops _ _
    | exact (here.setOwner (.inr ⟨rfl, rfl⟩)).goto _
    | exact (Local.releaseLock ‹_›).goto _
    | exact ((Local.releaseLock ‹_›).setProc _ _).goto _
    | exact (clock _ _).goto _
    | exact Local.charge _ _

/-- The CPU that takes a step. -/
def Label.cpu : Label ncpu → Fin ncpu
  | .step c => c
  | .client c _ => c
  | .syscall c _ => c
  | .fault c => c
  | .timer c => c
  | .device c _ _ => c

theorem Local.of_usertrap (ran : usertrap kernel c ops = some next) :
    Local c gained kernel next := by
  simp only [usertrap] at ran
  split at ran <;> cases ran
  exact (Local.refl c gained kernel).setCpu _

theorem Local.of_interrupt
    (ran : interrupt kernel c user inKernel = some next) : Local c gained kernel next := by
  simp only [interrupt] at ran
  split at ran
  · split at ran
    · exact .of_usertrap ran
    · cases ran
      exact (Local.refl c gained kernel).setCpu _
  · cases ran

theorem Local.of_stepClient
    (ran : stepClient kernel c rest op choice = some next) : Local c gained kernel next := by
  have here := Local.refl c gained kernel
  simp only [stepClient] at ran
  split at ran <;> cases ran <;> first | exact here.goto _ | exact here.withProc _

theorem Local.of_step (ran : step kernel label = some next) :
    Local label.cpu (kernel.waitsFor label.cpu) kernel next := by
  cases label with
  | step c =>
    simp only [step] at ran
    split at ran
    · rename_i op rest ops
      rw [Label.cpu, Kernel.waitsFor, ops]
      exact .of_stepOp ran
    · cases ran
  | client c choice =>
    simp only [step] at ran
    split at ran
    · exact .of_stepClient ran
    · cases ran
  | syscall c call => exact .of_usertrap ran
  | fault c => exact .of_usertrap ran
  | timer c => exact .of_interrupt ran
  | device c k a => exact .of_interrupt ran

@[simp] theorem Kernel.withProc_proc (kernel : Kernel ncpu) (c : Fin ncpu) (rest : List Op)
    (body : Slot → List Op) : (kernel.withProc c rest body).proc = kernel.proc := by
  unfold Kernel.withProc
  split <;> rfl

theorem proc_of_trap (ran : step kernel label = some next)
    (trap : ∀ c, label ≠ .step c) : next.proc = kernel.proc := by
  cases label with
  | step c => exact absurd rfl (trap c)
  | client c choice =>
    simp only [step] at ran
    split at ran
    · simp only [stepClient] at ran
      split at ran <;> cases ran <;> simp
    · cases ran
  | syscall c call | fault c =>
    simp only [step, usertrap] at ran
    split at ran <;> cases ran
    rfl
  | timer c | device c k a =>
    simp only [step, interrupt, usertrap] at ran
    repeat' split at ran
    all_goals cases ran
    all_goals rfl

end Xv6.Proc
