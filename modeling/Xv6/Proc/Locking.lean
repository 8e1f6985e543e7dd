import Xv6.Proc.Switch

/-!
# Taking and giving back spinlocks
-/

namespace Xv6.Proc

open Xv6.Semantics

variable {ncpu : Nat} {strict : Prop} {kernel next : Kernel ncpu} {ghost : Ghost ncpu}
  {c : Fin ncpu} {lk : Lock} {rest : List Op}

section

variable (sound : Sound strict kernel ghost)
include sound

theorem Sound.spinning (ops : (kernel.cpu c).ops = .spin lk :: rest) :
    Disciplined strict (kernel.cpu c).proc (.acquire lk :: rest) (ghost.mode c) ∧
      (kernel.cpu c).noff = (ghost.mode c).held.length + 1 ∧
      ((kernel.cpu c).proc = none → ghost.mode c = .holding (ghost.mode c).held) ∧
      ∀ p, (kernel.cpu c).proc = some p → ProcessSound strict kernel ghost c p := by
  cases sound.cpus c with
  | running executes idle process =>
    cases executes with
    | next obeys _ =>
      rw [ops] at obeys
      exact obeys.elim
    | spins spinning obeys noff =>
      rw [ops] at spinning
      cases spinning
      exact ⟨obeys, noff, idle, process⟩
  | returning _ atBack _ _ _ _ =>
    rw [ops] at atBack
    cases atBack

theorem Sound.acquires (ops : (kernel.cpu c).ops = .acquire lk :: rest)
    (ran : stepOp kernel c rest (.acquire lk) = some next) : Sound strict next ghost := by
  obtain ⟨ruled, noff, idle, process⟩ := sound.head ops (.of rfl)
  have notHolding : kernel.owner lk ≠ some c := fun holding =>
    ruled.1 ((sound.owner lk c).mp holding)
  simp only [stepOp, if_neg notHolding, Option.some.injEq] at ran
  subst ran
  refine sound.replacesCpu process idle (Function.update_idem ..) rfl (fun _ => rfl)
    (fun _ => rfl) ?_ ?_ ?_ (.spins rfl ruled ?_)
  · simp [Cpu.pushOff]
  · simp [Cpu.pushOff]
  · simp [Cpu.pushOff]
  · simp [Cpu.pushOff, noff]

theorem Sound.takes (ops : (kernel.cpu c).ops = .spin lk :: rest) (free : kernel.owner lk = none)
    (ran : stepOp kernel c rest (.spin lk) = some next) :
    Sound strict next
      (ghost.enter c { ghost.mode c with held := lk :: (ghost.mode c).held }) := by
  obtain ⟨⟨fresh, _, obeys⟩, noff, idle, process⟩ := sound.spinning ops
  have nobody : ∀ d, lk ∉ (ghost.mode d).held := by
    intro d held
    have owned := (sound.owner lk d).mpr held
    rw [free] at owned
    cases owned
  simp only [stepOp, if_pos free, Option.some.injEq] at ran
  subst ran
  refine sound.neutral process
    { cpus := fun d other => by simp [other]
      owner := ?_
      nodup := ?_
      states := fun _ => rfl
      contexts := fun _ => rfl
      current := by simp
      context := by simp
      interrupts := by simpa using sound.interrupts c
      modes := fun d other => Ghost.enter_of_ne other _
      keeps := fun _ _ held => by simp [held]
      leaving := by simp
      modeChild := by simp
      child := rfl
      found := fun _ found => .inl (by simpa using found)
      waiting := fun _ _ => rfl
      modeWaiting := fun p current => by simpa using (process p current).waiting
      awake := fun _ => .inl rfl
      executes := ?_
      idle := ?_ }
  · intro other d
    obtain rfl | same := eq_or_ne other lk
    · obtain rfl | acts := eq_or_ne d c
      · simp
      · simp [Ghost.enter_of_ne acts, nobody d, Ne.symm acts]
    · obtain rfl | acts := eq_or_ne d c
      · simp [same, sound.owner]
      · simp [Ghost.enter_of_ne acts, same, sound.owner]
  · simp [fresh, sound.nodup c]
  · rw [Ghost.enter_self]
    refine .next ?_ ?_
    · rw [Kernel.goto_cpu, Function.update_self]
      exact obeys
    · simp [noff]
  · intro noProc
    rw [Ghost.enter_self, idle noProc]
    rfl

/-- Giving back a held lock does not panic; interrupts come back on with the last one. -/
theorem Sound.releaseLock_eq (noff : (kernel.cpu c).noff = (ghost.mode c).held.length) (held :
    lk ∈ (ghost.mode c).held) :
    kernel.releaseLock c lk = .ok ((kernel.setOwner lk none).setCpu c
      { kernel.cpu c with
        noff := (ghost.mode c).held.length - 1
        intr := (ghost.mode c).held.length - 1 = 0 ∧ (kernel.cpu c).intena }) := by
  have owned := (sound.owner lk c).mpr held
  have positive := List.length_pos_of_mem held
  have off : (kernel.cpu c).intr = false := by
    cases on : (kernel.cpu c).intr with
    | false => rfl
    | true =>
      have zero := sound.interrupts c on
      omega
  have depth : ¬ (kernel.cpu c).noff < 1 := by omega
  have popped : (kernel.cpu c).popOff = .ok
      { kernel.cpu c with
        noff := (ghost.mode c).held.length - 1
        intr := (ghost.mode c).held.length - 1 = 0 ∧ (kernel.cpu c).intena } := by
    rw [Cpu.popOff, off, if_neg (by simp), if_neg depth, noff]
  rw [Kernel.releaseLock, if_neg (by simp [owned]), popped]

theorem Sound.owner_erase (held : lk ∈ (ghost.mode c).held)
    (erased : mode.held = (ghost.mode c).held.erase lk) (other : Lock)
    (d : Fin ncpu) : Function.update kernel.owner lk none other = some d ↔
      other ∈ ((ghost.enter c mode).mode d).held := by
  have distinct := sound.nodup c
  obtain rfl | same := eq_or_ne other lk
  · obtain rfl | acts := eq_or_ne d c
    · simp [erased, distinct.mem_erase_iff]
    · simp [Ghost.enter_of_ne acts, sound.not_held held acts]
  · obtain rfl | acts := eq_or_ne d c
    · simp [erased, distinct.mem_erase_iff, same, sound.owner]
    · simp [Ghost.enter_of_ne acts, same, sound.owner]

theorem Sound.releases (ops : (kernel.cpu c).ops = .release lk :: rest)
    (ran : stepOp kernel c rest (.release lk) = some next) :
    Sound strict next
      (ghost.enter c { ghost.mode c with held := (ghost.mode c).held.erase lk }) := by
  obtain ⟨⟨held, kept, obeys⟩, noff, idle, process⟩ :=
    sound.head ops (.of rfl)
  have length : ((ghost.mode c).held.erase lk).length = (ghost.mode c).held.length - 1 :=
    List.length_erase_of_mem held
  simp only [stepOp, sound.releaseLock_eq noff held, Option.some.injEq] at ran
  subst ran
  refine sound.neutral process
    { cpus := fun d other => by simp [other]
      owner := by simpa using sound.owner_erase held rfl
      nodup := by simpa using (sound.nodup c).erase lk
      states := fun _ => rfl
      contexts := fun _ => rfl
      current := by simp
      context := by simp
      interrupts := by simp; omega
      modes := fun d other => Ghost.enter_of_ne other _
      keeps := ?_
      leaving := by simp
      modeChild := by simp
      child := rfl
      found := fun _ found => .inl (by simpa using found)
      waiting := fun _ _ => rfl
      modeWaiting := fun p current => by simpa using (process p current).waiting
      awake := fun _ => .inl rfl
      executes := ?_
      idle := ?_ }
  · intro p needed stillHeld
    rw [Ghost.enter_self, (sound.nodup c).mem_erase_iff]
    refine ⟨?_, stillHeld⟩
    rintro rfl
    obtain ⟨notLeaving, notFound⟩ := kept p rfl
    rcases needed with ⟨leaving, current⟩ | found
    · rw [notLeaving current] at leaving
      cases leaving
    · exact notFound found
  · rw [Ghost.enter_self]
    refine .next ?_ ?_
    · rw [Kernel.goto_cpu, Function.update_self]
      exact obeys
    · simp [length]
  · intro noProc
    rw [Ghost.enter_self, idle noProc]
    rfl

end

end Xv6.Proc
