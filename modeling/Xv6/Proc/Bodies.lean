import Xv6.Proc.Discipline

/-!
# The bodies of calls follow the discipline

An operation that stands for a call is replaced by its body. The body follows
the discipline from every mode in which the call may be made, and leaves the mode
the call is specified to leave.
-/

namespace Xv6.Proc

open Xv6.Semantics

variable {strict : Prop} {me : Option Slot} {p : Slot} {mode : Mode} {Q : Mode → Prop}

theorem follows_yieldBody (calls : Calls [] mode) (next : Q mode) :
    Follows (rule strict (some p)) Q (yieldBody p) mode := by
  obtain ⟨held, leaving, found, child, waiting⟩ := mode
  obtain ⟨rfl, rfl, rfl⟩ := calls
  refine ⟨by simp, by simp [Mode.NoProc], rfl, ⟨rfl, rfl, rfl⟩, p, ⟨rfl, rfl, rfl, by simp⟩, ?_⟩
  exact ⟨by simp, by simp, by simpa using next⟩

theorem Lock.proc_ne (client : lk.isProc = false) (q : Slot) : Lock.proc q ≠ lk := by
  rintro rfl
  cases client

theorem noProc_singleton (client : lk.isProc = false) : Mode.NoProc [lk] := by
  intro q mem
  exact Lock.proc_ne client q (List.mem_singleton.mp mem)

theorem guarded_singleton (client : lk.isProc = false) : Mode.Guarded [lk] :=
  ⟨by simp, noProc_singleton client⟩

theorem follows_sleepBody (calls : Awake [lk] mode) (client : lk.isProc = false) (next : Q mode) :
    Follows (rule strict (some p)) Q (sleepBody chan lk p) mode := by
  obtain ⟨held, leaving, found, child, waiting⟩ := mode
  obtain ⟨⟨rfl, rfl, rfl⟩, rfl⟩ := calls
  refine ⟨by simp [Lock.proc_ne client], fun _ => noProc_singleton client, rfl,
    ⟨⟨rfl, rfl, rfl⟩, rfl⟩, client, p, ⟨rfl, rfl, rfl, by simp⟩, rfl, ⟨rfl, rfl, rfl⟩,
    by simp, by simp, ?_⟩
  simpa [rule, client] using next

theorem follows_exitBody (status : Int) :
    Follows (rule strict (some p)) Q (exitBody status p) (.holding []) := by
  refine ⟨⟨p, rfl⟩, ⟨⟨rfl, rfl, rfl⟩, rfl⟩, by simp [Mode.holding], by simp [Lock.isProc],
    ⟨rfl, rfl, rfl⟩, ⟨rfl, rfl, rfl⟩, by simp [Mode.holding],
    fun _ => noProc_singleton rfl, rfl, rfl, by simp [Mode.holding], by simp, ?_⟩
  exact ⟨p, ⟨rfl, by simp [Mode.holding], rfl, fun _ => rfl⟩, trivial⟩

theorem follows_forkTail (forks : Forks np mode)
    (next : Q { mode with held := [], child := none }) :
    Follows (rule strict me) Q (forkTail p np) mode := by
  obtain ⟨held, leaving, found, child, waiting⟩ := mode
  obtain ⟨⟨rfl, rfl, rfl⟩, rfl⟩ := forks
  refine ⟨by simp, by simp, by simp, by simp [Lock.isProc], ⟨by simp, rfl, rfl⟩, by simp, by simp,
    by simp, by simp [Mode.NoProc], ⟨⟨by simp, rfl, rfl⟩, rfl⟩, by simp, by simp, ?_⟩
  simpa using next

/-- A visit to another process: lock it, do something that keeps the mode, unlock it. -/
theorem follows_visit (noProc : Mode.NoProc mode.held) (calls : Calls mode.held mode)
    (keeps : ∀ {P : Mode → Prop}, P { mode with held := .proc p :: mode.held } →
      rule strict me op P { mode with held := .proc p :: mode.held })
    (next : Q mode) :
    Follows (rule strict me) Q [.acquire (.proc p), op, .release (.proc p)] mode := by
  refine ⟨noProc p, fun _ => noProc, keeps ⟨by simp, ?_, ?_⟩⟩
  · intro q _
    exact ⟨fun _ => calls.staying, by simp [calls.found]⟩
  · simpa using next

section Locks

variable {rest : List Op} {lk : Lock}

theorem disciplined_release (calls : Calls (lk :: held) mode)
    (next : Disciplined strict me rest { mode with held := held }) :
    Disciplined strict me (.release lk :: rest) mode := by
  refine ⟨by simp [calls.held], fun q _ => ⟨fun _ => calls.staying, by simp [calls.found]⟩, ?_⟩
  rw [calls.held, List.erase_cons_head]
  exact next

theorem disciplined_acquire (calls : Calls [] mode)
    (next : Disciplined strict me rest { mode with held := [lk] }) :
    Disciplined strict me (.acquire lk :: rest) mode := by
  refine ⟨by simp [calls.held], by simp [calls.held, Mode.NoProc], ?_⟩
  rw [calls.held]
  exact next

theorem disciplined_acquire_proc (client : lk.isProc = false) (calls : Calls [lk] mode)
    (next : Disciplined strict me rest { mode with held := [.proc p, lk] }) :
    Disciplined strict me (.acquire (.proc p) :: rest) mode := by
  refine ⟨by simp [calls.held, Lock.proc_ne client], ?_, ?_⟩
  · rw [calls.held]
    exact fun _ => noProc_singleton client
  · rw [calls.held]
    exact next

end Locks
end Xv6.Proc
