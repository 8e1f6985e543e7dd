import Mathlib.Data.Int.Order.Basic
import Mathlib.Data.List.Infix
import Xv6.Proc.Step

/-!
# The token bucket

`allocproc` gives a process 64 tokens, `sched` takes them and `FATCAT_SCHED` adds
them. Neither reads anything but the process and the tick it is called with, so the
calls for one process are a list of their own. `sched` stops at 0, as it tests for 0
in its loop; `FATCAT_SCHED` tests for 64 in front of its loop and does not stop there.
-/

namespace Xv6.Proc

variable {ncpu : Nat} {process : Process} {tokens : Int}

/-- What `sched` does to its process up to its first swtch or its last assignments. -/
def charged (process : Process) (ctick : Nat) : Process :=
  if tickDiff ctick process > 0 ∧ process.state = .runnable then
    payTicks process (tickDiff ctick process)
  else if process.tokenBucket < 1 ∧ process.state = .sleeping then wakeDrained process ctick
  else process

theorem Kernel.charge_proc (kernel : Kernel ncpu) (c : Fin ncpu) (p : Slot) (ctick : Nat)
    (rest : List Op) : ∃ context, (kernel.charge c p ctick rest).proc =
      Function.update kernel.proc p { charged (kernel.proc p) ctick with context := context } := by
  simp only [Kernel.charge, charged]
  by_cases pays : tickDiff ctick (kernel.proc p) > 0 ∧ (kernel.proc p).state = .runnable
  · rw [if_pos pays, if_pos pays]
    exact ⟨(kernel.proc p).context, rfl⟩
  rw [if_neg pays, if_neg pays]
  by_cases drained : (kernel.proc p).tokenBucket < 1 ∧ (kernel.proc p).state = .sleeping
  · rw [if_pos drained, if_pos drained]
    exact ⟨.restore (kernel.cpu c).intena :: .tail p ctick :: rest,
      by simp [Kernel.switchOut]⟩
  · rw [if_neg drained, if_neg drained]
    exact ⟨(kernel.proc p).context, by simp⟩

/-- The accounting calls for a process: `sched`, in the state that its caller has set,
its last assignments, and `FATCAT_SCHED`. -/
inductive Account where
  | charge (state : ProcState) (ctick : Nat)
  | settle (ctick : Nat)
  | refill (currentTick : Nat)

/-- The effect of a call. -/
def Account.apply (process : Process) : Account → Process
  | .charge state ctick => charged { process with state := state } ctick
  | .settle ctick => Proc.settle process ctick
  | .refill currentTick => fatcatSched process currentTick

/-- The effect of calls in a row. -/
def accounts (start : Process) (calls : List Account) : Process := calls.foldl Account.apply start

/-- A process as `allocproc` leaves it. -/
def allocated (process : Process) : Process := { process with tokenBucket := 64 }

/-- A call takes a token for every tick as long as there are any, or adds one for
every ten ticks up to 64. -/
def Account.Exact (process : Process) : Account → Prop
  | .charge state ctick =>
    ((Account.charge state ctick).apply process).tokenBucket = process.tokenBucket -
      if tickDiff ctick process > 0 ∧ state = .runnable then
        min process.tokenBucket (tickDiff ctick process) else 0
  | .settle ctick => ((Account.settle ctick).apply process).tokenBucket = process.tokenBucket
  | .refill currentTick =>
    ((Account.refill currentTick).apply process).tokenBucket = process.tokenBucket +
      if tickDiff currentTick process > 0 then
        min (64 - process.tokenBucket) (tickDiff currentTick process / 10) else 0

/-- The tokens that are added have room in the bucket. -/
def Account.Fits (process : Process) : Account → Prop
  | .refill currentTick => tickDiff currentTick process > 0 →
      process.tokenBucket + tickDiff currentTick process / 10 ≤ 64
  | _ => True

/-- The bucket is neither overdrawn nor overfull. -/
def Process.InBounds (process : Process) : Prop := 0 ≤ process.tokenBucket ∧ process.tokenBucket ≤ 64

/-- Something is true of every call and the process it finds. -/
def AtEachCall (start : Process) (calls : List Account) (Holds : Process → Account → Prop) : Prop :=
  ∀ earlier call, earlier ++ [call] <+: calls → Holds (accounts start earlier) call

/-! ## The loops -/

theorem takeTokens_eq (count : Nat) (positive : 0 ≤ tokens) :
    takeTokens count tokens = tokens - min tokens count := by
  induction count generalizing tokens with
  | zero =>
    rw [takeTokens]
    omega
  | succ count ih =>
    rw [takeTokens]
    split
    · rw [ih (by omega)]
      omega
    · rw [ih positive]
      omega

theorem wrap32_of_small (low : -2 ^ 31 ≤ value) (high : value < 2 ^ 31) : wrap32 value = value := by
  exact Int.bmod_eq_of_le (by omega) (by omega)

theorem wrap32_lt (value : Int) : wrap32 value < 2 ^ 31 := by
  have := Int.bmod_lt (x := value) (m := 2 ^ 32) (by decide)
  unfold wrap32
  omega

theorem addTokens_eq (count i : Nat) (positive : 0 ≤ tokens)
    (small : tokens + (((i + count) / 10 : Nat) - (i / 10 : Nat) : Int) < 2 ^ 31) :
    addTokens count i tokens = tokens + (((i + count) / 10 : Nat) - (i / 10 : Nat) : Int) := by
  induction count generalizing i tokens with
  | zero =>
    rw [addTokens]
    omega
  | succ count ih =>
    rw [addTokens]
    split
    · rw [wrap32_of_small (by omega) (by omega), ih _ (by omega) (by omega)]
      omega
    · rw [ih _ positive (by omega)]
      omega

/-! ## The calls -/

theorem tickDiff_lt (tick : Nat) (process : Process) : tickDiff tick process < 2 ^ 31 := wrap32_lt _

/-- `FATCAT_SCHED` adds a token for every ten ticks to a bucket that is not overfull. -/
theorem fatcatSched_tokenBucket (inBounds : process.InBounds) (currentTick : Nat) :
    (fatcatSched process currentTick).tokenBucket = process.tokenBucket +
      if tickDiff currentTick process > 0 then tickDiff currentTick process / 10 else 0 := by
  have bound := tickDiff_lt currentTick process
  obtain ⟨low, high⟩ := inBounds
  by_cases elapsed : tickDiff currentTick process > 0
  · have refills : process.tokenBucket < 65 ∧ tickDiff currentTick process > 0 := ⟨by omega, elapsed⟩
    simp only [fatcatSched, if_pos refills, if_pos elapsed]
    rw [addTokens_eq _ _ low (by omega)]
    omega
  · have keeps : ¬ (process.tokenBucket < 65 ∧ tickDiff currentTick process > 0) :=
      fun refills => elapsed refills.2
    simp only [fatcatSched, if_neg keeps, if_neg elapsed, Int.add_zero]

theorem Account.charge_exact (inBounds : process.InBounds) (state : ProcState) (ctick : Nat) :
    (Account.charge state ctick).Exact process := by
  unfold Exact
  simp only [apply, charged]
  have same : tickDiff ctick { process with state := state } = tickDiff ctick process := rfl
  rw [same]
  by_cases pays : tickDiff ctick process > 0 ∧ state = .runnable
  · rw [if_pos pays, if_pos pays]
    change takeTokens (tickDiff ctick process).toNat process.tokenBucket = _
    rw [takeTokens_eq _ inBounds.1, Int.toNat_of_nonneg (by omega)]
  · rw [if_neg pays, if_neg pays]
    split
    · exact (Int.sub_zero _).symm
    · exact (Int.sub_zero _).symm

theorem Account.Fits.step {call : Account} (fits : call.Fits process)
    (inBounds : process.InBounds) :
    call.Exact process ∧ (call.apply process).InBounds := by
  cases call with
  | charge state ctick =>
    have isExact := charge_exact inBounds state ctick
    refine ⟨isExact, ?_⟩
    obtain ⟨low, high⟩ := inBounds
    unfold Process.InBounds
    rw [isExact]
    split <;> omega
  | settle ctick => exact ⟨rfl, inBounds⟩
  | refill currentTick =>
    have added := fatcatSched_tokenBucket inBounds currentTick
    obtain ⟨low, high⟩ := inBounds
    unfold Exact Process.InBounds
    simp only [apply]
    split
    · rename_i elapsed
      have := fits elapsed
      omega
    · omega

theorem Account.Exact.fits {call : Account} (isExact : call.Exact process)
    (inBounds : process.InBounds) : call.Fits process := by
  cases call with
  | charge state ctick => trivial
  | settle ctick => trivial
  | refill currentTick =>
    intro elapsed
    unfold Exact at isExact
    simp only [apply, fatcatSched_tokenBucket inBounds, if_pos elapsed] at isExact
    omega

theorem accounts_append (start : Process) (calls : List Account) (call : Account) :
    accounts start (calls ++ [call]) = call.apply (accounts start calls) := by
  rw [accounts, List.foldl_append]
  rfl

theorem inBounds_of_fits (full : start.InBounds)
    (fits : AtEachCall start calls fun found call => call.Fits found) :
    (accounts start calls).InBounds := by
  induction calls using List.reverseRecOn with
  | nil => exact full
  | append_singleton calls call ih =>
    have earlier : AtEachCall start calls fun found call => call.Fits found :=
      fun before next isPrefix => fits before next (isPrefix.trans (List.prefix_append _ _))
    rw [accounts_append]
    exact ((fits calls call (List.prefix_refl _)).step (ih earlier)).2

/-- The bucket stays between 0 and 64 and every call is exact, exactly in those
sequences of calls whose refills have room in the bucket. -/
theorem tokens_exact_iff_fits (process : Process) (calls : List Account) :
    AtEachCall (allocated process) calls
        (fun found call => call.Exact found ∧ (call.apply found).InBounds) ↔
      AtEachCall (allocated process) calls fun found call => call.Fits found := by
  have full : (allocated process).InBounds := ⟨by simp [allocated], by simp [allocated]⟩
  constructor
  · intro always earlier call isPrefix
    have found : (accounts (allocated process) earlier).InBounds := by
      rcases List.eq_nil_or_concat earlier with rfl | ⟨before, last, rfl⟩
      · exact full
      · rw [List.concat_eq_append] at isPrefix ⊢
        rw [accounts_append]
        exact (always before last ((List.prefix_append _ _).trans isPrefix)).2
    exact (always earlier call isPrefix).1.fits found
  intro fits earlier call isPrefix
  have before : AtEachCall (allocated process) earlier fun found call => call.Fits found :=
    fun first next shorter => fits first next
      (shorter.trans ((List.prefix_append _ _).trans isPrefix))
  exact (fits earlier call isPrefix).step (inBounds_of_fits full before)

/-- After ten ticks `FATCAT_SCHED` puts a 65th token into the bucket. -/
theorem refill_overfull :
    ((Account.refill 10).apply (allocated .blank)).tokenBucket = 65 ∧
      ¬ ((Account.refill 10).apply (allocated .blank)).InBounds ∧
      ¬ (Account.refill 10).Exact (allocated .blank) := by
  have added : ((Account.refill 10).apply (allocated .blank)).tokenBucket = 65 := by decide
  refine ⟨added, fun inBounds => ?_, fun isExact => ?_⟩
  · exact absurd inBounds.2 (by rw [added]; decide)
  · simp only [Account.Exact, added] at isExact
    revert isExact
    decide

end Xv6.Proc
