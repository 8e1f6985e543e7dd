import Xv6.Pipe.Transfer

/-!
# A pipe is a queue

The bytes that have been stored are those that have been returned, those that the
reader has in hand and those between `nread` and `nwrite`, in this order. Of the bytes
of each `pipewrite` a first part has been stored, and all of them once it has returned.
-/

namespace Xv6.Pipes

open Function Xv6.Semantics

variable {α P : Type}

/-- The process is in a loop, with `pi->lock`. -/
def Call.Active : Call α → Prop
  | .writes _ _ => True
  | .awaits _ => True
  | .copies _ _ => True
  | _ => False

/-- The `pipewrite` that the process is in, and the bytes that it has still to store. -/
def Call.writing : Call α → Option (Nat × List α)
  | .writes id rest => some (id, rest)
  | .sleepsToWrite id rest => some (id, rest)
  | _ => none

/-- The bytes that a reader has in hand. -/
def Call.got : Call α → List α
  | .copies _ got => got
  | _ => []

/-- The bytes in hand of the process that holds the lock. -/
def State.inHand (state : State α P) : List α :=
  match state.lock with
  | some p => (state.call p).got
  | none => []

/-- The bytes in the pipe. -/
def State.queue (state : State α P) : List α :=
  window state.pipe.data state.pipe.nread (gap state.pipe.nread state.pipe.nwrite)

/-- The `pipewrite` calls so far, those in progress being given. -/
structure Numbered (writing : P → Option (Nat × List α)) (calls : Nat)
    (history : List (Event α)) : Prop where
  inProgress : ∀ {p id rest}, writing p = some (id, rest) →
    ∃ source, .called id source ∈ history ∧ acceptedBy id history ++ rest = source
  distinct : ∀ {p q id rest rest'}, writing p = some (id, rest) → writing q = some (id, rest') →
    p = q
  started : ∀ {id source}, .called id source ∈ history →
    id < calls ∧ acceptedBy id history <+: source
  unique : ∀ {id source source'}, .called id source ∈ history → .called id source' ∈ history →
    source = source'
  ended : ∀ {id}, .wrote id ∈ history → id < calls ∧ (∀ p rest, writing p ≠ some (id, rest)) ∧
    ∀ {source}, .called id source ∈ history → acceptedBy id history = source
  fresh : ∀ {id}, calls ≤ id → acceptedBy id history = []

/-- What holds after every step. -/
structure Fifo (state : Observed α P) : Prop where
  bounded : gap state.1.pipe.nread state.1.pipe.nwrite ≤ pipeSize
  active : ∀ {p}, (state.1.call p).Active → state.1.lock = some p
  ordered : returnedBytes state.2 ++ state.1.inHand ++ state.1.queue = acceptedBytes state.2
  numbered : Numbered (fun p => (state.1.call p).writing) state.1.calls state.2

theorem pipeSize_dvd : pipeSize ∣ 2 ^ 32 := by decide

theorem acceptedBytes_append (history events : List (Event α)) :
    acceptedBytes (history ++ events) = acceptedBytes history ++ acceptedBytes events := by
  simp [acceptedBytes]

theorem returnedBytes_append (history events : List (Event α)) :
    returnedBytes (history ++ events) = returnedBytes history ++ returnedBytes events := by
  simp [returnedBytes]

/-! ## The calls -/

namespace Numbered

variable {writing next : P → Option (Nat × List α)} {calls : Nat} {history : List (Event α)}
  {p : P} {id : Nat} {rest : List α}

section

variable (numbered : Numbered writing calls history)
include numbered

theorem lt_calls (isWriting : writing p = some (id, rest)) :
    id < calls := by
  obtain ⟨source, called, _⟩ := numbered.inProgress isWriting
  exact (numbered.started called).1

theorem quiet (before : ∀ {q call}, next q = some call → writing q = some call) :
    Numbered next calls history := by
  refine
    { numbered with
      inProgress := fun isWriting => numbered.inProgress (before isWriting)
      distinct := fun first second => numbered.distinct (before first) (before second)
      ended := ?_ }
  intro id wrote
  obtain ⟨less, notWriting, whole⟩ := numbered.ended wrote
  exact ⟨less, fun q rest isWriting => notWriting q rest (before isWriting), whole⟩

theorem ends (called : ∀ {id source}, .called id source ∈ later → .called id source ∈ history)
    (kept : ∀ {id source}, .called id source ∈ history → .called id source ∈ later)
    (same : ∀ id, acceptedBy id later = acceptedBy id history)
    (ended : ∀ {id}, .wrote id ∈ later → id < calls ∧ (∀ p rest, writing p ≠ some (id, rest)) ∧
      ∀ {source}, .called id source ∈ history → acceptedBy id history = source) :
    Numbered writing calls later := by
  constructor
  · intro q id rest isWriting
    obtain ⟨source, mem, whole⟩ := numbered.inProgress isWriting
    exact ⟨source, kept mem, by rw [same, whole]⟩
  · exact numbered.distinct
  · intro id source mem
    rw [same]
    exact numbered.started (called mem)
  · exact fun first second => numbered.unique (called first) (called second)
  · intro id wrote
    obtain ⟨less, notWriting, whole⟩ := ended wrote
    refine ⟨less, notWriting, fun mem => ?_⟩
    rw [same]
    exact whole (called mem)
  · intro id more
    rw [same]
    exact numbered.fresh more

theorem returned (bytes : List α) :
    Numbered writing calls (history ++ [.returned bytes]) := by
  apply numbered.ends
  · exact fun mem => by simpa using mem
  · exact fun mem => by simp [mem]
  · intro id
    simp [acceptedBy]
  · exact fun wrote => numbered.ended (by simpa using wrote)

end

variable [DecidableEq P]

section

variable (numbered : Numbered writing calls history)
include numbered

theorem called (source : List α) :
    Numbered (update writing p (some (calls, source))) (calls + 1)
      (history ++ [.called calls source]) := by
  have accepted : ∀ id, acceptedBy id (history ++ [.called calls source]) = acceptedBy id history := by
    simp [acceptedBy]
  have before : ∀ {id source'}, .called id source' ∈ history ++ [.called calls source] →
      .called id source' ∈ history ∧ id < calls ∨ id = calls ∧ source' = source := by
    intro id source' mem
    simp only [List.mem_append, List.mem_singleton, Event.called.injEq] at mem
    rcases mem with mem | new
    · exact .inl ⟨mem, (numbered.started mem).1⟩
    · exact .inr new
  have writes : ∀ {q id rest}, update writing p (some (calls, source)) q = some (id, rest) →
      q = p ∧ id = calls ∧ rest = source ∨ writing q = some (id, rest) ∧ id < calls := by
    intro q id rest isWriting
    obtain ⟨isP, own⟩ | ⟨-, isWriting⟩ := update_cases isWriting
    · cases own
      exact .inl ⟨isP, rfl, rfl⟩
    · exact .inr ⟨isWriting, numbered.lt_calls isWriting⟩
  constructor
  · intro q id rest isWriting
    rw [accepted]
    rcases writes isWriting with ⟨_, rfl, rfl⟩ | ⟨isWriting, _⟩
    · exact ⟨rest, by simp, by rw [numbered.fresh (Nat.le_refl _), List.nil_append]⟩
    · obtain ⟨source', mem, whole⟩ := numbered.inProgress isWriting
      exact ⟨source', by simp [mem], whole⟩
  · intro q q' id rest rest' first second
    rcases writes first with ⟨rfl, rfl, _⟩ | ⟨first, less⟩
    · rcases writes second with ⟨rfl, _⟩ | ⟨_, less⟩
      · rfl
      · exact absurd less (Nat.lt_irrefl _)
    · rcases writes second with ⟨_, rfl, _⟩ | ⟨second, _⟩
      · exact absurd less (Nat.lt_irrefl _)
      · exact numbered.distinct first second
  · intro id source' mem
    rw [accepted]
    rcases before mem with ⟨mem, less⟩ | ⟨rfl, rfl⟩
    · exact ⟨Nat.lt_succ_of_lt less, (numbered.started mem).2⟩
    · rw [numbered.fresh (Nat.le_refl _)]
      exact ⟨Nat.lt_succ_self _, List.nil_prefix⟩
  · intro id source₁ source₂ first second
    rcases before first with ⟨first, less⟩ | ⟨rfl, rfl⟩
    · rcases before second with ⟨second, _⟩ | ⟨rfl, _⟩
      · exact numbered.unique first second
      · exact absurd less (Nat.lt_irrefl _)
    · rcases before second with ⟨_, less⟩ | ⟨_, rfl⟩
      · exact absurd less (Nat.lt_irrefl _)
      · rfl
  · intro id wrote
    have wrote : .wrote id ∈ history := by simpa using wrote
    obtain ⟨less, notWriting, whole⟩ := numbered.ended wrote
    refine ⟨Nat.lt_succ_of_lt less, fun q rest isWriting => ?_, fun {source'} mem => ?_⟩
    · rcases writes isWriting with ⟨_, rfl, _⟩ | ⟨isWriting, _⟩
      · exact absurd less (Nat.lt_irrefl _)
      · exact notWriting q rest isWriting
    · rw [accepted]
      rcases before mem with ⟨mem, _⟩ | ⟨rfl, _⟩
      · exact whole mem
      · exact absurd less (Nat.lt_irrefl _)
  · intro id more
    rw [accepted]
    exact numbered.fresh (Nat.le_of_succ_le more)

theorem accepted (isWriting : writing p = some (id, byte :: rest)) :
    Numbered (update writing p (some (id, rest))) calls
      (history ++ [.accepted id byte]) := by
  have own : acceptedBy id (history ++ [.accepted id byte]) = acceptedBy id history ++ [byte] := by
    simp [acceptedBy]
  have other : ∀ {id'}, id' ≠ id →
      acceptedBy id' (history ++ [.accepted id byte]) = acceptedBy id' history := by
    intro id' ne
    simp [acceptedBy, ne.symm]
  have calledBefore : ∀ {id' source}, .called id' source ∈ history ++ [.accepted id byte] →
      .called id' source ∈ history := fun mem => by simpa using mem
  obtain ⟨source, isCalled, whole⟩ := numbered.inProgress isWriting
  have split : acceptedBy id history ++ [byte] ++ rest = source := by simpa using whole
  constructor
  · intro q id' rest' writes
    obtain ⟨-, ends⟩ | ⟨isP, old⟩ := update_cases writes
    · cases ends
      exact ⟨source, by simp [isCalled], by rw [own, split]⟩
    have ne : id' ≠ id := by
      rintro rfl
      exact isP (numbered.distinct old isWriting)
    obtain ⟨source', mem, whole'⟩ := numbered.inProgress old
    exact ⟨source', by simp [mem], by rw [other ne, whole']⟩
  · intro q q' id' rest₁ rest₂ first second
    have before : ∀ {q rest'}, update writing p (some (id, rest)) q = some (id', rest') →
        ∃ rest'', writing q = some (id', rest'') := by
      intro q rest' writes
      obtain ⟨rfl, ends⟩ | ⟨-, writes⟩ := update_cases writes
      · cases ends
        exact ⟨_, isWriting⟩
      · exact ⟨_, writes⟩
    obtain ⟨_, first⟩ := before first
    obtain ⟨_, second⟩ := before second
    exact numbered.distinct first second
  · intro id' source' mem
    obtain ⟨less, isPrefix⟩ := numbered.started (calledBefore mem)
    by_cases same : id' = id
    · subst same
      rw [own, numbered.unique (calledBefore mem) isCalled, ← split]
      exact ⟨less, List.prefix_append ..⟩
    · rw [other same]
      exact ⟨less, isPrefix⟩
  · exact fun first second => numbered.unique (calledBefore first) (calledBefore second)
  · intro id' wrote
    have wrote : .wrote id' ∈ history := by simpa using wrote
    obtain ⟨less, notWriting, whole'⟩ := numbered.ended wrote
    have ne : id' ≠ id := by
      rintro rfl
      exact notWriting p _ isWriting
    refine ⟨less, fun q rest' writes => ?_, fun mem => ?_⟩
    · obtain ⟨-, ends⟩ | ⟨-, writes⟩ := update_cases writes
      · cases ends
        exact ne rfl
      · exact notWriting q rest' writes
    · rw [other ne]
      exact whole' (calledBefore mem)
  intro id' more
  have ne : id' ≠ id := by
    have less := numbered.lt_calls isWriting
    omega
  rw [other ne]
  exact numbered.fresh more

theorem wrote (isWriting : writing p = some (id, [])) :
    Numbered (update writing p none) calls (history ++ [.wrote id]) := by
  have less := numbered.lt_calls isWriting
  have quiet : Numbered (update writing p none) calls history :=
    numbered.quiet (lookup_of_update (.inl rfl))
  apply quiet.ends
  · exact fun mem => by simpa using mem
  · exact fun mem => by simp [mem]
  · intro id'
    simp [acceptedBy]
  intro id' mem
  simp only [List.mem_append, List.mem_singleton, Event.wrote.injEq] at mem
  rcases mem with mem | rfl
  · exact quiet.ended mem
  refine ⟨less, fun q rest' writes => ?_, fun {source} mem => ?_⟩
  · obtain ⟨-, ends⟩ | ⟨isP, writes⟩ := update_cases writes
    · cases ends
    · exact isP (numbered.distinct writes isWriting)
  · obtain ⟨source', isCalled, whole⟩ := numbered.inProgress isWriting
    rw [numbered.unique mem isCalled, ← whole, List.append_nil]

end

end Numbered

/-! ## The queue -/

namespace Fifo

variable {state : Observed α P} {p : P}

variable [DecidableEq P]

section

variable (fifo : Fifo state)
include fifo

/-- The rule for a step of the process that holds the lock, or takes it. -/
theorem steps (call : Call α) (owned : state.1.lock = none ∨ state.1.lock = some p)
    (isCall : next.call = update state.1.call p call)
    (active : call.Active → next.lock = some p)
    (bounded : gap next.pipe.nread next.pipe.nwrite ≤ pipeSize)
    (ordered : returnedBytes history ++ next.inHand ++ next.queue = acceptedBytes history)
    (numbered : Numbered (update (fun q => (state.1.call q).writing) p call.writing)
      next.calls history) : Fifo (next, history) := by
  refine ⟨bounded, ?_, ordered, ?_⟩
  · exact fun isActive => holds_of_update fifo.active owned active (isCall ▸ isActive)
  · change Numbered (Call.writing ∘ next.call) _ _
    rw [isCall, comp_update]
    exact numbered

/-- The process takes the lock, gives it back or goes on with it, and nothing is seen. -/
theorem moves (call : Call α) (lock : Option P)
    (owned : state.1.lock = none ∨ state.1.lock = some p) (active : call.Active → lock = some p)
    (writing : call.writing = none ∨ call.writing = (state.1.call p).writing)
    (hand : ({ state.1.setCall p call with lock := lock } : State α P).inHand = state.1.inHand) :
    Fifo ({ state.1.setCall p call with lock := lock }, state.2) := by
  refine fifo.steps call owned rfl active fifo.bounded ?_
    (fifo.numbered.quiet (lookup_of_update writing))
  rw [hand]
  exact fifo.ordered

theorem calls (free : state.1.lock = none) (source : List α) :
    Fifo ({ state.1.enters p (.writes state.1.calls source) with calls := state.1.calls + 1 },
      state.2 ++ [.called state.1.calls source]) := by
  refine fifo.steps (p := p) (.writes state.1.calls source) (.inl free) rfl (fun _ => rfl)
    fifo.bounded ?_ (fifo.numbered.called source)
  have before := fifo.ordered
  rw [State.inHand, free] at before
  rw [returnedBytes_append, acceptedBytes_append, ← before]
  simp [State.inHand, State.enters, State.setCall, Call.got, returnedBytes, acceptedBytes,
    State.queue]

theorem stores {id : Nat} (isWriting : state.1.call p = .writes id (byte :: rest))
    (notFull : state.1.pipe.nwrite ≠ state.1.pipe.nread + BitVec.ofNat 32 pipeSize) :
    Fifo ((state.1.put byte).setCall p (.writes id rest), state.2 ++ [.accepted id byte]) := by
  have locked : state.1.lock = some p := fifo.active (by rw [isWriting]; trivial)
  have room : gap state.1.pipe.nread state.1.pipe.nwrite < pipeSize := by
    refine Nat.lt_of_le_of_ne fifo.bounded fun full => notFull ?_
    exact (gap_eq_iff (by decide)).mp full
  have grown : gap state.1.pipe.nread (state.1.pipe.nwrite + 1) =
      gap state.1.pipe.nread state.1.pipe.nwrite + 1 := by
    apply gap_succ_last
    have small : pipeSize < 2 ^ 32 := by decide
    omega
  refine fifo.steps (p := p) (.writes id rest) (.inr locked) rfl (fun _ => locked) ?_ ?_
    (fifo.numbered.accepted (by simp only [isWriting, Call.writing]))
  · exact grown ▸ room
  have before := fifo.ordered
  have hand : state.1.inHand = [] := by
    rw [State.inHand, locked]
    simp only [isWriting, Call.got]
  have handAfter : ((state.1.put byte).setCall p (.writes id rest)).inHand = [] := by
    simp [State.inHand, State.setCall, State.put, locked, Call.got]
  have queue : ((state.1.put byte).setCall p (.writes id rest)).queue =
      state.1.queue ++ [byte] := by
    have pushed : window (update state.1.pipe.data (slotOf pipeSize
        (state.1.pipe.nread +
          BitVec.ofNat 32 (gap state.1.pipe.nread state.1.pipe.nwrite))) byte)
        state.1.pipe.nread (gap state.1.pipe.nread state.1.pipe.nwrite + 1) =
        state.1.queue ++ [byte] := window_push pipeSize_dvd room byte
    rw [add_gap] at pushed
    simp only [State.queue, State.setCall, State.put, grown]
    exact pushed
  rw [hand] at before
  rw [returnedBytes_append, acceptedBytes_append, handAfter, queue, ← before]
  simp [returnedBytes, acceptedBytes]

/-- A call that has stored or copied its bytes returns. -/
theorem finishes {event : Event α} (active : (state.1.call p).Active)
    (accepts : acceptedBytes [event] = []) (returns : returnedBytes [event] = (state.1.call p).got)
    (numbered : Numbered (update (fun q => (state.1.call q).writing) p none) state.1.calls
      (state.2 ++ [event])) : Fifo (state.1.leaves p .outside, state.2 ++ [event]) := by
  have locked := fifo.active active
  refine fifo.steps (p := p) .outside (.inr locked) rfl nofun fifo.bounded ?_
    numbered
  have before := fifo.ordered
  rw [State.inHand, locked] at before
  rw [returnedBytes_append, acceptedBytes_append, ← before, accepts, returns]
  simp [State.inHand, State.leaves, State.setCall, State.queue]

theorem returns (isReading : state.1.call p = .copies n got) :
    Fifo (state.1.leaves p .outside, state.2 ++ [.returned got]) := by
  refine fifo.finishes (by rw [isReading]; trivial) rfl ?_ (.returned ?_ got)
  · simp [isReading, Call.got, returnedBytes]
  · exact fifo.numbered.quiet (lookup_of_update (.inl rfl))

theorem takes (isReading : state.1.call p = .copies (n + 1) got)
    (notEmpty : state.1.pipe.nread ≠ state.1.pipe.nwrite) :
    Fifo (state.1.skip.setCall p (.copies n (got ++ [state.1.front])), state.2) := by
  have locked : state.1.lock = some p := fifo.active (by rw [isReading]; trivial)
  have shrunk := gap_succ_first notEmpty
  refine fifo.steps (p := p) (.copies n (got ++ [state.1.front])) (.inr locked) rfl
    (fun _ => locked) ?_ ?_ (fifo.numbered.quiet (lookup_of_update (.inl rfl)))
  · have bounded := fifo.bounded
    simp only [State.setCall, State.skip]
    omega
  · have before := fifo.ordered
    have queue : state.1.queue = state.1.front ::
        (state.1.skip.setCall p (.copies n (got ++ [state.1.front]))).queue := by
      rw [State.queue, ← shrunk, window_succ_first]
      rfl
    rw [State.inHand, locked] at before
    simp only [isReading, Call.got] at before
    have hand : (state.1.skip.setCall p (.copies n (got ++ [state.1.front]))).inHand =
        got ++ [state.1.front] := by
      simp [State.inHand, State.setCall, State.skip, locked, Call.got]
    rw [hand, ← before, queue]
    simp

theorem iterate (iterated : Pipes.iterate state.1 p killed = some (next, events)) :
    Fifo (next, state.2 ++ events) := by
  have leaves : ∀ {call : Call α}, (state.1.call p).Active → (state.1.call p).got = [] →
      ¬call.Active → (call.writing = none ∨ call.writing = (state.1.call p).writing) →
      Fifo (state.1.leaves p call, state.2 ++ []) := by
    intro call active got inactive writing
    have locked := fifo.active active
    rw [List.append_nil]
    refine fifo.moves (p := p) call none (.inr locked) (fun isActive => (inactive isActive).elim)
      writing ?_
    rw [State.inHand, State.inHand, locked]
    exact got.symm
  unfold Pipes.iterate at iterated
  split at iterated
  · rename_i id isWriting
    cases iterated
    exact fifo.finishes (by rw [isWriting]; trivial) rfl (by rw [isWriting]; rfl)
      (fifo.numbered.wrote (by simp only [isWriting, Call.writing]))
  · rename_i id byte rest isWriting
    split at iterated
    · cases iterated
      exact leaves (by rw [isWriting]; trivial) (by rw [isWriting]; rfl) nofun (.inl rfl)
    split at iterated
    · cases iterated
      exact leaves (by rw [isWriting]; trivial) (by rw [isWriting]; rfl) nofun
        (.inr (by rw [isWriting]; rfl))
    · rename_i notFull
      cases iterated
      exact fifo.stores isWriting notFull
  · rename_i n isReading
    split at iterated
    · split at iterated
      · cases iterated
        exact leaves (by rw [isReading]; trivial) (by rw [isReading]; rfl) nofun (.inl rfl)
      · cases iterated
        exact leaves (by rw [isReading]; trivial) (by rw [isReading]; rfl) nofun (.inl rfl)
    cases iterated
    have locked : state.1.lock = some p := fifo.active (by rw [isReading]; trivial)
    rw [List.append_nil]
    refine fifo.moves (p := p) (.copies n []) state.1.lock (.inr locked) (fun _ => locked)
      (.inl rfl) ?_
    simp [State.inHand, State.setCall, locked, isReading, Call.got]
  · rename_i got isReading
    cases iterated
    exact fifo.returns isReading
  · rename_i n got isReading
    split at iterated
    · cases iterated
      exact fifo.returns isReading
    · rename_i notEmpty
      cases iterated
      rw [List.append_nil]
      exact fifo.takes isReading notEmpty
  · cases iterated

theorem step (observed : observedStep state label = some next) : Fifo next := by
  obtain ⟨⟨after, events⟩, ran, rfl⟩ := Option.map_eq_some_iff.mp observed
  change Fifo (after, state.2 ++ events)
  have enters : ∀ {p} {call : Call α}, state.1.lock = none → call.got = [] →
      (call.writing = none ∨ call.writing = (state.1.call p).writing) →
      Fifo (state.1.enters p call, state.2 ++ []) := by
    intro p call free got writing
    rw [List.append_nil]
    apply fifo.moves (p := p) call (some p) (.inl free) (fun _ => rfl) writing
    rw [State.inHand, State.inHand, free]
    simp [State.setCall, got]
  cases label with
  | pipewrite p source =>
    simp only [Pipes.step] at ran
    split at ran
    · rename_i free
      cases ran
      exact fifo.calls free source
    · cases ran
  | piperead p n =>
    simp only [Pipes.step] at ran
    split at ran
    · rename_i free
      cases ran
      exact enters free rfl (.inl rfl)
    · cases ran
  | pipeclose writable =>
    simp only [Pipes.step] at ran
    split at ran
    · cases ran
      rw [List.append_nil]
      cases writable
      · exact ⟨fifo.bounded, fifo.active, fifo.ordered, fifo.numbered⟩
      · exact ⟨fifo.bounded, fifo.active, fifo.ordered, fifo.numbered⟩
    · cases ran
  | wakes p =>
    simp only [Pipes.step] at ran
    split at ran
    · rename_i id rest isSleeping free
      cases ran
      exact enters free rfl (.inr (by rw [isSleeping]; rfl))
    · rename_i n isSleeping free
      cases ran
      exact enters free rfl (.inl rfl)
    · cases ran
  | goesOn p killed => exact fifo.iterate ran

end

omit [DecidableEq P] in
theorem initial (initial : state.1.Initial) (empty : state.2 = []) : Fifo state := by
  obtain ⟨nread, nwrite, _, _, free, outside, calls⟩ := initial
  have nothing : gap state.1.pipe.nread state.1.pipe.nwrite = 0 := by
    rw [nread, nwrite]
    exact gap_self 0
  refine ⟨?_, ?_, ?_, ?_, ?_, ?_, ?_, ?_, ?_⟩
  · rw [nothing]
    exact Nat.zero_le _
  · intro p active
    rw [outside] at active
    exact active.elim
  · rw [State.inHand, free, State.queue, nothing, empty]
    rfl
  · intro p id rest isWriting
    simp only [outside, Call.writing] at isWriting
    cases isWriting
  · intro p q id rest rest' isWriting
    simp only [outside, Call.writing] at isWriting
    cases isWriting
  · simp [empty]
  · simp [empty]
  · simp [empty]
  · simp [empty, acceptedBy]

end Fifo

/-- What is promised of a pipe and its calls so far: it holds at most `PIPESIZE` bytes;
the bytes returned are the first of the bytes stored; and of each `pipewrite` a first
part of its bytes has been stored, all of them when it has returned their number. -/
structure Lossless (state : Observed α P) : Prop where
  bounded : (state.1.pipe.nwrite - state.1.pipe.nread).toNat ≤ pipeSize
  returned : returnedBytes state.2 <+: acceptedBytes state.2
  accepted : ∀ id source, .called id source ∈ state.2 → acceptedBy id state.2 <+: source
  whole : ∀ id source, .called id source ∈ state.2 → .wrote id ∈ state.2 →
    acceptedBy id state.2 = source
  single : ∀ id source source', .called id source ∈ state.2 → .called id source' ∈ state.2 →
    source = source'

/-- A pipe is a lossless queue in every run of its users. -/
theorem pipe_lossless [DecidableEq P] {start state : Observed α P} {labels : List (Label α P)}
    (run : (pipe α P).Runs start labels state) : Lossless state := by
  have initial : ∀ state, (pipe α P).Initial state → Fifo state :=
    fun _ valid => Fifo.initial valid.1 valid.2
  have fifo := run.invariant initial fun {_ _ _} fifo transition => fifo.step transition
  refine ⟨fifo.bounded, ?_, ?_, ?_, ?_⟩
  · rw [← fifo.ordered, List.append_assoc]
    exact List.prefix_append ..
  · exact fun id source called => (fifo.numbered.started called).2
  · exact fun id source called wrote => (fifo.numbered.ended wrote).2.2 called
  · exact fun id source source' => fifo.numbered.unique

/-- A pipe with two users. -/
def freshPipe : Observed Nat Bool :=
  ({ pipe := ⟨fun _ => 0, 0, 0, true, true⟩
     lock := none
     call := fun _ => .outside
     calls := 0 }, [])

/-- A reader waits, a writer stores three bytes, and the reader takes two of them. -/
def sendsThree : List (Label Nat Bool) :=
  [.piperead true 2, .goesOn true false, .pipewrite false [7, 8, 9], .goesOn false false,
    .goesOn false false, .goesOn false false, .goesOn false false, .wakes true,
    .goesOn true false, .goesOn true false, .goesOn true false, .goesOn true false]

theorem pipe_lossless_sendsThree :
    ∃ state, (pipe Nat Bool).Runs freshPipe sendsThree state ∧ returnedBytes state.2 = [7, 8] ∧
      acceptedBytes state.2 = [7, 8, 9] ∧ Lossless state := by
  have initial : (pipe Nat Bool).Initial freshPipe :=
    ⟨⟨rfl, rfl, rfl, rfl, rfl, fun _ => rfl, rfl⟩, rfl⟩
  obtain ⟨state, run, returned, accepted⟩ : ∃ state, (pipe Nat Bool).Runs freshPipe sendsThree
      state ∧ returnedBytes state.2 = [7, 8] ∧ acceptedBytes state.2 = [7, 8, 9] :=
    TransitionSystem.exists_runs initial (by decide +kernel)
  exact ⟨state, run, returned, accepted, pipe_lossless run⟩

end Xv6.Pipes
