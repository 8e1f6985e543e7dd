import Xv6.Console.Buffer

/-!
# The line discipline of the console

The bytes that the callers of `consoleread` get are the input as the line discipline has
it. Each call ends at a newline, at its length or at `^D`, or is killed.
-/

namespace Xv6.Console

open Function Xv6.Semantics

/-! ## The calls -/

/-- The `consoleread` that the process is in, the bytes that it wants and those that it
has got. -/
def Call.progress : Call → Option (Nat × Nat × List UInt8)
  | .outside => none
  | .reads id n got => some (id, n, got)
  | .sleeps id n got => some (id, n, got)

/-- The `consoleread` calls so far, those in progress being given. -/
structure Numbered {P : Type} (progress : P → Option (Nat × Nat × List UInt8)) (calls : Nat)
    (history : List Event) : Prop where
  got : ∀ {p id n got}, progress p = some (id, n, got) → tookBy id history = got
  called : ∀ {p id n got}, progress p = some (id, n, got) →
    ∀ n', .called id n' ∈ history ↔ n' = n + got.length
  distinct : ∀ {p q id n got n' got'}, progress p = some (id, n, got) →
    progress q = some (id, n', got') → p = q
  less : ∀ {id n}, .called id n ∈ history → id < calls
  fresh : ∀ {id}, calls ≤ id → tookBy id history = []

namespace Numbered

variable {P : Type} {progress next : P → Option (Nat × Nat × List UInt8)} {calls : Nat}
  {history : List Event} {p : P} {id n : Nat} {got : List UInt8}

theorem lt_calls (numbered : Numbered progress calls history)
    (reading : progress p = some (id, n, got)) : id < calls :=
  numbered.less ((numbered.called reading _).mpr rfl)

theorem quiet (numbered : Numbered progress calls history)
    (before : ∀ {q call}, next q = some call → progress q = some call)
    (uncalled : ∀ id n, .called id n ≠ event) (untook : ∀ id, tookBy id [event] = []) :
    Numbered next calls (history ++ [event]) := by
  have called : ∀ id n, .called id n ∈ history ++ [event] ↔ .called id n ∈ history := by
    simp [uncalled]
  have took : ∀ id, tookBy id (history ++ [event]) = tookBy id history := by
    intro id
    rw [tookBy, List.filterMap_append]
    exact (congrArg (tookBy id history ++ ·) (untook id)).trans (List.append_nil _)
  constructor
  · intro q id n got reading
    rw [took]
    exact numbered.got (before reading)
  · intro q id n got reading n'
    rw [called]
    exact numbered.called (before reading) n'
  · exact fun first second => numbered.distinct (before first) (before second)
  · exact fun mem => numbered.less ((called _ _).mp mem)
  · intro id more
    rw [took]
    exact numbered.fresh more

variable [DecidableEq P]

section

variable (numbered : Numbered progress calls history)
include numbered

theorem newCall (n : Nat) :
    Numbered (update progress p (some (calls, n, []))) (calls + 1)
      (history ++ [.called calls n]) := by
  have took : ∀ id, tookBy id (history ++ [.called calls n]) = tookBy id history := by
    simp [tookBy]
  have reads : ∀ {q id m got},
      update progress p (some (calls, n, [])) q = some (id, m, got) →
      q = p ∧ id = calls ∧ m = n ∧ got = [] ∨ progress q = some (id, m, got) ∧ id < calls := by
    intro q id m got reading
    obtain ⟨isP, own⟩ | ⟨-, reading⟩ := update_cases reading
    · cases own
      exact .inl ⟨isP, rfl, rfl, rfl⟩
    · exact .inr ⟨reading, numbered.lt_calls reading⟩
  constructor
  · intro q id m got reading
    rw [took]
    rcases reads reading with ⟨_, rfl, _, rfl⟩ | ⟨reading, _⟩
    · exact numbered.fresh (Nat.le_refl _)
    · exact numbered.got reading
  · intro q id m got reading n'
    simp only [List.mem_append, List.mem_singleton, Event.called.injEq]
    rcases reads reading with ⟨_, rfl, rfl, rfl⟩ | ⟨reading, less⟩
    · have new : .called id n' ∉ history := fun mem =>
        Nat.lt_irrefl _ (numbered.less mem)
      simp [new]
    · rw [numbered.called reading n']
      have ne : id ≠ calls := Nat.ne_of_lt less
      simp [ne]
  · intro q q' id m got m' got' first second
    rcases reads first with ⟨rfl, rfl, _⟩ | ⟨first, less⟩
    · rcases reads second with ⟨rfl, _⟩ | ⟨_, less⟩
      · rfl
      · exact absurd less (Nat.lt_irrefl _)
    · rcases reads second with ⟨_, rfl, _⟩ | ⟨second, _⟩
      · exact absurd less (Nat.lt_irrefl _)
      · exact numbered.distinct first second
  · intro id m mem
    simp only [List.mem_append, List.mem_singleton, Event.called.injEq] at mem
    rcases mem with mem | ⟨rfl, _⟩
    · exact Nat.lt_succ_of_lt (numbered.less mem)
    · exact Nat.lt_succ_self _
  · intro id more
    rw [took]
    exact numbered.fresh (Nat.le_of_succ_le more)

theorem took (reading : progress p = some (id, n + 1, got)) :
    Numbered (update progress p (some (id, n, got ++ [c]))) calls
      (history ++ [.took id c]) := by
  have own : tookBy id (history ++ [.took id c]) = tookBy id history ++ [c] := by
    simp [tookBy]
  have other : ∀ {id'}, id' ≠ id →
      tookBy id' (history ++ [.took id c]) = tookBy id' history := by
    intro id' ne
    simp [tookBy, ne.symm]
  have called : ∀ id' n', .called id' n' ∈ history ++ [.took id c] ↔ .called id' n' ∈ history := by
    simp
  have reads : ∀ {q id' m got'},
      update progress p (some (id, n, got ++ [c])) q = some (id', m, got') →
      q = p ∧ id' = id ∧ m = n ∧ got' = got ++ [c] ∨
        progress q = some (id', m, got') ∧ id' ≠ id ∧ q ≠ p := by
    intro q id' m got' reads
    obtain ⟨isP, own⟩ | ⟨isP, old⟩ := update_cases reads
    · cases own
      exact .inl ⟨isP, rfl, rfl, rfl⟩
    · refine .inr ⟨old, ?_, isP⟩
      rintro rfl
      exact isP (numbered.distinct old reading)
  constructor
  · intro q id' m got' isReading
    rcases reads isReading with ⟨_, rfl, _, rfl⟩ | ⟨isReading, ne, _⟩
    · rw [own, numbered.got reading]
    · rw [other ne, numbered.got isReading]
  · intro q id' m got' isReading n'
    rw [called]
    rcases reads isReading with ⟨_, rfl, rfl, rfl⟩ | ⟨isReading, _⟩
    · rw [numbered.called reading, List.length_append, List.length_singleton]
      omega
    · exact numbered.called isReading n'
  · intro q q' id' m got₁ m' got₂ first second
    rcases reads first with ⟨rfl, rfl, _⟩ | ⟨first, ne, _⟩
    · rcases reads second with ⟨rfl, _⟩ | ⟨_, ne, _⟩
      · rfl
      · exact absurd rfl ne
    · rcases reads second with ⟨_, rfl, _⟩ | ⟨second, _⟩
      · exact absurd rfl ne
      · exact numbered.distinct first second
  · exact fun mem => numbered.less ((called _ _).mp mem)
  · intro id' more
    have less := numbered.lt_calls reading
    rw [other (by omega)]
    exact numbered.fresh more

theorem ended : Numbered (update progress p none) calls (history ++ [.ended id bytes ending]) :=
  numbered.quiet (lookup_of_update (.inl rfl)) (fun _ _ => nofun) fun _ => rfl

end

end Numbered

/-! ## How a call ends -/

/-- How a call for `n` bytes ends with these bytes, where `input` is what it leaves. -/
def Ending.Holds (input : Input) (n : Nat) (bytes : List UInt8) : Ending → Prop
  | .newline => bytes.length ≤ n ∧ ∃ front, bytes = front ++ [Console.newline] ∧
      Console.newline ∉ front
  | .length => bytes.length = n ∧ Console.newline ∉ bytes
  | .endOfFile => bytes.length < n ∧ Console.newline ∉ bytes ∧
      -- `^D` has been taken if there is nothing to return, and is next otherwise.
      input.committed[if bytes = [] then input.taken - 1 else input.taken]? = some controlD
  | .killed => bytes.length < n ∧ Console.newline ∉ bytes

/-- A call ends after `front`. -/
structure Finishes (front : List Event) (id : Nat) (bytes : List UInt8) (ending : Ending) :
    Prop where
  took : tookBy id front = bytes
  unpassed : controlD ∉ bytes
  called : ∃ n, (∀ n', .called id n' ∈ front ↔ n' = n) ∧
    ending.Holds (Input.after notInput front) n bytes

/-- Every call that has ended has ended so. -/
def Finished (history : List Event) : Prop :=
  ∀ front id bytes ending rest, history = front ++ .ended id bytes ending :: rest →
    Finishes front id bytes ending

/-- An event of a history that has grown is the last one or an old one. -/
theorem split_concat {front rest : List Event}
    (split : history ++ [last] = front ++ event :: rest) :
    history = front ∧ last = event ∨ ∃ rest', history = front ++ event :: rest' := by
  rcases List.eq_nil_or_concat rest with rfl | ⟨rest', last', rfl⟩
  · obtain ⟨same, isLast⟩ := List.append_inj' split rfl
    exact .inl ⟨same, List.singleton_inj.mp isLast⟩
  · rw [List.concat_eq_append, ← List.cons_append, ← List.append_assoc] at split
    exact .inr ⟨rest', (List.append_inj' split rfl).1⟩

theorem Finished.quiet (finished : Finished history)
    (notEnd : ∀ id bytes ending, event ≠ .ended id bytes ending) :
    Finished (history ++ [event]) := by
  intro front id bytes ending rest split
  rcases split_concat split with ⟨_, isEnd⟩ | ⟨rest', split⟩
  · exact absurd isEnd (notEnd id bytes ending)
  · exact finished front id bytes ending rest' split

theorem Finished.ended (finished : Finished history) {id : Nat}
    (finishes : Finishes history id bytes ending) :
    Finished (history ++ [.ended id bytes ending]) := by
  intro front id' bytes' ending' rest split
  rcases split_concat split with ⟨rfl, isEnd⟩ | ⟨rest', split⟩
  · cases isEnd
    exact finishes
  · exact finished front id' bytes' ending' rest' split

/-! ## One call after the other -/

theorem Successive.front (successive : Successive (history ++ [event])) : Successive history := by
  intro front id n rest split
  apply successive front id n (rest ++ [event])
  rw [split, List.append_assoc, List.cons_append]

/-- There is at most one call, and the bytes of the others are those that have been copied
except for its own. -/
def AtMostOne {P : Type} (progress : P → Option (Nat × Nat × List UInt8))
    (history : List Event) : Prop :=
  ((∀ p, progress p = none) ∧ inProgress history = 0 ∧ endedBytes history = tookBytes history) ∨
    ∃ p id n got, progress p = some (id, n, got) ∧ (∀ q, q ≠ p → progress q = none) ∧
      inProgress history = 1 ∧ endedBytes history ++ got = tookBytes history

namespace AtMostOne

variable {P : Type} {progress : P → Option (Nat × Nat × List UInt8)} {history : List Event}
  {p : P} {id n : Nat} {got : List UInt8}

section

variable (one : AtMostOne progress history)
include one

theorem only (reading : progress p = some (id, n, got)) :
    (∀ q, q ≠ p → progress q = none) ∧ inProgress history = 1 ∧
      endedBytes history ++ got = tookBytes history := by
  rcases one with ⟨idle, _⟩ | ⟨p', id', n', got', reading', others, count, bytes⟩
  · rw [idle] at reading
    cases reading
  have same : p = p' := by
    by_contra ne
    rw [others p ne] at reading
    cases reading
  subst same
  rw [reading] at reading'
  cases reading'
  exact ⟨others, count, bytes⟩

theorem endedBytes_le : endedBytes history <+: tookBytes history := by
  rcases one with ⟨_, _, same⟩ | ⟨_, _, _, got, _, _, _, whole⟩
  · rw [same]
  · exact ⟨got, whole⟩

theorem quiet (count : inProgress [event] = 0) (ended : endedBytes [event] = [])
    (copied : tookBytes [event] = []) : AtMostOne progress (history ++ [event]) := by
  have count' : inProgress (history ++ [event]) = inProgress history := by
    rw [inProgress, List.map_append, List.sum_append]
    exact (congrArg (inProgress history + ·) count).trans (Int.add_zero _)
  have ended' : endedBytes (history ++ [event]) = endedBytes history := by
    rw [endedBytes, List.filterMap_append, List.flatten_append]
    exact (congrArg (endedBytes history ++ ·) ended).trans (List.append_nil _)
  have copied' : tookBytes (history ++ [event]) = tookBytes history := by
    rw [tookBytes, List.filterMap_append]
    exact (congrArg (tookBytes history ++ ·) copied).trans (List.append_nil _)
  rw [AtMostOne, count', ended', copied']
  exact one

end

variable [DecidableEq P]

section

variable (one : AtMostOne progress history)
include one

theorem called (successive : Successive (history ++ [.called id n])) :
    AtMostOne (update progress p (some (id, n, []))) (history ++ [.called id n]) := by
  have none := successive history id n [] rfl
  rcases one with ⟨idle, _, same⟩ | ⟨_, _, _, _, _, _, one, _⟩
  · refine .inr ⟨p, id, n, [], update_self .., ?_, ?_, ?_⟩
    · intro q ne
      rw [update_of_ne ne]
      exact idle q
    · rw [inProgress, List.map_append, List.sum_append]
      exact congrArg (· + 1) none
    · simpa [endedBytes, tookBytes] using same
  · rw [none] at one
    cases one

theorem took (reading : progress p = some (id, n, got)) :
    AtMostOne (update progress p (some (id, n', got ++ [c])))
      (history ++ [.took id c]) := by
  obtain ⟨others, count, bytes⟩ := one.only reading
  refine .inr ⟨p, id, n', got ++ [c], update_self .., ?_, ?_, ?_⟩
  · intro q ne
    rw [update_of_ne ne]
    exact others q ne
  · simpa [inProgress] using count
  · simp only [endedBytes, tookBytes, List.filterMap_append] at bytes ⊢
    simp [← bytes]

theorem ended (reading : progress p = some (id, n, got)) :
    AtMostOne (update progress p none) (history ++ [.ended id got ending]) := by
  obtain ⟨others, count, bytes⟩ := one.only reading
  refine .inl ⟨?_, ?_, ?_⟩
  · intro q
    by_cases isP : q = p
    · rw [isP, update_self]
    · rw [update_of_ne isP]
      exact others q isP
  · rw [inProgress, List.map_append, List.sum_append]
    exact congrArg (· + -1) count
  · simp only [endedBytes, tookBytes, List.filterMap_append, List.flatten_append] at bytes ⊢
    simpa using bytes

end

end AtMostOne

/-! ## The console -/

/-- What holds of the buffer, the calls in progress and the history. -/
structure Sound {P : Type} (cons : Cons) (progress : P → Option (Nat × Nat × List UInt8))
    (calls : Nat) (history : List Event) : Prop where
  fed : Fed cons history
  numbered : Numbered progress calls history
  plain : ∀ {p id n got}, progress p = some (id, n, got) → newline ∉ got ∧ controlD ∉ got
  finished : Finished history
  successive : Successive history → AtMostOne progress history

namespace Sound

variable {P : Type} {cons : Cons} {progress : P → Option (Nat × Nat × List UInt8)}
  {calls : Nat} {history : List Event} {p : P} {id n : Nat} {got : List UInt8}

theorem typed (sound : Sound cons progress calls history) (c : UInt8) :
    Sound (cons.consoleintr c) progress calls (history ++ [.typed c]) where
  fed := sound.fed.typed c
  numbered := sound.numbered.quiet id (fun _ _ => nofun) fun _ => rfl
  plain := sound.plain
  finished := sound.finished.quiet fun _ _ _ => nofun
  successive := fun successive => (sound.successive successive.front).quiet rfl rfl rfl

theorem passed (sound : Sound cons progress calls history) (notEmpty : cons.r ≠ cons.w)
    (isEnd : cons.buf (slotOf inputBufSize cons.r) = controlD) :
    Sound { cons with r := cons.r + 1 } progress calls (history ++ [.passed id]) where
  fed := by
    apply sound.fed.takes notEmpty
    · exact fun _ => rfl
    · rw [isEnd]
      rfl
  numbered := sound.numbered.quiet (fun reading => reading) (fun _ _ => nofun) fun _ => rfl
  plain := sound.plain
  finished := sound.finished.quiet fun _ _ _ => nofun
  successive := fun successive => (sound.successive successive.front).quiet rfl rfl rfl

variable [DecidableEq P]

section

variable (sound : Sound cons progress calls history)
include sound

theorem called (n : Nat) :
    Sound cons (update progress p (some (calls, n, []))) (calls + 1)
      (history ++ [.called calls n]) where
  fed := sound.fed.quiet (fun _ => rfl) rfl
  numbered := sound.numbered.newCall n
  plain := by
    intro q id' n' got' reading
    obtain ⟨-, own⟩ | ⟨-, reading⟩ := update_cases reading
    · cases own
      exact ⟨List.not_mem_nil, List.not_mem_nil⟩
    · exact sound.plain reading
  finished := sound.finished.quiet fun _ _ _ => nofun
  successive := fun successive => (sound.successive successive.front).called successive

theorem took (reading : progress p = some (id, n + 1, got)) (notEmpty : cons.r ≠ cons.w)
    (isNext : cons.buf (slotOf inputBufSize cons.r) = c) (notEnd : c ≠ controlD)
    (notNewline : c ≠ newline) :
    Sound { cons with r := cons.r + 1 } (update progress p (some (id, n, got ++ [c])))
      calls (history ++ [.took id c]) where
  fed := by
    apply sound.fed.takes notEmpty
    · exact fun _ => rfl
    · rw [isNext]
      simp [tookBytes, notEnd]
  numbered := sound.numbered.took reading
  plain := by
    intro q id' n' got' reading'
    obtain ⟨-, own⟩ | ⟨-, reading'⟩ := update_cases reading'
    · cases own
      obtain ⟨noNewline, noEnd⟩ := sound.plain reading
      simp [noNewline, noEnd, notNewline.symm, notEnd.symm]
    · exact sound.plain reading'
  finished := sound.finished.quiet fun _ _ _ => nofun
  successive := fun successive => (sound.successive successive.front).took reading

theorem ended (reading : progress p = some (id, n, got))
    (holds : ending.Holds (Input.after notInput history) (n + got.length) got) :
    Sound cons (update progress p none) calls (history ++ [.ended id got ending]) where
  fed := sound.fed.quiet (fun _ => rfl) rfl
  numbered := sound.numbered.ended
  plain := fun reading => sound.plain (lookup_of_update (.inl rfl) reading)
  finished := sound.finished.ended
    { took := sound.numbered.got reading
      unpassed := (sound.plain reading).2
      called := ⟨n + got.length, sound.numbered.called reading, holds⟩ }
  successive := fun successive => (sound.successive successive.front).ended reading

theorem line (reading : progress p = some (id, n + 1, got)) (notEmpty : cons.r ≠ cons.w)
    (isNext : cons.buf (slotOf inputBufSize cons.r) = newline) :
    Sound { cons with r := cons.r + 1 } (update progress p none) calls
      (history ++ [.took id newline] ++ [.ended id (got ++ [newline]) .newline]) := by
  have fed : Fed { cons with r := cons.r + 1 } (history ++ [.took id newline]) := by
    apply sound.fed.takes notEmpty
    · exact fun _ => rfl
    · rw [isNext]
      rfl
  have numbered := sound.numbered.took (c := newline) reading
  have own : update progress p (some (id, n, got ++ [newline])) p =
      some (id, n, got ++ [newline]) := update_self ..
  have again : update (update progress p (some (id, n, got ++ [newline]))) p none =
      update progress p none := update_idem ..
  obtain ⟨noNewline, noEnd⟩ := sound.plain reading
  rw [← again]
  constructor
  · exact fed.quiet (fun _ => rfl) rfl
  · exact numbered.ended
  · rw [again]
    exact fun reading => sound.plain (lookup_of_update (.inl rfl) reading)
  · have finished : Finished (history ++ [.took id newline]) :=
      sound.finished.quiet fun _ _ _ => nofun
    refine finished.ended ⟨numbered.got own, ?_, ?_⟩
    · rw [List.mem_append, List.mem_singleton]
      rintro (mem | isNewline)
      · exact noEnd mem
      · revert isNewline
        decide
    · exact ⟨n + (got ++ [newline]).length, numbered.called own, Nat.le_add_left .., got, rfl,
        noNewline⟩
  · intro successive
    exact ((sound.successive successive.front.front).took reading).ended own

end

end Sound

/-- The process is in the loop, with `cons.lock`. -/
def Call.Active : Call → Prop
  | .reads _ _ _ => True
  | _ => False

/-- What holds after every step. -/
structure Disciplined {P : Type} (state : Observed P) : Prop where
  active : ∀ {p}, (state.1.call p).Active → state.1.lock = some p
  sound : Sound state.1.cons (fun p => (state.1.call p).progress) state.1.calls state.2

namespace Disciplined

variable {P : Type} {state : Observed P} {p : P}

variable [DecidableEq P]

/-- The rule for a step of the process that holds the lock, or takes it. -/
theorem steps (obeys : Disciplined state)
    (call : Call) (owned : state.1.lock = none ∨ state.1.lock = some p)
    (isCall : next.call = update state.1.call p call)
    (active : call.Active → next.lock = some p)
    (sound : Sound next.cons
      (update (fun q => (state.1.call q).progress) p call.progress) next.calls history) :
    Disciplined (next, history) := by
  constructor
  · exact fun isActive => holds_of_update obeys.active owned active (isCall ▸ isActive)
  · change Sound _ (Call.progress ∘ next.call) _ _
    rw [isCall, comp_update]
    exact sound

theorem turns (obeys : Disciplined state) (call : Call)
    (owned : state.1.lock = none ∨ state.1.lock = some p)
    (isCall : next.call = update state.1.call p call)
    (active : call.Active → next.lock = some p) (sameCons : next.cons = state.1.cons)
    (sameCalls : next.calls = state.1.calls)
    (sameProgress : call.progress = (state.1.call p).progress) :
    Disciplined (next, state.2) := by
  apply obeys.steps call owned isCall active
  have same : update (fun q => (state.1.call q).progress) p call.progress =
      fun q => (state.1.call q).progress := by
    rw [sameProgress]
    exact update_eq_self p fun q => (state.1.call q).progress
  rw [same, sameCons, sameCalls]
  exact obeys.sound

theorem iterate (obeys : Disciplined state)
    (iterated : Console.iterate state.1 p killed = some (next, events)) :
    Disciplined (next, state.2 ++ events) := by
  have sound := obeys.sound
  have inactive : Call.outside.Active → False := id
  unfold Console.iterate at iterated
  split at iterated
  · rename_i id got isReading
    have locked : state.1.lock = some p := obeys.active (by rw [isReading]; trivial)
    have reading : (state.1.call p).progress = some (id, 0, got) := by rw [isReading]; rfl
    cases iterated
    apply obeys.steps .outside (.inr locked) rfl fun active => (inactive active).elim
    exact sound.ended reading ⟨(Nat.zero_add _).symm, (sound.plain reading).1⟩
  · rename_i id n got isReading
    have locked : state.1.lock = some p := obeys.active (by rw [isReading]; trivial)
    have reading : (state.1.call p).progress = some (id, n + 1, got) := by rw [isReading]; rfl
    have less : got.length < n + 1 + got.length := by omega
    obtain ⟨noNewline, noEnd⟩ := sound.plain reading
    split at iterated
    · split at iterated
      · cases iterated
        apply obeys.steps .outside (.inr locked) rfl fun active => (inactive active).elim
        exact sound.ended reading ⟨less, noNewline⟩
      · cases iterated
        rw [List.append_nil]
        exact obeys.turns (.sleeps id (n + 1) got) (.inr locked) rfl
          (fun active => active.elim) rfl rfl reading.symm
    rename_i notEmpty
    obtain ⟨isNext, _⟩ := sound.fed.keeps.take notEmpty
    simp only at iterated
    split at iterated
    · rename_i isEnd
      rw [isEnd] at isNext
      split at iterated
      · rename_i some
        cases iterated
        apply obeys.steps .outside (.inr locked) rfl fun active => (inactive active).elim
        refine sound.ended reading ⟨less, noNewline, ?_⟩
        rw [if_neg some]
        exact isNext
      rename_i nothing
      have nothing : got = [] := not_not.mp nothing
      cases iterated
      apply obeys.steps .outside (.inr locked) rfl fun active => (inactive active).elim
      have passed : Sound { state.1.cons with r := state.1.cons.r + 1 }
          (fun q => (state.1.call q).progress) state.1.calls (state.2 ++ [.passed id]) :=
        sound.passed notEmpty isEnd
      rw [← List.singleton_append, ← List.append_assoc]
      refine passed.ended reading ⟨less, noNewline, ?_⟩
      rw [if_pos nothing, after_concat]
      exact isNext
    rename_i notEnd
    split at iterated
    · rename_i isNewline
      cases iterated
      apply obeys.steps .outside (.inr locked) rfl fun active => (inactive active).elim
      rw [← List.singleton_append, ← List.append_assoc, isNewline]
      exact sound.line reading notEmpty isNewline
    rename_i notNewline
    cases iterated
    refine obeys.steps (p := p) (.reads id n (got ++ [_])) (.inr locked) (by exact rfl)
      (fun _ => by exact locked) ?_
    exact sound.took reading notEmpty rfl notEnd notNewline
  · cases iterated

theorem step (obeys : Disciplined state)
    (observed : observedStep state label = some next) : Disciplined next := by
  obtain ⟨⟨after, events⟩, ran, rfl⟩ := Option.map_eq_some_iff.mp observed
  change Disciplined (after, state.2 ++ events)
  cases label with
  | consoleintr c =>
    simp only [Console.step] at ran
    split at ran
    · cases ran
      exact ⟨obeys.active, obeys.sound.typed c⟩
    · cases ran
  | consoleread p n =>
    simp only [Console.step] at ran
    split at ran
    · rename_i free
      cases ran
      apply obeys.steps (.reads state.1.calls n []) (.inl free) rfl fun _ => rfl
      exact obeys.sound.called n
    · cases ran
  | wakes p =>
    simp only [Console.step] at ran
    split at ran
    · rename_i id n got isSleeping free
      cases ran
      rw [List.append_nil]
      exact obeys.turns (.reads id n got) (.inl free) rfl (fun _ => rfl) rfl rfl
        (by rw [isSleeping]; rfl)
    · cases ran
  | goesOn p killed => exact obeys.iterate ran

omit [DecidableEq P] in
theorem initial (initial : state.1.Initial) (empty : state.2 = []) : Disciplined state := by
  obtain ⟨r, w, e, free, outside, calls⟩ := initial
  have nobody : ∀ p, (state.1.call p).progress = none := by
    intro p
    rw [outside]
    rfl
  have idle : ∀ {p call}, (state.1.call p).progress = some call → False := by
    intro p call reading
    rw [nobody] at reading
    cases reading
  constructor
  · intro p active
    rw [outside] at active
    exact active.elim
  rw [empty]
  constructor
  · have nothing : gap state.1.cons.r state.1.cons.e = 0 := by
      rw [r, e]
      exact gap_self 0
    refine ⟨⟨Nat.le_refl _, ?_, ?_, ?_, List.not_mem_nil⟩, rfl⟩
    · rw [r, w]
      exact gap_self 0
    · rw [nothing]
      rfl
    · rw [nothing]
      exact Nat.zero_le _
  · constructor
    · exact fun reading => (idle reading).elim
    · exact fun reading => (idle reading).elim
    · exact fun reading => (idle reading).elim
    · intro id n mem
      cases mem
    · exact fun _ => rfl
  · exact fun reading => (idle reading).elim
  · intro front id bytes ending rest split
    have lengths := congrArg List.length split
    simp at lengths
  · exact fun _ => .inl ⟨nobody, rfl, rfl⟩

end Disciplined

theorem disciplined_of_run {P : Type} [DecidableEq P] {start state : Observed P}
    {labels : List (Label P)} (run : (console P).Runs start labels state) :
    Disciplined state := by
  have initial : ∀ state, (console P).Initial state → Disciplined state :=
    fun _ valid => .initial valid.1 valid.2
  exact run.invariant initial fun {_ _ _} obeys transition => obeys.step transition

/-! ## The result -/

/-- The characters that erase. -/
def erases (c : UInt8) : Prop := c = controlU ∨ c = controlH ∨ c = delete

theorem Cons.kill_frame (fuel : Nat) (cons : Cons) :
    cons.kill fuel = { cons with e := (cons.kill fuel).e } := by
  induction fuel generalizing cons with
  | zero => rfl
  | succ fuel ih =>
    rw [Cons.kill]
    split
    · exact ih { cons with e := cons.e - 1 }
    · rfl

theorem Cons.consoleintr_erases (cons : Cons) (isErase : erases c) :
    cons.consoleintr c = { cons with e := (cons.consoleintr c).e } := by
  rcases isErase with rfl | rfl | rfl
  · exact cons.kill_frame _
  · change (if cons.e ≠ cons.w then { cons with e := cons.e - 1 } else cons) =
      { cons with e := (if cons.e ≠ cons.w then { cons with e := cons.e - 1 } else cons).e }
    split <;> rfl
  · change (if cons.e ≠ cons.w then { cons with e := cons.e - 1 } else cons) =
      { cons with e := (if cons.e ≠ cons.w then { cons with e := cons.e - 1 } else cons).e }
    split <;> rfl

/-- After any run of the interrupt handler and the readers: the indices are in order and
at most the size of the buffer apart; erasing changes nothing but the edit index and does
not move it before `w`; the bytes that have been copied to the callers are, in order, the
first part of the input as the line discipline has it, without the `^D` in it; each call
that has ended has returned what it has copied, and has ended at a newline, at its length
or at `^D`, or was killed; and where one call follows the other, the bytes of the calls
that have ended are, in order, the first of those that have been copied. -/
theorem console_lineDiscipline {P : Type} [DecidableEq P] {start state : Observed P}
    {labels : List (Label P)} (run : (console P).Runs start labels state) :
    (gap state.1.cons.r state.1.cons.w ≤ gap state.1.cons.r state.1.cons.e ∧
      gap state.1.cons.r state.1.cons.e ≤ inputBufSize) ∧
    (∀ c, erases c →
      state.1.cons.consoleintr c =
        { state.1.cons with e := (state.1.cons.consoleintr c).e } ∧
      gap state.1.cons.r state.1.cons.w ≤ gap state.1.cons.r (state.1.cons.consoleintr c).e) ∧
    tookBytes state.2 = ((Input.after notInput state.2).committed.take
      (Input.after notInput state.2).taken).filter (· ≠ controlD) ∧
    Finished state.2 ∧
    (Successive state.2 → endedBytes state.2 <+: tookBytes state.2) := by
  have disciplined := disciplined_of_run run
  have keeps := disciplined.sound.fed.keeps
  refine ⟨⟨keeps.ready_le, keeps.room⟩, fun c isErase => ?_, disciplined.sound.fed.copied,
    disciplined.sound.finished, fun successive =>
      (disciplined.sound.successive successive).endedBytes_le⟩
  have frame := state.1.cons.consoleintr_erases isErase
  have order := (keeps.consoleintr c).ready_le
  rw [frame] at order
  exact ⟨frame, order⟩

/-- The console before the first interrupt. -/
def freshConsole : Observed Bool :=
  ({ cons := ⟨fun _ => 0, 0, 0, 0⟩
     lock := none
     call := fun _ => .outside
     calls := 0 }, [])

theorem freshConsole_initial : (console Bool).Initial freshConsole :=
  ⟨⟨rfl, rfl, rfl, rfl, fun _ => rfl, rfl⟩, rfl⟩

/-- `ab`, backspace, `c` and return are typed while a reader waits, which gets the line. -/
def editsLine : List (Label Bool) :=
  [.consoleread true 10, .goesOn true false, .consoleintr 97, .consoleintr 98,
    .consoleintr controlH, .consoleintr 99, .consoleintr carriageReturn, .wakes true,
    .goesOn true false, .goesOn true false, .goesOn true false]

theorem console_lineDiscipline_editsLine :
    ∃ state, (console Bool).Runs freshConsole editsLine state ∧
      .ended 0 [97, 99, newline] .newline ∈ state.2 ∧
      tookBytes state.2 = [97, 99, newline] ∧
      tookBytes state.2 = ((Input.after notInput state.2).committed.take
        (Input.after notInput state.2).taken).filter (· ≠ controlD) := by
  obtain ⟨state, run, returned, took⟩ : ∃ state, (console Bool).Runs freshConsole editsLine state ∧
      .ended 0 [97, 99, newline] .newline ∈ state.2 ∧ tookBytes state.2 = [97, 99, newline] :=
    TransitionSystem.exists_runs freshConsole_initial (by decide +kernel)
  exact ⟨state, run, returned, took, (console_lineDiscipline run).2.2.1⟩

/-- 0, `a` and return are typed, and a reader gets the line. -/
def typesNul : List (Label Bool) :=
  [.consoleintr 0, .consoleintr 97, .consoleintr carriageReturn, .consoleread true 10,
    .goesOn true false, .goesOn true false]

/-- A 0 that is typed is not returned: the bytes of the reader are not a first part of the
input with the editing alone applied to it. -/
theorem nul_not_returned :
    ∃ state, (console Bool).Runs freshConsole typesNul state ∧
      endedBytes state.2 = [97, newline] ∧
      (Input.after (fun _ => false) state.2).committed = [0, 97, newline] ∧
      ¬endedBytes state.2 <+: (Input.after (fun _ => false) state.2).committed := by
  exact TransitionSystem.exists_runs freshConsole_initial (by decide +kernel)

end Xv6.Console
